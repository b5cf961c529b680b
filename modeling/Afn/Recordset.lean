import Afn.Console
import Afn.Query

/-!
# Loading from the data base

`TYQMySQLQuery` of `YQDB.cpp` as `TQuery` and `DBManager.cpp` use it, and `JzqList::LoadJzq` of `ConnectionList.cpp`,
which goes through the rows of a result one after another. The answers of the MySQL client are a parameter: the
columns and the rows of a result, or none when the query fails.
-/

namespace Afn

open Bytes Access TelnetServer

abbrev Row := List (Option Bytes)

/-! ## Results -/

/-- A stored result. A value is `none` for `NULL`; `data_cursor` is what is left to fetch. -/
structure MYSQL_RES where
  fields : List Bytes
  rows : List Row
  data_cursor : List Row
  current_row : Option Row

namespace MYSQL_RES

def dataSeek (res : MYSQL_RES) (offset : Nat) : MYSQL_RES :=
  { res with data_cursor := res.rows.drop offset, current_row := none }

def fetchRow (res : MYSQL_RES) : Option Row × MYSQL_RES :=
  match res.data_cursor with
  | row :: rest => (some row, { res with data_cursor := rest, current_row := some row })
  | [] => (none, { res with current_row := none })

end MYSQL_RES

namespace TParams

def asInteger (Value : Option Bytes) : Int :=
  match Value with
  | some s => atoi s
  | none => 0

-- a `std::string` cannot be made of `NULL`
def asString (Value : Option Bytes) : Except Fault Bytes :=
  match Value with
  | some s => .ok (cString s)
  | none => .error .null

end TParams

structure TYQMySQLQuery where
  m_res : Option MYSQL_RES
  bEof : Bool

namespace TYQMySQLQuery

-- `Open` behind `Close`, with the answer to the text of the query
def openWith (answer : Option (List Bytes × List Row)) : TYQMySQLQuery :=
  match answer with
  | some (fields, rows) => ⟨some ⟨fields, rows, rows, none⟩, rows.isEmpty⟩
  | none => ⟨none, true⟩

def close : TYQMySQLQuery := ⟨none, true⟩

def fetch (q : TYQMySQLQuery) (res : MYSQL_RES) : TYQMySQLQuery :=
  let (m_row, res) := res.fetchRow
  { q with m_res := some res, bEof := m_row.isNone }

def first (q : TYQMySQLQuery) : TYQMySQLQuery :=
  match q.m_res with
  | some res => q.fetch (res.dataSeek 0)
  | none => q

def next (q : TYQMySQLQuery) : TYQMySQLQuery :=
  match q.m_res with
  | some res => q.fetch res
  | none => q

def getRecordCount (q : TYQMySQLQuery) : Nat := (q.m_res.map fun res => res.rows.length).getD 0

/-- The value is `NULL` when there is no such column. Without a current row it is a fault. -/
def fieldByName (q : TYQMySQLQuery) (szFieldName : Bytes) : Except Fault (Option Bytes) :=
  match q.m_res with
  | none => .error .null
  | some res =>
    match res.fields.idxOf? szFieldName with
    | none => .ok none
    | some i =>
      match res.current_row with
      | none => .error .null
      | some row =>
        match row[i]? with
        | some v => .ok v
        | none => .error .outOfBounds

end TYQMySQLQuery

/-! ## The query that all share -/

structure DBManager where
  query : TQuery
  result : TYQMySQLQuery
  RecordCount : Nat

namespace DBManager

section
variable (mysql : Bytes → Option (List Bytes × List Row))

def openQuery (self : DBManager) (sql : Bytes) : Except Fault DBManager := do
  let query ← self.query.addSQL sql
  let query ← query.replaceSql
  let result := (TYQMySQLQuery.openWith (query.sql.bind mysql)).first
  return ⟨query, result.first, result.getRecordCount⟩

end

def closeQuery (self : DBManager) : DBManager := { self with result := TYQMySQLQuery.close }

/-- The loop over the rows, in each turn of which `read` is called; the fuel is more than the rows that are left. -/
def fetchAll {α : Type} (read : TYQMySQLQuery → Except Fault α) :
    (fuel : Nat) → DBManager → Except Fault (List α × DBManager)
  | 0, _ => .error .outOfFuel
  | fuel + 1, self =>
    if 0 < self.RecordCount ∧ self.result.bEof = false then do
      let a ← read self.result
      let (as, self) ← fetchAll read fuel { self with result := self.result.next }
      return (a :: as, self)
    else .ok ([], self)

end DBManager

namespace JzqList

open TParams

def jzqSql : Bytes := ascii "select * from gc_equipmentjzq"

-- at most 86 characters, so it fits in `sqlBuf`
def electSql (m_areacode m_number : UInt16) : Bytes :=
  ascii ("select * from gc_equipmentelect where EquipmentCjqArea=" ++ toString m_areacode.toNat ++
    " and EquipmentCjqAddr=" ++ toString m_number.toNat)

def readJzq (query : TYQMySQLQuery) : Except Fault Jzq := do
  let areacode := asInteger (← query.fieldByName (ascii "EquipmentCjqArea"))
  let address := asInteger (← query.fieldByName (ascii "EquipmentCjqAddr"))
  let name ← asString (← query.fieldByName (ascii "EquipmentName"))
  return Jzq.construct (nameOf name) (UInt16.ofInt areacode) (UInt16.ofInt address) 0x01

def readElement (query : TYQMySQLQuery) : Except Fault Element := do
  let pn := asInteger (← query.fieldByName (ascii "EquipmentCjqPn"))
  let id := asInteger (← query.fieldByName (ascii "ID"))
  return ⟨id, pn⟩

section
variable (mysql : Bytes → Option (List Bytes × List Row))

def select {α : Type} (read : TYQMySQLQuery → Except Fault α) (manager : DBManager) (sql : Bytes) :
    Except Fault (List α × DBManager) := do
  let manager ← manager.openQuery mysql sql
  let manager := { manager with result := manager.result.first }
  let (as, manager) ← manager.fetchAll read (manager.RecordCount + 1)
  return (as, manager.closeQuery)

def selectElements : List Jzq → DBManager → Except Fault (List Jzq × DBManager)
  | [], manager => .ok ([], manager)
  | p :: ps, manager => do
    let (eles, manager) ← select mysql readElement manager (electSql p.m_areacode p.m_number)
    let (ps, manager) ← selectElements ps manager
    return ({ p with eleLst := p.eleLst ++ eles } :: ps, manager)

/-- `LoadJzq` with its queries. -/
def selectJzq (self : JzqList) (manager : DBManager) : Except Fault (JzqList × DBManager) := do
  let (new, manager) ← select mysql readJzq manager jzqSql
  let (m_jzqList, manager) ← selectElements mysql (self.m_jzqList ++ new) manager
  return ({ self with m_jzqList := m_jzqList }, manager)

end

end JzqList

end Afn
