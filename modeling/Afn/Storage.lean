import Afn.Recordset
import Afn.ToDB

/-!
# Storing readings

`ExecSQL` of `YQDB.cpp` below `OpenQuery` of `DBManager.cpp`, by which the `toDB` of `AFN0C.cpp` sends its statement.
What `saveResultToDB` calls `toDB` for one after another is the list `stored` of a `World`. The MySQL server is a
parameter: what it makes of a statement, and the data base behind it.
-/

namespace Afn

open Bytes Access TelnetServer

/-- A statement fails, has rows, or changes so many rows. -/
inductive Answer
  | error
  | rows (fields : List Bytes) (rows : List Row)
  | affected (n : Nat)

section
variable {δ : Type} (mysql : δ → Bytes → Answer × δ)

namespace TYQMySQLQuery

def execSQL (q : TYQMySQLQuery) (m_FSQL : Option Bytes) (db : δ) : Int × TYQMySQLQuery × δ :=
  match m_FSQL with
  | none => (-1, q, db)
  | some sql =>
    match mysql db sql with
    | (.error, db) => (-1, close, db)
    | (.rows fields rows, db) => (-1, ⟨some ⟨fields, rows, rows, none⟩, true⟩, db)
    | (.affected n, db) => (n, close, db)

end TYQMySQLQuery

namespace DBManager

-- `OpenQuery` when it is not for a `select`; nobody looks at the result
def execQuery (self : DBManager) (sql : Bytes) (db : δ) : Except Fault (DBManager × δ) := do
  let query ← self.query.addSQL sql
  let query ← query.replaceSql
  let (_, result, db) := self.result.execSQL mysql query.sql db
  return ({ self with query := query, result := result }, db)

end DBManager

structure Storage (δ : Type) where
  manager : DBManager
  db : δ

namespace Storage

def exec (s : Storage δ) (row : Insert) : Except Fault (Storage δ) := do
  let (manager, db) ← s.manager.execQuery mysql (ascii row.text) s.db
  return ⟨manager.closeQuery, db⟩

/-- There is no result when a value is read that has not been set. -/
def toDB (s : Storage δ) (jzqList : JzqList) (call : AppCall) (data : AckData) : Option (Int × Storage δ) := do
  let (ret, rows) ← data.toDB jzqList call.m_areacode call.m_number call.m_fn call.m_pn
  let s ← (rows.foldlM (exec mysql) s).toOption
  return (ret, s)

/-- What is saved one after another, with the list of the concentrators as it is at that time; returns the results. -/
def saveAll : List (JzqList × AppCall × AckData) → Storage δ → Option (List Int × Storage δ)
  | [], s => some ([], s)
  | (jzqList, call, data) :: rest, s => do
    let (ret, s) ← s.toDB mysql jzqList call data
    let (rets, s) ← saveAll rest s
    return (ret :: rets, s)

end Storage

end

end Afn
