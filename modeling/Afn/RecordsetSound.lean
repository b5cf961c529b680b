import Afn.Recordset
import Afn.QuerySound
import Mathlib.Data.List.Forall2

/-!
# Loading is reading the tables

The loops over the rows are `JzqList.loadJzq` of the tables that the rows show, in whatever state the query was left.
A concentrator without a name ends the loading.
-/

namespace Afn

open Bytes Access TelnetServer

/-! ## The query -/

namespace TQuery

theorem createLoop_plain {sql : Bytes} : ∀ count, 0 ∉ sql → colon ∉ sql →
    createLoop (sql ++ [0]) count none = .ok (sql, []) := by
  induction sql with
  | nil => exact fun count _ _ => rfl
  | cons c sql ih =>
    intro count h0 hcolon
    obtain ⟨hc0, h0⟩ := List.ne_and_not_mem_of_not_mem_cons h0
    obtain ⟨hcc, hcolon⟩ := List.ne_and_not_mem_of_not_mem_cons hcolon
    rw [List.cons_append, createLoop_char hc0.symm fun h => hcc.symm h.1, ih _ h0 hcolon]
    rfl

end TQuery

/-! ## Rows -/

/-- The value of a column; a column that is not there reads as `NULL`. -/
def valueOf (fields : List Bytes) (row : Row) (name : Bytes) : Option Bytes :=
  ((fields.idxOf? name).bind fun i => row[i]?).join

namespace TYQMySQLQuery

theorem fieldByName_eq {fields : List Bytes} {rows data : List Row} {row : Row} {bEof : Bool} (name : Bytes)
    (hwidth : row.length = fields.length) :
    fieldByName ⟨some ⟨fields, rows, data, some row⟩, bEof⟩ name = .ok (valueOf fields row name) := by
  unfold fieldByName valueOf
  simp only
  cases hi : fields.idxOf? name with
  | none => rfl
  | some i =>
    obtain ⟨hlt, -⟩ := List.idxOf?_eq_some_iff.mp hi
    rw [← hwidth] at hlt
    simp only [List.getElem?_eq_getElem hlt, Option.bind_some, Option.join_some]

end TYQMySQLQuery

namespace DBManager

theorem openQuery_eq (mysql : Bytes → Option (List Bytes × List Row)) (self : DBManager) {sql : Bytes} (h0 : 0 ∉ sql)
    (hcolon : TQuery.colon ∉ sql) :
    self.openQuery mysql sql = .ok ⟨⟨some sql, [], []⟩, (TYQMySQLQuery.openWith (mysql sql)).first.first,
      (TYQMySQLQuery.openWith (mysql sql)).first.getRecordCount⟩ := by
  have hadd : self.query.addSQL sql = .ok ⟨some sql, [], []⟩ := by
    rw [TQuery.addSQL_eq, cString_eq h0, TQuery.createLoop_plain 0 h0 hcolon]
    rfl
  unfold openQuery
  rw [hadd]
  rfl

section
variable {α : Type} {read : TYQMySQLQuery → Except Fault α} {f : Row → Except Fault α} {fields : List Bytes}
  {rows : List Row}
  (hread : ∀ row ∈ rows, ∀ data, read ⟨some ⟨fields, rows, data, some row⟩, false⟩ = f row)
include hread

theorem fetchAll_eq (query : TQuery) {count : Nat} (hcount : 0 < count) : ∀ (data : List Row) (row : Row) (fuel : Nat),
    (∀ r ∈ row :: data, r ∈ rows) → data.length + 2 ≤ fuel →
    fetchAll read fuel ⟨query, ⟨some ⟨fields, rows, data, some row⟩, false⟩, count⟩ =
      ((row :: data).mapM f).map fun as => (as, ⟨query, ⟨some ⟨fields, rows, [], none⟩, true⟩, count⟩) := by
  intro data
  induction data with
  | nil =>
    intro row fuel hmem hfuel
    obtain ⟨fuel, rfl⟩ := Nat.exists_eq_add_of_le' hfuel
    have hrow := hread row (hmem row List.mem_cons_self) []
    have hend : fetchAll read (fuel + 1) ⟨query, ⟨some ⟨fields, rows, [], none⟩, true⟩, count⟩ =
        .ok ([], ⟨query, ⟨some ⟨fields, rows, [], none⟩, true⟩, count⟩) := if_neg fun h => nomatch h.2
    refine (if_pos ⟨hcount, rfl⟩).trans ?_
    rw [hrow, List.mapM_cons, List.mapM_nil]
    cases f row with
    | error e => rfl
    | ok a =>
      show fetchAll read (fuel + 1) _ >>= _ = _
      rw [show TYQMySQLQuery.next _ = (⟨some ⟨fields, rows, [], none⟩, true⟩ : TYQMySQLQuery) from rfl, hend]
      rfl
  | cons next data ih =>
    intro row fuel hmem hfuel
    obtain ⟨fuel, rfl⟩ := Nat.exists_eq_add_of_le' hfuel
    obtain ⟨hrow, hrest⟩ := List.forall_mem_cons.mp hmem
    refine (if_pos ⟨hcount, rfl⟩).trans ?_
    rw [hread row hrow (next :: data), List.mapM_cons]
    cases f row with
    | error e => rfl
    | ok a =>
      have hih := ih next (fuel + (next :: data).length + 1) hrest (by rw [List.length_cons]; omega)
      show fetchAll read (fuel + (next :: data).length + 1) _ >>= _ = _
      rw [show TYQMySQLQuery.next _ = (⟨some ⟨fields, rows, data, some next⟩, false⟩ : TYQMySQLQuery) from rfl, hih]
      cases (next :: data).mapM f with
      | error e => rfl
      | ok as => rfl

/-- A query reads all rows of its result, once each and in order. -/
theorem select_eq (mysql : Bytes → Option (List Bytes × List Row)) (manager : DBManager) {sql : Bytes} (h0 : 0 ∉ sql)
    (hcolon : TQuery.colon ∉ sql) (hanswer : mysql sql = some (fields, rows)) :
    JzqList.select mysql read manager sql =
      (rows.mapM f).map fun as => (as, ⟨⟨some sql, [], []⟩, TYQMySQLQuery.close, rows.length⟩) := by
  unfold JzqList.select
  rw [openQuery_eq mysql manager h0 hcolon, hanswer]
  cases hrows : rows with
  | nil => rfl
  | cons row rest =>
    subst hrows
    have hall := fetchAll_eq hread ⟨some sql, [], []⟩ (Nat.succ_pos rest.length) rest row (rest.length + 2)
      (fun r hr => hr) (Nat.le_refl _)
    show fetchAll read (rest.length + 2) ⟨⟨some sql, [], []⟩, ⟨some ⟨fields, row :: rest, rest, some row⟩, false⟩,
      rest.length + 1⟩ >>= _ = _
    rw [hall]
    cases (row :: rest).mapM f with
    | error e => rfl
    | ok as => rfl

end

end DBManager

/-! ## Texts of the queries -/

namespace JzqList

theorem ascii_append (a b : String) : ascii (a ++ b) = ascii a ++ ascii b := by
  simp [ascii, String.toList_append]

theorem ascii_digits {n : Nat} {c : UInt8} (h : c ∈ ascii (toString n)) : 48 ≤ c ∧ c ≤ 57 := by
  obtain ⟨d, hd, rfl⟩ := List.mem_map.mp h
  rw [Nat.toString_eq_repr, Nat.toList_repr] at hd
  obtain ⟨hlow, hhigh⟩ := Char.isDigit_iff_toNat.mp (Nat.isDigit_of_mem_toDigits (by decide) (by decide) hd)
  have hlow : 48 ≤ d.toNat := hlow
  have hhigh : d.toNat ≤ 57 := hhigh
  rw [UInt8.le_iff_toNat_le, UInt8.le_iff_toNat_le, UInt8.toNat_ofNat', Nat.mod_eq_of_lt (by omega)]
  exact ⟨hlow, hhigh⟩

theorem electSql_plain (m_areacode m_number : UInt16) :
    0 ∉ electSql m_areacode m_number ∧ TQuery.colon ∉ electSql m_areacode m_number := by
  have hno : ∀ c : UInt8, c ∉ ascii "select * from gc_equipmentelect where EquipmentCjqArea=" →
      c ∉ ascii " and EquipmentCjqAddr=" → ¬ (48 ≤ c ∧ c ≤ 57) → c ∉ electSql m_areacode m_number := by
    intro c hfirst hsecond hdigit hc
    unfold electSql at hc
    simp only [ascii_append, List.mem_append] at hc
    rcases hc with ((hc | hc) | hc) | hc
    · exact hfirst hc
    · exact hdigit (ascii_digits hc)
    · exact hsecond hc
    · exact hdigit (ascii_digits hc)
  exact ⟨hno 0 (by decide +kernel) (by decide +kernel) (by decide),
    hno TQuery.colon (by decide +kernel) (by decide +kernel) (by decide)⟩

theorem toDigits_of_ascii (n : Nat) :
    (ascii (toString n)).map (fun c => Char.ofNat c.toNat) = Nat.toDigits 10 n := by
  unfold ascii
  rw [Nat.toString_eq_repr, Nat.toList_repr, List.map_map]
  refine (List.map_congr_left fun d hd => ?_).trans (List.map_id _)
  have hhigh := (Char.isDigit_iff_toNat.mp (Nat.isDigit_of_mem_toDigits (by decide) (by decide) hd)).2
  have hlt : d.toNat < 256 := Nat.lt_of_le_of_lt hhigh (by decide)
  rw [Function.comp_apply, UInt8.toNat_ofNat', Nat.mod_eq_of_lt hlt, Char.ofNat_toNat, id_eq]

theorem ascii_toString_inj {m n : Nat} (h : ascii (toString m) = ascii (toString n)) : m = n := by
  rw [← @Nat.ofDigitChars_ten_toDigits m, ← @Nat.ofDigitChars_ten_toDigits n, ← toDigits_of_ascii,
    ← toDigits_of_ascii, h]

theorem electSql_inj {a n a' n' : UInt16} (h : electSql a n = electSql a' n') : a = a' ∧ n = n' := by
  have hdigits : ∀ k : Nat, ∀ c ∈ ascii (toString k), (c != 32) = true := by
    intro k c hc
    apply bne_iff_ne.mpr
    rintro rfl
    exact absurd (ascii_digits hc).1 (by decide)
  have hsep : ascii " and EquipmentCjqAddr=" = 32 :: ascii "and EquipmentCjqAddr=" := by decide +kernel
  unfold electSql at h
  simp only [ascii_append, List.append_assoc, List.append_cancel_left_eq, hsep, List.cons_append] at h
  have harea := congrArg (List.takeWhile (· != 32)) h
  have haddr := congrArg (List.dropWhile (· != 32)) h
  rw [List.takeWhile_append_of_pos (hdigits _), List.takeWhile_append_of_pos (hdigits _)] at harea
  rw [List.dropWhile_append_of_pos (hdigits _), List.dropWhile_append_of_pos (hdigits _)] at haddr
  simp at harea haddr
  exact ⟨UInt16.toNat_inj.mp (ascii_toString_inj harea), UInt16.toNat_inj.mp (ascii_toString_inj haddr)⟩

theorem jzqSql_plain : 0 ∉ jzqSql ∧ TQuery.colon ∉ jzqSql := by decide +kernel

end JzqList

/-! ## Tables -/

/-- A row of `gc_equipmentjzq`, the name of which may be `NULL`. -/
structure EquipmentJzq where
  EquipmentCjqArea : Int
  EquipmentCjqAddr : Int
  EquipmentName : Option String

def EquipmentJzq.row (r : EquipmentJzq) : Option JzqRow :=
  r.EquipmentName.map fun name => ⟨r.EquipmentCjqArea, r.EquipmentCjqAddr, name⟩

structure ShowsJzq (fields : List Bytes) (row : Row) (r : EquipmentJzq) : Prop where
  width : row.length = fields.length
  area : TParams.asInteger (valueOf fields row (ascii "EquipmentCjqArea")) = r.EquipmentCjqArea
  addr : TParams.asInteger (valueOf fields row (ascii "EquipmentCjqAddr")) = r.EquipmentCjqAddr
  name : (valueOf fields row (ascii "EquipmentName")).map (fun s => nameOf (cString s)) = r.EquipmentName

structure ShowsElect (fields : List Bytes) (row : Row) (r : ElectRow) : Prop where
  width : row.length = fields.length
  pn : TParams.asInteger (valueOf fields row (ascii "EquipmentCjqPn")) = r.EquipmentCjqPn
  id : TParams.asInteger (valueOf fields row (ascii "ID")) = r.ID

/-- The server answers the two queries from the tables. -/
structure Serves (mysql : Bytes → Option (List Bytes × List Row)) (jzqs : List EquipmentJzq) (elects : List ElectRow) :
    Prop where
  jzqs : ∃ fields rows, mysql JzqList.jzqSql = some (fields, rows) ∧ List.Forall₂ (ShowsJzq fields) rows jzqs
  elects : ∀ a n : UInt16, ∃ fields rows, mysql (JzqList.electSql a n) = some (fields, rows) ∧
    List.Forall₂ (ShowsElect fields) rows (elects.filter fun r =>
      r.EquipmentCjqArea == (a.toNat : Int) && r.EquipmentCjqAddr == (n.toNat : Int))

theorem mapM_of_forall₂ {α β γ : Type} {R : α → β → Prop} {f : α → Except Fault γ} {g : β → Except Fault γ}
    (hfg : ∀ a b, R a b → f a = g b) {as : List α} {bs : List β} (h : List.Forall₂ R as bs) :
    as.mapM f = bs.mapM g := by
  induction h with
  | nil => rfl
  | cons hab _ ih => rw [List.mapM_cons, List.mapM_cons, hfg _ _ hab, ih]

theorem exists_of_forall₂ {α β : Type} {R : α → β → Prop} {as : List α} {bs : List β} (h : List.Forall₂ R as bs) :
    ∀ a ∈ as, ∃ b, R a b := by
  induction h with
  | nil => exact fun a ha => absurd ha List.not_mem_nil
  | cons hab _ ih => exact List.forall_mem_cons.mpr ⟨⟨_, hab⟩, ih⟩

namespace JzqList

section
variable {fields : List Bytes} {rows data : List Row} {row : Row} {bEof : Bool}

def made (r : EquipmentJzq) : Except Fault Jzq :=
  match r.row with
  | some r => .ok r.jzq
  | none => .error .null

theorem readJzq_eq {r : EquipmentJzq} (h : ShowsJzq fields row r) :
    readJzq ⟨some ⟨fields, rows, data, some row⟩, bEof⟩ = made r := by
  have hname := h.name
  unfold readJzq made EquipmentJzq.row
  simp only [TYQMySQLQuery.fieldByName_eq _ h.width]
  cases hv : valueOf fields row (ascii "EquipmentName") with
  | none =>
    rw [hv] at hname
    rw [← hname]
    rfl
  | some s =>
    rw [hv] at hname
    rw [← hname, ← h.area, ← h.addr]
    rfl

theorem readElement_eq {r : ElectRow} (h : ShowsElect fields row r) :
    readElement ⟨some ⟨fields, rows, data, some row⟩, bEof⟩ = .ok ⟨r.ID, r.EquipmentCjqPn⟩ := by
  unfold readElement
  simp only [TYQMySQLQuery.fieldByName_eq _ h.width]
  rw [← h.pn, ← h.id]
  rfl

end

theorem mapM_made (rs : List EquipmentJzq) : rs.mapM made =
    match rs.mapM EquipmentJzq.row with
    | some rows => .ok (rows.map JzqRow.jzq)
    | none => .error .null := by
  induction rs with
  | nil => rfl
  | cons r rs ih =>
    rw [List.mapM_cons, List.mapM_cons, ih]
    unfold made
    cases r.row with
    | none => rfl
    | some row =>
      cases rs.mapM EquipmentJzq.row with
      | none => rfl
      | some rows => rfl

theorem mapM_ok {α β : Type} (g : α → β) (as : List α) :
    (as.mapM fun a => (.ok (g a) : Except Fault β)) = .ok (as.map g) := by
  induction as with
  | nil => rfl
  | cons a as ih =>
    rw [List.mapM_cons, ih]
    rfl

section
variable {mysql : Bytes → Option (List Bytes × List Row)} {jzqs : List EquipmentJzq} {elects : List ElectRow}
  (h : Serves mysql jzqs elects)
include h

theorem select_jzq (manager : DBManager) : ∃ manager', select mysql readJzq manager jzqSql =
    (jzqs.mapM made).map fun as => (as, manager') := by
  obtain ⟨fields, rows, hanswer, hrows⟩ := h.jzqs
  have hread : ∀ row ∈ rows, ∀ data, readJzq ⟨some ⟨fields, rows, data, some row⟩, false⟩ =
      readJzq ⟨some ⟨fields, [], [], some row⟩, false⟩ := by
    intro row hrow data
    obtain ⟨r, hr⟩ := exists_of_forall₂ hrows row hrow
    rw [readJzq_eq hr, readJzq_eq hr]
  refine ⟨⟨⟨some jzqSql, [], []⟩, TYQMySQLQuery.close, rows.length⟩, ?_⟩
  rw [DBManager.select_eq hread mysql manager jzqSql_plain.1 jzqSql_plain.2 hanswer,
    mapM_of_forall₂ (fun row r hr => readJzq_eq hr) hrows]

theorem select_elements (manager : DBManager) (a n : UInt16) : ∃ manager',
    select mysql readElement manager (electSql a n) = .ok (Tables.elements ⟨[], elects⟩ a n, manager') := by
  obtain ⟨fields, rows, hanswer, hrows⟩ := h.elects a n
  have hread : ∀ row ∈ rows, ∀ data, readElement ⟨some ⟨fields, rows, data, some row⟩, false⟩ =
      readElement ⟨some ⟨fields, [], [], some row⟩, false⟩ := by
    intro row hrow data
    obtain ⟨r, hr⟩ := exists_of_forall₂ hrows row hrow
    rw [readElement_eq hr, readElement_eq hr]
  refine ⟨⟨⟨some (electSql a n), [], []⟩, TYQMySQLQuery.close, rows.length⟩, ?_⟩
  rw [DBManager.select_eq hread mysql manager (electSql_plain a n).1 (electSql_plain a n).2 hanswer,
    mapM_of_forall₂ (fun row r hr => readElement_eq hr) hrows, mapM_ok]
  rfl

theorem selectElements_eq (ps : List Jzq) : ∀ manager, ∃ manager', selectElements mysql ps manager =
    .ok (ps.map fun p => { p with eleLst := p.eleLst ++ Tables.elements ⟨[], elects⟩ p.m_areacode p.m_number },
      manager') := by
  induction ps with
  | nil => exact fun manager => ⟨manager, rfl⟩
  | cons p ps ih =>
    intro manager
    obtain ⟨m₁, hselect⟩ := select_elements h manager p.m_areacode p.m_number
    obtain ⟨m₂, hrest⟩ := ih m₁
    refine ⟨m₂, ?_⟩
    unfold selectElements
    rw [hselect]
    show (selectElements mysql ps m₁ >>= _) = _
    rw [hrest]
    rfl

/-- **Loading through the query is loading the tables**, whatever the query was used for before. It ends without a
list exactly when a concentrator has no name. -/
theorem selectJzq_refines (self : JzqList) (manager : DBManager) (l : JzqList) :
    (∃ manager', selectJzq mysql self manager = .ok (l, manager')) ↔
      ∃ rows, jzqs.mapM EquipmentJzq.row = some rows ∧ l = self.loadJzq ⟨rows, elects⟩ := by
  obtain ⟨m₁, hselect⟩ := select_jzq h manager
  unfold selectJzq
  rw [hselect, mapM_made]
  cases jzqs.mapM EquipmentJzq.row with
  | none =>
    constructor
    · intro ⟨manager', hm⟩
      cases hm
    · intro ⟨rows, hrows, _⟩
      cases hrows
  | some rows =>
    obtain ⟨m₂, helements⟩ := selectElements_eq h (self.m_jzqList ++ rows.map JzqRow.jzq) m₁
    show (∃ manager', (selectElements mysql (self.m_jzqList ++ rows.map JzqRow.jzq) m₁ >>= _) = _) ↔ _
    rw [helements]
    constructor
    · rintro ⟨manager', hm⟩
      cases hm
      exact ⟨rows, rfl, rfl⟩
    · rintro ⟨rows', hrows, rfl⟩
      cases hrows
      exact ⟨m₂, rfl⟩

end

def oneJzq (sql : Bytes) : Option (List Bytes × List Row) :=
  if sql = jzqSql then
    some ([ascii "EquipmentName", ascii "EquipmentCjqArea", ascii "EquipmentCjqAddr"],
      [[some (ascii "test"), some (ascii "4096"), some (ascii "1101")]])
  else if sql = electSql 4096 1101 then
    some ([ascii "ID", ascii "EquipmentCjqPn"], [[some (ascii "7"), some (ascii "2")]])
  else some ([ascii "ID", ascii "EquipmentCjqPn"], [])

theorem electSql_ne_jzqSql (a n : UInt16) : electSql a n ≠ jzqSql := by
  intro h
  have hchar := congrArg (fun s : Bytes => s[26]?) h
  simp only [electSql, ascii_append, List.append_assoc] at hchar
  rw [List.getElem?_append_left (by decide +kernel)] at hchar
  exact absurd hchar (by decide +kernel)

theorem serves_oneJzq : Serves oneJzq [⟨4096, 1101, some "test"⟩] [⟨4096, 1101, 2, 7⟩] where
  jzqs := by
    refine ⟨_, _, if_pos rfl, .cons ⟨rfl, ?_, ?_, ?_⟩ .nil⟩
    · decide +kernel
    · decide +kernel
    · decide +kernel
  elects a n := by
    by_cases h : electSql a n = electSql 4096 1101
    · obtain ⟨rfl, rfl⟩ := electSql_inj h
      refine ⟨_, _, (if_neg (electSql_ne_jzqSql _ _)).trans (if_pos rfl), .cons ⟨rfl, ?_, ?_⟩ .nil⟩
      · decide +kernel
      · decide +kernel
    · refine ⟨_, _, (if_neg (electSql_ne_jzqSql _ _)).trans (if_neg h), ?_⟩
      rw [List.filter_eq_nil_iff.mpr]
      · exact .nil
      · intro r hr hmeter
        rw [List.mem_singleton.mp hr] at hmeter
        obtain ⟨ha, hn⟩ := Bool.and_eq_true_iff.mp hmeter
        have ha : a.toNat = (4096 : UInt16).toNat := (Int.ofNat_inj.mp (beq_iff_eq.mp ha)).symm
        have hn : n.toNat = (1101 : UInt16).toNat := (Int.ofNat_inj.mp (beq_iff_eq.mp hn)).symm
        rw [UInt16.toNat_inj.mp ha, UInt16.toNat_inj.mp hn] at h
        exact h rfl

theorem selectJzq_refines_oneJzq : ∃ manager', selectJzq oneJzq ⟨[], 1⟩ ⟨⟨none, [], []⟩, TYQMySQLQuery.close, 0⟩ =
    .ok (loadJzq ⟨[], 1⟩ ⟨[⟨4096, 1101, "test"⟩], [⟨4096, 1101, 2, 7⟩]⟩, manager') :=
  (selectJzq_refines serves_oneJzq _ _ _).mpr ⟨_, rfl, rfl⟩

end JzqList

end Afn
