import Afn.LiteralSound
import Afn.RecordsetSound
import Afn.Storage
import Afn.ToDBSound
import Afn.UniqueKey

/-!
# What the server gets

The statement of a reading comes to the server as it was written, although there are colons in its time, and an SQL
reader finds in it the texts that were put in. The table has a unique key for the meter, so it keeps of every meter
the first reading only.
-/

namespace Afn

open Bytes Access TelnetServer TQuery
open JzqList (ascii_append)

/-! ## Texts -/

def Of (chars : String) (s : String) : Prop := s.toList ⊆ chars.toList

instance (chars s : String) : Decidable (Of chars s) := inferInstanceAs (Decidable (s.toList ⊆ chars.toList))

def numChars : String := "0123456789+-.e"

def feeChars : String := "0123456789+-.e#"

def timeChars : String := "0123456789-: "

section
variable {chars chars' s t : String}

theorem of_append : Of chars (s ++ t) ↔ Of chars s ∧ Of chars t := by
  simp only [Of, String.toList_append, List.append_subset]

theorem Of.mono (h : Of chars s) (hsub : Of chars' chars) : Of chars' s := List.Subset.trans h hsub

theorem Of.bytes (h : Of chars s) {P : UInt8 → Prop} [DecidablePred P] (hP : (ascii chars).all (fun c => P c) = true) :
    ∀ c ∈ ascii s, P c := by
  intro c hc
  obtain ⟨d, hd, rfl⟩ := List.mem_map.mp hc
  exact of_decide_eq_true (List.all_eq_true.mp hP _ (List.mem_map_of_mem (h hd)))

theorem nameOf_ascii (h : Of chars s) (hlow : chars.toList.all (fun c => c.toNat < 256) = true) :
    nameOf (ascii s) = s := by
  have hmap : (ascii s).map (fun c => Char.ofNat c.toNat) = s.toList := by
    unfold ascii
    rw [List.map_map]
    calc s.toList.map _ = s.toList.map id := List.map_congr_left fun c hc => by
          have hc : c.toNat < 256 := of_decide_eq_true (List.all_eq_true.mp hlow c (h hc))
          rw [Function.comp_apply, UInt8.toNat_ofNat', Nat.mod_eq_of_lt (by omega), Char.ofNat_toNat]
          rfl
      _ = s.toList := List.map_id _
  rw [nameOf, hmap, String.ofList_toList]

theorem mem_of_isDigit {c : Char} (h : c.isDigit = true) : c ∈ "0123456789".toList := by
  obtain ⟨hlow, hhigh⟩ := Char.isDigit_iff_toNat.mp h
  have hlow : 48 ≤ c.toNat := hlow
  have hhigh : c.toNat ≤ 57 := hhigh
  have hc : Char.ofNat c.toNat = c := Char.ofNat_toNat c
  rw [← hc]
  generalize c.toNat = n at hlow hhigh
  interval_cases n <;> decide

theorem of_toString (n : Nat) : Of "0123456789" (toString n) := by
  intro c hc
  rw [Nat.toString_eq_repr, Nat.toList_repr] at hc
  exact mem_of_isDigit (Nat.isDigit_of_mem_toDigits (by decide) (by decide) hc)

theorem of_toString_int (n : Int) : Of numChars (toString n) := by
  cases n with
  | ofNat n => exact (of_toString n).mono (by decide)
  | negSucc n =>
    have htext : toString (Int.negSucc n) = "-" ++ toString (n + 1) := rfl
    rw [htext, of_append]
    exact ⟨by decide, (of_toString (n + 1)).mono (by decide)⟩

theorem of_pad2 (n : Nat) : Of "0123456789" (AFNData.pad2 n) := by
  unfold AFNData.pad2
  split
  · exact of_append.mpr ⟨by decide, of_toString n⟩
  · exact of_toString n

theorem of_timeText (b : Bytes) : Of timeChars (AFNData.timeText b) := by
  have hpad : ∀ n, Of timeChars (AFNData.pad2 n) := fun n => (of_pad2 n).mono (by decide)
  unfold AFNData.timeText
  split
  · decide
  · simp only [of_append, hpad, and_true]
    decide

theorem mem_text (m : Decimal.Numeral) : ∀ c ∈ m.text, c ∈ numChars.toList := by
  have hdigit : ∀ d, Decimal.digitChar d ∈ numChars.toList := by decide
  have hdigits : ∀ ds : Decimal.Digits, ∀ c ∈ ds.map Decimal.digitChar, c ∈ numChars.toList := by
    intro ds c hc
    obtain ⟨d, -, rfl⟩ := List.mem_map.mp hc
    exact hdigit d
  have hfrac : ∀ ds, ∀ c ∈ Decimal.fracText ds, c ∈ numChars.toList := by
    intro ds c hc
    cases ds with
    | nil => cases hc
    | cons d ds =>
      cases hc with
      | head => decide
      | tail _ hc => exact hdigits _ c hc
  have hexp : ∀ e, ∀ c ∈ Decimal.expText e, c ∈ numChars.toList := by
    intro e c hc
    cases e with
    | none => cases hc
    | some e =>
      cases hc with
      | head => decide
      | tail _ hc =>
        cases hc with
        | head => split <;> decide
        | tail _ hc => exact hdigits _ c hc
  intro c hc
  unfold Decimal.Numeral.text at hc
  simp only [List.mem_append] at hc
  rcases hc with hc | hc | hc | hc
  · split at hc
    · rw [List.mem_singleton.mp hc]
      decide
    · cases hc
  · exact hdigits _ c hc
  · exact hfrac _ c hc
  · exact hexp _ c hc

theorem of_floatText (x : Rat) : Of numChars (floatText x) := by
  unfold Of floatText
  rw [String.toList_ofList]
  exact mem_text _

theorem floatText_ne_nil (x : Rat) : ascii (floatText x) ≠ [] := by
  unfold ascii floatText Decimal.Numeral.text
  rw [String.toList_ofList]
  simp

end

/-! ## Reading the statement -/

namespace Insert

def comma : UInt8 := 44
def bracket : UInt8 := 41
def hash : UInt8 := 35

def insertHead : Bytes :=
  ascii ("insert into gc_nhfxelect(EquipmentCjqID,TimeSpace,RecordTime,USERKWH,DEVKVAR,FIRSTKVAR,FOURKVAR," ++
    "M_USERKWH,M_DEVKVAR,M_FIRSTKVAR,M_FOURKVAR) " ++ "values(")

/-- Reads a value: a string, or what stands before the next comma or bracket. -/
def readCell (escapes : Bool) : Bytes → Option (Bytes × Bytes)
  | [] => none
  | c :: s =>
    if c = quote then readQuoted escapes s
    else
      some ((c :: s).takeWhile (fun c => c ≠ comma ∧ c ≠ bracket),
        (c :: s).dropWhile (fun c => c ≠ comma ∧ c ≠ bracket))

def readCells (escapes : Bool) : Nat → Bytes → Option (List Bytes × Bytes)
  | 0, s => some ([], s)
  | n + 1, s => do
    let (v, s) ← readCell escapes s
    match s with
    | [] => none
    | c :: s =>
      if c = (if n = 0 then bracket else comma) then
        let (vs, s) ← readCells escapes n s
        return (v :: vs, s)
      else none

example : readCells true 3 (ascii "-7,'12:00, 1#',1.5e+06)") =
    some ([ascii "-7", ascii "12:00, 1#", ascii "1.5e+06"], []) := by decide +kernel

def readFees : (text : Bytes) → Bytes → List String
  | _, [] => []
  | text, c :: s => if c = hash then nameOf text :: readFees [] s else readFees (text ++ [c]) s

def readInt (s : Bytes) : Option Int :=
  match readLiteral false s with
  | some (.num n, []) => some n
  | _ => none

/-- What an SQL reader finds in a statement. -/
def read (escapes : Bool) (sql : Bytes) : Option Insert := do
  if sql.take insertHead.length ≠ insertHead then none
  let (values, rest) ← readCells escapes 11 (sql.drop insertHead.length)
  match values, rest with
  | [id, space, time, user, dev, one, four, m_user, m_dev, m_one, m_four], [] =>
    if space = ascii "60" then
      let id ← readInt id
      return ⟨id, nameOf time, ⟨nameOf user, readFees [] m_user⟩, ⟨nameOf dev, readFees [] m_dev⟩,
        ⟨nameOf one, readFees [] m_one⟩, ⟨nameOf four, readFees [] m_four⟩⟩
    else none
  | _, _ => none

def quoted (v : Bytes) : Bytes := quote :: (v ++ [quote])

/-- What is written for a value: itself, or itself in quotes. -/
inductive Cell : Bytes → Bytes → Prop
  | bare {v : Bytes} (hne : v ≠ [])
      (h : ∀ c ∈ v, c ≠ 0 ∧ c ≠ quote ∧ c ≠ colon ∧ c ≠ comma ∧ c ≠ bracket) : Cell v v
  | text {v : Bytes} (h : ∀ c ∈ v, c ≠ 0 ∧ c ≠ quote ∧ c ≠ backslash) : Cell (quoted v) v

def cellsText : List Bytes → Bytes
  | [] => []
  | [t] => t ++ [bracket]
  | t :: t' :: ts => t ++ comma :: cellsText (t' :: ts)

section
variable {escapes : Bool} {t v : Bytes}

theorem Cell.reads (h : Cell t v) {c : UInt8} (hc : c = comma ∨ c = bracket) (rest : Bytes) :
    readCell escapes (t ++ c :: rest) = some (v, c :: rest) := by
  cases h with
  | bare hne h =>
    have hstop : ¬ (c ≠ comma ∧ c ≠ bracket) := fun h => hc.elim h.1 h.2
    have hall : ∀ c ∈ t, decide (c ≠ comma ∧ c ≠ bracket) = true :=
      fun c hc => decide_eq_true ⟨(h c hc).2.2.2.1, (h c hc).2.2.2.2⟩
    obtain ⟨d, s, rfl⟩ := List.exists_cons_of_ne_nil hne
    have hd : d ≠ quote := (h d (List.mem_cons_self ..)).2.1
    rw [List.cons_append, readCell, if_neg hd, ← List.cons_append, List.takeWhile_append_of_pos hall,
      List.dropWhile_append_of_pos hall, List.takeWhile_cons_of_neg (by simpa using hstop),
      List.dropWhile_cons_of_neg (by simpa using hstop), List.append_nil]
  | text h =>
    have hquote : quote ∉ v := fun hq => (h quote hq).2.1 rfl
    have hwild : Wild v := by
      intro a b hs
      have hback : backslash ∈ v := hs ▸ List.mem_append_right a (List.mem_cons_self ..)
      exact absurd rfl (h backslash hback).2.2
    have hc : c ≠ quote := by
      rcases hc with rfl | rfl <;> decide
    have hrest : (c :: rest).head? ≠ some quote := fun h => hc (Option.some.inj h)
    rw [quoted, List.cons_append, readCell, if_pos rfl, List.append_assoc, List.singleton_append]
    exact readQuoted_reads hrest v hquote fun _ => hwild

theorem readCells_cellsText {ts vs : List Bytes} (h : List.Forall₂ Cell ts vs) (rest : Bytes) :
    readCells escapes ts.length (cellsText ts ++ rest) = some (vs, rest) := by
  induction h with
  | nil => rfl
  | @cons t v ts vs hcell hcells ih =>
    cases ts with
    | nil =>
      cases hcells
      rw [cellsText, List.append_assoc, List.singleton_append, List.length_singleton, readCells,
        hcell.reads (.inr rfl)]
      rfl
    | cons t' ts =>
      rw [cellsText, List.append_assoc, List.cons_append, List.length_cons, readCells, hcell.reads (.inl rfl)]
      simp only [Option.bind_eq_bind, Option.bind_some, List.length_cons, Nat.succ_ne_zero, if_false, if_true]
      rw [← List.length_cons, ih]
      rfl

theorem readFees_fee (text : Bytes) : hash ∉ text → ∀ acc s,
    readFees acc (text ++ hash :: s) = nameOf (acc ++ text) :: readFees [] s := by
  induction text with
  | nil =>
    intro _ acc s
    rw [List.nil_append, List.append_nil, readFees, if_pos rfl]
  | cons c text ih =>
    intro h acc s
    obtain ⟨hc, htext⟩ := List.ne_and_not_mem_of_not_mem_cons h
    rw [List.cons_append, readFees, if_neg hc.symm, ih htext, List.append_assoc, List.singleton_append]

end

def values (s : Insert) : List Bytes :=
  [ascii (toString s.EquipmentCjqID), ascii "60", ascii s.RecordTime, ascii s.userkwh.total, ascii s.devkwh.total,
    ascii s.onekwh.total, ascii s.fourkwh.total, ascii s.userkwh.feeText, ascii s.devkwh.feeText,
    ascii s.onekwh.feeText, ascii s.fourkwh.feeText]

def cells (s : Insert) : List Bytes :=
  [ascii (toString s.EquipmentCjqID), ascii "60", quoted (ascii s.RecordTime), ascii s.userkwh.total,
    ascii s.devkwh.total, ascii s.onekwh.total, ascii s.fourkwh.total, quoted (ascii s.userkwh.feeText),
    quoted (ascii s.devkwh.feeText), quoted (ascii s.onekwh.feeText), quoted (ascii s.fourkwh.feeText)]

theorem ascii_text (s : Insert) : ascii s.text = insertHead ++ cellsText s.cells := by
  have hcomma : ascii "," = [comma] := by decide
  have hopen : ascii ",'" = [comma, quote] := by decide
  have hshut : ascii "'," = [quote, comma] := by decide
  have hboth : ascii "','" = [quote, comma, quote] := by decide
  have hend : ascii "')" = [quote, bracket] := by decide
  have hspace : ascii (toString 60) = ascii "60" := by decide
  unfold text insertHead cells quoted
  simp only [ascii_append, cellsText, hcomma, hopen, hshut, hboth, hend, hspace, List.append_assoc,
    List.cons_append, List.nil_append]

/-! ## The statement read back -/

theorem toDigits_numeral (n : Nat) :
    (Nat.toDigits 10 n).map (fun c => UInt8.ofNat c.toNat) = COM.numeral 10 n := by
  have hdigit : ∀ d < 10, UInt8.ofNat (Nat.digitChar d).toNat = COM.digit d := by decide
  induction n using Nat.strongRecOn with
  | ind n ih =>
    unfold COM.numeral
    rw [COM.lowDigits_eq (by decide), List.map_cons, List.reverse_cons]
    by_cases hn : n < 10
    · rw [Nat.toDigits_of_lt_base hn, List.map_singleton, hdigit n hn, Nat.div_eq_of_lt hn, Nat.mod_eq_of_lt hn]
      rfl
    · have hpos : 0 < n / 10 := by omega
      rw [Nat.toDigits_of_base_le (by decide) (by omega), List.map_append, List.map_singleton, ih _ (by omega),
        hdigit _ (by omega), if_pos hpos]
      rfl

theorem ascii_toString (n : Nat) : ascii (toString n) = COM.numeral 10 n := by
  rw [ascii, Nat.toString_eq_repr, Nat.toList_repr, toDigits_numeral]

theorem readInt_toString (n : Int) : readInt (ascii (toString n)) = some n := by
  cases n with
  | ofNat n =>
    have htext : toString (Int.ofNat n) = toString n := rfl
    have hread : readLiteral false (COM.numeral 10 n ++ []) = some (.num n, []) := readLiteral_numeral follows_nil
    rw [List.append_nil] at hread
    rw [readInt, htext, ascii_toString, hread]
    rfl
  | negSucc n =>
    have htext : toString (Int.negSucc n) = "-" ++ toString (n + 1) := rfl
    have hminus : ascii "-" = [45] := by decide
    have hread : readUnsigned (COM.numeral 10 (n + 1) ++ []) = some (n + 1, []) :=
      readUnsigned_numeral fun c hc => absurd hc (Option.not_mem_none c)
    rw [List.append_nil] at hread
    rw [readInt, htext, ascii_append, hminus, ascii_toString, List.singleton_append, readLiteral,
      if_neg (by decide), if_pos rfl, hread]
    rfl

/-- The texts are such as `toDB` writes. -/
structure Printed (s : Insert) : Prop where
  time : Of timeChars s.RecordTime
  numbers : ∀ t ∈ s.texts, Of numChars t ∧ ascii t ≠ []

theorem feeText_cons (total t : String) (fee : List String) :
    KwhText.feeText ⟨total, t :: fee⟩ = t ++ "#" ++ KwhText.feeText ⟨total, fee⟩ := by
  unfold KwhText.feeText
  rw [List.map_cons, String.join_cons]

theorem ascii_feeText_cons (total t : String) (fee : List String) :
    ascii (KwhText.feeText ⟨total, t :: fee⟩) = ascii t ++ hash :: ascii (KwhText.feeText ⟨total, fee⟩) := by
  have hhash : ascii "#" = [hash] := by decide
  rw [feeText_cons, ascii_append, ascii_append, hhash, List.append_assoc, List.singleton_append]

theorem readFees_feeText (total : String) (fee : List String) : (∀ t ∈ fee, Of numChars t) →
    readFees [] (ascii (KwhText.feeText ⟨total, fee⟩)) = fee := by
  induction fee with
  | nil => exact fun _ => rfl
  | cons t fee ih =>
    intro h
    have ht := h t (List.mem_cons_self ..)
    have hhash : hash ∉ ascii t := fun hc => ht.bytes (P := (· ≠ hash)) (by decide) hash hc rfl
    rw [ascii_feeText_cons, readFees_fee _ hhash, List.nil_append, nameOf_ascii ht (by decide),
      ih fun t ht => h t (List.mem_cons_of_mem _ ht)]

theorem of_feeText (total : String) (fee : List String) : (∀ t ∈ fee, Of numChars t) →
    Of feeChars (KwhText.feeText ⟨total, fee⟩) := by
  induction fee with
  | nil => exact fun _ c hc => by cases hc
  | cons t fee ih =>
    intro h
    rw [feeText_cons, of_append, of_append]
    refine ⟨⟨(h t (List.mem_cons_self ..)).mono (by decide), ?_⟩, ih fun t ht => h t (List.mem_cons_of_mem _ ht)⟩
    decide

theorem bare_cell {t : String} (h : Of numChars t) (hne : ascii t ≠ []) : Cell (ascii t) (ascii t) :=
  .bare hne (h.bytes (by decide))

theorem text_cell {chars t : String} (h : Of chars t)
    (hP : (ascii chars).all (fun c => c ≠ 0 ∧ c ≠ quote ∧ c ≠ backslash) = true) :
    Cell (quoted (ascii t)) (ascii t) :=
  .text (h.bytes hP)

namespace Printed

variable {s : Insert} (h : Printed s)
include h

theorem kwh {k : KwhText} (hk : k = s.userkwh ∨ k = s.devkwh ∨ k = s.onekwh ∨ k = s.fourkwh) :
    (Of numChars k.total ∧ ascii k.total ≠ []) ∧ ∀ t ∈ k.fee, Of numChars t := by
  have hmem : ∀ t ∈ k.texts, t ∈ s.texts := by
    intro t ht
    unfold Insert.texts
    rcases hk with rfl | rfl | rfl | rfl <;> simp [ht]
  exact ⟨h.numbers _ (hmem _ (List.mem_cons_self ..)),
    fun t ht => (h.numbers t (hmem t (List.mem_cons_of_mem _ ht))).1⟩

theorem cells : List.Forall₂ Cell s.cells s.values := by
  have htotal : ∀ k, k = s.userkwh ∨ k = s.devkwh ∨ k = s.onekwh ∨ k = s.fourkwh →
      Cell (ascii k.total) (ascii k.total) := fun k hk => bare_cell (h.kwh hk).1.1 (h.kwh hk).1.2
  have hfee : ∀ k, k = s.userkwh ∨ k = s.devkwh ∨ k = s.onekwh ∨ k = s.fourkwh →
      Cell (quoted (ascii k.feeText)) (ascii k.feeText) :=
    fun k hk => text_cell (of_feeText k.total k.fee (h.kwh hk).2) (by decide)
  have hid : ascii (toString s.EquipmentCjqID) ≠ [] := by
    intro hnil
    have hread := readInt_toString s.EquipmentCjqID
    rw [hnil] at hread
    cases hread
  unfold Insert.cells values
  simp only [List.forall₂_cons, List.forall₂_nil_left_iff, and_true, htotal, hfee, true_or, or_true]
  exact ⟨bare_cell (of_toString_int _) hid, bare_cell (by decide) (by decide), text_cell h.time (by decide)⟩

theorem read_text (escapes : Bool) : read escapes (ascii s.text) = some s := by
  have hcells : readCells escapes 11 (cellsText s.cells ++ []) = some (s.values, []) := readCells_cellsText h.cells []
  rw [List.append_nil] at hcells
  have hfees : ∀ k, k = s.userkwh ∨ k = s.devkwh ∨ k = s.onekwh ∨ k = s.fourkwh →
      (⟨nameOf (ascii k.total), readFees [] (ascii k.feeText)⟩ : KwhText) = k := fun k hk => by
    rw [nameOf_ascii (h.kwh hk).1.1 (by decide), readFees_feeText k.total k.fee (h.kwh hk).2]
  unfold read
  rw [ascii_text, List.take_left, List.drop_left, hcells]
  simp only [ne_eq, not_true_eq_false, if_false, values, Option.bind_eq_bind, Option.bind_some, if_true,
    readInt_toString, hfees, true_or, or_true, nameOf_ascii h.time (by decide)]
  rfl

end Printed

end Insert

/-! ## The query that is run -/

namespace TQuery

-- each colon of a text is in quotes; `inside` says that the text begins in them
def Inert : (inside : Bool) → Bytes → Prop
  | _, [] => True
  | inside, c :: text => ¬ (c = colon ∧ inside = false) ∧ Inert (if c = quote then !inside else inside) text

theorem names_of_inert (text : Bytes) : ∀ count, Inert (count % 2 == 1) text → names (pieces count none text) = [] := by
  induction text with
  | nil => exact fun _ _ => rfl
  | cons c text ih =>
    intro count h
    obtain ⟨hc, htext⟩ := h
    have hcolon : ¬ (c = colon ∧ count % 2 = 0) := fun hcount => hc ⟨hcount.1, by rw [hcount.2]; rfl⟩
    have hinside : (if c = quote then !(count % 2 == 1) else count % 2 == 1) = (quotes count c % 2 == 1) := by
      unfold quotes
      split
      · rw [Bool.eq_iff_iff]
        simp only [Bool.not_eq_true', beq_eq_false_iff_ne, beq_iff_eq]
        omega
      · rfl
    rw [pieces, if_neg hcolon]
    exact ih _ (hinside ▸ htext)

section
variable {t rest : Bytes}

theorem inert_bare {inside : Bool} : (∀ c ∈ t, c ≠ quote ∧ c ≠ colon) → Inert inside rest →
    Inert inside (t ++ rest) := by
  induction t with
  | nil => exact fun _ h => h
  | cons c t ih =>
    intro ht hrest
    obtain ⟨hquote, hcolon⟩ := ht c (List.mem_cons_self ..)
    refine ⟨fun h => hcolon h.1, ?_⟩
    rw [if_neg hquote]
    exact ih (fun c hc => ht c (List.mem_cons_of_mem _ hc)) hrest

theorem inert_inside : quote ∉ t → Inert true rest → Inert true (t ++ rest) := by
  induction t with
  | nil => exact fun _ h => h
  | cons c t ih =>
    intro ht hrest
    obtain ⟨hquote, ht⟩ := List.ne_and_not_mem_of_not_mem_cons ht
    refine ⟨fun h => (nomatch h.2), ?_⟩
    rw [if_neg hquote.symm]
    exact ih ht hrest

end

end TQuery

namespace Insert

section
variable {t v rest : Bytes}

theorem Cell.inert (h : Cell t v) (hrest : Inert false rest) : Inert false (t ++ rest) := by
  cases h with
  | bare _ h => exact inert_bare (fun c hc => ⟨(h c hc).2.1, (h c hc).2.2.1⟩) hrest
  | text h =>
    have hquote : quote ∉ v := fun hq => (h quote hq).2.1 rfl
    have hshut : Inert true (quote :: rest) := ⟨fun h => (nomatch h.2), hrest⟩
    refine ⟨fun h => absurd h.1 (by decide), ?_⟩
    show Inert true (v ++ [quote] ++ rest)
    rw [List.append_assoc, List.singleton_append]
    exact inert_inside hquote hshut

theorem Cell.no_nul (h : Cell t v) : 0 ∉ t := by
  cases h with
  | bare _ h => exact fun h0 => (h 0 h0).1 rfl
  | text h =>
    intro h0
    rcases List.mem_cons.mp h0 with h0 | h0
    · exact absurd h0 (by decide)
    · rcases List.mem_append.mp h0 with h0 | h0
      · exact (h 0 h0).1 rfl
      · exact absurd (List.mem_singleton.mp h0) (by decide)

theorem inert_cellsText {ts vs : List Bytes} (h : List.Forall₂ Cell ts vs) : Inert false (cellsText ts) := by
  induction h with
  | nil => trivial
  | @cons t v ts vs hcell hcells ih =>
    cases ts with
    | nil => exact hcell.inert ⟨by decide, trivial⟩
    | cons t' ts => exact hcell.inert ⟨by decide, ih⟩

theorem no_nul_cellsText {ts vs : List Bytes} (h : List.Forall₂ Cell ts vs) : 0 ∉ cellsText ts := by
  induction h with
  | nil => exact List.not_mem_nil
  | @cons t v ts vs hcell hcells ih =>
    intro h0
    cases ts with
    | nil =>
      rcases List.mem_append.mp h0 with h0 | h0
      · exact hcell.no_nul h0
      · exact absurd (List.mem_singleton.mp h0) (by decide)
    | cons t' ts =>
      rcases List.mem_append.mp h0 with h0 | h0
      · exact hcell.no_nul h0
      · rcases List.mem_cons.mp h0 with h0 | h0
        · exact absurd h0 (by decide)
        · exact ih h0

end

set_option maxRecDepth 4000 in
theorem Printed.plain {s : Insert} (h : Printed s) : 0 ∉ ascii s.text ∧ names (pieces 0 none (ascii s.text)) = [] := by
  have hall : insertHead.all (fun c => c ≠ 0 ∧ c ≠ quote ∧ c ≠ colon) = true := by decide +kernel
  have hhead : ∀ c ∈ insertHead, c ≠ 0 ∧ c ≠ quote ∧ c ≠ colon :=
    fun c hc => of_decide_eq_true (List.all_eq_true.mp hall c hc)
  rw [ascii_text]
  refine ⟨fun h0 => ?_, names_of_inert _ 0 (inert_bare (fun c hc => (hhead c hc).2) (inert_cellsText h.cells))⟩
  exact (List.mem_append.mp h0).elim (fun h0 => (hhead 0 h0).1 rfl) (no_nul_cellsText h.cells)

end Insert

section
variable {δ : Type} (mysql : δ → Bytes → Answer × δ)

theorem DBManager.execQuery_eq (self : DBManager) (db : δ) {sql : Bytes} (h0 : 0 ∉ sql)
    (hnames : names (pieces 0 none sql) = []) :
    ∃ result, self.execQuery mysql sql db = .ok (⟨⟨some sql, [], []⟩, result, self.RecordCount⟩, (mysql db sql).2) := by
  have hplace : names (placeholders sql) = [] := by rw [placeholders, cString_eq h0, hnames]
  have hadd : self.query.addSQL sql = .ok ⟨some sql, [], []⟩ := by
    rw [addSQL_finds self.query (fun n hn => absurd (hplace ▸ hn) List.not_mem_nil), cString_eq h0, if_pos hplace,
      unset, hplace]
    rfl
  have hreplace : replaceSql ⟨some sql, [], []⟩ = .ok ⟨some sql, [], []⟩ := rfl
  have hexec : (self.result.execSQL mysql (some sql) db).2.2 = (mysql db sql).2 := by
    unfold TYQMySQLQuery.execSQL
    dsimp only
    generalize mysql db sql = r
    obtain ⟨answer, db'⟩ := r
    cases answer <;> rfl
  unfold execQuery
  rw [hadd]
  exact ⟨(self.result.execSQL mysql (some sql) db).2.1, by rw [← hexec]; rfl⟩

namespace Storage

theorem exec_eq (st : Storage δ) {s : Insert} (h : s.Printed) :
    ∃ manager, st.exec mysql s = .ok ⟨manager, (mysql st.db (ascii s.text)).2⟩ := by
  obtain ⟨h0, hnames⟩ := h.plain
  obtain ⟨result, hquery⟩ := st.manager.execQuery_eq mysql st.db h0 hnames
  unfold exec
  rw [hquery]
  exact ⟨_, rfl⟩

end Storage

end

/-! ## Readings -/

/-- What `HandleData` has made of a payload it accepts. -/
def AckData.Decoded : AckData → Prop
  | .clock _ => True
  | .runStatus _ => True
  | .allKwh self => ∃ d, (AllKwh.handleData (AllKwh.construct d)).out = .ok (YQER_OK, self)

namespace AllKwh

theorem insert_fields {self : AllKwh} {eleId : Int} {s : Insert} (h : self.insert eleId = some s) :
    s.EquipmentCjqID = eleId ∧ s.RecordTime = self.dt := by
  unfold insert at h
  simp only [Option.bind_eq_bind, Option.bind_eq_some_iff] at h
  obtain ⟨m, -, user, -, dev, -, one, -, four, -, h⟩ := h
  cases h
  exact ⟨rfl, rfl⟩

theorem printed_of_insert {d : PkgAfnData} {eleId : Int} {s : Insert} (h : (decoded d).insert eleId = some s) :
    s.Printed := by
  obtain ⟨s', hs', htexts⟩ := insert_decoded (d := d) eleId
  rw [h] at hs'
  cases hs'
  refine ⟨(insert_fields h).2 ▸ of_timeText _, fun t ht => ?_⟩
  rw [htexts] at ht
  obtain ⟨f, -, rfl⟩ := List.mem_map.mp ht
  exact ⟨of_floatText _, floatText_ne_nil _⟩

theorem toDB_accepted (l : JzqList) (A1 A2 Fn pn : UInt16) {d : PkgAfnData} {self : AllKwh}
    (hself : (handleData (construct d)).out = .ok (YQER_OK, self)) :
    (l.getEleID A1 A2 pn = -1 ∧ (AckData.allKwh self).toDB l A1 A2 Fn pn = some (-1, [])) ∨
    (l.getEleID A1 A2 pn ≠ -1 ∧ ∃ s, (AckData.allKwh self).toDB l A1 A2 Fn pn = some (YQER_OK, [s]) ∧
      self.insert (l.getEleID A1 A2 pn) = some s ∧ s.Printed) := by
  obtain ⟨-, rfl⟩ := accepted hself
  unfold AckData.toDB toDB
  by_cases hid : l.getEleID A1 A2 pn = -1
  · refine .inl ⟨hid, ?_⟩
    simp only [hid, if_true]
    rfl
  · obtain ⟨s, hs, -⟩ := insert_decoded (d := d) (l.getEleID A1 A2 pn)
    refine .inr ⟨hid, s, ?_, hs, printed_of_insert hs⟩
    simp only [hid, if_false, hs]
    rfl

end AllKwh

namespace Storage

section
variable {δ : Type} (mysql : δ → Bytes → Answer × δ)

theorem toDB_nil {l : JzqList} {call : AppCall} {data : AckData} {ret : Int}
    (h : data.toDB l call.m_areacode call.m_number call.m_fn call.m_pn = some (ret, [])) (st : Storage δ) :
    st.toDB mysql l call data = some (ret, st) := by
  unfold toDB
  rw [h]
  rfl

theorem toDB_one {l : JzqList} {call : AppCall} {data : AckData} {ret : Int} {s : Insert}
    (h : data.toDB l call.m_areacode call.m_number call.m_fn call.m_pn = some (ret, [s])) (hs : s.Printed)
    (st : Storage δ) :
    ∃ manager, st.toDB mysql l call data = some (ret, ⟨manager, (mysql st.db (ascii s.text)).2⟩) := by
  obtain ⟨manager, hexec⟩ := st.exec_eq mysql hs
  refine ⟨manager, ?_⟩
  unfold toDB
  rw [h]
  simp only [Option.bind_eq_bind, Option.bind_some, List.foldlM_cons, List.foldlM_nil, hexec]
  rfl

end

/-! ## The table -/

end Storage

namespace Insert

-- of the years 2000 to 2099
def monthDays (year month : Nat) : Nat :=
  if month = 2 then if year % 4 = 0 then 29 else 28
  else if month = 4 ∨ month = 6 ∨ month = 9 ∨ month = 11 then 30
  else 31

/-- A `datetime`, as `sprintf` writes it. -/
def IsTime (t : String) : Prop :=
  ∃ year month day hour min sec : Nat,
    t = "20" ++ AFNData.pad2 year ++ "-" ++ AFNData.pad2 month ++ "-" ++ AFNData.pad2 day ++ " " ++
      AFNData.pad2 hour ++ ":" ++ AFNData.pad2 min ++ ":" ++ AFNData.pad2 sec ∧
    year < 100 ∧ (1 ≤ month ∧ month ≤ 12) ∧ (1 ≤ day ∧ day ≤ monthDays year month) ∧ hour < 24 ∧ min < 60 ∧ sec < 60

/-- A number in the range of `float`. -/
def IsFloat (t : String) : Prop := ∃ x : Rat, |x| ≤ 10 ^ 38 ∧ t = floatText x

/-- The columns of the table at `toDB` hold what the statement has for them: an `int`, a `datetime`, four `float` and
four `varchar(50)`. -/
structure Fits (s : Insert) : Prop where
  id : -2 ^ 31 ≤ s.EquipmentCjqID ∧ s.EquipmentCjqID < 2 ^ 31
  time : IsTime s.RecordTime
  total : ∀ k ∈ [s.userkwh, s.devkwh, s.onekwh, s.fourkwh], IsFloat k.total
  fee : ∀ k ∈ [s.userkwh, s.devkwh, s.onekwh, s.fourkwh], k.feeText.length ≤ 50

end Insert

theorem AFNData.abs_fieldValue_le {n : Nat} (hn : n ≤ 5) (places : Nat) (data : Bytes) (off : Nat) :
    |fieldValue n places data off| ≤ 10 ^ 38 := by
  unfold fieldValue
  split
  next => norm_num
  next =>
    have hlen : (digits data off n).length ≤ 10 := by
      have hslice : (slice data off n).length ≤ n := List.length_take_le _ _
      unfold digits
      rw [List.length_flatMap]
      simp only [List.length_cons, List.length_nil, List.map_const', List.sum_replicate_nat]
      omega
    have hlt : ∀ x ∈ digits data off n, x < 16 := by
      intro x hx
      obtain ⟨b, -, hx⟩ := List.mem_flatMap.mp hx
      have hb := b.toNat_lt
      simp only [List.mem_cons, List.not_mem_nil, or_false] at hx
      omega
    have hval : Nat.ofDigits 10 (digits data off n) ≤ 10 ^ 38 :=
      calc Nat.ofDigits 10 (digits data off n)
          ≤ Nat.ofDigits 16 (digits data off n) := Nat.ofDigits_monotone _ (by decide)
        _ ≤ 16 ^ (digits data off n).length := Nat.le_of_lt (Nat.ofDigits_lt_base_pow_length (by decide) hlt)
        _ ≤ 16 ^ 10 := Nat.pow_le_pow_right (by decide) hlen
        _ ≤ 10 ^ 38 := by decide
    have hq : ((Nat.ofDigits 10 (digits data off n) : Nat) : Rat) ≤ 10 ^ 38 := by exact_mod_cast hval
    have hone : (1 : Rat) ≤ 10 ^ places := one_le_pow₀ (by norm_num)
    rw [abs_of_nonneg (by positivity)]
    exact (div_le_self (by positivity) hone).trans hq

theorem AllKwh.isFloat_texts {d : PkgAfnData} {eleId : Int} {s : Insert} (h : (decoded d).insert eleId = some s) :
    ∀ t ∈ s.texts, Insert.IsFloat t := by
  obtain ⟨s', hs', htexts⟩ := insert_decoded (d := d) eleId
  rw [h] at hs'
  cases hs'
  intro t ht
  rw [htexts] at ht
  obtain ⟨f, hf, rfl⟩ := List.mem_map.mp ht
  refine ⟨_, AFNData.abs_fieldValue_le ?_ f.places d.m_pData f.off, rfl⟩
  unfold fields at hf
  simp only [List.mem_append] at hf
  rcases hf with ((hf | hf) | hf) | hf
  all_goals
    have hn := exists_of_mem_group hf
    omega

namespace Storage

section
variable {δ : Type} (mysql : δ → Bytes → Answer × δ)

/-- The server does what is said at `toDB` of the table: `EquipmentCjqID` is a unique key of it. Nothing is said of a
statement that does not fit its columns, which the server refuses or cuts. -/
structure Keyed (escapes : Bool) (table : δ → List Insert) : Prop where
  inserts : ∀ db sql s, Insert.read escapes sql = some s → s.Fits →
    table (mysql db sql).2 = UniqueKey.insertRow Insert.EquipmentCjqID (table db) s

def saved (a : JzqList × AppCall × AckData) : Int × List Insert :=
  (a.2.2.toDB a.1 a.2.1.m_areacode a.2.1.m_number a.2.1.m_fn a.2.1.m_pn).getD (0, [])

theorem fits_saved {l : JzqList} {call : AppCall} {d : PkgAfnData} {self : AllKwh}
    (hself : (AllKwh.handleData (AllKwh.construct d)).out = .ok (YQER_OK, self))
    (hid : ∀ s ∈ (saved (l, call, .allKwh self)).2, -2 ^ 31 ≤ s.EquipmentCjqID ∧ s.EquipmentCjqID < 2 ^ 31)
    (htime : Insert.IsTime self.dt)
    (hfee : ∀ s ∈ (saved (l, call, .allKwh self)).2, ∀ k ∈ [s.userkwh, s.devkwh, s.onekwh, s.fourkwh],
      k.feeText.length ≤ 50) :
    ∀ s ∈ (saved (l, call, .allKwh self)).2, s.Fits := by
  intro s hs
  have hinsert : ∃ eleId, self.insert eleId = some s := by
    unfold saved at hs
    obtain ⟨-, hdb⟩ | ⟨-, s', hdb, hinsert, -⟩ :=
      AllKwh.toDB_accepted l call.m_areacode call.m_number call.m_fn call.m_pn hself
    · rw [hdb] at hs
      exact absurd hs List.not_mem_nil
    · rw [hdb] at hs
      cases List.mem_singleton.mp hs
      exact ⟨_, hinsert⟩
  obtain ⟨eleId, hinsert⟩ := hinsert
  obtain ⟨-, rfl⟩ := AllKwh.accepted hself
  refine ⟨hid s hs, (AllKwh.insert_fields hinsert).2 ▸ htime, fun k hk => ?_, hfee s hs⟩
  refine AllKwh.isFloat_texts hinsert k.total ?_
  unfold Insert.texts KwhText.texts
  simp only [List.mem_cons, List.not_mem_nil, or_false] at hk
  rcases hk with rfl | rfl | rfl | rfl
  all_goals simp

variable {mysql} {escapes : Bool} {table : δ → List Insert}

theorem toDB_keyed (hkeyed : Keyed mysql escapes table) (a : JzqList × AppCall × AckData) (hdecoded : a.2.2.Decoded)
    (hfits : ∀ s ∈ (saved a).2, s.Fits) (st : Storage δ) : ∃ st', st.toDB mysql a.1 a.2.1 a.2.2 = some ((saved a).1, st') ∧
      table st'.db = UniqueKey.insertRows Insert.EquipmentCjqID (table st.db) (saved a).2 := by
  obtain ⟨l, call, data⟩ := a
  have hnone : ∀ ret, data.toDB l call.m_areacode call.m_number call.m_fn call.m_pn = some (ret, []) →
      ∃ st', st.toDB mysql l call data = some ((saved (l, call, data)).1, st') ∧
        table st'.db = UniqueKey.insertRows Insert.EquipmentCjqID (table st.db) (saved (l, call, data)).2 := by
    intro ret h
    unfold saved
    rw [h]
    exact ⟨st, toDB_nil mysql h st, rfl⟩
  cases data with
  | clock d => exact hnone _ rfl
  | runStatus d => exact hnone _ rfl
  | allKwh self =>
    obtain ⟨d, hself⟩ := hdecoded
    obtain ⟨-, hdb⟩ | ⟨-, s, hdb, -, hs⟩ :=
      AllKwh.toDB_accepted l call.m_areacode call.m_number call.m_fn call.m_pn hself
    · exact hnone _ hdb
    · obtain ⟨manager, hto⟩ := toDB_one mysql hdb hs st
      have hsaved : saved (l, call, .allKwh self) = (YQER_OK, [s]) := by
        unfold saved
        rw [hdb]
        rfl
      rw [hsaved] at hfits ⊢
      exact ⟨_, hto, hkeyed.inserts st.db (ascii s.text) s (hs.read_text escapes) (hfits s (List.mem_singleton_self s))⟩

theorem saveAll_keyed (hkeyed : Keyed mysql escapes table) (acts : List (JzqList × AppCall × AckData)) :
    (∀ a ∈ acts, a.2.2.Decoded ∧ ∀ s ∈ (saved a).2, s.Fits) → ∀ st : Storage δ, ∃ st',
      saveAll mysql acts st = some (acts.map fun a => (saved a).1, st') ∧
      table st'.db = UniqueKey.insertRows Insert.EquipmentCjqID (table st.db) (acts.flatMap fun a => (saved a).2) := by
  induction acts with
  | nil => exact fun _ st => ⟨st, rfl, rfl⟩
  | cons a acts ih =>
    intro h st
    obtain ⟨⟨hdecoded, hfits⟩, h⟩ := List.forall_mem_cons.mp h
    obtain ⟨st₁, hto, htable₁⟩ := toDB_keyed hkeyed a hdecoded hfits st
    obtain ⟨st₂, hall, htable₂⟩ := ih h st₁
    refine ⟨st₂, ?_, ?_⟩
    · unfold saveAll
      simp only [hto, hall, Option.bind_eq_bind, Option.bind_some]
      rfl
    · rw [htable₂, htable₁]
      unfold UniqueKey.insertRows
      rw [List.flatMap_cons, List.foldl_append]

end

-- the data base is the table
def tableServer (rows : List Insert) (sql : Bytes) : Answer × List Insert :=
  match Insert.read true sql with
  | none => (.error, rows)
  | some s => if UniqueKey.taken Insert.EquipmentCjqID rows s then (.error, rows) else (.affected 1, rows ++ [s])

theorem keyed_tableServer : Keyed tableServer true id where
  inserts db sql s hread _ := by
    unfold tableServer UniqueKey.insertRow
    rw [hread]
    dsimp only [id]
    split <;> rfl

end Storage

end Afn
