import Afn.QuerySound

/-!
# What the literals of a query denote

A literal is read back by the rules of SQL: a numeral is its digits with a sign before them, a string ends at the
first quote that is neither doubled nor, where the server knows such escapes, behind a backslash.
-/

namespace Afn

open Bytes Access

namespace TQuery

/-! ## Reading a literal -/

def backslash : UInt8 := 92

inductive SqlValue
  | num (n : Int)
  | text (s : Bytes)
  deriving DecidableEq

def unescape (c : UInt8) : Bytes :=
  if c = 48 then [0] else if c = 98 then [8] else if c = 110 then [10] else if c = 114 then [13]
  else if c = 116 then [9] else if c = 90 then [26] else if c = 37 ∨ c = 95 then [backslash, c] else [c]

def isEscape (escapes : Bool) (c : UInt8) : Bool := escapes && c == backslash

/-- Reads a string behind its opening quote; returns its value and what follows its closing quote. -/
def readQuoted (escapes : Bool) : Bytes → Option (Bytes × Bytes)
  | [] => none
  | c :: s =>
    if c = quote then
      match s with
      | [] => some ([], [])
      | d :: s => if d = quote then (readQuoted escapes s).map fun r => (quote :: r.1, r.2) else some ([], d :: s)
    else if isEscape escapes c then
      match s with
      | [] => none
      | d :: s => (readQuoted escapes s).map fun r => (unescape d ++ r.1, r.2)
    else (readQuoted escapes s).map fun r => (c :: r.1, r.2)

def isDigit (c : UInt8) : Bool := 48 ≤ c && c ≤ 57

def readDigits (v : Nat) : Bytes → Nat × Bytes
  | [] => (v, [])
  | c :: s => if isDigit c then readDigits (10 * v + (c.toNat - 48)) s else (v, c :: s)

def readUnsigned : Bytes → Option (Nat × Bytes)
  | [] => none
  | c :: s => if isDigit c then some (readDigits 0 (c :: s)) else none

def readLiteral (escapes : Bool) : Bytes → Option (SqlValue × Bytes)
  | [] => none
  | c :: s =>
    if c = quote then (readQuoted escapes s).map fun r => (.text r.1, r.2)
    else if c = 45 then (readUnsigned s).map fun r => (.num (-r.1), r.2)
    else if c = 43 then (readUnsigned s).map fun r => (.num r.1, r.2)
    else (readUnsigned (c :: s)).map fun r => (.num r.1, r.2)

def denoted : Value → SqlValue
  | .int val => .num val.toInt
  | .str val => .text val

def Follows (rest : Bytes) : Prop := ∀ c ∈ rest.head?, endsName c = true

/-! ## Strings -/

section
variable {escapes : Bool} {c d : UInt8} {s : Bytes}

theorem readQuoted_close (h : s.head? ≠ some quote) : readQuoted escapes (quote :: s) = some ([], s) := by
  cases s with
  | nil => rw [readQuoted, if_pos rfl]
  | cons d s =>
    have hd : d ≠ quote := fun hd => h (congrArg some hd)
    rw [readQuoted, if_pos rfl]
    exact if_neg hd

theorem readQuoted_double :
    readQuoted escapes (quote :: quote :: s) = (readQuoted escapes s).map fun r => (quote :: r.1, r.2) := by
  rw [readQuoted, if_pos rfl]
  exact if_pos rfl

theorem readQuoted_escape :
    readQuoted true (backslash :: d :: s) = (readQuoted true s).map fun r => (unescape d ++ r.1, r.2) := by
  rw [readQuoted, if_neg (by decide), if_pos (by decide)]

theorem readQuoted_escape_end : readQuoted true [backslash] = none := rfl

theorem readQuoted_char (hq : c ≠ quote) (hb : isEscape escapes c = false) :
    readQuoted escapes (c :: s) = (readQuoted escapes s).map fun r => (c :: r.1, r.2) := by
  cases s with
  | nil => simp only [readQuoted, if_neg hq, hb, Bool.false_eq_true, if_false]
  | cons d s => rw [readQuoted, if_neg hq, if_neg (Bool.eq_false_iff.mp hb)]

end

theorem isEscape_cases (escapes : Bool) (c : UInt8) : isEscape escapes c = false ∨ escapes = true ∧ c = backslash := by
  cases escapes with
  | false => exact Or.inl rfl
  | true =>
    by_cases hc : c = backslash
    · exact Or.inr ⟨rfl, hc⟩
    · exact Or.inl (beq_eq_false_iff_ne.mpr hc)

theorem quoted_induction (escapes : Bool) {motive : Bytes → Prop} (nil : motive [])
    (close : ∀ s, s.head? ≠ some quote → motive (quote :: s)) (double : ∀ s, motive s → motive (quote :: quote :: s))
    (last : escapes = true → motive [backslash])
    (escape : escapes = true → ∀ d s, motive s → motive (backslash :: d :: s))
    (char : ∀ c s, c ≠ quote → isEscape escapes c = false → motive s → motive (c :: s)) (s : Bytes) : motive s := by
  generalize hn : s.length = n
  induction n using Nat.strongRecOn generalizing s with
  | ind n ih =>
    cases s with
    | nil => exact nil
    | cons c s =>
      rw [List.length_cons] at hn
      by_cases hq : c = quote
      · subst hq
        by_cases hd : s.head? = some quote
        · obtain ⟨s, rfl⟩ := List.head?_eq_some_iff.mp hd
          rw [List.length_cons] at hn
          exact double s (ih s.length (by omega) s rfl)
        · exact close s hd
      rcases isEscape_cases escapes c with hb | ⟨he, rfl⟩
      · exact char c s hq hb (ih s.length (by omega) s rfl)
      · cases s with
        | nil => exact last he
        | cons d s =>
          rw [List.length_cons] at hn
          exact escape he d s (ih s.length (by omega) s rfl)

theorem read_of_map {x : Option (Bytes × Bytes)} {a w r : Bytes} (h : (x.map fun r => (a ++ r.1, r.2)) = some (w, r)) :
    ∃ w', w = a ++ w' ∧ x = some (w', r) := by
  obtain ⟨⟨w', r'⟩, hx, h⟩ := Option.map_eq_some_iff.mp h
  obtain ⟨rfl, rfl⟩ := Prod.mk.inj h
  exact ⟨w', rfl, hx⟩

theorem length_unescape (c : UInt8) : (unescape c).length ≤ 2 := by
  unfold unescape
  repeat' split
  all_goals simp

theorem unescape_wild {c : UInt8} (h : c = 37 ∨ c = 95) : unescape c = [backslash, c] := by
  rcases h with rfl | rfl <;> rfl

theorem length_unescape_two {c : UInt8} (h : 2 ≤ (unescape c).length) : c = 37 ∨ c = 95 := by
  unfold unescape at h
  split_ifs at h
  all_goals first | assumption | simp at h

theorem length_readQuoted {escapes : Bool} (s : Bytes) : ∀ {w r : Bytes}, readQuoted escapes s = some (w, r) →
    w.length + r.length < s.length := by
  induction s using quoted_induction escapes with
  | nil => exact fun h => by cases h
  | close s hd =>
    intro w r h
    rw [readQuoted_close hd] at h
    cases h
    rw [List.length_nil, List.length_cons]
    omega
  | double s ih =>
    intro w r h
    rw [readQuoted_double] at h
    obtain ⟨w', rfl, hr⟩ := read_of_map (a := [quote]) h
    have hlen := ih hr
    rw [List.length_append, List.length_singleton, List.length_cons, List.length_cons]
    omega
  | last he =>
    intro w r h
    rw [he, readQuoted_escape_end] at h
    cases h
  | escape he d s ih =>
    intro w r h
    subst he
    rw [readQuoted_escape] at h
    obtain ⟨w', rfl, hr⟩ := read_of_map h
    have hlen := ih hr
    have hd := length_unescape d
    rw [List.length_append, List.length_cons, List.length_cons]
    omega
  | char c s hq hb ih =>
    intro w r h
    rw [readQuoted_char hq hb] at h
    obtain ⟨w', rfl, hr⟩ := read_of_map (a := [c]) h
    have hlen := ih hr
    rw [List.length_append, List.length_singleton, List.length_cons]
    omega

-- each backslash stands before a wildcard
def Wild (s : Bytes) : Prop := ∀ a b, s = a ++ backslash :: b → b.head? = some 37 ∨ b.head? = some 95

theorem wild_tail {c : UInt8} {s : Bytes} (h : Wild (c :: s)) : Wild s :=
  fun a b hs => h (c :: a) b (by rw [hs, List.cons_append])

theorem wild_cons {c : UInt8} {s : Bytes} (hc : c = backslash → s.head? = some 37 ∨ s.head? = some 95) (h : Wild s) :
    Wild (c :: s) := by
  intro a b hs
  cases a with
  | nil =>
    obtain ⟨rfl, rfl⟩ := List.cons.inj hs
    exact hc rfl
  | cons x a => exact h a b (List.cons.inj hs).2

theorem readQuoted_reads {escapes : Bool} {rest : Bytes} (hrest : rest.head? ≠ some quote) (s : Bytes) :
    quote ∉ s → (escapes = true → Wild s) → readQuoted escapes (s ++ quote :: rest) = some (s, rest) := by
  induction s using quoted_induction escapes with
  | nil => exact fun _ _ => readQuoted_close hrest
  | close s hd => exact fun hquote => absurd (List.mem_cons_self ..) hquote
  | double s ih => exact fun hquote => absurd (List.mem_cons_self ..) hquote
  | last he =>
    intro _ hwild
    rcases hwild he [] [] rfl with h | h <;> cases h
  | escape he d s ih =>
    intro hquote hwild
    subst he
    have hw := hwild rfl
    have hd : unescape d = [backslash, d] := by
      rcases hw [] (d :: s) rfl with h | h <;> cases h <;> rfl
    have hs : quote ∉ s := fun h => hquote (List.mem_cons_of_mem _ (List.mem_cons_of_mem d h))
    rw [List.cons_append, List.cons_append, readQuoted_escape, ih hs fun _ => wild_tail (wild_tail hw)]
    show some (unescape d ++ s, rest) = _
    rw [hd]
    rfl
  | char c s hq hb ih =>
    intro hquote hwild
    have hs : quote ∉ s := fun h => hquote (List.mem_cons_of_mem c h)
    rw [List.cons_append, readQuoted_char hq hb, ih hs fun he => wild_tail (hwild he)]
    rfl

theorem plain_of_readQuoted {escapes : Bool} (s : Bytes) : readQuoted escapes (s ++ [quote]) = some (s, []) →
    quote ∉ s ∧ (escapes = true → Wild s) := by
  induction s using quoted_induction escapes with
  | nil =>
    refine fun _ => ⟨List.not_mem_nil, fun _ a b hs => ?_⟩
    exact absurd hs.symm (List.append_ne_nil_of_right_ne_nil a (List.cons_ne_nil _ _))
  | close s hd =>
    -- the string ends here, or at the quote behind it
    intro h
    cases s with
    | nil =>
      rw [List.cons_append, List.nil_append, readQuoted_double] at h
      cases h
    | cons d s =>
      have hd' : (d :: s ++ [quote]).head? ≠ some quote := hd
      rw [List.cons_append, readQuoted_close hd'] at h
      cases h
  | double s ih =>
    -- the string loses a quote
    intro h
    rw [List.cons_append, List.cons_append, readQuoted_double] at h
    obtain ⟨w, hw, hr⟩ := read_of_map (a := [quote]) h
    have hlen := length_readQuoted _ hr
    obtain rfl : quote :: s = w := (List.cons.inj hw).2
    rw [List.length_append, List.length_singleton, List.length_cons, List.length_nil] at hlen
    omega
  | last he =>
    intro h
    subst he
    rw [List.cons_append, List.nil_append, readQuoted_escape] at h
    cases h
  | escape he d s ih =>
    intro h
    subst he
    rw [List.cons_append, List.cons_append, readQuoted_escape] at h
    obtain ⟨w, hw, hr⟩ := read_of_map h
    have hlen := length_readQuoted _ hr
    have hlen' := congrArg List.length hw
    rw [List.length_append, List.length_singleton, List.length_nil] at hlen
    rw [List.length_append, List.length_cons, List.length_cons] at hlen'
    have hd := length_unescape_two (c := d) (by omega)
    rw [unescape_wild hd] at hw
    obtain rfl : s = w := (List.cons.inj (List.cons.inj hw).2).2
    obtain ⟨hquote, hwild⟩ := ih hr
    have hdq : quote ≠ d := by
      rcases hd with rfl | rfl <;> decide
    have hdb : d ≠ backslash := by
      rcases hd with rfl | rfl <;> decide
    refine ⟨?_, fun _ => ?_⟩
    · exact List.not_mem_cons_of_ne_of_not_mem (by decide) (List.not_mem_cons_of_ne_of_not_mem hdq hquote)
    · refine wild_cons (fun _ => ?_) (wild_cons (fun hb => absurd hb hdb) (hwild rfl))
      rcases hd with rfl | rfl
      · exact Or.inl rfl
      · exact Or.inr rfl
  | char c s hq hb ih =>
    intro h
    rw [List.cons_append, readQuoted_char hq hb] at h
    obtain ⟨w, hw, hr⟩ := read_of_map (a := [c]) h
    obtain rfl : s = w := (List.cons.inj hw).2
    obtain ⟨hquote, hwild⟩ := ih hr
    refine ⟨List.not_mem_cons_of_ne_of_not_mem (Ne.symm hq) hquote, fun he => wild_cons (fun hc => ?_) (hwild he)⟩
    subst hc he
    cases hb

/-! ## Numerals -/

theorem isDigit_digit : ∀ d < 10, isDigit (COM.digit d) = true ∧ (COM.digit d).toNat - 48 = d := by decide

theorem readDigits_append (l : List Nat) : ∀ (v : Nat) (rest : Bytes), (∀ d ∈ l, d < 10) →
    readDigits v (l.map COM.digit ++ rest) = readDigits (l.foldl (fun v d => 10 * v + d) v) rest := by
  induction l with
  | nil => exact fun _ _ _ => rfl
  | cons d l ih =>
    intro v rest hl
    obtain ⟨hdigit, hval⟩ := isDigit_digit d (hl d (List.mem_cons_self ..))
    rw [List.map_cons, List.cons_append, readDigits, if_pos hdigit, hval,
      ih _ rest fun x hx => hl x (List.mem_cons_of_mem d hx), List.foldl_cons]

theorem foldr_eq_ofDigits (l : List Nat) : l.foldr (fun d v => 10 * v + d) 0 = Nat.ofDigits 10 l := by
  induction l with
  | nil => rfl
  | cons d l ih =>
    rw [List.foldr_cons, ih, Nat.ofDigits_cons, Nat.add_comm]

theorem numeral_head (val : Nat) : ∃ c s, COM.numeral 10 val = c :: s ∧ isDigit c = true := by
  have hpos : 0 < (COM.numeral 10 val).length := by
    rw [COM.length_numeral]
    exact COM.length_lowDigits_pos (by decide)
  obtain ⟨c, s, hs⟩ := List.exists_cons_of_length_pos hpos
  have hmem : c ∈ COM.numeral 10 val := by
    rw [hs]
    exact List.mem_cons_self ..
  obtain ⟨hlo, hhi⟩ := COM.numeral_decimal hmem
  refine ⟨c, s, hs, ?_⟩
  unfold isDigit
  rw [decide_eq_true hlo, decide_eq_true hhi]
  rfl

theorem readDigits_stop {v : Nat} {rest : Bytes} (h : ∀ c ∈ rest.head?, isDigit c = false) :
    readDigits v rest = (v, rest) := by
  cases rest with
  | nil => rfl
  | cons c s => rw [readDigits, if_neg (Bool.eq_false_iff.mp (h c rfl))]

theorem readUnsigned_numeral {val : Nat} {rest : Bytes} (h : ∀ c ∈ rest.head?, isDigit c = false) :
    readUnsigned (COM.numeral 10 val ++ rest) = some (val, rest) := by
  have hdigits : COM.numeral 10 val = (COM.lowDigits 10 val).reverse.map COM.digit := by
    rw [COM.numeral, List.map_reverse]
  have hlt : ∀ d ∈ (COM.lowDigits 10 val).reverse, d < 10 :=
    fun d hd => COM.lowDigits_lt (by decide) (List.mem_reverse.mp hd)
  have hvalue : (COM.lowDigits 10 val).reverse.foldl (fun v d => 10 * v + d) 0 = val := by
    rw [List.foldl_reverse, foldr_eq_ofDigits, COM.ofDigits_lowDigits]
  have hread := readDigits_append _ 0 rest hlt
  rw [hvalue, readDigits_stop h, ← hdigits] at hread
  obtain ⟨c, s, hs, hc⟩ := numeral_head val
  rw [hs, List.cons_append] at hread ⊢
  rw [readUnsigned, if_pos hc, hread]

theorem follows_nil : Follows [] := fun c hc => absurd hc (Option.not_mem_none c)

theorem not_isDigit_of_follows {rest : Bytes} (h : Follows rest) : ∀ c ∈ rest.head?, isDigit c = false := by
  intro c hc
  have hend := h c hc
  unfold endsName at hend
  simp only [Bool.or_eq_true, beq_iff_eq] at hend
  rcases hend with (rfl | rfl) | rfl <;> decide

theorem not_quote_of_follows {rest : Bytes} (h : Follows rest) : rest.head? ≠ some quote :=
  fun hq => (endsName_cases (h quote hq)).2.1 rfl

theorem isDigit_ne {c : UInt8} (h : isDigit c = true) : c ≠ quote ∧ c ≠ 45 ∧ c ≠ 43 := by
  refine ⟨?_, ?_, ?_⟩
  all_goals
    rintro rfl
    exact absurd h (by decide)

/-! ## Literals -/

theorem readLiteral_numeral {escapes : Bool} {val : Nat} {rest : Bytes} (h : Follows rest) :
    readLiteral escapes (COM.numeral 10 val ++ rest) = some (.num val, rest) := by
  have hread : readUnsigned (COM.numeral 10 val ++ rest) = some (val, rest) :=
    readUnsigned_numeral (not_isDigit_of_follows h)
  obtain ⟨c, s, hs, hc⟩ := numeral_head val
  obtain ⟨hquote, hminus, hplus⟩ := isDigit_ne hc
  rw [hs, List.cons_append] at hread ⊢
  rw [readLiteral, if_neg hquote, if_neg hminus, if_neg hplus, hread]
  rfl

theorem readLiteral_quoted {escapes : Bool} {s rest : Bytes} :
    readLiteral escapes (quote :: (s ++ [quote]) ++ rest) =
      (readQuoted escapes (s ++ quote :: rest)).map fun r => (.text r.1, r.2) := by
  rw [List.cons_append, readLiteral, if_pos rfl, List.append_assoc, List.singleton_append]

/-- The numbers that are not negative, and the strings that have no NUL and no quote and, where the server knows
escapes, no backslash but before the wildcards. -/
def Denotable (escapes : Bool) : Value → Prop
  | .int val => 0 ≤ val.toInt
  | .str val => 0 ∉ val ∧ quote ∉ val ∧ (escapes = true → Wild val)

theorem toULong_eq_iff (val : Int32) : (toULong val : Int) = val.toInt ↔ 0 ≤ val.toInt := by
  have hlo := val.le_toInt
  have hhi := val.toInt_lt
  unfold toULong
  omega

theorem int_denotes_iff {escapes : Bool} (val : Int32) :
    (∀ rest, Follows rest → readLiteral escapes (litText (.int val) ++ rest) = some (denoted (.int val), rest)) ↔
      Denotable escapes (.int val) := by
  show (∀ rest, Follows rest → readLiteral escapes (COM.numeral 10 (toULong val) ++ rest) =
    some (.num val.toInt, rest)) ↔ 0 ≤ val.toInt
  rw [← toULong_eq_iff]
  constructor
  · intro h
    have hread := h [] follows_nil
    rw [readLiteral_numeral follows_nil] at hread
    exact SqlValue.num.inj (Prod.mk.inj (Option.some.inj hread)).1
  · intro h rest hrest
    rw [readLiteral_numeral hrest, h]

theorem str_denotes_iff {escapes : Bool} (val : Bytes) :
    (∀ rest, Follows rest → readLiteral escapes (litText (.str val) ++ rest) = some (denoted (.str val), rest)) ↔
      Denotable escapes (.str val) := by
  show (∀ rest, Follows rest → readLiteral escapes (quote :: (cString val ++ [quote]) ++ rest) =
    some (.text val, rest)) ↔ 0 ∉ val ∧ quote ∉ val ∧ (escapes = true → Wild val)
  constructor
  · intro h
    have hread := h [] follows_nil
    rw [readLiteral_quoted] at hread
    obtain ⟨⟨w, r⟩, hr, heq⟩ := Option.map_eq_some_iff.mp hread
    obtain ⟨htext, rfl⟩ := Prod.mk.inj heq
    obtain rfl : w = val := SqlValue.text.inj htext
    have hlen := length_readQuoted _ hr
    rw [List.length_append, List.length_singleton, List.length_nil] at hlen
    have h0 : 0 ∉ w := by
      intro h0
      have hlt := length_cString_lt h0
      omega
    rw [cString_eq h0] at hr
    exact ⟨h0, plain_of_readQuoted w hr⟩
  · rintro ⟨h0, hquote, hwild⟩ rest hrest
    rw [readLiteral_quoted, cString_eq h0, readQuoted_reads (not_quote_of_follows hrest) val hquote hwild]
    rfl

/-- **The literal of a value denotes it and ends where it is written to, whatever ends the placeholder, exactly for
the values without a sign, a quote, a NUL or an escape.** -/
theorem denotes_iff (escapes : Bool) (v : Value) :
    (∃ text, literal v = .ok text ∧
      ∀ rest, Follows rest → readLiteral escapes (text ++ rest) = some (denoted v, rest)) ↔ Denotable escapes v := by
  have hdenotes : (∀ rest, Follows rest → readLiteral escapes (litText v ++ rest) = some (denoted v, rest)) ↔
      Denotable escapes v := by
    cases v with
    | int val => exact int_denotes_iff val
    | str val => exact str_denotes_iff val
  rw [← hdenotes]
  constructor
  · rintro ⟨text, htext, h⟩
    rw [literal_eq] at htext
    cases htext
    exact h
  · exact fun h => ⟨litText v, literal_eq v, h⟩

/-- The literal of `-1` is a large number. -/
theorem denotes_fails :
    ¬ ∀ (escapes : Bool) (v : Value), ∃ text, literal v = .ok text ∧
      ∀ rest, Follows rest → readLiteral escapes (text ++ rest) = some (denoted v, rest) := by
  intro h
  obtain ⟨text, htext, hread⟩ := h true (.int (-1))
  rw [literal_eq] at htext
  cases htext
  have hneg : 0 ≤ (-1 : Int32).toInt := (int_denotes_iff (-1)).mp hread
  exact absurd hneg (by decide)

end TQuery

end Afn
