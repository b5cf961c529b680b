import Mathlib.Algebra.Order.Floor.Ring
import Mathlib.Data.Int.Log
import Mathlib.Data.List.DropRight
import Mathlib.Data.Nat.Digits.Lemmas
import Mathlib.Data.Rat.Floor
import Mathlib.Tactic.FieldSimp
import Mathlib.Tactic.Linarith
import Mathlib.Tactic.Ring

/-!
# Decimal numerals

Numerals as texts, the number a text denotes, and the numeral with a given number of significant digits
that `printf` makes of a rational with `%g`.
-/

namespace Decimal

/-! ## Digits -/

abbrev Digits := List (Fin 10)

def digit (n : Nat) : Fin 10 := Fin.ofNat 10 n

def value (ds : Digits) : Nat := ds.foldl (fun (n : Nat) (d : Fin 10) => 10 * n + d) 0

def lowest : (k n : Nat) → Digits
  | 0, _ => []
  | k + 1, n => lowest k (n / 10) ++ [digit n]

def strip (ds : Digits) : Digits := ds.rdropWhile (· == digit 0)

section
variable (ds es : Digits)

theorem value_concat (d : Fin 10) : value (ds ++ [d]) = 10 * value ds + d := by
  unfold value
  rw [List.foldl_append]
  rfl

theorem value_append : value (ds ++ es) = value ds * 10 ^ es.length + value es := by
  induction es using List.reverseRecOn with
  | nil => simp [value]
  | append_singleton es d ih =>
    rw [← List.append_assoc, value_concat, value_concat, ih, List.length_append, List.length_singleton, pow_succ]
    ring

theorem value_zeros (h : ∀ d ∈ ds, d = digit 0) : value ds = 0 := by
  induction ds using List.reverseRecOn with
  | nil => rfl
  | append_singleton ds d ih =>
    have hd : d = digit 0 := h d (List.mem_append_right _ (List.mem_singleton_self d))
    rw [value_concat, ih fun e he => h e (List.mem_append_left _ he), hd]
    rfl

theorem length_lowest : ∀ k n : Nat, (lowest k n).length = k := by
  intro k
  induction k with
  | zero => exact fun _ => rfl
  | succ k ih =>
    intro n
    rw [lowest, List.length_append, ih, List.length_singleton]

theorem value_lowest : ∀ k n : Nat, value (lowest k n) = n % 10 ^ k := by
  intro k
  induction k with
  | zero =>
    intro n
    rw [pow_zero, Nat.mod_one]
    rfl
  | succ k ih =>
    intro n
    have hd : (digit n : Nat) = n % 10 := rfl
    rw [lowest, value_concat, ih, hd, pow_succ', Nat.mod_mul, Nat.add_comm]

def fraction (ds : Digits) : Rat := value ds / 10 ^ ds.length

theorem fraction_append_zeros (hes : value es = 0) : fraction (ds ++ es) = fraction ds := by
  unfold fraction
  rw [value_append, hes, List.length_append, pow_add, Nat.add_zero]
  push_cast
  rw [mul_div_mul_right _ _ (by positivity)]

theorem fraction_strip : fraction (strip ds) = fraction ds := by
  have hsplit : strip ds ++ ds.rtakeWhile (· == digit 0) = ds := List.rdropWhile_append_rtakeWhile ..
  have hzeros : value (ds.rtakeWhile (· == digit 0)) = 0 := by
    refine value_zeros _ fun d hd => ?_
    have hzero := List.mem_rtakeWhile_imp hd
    exact beq_iff_eq.mp hzero
  calc fraction (strip ds) = fraction (strip ds ++ ds.rtakeWhile (· == digit 0)) := (fraction_append_zeros _ _ hzeros).symm
    _ = fraction ds := by rw [hsplit]

theorem value_add_fraction : (value ds : Rat) + fraction es = value (ds ++ es) / 10 ^ es.length := by
  unfold fraction
  rw [value_append]
  push_cast
  field_simp

end

/-! ## Numerals -/

structure Numeral where
  neg : Bool
  first : Fin 10
  whole : Digits
  frac : Digits
  exp : Option Int

def digitChar (d : Fin 10) : Char := Nat.digitChar d

def digitVal (c : Char) : Fin 10 := digit (c.toNat - '0'.toNat)

def expDigits (n : Nat) : Digits := lowest (max 2 (Nat.log 10 n + 1)) n

def Numeral.toRat (m : Numeral) : Rat :=
  (if m.neg then -1 else 1) * (value (m.first :: m.whole) + fraction m.frac) * 10 ^ m.exp.getD 0

def fracText : Digits → List Char
  | [] => []
  | d :: ds => '.' :: (d :: ds).map digitChar

def expText : Option Int → List Char
  | none => []
  | some e => 'e' :: (if e < 0 then '-' else '+') :: (expDigits e.natAbs).map digitChar

def Numeral.text (m : Numeral) : List Char :=
  (if m.neg then ['-'] else []) ++ ((m.first :: m.whole).map digitChar ++ (fracText m.frac ++ expText m.exp))

/-! ## Reading -/

def readDigits (cs : List Char) : Digits × List Char :=
  ((cs.takeWhile Char.isDigit).map digitVal, cs.dropWhile Char.isDigit)

def readSign : List Char → Bool × List Char
  | '-' :: cs => (true, cs)
  | cs => (false, cs)

def readFrac : List Char → Digits × List Char
  | '.' :: cs => readDigits cs
  | cs => ([], cs)

-- an exponent ends the text
def readExp : List Char → Option (Option Int)
  | [] => some none
  | 'e' :: '-' :: cs => if (readDigits cs).2 = [] then some (some (-value (readDigits cs).1)) else none
  | 'e' :: '+' :: cs => if (readDigits cs).2 = [] then some (some (value (readDigits cs).1)) else none
  | _ => none

def denote (cs : List Char) : Option Rat := do
  let (neg, cs) := readSign cs
  let (whole, cs) := readDigits cs
  let (frac, cs) := readFrac cs
  let exp ← readExp cs
  match whole with
  | [] => none
  | first :: whole => some (Numeral.toRat ⟨neg, first, whole, frac, exp⟩)

theorem digitVal_digitChar : ∀ d, digitVal (digitChar d) = d := by decide

theorem isDigit_digitChar : ∀ d, (digitChar d).isDigit := by decide

theorem digitChar_ne_minus : ∀ d, digitChar d ≠ '-' := by decide

-- a text that does not go on with a digit
def NoDigit (cs : List Char) : Prop := ∀ c ∈ cs.head?, ¬ c.isDigit

theorem readDigits_append (ds : Digits) {rest : List Char} (h : NoDigit rest) :
    readDigits (ds.map digitChar ++ rest) = (ds, rest) := by
  have hall : ∀ c ∈ ds.map digitChar, c.isDigit := by
    intro c hc
    obtain ⟨d, -, rfl⟩ := List.mem_map.mp hc
    exact isDigit_digitChar d
  have htake : rest.takeWhile Char.isDigit = [] := by
    cases rest with
    | nil => rfl
    | cons c cs => exact List.takeWhile_cons_of_neg (h c rfl)
  have hdrop : rest.dropWhile Char.isDigit = rest := by
    cases rest with
    | nil => rfl
    | cons c cs => exact List.dropWhile_cons_of_neg (h c rfl)
  unfold readDigits
  rw [List.takeWhile_append_of_pos hall, List.dropWhile_append_of_pos hall, htake, hdrop, List.append_nil,
    List.map_map]
  have hid : digitVal ∘ digitChar = id := funext digitVal_digitChar
  rw [hid, List.map_id]

theorem noDigit_nil : NoDigit [] := fun _ hc => nomatch hc

theorem noDigit_cons {c : Char} (cs : List Char) (h : ¬ c.isDigit) : NoDigit (c :: cs) := by
  intro c' hc
  cases hc
  exact h

theorem noDigit_expText (e : Option Int) : NoDigit (expText e) := by
  cases e with
  | none => exact noDigit_nil
  | some e => exact noDigit_cons _ (by decide)

theorem noDigit_fracText (ds : Digits) {rest : List Char} (h : NoDigit rest) : NoDigit (fracText ds ++ rest) := by
  cases ds with
  | nil => exact h
  | cons d ds => exact noDigit_cons _ (by decide)

theorem readFrac_append (ds : Digits) (e : Option Int) : readFrac (fracText ds ++ expText e) = (ds, expText e) := by
  cases ds with
  | nil =>
    cases e with
    | none => rfl
    | some e => rfl
  | cons d ds => exact readDigits_append (d :: ds) (noDigit_expText e)

theorem value_expDigits (n : Nat) : value (expDigits n) = n := by
  have hlt : n < 10 ^ (Nat.log 10 n + 1) := Nat.lt_pow_succ_log_self (by decide) n
  have hle : 10 ^ (Nat.log 10 n + 1) ≤ 10 ^ max 2 (Nat.log 10 n + 1) :=
    Nat.pow_le_pow_right (by decide) (le_max_right ..)
  rw [expDigits, value_lowest, Nat.mod_eq_of_lt (lt_of_lt_of_le hlt hle)]

theorem readExp_expText (e : Option Int) : readExp (expText e) = some e := by
  cases e with
  | none => rfl
  | some e =>
    have hread := readDigits_append (expDigits e.natAbs) noDigit_nil
    rw [List.append_nil] at hread
    by_cases he : e < 0
    · simp only [expText, he, if_true, readExp, hread, value_expDigits]
      congr 2
      omega
    · simp only [expText, he, if_false, readExp, hread, if_true, value_expDigits]
      congr 2
      omega

theorem readSign_append (neg : Bool) (d : Fin 10) (cs : List Char) :
    readSign ((if neg then ['-'] else []) ++ digitChar d :: cs) = (neg, digitChar d :: cs) := by
  cases neg with
  | true => rfl
  | false =>
    simp only [Bool.false_eq_true, if_false, List.nil_append]
    unfold readSign
    split
    next heq => exact absurd (List.cons.inj heq).1 (digitChar_ne_minus d)
    next => rfl

theorem denote_text (m : Numeral) : denote m.text = some m.toRat := by
  have hwhole := readDigits_append (m.first :: m.whole) (noDigit_fracText m.frac (noDigit_expText m.exp))
  unfold denote Numeral.text
  rw [List.map_cons, List.cons_append] at hwhole ⊢
  rw [readSign_append]
  simp only [hwhole, readFrac_append, readExp_expText, Option.bind_eq_bind, Option.bind_some]

end Decimal
