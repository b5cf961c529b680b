import Afn.Access
import Mathlib.Data.Nat.Digits.Lemmas

/-!
# Integers as text

`COM::itoa` of `YQComFun.cpp`: the digits are written backwards, and the buffer is then turned around by two
pointers that move towards each other.
-/

namespace Afn

open Bytes Access

namespace COM

def digit (digval : Nat) : UInt8 := if 9 < digval then UInt8.ofNat (digval - 10 + 97) else UInt8.ofNat (digval + 48)

/-- The loop that writes the digits from `p` on; the result is the buffer and the end of the digits. -/
def itoaDigits (radix : Nat) : (fuel val : Nat) → (buf : Bytes) → (p : Nat) → Acc (Bytes × Nat)
  | 0, _, _, _ => ⟨[], .error .outOfFuel⟩
  | fuel + 1, val, buf, p => do
    let digval := val % radix
    let val := val / radix
    let buf ← writeAt buf p [digit digval]
    if 0 < val then itoaDigits radix fuel val buf (p + 1)
    else return (buf, p + 1)

/-- The loop that swaps. The pointers cross at the end, so `p - 1` need not be below zero. -/
def itoaReverse : (fuel : Nat) → (buf : Bytes) → (firstdig p : Nat) → Acc Bytes
  | 0, _, _, _ => ⟨[], .error .outOfFuel⟩
  | fuel + 1, buf, firstdig, p => do
    let temp ← getByte buf p
    let x ← getByte buf firstdig
    let buf ← writeAt buf p [x]
    let buf ← writeAt buf firstdig [temp]
    if firstdig + 1 < p - 1 then itoaReverse fuel buf (firstdig + 1) (p - 1)
    else return buf

-- each turn of a loop goes on by a byte of the buffer
def itoa (val : Nat) (buf : Bytes) (radix : Nat) : Acc Bytes := do
  let (buf, p) ← itoaDigits radix (buf.length + 1) val buf 0
  let buf ← writeAt buf p [0]
  itoaReverse (buf.length + 1) buf 0 (p - 1)

/-! ## Digits -/

def lowDigits (radix val : Nat) : List Nat := if val = 0 then [0] else Nat.digits radix val

def numeral (radix val : Nat) : Bytes := ((lowDigits radix val).map digit).reverse

section
variable {radix val : Nat}

theorem lowDigits_eq (h : 1 < radix) :
    lowDigits radix val = val % radix :: if 0 < val / radix then lowDigits radix (val / radix) else [] := by
  unfold lowDigits
  by_cases hval : val = 0
  · subst hval
    rw [if_pos rfl, Nat.zero_mod, Nat.zero_div, if_neg (Nat.lt_irrefl 0)]
  · rw [if_neg hval, Nat.digits_def' h (Nat.pos_of_ne_zero hval)]
    by_cases hq : 0 < val / radix
    · rw [if_pos hq, if_neg (Nat.ne_of_gt hq)]
    · rw [if_neg hq, Nat.eq_zero_of_not_pos hq, Nat.digits_zero]

theorem lowDigits_lt (h : 1 < radix) {d : Nat} (hd : d ∈ lowDigits radix val) : d < radix := by
  unfold lowDigits at hd
  split at hd
  · rw [List.mem_singleton.mp hd]
    omega
  · exact Nat.digits_lt_base h hd

theorem ofDigits_lowDigits (radix val : Nat) : Nat.ofDigits radix (lowDigits radix val) = val := by
  unfold lowDigits
  split
  next h =>
    rw [h, Nat.ofDigits_singleton]
  next => exact Nat.ofDigits_digits radix val

theorem length_lowDigits_pos (h : 1 < radix) : 0 < (lowDigits radix val).length := by
  rw [lowDigits_eq h, List.length_cons]
  exact Nat.succ_pos _

theorem length_lowDigits_le (h : 1 < radix) {n : Nat} (hn : 0 < n) (hval : val < radix ^ n) :
    (lowDigits radix val).length ≤ n := by
  unfold lowDigits
  split
  · exact hn
  · exact (Nat.digits_length_le_iff h val).mpr hval

theorem length_numeral (radix val : Nat) : (numeral radix val).length = (lowDigits radix val).length := by
  unfold numeral
  rw [List.length_reverse, List.length_map]

theorem digit_decimal : ∀ d < 10, 48 ≤ digit d ∧ digit d ≤ 57 := by decide

theorem numeral_decimal {c : UInt8} (hc : c ∈ numeral 10 val) : 48 ≤ c ∧ c ≤ 57 := by
  obtain ⟨d, hd, rfl⟩ := List.mem_map.mp (List.mem_reverse.mp hc)
  exact digit_decimal d (lowDigits_lt (by decide) hd)

end

/-! ## The buffer -/

section
variable {radix val : Nat}

theorem itoaDigits_yields (h : 1 < radix) : ∀ (fuel val : Nat) (pre rest : Bytes),
    (lowDigits radix val).length ≤ rest.length → rest.length < fuel →
      Yields (Within (pre ++ rest).length) (itoaDigits radix fuel val (pre ++ rest) pre.length)
        (pre ++ (lowDigits radix val).map digit ++ rest.drop (lowDigits radix val).length,
          pre.length + (lowDigits radix val).length) := by
  intro fuel
  induction fuel with
  | zero => exact fun _ _ _ _ hf => absurd hf (Nat.not_lt_zero _)
  | succ fuel ih =>
    intro val pre rest hlen hf
    rw [lowDigits_eq h, List.length_cons] at hlen
    have hwrite : Yields (Within (pre ++ rest).length) (writeAt (pre ++ rest) pre.length [digit (val % radix)])
        (pre ++ [digit (val % radix)] ++ rest.drop 1) := by
      refine yields_writeAt_append rfl (by simp only [List.length_singleton]; omega) ?_
      simp only [Within, List.length_append, List.length_singleton]
      omega
    unfold itoaDigits
    refine hwrite.bind ?_
    rw [lowDigits_eq h]
    by_cases hq : 0 < val / radix
    · rw [if_pos hq] at hlen ⊢
      have hdrop : (rest.drop 1).length = rest.length - 1 := List.length_drop
      have hpre : (pre ++ [digit (val % radix)]).length = pre.length + 1 := by simp
      have hlength : (pre ++ [digit (val % radix)] ++ rest.drop 1).length = (pre ++ rest).length := by
        simp only [List.length_append, List.length_singleton, hdrop]
        omega
      have hrest := ih (val / radix) (pre ++ [digit (val % radix)]) (rest.drop 1) (by omega) (by omega)
      rw [hlength, hpre, List.drop_drop, Nat.add_assoc, Nat.add_comm 1] at hrest
      rw [if_pos hq, List.length_cons]
      simp only [List.map_cons, List.append_assoc, List.cons_append, List.nil_append] at hrest ⊢
      exact hrest
    · rw [if_neg hq, if_neg hq]
      exact yields_pure _

theorem itoaReverse_yields {hi : Nat} : ∀ (fuel : Nat) (a mid b : Bytes), 0 < mid.length → mid.length < fuel →
    a.length + mid.length ≤ hi →
      Yields (Within hi) (itoaReverse fuel (a ++ mid ++ b) a.length (a.length + mid.length - 1))
        (a ++ mid.reverse ++ b) := by
  intro fuel
  induction fuel with
  | zero => exact fun _ _ _ _ hf => absurd hf (Nat.not_lt_zero _)
  | succ fuel ih =>
    intro a mid b hpos hf hhi
    unfold itoaReverse
    cases mid with
    | nil => exact absurd hpos (Nat.lt_irrefl 0)
    | cons x mid =>
      rcases List.eq_nil_or_concat mid with rfl | ⟨m, y, rfl⟩
      · -- the pointers have met
        rw [List.length_singleton] at hhi
        rw [List.length_singleton, Nat.add_sub_cancel, List.append_assoc, List.singleton_append]
        refine (yields_getByte_append (by omega) rfl).bind ?_
        refine (yields_getByte_append (by omega) rfl).bind ?_
        refine (yields_writeAt_cons (by omega) rfl).bind ?_
        refine (yields_writeAt_cons (by omega) rfl).bind ?_
        rw [if_neg (by omega), List.reverse_singleton, List.append_assoc]
        exact yields_pure _
      · rw [List.concat_eq_append] at hf hhi ⊢
        have hlen : (x :: (m ++ [y])).length = m.length + 2 := by simp
        rw [hlen] at hf hhi
        have hp : a.length + (m.length + 2) - 1 = (a ++ x :: m).length := by
          simp only [List.length_append, List.length_cons]
          omega
        have hbuf : a ++ x :: (m ++ [y]) ++ b = a ++ x :: m ++ y :: b := by simp
        have hbuf' : a ++ x :: m ++ y :: b = a ++ x :: (m ++ y :: b) := by simp
        have hbuf'' : a ++ x :: m ++ x :: b = a ++ x :: (m ++ x :: b) := by simp
        rw [hlen, hp, hbuf]
        have hple : (a ++ x :: m).length < hi := by omega
        refine (yields_getByte_append hple rfl).bind ?_
        rw [hbuf']
        refine (yields_getByte_append (by omega) rfl).bind ?_
        rw [← hbuf']
        refine (yields_writeAt_cons hple rfl).bind ?_
        rw [hbuf'']
        refine (yields_writeAt_cons (by omega) rfl).bind ?_
        rw [← hp]
        by_cases hm : 1 < m.length
        · rw [if_pos (by omega)]
          have hlen' : (a ++ [y]).length = a.length + 1 := by simp
          have hrest := ih (a ++ [y]) m (x :: b) (by omega) (by omega) (by omega)
          have hp' : a.length + 1 + m.length - 1 = a.length + (m.length + 2) - 1 - 1 := by omega
          rw [hlen', hp'] at hrest
          simpa using hrest
        · rw [if_neg (by omega)]
          have hrev : m.reverse = m := by
            match m, hm with
            | [], _ => rfl
            | [_], _ => rfl
            | _ :: _ :: _, hm => exact absurd (by simp) hm
          simp only [List.reverse_cons, List.reverse_append, List.reverse_nil, List.nil_append, List.cons_append, hrev,
            List.append_assoc]
          exact yields_pure _

/-- **A buffer with room for the digits and a NUL holds the numeral of the value afterwards.** -/
theorem itoa_yields {buf : Bytes} (h : 1 < radix) (hroom : (numeral radix val).length < buf.length) :
    Yields (Within buf.length) (itoa val buf radix)
      (numeral radix val ++ 0 :: buf.drop ((numeral radix val).length + 1)) := by
  have hpos : 0 < (lowDigits radix val).length := length_lowDigits_pos h
  have hlen := length_numeral radix val
  have hds : ((lowDigits radix val).map digit).length = (lowDigits radix val).length := List.length_map _
  rw [hlen] at hroom ⊢
  have hdigits := itoaDigits_yields h (buf.length + 1) val [] buf (by omega) (by omega)
  have hwrite : Yields (Within buf.length)
      (writeAt ((lowDigits radix val).map digit ++ buf.drop (lowDigits radix val).length) (lowDigits radix val).length [0])
      ((lowDigits radix val).map digit ++ [0] ++ (buf.drop (lowDigits radix val).length).drop 1) := by
    refine yields_writeAt_append hds.symm ?_ ?_
    · simp only [List.length_drop, List.length_singleton]
      omega
    · simp only [Within, List.length_singleton]
      omega
  have hreverse := @itoaReverse_yields buf.length (buf.length + 1) [] ((lowDigits radix val).map digit)
    (0 :: buf.drop ((lowDigits radix val).length + 1)) (by omega) (by omega) (by simp only [List.length_nil]; omega)
  rw [List.nil_append, List.nil_append, List.length_nil, Nat.zero_add, hds] at hreverse
  rw [List.drop_drop, List.append_assoc, List.singleton_append] at hwrite
  unfold itoa
  rw [List.nil_append, List.nil_append, List.length_nil, Nat.zero_add] at hdigits
  refine hdigits.bind ?_
  refine hwrite.bind ?_
  have hbuf : ((lowDigits radix val).map digit ++ 0 :: buf.drop ((lowDigits radix val).length + 1)).length =
      buf.length := by
    simp only [List.length_append, List.length_cons, List.length_drop, hds]
    omega
  rw [hbuf]
  exact hreverse

end

end COM

end Afn
