import Afn.CString
import Afn.ComFun

/-!
# What the text of an integer denotes

The text is read back as `strtoul` does: a decimal digit is its number, a letter goes on from 10. A text of digits
without a leading zero denotes one value, and each value has one such text.
-/

namespace Afn

open Bytes Access

namespace COM

def digitValue (c : UInt8) : Option Nat :=
  if 48 ≤ c ∧ c ≤ 57 then some (c.toNat - 48)
  else if 97 ≤ c ∧ c ≤ 122 then some (c.toNat - 97 + 10)
  else none

def appendDigit (radix v : Nat) (c : UInt8) : Option Nat := do
  let d ← digitValue c
  if d < radix then some (radix * v + d) else none

def evaluate (radix : Nat) (s : Bytes) : Option Nat := s.foldlM (appendDigit radix) 0

structure Spells (radix val : Nat) (s : Bytes) : Prop where
  value : evaluate radix s = some val
  nonempty : s ≠ []
  leading : s.head? = some 48 → s = [48]

theorem digitValue_digit : ∀ d < 36, digitValue (digit d) = some d := by decide

theorem digit_eq_zero : ∀ d < 36, digit d = 48 → d = 0 := by decide

theorem digit_ne_nul : ∀ d < 36, digit d ≠ 0 := by decide

section
variable {radix val : Nat}

theorem appendDigit_digit (hradix : radix ≤ 36) (v : Nat) {d : Nat} (hd : d < radix) :
    appendDigit radix v (digit d) = some (radix * v + d) := by
  unfold appendDigit
  rw [digitValue_digit d (Nat.lt_of_lt_of_le hd hradix)]
  exact if_pos hd

theorem evaluate_concat (s : Bytes) (c : UInt8) :
    evaluate radix (s ++ [c]) = (evaluate radix s).bind fun v => appendDigit radix v c := by
  unfold evaluate
  rw [List.foldlM_append]
  cases s.foldlM (appendDigit radix) 0 with
  | none => rfl
  | some v =>
    show (appendDigit radix v c).bind some = appendDigit radix v c
    exact Option.bind_fun_some _

theorem evaluate_digits (hradix : radix ≤ 36) (ds : List Nat) (hds : ∀ d ∈ ds, d < radix) :
    evaluate radix (ds.map digit).reverse = some (Nat.ofDigits radix ds) := by
  induction ds with
  | nil => rfl
  | cons d ds ih =>
    have hrest := ih fun e he => hds e (List.mem_cons_of_mem d he)
    rw [List.map_cons, List.reverse_cons, evaluate_concat, hrest, Nat.ofDigits_cons]
    show appendDigit radix _ (digit d) = _
    rw [appendDigit_digit hradix _ (hds d (List.mem_cons_self ..)), Nat.add_comm]

theorem digit_digitValue {c : UInt8} {d : Nat} (h : digitValue c = some d) : digit d = c := by
  unfold digitValue at h
  unfold digit
  split_ifs at h with hdecimal hletter
  · cases h
    have hlo := UInt8.le_iff_toNat_le.mp hdecimal.1
    have hhi := UInt8.le_iff_toNat_le.mp hdecimal.2
    have hc : c.toNat - 48 + 48 = c.toNat := Nat.sub_add_cancel hlo
    have hle : ¬9 < c.toNat - 48 := by
      change c.toNat ≤ 57 at hhi
      omega
    rw [if_neg hle, hc, UInt8.ofNat_toNat]
  · cases h
    have hlo := UInt8.le_iff_toNat_le.mp hletter.1
    have hc : c.toNat - 97 + 10 - 10 + 97 = c.toNat := by
      rw [Nat.add_sub_cancel]
      exact Nat.sub_add_cancel hlo
    rw [if_pos (by omega), hc, UInt8.ofNat_toNat]

theorem digits_of_evaluate (s : Bytes) : ∀ {v : Nat}, evaluate radix s = some v →
    ∃ ds : List Nat, (∀ d ∈ ds, d < radix) ∧ s = (ds.map digit).reverse ∧ Nat.ofDigits radix ds = v := by
  induction s using List.reverseRecOn with
  | nil =>
    intro v h
    cases h
    exact ⟨[], List.forall_mem_nil _, rfl, rfl⟩
  | append_singleton s c ih =>
    intro v h
    rw [evaluate_concat] at h
    obtain ⟨u, hu, hc⟩ := Option.bind_eq_some_iff.mp h
    obtain ⟨ds, hds, rfl, rfl⟩ := ih hu
    obtain ⟨d, hd, hv⟩ := Option.bind_eq_some_iff.mp hc
    split at hv
    · rename_i hlt
      cases hv
      refine ⟨d :: ds, List.forall_mem_cons.mpr ⟨hlt, hds⟩, ?_, ?_⟩
      · rw [List.map_cons, List.reverse_cons, digit_digitValue hd]
      · rw [Nat.ofDigits_cons, Nat.add_comm]
    · cases hv

theorem spells_numeral (h : 1 < radix) (hradix : radix ≤ 36) (val : Nat) : Spells radix val (numeral radix val) := by
  refine ⟨?_, ?_, ?_⟩
  · unfold numeral
    rw [evaluate_digits hradix _ fun d hd => lowDigits_lt h hd, ofDigits_lowDigits]
  · refine List.ne_nil_of_length_pos ?_
    rw [length_numeral]
    exact length_lowDigits_pos h
  · by_cases hval : val = 0
    · subst hval
      exact fun _ => rfl
    · intro hhead
      have hne : Nat.digits radix val ≠ [] := Nat.digits_ne_nil_iff_ne_zero.mpr hval
      unfold numeral lowDigits at hhead
      rw [if_neg hval, List.head?_reverse, List.getLast?_map, List.getLast?_eq_some_getLast hne,
        Option.map_some, Option.some.injEq] at hhead
      have hlt := Nat.digits_lt_base h (List.getLast_mem hne)
      have hzero := digit_eq_zero _ (Nat.lt_of_lt_of_le hlt hradix) hhead
      exact absurd hzero (Nat.getLast_digit_ne_zero radix hval)

theorem spells_iff (h : 1 < radix) (hradix : radix ≤ 36) {s : Bytes} : Spells radix val s ↔ s = numeral radix val := by
  constructor
  · rintro ⟨hvalue, hnonempty, hleading⟩
    obtain ⟨ds, hds, rfl, hval⟩ := digits_of_evaluate s hvalue
    rw [ne_eq, List.reverse_eq_nil_iff, List.map_eq_nil_iff] at hnonempty
    unfold numeral
    by_cases hlast : ds.getLast hnonempty = 0
    · have hhead : (ds.map digit).reverse.head? = some 48 := by
        rw [List.head?_reverse, List.getLast?_map, List.getLast?_eq_some_getLast hnonempty, hlast]
        rfl
      have hone := hleading hhead
      have hlength := congrArg List.length hone
      rw [List.length_reverse, List.length_map] at hlength
      obtain ⟨d, rfl⟩ := List.length_eq_one_iff.mp hlength
      obtain rfl : d = 0 := hlast
      subst hval
      rfl
    · have hdigits := Nat.digits_ofDigits radix h ds hds fun _ => hlast
      have hne : val ≠ 0 := by
        rintro rfl
        rw [hval, Nat.digits_zero] at hdigits
        exact hnonempty hdigits.symm
      rw [hval] at hdigits
      rw [lowDigits, if_neg hne, hdigits]
  · rintro rfl
    exact spells_numeral h hradix val

/-- **The buffer holds the text of the value**, when it has room for it and a NUL. -/
theorem itoa_spells {buf : Bytes} (hradix : 2 ≤ radix ∧ radix ≤ 36) (hbuf : 1 < buf.length)
    (hroom : val < radix ^ (buf.length - 1)) : ∃ s, Spells radix val s ∧
      Yields (Within buf.length) (itoa val buf radix) (s ++ 0 :: buf.drop (s.length + 1)) ∧
      readCString (s ++ 0 :: buf.drop (s.length + 1)) = .ok s := by
  have h : 1 < radix := hradix.1
  have hlength : (numeral radix val).length < buf.length := by
    have hle : (lowDigits radix val).length ≤ buf.length - 1 := length_lowDigits_le h (by omega) hroom
    rw [length_numeral]
    omega
  have hnul : 0 ∉ numeral radix val := by
    intro hmem
    obtain ⟨d, hd, hzero⟩ := List.mem_map.mp (List.mem_reverse.mp hmem)
    exact digit_ne_nul d (Nat.lt_of_lt_of_le (lowDigits_lt h hd) hradix.2) hzero
  exact ⟨numeral radix val, spells_numeral h hradix.2 val, itoa_yields h hlength, readCString_append_nul hnul⟩

end

theorem itoa_spells_max : ∃ s, Spells 16 (2 ^ 64 - 1) s ∧
    Yields (Within (List.replicate 32 (0 : UInt8)).length) (itoa (2 ^ 64 - 1) (List.replicate 32 0) 16)
      (s ++ 0 :: (List.replicate 32 0).drop (s.length + 1)) ∧
    readCString (s ++ 0 :: (List.replicate 32 0).drop (s.length + 1)) = .ok s :=
  itoa_spells (by decide) (by decide) (by decide)

end COM

end Afn
