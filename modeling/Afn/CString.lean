import Afn.Access
import Mathlib.Data.List.TakeWhile

/-!
# C strings

A C string is what stands before the first NUL of a buffer. To read one from a buffer without a NUL is to read
behind the buffer.
-/

namespace Bytes

open Access

def cString (s : Bytes) : Bytes := s.takeWhile (· ≠ 0)

def readCString (buf : Bytes) : Except Fault Bytes := if 0 ∈ buf then .ok (cString buf) else .error .outOfBounds

def memcpy (buf bs : Bytes) : Except Fault Bytes :=
  if bs.length ≤ buf.length then .ok (bs ++ buf.drop bs.length) else .error .outOfBounds

section
variable {s t : Bytes}

theorem not_mem_cString (s : Bytes) : 0 ∉ cString s := by
  intro h
  have hne := List.mem_takeWhile_imp h
  simp at hne

theorem cString_eq (h : 0 ∉ s) : cString s = s := by
  unfold cString
  rw [List.takeWhile_eq_self_iff]
  intro c hc
  rw [decide_eq_true_iff]
  rintro rfl
  exact h hc

theorem cString_append (h : 0 ∉ s) : cString (s ++ t) = s ++ cString t := by
  unfold cString
  refine List.takeWhile_append_of_pos fun c hc => ?_
  rw [decide_eq_true_iff]
  rintro rfl
  exact h hc

theorem cString_append_nul (h : 0 ∉ s) : cString (s ++ 0 :: t) = s := by
  have hnil : cString (0 :: t) = [] := List.takeWhile_cons_of_neg (by decide)
  rw [cString_append h, hnil, List.append_nil]

theorem length_cString_lt (h : 0 ∈ s) : (cString s).length < s.length := by
  have hne : cString s ≠ s := fun he => not_mem_cString s (he.symm ▸ h)
  have hpre : cString s <+: s := List.takeWhile_prefix _
  exact Nat.lt_of_le_of_ne hpre.length_le fun hl => hne (hpre.eq_of_length hl)

theorem readCString_append_nul (h : 0 ∉ s) : readCString (s ++ 0 :: t) = .ok s := by
  unfold readCString
  rw [if_pos (List.mem_append_right _ (List.mem_cons_self ..)), cString_append_nul h]

end

end Bytes
