import Afn.CString

/-!
# Strings in memory

Functions of `string.h` as loops over a piece of memory. Each turn of a loop goes on by a byte, and a loop that leaves
the memory stops there, so the fuel always lasts.
-/

namespace Access

open Bytes

/-- The first byte from `p` on at which the loop stops, and where it stands. -/
def scan (stop : UInt8 → Bool) : (fuel : Nat) → (buf : Bytes) → (p : Nat) → Acc (Nat × UInt8)
  | 0, _, _ => ⟨[], .error .outOfFuel⟩
  | fuel + 1, buf, p => do
    let c ← getByte buf p
    if stop c then return (p, c)
    else scan stop fuel buf (p + 1)

def strlen (buf : Bytes) (p : Nat) : Acc Nat := do
  let (q, _) ← scan (fun x => x == 0) (buf.length + 1) buf p
  return q - p

def strchr (buf : Bytes) (p : Nat) (c : UInt8) : Acc (Option Nat) := do
  let (q, x) ← scan (fun x => x == c || x == 0) (buf.length + 1) buf p
  if x = c then return some q
  else return none

-- what `strncpy` writes: behind a NUL there are only zeros
def strncpyBytes : (n : Nat) → (buf : Bytes) → (p : Nat) → Acc Bytes
  | 0, _, _ => return []
  | n + 1, buf, p => do
    let c ← getByte buf p
    if c = 0 then return List.replicate (n + 1) 0
    else return c :: (← strncpyBytes n buf (p + 1))

def strncpy (dst buf : Bytes) (p n : Nat) : Acc Bytes := do
  let bs ← strncpyBytes n buf p
  ⟨[], memcpy dst bs⟩

/-- The loop `while(s[k] != 0) s[k++] = s[p++];`. -/
def moveDown : (fuel : Nat) → (buf : Bytes) → (k p : Nat) → Acc Bytes
  | 0, _, _, _ => ⟨[], .error .outOfFuel⟩
  | fuel + 1, buf, k, p => do
    let y ← getByte buf k
    if y = 0 then return buf
    else do
      let x ← getByte buf p
      let buf ← writeAt buf k [x]
      moveDown fuel buf (k + 1) (p + 1)

/-! ## What the loops read -/

section
variable {a rest pre : Bytes} {x c : UInt8} {hi : Nat}

theorem scan_yields (stop : UInt8 → Bool) (hx : stop x = true) : ∀ (a : Bytes) (fuel : Nat) (pre : Bytes),
    (∀ y ∈ a, stop y = false) → a.length < fuel → pre.length + a.length < hi →
      Yields (Within hi) (scan stop fuel (pre ++ (a ++ x :: rest)) pre.length) (pre.length + a.length, x) := by
  intro a
  induction a with
  | nil =>
    intro fuel pre _ hf hhi
    obtain ⟨fuel, rfl⟩ := Nat.exists_eq_succ_of_ne_zero (Nat.ne_of_gt hf)
    unfold scan
    refine (yields_getByte_append hhi rfl).bind ?_
    rw [if_pos hx]
    exact yields_pure _
  | cons y a ih =>
    intro fuel pre ha hf hhi
    rw [List.length_cons] at hf hhi
    obtain ⟨fuel, rfl⟩ := Nat.exists_eq_succ_of_ne_zero (Nat.ne_of_gt (Nat.zero_lt_of_lt hf))
    have hlength : (pre ++ [y]).length = pre.length + 1 := List.length_append
    have hrest := ih fuel (pre ++ [y]) (fun z hz => ha z (List.mem_cons_of_mem y hz)) (by omega) (by omega)
    rw [hlength, List.append_assoc, Nat.add_assoc, Nat.add_comm 1] at hrest
    unfold scan
    refine (yields_getByte_append (by omega) rfl).bind ?_
    rw [if_neg (by rw [ha y (List.mem_cons_self ..)]; exact Bool.false_ne_true)]
    exact hrest

theorem strlen_yields (ha : 0 ∉ a) (hhi : pre.length + a.length < hi) :
    Yields (Within hi) (strlen (pre ++ (a ++ 0 :: rest)) pre.length) a.length := by
  have hstop : ∀ y ∈ a, (y == 0) = false := fun y hy => beq_false_of_ne (ne_of_mem_of_not_mem hy ha)
  unfold strlen
  refine (scan_yields (fun x => x == 0) rfl a _ pre hstop ?_ hhi).bind ?_
  · simp only [List.length_append]
    omega
  · show Yields _ (pure (pre.length + a.length - pre.length)) _
    rw [Nat.add_sub_cancel_left]
    exact yields_pure _

theorem strchr_yields (hc : c ∉ a) (ha : 0 ∉ a) (hhi : pre.length + a.length < hi) :
    Yields (Within hi) (strchr (pre ++ (a ++ c :: rest)) pre.length c) (some (pre.length + a.length)) := by
  have hstop : ∀ y ∈ a, (y == c || y == 0) = false := by
    intro y hy
    rw [beq_false_of_ne (ne_of_mem_of_not_mem hy hc), beq_false_of_ne (ne_of_mem_of_not_mem hy ha)]
    rfl
  have hx : (c == c || c == 0) = true := by rw [beq_self_eq_true, Bool.true_or]
  unfold strchr
  refine (scan_yields (fun x => x == c || x == 0) hx a _ pre hstop ?_ hhi).bind ?_
  · simp only [List.length_append]
    omega
  · show Yields _ (if c = c then pure (some (pre.length + a.length)) else pure none) _
    rw [if_pos rfl]
    exact yields_pure _

theorem strncpyBytes_yields : ∀ (a pre : Bytes), 0 ∉ a → pre.length + a.length ≤ hi →
    Yields (Within hi) (strncpyBytes a.length (pre ++ (a ++ rest)) pre.length) a := by
  intro a
  induction a with
  | nil => exact fun _ _ _ => yields_pure _
  | cons y a ih =>
    intro pre ha hhi
    rw [List.length_cons] at hhi ⊢
    have hlength : (pre ++ [y]).length = pre.length + 1 := List.length_append
    have hrest := ih (pre ++ [y]) (fun h => ha (List.mem_cons_of_mem y h)) (by omega)
    rw [hlength, List.append_assoc] at hrest
    unfold strncpyBytes
    refine (yields_getByte_append (by omega) rfl).bind ?_
    rw [if_neg (List.ne_of_not_mem_cons ha).symm]
    exact hrest.bind (yields_pure _)

theorem strncpy_yields {dst : Bytes} (ha : 0 ∉ a) (hdst : a.length ≤ dst.length) (hhi : pre.length + a.length ≤ hi) :
    Yields (Within hi) (strncpy dst (pre ++ (a ++ rest)) pre.length a.length) (a ++ dst.drop a.length) := by
  unfold strncpy
  refine (strncpyBytes_yields a pre ha hhi).bind ⟨List.forall_mem_nil _, ?_⟩
  exact if_pos hdst

theorem moveDown_step {fuel : Nat} {y : UInt8} {out : Bytes} (hy : y ≠ 0) (hhi : pre.length + 1 < hi)
    (h : Yields (Within hi) (moveDown fuel (pre ++ [x] ++ x :: rest) (pre.length + 1) (pre.length + 1 + 1)) out) :
    Yields (Within hi) (moveDown (fuel + 1) (pre ++ y :: x :: rest) pre.length (pre.length + 1)) out := by
  have hlength : (pre ++ [y]).length = pre.length + 1 := List.length_append
  have hread : Yields (Within hi) (getByte (pre ++ y :: x :: rest) (pre.length + 1)) x := by
    rw [List.append_cons]
    exact yields_getByte_append (by omega) hlength.symm
  rw [← List.append_cons] at h
  unfold moveDown
  refine (yields_getByte_append (by omega) rfl).bind ?_
  rw [if_neg hy]
  refine hread.bind ?_
  exact (yields_writeAt_cons (by omega) rfl).bind h

theorem moveDown_yields : ∀ (z : Bytes) (fuel : Nat) (pre : Bytes) (y : UInt8), y ≠ 0 → 0 ∉ z →
    z.length + 1 < fuel → pre.length + z.length + 1 < hi →
      Yields (Within hi) (moveDown fuel (pre ++ y :: (z ++ 0 :: rest)) pre.length (pre.length + 1))
        (pre ++ (z ++ 0 :: 0 :: rest)) := by
  intro z
  induction z with
  | nil =>
    intro fuel pre y hy _ hf hhi
    obtain ⟨fuel, rfl⟩ : ∃ n, fuel = n + 1 + 1 := ⟨fuel - 2, by simp only [List.length_nil] at hf; omega⟩
    have hlength : (pre ++ [0]).length = pre.length + 1 := List.length_append
    refine moveDown_step hy (by simpa using hhi) ?_
    unfold moveDown
    refine (yields_getByte_append (by simpa using hhi) hlength.symm).bind ?_
    rw [if_pos rfl, ← List.append_cons]
    exact yields_pure _
  | cons x z ih =>
    intro fuel pre y hy hz hf hhi
    rw [List.length_cons] at hf hhi
    obtain ⟨fuel, rfl⟩ := Nat.exists_eq_succ_of_ne_zero (Nat.ne_of_gt (Nat.zero_lt_of_lt hf))
    have hlength : (pre ++ [x]).length = pre.length + 1 := List.length_append
    have hrest := ih fuel (pre ++ [x]) x (List.ne_of_not_mem_cons hz).symm (fun h => hz (List.mem_cons_of_mem x h))
      (by omega) (by omega)
    rw [hlength] at hrest
    have hout : pre ++ (x :: z ++ 0 :: 0 :: rest) = pre ++ [x] ++ (z ++ 0 :: 0 :: rest) := List.append_cons ..
    rw [hout]
    exact moveDown_step hy (by omega) hrest

end

end Access
