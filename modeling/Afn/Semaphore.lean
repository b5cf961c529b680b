import Mathlib.Algebra.BigOperators.Group.Finset.Basic
import Mathlib.Data.Fintype.Basic

/-!
# Semaphores and mutexes

A set of semaphores is the value of each. `semop` makes a list of operations on it, all of them or, where one would
have to wait, none. A mutex that may be locked again by its owner counts how often it was.
-/

namespace Semaphore

/-! ## Sets of semaphores -/

structure Sembuf where
  sem_num : Nat
  sem_op : Int
  deriving DecidableEq

def semop : List Sembuf → (Nat → Nat) → Option (Nat → Nat)
  | [], val => some val
  | op :: ops, val =>
    if op.sem_op = 0 then if val op.sem_num = 0 then semop ops val else none
    else if 0 ≤ val op.sem_num + op.sem_op then
      semop ops (Function.update val op.sem_num (val op.sem_num + op.sem_op).toNat)
    else none

section
variable {n : Nat} {ops : List Sembuf} {val val' : Nat → Nat}

theorem semop_nil : semop [] val = some val' ↔ val' = val := by
  rw [semop, Option.some.injEq]
  exact eq_comm

theorem semop_zero : semop (⟨n, 0⟩ :: ops) val = some val' ↔ val n = 0 ∧ semop ops val = some val' := by
  rw [semop, if_pos rfl]
  split
  · simp [*]
  · simp [*]

theorem semop_up : semop (⟨n, 1⟩ :: ops) val = some val' ↔
    semop ops (Function.update val n (val n + 1)) = some val' := by
  have hnonneg : (0 : Int) ≤ val n + 1 := by omega
  have htoNat : ((val n : Int) + 1).toNat = val n + 1 := by omega
  have hne : (⟨n, 1⟩ : Sembuf).sem_op ≠ 0 := Int.one_ne_zero
  rw [semop, if_neg hne, if_pos hnonneg, htoNat]

theorem semop_down : semop (⟨n, -1⟩ :: ops) val = some val' ↔
    0 < val n ∧ semop ops (Function.update val n (val n - 1)) = some val' := by
  have hne : (⟨n, -1⟩ : Sembuf).sem_op ≠ 0 := Int.negSucc_ne_zero 0
  rw [semop, if_neg hne]
  by_cases h : 0 < val n
  · have hnonneg : (0 : Int) ≤ val n + -1 := by omega
    have htoNat : ((val n : Int) + -1).toNat = val n - 1 := by omega
    rw [if_pos hnonneg, htoNat]
    exact (and_iff_right h).symm
  · have hneg : ¬(0 : Int) ≤ val n + -1 := by omega
    rw [if_neg hneg]
    simp [h]

end

/-! ## Shares

What each process has taken of a semaphore, or put into it, is its share. -/

section
variable {P : Type} [Fintype P] [DecidableEq P] {f g : P → Nat}

theorem sum_change {p : P} (h : ∀ q, q ≠ p → g q = f q) : ∑ q, g q + f p = ∑ q, f q + g p := by
  have hf := Finset.add_sum_erase Finset.univ f (Finset.mem_univ p)
  have hg := Finset.add_sum_erase Finset.univ g (Finset.mem_univ p)
  have hrest : ∑ q ∈ Finset.univ.erase p, g q = ∑ q ∈ Finset.univ.erase p, f q :=
    Finset.sum_congr rfl fun q hq => h q (Finset.ne_of_mem_erase hq)
  omega

theorem le_sum (f : P → Nat) (p : P) : f p ≤ ∑ q, f q := by
  have hf := Finset.add_sum_erase Finset.univ f (Finset.mem_univ p)
  omega

theorem add_le_sum {p q : P} (h : p ≠ q) : f p + f q ≤ ∑ r, f r := by
  have hp := Finset.add_sum_erase Finset.univ f (Finset.mem_univ p)
  have hq := Finset.add_sum_erase (Finset.univ.erase p) f (Finset.mem_erase.mpr ⟨h.symm, Finset.mem_univ q⟩)
  omega

end

/-! ## Recursive mutexes -/

/-- The owner and how often it has locked the mutex again. -/
structure Mutex (T : Type) where
  owner : Option (T × Nat)
  deriving DecidableEq

namespace Mutex
variable {T : Type} [DecidableEq T]

def free : Mutex T := ⟨none⟩

def lock (m : Mutex T) (t : T) : Option (Mutex T) :=
  match m.owner with
  | none => some ⟨some (t, 0)⟩
  | some (u, n) => if u = t then some ⟨some (t, n + 1)⟩ else none

def unlock (m : Mutex T) (t : T) : Mutex T :=
  match m.owner with
  | some (u, n + 1) => if u = t then ⟨some (t, n)⟩ else m
  | some (u, 0) => if u = t then ⟨none⟩ else m
  | none => m

def held (m : Mutex T) (t : T) : Nat :=
  match m.owner with
  | some (u, n) => if u = t then n + 1 else 0
  | none => 0

section
variable {m m' : Mutex T} {t u : T}

@[simp] theorem held_free (t : T) : (free : Mutex T).held t = 0 := rfl

theorem held_unique (ht : 0 < m.held t) (hu : 0 < m.held u) : t = u := by
  unfold held at ht hu
  cases h : m.owner with
  | none =>
    rw [h] at ht
    exact absurd ht (Nat.lt_irrefl 0)
  | some o =>
    rw [h] at ht hu
    by_cases hot : o.1 = t
    · by_cases hou : o.1 = u
      · exact hot.symm.trans hou
      · simp [hou] at hu
    · simp [hot] at ht

theorem held_lock (h : m.lock t = some m') : m'.held t = m.held t + 1 ∧ ∀ u, u ≠ t → m'.held u = m.held u := by
  unfold lock at h
  unfold held
  cases ho : m.owner with
  | none =>
    rw [ho] at h
    cases h
    exact ⟨if_pos rfl, fun u hu => if_neg (Ne.symm hu)⟩
  | some o =>
    obtain ⟨o, n⟩ := o
    rw [ho] at h
    by_cases hot : o = t
    · simp only [hot, if_true, Option.some.injEq] at h
      subst h hot
      exact ⟨by simp, fun u hu => by simp [Ne.symm hu]⟩
    · simp [hot] at h

theorem held_of_lock (h : m.lock t = some m') (hu : u ≠ t) : m.held u = 0 := by
  obtain ⟨ht, hothers⟩ := held_lock h
  rw [← hothers u hu]
  by_contra hpos
  exact hu (held_unique (Nat.pos_of_ne_zero hpos) (by omega))

theorem held_unlock (h : 0 < m.held t) :
    (m.unlock t).held t + 1 = m.held t ∧ ∀ u, u ≠ t → (m.unlock t).held u = m.held u := by
  unfold held at h ⊢
  unfold unlock
  cases ho : m.owner with
  | none =>
    rw [ho] at h
    exact absurd h (Nat.lt_irrefl 0)
  | some o =>
    obtain ⟨o, n⟩ := o
    rw [ho] at h
    by_cases hot : o = t
    · subst hot
      cases n with
      | zero => exact ⟨by simp, fun u hu => by simp [Ne.symm hu]⟩
      | succ n => exact ⟨by simp, fun u hu => by simp [Ne.symm hu]⟩
    · simp [hot] at h

end

end Mutex

end Semaphore
