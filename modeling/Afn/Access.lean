import Afn.Bytes
import Mathlib.Algebra.Group.Int.Defs
import Mathlib.Algebra.Group.Nat.Defs

/-!
# Checked accesses

A computation over byte buffers logs every read, write and unsigned subtraction it makes, and stops
at the first access that lies outside its buffer or goes through a null pointer.
-/

namespace Access

open Bytes

inductive Fault
  | outOfBounds
  | null
  | doubleFree
  | outOfFuel
  deriving DecidableEq, Repr

inductive Event
  | read (off n : Nat)
  | write (off n : Nat)
  | sub (a b : Nat)
  deriving DecidableEq, Repr

structure Acc (α : Type) where
  log : List Event
  out : Except Fault α

instance : Monad Acc where
  pure a := ⟨[], .ok a⟩
  bind x f :=
    match x.out with
    | .ok a => ⟨x.log ++ (f a).log, (f a).out⟩
    | .error e => ⟨x.log, .error e⟩

/-! ## Primitive accesses -/

def readAt (buf : Bytes) (off n : Nat) : Acc Bytes :=
  ⟨[.read off n], if off + n ≤ buf.length then .ok (slice buf off n) else .error .outOfBounds⟩

def getByte (buf : Bytes) (i : Nat) : Acc UInt8 := do
  let b ← readAt buf i 1
  return byteAt b 0

def writeAt (buf : Bytes) (off : Nat) (bs : Bytes) : Acc Bytes :=
  ⟨[.write off bs.length],
    if off + bs.length ≤ buf.length then .ok (splice buf off bs) else .error .outOfBounds⟩

-- subtraction of 32-bit unsigned integers
def sub32 (a b : Nat) : Acc Nat := ⟨[.sub a b], .ok (if b ≤ a then a - b else a + 2 ^ 32 - b)⟩

def deref {α : Type} (p : Option α) : Acc α :=
  ⟨[], match p with | some a => .ok a | none => .error .null⟩

/-- Reads and writes below offset `hi` only, and no subtraction below zero. -/
def Within (hi : Nat) : Event → Prop
  | .read off n => off + n ≤ hi
  | .write off n => off + n ≤ hi
  | .sub a b => b ≤ a

def WritesBelow (hi : Nat) : Event → Prop
  | .read .. => True
  | .write off n => off + n ≤ hi
  | .sub .. => True

def NoWrap : Event → Prop
  | .read .. => True
  | .write .. => True
  | .sub a b => b ≤ a

theorem writesBelow_of_within {hi : Nat} (e : Event) (h : Within hi e) : WritesBelow hi e := by
  cases e with
  | read => trivial
  | write => exact h
  | sub => trivial

/-! ## Outcomes

`Yields P x a`: the computation `x` ends with the value `a`, and every access it logs satisfies `P`.
`Ensures P Q x`: it ends so with a value that satisfies `Q`. `Fails x e`: it stops with the fault `e`. -/

section
variable {α β : Type} {P : Event → Prop}

def Yields (P : Event → Prop) (x : Acc α) (a : α) : Prop := (∀ e ∈ x.log, P e) ∧ x.out = .ok a

def Ensures (P : Event → Prop) (Q : α → Prop) (x : Acc α) : Prop := ∃ a, Yields P x a ∧ Q a

def Fails (x : Acc α) (e : Fault) : Prop := x.out = .error e

theorem Yields.out {x : Acc α} {a : α} (h : Yields P x a) : x.out = .ok a := h.2

theorem Yields.inj {Q : Event → Prop} {x : Acc α} {a b : α} (ha : Yields P x a) (hb : Yields Q x b) :
    a = b := by
  have h := ha.2
  rw [hb.2] at h
  exact (Except.ok.inj h).symm

theorem Yields.not_fails {x : Acc α} {a : α} (h : Yields P x a) (e : Fault) : ¬ Fails x e := by
  intro he
  unfold Fails at he
  rw [h.2] at he
  cases he

theorem Yields.mono {Q : Event → Prop} {x : Acc α} {a : α} (h : Yields P x a) (hPQ : ∀ e, P e → Q e) :
    Yields Q x a :=
  ⟨fun e he => hPQ e (h.1 e he), h.2⟩

theorem yields_pure (a : α) : Yields P (pure a : Acc α) a :=
  ⟨fun _ he => absurd he List.not_mem_nil, rfl⟩

theorem Yields.bind {x : Acc α} {a : α} {f : α → Acc β} {b : β} (hx : Yields P x a)
    (hf : Yields P (f a) b) : Yields P (x >>= f) b := by
  obtain ⟨hl, ho⟩ := hx
  have hb : (x >>= f) = ⟨x.log ++ (f a).log, (f a).out⟩ := by
    simp only [Bind.bind, ho]
  rw [hb]
  refine ⟨fun e he => ?_, hf.2⟩
  rcases List.mem_append.mp he with he | he
  · exact hl e he
  · exact hf.1 e he

theorem ensures_pure {Q : α → Prop} {a : α} (h : Q a) : Ensures P Q (pure a : Acc α) := ⟨a, yields_pure a, h⟩

theorem Yields.bind_ensures {R : β → Prop} {x : Acc α} {a : α} {f : α → Acc β} (hx : Yields P x a)
    (hf : Ensures P R (f a)) : Ensures P R (x >>= f) := by
  obtain ⟨b, hf, hb⟩ := hf
  exact ⟨b, hx.bind hf, hb⟩

theorem Ensures.bind {Q : α → Prop} {R : β → Prop} {x : Acc α} {f : α → Acc β} (hx : Ensures P Q x)
    (hf : ∀ a, Q a → Ensures P R (f a)) : Ensures P R (x >>= f) := by
  obtain ⟨a, hx, ha⟩ := hx
  exact hx.bind_ensures (hf a ha)

theorem Yields.bind_congr {x : Acc α} {a : α} {f g : α → Acc β} (hx : Yields P x a) (h : f a = g a) :
    (x >>= f) = (x >>= g) := by
  simp only [Bind.bind, hx.2, h]

theorem out_bind {x : Acc α} {a : α} (hx : x.out = .ok a) (f : α → Acc β) : (x >>= f).out = (f a).out := by
  simp only [Bind.bind, hx]

theorem out_bind_error {x : Acc α} {e : Fault} (hx : x.out = .error e) (f : α → Acc β) :
    (x >>= f).out = .error e := by
  simp only [Bind.bind, hx]

theorem out_bind_ok {x : Acc α} {f : α → Acc β} {b : β} (h : (x >>= f).out = .ok b) :
    ∃ a, x.out = .ok a ∧ (f a).out = .ok b := by
  cases hx : x.out with
  | ok a => exact ⟨a, rfl, by rw [← out_bind hx]; exact h⟩
  | error e =>
    rw [out_bind_error hx] at h
    cases h

theorem mem_log_bind {x : Acc α} {f : α → Acc β} {e : Event} (h : e ∈ x.log) : e ∈ (x >>= f).log := by
  cases hx : x.out with
  | ok a =>
    simp only [Bind.bind, hx]
    exact List.mem_append_left _ h
  | error _ =>
    simp only [Bind.bind, hx]
    exact h

theorem mem_log_bind_ok {x : Acc α} {a : α} {f : α → Acc β} {e : Event} (hx : x.out = .ok a)
    (h : e ∈ (f a).log) : e ∈ (x >>= f).log := by
  simp only [Bind.bind, hx]
  exact List.mem_append_right _ h

theorem Yields.bind_fails {x : Acc α} {a : α} {f : α → Acc β} {e : Fault} (hx : Yields P x a)
    (hf : Fails (f a) e) : Fails (x >>= f) e := by
  unfold Fails at hf ⊢
  simp only [Bind.bind, hx.2, hf]

theorem Fails.bind {x : Acc α} {e : Fault} (hx : Fails x e) (f : α → Acc β) : Fails (x >>= f) e := by
  unfold Fails at hx ⊢
  simp only [Bind.bind, hx]

theorem yields_readAt {buf : Bytes} {off n : Nat} (h : off + n ≤ buf.length) (hP : P (.read off n)) :
    Yields P (readAt buf off n) (slice buf off n) :=
  ⟨fun e he => by rw [List.mem_singleton.mp he]; exact hP, by simp [readAt, h]⟩

theorem fails_readAt {buf : Bytes} {off n : Nat} (h : buf.length < off + n) :
    Fails (readAt buf off n) .outOfBounds := by
  simp [Fails, readAt, Nat.not_le.mpr h]

theorem yields_writeAt {buf bs : Bytes} {off : Nat} (h : off + bs.length ≤ buf.length)
    (hP : P (.write off bs.length)) : Yields P (writeAt buf off bs) (splice buf off bs) :=
  ⟨fun e he => by rw [List.mem_singleton.mp he]; exact hP, by simp [writeAt, h]⟩

theorem yields_writeAt_append {pre rest bs : Bytes} {off : Nat} (hoff : off = pre.length)
    (h : bs.length ≤ rest.length) (hP : P (.write off bs.length)) :
    Yields P (writeAt (pre ++ rest) off bs) (pre ++ bs ++ rest.drop bs.length) := by
  subst hoff
  rw [← splice_append]
  exact yields_writeAt (by simp only [List.length_append]; omega) hP

theorem fails_writeAt {buf bs : Bytes} {off : Nat} (h : buf.length < off + bs.length) :
    Fails (writeAt buf off bs) .outOfBounds := by
  simp [Fails, writeAt, Nat.not_le.mpr h]

theorem yields_getByte_append {a b : Bytes} {x : UInt8} {hi i : Nat} (hhi : a.length < hi) (hpos : i = a.length) :
    Yields (Within hi) (getByte (a ++ x :: b) i) x := by
  subst hpos
  have hslice : slice (a ++ x :: b) a.length 1 = [x] := by simp [slice]
  have hread : Yields (Within hi) (readAt (a ++ x :: b) a.length 1) (slice (a ++ x :: b) a.length 1) :=
    yields_readAt (by simp only [List.length_append, List.length_cons]; omega) hhi
  rw [hslice] at hread
  exact hread.bind (yields_pure x)

theorem yields_writeAt_cons {a b : Bytes} {x y : UInt8} {hi i : Nat} (hhi : a.length < hi) (hpos : i = a.length) :
    Yields (Within hi) (writeAt (a ++ x :: b) i [y]) (a ++ y :: b) := by
  have h : Yields (Within hi) (writeAt (a ++ x :: b) i [y]) (a ++ [y] ++ (x :: b).drop 1) :=
    yields_writeAt_append hpos (by simp) (by simp only [Within, List.length_singleton]; omega)
  simpa using h

theorem yields_sub32 {a b : Nat} (h : b ≤ a) (hP : P (.sub a b)) : Yields P (sub32 a b) (a - b) :=
  ⟨fun e he => by rw [List.mem_singleton.mp he]; exact hP, by simp [sub32, h]⟩

theorem yields_sub32_wrap {a b : Nat} (h : a < b) (hP : P (.sub a b)) :
    Yields P (sub32 a b) (a + 2 ^ 32 - b) :=
  ⟨fun e he => by rw [List.mem_singleton.mp he]; exact hP, by simp [sub32, Nat.not_le.mpr h]⟩

theorem yields_deref (a : α) : Yields P (deref (some a)) a :=
  ⟨fun _ he => absurd he List.not_mem_nil, rfl⟩

theorem fails_deref : Fails (deref (none : Option α)) .null := rfl

end

/-! ## Conversions between integer types -/

-- the `int` with the bits of the 32-bit unsigned `n`
def toInt32 (n : Nat) : Int := if n % 2 ^ 32 < 2 ^ 31 then n % 2 ^ 32 else n % 2 ^ 32 - 2 ^ 32

theorem toInt32_of_lt {n : Nat} (h : n < 2 ^ 31) : toInt32 n = n := by
  unfold toInt32; split <;> omega

theorem toInt32_le (n : Nat) : toInt32 n ≤ n := by
  unfold toInt32; split <;> omega

theorem toInt32_neg {n : Nat} (h : 2 ^ 31 ≤ n) (h' : n < 2 ^ 32) : toInt32 n < 0 := by
  unfold toInt32; split <;> omega

end Access
