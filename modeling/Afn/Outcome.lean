import Afn.Effect
import Mathlib.Order.Defs.Unbundled

/-!
# What a computation does to its state

A preorder between states holds across a computation when it holds across each of its parts; computations
that stop on a fault are not looked at there. What no part changes is the same at the end, also on a fault.
-/

namespace Effect

variable {ε σ α β : Type} {R : σ → σ → Prop}

/-- The states that `x` ends in from `s` are `R`-related to it. -/
def Moves (R : σ → σ → Prop) (s : σ) (x : EStateM ε σ α) : Prop := ∀ a s', Ends x s a s' → R s s'

section
variable {x : EStateM ε σ α} {f : α → EStateM ε σ β} {s : σ}

theorem moves_modify {g : σ → σ} (h : R s (g s)) : Moves R s (modify g : EStateM ε σ PUnit) := by
  intro a s' he
  cases he
  exact h

theorem moves_ite {p : Prop} [Decidable p] {y : EStateM ε σ α} (hx : p → Moves R s x) (hy : ¬ p → Moves R s y) :
    Moves R s (if p then x else y) := by
  by_cases h : p
  · rw [if_pos h]
    exact hx h
  · rw [if_neg h]
    exact hy h

theorem moves_get_bind {f : σ → EStateM ε σ β} (hf : Moves R s (f s)) : Moves R s (get >>= f) := by
  intro b s'' he
  obtain ⟨a, s', hget, hfe⟩ := he.of_bind
  cases hget
  exact hf b s'' hfe

variable [IsPreorder σ R]

theorem moves_pure (a : α) : Moves R s (pure a : EStateM ε σ α) := by
  intro b s' he
  cases he
  exact refl_of R s

theorem Moves.bind (hx : Moves R s x) (hf : ∀ a s', Ends x s a s' → Moves R s' (f a)) : Moves R s (x >>= f) := by
  intro b s'' he
  obtain ⟨a, s', hxe, hfe⟩ := he.of_bind
  exact trans_of R (hx a s' hxe) (hf a s' hxe b s'' hfe)

end

/-! ## What stays the same, also on a fault -/

def last (x : EStateM ε σ α) (s : σ) : σ :=
  match x s with
  | .ok _ s' => s'
  | .error _ s' => s'

/-- `x` leaves `g` of the state as it is, whether it ends or stops. -/
def Steady (g : σ → β) (x : EStateM ε σ α) : Prop := ∀ s, g (last x s) = g s

section
variable {γ : Type} {x : EStateM ε σ α} {f : α → EStateM ε σ β} {g : σ → γ} {s s' : σ} {a : α}

theorem last_of_ends (h : Ends x s a s') : last x s = s' := by
  unfold Ends at h
  simp only [last, h]

theorem last_congr {y : EStateM ε σ α} (h : x s = y s) : last x s = last y s := by
  unfold last
  rw [h]

theorem last_bind (h : Ends x s a s') : last (x >>= f) s = last (f a) s' := by
  unfold last
  rw [bind_eq h]

theorem last_bind_cases (x : EStateM ε σ α) (f : α → EStateM ε σ β) (s : σ) :
    (∃ a s', Ends x s a s' ∧ last (x >>= f) s = last (f a) s') ∨
    (∀ a s', ¬ Ends x s a s') ∧ last (x >>= f) s = last x s := by
  cases hx : x s with
  | ok a s' => exact .inl ⟨a, s', hx, last_bind hx⟩
  | error e s' =>
    refine .inr ⟨fun a t h => ?_, ?_⟩
    · unfold Ends at h
      rw [hx] at h
      cases h
    · simp only [last, bind, EStateM.bind, hx]

theorem last_bind_pure (x : EStateM ε σ α) (f : α → β) (s : σ) : last (x >>= fun a => pure (f a)) s = last x s := by
  rcases last_bind_cases x (fun a => pure (f a)) s with ⟨a, s', ha, hlast⟩ | ⟨-, hlast⟩
  · rw [hlast, last_of_ends ha]
    rfl
  · exact hlast

theorem steady_pure (a : α) : Steady g (pure a : EStateM ε σ α) := fun _ => rfl

theorem Steady.bind (hx : Steady g x) (hf : ∀ a, Steady g (f a)) : Steady g (x >>= f) := by
  intro s
  rcases last_bind_cases x f s with ⟨a, s', ha, hlast⟩ | ⟨-, hlast⟩
  · rw [hlast, hf a s', ← last_of_ends ha, hx s]
  · rw [hlast, hx s]

theorem steady_ite {p : Prop} [Decidable p] {y : EStateM ε σ α} (hx : Steady g x) (hy : Steady g y) :
    Steady g (if p then x else y) := by
  by_cases h : p
  · rw [if_pos h]
    exact hx
  · rw [if_neg h]
    exact hy

end

end Effect
