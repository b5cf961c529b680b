/-!
# Computations with a state and faults

Rules for `EStateM`: a computation that ends does so in a value and a state, one that stops on a fault
keeps the state it has reached.
-/

namespace Effect

variable {ε σ α β : Type}

def Ends (x : EStateM ε σ α) (s : σ) (a : α) (s' : σ) : Prop := x s = .ok a s'

def Stops (x : EStateM ε σ α) (s : σ) (e : ε) : Prop := ∃ s', x s = .error e s'

section
variable {x : EStateM ε σ α} {f : α → EStateM ε σ β} {s s' s'' : σ} {a : α} {b : β} {e : ε}

theorem ends_pure (a : α) (s : σ) : Ends (pure a : EStateM ε σ α) s a s := rfl

theorem ends_get (s : σ) : Ends (get : EStateM ε σ σ) s s s := rfl

theorem ends_modify (g : σ → σ) (s : σ) : Ends (modify g : EStateM ε σ PUnit) s ⟨⟩ (g s) := rfl

theorem bind_eq (hx : Ends x s a s') (f : α → EStateM ε σ β) : (x >>= f) s = f a s' := by
  unfold Ends at hx
  simp only [bind, EStateM.bind, hx]

theorem Ends.bind (hx : Ends x s a s') (hf : Ends (f a) s' b s'') : Ends (x >>= f) s b s'' := by
  unfold Ends
  rw [bind_eq hx]
  exact hf

theorem Ends.bind_stops (hx : Ends x s a s') (hf : Stops (f a) s' e) : Stops (x >>= f) s e := by
  obtain ⟨t, hf⟩ := hf
  exact ⟨t, by rw [bind_eq hx]; exact hf⟩

theorem Stops.bind (hx : Stops x s e) (f : α → EStateM ε σ β) : Stops (x >>= f) s e := by
  obtain ⟨t, hx⟩ := hx
  refine ⟨t, ?_⟩
  simp only [Bind.bind, EStateM.bind, hx]

theorem Ends.of_bind (h : Ends (x >>= f) s b s'') : ∃ a s', Ends x s a s' ∧ Ends (f a) s' b s'' := by
  unfold Ends at h
  simp only [Bind.bind, EStateM.bind] at h
  cases hx : x s with
  | ok a s' =>
    rw [hx] at h
    exact ⟨a, s', hx, h⟩
  | error e s' =>
    rw [hx] at h
    cases h

theorem Ends.inj {a' : α} (h : Ends x s a s') (h' : Ends x s a' s'') : a = a' ∧ s' = s'' := by
  unfold Ends at h h'
  rw [h] at h'
  cases h'
  exact ⟨rfl, rfl⟩

theorem Ends.not_stops (h : Ends x s a s') : ¬ Stops x s e := by
  intro ⟨t, ht⟩
  unfold Ends at h
  rw [h] at ht
  cases ht

end

end Effect
