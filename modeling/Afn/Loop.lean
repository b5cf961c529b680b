/-!
# Loops

A turn of a loop goes on with a new state, leaves the loop with a result, or fails. A loop runs for as many turns as
it is given; it does not end when no number of turns is enough.
-/

namespace Loop

variable {ε σ β : Type}

/-- `none` when the turns are used up. -/
def run (turn : σ → Except ε (σ ⊕ β)) : (turns : Nat) → σ → Option (Except ε β)
  | 0, _ => none
  | turns + 1, s =>
    match turn s with
    | .error e => some (.error e)
    | .ok (.inl s) => run turn turns s
    | .ok (.inr b) => some (.ok b)

def Ends (turn : σ → Except ε (σ ⊕ β)) (s : σ) (b : β) : Prop := ∃ turns, run turn turns s = some (.ok b)

def Diverges (turn : σ → Except ε (σ ⊕ β)) (s : σ) : Prop := ∀ turns, run turn turns s = none

section
variable {turn : σ → Except ε (σ ⊕ β)} {s s' : σ} {b : β} {I : σ → Prop} {Q : β → Prop}

theorem run_next (h : turn s = .ok (.inl s')) (turns : Nat) : run turn (turns + 1) s = run turn turns s' := by
  simp only [run, h]

theorem run_leave (h : turn s = .ok (.inr b)) (turns : Nat) : run turn (turns + 1) s = some (.ok b) := by
  simp only [run, h]

theorem Ends.next (h : turn s = .ok (.inl s')) (hE : Ends turn s' b) : Ends turn s b := by
  obtain ⟨turns, hrun⟩ := hE
  exact ⟨turns + 1, (run_next h turns).trans hrun⟩

theorem Diverges.not_ends (h : Diverges turn s) : ¬Ends turn s b := by
  rintro ⟨turns, hrun⟩
  rw [h turns] at hrun
  cases hrun

theorem Ends.of_inv (hkeep : ∀ s s', I s → turn s = .ok (.inl s') → I s')
    (hleave : ∀ s b, I s → turn s = .ok (.inr b) → Q b) (hI : I s) (h : Ends turn s b) : Q b := by
  obtain ⟨turns, hrun⟩ := h
  induction turns generalizing s with
  | zero => cases hrun
  | succ turns ih =>
    cases ht : turn s with
    | error e =>
      simp only [run, ht] at hrun
      cases hrun
    | ok r =>
      cases r with
      | inl s' =>
        rw [run_next ht] at hrun
        exact ih (hkeep s s' hI ht) hrun
      | inr b' =>
        rw [run_leave ht] at hrun
        cases hrun
        exact hleave s _ hI ht

/-- A loop ends when every turn that goes on makes the measure smaller. -/
theorem ends_of_measure (μ : σ → Nat)
    (h : ∀ s, I s → (∃ s', turn s = .ok (.inl s') ∧ I s' ∧ μ s' < μ s) ∨ ∃ b, turn s = .ok (.inr b) ∧ Q b) (hI : I s) :
    ∃ b, Ends turn s b ∧ Q b := by
  generalize hn : μ s = n
  induction n using Nat.strongRecOn generalizing s with
  | ind n ih =>
    rcases h s hI with ⟨s', ht, hI', hlt⟩ | ⟨b, ht, hQ⟩
    · obtain ⟨b, hE, hQ⟩ := ih (μ s') (hn ▸ hlt) hI' rfl
      exact ⟨b, hE.next ht, hQ⟩
    · exact ⟨b, ⟨1, run_leave ht 0⟩, hQ⟩

/-- A loop does not end when every turn goes on. -/
theorem diverges_of_inv (h : ∀ s, I s → ∃ s', turn s = .ok (.inl s') ∧ I s') (hI : I s) : Diverges turn s := by
  intro turns
  induction turns generalizing s with
  | zero => rfl
  | succ turns ih =>
    obtain ⟨s', ht, hI'⟩ := h s hI
    rw [run_next ht]
    exact ih hI'

end

end Loop
