/-!
# Runs of a partial step function

A run takes a list of actions one after another; an action that is not enabled ends it.
-/

namespace Run

variable {σ α : Type}

/-- Every step that the run from `s` takes satisfies `P`. -/
def Each (step : σ → α → Option σ) (P : σ → α → σ → Prop) : σ → List α → Prop
  | _, [] => True
  | s, a :: as => ∀ s', step s a = some s' → P s a s' ∧ Each step P s' as

/-- `Q` holds in every state of the run. -/
def Throughout (step : σ → α → Option σ) (Q : σ → Prop) (s : σ) (as : List α) : Prop :=
  Q s ∧ Each step (fun _ _ s' => Q s') s as

section
variable {step : σ → α → Option σ} {I : σ → Prop} {P Q : σ → α → σ → Prop}

theorem each_cons {s s' : σ} {a : α} {as : List α} (h : step s a = some s') :
    Each step P s (a :: as) ↔ P s a s' ∧ Each step P s' as := by
  constructor
  · exact fun hE => hE s' h
  · intro hE s'' h'
    rw [h] at h'
    cases h'
    exact hE

theorem each_intro (h : ∀ {s a s'}, step s a = some s' → Q s a s') :
    ∀ {as : List α} {s : σ}, Each step Q s as := by
  intro as
  induction as with
  | nil => exact fun {_} => trivial
  | cons a as ih => exact fun {_} _ hs => ⟨h hs, ih⟩

/-- When `P` at a step gives `Q` there and keeps the invariant, a run of `P` steps is one of `Q`
steps. -/
theorem each_of (h : ∀ {s a s'}, I s → step s a = some s' → P s a s' → Q s a s' ∧ I s') :
    ∀ {as : List α} {s : σ}, I s → Each step P s as → Each step Q s as := by
  intro as
  induction as with
  | nil => exact fun _ _ => trivial
  | cons a as ih =>
    intro s hI hP s' hs
    obtain ⟨hp, hrest⟩ := hP s' hs
    obtain ⟨hq, hI'⟩ := h hI hs hp
    exact ⟨hq, ih hI' hrest⟩

/-- When moreover `Q` at a step gives `P` there, the two kinds of runs are the same. -/
theorem each_iff (h : ∀ {s a s'}, I s → step s a = some s' → P s a s' → Q s a s' ∧ I s')
    (hback : ∀ {s a s'}, I s → step s a = some s' → Q s a s' → P s a s') {as : List α} {s : σ} (hI : I s) :
    Each step Q s as ↔ Each step P s as := by
  constructor
  · refine each_of (I := I) (fun hI hs hq => ?_) hI
    have hp := hback hI hs hq
    exact ⟨hp, (h hI hs hp).2⟩
  · exact each_of h hI

/-- What an invariant of the steps implies holds in every state of a run. -/
theorem throughout_of {R : σ → Prop} (hR : ∀ {s}, I s → R s) (h : ∀ {s a s'}, I s → step s a = some s' → I s') :
    ∀ {as : List α} {s : σ}, I s → Throughout step R s as := by
  intro as s hI
  refine ⟨hR hI, ?_⟩
  refine each_of (I := I) (P := fun _ _ _ => True) (fun hI hs _ => ?_) hI (each_intro fun _ => trivial)
  have hI' := h hI hs
  exact ⟨hR hI', hI'⟩

theorem Throughout.last {R : σ → Prop} : ∀ {as : List α} {s s' : σ}, Throughout step R s as →
    as.foldlM step s = some s' → R s'
  | [], s, s', h, hs => by
    rw [List.foldlM_nil] at hs
    cases hs
    exact h.1
  | a :: as, s, s', h, hs => by
    rw [List.foldlM_cons] at hs
    obtain ⟨t, ht, hs⟩ := Option.bind_eq_some_iff.mp hs
    exact Throughout.last (h.2 t ht) hs

end

end Run
