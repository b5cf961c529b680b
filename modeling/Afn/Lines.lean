import Mathlib.Data.List.Basic

/-!
# Lines and words

A text is a number of lines that a separator ends, and what is left behind the last separator. Its words are
what lies between blanks. A text that arrives in parts has the lines of the parts one after another, what is
left of each part standing before the next.
-/

namespace Lines

variable {α : Type} [DecidableEq α]

def completed (sep : α) (s : List α) : List (List α) := (s.splitOn sep).dropLast

def kept (sep : α) (s : List α) : List α := (s.splitOn sep).getLast (List.splitOn_ne_nil sep s)

def words (blank : α → Bool) (s : List α) : List (List α) := (s.splitOnP blank).filter (· ≠ [])

section
variable {sep : α}

theorem cut (sep : α) (s : List α) : sep ∉ s ∨ ∃ a t, s = a ++ sep :: t ∧ sep ∉ t := by
  by_cases h : sep ∈ s
  · obtain ⟨b, a, hs, hb⟩ := List.eq_append_cons_of_mem (List.mem_reverse.mpr h)
    refine Or.inr ⟨a.reverse, b.reverse, ?_, fun ht => hb (List.mem_reverse.mp ht)⟩
    rw [← List.reverse_reverse s, hs]
    simp
  · exact Or.inl h

theorem splitOn_of_not_mem {s : List α} (h : sep ∉ s) : s.splitOn sep = [s] := by
  refine List.splitOnP_eq_singleton fun x hx => ?_
  simp only [beq_eq_false_iff_ne]
  rintro rfl
  exact h hx

theorem splitOn_append_cons (a t : List α) : (a ++ sep :: t).splitOn sep = a.splitOn sep ++ t.splitOn sep :=
  List.splitOnP_append_cons a t (beq_self_eq_true sep)

theorem completed_of_not_mem {s : List α} (h : sep ∉ s) : completed sep s = [] := by
  unfold completed
  rw [splitOn_of_not_mem h]
  rfl

theorem kept_of_not_mem {s : List α} (h : sep ∉ s) : kept sep s = s := by
  unfold kept
  simp only [splitOn_of_not_mem h, List.getLast_singleton]

theorem completed_append_cons (a t : List α) :
    completed sep (a ++ sep :: t) = a.splitOn sep ++ completed sep t := by
  unfold completed
  rw [splitOn_append_cons, List.dropLast_append_of_ne_nil (List.splitOn_ne_nil sep t)]

theorem kept_append_cons (a t : List α) : kept sep (a ++ sep :: t) = kept sep t := by
  unfold kept
  simp only [splitOn_append_cons]
  rw [List.getLast_append_of_ne_nil]

theorem not_mem_kept (s : List α) : sep ∉ kept sep s := by
  rcases cut sep s with h | ⟨a, t, rfl, ht⟩
  · rw [kept_of_not_mem h]
    exact h
  · rw [kept_append_cons, kept_of_not_mem ht]
    exact ht

/-- **What arrives is read behind what was kept.** -/
theorem completed_append (s r : List α) :
    completed sep (s ++ r) = completed sep s ++ completed sep (kept sep s ++ r) := by
  rcases cut sep s with h | ⟨a, t, rfl, ht⟩
  · rw [completed_of_not_mem h, kept_of_not_mem h, List.nil_append]
  · rw [List.append_assoc, List.cons_append, completed_append_cons, completed_append_cons, kept_append_cons,
      completed_of_not_mem ht, kept_of_not_mem ht, List.append_nil]

theorem kept_append (s r : List α) : kept sep (s ++ r) = kept sep (kept sep s ++ r) := by
  rcases cut sep s with h | ⟨a, t, rfl, ht⟩
  · rw [kept_of_not_mem h]
  · rw [List.append_assoc, List.cons_append, kept_append_cons, kept_append_cons, kept_of_not_mem ht]

theorem kept_nil_iff {s : List α} : kept sep s = [] ↔ s = [] ∨ s.getLast? = some sep := by
  rcases cut sep s with h | ⟨a, t, rfl, ht⟩
  · rw [kept_of_not_mem h]
    refine ⟨Or.inl, fun hs => ?_⟩
    rcases hs with hs | hs
    · exact hs
    · exact absurd (List.mem_of_getLast? hs) h
  · rw [kept_append_cons, kept_of_not_mem ht]
    constructor
    · rintro rfl
      exact Or.inr List.getLast?_concat
    · intro hs
      rcases hs with hs | hs
      · exact absurd hs (by simp)
      cases t with
      | nil => rfl
      | cons x t =>
        rw [List.getLast?_append_of_ne_nil _ (List.cons_ne_nil _ _), List.getLast?_cons_cons] at hs
        exact absurd (List.mem_of_getLast? hs) ht

end

/-! ## Words -/

section
variable {blank : α → Bool} {sep : α}

omit [DecidableEq α] in
theorem words_append_cons (hsep : blank sep = true) (a t : List α) :
    words blank (a ++ sep :: t) = words blank a ++ words blank t := by
  unfold words
  rw [List.splitOnP_append_cons a t hsep, List.filter_append]

theorem words_eq_flatMap (hsep : blank sep = true) (s : List α) :
    words blank s = (s.splitOn sep).flatMap (words blank) := by
  generalize hn : s.length = n
  induction n using Nat.strongRecOn generalizing s with
  | ind n ih =>
    by_cases h : sep ∈ s
    · obtain ⟨a, t, rfl, ha⟩ := List.eq_append_cons_of_mem h
      have ht : t.length < n := by simp only [List.length_append, List.length_cons] at hn; omega
      rw [words_append_cons hsep, splitOn_append_cons, splitOn_of_not_mem ha, List.singleton_append,
        List.flatMap_cons, ih _ ht t rfl]
    · rw [splitOn_of_not_mem h, List.flatMap_singleton]

end

end Lines
