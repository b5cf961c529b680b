/-!
# Cutting a stream into blocks

A cutter `next` looks at the bytes there are and either gives the length of the first block with what
it makes of it, or waits for more. When its answers do not change as bytes arrive, running it over a
stream in pieces, with the uncut rest carried from piece to piece, is running it over the whole.
-/

namespace Chunk

variable {α β : Type}

/-- A block is not empty and lies within the input, and an answer stands when more input arrives. -/
structure Stable (next : List α → Option (Nat × β)) : Prop where
  pos : ∀ {w : List α} {n : Nat} {b : β}, next w = some (n, b) → 0 < n ∧ n ≤ w.length
  append : ∀ {w : List α} {n : Nat} {b : β} (t : List α), next w = some (n, b) → next (w ++ t) = some (n, b)

-- the blocks cut off `w`, and what is left; `fuel` bounds their number
def drain (next : List α → Option (Nat × β)) : Nat → List α → List β × List α
  | 0, w => ([], w)
  | fuel + 1, w =>
    match next w with
    | none => ([], w)
    | some (n, b) => (b :: (drain next fuel (w.drop n)).1, (drain next fuel (w.drop n)).2)

def run (next : List α → Option (Nat × β)) (w : List α) : List β × List α := drain next w.length w

-- running the pieces one after another, the rest `c` carried along
def feed (next : List α → Option (Nat × β)) : List α → List (List α) → List β × List α
  | c, [] => ([], c)
  | c, p :: ps =>
    ((run next (c ++ p)).1 ++ (feed next (run next (c ++ p)).2 ps).1, (feed next (run next (c ++ p)).2 ps).2)

-- the input consists of whole blocks
inductive Splits (next : List α → Option (Nat × β)) : List α → Prop
  | nil : Splits next []
  | block {w : List α} {n : Nat} {b : β} : next w = some (n, b) → Splits next (w.drop n) → Splits next w

section
variable {next : List α → Option (Nat × β)}

theorem run_none {w : List α} (hn : next w = none) : run next w = ([], w) := by
  unfold run
  cases w.length with
  | zero => rfl
  | succ n => simp only [drain, hn]

variable (h : Stable next)
include h

theorem next_nil : next [] = none := by
  cases hn : next [] with
  | none => rfl
  | some r =>
    have hp := h.pos hn
    simp only [List.length_nil] at hp
    omega

theorem drain_fuel : ∀ (f g : Nat) (w : List α), w.length ≤ f → w.length ≤ g →
    drain next f w = drain next g w := by
  intro f
  induction f with
  | zero =>
    intro g w hf _
    rw [List.eq_nil_of_length_eq_zero (Nat.le_zero.mp hf)]
    cases g with
    | zero => rfl
    | succ g => simp only [drain, next_nil h]
  | succ f ih =>
    intro g w hf hg
    cases g with
    | zero =>
      rw [List.eq_nil_of_length_eq_zero (Nat.le_zero.mp hg)]
      simp only [drain, next_nil h]
    | succ g =>
      simp only [drain]
      cases hn : next w with
      | none => rfl
      | some r =>
        have hp := h.pos hn
        have hd : (w.drop r.1).length + 1 ≤ w.length := by rw [List.length_drop]; omega
        simp only [ih g (w.drop r.1) (by omega) (by omega)]

theorem run_some {w : List α} {n : Nat} {b : β} (hn : next w = some (n, b)) :
    run next w = (b :: (run next (w.drop n)).1, (run next (w.drop n)).2) := by
  have hp := h.pos hn
  have hd : (w.drop n).length + 1 ≤ w.length := by rw [List.length_drop]; omega
  have hrun : run next w = drain next (w.length - 1 + 1) w := drain_fuel h _ _ w (by omega) (by omega)
  have hrest : drain next (w.length - 1) (w.drop n) = run next (w.drop n) :=
    drain_fuel h _ _ _ (by omega) (by omega)
  rw [hrun, drain, hn]
  simp only [hrest]

theorem run_nil : run next [] = ([], []) := run_none (next_nil h)

theorem run_induction {P : List α → Prop} (wait : ∀ w, next w = none → P w)
    (block : ∀ w n b, next w = some (n, b) → P (w.drop n) → P w) : ∀ w, P w := by
  have hlen : ∀ (k : Nat) (w : List α), w.length ≤ k → P w := by
    intro k
    induction k with
    | zero =>
      intro w hw
      rw [List.eq_nil_of_length_eq_zero (Nat.le_zero.mp hw)]
      exact wait [] (next_nil h)
    | succ k ih =>
      intro w hw
      cases hn : next w with
      | none => exact wait w hn
      | some r =>
        have hp := h.pos hn
        exact block w r.1 r.2 hn (ih _ (by rw [List.length_drop]; omega))
  exact fun w => hlen w.length w (Nat.le_refl _)

theorem drop_append {w : List α} {n : Nat} {b : β} (t : List α) (hn : next w = some (n, b)) :
    (w ++ t).drop n = w.drop n ++ t := List.drop_append_of_le_length (h.pos hn).2

/-- **Running over an input in two pieces is running over the whole.** -/
theorem run_append (s t : List α) :
    run next (s ++ t) =
      ((run next s).1 ++ (run next ((run next s).2 ++ t)).1, (run next ((run next s).2 ++ t)).2) := by
  refine run_induction h (P := fun s => run next (s ++ t) =
    ((run next s).1 ++ (run next ((run next s).2 ++ t)).1, (run next ((run next s).2 ++ t)).2)) ?_ ?_ s
  · intro s hn
    rw [run_none hn, List.nil_append]
  · intro s n b hn ih
    rw [run_some h hn, run_some h (h.append t hn), drop_append h t hn, ih]
    rfl

theorem rest_none (w : List α) : next (run next w).2 = none := by
  refine run_induction h (P := fun w => next (run next w).2 = none) ?_ ?_ w
  · intro w hn
    rw [run_none hn]
    exact hn
  · intro w n b hn ih
    rw [run_some h hn]
    exact ih

theorem length_rest (w : List α) : (run next w).2.length ≤ w.length := by
  refine run_induction h (P := fun w => (run next w).2.length ≤ w.length) ?_ ?_ w
  · intro w hn
    exact Nat.le_of_eq (by rw [run_none hn])
  · intro w n b hn ih
    rw [run_some h hn]
    rw [List.length_drop] at ih
    exact Nat.le_trans ih (Nat.sub_le ..)

/-- **The pieces make no difference.** -/
theorem feed_eq_run (ps : List (List α)) : ∀ {c : List α}, next c = none →
    feed next c ps = run next (c ++ ps.flatten) := by
  induction ps with
  | nil =>
    intro c hc
    rw [List.flatten_nil, List.append_nil, run_none hc, feed]
  | cons p ps ih =>
    intro c hc
    rw [List.flatten_cons, ← List.append_assoc, run_append h, feed, ih (rest_none h (c ++ p))]

theorem splits_iff (w : List α) : Splits next w ↔ (run next w).2 = [] := by
  constructor
  · intro hs
    induction hs with
    | nil => rw [run_nil h]
    | block hn _ ih => rw [run_some h hn]; exact ih
  · refine run_induction h (P := fun w => (run next w).2 = [] → Splits next w) ?_ ?_ w
    · intro w hn hw
      have hnil : w = [] := by rw [run_none hn] at hw; exact hw
      rw [hnil]
      exact .nil
    · intro w n b hn ih hw
      rw [run_some h hn] at hw
      exact .block hn (ih hw)

end

end Chunk
