/-!
# Tables with a unique key

A row is refused when there is one with its key. So a table holds under a key the first row that came with it, and
what it holds is never changed.
-/

namespace Afn

namespace UniqueKey

section
variable {α κ : Type} [DecidableEq κ] (key : α → κ)

def taken (rows : List α) (a : α) : Bool := rows.any fun r => key r == key a

def insertRow (rows : List α) (a : α) : List α := if taken key rows a then rows else rows ++ [a]

def insertRows (rows as : List α) : List α := as.foldl (insertRow key) rows

def lookup (rows : List α) (k : κ) : Option α := rows.find? fun r => key r == k

variable {key}

theorem lookup_append (rows as : List α) (k : κ) :
    lookup key (rows ++ as) k = (lookup key rows k).or (lookup key as k) :=
  List.find?_append

theorem lookup_isSome_of_taken {rows : List α} {a : α} (h : taken key rows a = true) :
    (lookup key rows (key a)).isSome = true := by
  unfold lookup
  rw [List.find?_isSome]
  exact List.any_eq_true.mp h

theorem lookup_insertRow (rows : List α) (a : α) (k : κ) :
    lookup key (insertRow key rows a) k = lookup key (rows ++ [a]) k := by
  unfold insertRow
  split
  next htaken =>
    rw [lookup_append]
    by_cases hk : key a = k
    · subst hk
      obtain ⟨r, hr⟩ := Option.isSome_iff_exists.mp (lookup_isSome_of_taken htaken)
      rw [hr, Option.some_or]
    · have hnone : lookup key [a] k = none := by simp [lookup, hk]
      rw [hnone, Option.or_none]
  next => rfl

theorem lookup_insertRows (as : List α) : ∀ (rows : List α) (k : κ),
    lookup key (insertRows key rows as) k = lookup key (rows ++ as) k := by
  induction as with
  | nil => exact fun rows k => by rw [List.append_nil]; rfl
  | cons a as ih =>
    intro rows k
    have hrest : lookup key (insertRows key (insertRow key rows a) as) k =
        lookup key (insertRow key rows a ++ as) k := ih _ k
    rw [insertRows, List.foldl_cons, ← insertRows, hrest, lookup_append, lookup_insertRow, ← lookup_append,
      List.append_assoc, List.singleton_append]

theorem prefix_insertRow (rows : List α) (a : α) : rows <+: insertRow key rows a := by
  unfold insertRow
  split
  · exact List.prefix_rfl
  · exact List.prefix_append rows [a]

theorem prefix_insertRows (as : List α) : ∀ rows : List α, rows <+: insertRows key rows as := by
  induction as with
  | nil => exact fun rows => List.prefix_rfl
  | cons a as ih => exact fun rows => (prefix_insertRow rows a).trans (ih _)

end

end UniqueKey

end Afn
