import Mathlib.Data.List.Nodup
import Mathlib.Logic.Function.Basic

/-!
# Linked lists

A segment of a linked list is a sequence of nodes in memory, each holding the address of the next one. The address 0
is that of no node.
-/

namespace LinkedList

structure Node (α : Type) where
  next : Nat
  element : α

abbrev Cells (α : Type) := Nat → Option (Node α)

section
variable {α : Type} {cells : Cells α} {a b c p : Nat} {xs ys nodes : List (Nat × α)} {el : α}

/-- From the address `a` the nodes lead to the address `b`. A node is given by its address and its element. -/
def Seg (cells : Cells α) : Nat → List (Nat × α) → Nat → Prop
  | a, [], b => a = b
  | a, (p, el) :: nodes, b => a = p ∧ p ≠ 0 ∧ ∃ next, cells p = some ⟨next, el⟩ ∧ Seg cells next nodes b

theorem seg_append : ∀ {xs : List (Nat × α)} {a : Nat},
    Seg cells a (xs ++ ys) c ↔ ∃ b, Seg cells a xs b ∧ Seg cells b ys c
  | [], a => by simp [Seg]
  | (p, el) :: xs, a => by
    simp only [List.cons_append, Seg, seg_append]
    constructor
    · rintro ⟨ha, hp, next, hn, b, hxs, hys⟩
      exact ⟨b, ⟨ha, hp, next, hn, hxs⟩, hys⟩
    · rintro ⟨b, ⟨ha, hp, next, hn, hxs⟩, hys⟩
      exact ⟨ha, hp, next, hn, b, hxs, hys⟩

theorem seg_update {v : Option (Node α)} : ∀ {xs : List (Nat × α)} {a : Nat}, p ∉ xs.map (·.1) →
    (Seg (Function.update cells p v) a xs b ↔ Seg cells a xs b)
  | [], _, _ => Iff.rfl
  | (q, el) :: xs, a, hp => by
    rw [List.map_cons, List.mem_cons, not_or] at hp
    simp only [Seg, Function.update_of_ne (Ne.symm hp.1), seg_update hp.2]

theorem Seg.allocated : ∀ {xs : List (Nat × α)} {a : Nat}, Seg cells a xs b → ∀ q, cells q = none → q ∉ xs.map (·.1)
  | [], _, _, _, _ => List.not_mem_nil
  | (p, el) :: xs, _, ⟨_, _, _, hn, hxs⟩, q, hq => by
    rw [List.map_cons, List.mem_cons, not_or]
    refine ⟨?_, hxs.allocated q hq⟩
    rintro rfl
    rw [hq] at hn
    cases hn

theorem Seg.unique : ∀ {xs ys : List (Nat × α)} {a : Nat}, Seg cells a xs 0 → Seg cells a ys 0 → xs = ys
  | [], [], _, _, _ => rfl
  | [], (_, _) :: _, _, h, ⟨hap, hp, _⟩ => absurd (hap.symm.trans h) hp
  | (_, _) :: _, [], _, ⟨hap, hp, _⟩, h => absurd (hap.symm.trans h) hp
  | (p, el) :: xs, (q, el') :: ys, _, ⟨hap, _, next, hn, hxs⟩, ⟨haq, _, next', hn', hys⟩ => by
    obtain rfl : p = q := hap.symm.trans haq
    rw [hn] at hn'
    cases hn'
    rw [hxs.unique hys]

/-! ## Whole lists -/

/-- From the address `a` the nodes lead to 0, and no address comes twice. -/
def Chain (cells : Cells α) (a : Nat) (nodes : List (Nat × α)) : Prop :=
  Seg cells a nodes 0 ∧ (nodes.map (·.1)).Nodup

theorem chain_nil : Chain cells 0 [] := ⟨rfl, List.nodup_nil⟩

theorem Chain.cons (h : Chain cells a nodes) (hc : c ≠ 0) (hfree : cells c = none) (el : α) :
    Chain (Function.update cells c (some ⟨a, el⟩)) c ((c, el) :: nodes) := by
  have hmem := h.1.allocated c hfree
  exact ⟨⟨rfl, hc, a, Function.update_self .., (seg_update hmem).mpr h.1⟩, List.nodup_cons.mpr ⟨hmem, h.2⟩⟩

theorem Chain.at {x : Nat × α} (h : Chain cells a (xs ++ x :: ys)) :
    ∃ next, Seg cells a xs x.1 ∧ x.1 ≠ 0 ∧ cells x.1 = some ⟨next, x.2⟩ ∧ Seg cells next ys 0 ∧
      x.1 ∉ xs.map (·.1) ∧ x.1 ∉ ys.map (·.1) := by
  obtain ⟨b, hxs, rfl, hp, next, hn, hys⟩ := seg_append.mp h.1
  have hnodup := h.2
  rw [List.map_append, List.map_cons, List.nodup_append] at hnodup
  obtain ⟨-, hcons, hdisjoint⟩ := hnodup
  exact ⟨next, hxs, hp, hn, hys, fun hm => hdisjoint _ hm _ (List.mem_cons_self ..) rfl, (List.nodup_cons.mp hcons).1⟩

theorem perm_behind {β : Type} (xs : List β) (x y : β) (ys : List β) :
    (xs ++ x :: y :: ys).Perm (y :: (xs ++ x :: ys)) := by
  have hmiddle : ((xs ++ [x]) ++ y :: ys).Perm (y :: ((xs ++ [x]) ++ ys)) := List.perm_middle
  rw [List.append_assoc, List.append_assoc] at hmiddle
  exact hmiddle

theorem Chain.insert {x : Nat × α} (h : Chain cells a (xs ++ x :: ys)) {next : Nat}
    (hx : cells x.1 = some ⟨next, x.2⟩) (hc : c ≠ 0) (hfree : cells c = none) (el : α) :
    Chain (Function.update (Function.update cells x.1 (some ⟨c, x.2⟩)) c (some ⟨next, el⟩)) a
      (xs ++ x :: (c, el) :: ys) := by
  obtain ⟨next', hxs, hp, hn, hys, hnxs, hnys⟩ := h.at
  obtain rfl : next' = next := by
    rw [hn] at hx
    cases hx
    rfl
  have hmem := h.1.allocated c hfree
  rw [List.map_append, List.map_cons, List.mem_append, List.mem_cons, not_or, not_or] at hmem
  obtain ⟨hcxs, hcx, hcys⟩ := hmem
  refine ⟨seg_append.mpr ⟨x.1, ?_, rfl, hp, c, ?_, rfl, hc, next', Function.update_self .., ?_⟩, ?_⟩
  · exact (seg_update hcxs).mpr ((seg_update hnxs).mpr hxs)
  · rw [Function.update_of_ne (Ne.symm hcx), Function.update_self]
  · exact (seg_update hcys).mpr ((seg_update hnys).mpr hys)
  · refine ((perm_behind xs x (c, el) ys).map _).nodup_iff.mpr (List.nodup_cons.mpr ⟨?_, h.2⟩)
    rw [List.map_append, List.map_cons, List.mem_append, List.mem_cons, not_or, not_or]
    exact ⟨hcxs, hcx, hcys⟩

theorem Chain.tail {x : Nat × α} (h : Chain cells a (x :: ys)) :
    ∃ next, a = x.1 ∧ cells x.1 = some ⟨next, x.2⟩ ∧ Chain (Function.update cells x.1 none) next ys := by
  obtain ⟨rfl, hp, next, hn, hys⟩ := h.1
  obtain ⟨hmem, hnodup⟩ := List.nodup_cons.mp h.2
  exact ⟨next, rfl, hn, (seg_update hmem).mpr hys, hnodup⟩

theorem Chain.erase {x y : Nat × α} (h : Chain cells a (xs ++ x :: y :: ys)) :
    ∃ next, cells x.1 = some ⟨y.1, x.2⟩ ∧ cells y.1 = some ⟨next, y.2⟩ ∧ y.1 ≠ x.1 ∧
      Chain (Function.update (Function.update cells x.1 (some ⟨next, x.2⟩)) y.1 none) a (xs ++ x :: ys) := by
  obtain ⟨b, hxs, hp, hx, ⟨rfl, hq, next, hy, hys⟩, hnxs, hnys⟩ := h.at
  have hnodup := h.2
  rw [((perm_behind xs x y ys).map _).nodup_iff, List.map_cons, List.nodup_cons, List.map_append, List.map_cons, List.mem_append,
    List.mem_cons, not_or, not_or] at hnodup
  obtain ⟨⟨hyxs, hyx, hyys⟩, hnodup⟩ := hnodup
  rw [List.map_cons, List.mem_cons, not_or] at hnys
  refine ⟨next, hx, hy, hyx, seg_append.mpr ⟨x.1, ?_, rfl, hp, next, ?_, ?_⟩, ?_⟩
  · exact (seg_update hyxs).mpr ((seg_update hnxs).mpr hxs)
  · rw [Function.update_of_ne (Ne.symm hyx), Function.update_self]
  · exact (seg_update hyys).mpr ((seg_update hnys.2).mpr hys)
  · rw [List.map_append, List.map_cons]
    exact hnodup

end

end LinkedList
