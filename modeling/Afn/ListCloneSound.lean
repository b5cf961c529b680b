import Afn.ListClone
import Afn.YQListSound

/-!
# When a list is copied

The loop goes on by a copy. It stays where it is at a NULL, and the end of a list that is copied to itself moves
ahead of it.
-/

namespace Afn.YQList

open LinkedList

section
variable {L α : Type}

/-- The lists when the call begins, and what the allocations answer: addresses that are not in use. The elements of
the source are NULL or those of a `YQRes`. -/
structure Start (this dst : L) (answers : Nat → Answer) (m : Memory L α) (elements : L → List Nat) : Prop where
  lists : ∀ l, Represents (m.lists l) (elements l)
  live : ∀ x ∈ elements this, x ≠ 0 → ∃ v, m.objects x = some v
  res : ∀ i, (answers i).res ≠ 0 ∧ m.objects (answers i).res = none
  resOnce : ∀ i j, (answers i).res = (answers j).res → i = j
  node : ∀ i a, (answers i).node = some a → a ≠ 0 ∧ (m.lists dst).cells a = none
  nodeOnce : ∀ i j a, (answers i).node = some a → (answers j).node = some a → i = j

/-- Behind the elements of the destination there is a new copy of each element of the source that is not NULL. -/
def Copied (dst : L) (source before : List Nat) (m m' : Memory L α) : Prop :=
  ∃ copies, Represents (m'.lists dst) (before ++ copies) ∧ copies.Nodup ∧ (∀ c ∈ copies, m.objects c = none) ∧
    (∀ a v, m.objects a = some v → m'.objects a = some v) ∧
    List.Forall₂ (fun x c => m'.objects c = m.objects x) (source.filter (· ≠ 0)) copies

def Clones [DecidableEq L] (this dst : L) (answers : Nat → Answer) (m : Memory L α) (elements : L → List Nat) :
    Prop :=
  ∃ turns m', addResClone turns this (some dst) answers m = some (.ok (0, m')) ∧
    Copied dst (elements this) (elements dst) m m'

/-! ## The copies -/

-- a copy whose node could not be allocated is lost
def copies (answers : Nat → Answer) (k : Nat) : List Nat :=
  (List.range k).filterMap fun i => (answers i).node.map fun _ => (answers i).res

theorem copies_succ (answers : Nat → Answer) (k : Nat) : copies answers (k + 1) =
    copies answers k ++ ((answers k).node.map fun _ => (answers k).res).toList := by
  unfold copies
  rw [List.range_succ, List.filterMap_append]
  cases h : (answers k).node with
  | none => simp [h]
  | some a => simp [h]

theorem mem_copies {answers : Nat → Answer} {k x : Nat} (h : x ∈ copies answers k) : ∃ i < k, (answers i).res = x := by
  obtain ⟨i, hi, hx⟩ := List.mem_filterMap.mp h
  obtain ⟨a, -, hx⟩ := Option.map_eq_some_iff.mp hx
  exact ⟨i, List.mem_range.mp hi, hx⟩

theorem copies_eq {answers : Nat → Answer} {k : Nat} (h : ∀ i < k, (answers i).node ≠ none) :
    copies answers k = (List.range k).map fun i => (answers i).res := by
  unfold copies
  rw [← List.filterMap_eq_map]
  refine List.filterMap_congr fun i hi => ?_
  obtain ⟨a, ha⟩ := Option.ne_none_iff_exists'.mp (h i (List.mem_range.mp hi))
  rw [ha]
  rfl

theorem length_copies (answers : Nat → Answer) (k : Nat) :
    (copies answers k).length ≤ k ∧ ((copies answers k).length = k → ∀ i < k, (answers i).node ≠ none) := by
  induction k with
  | zero => exact ⟨Nat.le_refl 0, fun _ i hi => absurd hi (Nat.not_lt_zero i)⟩
  | succ k ih =>
    obtain ⟨hle, hall⟩ := ih
    rw [copies_succ, List.length_append]
    cases hk : (answers k).node with
    | none =>
      refine ⟨Nat.le_succ_of_le hle, fun hlen => ?_⟩
      change (copies answers k).length + 0 = k + 1 at hlen
      omega
    | some a =>
      refine ⟨Nat.succ_le_succ hle, fun hlen i hi => ?_⟩
      rcases Nat.lt_succ_iff_lt_or_eq.mp hi with hlt | rfl
      · exact hall (Nat.succ.inj hlen) i hlt
      · rw [hk]
        exact Option.some_ne_none a

end

/-! ## A turn -/

section
variable {li : YQList} {s : List Nat} {k x : Nat}

theorem isEof_eq (h : Represents li s) (k : Nat) : isEof li k = 0 ↔ k < s.length := by
  unfold isEof
  rw [h.nb_elt]
  split
  · simp; omega
  · simp; omega

theorem items_eq (h : Represents li s) (hx : s[k]? = some x) : li.items k = .ok x := by
  have hlt : k < s.length := (List.getElem?_eq_some_iff.mp hx).1
  rw [items_refines h, if_pos (by omega), Int.toNat_natCast, List.getD_eq_getElem?_getD, hx]
  rfl

end

section
variable {L α : Type} [DecidableEq L] {this dst : L} {answers : Nat → Answer} {m : Memory L α} {elements : L → List Nat}

structure Inv (this dst : L) (answers : Nat → Answer) (m : Memory L α) (elements : L → List Nat)
    (p : Memory L α × Nat) : Prop where
  others : ∀ l, l ≠ dst → p.1.lists l = m.lists l
  appended : Represents (p.1.lists dst) (elements dst ++ copies answers p.2)
  node : ∀ i a, p.2 ≤ i → (answers i).node = some a → (p.1.lists dst).cells a = none
  res : ∀ i, p.2 ≤ i → p.1.objects (answers i).res = none
  old : ∀ a v, m.objects a = some v → p.1.objects a = some v
  live : ∀ i < p.2, ∃ v, p.1.objects (answers i).res = some v
  copied : ∀ i < p.2, ∀ x, (elements this)[i]? = some x → p.1.objects (answers i).res = m.objects x

def source (this dst : L) (answers : Nat → Answer) (elements : L → List Nat) (pos : Nat) : List Nat :=
  if this = dst then elements dst ++ copies answers pos else elements this

omit [DecidableEq L] in
theorem inv_start (hs : Start this dst answers m elements) : Inv this dst answers m elements (m, 0) where
  others := fun _ _ => rfl
  appended := by
    rw [show copies answers (m, 0).2 = [] from rfl, List.append_nil]
    exact hs.lists dst
  node := fun i a _ ha => (hs.node i a ha).2
  res := fun i _ => (hs.res i).2
  old := fun _ _ h => h
  live := fun i hi => absurd hi (Nat.not_lt_zero i)
  copied := fun i hi => absurd hi (Nat.not_lt_zero i)

variable {p : Memory L α × Nat} {x : Nat}

theorem Inv.source (hs : Start this dst answers m elements) (h : Inv this dst answers m elements p) :
    Represents (p.1.lists this) (source this dst answers elements p.2) := by
  unfold YQList.source
  split <;> rename_i hself
  · rw [hself]
    exact h.appended
  · rw [h.others this hself]
    exact hs.lists this

theorem Inv.value (hs : Start this dst answers m elements) (h : Inv this dst answers m elements p)
    (hx : x ∈ YQList.source this dst answers elements p.2) (hx0 : x ≠ 0) : ∃ v, p.1.objects x = some v := by
  have hold : x ∈ elements this → ∃ v, p.1.objects x = some v := by
    intro hmem
    obtain ⟨v, hv⟩ := hs.live x hmem hx0
    exact ⟨v, h.old x v hv⟩
  unfold YQList.source at hx
  split at hx <;> rename_i hself
  · rcases List.mem_append.mp hx with hmem | hmem
    · exact hold (hself ▸ hmem)
    · obtain ⟨i, hi, rfl⟩ := mem_copies hmem
      exact h.live i hi
  · exact hold hx

theorem turn_stays (hs : Start this dst answers m elements) (h : Inv this dst answers m elements p)
    (hx : (source this dst answers elements p.2)[p.2]? = some 0) :
    addResCloneTurn this dst answers p = .ok (.inl p) := by
  have hrep := h.source hs
  have hlt : p.2 < (source this dst answers elements p.2).length := (List.getElem?_eq_some_iff.mp hx).1
  unfold addResCloneTurn
  simp only [(isEof_eq hrep p.2).mpr hlt, if_true, items_eq hrep hx]
  rfl

theorem turn_leaves (hs : Start this dst answers m elements) (h : Inv this dst answers m elements p)
    (hend : (source this dst answers elements p.2).length ≤ p.2) :
    addResCloneTurn this dst answers p = .ok (.inr p.1) := by
  have hrep := h.source hs
  have heof : ¬isEof (p.1.lists this) p.2 = 0 := fun heof => absurd ((isEof_eq hrep p.2).mp heof) (Nat.not_lt.mpr hend)
  unfold addResCloneTurn
  simp only [heof, if_false]
  rfl

theorem source_of_elements (hx : (elements this)[p.2]? = some x) :
    (source this dst answers elements p.2)[p.2]? = some x := by
  unfold source
  split <;> rename_i hself
  · subst hself
    rw [List.getElem?_append_left (List.getElem?_eq_some_iff.mp hx).1]
    exact hx
  · exact hx

omit [DecidableEq L] in
theorem Inv.add (hs : Start this dst answers m elements) (h : Inv this dst answers m elements p) :
    ∃ r li, (p.1.lists dst).add (answers p.2).res (answers p.2).node = .ok (r, li) ∧
      Represents li (elements dst ++ copies answers (p.2 + 1)) ∧
      ∀ b, (answers p.2).node ≠ some b → (p.1.lists dst).cells b = none → li.cells b = none := by
  obtain ⟨hnone, hsome⟩ := add_refines h.appended (answers p.2).res
  rw [copies_succ]
  cases hnode : (answers p.2).node with
  | none =>
    refine ⟨-1, p.1.lists dst, hnone, ?_, fun b _ hb => hb⟩
    rw [Option.map_none, Option.toList_none, List.append_nil]
    exact h.appended
  | some a =>
    have hfree := h.node p.2 a (Nat.le_refl _) hnode
    obtain ⟨li, hadd, hrep, hframe⟩ := hsome a (hs.node p.2 a hnode).1 hfree
    refine ⟨_, li, hadd, ?_, fun b hb => hframe b fun hba => hb (congrArg some hba.symm)⟩
    rw [Option.map_some, Option.toList_some, ← List.append_assoc]
    exact hrep

theorem Inv.copy (hs : Start this dst answers m elements) (h : Inv this dst answers m elements p)
    (hx : (YQList.source this dst answers elements p.2)[p.2]? = some x) (hx0 : x ≠ 0) {v : α}
    (hv : p.1.objects x = some v) {li : YQList} (hrep : Represents li (elements dst ++ copies answers (p.2 + 1)))
    (hframe : ∀ b, (answers p.2).node ≠ some b → (p.1.lists dst).cells b = none → li.cells b = none) :
    Inv this dst answers m elements
      (⟨Function.update p.1.lists dst li, Function.update p.1.objects (answers p.2).res (some v)⟩, p.2 + 1) := by
  obtain ⟨m₁, pos⟩ := p
  have hobj : ∀ a, a ≠ (answers pos).res → Function.update m₁.objects (answers pos).res (some v) a = m₁.objects a :=
    fun a ha => Function.update_of_ne ha ..
  have hself : Function.update m₁.objects (answers pos).res (some v) (answers pos).res = some v :=
    Function.update_self ..
  have hlist : Function.update m₁.lists dst li dst = li := Function.update_self ..
  refine ⟨fun l hl => ?_, ?_, fun i a hi ha => ?_, fun i hi => ?_, fun a w hw => ?_, fun i hi => ?_,
    fun i hi y hy => ?_⟩
  · exact (Function.update_of_ne hl ..).trans (h.others l hl)
  · show Represents (Function.update m₁.lists dst li dst) _
    rw [hlist]
    exact hrep
  · show (Function.update m₁.lists dst li dst).cells a = none
    rw [hlist]
    refine hframe a (fun hpos => ?_) (h.node i a (Nat.le_of_succ_le hi) ha)
    exact absurd (hs.nodeOnce pos i a hpos ha) (Nat.ne_of_lt hi)
  · refine (hobj _ fun hres => ?_).trans (h.res i (Nat.le_of_succ_le hi))
    exact absurd (hs.resOnce i pos hres) (Nat.ne_of_gt hi)
  · refine (hobj a ?_).trans (h.old a w hw)
    rintro rfl
    rw [(hs.res pos).2] at hw
    cases hw
  · by_cases hipos : i = pos
    · exact ⟨v, hipos ▸ hself⟩
    · obtain ⟨w, hw⟩ := h.live i (by omega)
      exact ⟨w, (hobj _ fun hres => hipos (hs.resOnce i pos hres)).trans hw⟩
  · by_cases hipos : i = pos
    · subst hipos
      have hyx : some y = some x := (source_of_elements (p := (m₁, i)) hy).symm.trans hx
      cases hyx
      obtain ⟨w, hw⟩ := hs.live x (List.mem_of_getElem? hy) hx0
      have hvw := hv.symm.trans (h.old x w hw)
      exact hself.trans (hvw.trans hw.symm)
    · exact (hobj _ fun hres => hipos (hs.resOnce i pos hres)).trans (h.copied i (by omega) y hy)

theorem turn_copies (hs : Start this dst answers m elements) (h : Inv this dst answers m elements p)
    (hx : (source this dst answers elements p.2)[p.2]? = some x) (hx0 : x ≠ 0) :
    ∃ m', addResCloneTurn this dst answers p = .ok (.inl (m', p.2 + 1)) ∧
      Inv this dst answers m elements (m', p.2 + 1) := by
  have hrep := h.source hs
  have hlt : p.2 < (source this dst answers elements p.2).length := (List.getElem?_eq_some_iff.mp hx).1
  obtain ⟨v, hv⟩ := h.value hs (List.mem_of_getElem? hx) hx0
  obtain ⟨r, li, hadd, hrep', hframe⟩ := h.add hs
  have hget : getRes p.1.objects x = .ok v := by
    unfold getRes
    rw [hv]
  refine ⟨_, ?_, h.copy hs hx hx0 hv hrep' hframe⟩
  unfold addResCloneTurn
  simp only [(isEof_eq hrep p.2).mpr hlt, if_true, items_eq hrep hx]
  rw [ok_bind, if_pos hx0, if_pos (hs.res p.2).1, hget, ok_bind, hadd]
  rfl

/-- What a turn does: it leaves the loop, stays at a NULL, or goes on by a copy. -/
theorem turn_cases (hs : Start this dst answers m elements) (h : Inv this dst answers m elements p) :
    (source this dst answers elements p.2).length ≤ p.2 ∧ addResCloneTurn this dst answers p = .ok (.inr p.1) ∨
    (source this dst answers elements p.2)[p.2]? = some 0 ∧ addResCloneTurn this dst answers p = .ok (.inl p) ∨
    ∃ x m', (source this dst answers elements p.2)[p.2]? = some x ∧ x ≠ 0 ∧
      addResCloneTurn this dst answers p = .ok (.inl (m', p.2 + 1)) ∧
      Inv this dst answers m elements (m', p.2 + 1) := by
  cases hx : (source this dst answers elements p.2)[p.2]? with
  | none =>
    have hend := List.getElem?_eq_none_iff.mp hx
    exact Or.inl ⟨hend, turn_leaves hs h hend⟩
  | some x =>
    by_cases hx0 : x = 0
    · subst hx0
      exact Or.inr (Or.inl ⟨rfl, turn_stays hs h hx⟩)
    · obtain ⟨m', hturn, h'⟩ := turn_copies hs h hx hx0
      exact Or.inr (Or.inr ⟨x, m', rfl, hx0, hturn, h'⟩)

/-! ## The loop -/

theorem source_eq (hplain : this = dst → elements this = []) {pos : Nat} (hle : pos ≤ (elements this).length) :
    source this dst answers elements pos = elements this := by
  unfold source
  split <;> rename_i hself
  · have hnil := hplain hself
    rw [hnil, List.length_nil, Nat.le_zero] at hle
    subst hle
    rw [← hself, hnil]
    rfl
  · rfl

theorem ends_of_plain (hs : Start this dst answers m elements) (hnull : 0 ∉ elements this)
    (hplain : this = dst → elements this = []) : ∃ m', Loop.Ends (addResCloneTurn this dst answers) (m, 0) m' := by
  suffices h : ∃ m', Loop.Ends (addResCloneTurn this dst answers) (m, 0) m' ∧ True from
    h.imp fun _ hm => hm.1
  refine Loop.ends_of_measure (I := fun p => Inv this dst answers m elements p ∧ p.2 ≤ (elements this).length)
    (fun p => (elements this).length - p.2) (fun p hp => ?_) ⟨inv_start hs, Nat.zero_le _⟩
  obtain ⟨h, hle⟩ := hp
  have hcases := turn_cases hs h
  rw [source_eq hplain hle] at hcases
  rcases hcases with ⟨-, hturn⟩ | ⟨hx, -⟩ | ⟨x, m', hx, -, hturn, h'⟩
  · exact Or.inr ⟨p.1, hturn, trivial⟩
  · exact absurd (List.mem_of_getElem? hx) hnull
  · have hlt := (List.getElem?_eq_some_iff.mp hx).1
    exact Or.inl ⟨(m', p.2 + 1), hturn, ⟨h', hlt⟩, Nat.sub_lt_sub_left hlt (Nat.lt_succ_self _)⟩

theorem inv_of_ends (hs : Start this dst answers m elements) (hplain : this = dst → elements this = [])
    {m' : Memory L α} (hE : Loop.Ends (addResCloneTurn this dst answers) (m, 0) m') :
    Inv this dst answers m elements (m', (elements this).length) := by
  have hinit : Inv this dst answers m elements (m, 0) ∧ 0 ≤ (elements this).length := ⟨inv_start hs, Nat.zero_le _⟩
  refine Loop.Ends.of_inv (I := fun p => Inv this dst answers m elements p ∧ p.2 ≤ (elements this).length)
    (Q := fun m' => Inv this dst answers m elements (m', (elements this).length)) ?_ ?_ hinit hE
  · intro p p' ⟨h, hle⟩ hp'
    have hcases := turn_cases hs h
    rw [source_eq hplain hle] at hcases
    rcases hcases with ⟨-, hturn⟩ | ⟨-, hturn⟩ | ⟨x, m', hx, -, hturn, h'⟩
    · cases hturn.symm.trans hp'
    · cases hturn.symm.trans hp'
      exact ⟨h, hle⟩
    · cases hturn.symm.trans hp'
      exact ⟨h', (List.getElem?_eq_some_iff.mp hx).1⟩
  · intro p m' ⟨h, hle⟩ hp'
    have hcases := turn_cases hs h
    rw [source_eq hplain hle] at hcases
    rcases hcases with ⟨hend, hturn⟩ | ⟨-, hturn⟩ | ⟨x, m', hx, -, hturn, h'⟩
    · cases hturn.symm.trans hp'
      rw [Nat.le_antisymm hend hle]
      exact h
    · cases hturn.symm.trans hp'
    · cases hturn.symm.trans hp'

theorem diverges_of_null (hs : Start this dst answers m elements) (hnull : 0 ∈ elements this) :
    Loop.Diverges (addResCloneTurn this dst answers) (m, 0) := by
  obtain ⟨k, hk⟩ := List.mem_iff_getElem?.mp hnull
  refine Loop.diverges_of_inv (I := fun p => Inv this dst answers m elements p ∧ p.2 ≤ k) (fun p hp => ?_)
    ⟨inv_start hs, Nat.zero_le k⟩
  obtain ⟨h, hle⟩ := hp
  have hlt : p.2 < (elements this).length := Nat.lt_of_le_of_lt hle (List.getElem?_eq_some_iff.mp hk).1
  have hx : (source this dst answers elements p.2)[p.2]? = some (elements this)[p.2] :=
    source_of_elements (List.getElem?_eq_getElem hlt)
  rcases turn_cases hs h with ⟨hend, -⟩ | ⟨-, hturn⟩ | ⟨x, m', hx', hx0, hturn, h'⟩
  · exact absurd (List.getElem?_eq_some_iff.mp hx).1 (Nat.not_lt.mpr hend)
  · exact ⟨p, hturn, h, hle⟩
  · refine ⟨(m', p.2 + 1), hturn, h', Nat.lt_of_le_of_ne hle fun hpk => ?_⟩
    subst hpk
    have hsource : (source this dst answers elements p.2)[p.2]? = some 0 := source_of_elements hk
    cases hsource.symm.trans hx'
    exact hx0 rfl

theorem diverges_of_self (hs : Start this dst answers m elements) (hself : this = dst) (hne : elements this ≠ [])
    (hmemory : ∀ i, (answers i).node ≠ none) : Loop.Diverges (addResCloneTurn this dst answers) (m, 0) := by
  refine Loop.diverges_of_inv (I := Inv this dst answers m elements) (fun p h => ?_) (inv_start hs)
  have hlt : p.2 < (source this dst answers elements p.2).length := by
    have hpos := List.length_pos_of_ne_nil hne
    rw [source, if_pos hself, List.length_append, copies_eq fun i _ => hmemory i, List.length_map, List.length_range,
      ← hself]
    omega
  rcases turn_cases hs h with ⟨hend, -⟩ | ⟨-, hturn⟩ | ⟨x, m', -, -, hturn, h'⟩
  · exact absurd hlt (Nat.not_lt.mpr hend)
  · exact ⟨p, hturn, h⟩
  · exact ⟨(m', p.2 + 1), hturn, h'⟩

theorem filter_of_null {s : List Nat} (h : 0 ∉ s) : s.filter (· ≠ 0) = s := by
  refine List.filter_eq_self.mpr fun x hx => decide_eq_true ?_
  rintro rfl
  exact h hx

theorem addResClone_ends {m' : Memory L α} : (∃ turns, addResClone turns this (some dst) answers m = some (.ok (0, m'))) ↔
    Loop.Ends (addResCloneTurn this dst answers) (m, 0) m' := by
  have hrun : ∀ turns, addResClone turns this (some dst) answers m = some (.ok (0, m')) ↔
      Loop.run (addResCloneTurn this dst answers) turns (m, 0) = some (.ok m') := by
    intro turns
    show (Loop.run (addResCloneTurn this dst answers) turns (m, 0)).map (fun r => r.map fun m => ((0 : Int), m)) = _ ↔ _
    cases Loop.run (addResCloneTurn this dst answers) turns (m, 0) with
    | none => simp
    | some r => cases r <;> simp [Except.map]
  exact exists_congr hrun

theorem Clones.ends (h : Clones this dst answers m elements) :
    ∃ m', Loop.Ends (addResCloneTurn this dst answers) (m, 0) m' ∧ Copied dst (elements this) (elements dst) m m' := by
  obtain ⟨turns, m', hrun, hcopied⟩ := h
  exact ⟨m', addResClone_ends.mp ⟨turns, hrun⟩, hcopied⟩

/-- **The elements of a list are copied to another one** exactly when none of them is NULL and each copy gets a node. A
list that is copied to itself, with memory for all its copies, is copied only when it is empty. -/
theorem clones_iff (hs : Start this dst answers m elements) (hmemory : this = dst → ∀ i, (answers i).node ≠ none) :
    Clones this dst answers m elements ↔
      0 ∉ elements this ∧ (this = dst → elements this = []) ∧
        ∀ i < (elements this).length, (answers i).node ≠ none := by
  constructor
  · intro h
    obtain ⟨m', hE, cs, hrep, -, -, -, hcopies⟩ := h.ends
    have hnull : 0 ∉ elements this := fun hmem => (diverges_of_null hs hmem).not_ends hE
    have hplain : this = dst → elements this = [] := by
      intro hself
      by_contra hne
      exact (diverges_of_self hs hself hne (hmemory hself)).not_ends hE
    refine ⟨hnull, hplain, ?_⟩
    have hinv := inv_of_ends hs hplain hE
    obtain rfl : cs = copies answers (elements this).length := List.append_cancel_left (hrep.unique hinv.appended)
    rw [filter_of_null hnull] at hcopies
    exact (length_copies answers _).2 hcopies.length_eq.symm
  · rintro ⟨hnull, hplain, hnode⟩
    obtain ⟨m', hE⟩ := ends_of_plain hs hnull hplain
    have hinv := inv_of_ends hs hplain hE
    obtain ⟨turns, hrun⟩ := addResClone_ends.mpr hE
    refine ⟨turns, m', hrun, copies answers (elements this).length, hinv.appended, ?_, fun c hc => ?_, hinv.old, ?_⟩
    · rw [copies_eq hnode]
      exact List.nodup_range.map fun i j hij => hs.resOnce i j hij
    · obtain ⟨i, -, rfl⟩ := mem_copies hc
      exact (hs.res i).2
    · rw [filter_of_null hnull, copies_eq hnode, List.forall₂_iff_get]
      refine ⟨by rw [List.length_map, List.length_range], fun i hi hi' => ?_⟩
      simp only [List.get_eq_getElem, List.getElem_map, List.getElem_range]
      exact hinv.copied i hi _ (List.getElem?_eq_getElem hi)

end

/-! ## A list of two elements -/

def consNode (li : YQList) (c el : Nat) : YQList :=
  ⟨Function.update li.cells c (some ⟨li.node, el⟩), c, li.nb_elt + 1⟩

theorem Represents.consNode {li : YQList} {s : List Nat} (h : Represents li s) {c : Nat} (hc : c ≠ 0)
    (hfree : li.cells c = none) (el : Nat) : Represents (li.consNode c el) (el :: s) := by
  obtain ⟨nodes, hchain, hs, hnb⟩ := h
  refine ⟨(c, el) :: nodes, hchain.cons hc hfree el, by rw [List.map_cons, hs], ?_⟩
  simp [YQList.consNode, hnb]

-- the list `true` has the elements 1 and `el`, the list `false` has 3; the `YQRes` at 1, 2 and 3 hold 5, 6 and 7
def twoMemory (el : Nat) : Memory Bool Nat :=
  ⟨fun l => if l then (empty.consNode 16 el).consNode 24 1 else empty.consNode 32 3,
    fun a => if 0 < a ∧ a < 4 then some (a + 4) else none⟩

def twoElements (el : Nat) (l : Bool) : List Nat := if l then [1, el] else [3]

def twoAnswers (i : Nat) : Answer := ⟨i + 4, some (i + 40)⟩

theorem start_two {el : Nat} (h : el < 4) : Start true false twoAnswers (twoMemory el) (twoElements el) where
  lists := by
    have hempty : Represents empty [] := ⟨[], chain_nil, rfl, rfl⟩
    intro l
    cases l with
    | true => exact (hempty.consNode (by decide) rfl el).consNode (by decide) rfl 1
    | false => exact hempty.consNode (by decide) rfl 3
  live := by
    intro x hx hx0
    have hx4 : x < 4 := by
      obtain rfl | rfl : x = 1 ∨ x = el := by simpa [twoElements] using hx
      · decide
      · exact h
    exact ⟨x + 4, if_pos ⟨Nat.pos_of_ne_zero hx0, hx4⟩⟩
  res := by
    intro i
    have hout : ¬ (0 < i + 4 ∧ i + 4 < 4) := fun h => Nat.not_lt_of_le (Nat.le_add_left 4 i) h.2
    have hfree : (if 0 < i + 4 ∧ i + 4 < 4 then some (i + 4 + 4) else none) = none := if_neg hout
    exact ⟨Nat.succ_ne_zero (i + 3), hfree⟩
  resOnce := fun i j h => Nat.add_right_cancel h
  node := by
    intro i a ha
    obtain rfl : i + 40 = a := Option.some.inj ha
    have hne : i + 40 ≠ 32 := by omega
    have hfree : Function.update empty.cells 32 (some ⟨0, 3⟩) (i + 40) = none := Function.update_of_ne hne ..
    exact ⟨Nat.succ_ne_zero _, hfree⟩
  nodeOnce := by
    intro i j a hi hj
    exact Nat.add_right_cancel (Option.some.inj (hi.trans hj.symm))

theorem clones_iff_two : Clones true false twoAnswers (twoMemory 2) (twoElements 2) :=
  (clones_iff (start_two (by decide)) fun h => (nomatch h)).mpr
    ⟨by decide, fun h => (nomatch h), fun _ _ h => (nomatch h)⟩

/-- The copy of a list with a NULL does not come to an end. -/
theorem not_clones :
    Start true false twoAnswers (twoMemory 0) (twoElements 0) ∧
    ¬ Clones true false twoAnswers (twoMemory 0) (twoElements 0) ∧
    Loop.Diverges (addResCloneTurn true false twoAnswers) (twoMemory 0, 0) := by
  have hs : Start true false twoAnswers (twoMemory 0) (twoElements 0) := start_two (by decide)
  have hnull : 0 ∈ twoElements 0 true := by decide
  have hD := diverges_of_null hs hnull
  refine ⟨hs, fun h => ?_, hD⟩
  obtain ⟨m', hE, -⟩ := h.ends
  exact hD.not_ends hE

end Afn.YQList
