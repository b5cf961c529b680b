import Afn.YQList

/-!
# The list is a sequence

A list represents the elements of the chain that begins at its node. Every call does to the sequence what it is for,
and a call whose `malloc` fails leaves it as it was.
-/

namespace Afn.YQList

open Access LinkedList

/-- The chain of the list has the elements `s`, and as many as the list says. -/
def Represents (li : YQList) (s : List Nat) : Prop :=
  ∃ nodes, Chain li.cells li.node nodes ∧ nodes.map (·.2) = s ∧ li.nb_elt = s.length

def position (s : List Nat) (Index : Int) : Nat := if Index = -1 ∨ s.length ≤ Index then s.length else Index.toNat

def Call.spec (s : List Nat) : Call → Result × List Nat
  | .insert Index el (some _) => (.int (s.length + 1), s.insertIdx (position s Index) el)
  | .add Item (some _) => (.int (s.length + 1), s ++ [Item])
  | .insert _ _ none | .add _ none => (.int (-1), s)
  | .removeElement pos =>
    if 0 ≤ pos ∧ pos < s.length then (.int (s.length - 1), s.eraseIdx pos.toNat) else (.int (-1), s)
  | .items pos => (.ptr (if 0 ≤ pos ∧ pos < s.length then s.getD pos.toNat 0 else 0), s)
  | .count => (.int s.length, s)

def specAll (s : List Nat) : List Call → List Result × List Nat
  | [] => ([], s)
  | c :: calls =>
    let (r, s) := c.spec s
    let (rs, s) := specAll s calls
    (r :: rs, s)

-- `malloc` answers with an address that is not in use
def Answers (li : YQList) (answer : Option Nat) : Prop := ∀ a, answer = some a → a ≠ 0 ∧ li.cells a = none

def Answered (li : YQList) : List Call → Prop
  | [] => True
  | c :: calls => Answers li c.answer ∧ ∀ r li', c.run li = .ok (r, li') → Answered li' calls

/-! ## Memory -/

section
variable {cells : Cells Nat} {a b c el next : Nat} {n : Node Nat}

theorem ok_bind {α β : Type} (x : α) (k : α → Except Fault β) : (Except.ok x >>= k) = k x := rfl

theorem getNode_eq (h : cells a = some n) : getNode cells a = .ok n := by
  unfold getNode
  rw [h]

theorem setNext_eq (h : cells a = some n) (next : Nat) :
    setNext cells a next = .ok (Function.update cells a (some ⟨next, n.element⟩)) := by
  unfold setNext
  rw [getNode_eq h]
  rfl

theorem setElement_eq (h : cells a = some n) (el : Nat) :
    setElement cells a el = .ok (Function.update cells a (some ⟨n.next, el⟩)) := by
  unfold setElement
  rw [getNode_eq h]
  rfl

theorem free_eq (h : cells a = some n) : free cells a = .ok (Function.update cells a none) := by
  unfold free
  rw [h]

theorem fill (h : cells c = some n) (el next : Nat) {α : Type} (k : Cells Nat → Except Fault α) :
    (do
      let cells ← setElement cells c el
      let cells ← setNext cells c next
      k cells) = k (Function.update cells c (some ⟨next, el⟩)) := by
  rw [setElement_eq h, ok_bind, setNext_eq (Function.update_self ..), Function.update_idem, ok_bind]

theorem nextLoop_seg : ∀ {xs : List (Nat × Nat)} {a : Nat} (fuel : Nat) (i : Int), Seg cells a xs b →
    xs.length < fuel → nextLoop cells (i + xs.length) fuel i a = .ok b
  | _, _, 0, _, _, h => absurd h (Nat.not_lt_zero _)
  | [], a, fuel + 1, i, hseg, _ => by
    rw [nextLoop, if_neg (by simp)]
    exact congrArg _ hseg
  | (p, el) :: xs, a, fuel + 1, i, ⟨hap, _, next, hn, hseg⟩, h => by
    have hlt : i < i + ((p, el) :: xs).length := by
      rw [List.length_cons]
      omega
    have hbound : i + (((p, el) :: xs).length : Int) = i + 1 + xs.length := by
      rw [List.length_cons]
      omega
    rw [nextLoop, if_pos hlt, hap, getNode_eq hn, hbound]
    exact nextLoop_seg fuel (i + 1) hseg (Nat.lt_of_succ_lt_succ h)

theorem nextBy_seg {xs : List (Nat × Nat)} {bound : Int} (hseg : Seg cells a xs b) (hbound : bound = xs.length) :
    nextBy cells bound a = .ok b := by
  have hloop := nextLoop_seg (xs.length + 1) 0 hseg (Nat.lt_succ_self _)
  rw [Int.zero_add] at hloop
  rw [hbound]
  exact hloop

end

/-! ## Insertion -/

section
variable {li : YQList} {s : List Nat} {Index : Int} {el c : Nat}

theorem insert_empty (h0 : li.nb_elt = 0) (hc : c ≠ 0) :
    li.insert Index el (some c) = .ok (1, ⟨Function.update li.cells c (some ⟨0, el⟩), c, 1⟩) := by
  unfold insert
  rw [if_pos h0]
  simp only [malloc, hc, if_false]
  rw [fill (Function.update_self ..), Function.update_idem, h0]
  rfl

theorem insert_front (h0 : li.nb_elt ≠ 0) (hi : (if Index = -1 ∨ li.nb_elt ≤ Index then li.nb_elt else Index) = 0)
    (hc : c ≠ 0) : li.insert Index el (some c) =
      .ok (li.nb_elt + 1, ⟨Function.update li.cells c (some ⟨li.node, el⟩), c, li.nb_elt + 1⟩) := by
  unfold insert
  rw [if_neg h0]
  simp only [hi, if_true, malloc, hc, if_false]
  rw [fill (Function.update_self ..), Function.update_idem]
  rfl

theorem insert_behind {i : Int} {x next : Nat} {e : Nat} (h0 : li.nb_elt ≠ 0)
    (hi : (if Index = -1 ∨ li.nb_elt ≤ Index then li.nb_elt else Index) = i) (hi0 : i ≠ 0)
    (hx : nextBy li.cells (i - 1) li.node = .ok x) (hn : li.cells x = some ⟨next, e⟩)
    (hlast : i = li.nb_elt → next = 0) (hc : c ≠ 0) (hfree : li.cells c = none) : li.insert Index el (some c) =
      .ok (li.nb_elt + 1, ⟨Function.update (Function.update li.cells x (some ⟨c, e⟩)) c (some ⟨next, el⟩),
        li.node, li.nb_elt + 1⟩) := by
  have hne : x ≠ c := by
    rintro rfl
    rw [hfree] at hn
    cases hn
  have hn' : (Function.update li.cells c (some ⟨0, 0⟩)) x = some ⟨next, e⟩ := by
    rw [Function.update_of_ne hne]
    exact hn
  have hcells : Function.update (Function.update (Function.update li.cells c (some ⟨0, 0⟩)) x (some ⟨c, e⟩)) c
      (some ⟨next, el⟩) = Function.update (Function.update li.cells x (some ⟨c, e⟩)) c (some ⟨next, el⟩) := by
    rw [Function.update_comm hne, Function.update_idem, Function.update_comm hne.symm]
  have hnew : Function.update (Function.update li.cells c (some ⟨0, 0⟩)) x (some ⟨c, e⟩) c = some ⟨0, 0⟩ := by
    rw [Function.update_of_ne hne.symm, Function.update_self]
  unfold insert
  rw [if_neg h0]
  simp only [hi, hi0, if_false, hx]
  by_cases hend : i = li.nb_elt
  · obtain rfl := hlast hend
    simp only [hend, if_true, malloc, hc, if_false]
    rw [ok_bind, setNext_eq hn', ok_bind, fill hnew, hcells]
    rfl
  · simp only [hend, if_false]
    rw [ok_bind, getNode_eq hn, ok_bind]
    simp only [malloc, hc, if_false]
    rw [setNext_eq hn', ok_bind, fill hnew, hcells]
    rfl

theorem insert_empty_none (h0 : li.nb_elt = 0) (hnode : li.node = 0) : li.insert Index el none = .ok (-1, li) := by
  unfold insert
  rw [if_pos h0]
  simp only [malloc, if_true]
  rw [← hnode]

theorem insert_front_none (h0 : li.nb_elt ≠ 0)
    (hi : (if Index = -1 ∨ li.nb_elt ≤ Index then li.nb_elt else Index) = 0) :
    li.insert Index el none = .ok (-1, li) := by
  unfold insert
  rw [if_neg h0]
  simp only [hi, if_true, malloc]

theorem insert_behind_none {i : Int} {x next : Nat} {e : Nat} (h0 : li.nb_elt ≠ 0)
    (hi : (if Index = -1 ∨ li.nb_elt ≤ Index then li.nb_elt else Index) = i) (hi0 : i ≠ 0)
    (hx : nextBy li.cells (i - 1) li.node = .ok x) (hn : li.cells x = some ⟨next, e⟩)
    (hlast : i = li.nb_elt → next = 0) : li.insert Index el none = .ok (-1, li) := by
  have hback : Function.update li.cells x (some ⟨next, e⟩) = li.cells := by
    rw [← hn, Function.update_eq_self]
  unfold insert
  rw [if_neg h0]
  simp only [hi, hi0, if_false, hx]
  by_cases hend : i = li.nb_elt
  · obtain rfl := hlast hend
    simp only [hend, if_true, malloc]
    rw [ok_bind, setNext_eq hn, ok_bind, hback]
    rfl
  · simp only [hend, if_false]
    rw [ok_bind, getNode_eq hn, ok_bind]
    simp only [malloc, if_true]
    rw [setNext_eq hn, ok_bind, setNext_eq (Function.update_self ..), ok_bind, Function.update_idem, hback]
    rfl

end

/-! ## Sequences -/

section
variable {li li' : YQList} {s : List Nat} {Index pos : Int} {el : Nat}

theorem insertIdx_append {α : Type} (x : α) (ys : List α) : ∀ xs : List α,
    (xs ++ ys).insertIdx xs.length x = xs ++ x :: ys
  | [] => List.insertIdx_zero
  | y :: xs => by
    rw [List.cons_append, List.length_cons, List.insertIdx_succ_cons, insertIdx_append, List.cons_append]

theorem Represents.split (h : Represents li s) {k : Nat} (hk : k < s.length) :
    ∃ xs x ys, Chain li.cells li.node (xs ++ x :: ys) ∧ s = xs.map (·.2) ++ x.2 :: ys.map (·.2) ∧ xs.length = k := by
  obtain ⟨nodes, hchain, rfl, -⟩ := h
  rw [List.length_map] at hk
  have hsplit : nodes = nodes.take k ++ nodes[k] :: nodes.drop (k + 1) := by
    rw [← List.drop_eq_getElem_cons hk, List.take_append_drop]
  refine ⟨nodes.take k, nodes[k], nodes.drop (k + 1), ?_, ?_, List.length_take_of_le (Nat.le_of_lt hk)⟩
  · rw [← hsplit]
    exact hchain
  · rw [← List.map_cons (f := fun x : Nat × Nat => x.2), ← List.map_append, ← hsplit]

theorem Represents.nb_elt (h : Represents li s) : li.nb_elt = s.length := by
  obtain ⟨-, -, -, hn⟩ := h
  exact hn

theorem Represents.unique {t : List Nat} (h : Represents li s) (h' : Represents li t) : s = t := by
  obtain ⟨xs, hxs, rfl, -⟩ := h
  obtain ⟨ys, hys, rfl, -⟩ := h'
  rw [hxs.1.unique hys.1]

theorem position_eq (h : Represents li s) (hIndex : -1 ≤ Index) :
    (if Index = -1 ∨ li.nb_elt ≤ Index then li.nb_elt else Index) = position s Index ∧ position s Index ≤ s.length := by
  rw [h.nb_elt]
  unfold position
  split
  · exact ⟨rfl, Nat.le_refl _⟩
  · omega

theorem insert_grows (h : Represents li s) (hIndex : -1 ≤ Index) (el : Nat) :
    li.insert Index el none = .ok (-1, li) ∧
      ∀ c, c ≠ 0 → li.cells c = none → ∃ li', li.insert Index el (some c) = .ok (s.length + 1, li') ∧
        Represents li' (s.insertIdx (position s Index) el) ∧
        ∀ b, b ≠ c → li.cells b = none → li'.cells b = none := by
  obtain ⟨hi, hle⟩ := position_eq h hIndex
  have hn := h.nb_elt
  by_cases h0 : s.length = 0
  · obtain rfl := List.length_eq_zero_iff.mp h0
    obtain ⟨nodes, hchain, hmap, -⟩ := h
    obtain rfl := List.map_eq_nil_iff.mp hmap
    have hnode : li.node = 0 := hchain.1
    have hpos : position [] Index = 0 := Nat.le_zero.mp hle
    refine ⟨insert_empty_none hn hnode, fun c hc hfree => ⟨_, insert_empty hn hc, ?_, fun b hb hb' => ?_⟩⟩
    · rw [hpos]
      have hempty : Chain li.cells 0 [] := chain_nil
      exact ⟨[(c, el)], hempty.cons hc hfree el, rfl, rfl⟩
    · exact (Function.update_of_ne hb ..).trans hb'
  have hne : li.nb_elt ≠ 0 := by omega
  rcases Nat.eq_zero_or_pos (position s Index) with hfront | hpos
  · rw [hfront] at hi
    refine ⟨insert_front_none hne hi, fun c hc hfree => ⟨_, (insert_front hne hi hc).trans (by rw [hn]), ?_,
      fun b hb hb' => (Function.update_of_ne hb ..).trans hb'⟩⟩
    obtain ⟨nodes, hchain, rfl, -⟩ := h
    refine ⟨(c, el) :: nodes, hchain.cons hc hfree el, ?_, ?_⟩
    · rw [hfront, List.insertIdx_zero]
      rfl
    · rw [hfront, List.insertIdx_zero, List.length_cons]
      rfl
  · obtain ⟨k, hk⟩ : ∃ k, position s Index = k + 1 := Nat.exists_eq_add_one_of_ne_zero (Nat.ne_of_gt hpos)
    rw [hk] at hi hle
    obtain ⟨xs, x, ys, hchain, hs, rfl⟩ := h.split hle
    obtain ⟨next, hxs, -, hx, hys, -, -⟩ := hchain.at
    have hi0 : ((xs.length + 1 : Nat) : Int) ≠ 0 := by omega
    have hloop : nextBy li.cells (((xs.length + 1 : Nat) : Int) - 1) li.node = .ok x.1 := nextBy_seg hxs (by omega)
    have hlast : ((xs.length + 1 : Nat) : Int) = li.nb_elt → next = 0 := by
      intro hend
      have hys0 : ys = [] := by
        refine List.length_eq_zero_iff.mp ?_
        have hlen := congrArg List.length hs
        simp only [List.length_append, List.length_map, List.length_cons] at hlen
        omega
      rw [hys0] at hys
      exact hys
    refine ⟨insert_behind_none hne hi hi0 hloop hx hlast, fun c hc hfree => ⟨_,
      (insert_behind hne hi hi0 hloop hx hlast hc hfree).trans (by rw [hn]), ?_, fun b hb hb' => ?_⟩⟩
    swap
    · have hbx : b ≠ x.1 := by
        rintro rfl
        rw [hx] at hb'
        cases hb'
      exact (Function.update_of_ne hb ..).trans ((Function.update_of_ne hbx ..).trans hb')
    refine ⟨xs ++ x :: (c, el) :: ys, hchain.insert hx hc hfree el, ?_, ?_⟩
    · have hinsert := insertIdx_append el (ys.map (·.2)) (xs.map (·.2) ++ [x.2])
      rw [List.length_append, List.length_map, List.length_singleton, List.append_assoc, List.append_assoc] at hinsert
      rw [hk, hs]
      exact (by simp : _ = _).trans hinsert.symm
    · rw [hk, List.length_insertIdx_of_le_length hle]
      rfl

theorem insert_refines (h : Represents li s) (hIndex : -1 ≤ Index) (el : Nat) :
    li.insert Index el none = .ok (-1, li) ∧
      ∀ c, c ≠ 0 → li.cells c = none → ∃ li', li.insert Index el (some c) = .ok (s.length + 1, li') ∧
        Represents li' (s.insertIdx (position s Index) el) := by
  obtain ⟨hnone, hsome⟩ := insert_grows h hIndex el
  refine ⟨hnone, fun c hc hfree => ?_⟩
  obtain ⟨li', hinsert, hrep, -⟩ := hsome c hc hfree
  exact ⟨li', hinsert, hrep⟩

theorem add_refines (h : Represents li s) (Item : Nat) :
    li.add Item none = .ok (-1, li) ∧
      ∀ c, c ≠ 0 → li.cells c = none → ∃ li', li.add Item (some c) = .ok (s.length + 1, li') ∧
        Represents li' (s ++ [Item]) ∧ ∀ b, b ≠ c → li.cells b = none → li'.cells b = none := by
  have hn : li.count = s.length := h.nb_elt
  have hcount : -1 ≤ li.count := by omega
  have hend : position s li.count = s.length := by
    unfold position
    rw [hn, if_pos (Or.inr (Int.le_refl _))]
  have hinsert := insert_grows h hcount Item
  rw [hend, List.insertIdx_length_self] at hinsert
  exact hinsert

theorem eraseIdx_append {α : Type} (xs : List α) (x : α) (ys : List α) :
    (xs ++ x :: ys).eraseIdx xs.length = xs ++ ys := by
  rw [List.eraseIdx_append_of_length_le (Nat.le_refl _), Nat.sub_self]
  rfl

theorem removeElement_refines (h : Represents li s) (pos : Int) :
    if 0 ≤ pos ∧ pos < s.length then
      ∃ li', li.removeElement pos = .ok (s.length - 1, li') ∧ Represents li' (s.eraseIdx pos.toNat)
    else li.removeElement pos = .ok (-1, li) := by
  have hn := h.nb_elt
  split <;> rename_i hpos
  · have hin : ¬(pos < 0 ∨ li.nb_elt ≤ pos) := by omega
    have hlen : (s.eraseIdx pos.toNat).length = s.length - 1 := List.length_eraseIdx_of_lt (by omega)
    unfold removeElement
    rw [if_neg hin]
    by_cases h0 : pos = 0
    · obtain ⟨xs, x, ys, hchain, hs, hxs⟩ := h.split (k := 0) (by omega)
      obtain rfl := List.length_eq_zero_iff.mp hxs
      obtain ⟨next, hnode, hx, hrest⟩ := hchain.tail
      refine ⟨⟨Function.update li.cells x.1 none, next, li.nb_elt - 1⟩, ?_, ys, hrest, ?_, ?_⟩
      · simp only [h0, if_true]
        rw [hnode, getNode_eq hx, ok_bind, free_eq hx, ok_bind, ← hn]
        rfl
      · rw [h0, hs]
        rfl
      · rw [hlen]
        show li.nb_elt - 1 = _
        omega
    · obtain ⟨k, hk⟩ : ∃ k : Nat, pos = k + 1 := ⟨(pos - 1).toNat, by omega⟩
      obtain ⟨xs, x, ys', hchain, hs, rfl⟩ := h.split (k := k) (by omega)
      obtain ⟨y, ys, rfl⟩ : ∃ y ys, ys' = y :: ys := by
        cases ys' with
        | nil =>
          have hslen := congrArg List.length hs
          simp only [List.length_append, List.length_map, List.length_cons, List.map_nil, List.length_nil] at hslen
          omega
        | cons y ys => exact ⟨y, ys, rfl⟩
      obtain ⟨next, hx, hy, hyx, herase⟩ := hchain.erase
      obtain ⟨-, hseg, -, -, -, -, -⟩ := hchain.at
      have hloop : nextBy li.cells (pos - 1) li.node = .ok x.1 := nextBy_seg hseg (by omega)
      refine ⟨⟨Function.update (Function.update li.cells x.1 (some ⟨next, x.2⟩)) y.1 none, li.node, li.nb_elt - 1⟩,
        ?_, xs ++ x :: ys, herase, ?_, ?_⟩
      · have hy' : Function.update li.cells x.1 (some ⟨next, x.2⟩) y.1 = some ⟨next, y.2⟩ := by
          rw [Function.update_of_ne hyx]
          exact hy
        simp only [h0, if_false]
        rw [hloop, ok_bind, getNode_eq hx, ok_bind]
        simp only
        rw [getNode_eq hy, ok_bind, setNext_eq hx, ok_bind, free_eq hy', ok_bind, ← hn]
        rfl
      · have herased := eraseIdx_append (xs.map (·.2) ++ [x.2]) y.2 (ys.map (·.2))
        rw [List.length_append, List.length_map, List.length_singleton, List.append_assoc, List.append_assoc] at herased
        rw [hs, show pos.toNat = xs.length + 1 by omega]
        exact (by simp : _ = _).trans herased.symm
      · rw [hlen]
        show li.nb_elt - 1 = _
        omega
  · have hout : pos < 0 ∨ li.nb_elt ≤ pos := by omega
    unfold removeElement
    rw [if_pos hout]

theorem items_refines (h : Represents li s) (pos : Int) :
    li.items pos = .ok (if 0 ≤ pos ∧ pos < s.length then s.getD pos.toNat 0 else 0) := by
  have hn := h.nb_elt
  unfold items
  split <;> rename_i hpos
  · rw [if_neg (by omega)]
  · rw [if_pos (by omega)]
    obtain ⟨xs, x, ys, hchain, hs, hxs⟩ := h.split (k := pos.toNat) (by omega)
    obtain ⟨next, hseg, -, hx, -, -, -⟩ := hchain.at
    rw [nextBy_seg hseg (by omega), ok_bind, getNode_eq hx, ok_bind, hs, ← hxs]
    simp [pure, Except.pure]

/-! ## Calls -/

theorem Answered.tail {c : Call} {calls : List Call} {r : Result} (h : Answered li (c :: calls))
    (hrun : c.run li = .ok (r, li')) : Answered li' calls := h.2 r li' hrun

/-- **A call does to the list what it does to the sequence.** -/
theorem run_refines {c : Call} (h : Represents li s) (hproper : c.Proper) (hanswers : Answers li c.answer) :
    ∃ li', c.run li = .ok ((c.spec s).1, li') ∧ Represents li' (c.spec s).2 := by
  cases c with
  | insert Index el answer =>
    obtain ⟨hnone, hsome⟩ := insert_refines h hproper el
    cases answer with
    | none => exact ⟨li, by rw [Call.run, hnone]; rfl, h⟩
    | some c =>
      obtain ⟨hc, hfree⟩ := hanswers c rfl
      obtain ⟨li', hli', hrep⟩ := hsome c hc hfree
      exact ⟨li', by rw [Call.run, hli']; rfl, hrep⟩
  | add Item answer =>
    obtain ⟨hnone, hsome⟩ := add_refines h Item
    cases answer with
    | none => exact ⟨li, by rw [Call.run, hnone]; rfl, h⟩
    | some c =>
      obtain ⟨hc, hfree⟩ := hanswers c rfl
      obtain ⟨li', hli', hrep, -⟩ := hsome c hc hfree
      exact ⟨li', by rw [Call.run, hli']; rfl, hrep⟩
  | removeElement pos =>
    have hremove := removeElement_refines h pos
    simp only [Call.spec]
    split <;> rename_i hpos
    · rw [if_pos hpos] at hremove
      obtain ⟨li', hli', hrep⟩ := hremove
      exact ⟨li', by rw [Call.run, hli']; rfl, hrep⟩
    · rw [if_neg hpos] at hremove
      exact ⟨li, by rw [Call.run, hremove]; rfl, h⟩
  | items pos => exact ⟨li, by rw [Call.run, items_refines h pos]; rfl, h⟩
  | count => exact ⟨li, by rw [Call.run, count, h.nb_elt]; rfl, h⟩

theorem runAll_refines_from (calls : List Call) : ∀ {li : YQList} {s : List Nat}, Represents li s →
    (∀ c ∈ calls, c.Proper) → Answered li calls →
    ∃ li', li.runAll calls = .ok ((specAll s calls).1, li') ∧ Represents li' (specAll s calls).2 := by
  induction calls with
  | nil => exact fun h _ _ => ⟨_, rfl, h⟩
  | cons c calls ih =>
    intro li s h hproper hanswers
    obtain ⟨li', hrun, hrep⟩ := run_refines h (hproper c (List.mem_cons_self ..)) hanswers.1
    obtain ⟨li'', hrest, hrep'⟩ :=
      ih hrep (fun c hc => hproper c (List.mem_cons_of_mem _ hc)) (hanswers.tail hrun)
    refine ⟨li'', ?_, hrep'⟩
    rw [runAll, hrun, ok_bind]
    simp only [hrest]
    rfl

/-- **The list is a sequence** after any calls, whatever `malloc` answers, and each call returns what it returns of the
sequence. -/
theorem runAll_refines (calls : List Call) (hproper : ∀ c ∈ calls, c.Proper) (hanswers : Answered empty calls) :
    ∃ li, empty.runAll calls = .ok ((specAll [] calls).1, li) ∧ Represents li (specAll [] calls).2 :=
  runAll_refines_from calls ⟨[], chain_nil, rfl, rfl⟩ hproper hanswers

theorem runAll_refines_add : ∃ li, empty.runAll [.add 7 (some 16), .add 8 none, .items 0] =
    .ok ([.int 1, .int (-1), .ptr 7], li) ∧ Represents li [7] :=
  runAll_refines [.add 7 (some 16), .add 8 none, .items 0] (by simp [Call.Proper])
    ⟨fun _ h => ⟨by cases h; decide, rfl⟩, fun _ _ _ =>
      ⟨fun _ h => (by cases h), fun _ _ _ => ⟨fun _ h => (by cases h), fun _ _ _ => trivial⟩⟩⟩

end

end Afn.YQList
