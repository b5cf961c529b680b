import Afn.DataList
import Afn.Run
import Mathlib.Data.List.GetD

/-!
# What the readers see

Each call of `WriteData` has an object of its own, that is in the list or was taken out once. The object holds the
data of the call as soon as the call has assigned it.
-/

namespace Afn.TYQDataList

section
variable {T α : Type}

-- no thread takes an object out that is not assigned yet
def Permitted (s : State T α) : Action T α → Prop
  | .read _ Item | .delete _ Item => ∀ t PData Data, s.thr t = .assigning PData Data → dataItem s.FDatas Item ≠ PData
  | _ => True

structure Good (s : State T α) : Prop where
  written : ∀ r ∈ s.returned, ∃ Data ∈ s.written, r.2 = some Data
  once : s.removed.Nodup

def Assigns (s : State T α) : Action T α → Prop
  | .assign t => ∀ PData Data, s.thr t = .assigning PData Data → PData ∉ s.removed
  | _ => True

/-! ## The objects -/

/-- An object is in the list or was taken out, and this once. -/
structure Listed (FDatas removed : List Nat) (next : Nat) : Prop where
  nodup : (FDatas ++ removed).Nodup
  bound : ∀ x ∈ FDatas ++ removed, 0 < x ∧ x < next
  next : 0 < next

end

section
variable {FDatas removed : List Nat} {next : Nat}

theorem extract_dataItem (FDatas : List Nat) (Item : Int) : (extract FDatas Item).1 = dataItem FDatas Item := by
  unfold extract dataItem
  split <;> rfl

theorem extract_cases (FDatas : List Nat) (Item : Int) : extract FDatas Item = (0, FDatas) ∨
    ∃ xs x ys, FDatas = xs ++ x :: ys ∧ extract FDatas Item = (x, xs ++ ys) := by
  have hcount : count FDatas = FDatas.length := rfl
  by_cases hItem : 0 ≤ Item ∧ Item < FDatas.length
  · right
    have hlt : Item.toNat < FDatas.length := by omega
    refine ⟨FDatas.take Item.toNat, FDatas[Item.toNat], FDatas.drop (Item.toNat + 1), ?_, ?_⟩
    · rw [← List.drop_eq_getElem_cons hlt, List.take_append_drop]
    · simp only [extract, dataItem, items, hcount, YQList.Call.spec, if_pos hItem, if_pos hItem.2]
      rw [List.getD_eq_getElem _ _ hlt, List.eraseIdx_eq_take_drop_succ]
  · left
    simp only [extract, dataItem, items, hcount, YQList.Call.spec, if_neg hItem, ite_self]

theorem listed_nil : Listed [] [] 1 := ⟨List.nodup_nil, fun _ h => absurd h List.not_mem_nil, Nat.one_pos⟩

theorem listed_add (h : Listed FDatas removed next) (answer : Option Nat) :
    Listed ((YQList.Call.add next answer).spec FDatas).2 removed (next + 1) := by
  have hbound : ∀ x ∈ FDatas ++ removed, 0 < x ∧ x < next + 1 :=
    fun x hx => ⟨(h.bound x hx).1, Nat.lt_succ_of_lt (h.bound x hx).2⟩
  cases answer with
  | none => exact ⟨h.nodup, hbound, Nat.succ_pos _⟩
  | some a =>
    have hperm : ((FDatas ++ [next]) ++ removed).Perm (next :: (FDatas ++ removed)) := by
      rw [List.append_assoc]
      exact List.perm_middle
    refine ⟨hperm.nodup_iff.mpr (List.nodup_cons.mpr ⟨fun hx => ?_, h.nodup⟩), fun x hx => ?_, Nat.succ_pos _⟩
    · exact absurd (h.bound next hx).2 (Nat.lt_irrefl _)
    · rcases List.mem_cons.mp (hperm.mem_iff.mp hx) with rfl | hx
      · exact ⟨h.next, Nat.lt_succ_self _⟩
      · exact hbound x hx

theorem Listed.extract (h : Listed FDatas removed next) (Item : Int) :
    extract FDatas Item = (0, FDatas) ∨
    ∃ x rest, extract FDatas Item = (x, rest) ∧ x ∈ FDatas ∧ x ≠ 0 ∧ x ∉ removed ∧
      (∀ y ∈ rest, y ∈ FDatas ∧ y ≠ x) ∧ Listed rest (x :: removed) next := by
  rcases extract_cases FDatas Item with h0 | ⟨xs, x, ys, rfl, hx⟩
  · exact Or.inl h0
  · have hperm : ((xs ++ x :: ys) ++ removed).Perm ((xs ++ ys) ++ x :: removed) :=
      (List.perm_middle.append_right removed).trans List.perm_middle.symm
    have hmiddle : ((xs ++ x :: ys) ++ removed).Perm (x :: ((xs ++ ys) ++ removed)) := hperm.trans List.perm_middle
    have hnew := (List.nodup_cons.mp (hmiddle.nodup_iff.mp h.nodup)).1
    have hmem : x ∈ xs ++ x :: ys := List.mem_append_right _ (List.mem_cons_self ..)
    refine Or.inr ⟨x, xs ++ ys, hx, hmem, ?_, fun hr => hnew (List.mem_append_right _ hr), fun y hy => ⟨?_, ?_⟩, ?_⟩
    · exact Nat.ne_of_gt (h.bound x (List.mem_append_left _ hmem)).1
    · exact List.perm_middle.mem_iff.mpr (List.mem_cons_of_mem _ hy)
    · rintro rfl
      exact hnew (List.mem_append_left _ hy)
    · exact ⟨hperm.nodup_iff.mp h.nodup, fun y hy => h.bound y (hperm.mem_iff.mpr hy), h.next⟩

theorem listed_extract (h : Listed FDatas removed next) (Item : Int) :
    Listed (extract FDatas Item).2 (remove removed (extract FDatas Item).1) next := by
  rcases h.extract Item with hx | ⟨x, rest, hx, -, hx0, -, -, hlisted⟩
  · rw [hx]
    exact h
  · rw [hx, remove, if_neg hx0]
    exact hlisted

end

/-! ## Every object once -/

section
variable {T α : Type} [DecidableEq T] {zero : α} {s s' : State T α} {a : Action T α}

theorem listed_step (h : Listed s.FDatas s.removed s.next) (hs : step zero s a = some s') :
    Listed s'.FDatas s'.removed s'.next := by
  cases a with
  | write t Data answer =>
    simp only [step] at hs
    split at hs <;> cases hs
    exact listed_add h answer
  | assign t =>
    simp only [step] at hs
    split at hs <;> cases hs
    exact h
  | read t Item =>
    simp only [step] at hs
    split at hs <;> cases hs
    exact listed_extract h Item
  | ret t =>
    simp only [step] at hs
    split at hs <;> cases hs
    exact h
  | delete t Item =>
    simp only [step] at hs
    split at hs <;> cases hs
    exact listed_extract h Item

/-- **An object is taken out once**, in every run. -/
theorem removed_once (zero : α) (as : List (Action T α)) :
    Run.Throughout (step zero) (fun s => s.removed.Nodup) initial as :=
  Run.throughout_of (I := fun s : State T α => Listed s.FDatas s.removed s.next)
    (fun h => (List.nodup_append.mp h.nodup).2.1) listed_step listed_nil

end

/-! ## The steps -/

section
variable {T α : Type}

def Holds (s : State T α) (x : Nat) : Prop := ∃ Data ∈ s.written, s.objects x = some Data

structure Inv (s : State T α) : Prop where
  listed : Listed s.FDatas s.removed s.next
  assigning : ∀ t x Data, s.thr t = .assigning x Data →
    0 < x ∧ x < s.next ∧ x ∉ s.removed ∧ Data ∈ s.written ∧ (s.objects x).isSome
  datas : ∀ x ∈ s.FDatas, (∃ t Data, s.thr t = .assigning x Data) ∨ Holds s x
  returning : ∀ t x, s.thr t = .returning x → x ≠ 0 → x ∈ s.removed ∧ Holds s x
  returned : ∀ r ∈ s.returned, ∃ Data ∈ s.written, r.2 = some Data

variable [DecidableEq T] {zero : α} {s s' : State T α}

omit [DecidableEq T] in
theorem inv_initial : Inv (initial : State T α) where
  listed := listed_nil
  assigning := fun _ _ _ h => by cases h
  datas := fun _ h => absurd h List.not_mem_nil
  returning := fun _ _ h => by cases h
  returned := fun _ h => absurd h List.not_mem_nil

theorem thr_cases {thr : T → Place α} {t t' : T} {p q : Place α} (h : Function.update thr t p t' = q) :
    p = q ∨ thr t' = q := by
  rw [Function.update_apply] at h
  split at h
  · exact Or.inl h
  · exact Or.inr h

theorem thr_keep {thr : T → Place α} {t t' : T} {q : Place α} (h : thr t' = q) (hne : thr t ≠ q) (p : Place α) :
    Function.update thr t p t' = q := by
  have ht : t' ≠ t := by
    rintro rfl
    exact hne h
  exact (Function.update_of_ne ht ..).trans h

theorem inv_place {t : T} {p : Place α} (h : Inv s) (hold : ∀ x v, s.thr t ≠ .assigning x v)
    (hnew : ∀ x v, p ≠ .assigning x v) (hret : ∀ x, p = .returning x → x ≠ 0 → x ∈ s.removed ∧ Holds s x) :
    Inv { s with thr := Function.update s.thr t p } := by
  refine ⟨h.listed, fun t' x v ht => ?_, fun x hx => ?_, fun t' x ht => ?_, h.returned⟩
  · rcases thr_cases ht with hp | ht
    · exact absurd hp (hnew x v)
    · exact h.assigning t' x v ht
  · exact (h.datas x hx).imp_left fun ⟨t', v, ht⟩ => ⟨t', v, thr_keep ht (hold x v) p⟩
  · rcases thr_cases ht with hp | ht
    · exact hret x hp
    · exact h.returning t' x ht

theorem inv_write {t : T} {Data : α} {answer : Option Nat} (h : Inv s)
    (hs : step zero s (.write t Data answer) = some s') : Inv s' := by
  simp only [step] at hs
  split at hs
  · rename_i hout
    cases hs
    have hobj : ∀ x, x < s.next → Function.update s.objects s.next (some zero) x = s.objects x :=
      fun x hlt => Function.update_of_ne (Nat.ne_of_lt hlt) ..
    have hself : Function.update s.objects s.next (some zero) s.next = some zero := Function.update_self ..
    refine ⟨listed_add h.listed answer, fun t' x v ht => ?_, fun x hx => ?_, fun t' x ht hx0 => ?_, fun r hr => ?_⟩
    · rcases thr_cases ht with hp | ht
      · cases hp
        refine ⟨h.listed.next, Nat.lt_succ_self _, fun hr => ?_, List.mem_cons_self .., ?_⟩
        · exact Nat.lt_irrefl _ (h.listed.bound _ (List.mem_append_right _ hr)).2
        · exact congrArg Option.isSome hself
      · obtain ⟨hpos, hlt, hnr, hv, hsome⟩ := h.assigning t' x v ht
        exact ⟨hpos, Nat.lt_succ_of_lt hlt, hnr, List.mem_cons_of_mem _ hv,
          (congrArg Option.isSome (hobj x hlt)).trans hsome⟩
    · have hx' : x ∈ s.FDatas ∨ x = s.next := by
        cases answer with
        | none => exact Or.inl hx
        | some a => exact (List.mem_append.mp hx).imp_right List.mem_singleton.mp
      rcases hx' with hx | rfl
      · rcases h.datas x hx with ⟨t', v, ht⟩ | ⟨v, hv, hholds⟩
        · exact Or.inl ⟨t', v, thr_keep ht (fun hsame => by cases hout.symm.trans hsame) _⟩
        · have hlt := (h.listed.bound x (List.mem_append_left _ hx)).2
          exact Or.inr ⟨v, List.mem_cons_of_mem _ hv, (hobj x hlt).trans hholds⟩
      · exact Or.inl ⟨t, Data, Function.update_self ..⟩
    · rcases thr_cases ht with hp | ht
      · cases hp
      · obtain ⟨hr, v, hv, hholds⟩ := h.returning t' x ht hx0
        have hlt := (h.listed.bound x (List.mem_append_right _ hr)).2
        exact ⟨hr, v, List.mem_cons_of_mem _ hv, (hobj x hlt).trans hholds⟩
    · obtain ⟨v, hv, hrv⟩ := h.returned r hr
      exact ⟨v, List.mem_cons_of_mem _ hv, hrv⟩
  · cases hs

theorem inv_assign {t : T} (h : Inv s) (hs : step zero s (.assign t) = some s') : Inv s' := by
  simp only [step] at hs
  split at hs
  · rename_i x v hthr
    cases hs
    obtain ⟨-, -, hnr, hv, hsome⟩ := h.assigning t x v hthr
    rw [if_pos hsome]
    have hobj : ∀ y, y ≠ x → Function.update s.objects x (some v) y = s.objects y :=
      fun y hne => Function.update_of_ne hne ..
    have hself : Function.update s.objects x (some v) x = some v := Function.update_self ..
    refine ⟨h.listed, fun t' y w ht => ?_, fun y hy => ?_, fun t' y ht hy0 => ?_, h.returned⟩
    · rcases thr_cases ht with hp | ht
      · cases hp
      · obtain ⟨hpos, hlt, hyr, hw, hy⟩ := h.assigning t' y w ht
        refine ⟨hpos, hlt, hyr, hw, ?_⟩
        by_cases hyx : y = x
        · subst hyx
          exact congrArg Option.isSome hself
        · exact (congrArg Option.isSome (hobj y hyx)).trans hy
    · by_cases hyx : y = x
      · subst hyx
        exact Or.inr ⟨v, hv, hself⟩
      · rcases h.datas y hy with ⟨t', w, ht⟩ | ⟨w, hw, hholds⟩
        · refine Or.inl ⟨t', w, thr_keep ht (fun hsame => ?_) _⟩
          rw [hthr] at hsame
          cases hsame
          exact hyx rfl
        · exact Or.inr ⟨w, hw, (hobj y hyx).trans hholds⟩
    · rcases thr_cases ht with hp | ht
      · cases hp
      · obtain ⟨hr, w, hw, hholds⟩ := h.returning t' y ht hy0
        have hyx : y ≠ x := by
          rintro rfl
          exact hnr hr
        exact ⟨hr, w, hw, (hobj y hyx).trans hholds⟩
  · cases hs

theorem inv_ret {t : T} (h : Inv s) (hs : step zero s (.ret t) = some s') : Inv s' := by
  simp only [step] at hs
  split at hs
  · rename_i x hthr
    cases hs
    have hplace : Inv { s with thr := Function.update s.thr t .outside } := by
      refine inv_place h ?_ ?_ ?_
      · exact fun y v hy => by cases hthr.symm.trans hy
      · exact fun y v hy => by cases hy
      · exact fun y hy => by cases hy
    refine ⟨hplace.listed, hplace.assigning, hplace.datas, hplace.returning, fun r hr => ?_⟩
    by_cases hx0 : x = 0
    · rw [if_pos hx0] at hr
      exact h.returned r hr
    · rw [if_neg hx0] at hr
      rcases List.mem_cons.mp hr with rfl | hr
      · exact (h.returning t x hthr hx0).2
      · exact h.returned r hr
  · cases hs

omit [DecidableEq T] in
theorem inv_take {Item : Int} (h : Inv s)
    (hassigned : ∀ t PData Data, s.thr t = .assigning PData Data → dataItem s.FDatas Item ≠ PData) :
    ∃ x rest, extract s.FDatas Item = (x, rest) ∧
      Inv { s with FDatas := rest, removed := remove s.removed x } ∧
      (x ≠ 0 → x ∈ remove s.removed x ∧ Holds s x) ∧ ∀ y, y ∈ rest ∨ y ∈ s.removed → y ≠ x := by
  rw [← extract_dataItem] at hassigned
  rcases h.listed.extract Item with hx | ⟨x, rest, hx, hmem, hx0, hnr, hrest, hlisted⟩
  · refine ⟨0, s.FDatas, hx, h, fun h0 => absurd rfl h0, fun y hy => ?_⟩
    exact Nat.ne_of_gt (h.listed.bound y (List.mem_append.mpr hy)).1
  · rw [hx] at hassigned
    have hremove : remove s.removed x = x :: s.removed := if_neg hx0
    have hholds : Holds s x := by
      rcases h.datas x hmem with ⟨t, v, ht⟩ | hholds
      · exact absurd rfl (hassigned t x v ht)
      · exact hholds
    refine ⟨x, rest, hx, ?_, fun _ => ⟨?_, hholds⟩, ?_⟩
    · rw [hremove]
      refine ⟨hlisted, fun t y v ht => ?_, fun y hy => h.datas y (hrest y hy).1, fun t y ht hy0 => ?_, h.returned⟩
      · obtain ⟨hpos, hlt, hyr, hv, hsome⟩ := h.assigning t y v ht
        exact ⟨hpos, hlt, fun hy => (List.mem_cons.mp hy).elim (hassigned t y v ht).symm hyr, hv, hsome⟩
      · obtain ⟨hr, hy⟩ := h.returning t y ht hy0
        exact ⟨List.mem_cons_of_mem _ hr, hy⟩
    · rw [hremove]
      exact List.mem_cons_self ..
    · rintro y (hy | hy)
      · exact (hrest y hy).2
      · rintro rfl
        exact hnr hy

theorem inv_read {t : T} {Item : Int} (h : Inv s) (hperm : Permitted s (.read t Item))
    (hs : step zero s (.read t Item) = some s') : Inv s' := by
  simp only [step] at hs
  split at hs
  · rename_i hout
    obtain ⟨x, rest, hx, htaken, hholds, -⟩ := inv_take h hperm
    rw [hx] at hs
    cases hs
    refine inv_place htaken ?_ ?_ ?_
    · exact fun y v hy => by cases hout.symm.trans hy
    · exact fun y v hy => by cases hy
    · rintro y ⟨⟩ hx0
      exact hholds hx0
  · cases hs

theorem inv_delete {t : T} {Item : Int} (h : Inv s) (hperm : Permitted s (.delete t Item))
    (hs : step zero s (.delete t Item) = some s') : Inv s' := by
  simp only [step] at hs
  split at hs
  · obtain ⟨x, rest, hx, htaken, hholds, hother⟩ := inv_take h hperm
    rw [hx] at hs
    cases hs
    have hobj : ∀ y, y ≠ x → Function.update s.objects x none y = s.objects y :=
      fun y hne => Function.update_of_ne hne ..
    refine ⟨htaken.listed, fun t y v ht => ?_, fun y hy => ?_, fun t y ht hy0 => ?_, h.returned⟩
    · obtain ⟨hpos, hlt, hyr, hv, hsome⟩ := htaken.assigning t y v ht
      have hyx : y ≠ x := by
        rintro rfl
        exact hyr (hholds (Nat.ne_of_gt hpos)).1
      exact ⟨hpos, hlt, hyr, hv, (congrArg Option.isSome (hobj y hyx)).trans hsome⟩
    · rcases htaken.datas y hy with hassigning | ⟨v, hv, hy'⟩
      · exact Or.inl hassigning
      · exact Or.inr ⟨v, hv, (hobj y (hother y (Or.inl hy))).trans hy'⟩
    · obtain ⟨hr, v, hv, hy'⟩ := htaken.returning t y ht hy0
      have hold := (h.returning t y ht hy0).1
      exact ⟨hr, v, hv, (hobj y (hother y (Or.inr hold))).trans hy'⟩
  · cases hs

theorem inv_step {a : Action T α} (h : Inv s) (hs : step zero s a = some s') (hperm : Permitted s a) : Inv s' := by
  cases a with
  | write t Data answer => exact inv_write h hs
  | assign t => exact inv_assign h hs
  | read t Item => exact inv_read h hperm hs
  | ret t => exact inv_ret h hs
  | delete t Item => exact inv_delete h hperm hs

omit [DecidableEq T] in
theorem good_of_inv (h : Inv s) : Good s := ⟨h.returned, (List.nodup_append.mp h.listed.nodup).2.1⟩

omit [DecidableEq T] in
theorem assigns_of_inv (h : Inv s) (a : Action T α) : Assigns s a := by
  cases a with
  | assign t => exact fun x v ht => (h.assigning t x v ht).2.2.1
  | write t Data answer => trivial
  | read t Item => trivial
  | ret t => trivial
  | delete t Item => trivial

/-- **A reader sees data that were written**, in every run where an object is taken out only after its assignment. -/
theorem reads_written (zero : α) (as : List (Action T α))
    (h : Run.Each (step zero) (fun s a _ => Permitted s a) initial as) :
    Run.Throughout (step zero) Good initial as ∧ Run.Each (step zero) (fun s a _ => Assigns s a) initial as := by
  have hgood : Run.Each (step zero) (fun s a s' => Good s' ∧ Assigns s a) initial as := by
    refine Run.each_of (I := Inv) (fun {s a s'} hinv hs hperm => ?_) inv_initial h
    have hinv' := inv_step hinv hs hperm
    exact ⟨⟨good_of_inv hinv', assigns_of_inv hinv a⟩, hinv'⟩
  refine ⟨⟨good_of_inv inv_initial, ?_⟩, ?_⟩
  · exact Run.each_of (I := fun _ => True) (fun _ _ hq => ⟨hq.1, trivial⟩) trivial hgood
  · exact Run.each_of (I := fun _ => True) (fun _ _ hq => ⟨hq.2, trivial⟩) trivial hgood

end

theorem reads_written_after :
    Run.Throughout (step 0) Good (initial : State Bool Nat)
      [.write true 7 (some 16), .assign true, .read false 0, .ret false] ∧
    Run.Each (step 0) (fun s a _ => Assigns s a) (initial : State Bool Nat)
      [.write true 7 (some 16), .assign true, .read false 0, .ret false] := by
  refine reads_written 0 _ fun s₁ h₁ => ⟨trivial, fun s₂ h₂ => ⟨trivial, fun _ _ => ?_⟩⟩
  refine ⟨?_, fun _ _ => ⟨trivial, trivial⟩⟩
  cases h₁
  cases h₂
  intro t x v ht
  cases t <;> cases ht

-- a reader takes the object out, and returns it, before its writer assigns it
def early : List (Action Bool Nat) := [.write true 7 (some 16), .read false 0, .ret false]

theorem not_reads_written :
    ¬∀ (T α : Type) [DecidableEq T] (zero : α) (as : List (Action T α)),
      Run.Throughout (step zero) Good initial as ∧ Run.Each (step zero) (fun s a _ => Assigns s a) initial as := by
  intro h
  have hrun := (h Bool Nat 0 early).1
  have hend : (early.foldlM (step 0) initial).map (fun s => (s.written, s.returned)) =
      some ([7], [(1, some 0)]) := by decide +kernel
  obtain ⟨s, hs, hread⟩ := Option.map_eq_some_iff.mp hend
  simp only [Prod.mk.injEq] at hread
  obtain ⟨v, hv, hvalue⟩ := (hrun.last hs).written (1, some 0) (by rw [hread.2]; exact List.mem_singleton_self _)
  rw [hread.1, List.mem_singleton] at hv
  subst hv
  cases hvalue

end Afn.TYQDataList
