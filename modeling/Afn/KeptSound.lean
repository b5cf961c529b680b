import Afn.ConnectionsSound
import Afn.Outcome
import Afn.SequenceSound

/-!
# What the handling of packages leaves alone

Records are changed in place or added behind the others, and keep their names, addresses, meters and poll
timers. No part of the handling reaches `notify`, the map of pending calls or the data base.
-/

namespace Afn

open Bytes Access Effect AFNPackage AFNPackageBuilder

/-! ## Records -/

/-- The parts of a record that only the constructor and the poll timer set. -/
structure Jzq.Same (p p' : Jzq) : Prop where
  m_areacode : p'.m_areacode = p.m_areacode
  m_number : p'.m_number = p.m_number
  m_name : p'.m_name = p.m_name
  m_getTimer : p'.m_getTimer = p.m_getTimer
  eleLst : p'.eleLst = p.eleLst

theorem Jzq.same_refl (p : Jzq) : p.Same p := ⟨rfl, rfl, rfl, rfl, rfl⟩

theorem Jzq.Same.trans {p q r : Jzq} (h : p.Same q) (h' : q.Same r) : p.Same r where
  m_areacode := h'.m_areacode.trans h.m_areacode
  m_number := h'.m_number.trans h.m_number
  m_name := h'.m_name.trans h.m_name
  m_getTimer := h'.m_getTimer.trans h.m_getTimer
  eleLst := h'.eleLst.trans h.eleLst

theorem Jzq.same_loginState (p : Jzq) (tick : UInt32) (_Fn : UInt16) (_pseq : UInt8) :
    p.Same (p.loginState tick _Fn _pseq) := by
  obtain ⟨m_tag, m_heartTimer, h⟩ := p.loginState_eq tick _pseq _Fn
  rw [h]
  exact ⟨rfl, rfl, rfl, rfl, rfl⟩

namespace JzqList

/-- Every record is still in its place. -/
def Grows (l l' : JzqList) : Prop :=
  ∀ (i : Nat) (p : Jzq), l.m_jzqList[i]? = some p → ∃ p', l'.m_jzqList[i]? = some p' ∧ p.Same p'

theorem grows_refl (l : JzqList) : l.Grows l := fun _ p h => ⟨p, h, p.same_refl⟩

theorem Grows.trans {l l' l'' : JzqList} (h : l.Grows l') (h' : l'.Grows l'') : l.Grows l'' := by
  intro i p hp
  obtain ⟨p', hp', hs⟩ := h i p hp
  obtain ⟨p'', hp'', hs'⟩ := h' i p' hp'
  exact ⟨p'', hp'', hs.trans hs'⟩

section
variable (l : JzqList) (tick : UInt32) (a n : UInt16)

theorem length_modifyFirst (f : Jzq → Jzq) : ∀ l : List Jzq, (modifyFirst a n f l).length = l.length := by
  intro l
  induction l with
  | nil => rfl
  | cons p ps ih =>
    unfold modifyFirst
    split
    · rfl
    · rw [List.length_cons, List.length_cons, ih]

theorem grows_modify {f : Jzq → Jzq} (hf : ∀ p : Jzq, p.Same (f p)) : l.Grows (l.modify a n f) := by
  intro i p hp
  have hlen : i < (modifyFirst a n f l.m_jzqList).length := by
    rw [length_modifyFirst]
    exact (List.getElem?_eq_some_iff.mp hp).1
  obtain ⟨p', hp'⟩ : ∃ p', (modifyFirst a n f l.m_jzqList)[i]? = some p' := ⟨_, List.getElem?_eq_getElem hlen⟩
  refine ⟨p', hp', ?_⟩
  rcases getElem?_modifyFirst hp hp' with rfl | ⟨-, rfl⟩
  · exact p'.same_refl
  · exact hf p

theorem grows_report (_Fn : UInt16) (_pseq : UInt8) : l.Grows (l.reportLoginState tick a n _Fn _pseq true) := by
  unfold reportLoginState
  split
  · exact grows_modify l a n fun p => p.same_loginState tick _Fn _pseq
  · intro i p hp
    have hlen := (List.getElem?_eq_some_iff.mp hp).1
    exact ⟨p, (List.getElem?_append_left hlen).trans hp, p.same_refl⟩

theorem grows_getRSEQ : l.Grows (l.getRSEQ a n true).2 := by
  cases hp : l.getJzq a n with
  | some p =>
    rw [getRSEQ_some l a n hp]
    exact grows_modify l a n fun _ => ⟨rfl, rfl, rfl, rfl, rfl⟩
  | none =>
    rw [getRSEQ_none l a n hp]
    exact grows_refl l

theorem grows_getPSEQ : l.Grows (l.getPSEQ a n true).2 := by
  cases hp : l.getJzq a n with
  | some p =>
    rw [getPSEQ_some l a n hp]
    exact grows_modify l a n fun _ => ⟨rfl, rfl, rfl, rfl, rfl⟩
  | none =>
    rw [getPSEQ_none l a n hp]
    exact grows_refl l

theorem grows_check : l.Grows (l.checkConnection tick) := by
  intro i p hp
  refine ⟨(p.checkTimeout tick).1, ?_, ?_⟩
  · unfold checkConnection
    rw [List.getElem?_map, hp, Option.map_some]
  · unfold Jzq.checkTimeout
    simp only []
    split
    next =>
      have hsame : p.Same { p with m_heartTimer := tick } := ⟨rfl, rfl, rfl, rfl, rfl⟩
      exact hsame.trans (Jzq.same_loginState _ tick 2 0)
    next => exact p.same_refl

theorem grows_del : l.Grows (l.delConnection tick a n) := by
  unfold delConnection
  split
  · exact grows_modify l a n fun p => p.same_loginState tick 2 0
  · exact grows_refl l

end

end JzqList

/-! ## Worlds -/

structure World.Kept (w w' : World) : Prop where
  jzqList : w.jzqList.Grows w'.jzqList
  tick : w'.tick = w.tick
  cmdMap : w'.cmdMap = w.cmdMap
  notified : w'.notified = w.notified
  stored : w'.stored = w.stored

namespace World

theorem kept_refl (w : World) : w.Kept w := ⟨w.jzqList.grows_refl, rfl, rfl, rfl, rfl⟩

instance : IsPreorder World Kept where
  refl := kept_refl
  trans _ _ _ h h' := {
    jzqList := h.jzqList.trans h'.jzqList
    tick := h'.tick.trans h.tick
    cmdMap := h'.cmdMap.trans h.cmdMap
    notified := h'.notified.trans h.notified
    stored := h'.stored.trans h.stored }

theorem kept_jzqList {w : World} {jzqList : JzqList} (h : w.jzqList.Grows jzqList) :
    w.Kept { w with jzqList := jzqList } := ⟨h, rfl, rfl, rfl, rfl⟩

end World

section
variable (w : World)

theorem moves_new (pkg : AFNPackage) : Moves World.Kept w (new pkg) := by
  intro a w' he
  cases he
  exact ⟨w.jzqList.grows_refl, rfl, rfl, rfl, rfl⟩

theorem moves_delete (p : PkgPtr) : Moves World.Kept w (delete p) := by
  intro a w' he
  obtain ⟨heap, -, rfl⟩ := delete_inv he
  exact ⟨w.jzqList.grows_refl, rfl, rfl, rfl, rfl⟩

theorem moves_liftAcc {α : Type} (x : Acc α) : Moves World.Kept w (liftAcc x) := by
  intro a w' he
  rw [(liftAcc_inv he).2]
  exact World.kept_refl w

theorem moves_clearPkgList : ∀ (lst : List PkgPtr) (w : World), Moves World.Kept w (clearPkgList lst) := by
  intro lst
  induction lst with
  | nil => exact fun w => moves_pure []
  | cons p lst ih => exact fun w => (moves_delete w p).bind fun _ w' _ => ih w'

theorem moves_sendPkg (p : PkgPtr) : Moves World.Kept w (sendPkg p) := by
  intro ret w' he
  obtain ⟨sent, rfl⟩ := sendPkg_inv he
  exact ⟨w.jzqList.grows_refl, rfl, rfl, rfl, rfl⟩

theorem moves_sendPkgs : ∀ (pkgLst : List PkgPtr) (ret : Int) (w : World),
    Moves World.Kept w (sendPkgs pkgLst ret) := by
  intro pkgLst
  induction pkgLst with
  | nil => exact fun ret w => moves_pure ret
  | cons p pkgLst ih => exact fun ret w => (moves_sendPkg w p).bind fun _ w' _ => ih _ w'

theorem moves_createAck (p : PkgPtr) (data : Option PkgAfnData) : Moves World.Kept w (createAck p data) := by
  intro ack w' he
  obtain ⟨-, rfl⟩ := (ends_createAck w p.pkg p.addr rfl).inj he
  exact ⟨w.jzqList.grows_getRSEQ _ _, rfl, rfl, rfl, rfl⟩

theorem moves_handleRequest (reqLst ackLst : List PkgPtr) :
    Moves World.Kept w (AFN02.handleRequest reqLst ackLst) := by
  cases reqLst with
  | nil => exact moves_pure _
  | cons p reqLst =>
    refine moves_ite (fun _ => ?_) fun _ => moves_pure _
    refine (moves_modify (World.kept_jzqList (w.jzqList.grows_report w.tick _ _ _ _))).bind fun _ w' _ => ?_
    refine moves_ite (fun _ => moves_pure _) fun _ => ?_
    refine (moves_liftAcc w' _).bind fun d w₁ _ => ?_
    exact (moves_createAck w₁ p _).bind fun _ _ _ => moves_pure _

theorem moves_handlePkg (reqLst : List PkgPtr) :
    Moves World.Kept w (AFNPackageBuilder.Instance.handlePkg reqLst []) := by
  have hlog : w.Kept { w with handled := w.handled ++ [reqLst] } := ⟨w.jzqList.grows_refl, rfl, rfl, rfl, rfl⟩
  refine (moves_modify hlog).bind fun _ w' _ => ?_
  cases reqLst with
  | nil => exact moves_pure _
  | cons p rest =>
    refine moves_ite (fun _ => ?_) fun _ => moves_pure _
    simp only [PackageBuilder.doHandleRequest, AFNPackageBuilder.Instance, handlerMap_eq]
    refine moves_ite (fun _ => moves_handleRequest w' _ _) fun _ => ?_
    exact (moves_createAck w' p none).bind fun _ _ _ => moves_pure _

theorem moves_handleList (reqLst : List PkgPtr) : Moves World.Kept w (ConnectionPower.handleList reqLst) := by
  refine (moves_handlePkg w reqLst).bind fun r w' _ => ?_
  refine moves_ite (fun _ => ?_) fun _ => moves_pure _
  exact (moves_sendPkgs r.2 YQER_OK w').bind fun _ w₁ _ => (moves_clearPkgList r.2 w₁).bind fun _ _ _ => moves_pure _

/-- **However a package is handled, the records stay in their places, and no call and no data base hears of
it.** -/
theorem moves_receive (con : ConnectionPower) (pkg : AFNPackage) : Moves World.Kept w (con.receive pkg) := by
  refine (moves_new w pkg).bind fun p w₁ _ => ?_
  have hlog : w₁.Kept { w₁ with received := w₁.received ++ [p] } := ⟨w₁.jzqList.grows_refl, rfl, rfl, rfl, rfl⟩
  refine (moves_modify hlog).bind fun _ w₂ _ => ?_
  refine moves_ite (fun _ => ?_) fun _ => moves_ite (fun _ => ?_) fun _ => moves_ite (fun _ => ?_) fun _ => moves_pure _
  · exact (moves_handleList w₂ [p]).bind fun _ w₃ _ => (moves_delete w₃ p).bind fun _ _ _ => moves_pure _
  · refine (moves_clearPkgList _ w₂).bind fun lst w₃ _ => (moves_handleList w₃ _).bind fun _ w₄ _ => ?_
    exact (moves_clearPkgList _ w₄).bind fun _ w₅ _ => (moves_delete w₅ p).bind fun _ _ _ => moves_pure _
  · refine moves_ite (fun _ => moves_pure _) fun _ => (moves_handleList w₂ _).bind fun _ w₄ _ => ?_
    exact (moves_clearPkgList _ w₄).bind fun _ w₅ _ => (moves_delete w₅ p).bind fun _ _ _ => moves_pure _

end

end Afn
