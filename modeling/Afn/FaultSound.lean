import Afn.OwnershipSound
import Afn.PollingSound
import Mathlib.Data.List.Flatten

/-!
# What makes the server fault

The frames kept on all connections are different live objects, so that calls and collections can delete them.
The only step that faults is a frame which is the first or the last one of a message of several frames.
-/

namespace Afn

open Bytes Access Effect AFNPackage AFNPackageBuilder

/-! ## One frame -/

namespace ConnectionPower

section
variable {self con : ConnectionPower} {w w' : World} {ret : Int}

theorem whole_of_receive {pkg : AFNPackage} (h : Ends (self.receive pkg) w (con, ret) w') : WholeFrame pkg := by
  refine Decidable.byContradiction fun hbad => ?_
  unfold receive handlePackage at h
  obtain ⟨p, w₁, hnew, h⟩ := h.of_bind
  obtain ⟨_, w₂, -, h⟩ := h.of_bind
  cases hnew
  cases not_whole_cases hbad with
  | inl hf =>
    simp only [hf.1, hf.2, Nat.zero_ne_one, false_and, and_self, if_false, if_true] at h
    obtain ⟨l, w₃, -, h⟩ := h.of_bind
    obtain ⟨_, w₄, -, h⟩ := h.of_bind
    obtain ⟨_, w₅, -, h⟩ := h.of_bind
    exact not_ends_cleared (List.mem_append_right _ (List.mem_singleton_self _)) _ h
  | inr hl =>
    simp only [hl.1, hl.2, Nat.zero_ne_one, Nat.one_ne_zero, and_false, if_false, if_true] at h
    obtain ⟨_, w₃, -, h⟩ := h.of_bind
    obtain ⟨_, w₄, -, h⟩ := h.of_bind
    exact not_ends_cleared (List.mem_append_right _ (List.mem_singleton_self _)) _ h

def Asked (p : AFNPackage) : Prop := p.isRequest = true ∧ Single p ∧ Answers p

/-- A frame has been received without a fault: no object from before is deleted, it is kept or not, and the reply
is written if it is asked for. -/
structure Took (old : ConnectionPower) (w : World) (pkg : AFNPackage) (con : ConnectionPower) (w' : World) : Prop where
  live : ∀ a, w.heap.Live a → w'.heap.Live a
  kept : con.m_pkgList = old.m_pkgList ∨
    con.m_pkgList = old.m_pkgList ++ [ptr w pkg] ∧ w'.heap.Live w.heap.next
  asked : Asked pkg → ∃ bs, w'.sent = w.sent ++ [bs] ∧ Confirms pkg bs
  silent : ¬ Asked pkg → w'.sent = w.sent

theorem ends_receive_whole (self : ConnectionPower) (w : World) {pkg : AFNPackage} {d : PkgAfnData}
    (hd : pkg.pAfn.pAfnData = some d) (h : WholeFrame pkg) :
    ∃ con w', Ends (self.receive pkg) w (con, YQER_OK) w' ∧ Took self w pkg con w' := by
  cases whole_cases h with
  | inl hs =>
    cases hreq : pkg.isRequest with
    | true =>
      obtain ⟨w₁, hh, hserved, hyes, hno⟩ := ends_handleList_request (arrived w pkg) (ptr w pkg) [] hd hreq
      obtain ⟨con, heap, hr, hlst, hlive⟩ := ends_receive_single self hs hh hserved
      exact ⟨con, _, hr, hlive, .inl hlst, fun ha => hyes ha.2.2, fun hna => hno fun ha => hna ⟨hreq, hs, ha⟩⟩
    | false =>
      have hh := ends_handleList_response (arrived w pkg) (ptr w pkg) [] hreq
      obtain ⟨con, heap, hr, hlst, hlive⟩ := ends_receive_single self hs hh ⟨rfl, rfl, rfl, fun _ => id⟩
      exact ⟨con, _, hr, hlive, .inl hlst, fun ha => absurd (hreq.symm.trans ha.1) Bool.false_ne_true, fun _ => rfl⟩
  | inr hm =>
    have hlst := m_pkgList_addressed self pkg.userHeader
    have hns : ¬ Asked pkg := fun ha => absurd (hm.1.symm.trans ha.2.1.2) (by decide)
    refine ⟨{ self.addressed pkg.userHeader with m_pkgList := self.m_pkgList ++ [ptr w pkg] },
      arrived w pkg, ?_, fun a ha => ha.alloc, .inr ⟨rfl, Heap.live_alloc w.heap⟩, fun ha => absurd ha hns,
      fun _ => rfl⟩
    unfold addressed at hlst
    unfold receive handlePackage
    refine (ends_new pkg w).bind ((ends_modify _ _).bind ?_)
    simp only [hm.1, hm.2, Nat.zero_ne_one, and_false, if_false, if_true, hlst]
    exact ends_pure _ _

end

end ConnectionPower

/-! ## Requests -/

section
variable {w w' : World} {m_jzq : UInt16 × UInt16}

theorem live_requestData {afnData : PkgAfn} {n : Nat} {d : PkgAfnData} {r : PkgPtr × Int × AppCall}
    (h : Ends (requestData m_jzq afnData n) w r w') (hd : afnData.pAfnData = some d) :
    ∀ a, w.heap.Live a → w'.heap.Live a := by
  unfold requestData at h
  obtain ⟨snd, w₁, hmake, h⟩ := h.of_bind
  obtain ⟨rfl, rfl⟩ := (ends_makeRequest w m_jzq afnData n hd).inj hmake
  obtain ⟨ret, w₂, hsnd, h⟩ := h.of_bind
  obtain ⟨sent, rfl⟩ := sendPkg_inv hsnd
  obtain ⟨d', w₃, hderef, h⟩ := h.of_bind
  rw [(liftAcc_inv hderef).2] at h
  obtain ⟨_, w₄, hdel, h⟩ := h.of_bind
  obtain ⟨heap, hfree, rfl⟩ := delete_inv hdel
  cases h
  obtain ⟨hl, -, hkept⟩ := Heap.free_eq hfree
  obtain ⟨heap', hfree', hkeep, -⟩ := Heap.free_live hl
  cases hfree.symm.trans hfree'
  exact fun a ha => hkeep a ha.alloc ha.ne_next

theorem ends_requestAll (m_jzq : UInt16 × UInt16) (tag : PkgAfnDataTag) :
    ∀ (eleLst : List Element) (ret : Int) (w : World), ∃ as w',
      Ends (requestAll m_jzq tag eleLst ret) w as w' ∧ ∀ a, w.heap.Live a → w'.heap.Live a := by
  intro eleLst
  induction eleLst with
  | nil => exact fun ret w => ⟨ret, w, ends_pure _ _, fun _ => id⟩
  | cons ele eleLst ih =>
    intro ret w
    obtain ⟨w₁, hreq⟩ := ends_requestData w m_jzq (AFN0C.createAllKwh w.mem.pAfn tag (UInt16.ofInt ele.pn)) 10 rfl
      (plainAux_create w.mem.pAfn tag _ 33) (create_fits w.mem.pAfn tag (.getallkwh (UInt16.ofInt ele.pn)))
    obtain ⟨as, w', hrest, hlive⟩ := ih 0 w₁
    exact ⟨as, w', (ends_get w).bind (hreq.bind hrest), fun a ha => hlive a (live_requestData hreq rfl a ha)⟩

end

/-! ## All connections -/

namespace Hub

def kept (s : Hub) : List Nat := s.list.flatMap fun c => c.con.m_pkgList.map PkgPtr.addr

/-- The frames kept on all connections are different objects that are alive; no `bufferevent` has two connections. -/
structure Owned (s : Hub) : Prop where
  bevs : (s.list.map Connection.bev).Nodup
  nodup : s.kept.Nodup
  live : ∀ a ∈ s.kept, s.world.heap.Live a

theorem owned_start (world : World) : (start world).Owned :=
  ⟨List.nodup_nil, List.nodup_nil, List.forall_mem_nil _⟩

section
variable {s s' : Hub}

theorem update_split {bev : Nat} {c : Connection} : ∀ {l : List Connection}, l.find? (·.bev == bev) = some c →
    c.bev = bev ∧ ∃ before after, l = before ++ c :: after ∧ ∀ f, update bev f l = before ++ f c :: after := by
  intro l
  induction l with
  | nil => exact fun h => nomatch h
  | cons k ks ih =>
    intro h
    rw [List.find?_cons] at h
    cases hk : k.bev == bev with
    | true =>
      rw [hk] at h
      cases h
      exact ⟨beq_iff_eq.mp hk, [], ks, rfl, fun f => by simp only [update, hk, if_true, List.nil_append]⟩
    | false =>
      rw [hk] at h
      obtain ⟨hbev, before, after, rfl, hf⟩ := ih h
      refine ⟨hbev, k :: before, after, rfl, fun f => ?_⟩
      simp only [update, hk, Bool.false_eq_true, if_false, hf, List.cons_append]

theorem Owned.update {bev : Nat} {c : Connection} (h : s.Owned) (hc : s.getConnection bev = some c)
    (f : Connection → Connection) (hlist : s'.list = Hub.update bev f s.list) (hbev : (f c).bev = c.bev)
    (hnodup : ((f c).con.m_pkgList.map PkgPtr.addr).Nodup)
    (hnew : ∀ a ∈ (f c).con.m_pkgList.map PkgPtr.addr, (a ∈ c.con.m_pkgList.map PkgPtr.addr ∨ a ∉ s.kept) ∧
      s'.world.heap.Live a)
    (hrest : ∀ a, s.world.heap.Live a → a ∉ c.con.m_pkgList.map PkgPtr.addr → s'.world.heap.Live a) : s'.Owned := by
  obtain ⟨-, before, after, hsplit, hupdate⟩ := update_split hc
  have hkept : s.kept = (before.flatMap fun c => c.con.m_pkgList.map PkgPtr.addr) ++
      (c.con.m_pkgList.map PkgPtr.addr ++ after.flatMap fun c => c.con.m_pkgList.map PkgPtr.addr) := by
    rw [kept, hsplit, List.flatMap_append, List.flatMap_cons]
  have hkept' : s'.kept = (before.flatMap fun c => c.con.m_pkgList.map PkgPtr.addr) ++
      ((f c).con.m_pkgList.map PkgPtr.addr ++ after.flatMap fun c => c.con.m_pkgList.map PkgPtr.addr) := by
    rw [kept, hlist, hupdate, List.flatMap_append, List.flatMap_cons]
  have hn := h.nodup
  have hl := h.live
  rw [hkept] at hn hl hnew
  generalize (before.flatMap fun c => c.con.m_pkgList.map PkgPtr.addr) = A at *
  generalize (after.flatMap fun c => c.con.m_pkgList.map PkgPtr.addr) = B at *
  generalize c.con.m_pkgList.map PkgPtr.addr = M at *
  generalize (f c).con.m_pkgList.map PkgPtr.addr = M' at *
  refine ⟨?_, ?_, ?_⟩
  · rw [hlist, hupdate, List.map_append, List.map_cons, hbev, ← List.map_cons, ← List.map_append, ← hsplit]
    exact h.bevs
  · rw [hkept']
    rw [List.nodup_append, List.nodup_append] at hn ⊢
    obtain ⟨hA, ⟨-, hB, hMB⟩, hAMB⟩ := hn
    refine ⟨hA, ⟨hnodup, hB, fun a ha b hb => ?_⟩, fun a ha b hb => ?_⟩
    · rcases (hnew a ha).1 with hM | hout
      · exact hMB a hM b hb
      · exact fun heq => hout (by simp [heq, hb])
    · rcases List.mem_append.mp hb with hb | hb
      · rcases (hnew b hb).1 with hM | hout
        · exact hAMB a ha b (List.mem_append_left _ hM)
        · exact fun heq => hout (by simp [← heq, ha])
      · exact hAMB a ha b (List.mem_append_right _ hb)
  · rw [hkept']
    rw [List.nodup_append, List.nodup_append] at hn
    obtain ⟨-, ⟨-, -, hMB⟩, hAMB⟩ := hn
    intro a ha
    rcases List.mem_append.mp ha with ha | ha
    · exact hrest a (hl a (by simp [ha])) fun hM => hAMB a ha a (List.mem_append_left _ hM) rfl
    rcases List.mem_append.mp ha with ha | ha
    · exact (hnew a ha).2
    · exact hrest a (hl a (by simp [ha])) fun hM => hMB a hM a ha rfl

theorem mem_kept {c : Connection} (hc : c ∈ s.list) {a : Nat} (ha : a ∈ c.con.m_pkgList.map PkgPtr.addr) :
    a ∈ s.kept := List.mem_flatMap.mpr ⟨c, hc, ha⟩

section
variable (h : s.Owned)
include h

theorem Owned.con_nodup {c : Connection} (hc : c ∈ s.list) : (c.con.m_pkgList.map PkgPtr.addr).Nodup := by
  obtain ⟨before, after, hsplit⟩ := List.append_of_mem hc
  have hn := h.nodup
  rw [kept, hsplit, List.flatMap_append, List.flatMap_cons] at hn
  exact (List.nodup_append.mp (List.nodup_append.mp hn).2.1).1

theorem Owned.getConnection_of_mem {c : Connection} (hc : c ∈ s.list) : s.getConnection c.bev = some c := by
  obtain ⟨before, after, hsplit⟩ := List.append_of_mem hc
  have hbevs := h.bevs
  rw [hsplit, List.map_append, List.map_cons, List.nodup_append] at hbevs
  refine List.find?_eq_some_iff_append.mpr ⟨beq_self_eq_true _, before, after, hsplit, fun k hk => ?_⟩
  have hne := hbevs.2.2 k.bev (List.mem_map_of_mem hk) c.bev (List.mem_cons_self ..)
  simp [hne]

theorem Owned.accept {bev : Nat} (m_jzq : UInt16 × UInt16) (hbev : s.getConnection bev = none) :
    (s.newJzqConnection bev m_jzq).Owned := by
  have hkept : (s.newJzqConnection bev m_jzq).kept = s.kept := by
    simp [kept, newJzqConnection, List.flatMap_append]
  refine ⟨?_, hkept ▸ h.nodup, hkept ▸ h.live⟩
  rw [newJzqConnection, List.map_append, List.nodup_append]
  refine ⟨h.bevs, List.pairwise_singleton _ _, fun b hb b' hb' => ?_⟩
  obtain ⟨c, hc, rfl⟩ := List.mem_map.mp hb
  have hno := List.find?_eq_none.mp hbev c hc
  rw [List.map_singleton, List.mem_singleton] at hb'
  rw [hb']
  exact fun heq => hno (beq_iff_eq.mpr heq)

theorem Owned.close (bev : Nat) : (s.delConnection bev).Owned := by
  unfold delConnection
  split
  next c hc =>
    have hsub : List.Sublist (s.list.eraseP (·.bev == bev)) s.list := List.eraseP_sublist
    have hkept := hsub.flatMap fun c => c.con.m_pkgList.map PkgPtr.addr
    exact ⟨h.bevs.sublist (hsub.map _), h.nodup.sublist hkept, fun a ha => h.live a (hkept.subset ha)⟩
  next => exact h

theorem Owned.frame {bev : Nat} {c : Connection} {p : RecPkg} (hc : s.getConnection bev = some c)
    (hp : ConnectionPower.WholeFrame p.pkg) : ∃ s', s.step (.frame bev p) = some s' ∧ s'.Owned := by
  obtain ⟨d, hd⟩ := p.unit
  obtain ⟨con, w, hr, htook⟩ := c.con.ends_receive_whole s.world hd hp
  have hlive := htook.live
  have hcon := htook.kept
  have hstep : s.step (.frame bev p) = some ⟨s.received bev con p.pkg, w, s.now + 1⟩ := by
    unfold Ends at hr
    simp only [step, hc, hr]
  have hmem := List.mem_of_find?_eq_some hc
  have hold : ∀ a ∈ c.con.m_pkgList.map PkgPtr.addr, w.heap.Live a :=
    fun a ha => hlive a (h.live a (mem_kept hmem ha))
  refine ⟨_, hstep, h.update hc _ rfl rfl ?_ ?_ fun a ha _ => hlive a ha⟩
  · rcases hcon with heq | ⟨heq, -⟩
    · rw [heq]
      exact h.con_nodup hmem
    · rw [heq, List.map_append, List.nodup_append]
      refine ⟨h.con_nodup hmem, List.pairwise_singleton _ _, fun a ha b hb => ?_⟩
      rw [List.map_singleton, List.mem_singleton] at hb
      rw [hb]
      exact (h.live a (mem_kept hmem ha)).ne_next
  · intro a ha
    rcases hcon with heq | ⟨heq, hnew⟩
    · rw [heq] at ha
      exact ⟨.inl ha, hold a ha⟩
    · rw [heq, List.map_append, List.mem_append, List.map_singleton, List.mem_singleton] at ha
      rcases ha with ha | rfl
      · exact ⟨.inl ha, hold a ha⟩
      · exact ⟨.inr fun hin => (h.live _ hin).ne_next rfl, hnew⟩

/-- The lock never faults: it deletes what one connection keeps, and nothing of the others. -/
theorem Owned.lock {α : Type} (name : String) {body : UInt16 × UInt16 → Srv α}
    (hbody : ∀ m_jzq w, ∃ a w', Ends (body m_jzq) w a w' ∧ ∀ b, w.heap.Live b → w'.heap.Live b) :
    ∃ s' r, s.lockConnection name body = some (s', r) ∧ s'.Owned := by
  unfold lockConnection
  cases hc : s.getJzqConnectionNamed name with
  | none => exact ⟨s, none, rfl, h⟩
  | some c =>
    have hmem : c ∈ s.list := by
      rw [getJzqConnectionNamed_eq] at hc
      obtain ⟨a, -, hc⟩ := Option.bind_eq_some_iff.mp hc
      exact List.mem_of_find?_eq_some hc
    obtain ⟨heap, hclear, hkeep, -⟩ := ConnectionPower.ends_clearPkgList c.con.m_pkgList s.world
      (h.con_nodup hmem) fun p hp => h.live _ (mem_kept hmem (List.mem_map_of_mem hp))
    obtain ⟨a, w', hb, hlive⟩ := hbody c.con.m_jzq { s.world with heap := heap }
    have hcon : Ends c.con.clearRecPkgList s.world ⟨c.con.m_jzq, []⟩ { s.world with heap := heap } :=
      hclear.bind (ends_pure _ _)
    have hlocked : Ends (do
        let con ← c.con.clearRecPkgList
        let a ← body con.m_jzq
        return (con, a)) s.world (⟨c.con.m_jzq, []⟩, a) w' := hcon.bind (hb.bind (ends_pure _ _))
    unfold Ends at hlocked
    simp only [hlocked]
    refine ⟨_, _, rfl, h.update (h.getConnection_of_mem hmem) _ rfl rfl List.nodup_nil (List.forall_mem_nil _) ?_⟩
    exact fun a ha hno => hlive a (hkeep a ha hno)

theorem Owned.call (tag : PkgAfnDataTag) (name : String) (a : Api) :
    ∃ r, a.call s tag name = some r ∧ r.1.Owned := by
  rw [Api.call_eq, request]
  have hbody : ∀ (m_jzq : UInt16 × UInt16) (w : World), ∃ r w',
      Ends (requestData m_jzq (a.afnData s.world.mem.pAfn tag) a.FUN) w r w' ∧
        ∀ b, w.heap.Live b → w'.heap.Live b := by
    intro m_jzq w
    obtain ⟨w', hreq⟩ := ends_requestData w m_jzq (a.afnData s.world.mem.pAfn tag) a.FUN rfl
      (plainAux_create s.world.mem.pAfn tag a.pn a.Fn) (create_fits s.world.mem.pAfn tag a)
    exact ⟨_, w', hreq, live_requestData hreq rfl⟩
  obtain ⟨s', r, hlock, hs'⟩ := h.lock name hbody
  rw [hlock]
  refine ⟨_, rfl, ?_⟩
  cases r with
  | none => exact hs'
  | some r => exact hs'

theorem Owned.getallkwhAsync (tag : PkgAfnDataTag) (pJzq : Jzq) :
    ∃ r, s.getallkwhAsync tag pJzq = some r ∧ r.1.Owned := by
  obtain ⟨s', r, hlock, hs'⟩ := h.lock pJzq.m_name fun m_jzq w => ends_requestAll m_jzq tag pJzq.eleLst YQER_OK w
  rw [Hub.getallkwhAsync, hlock]
  refine ⟨_, rfl, ?_⟩
  cases r with
  | none => exact hs'
  | some r => exact hs'

end

end

end Hub

/-! ## Runs -/

namespace Station

/-- The step can be tried: a `bufferevent` in use is not accepted, and the list is loaded again and a collection begun
between two collections. -/
def Possible (s : Station) : Act → Prop
  | .accept bev _ => s.hub.getConnection bev = none
  | .freshjzq _ | .timeout => s.iter = none
  | .visit _ => s.iter ≠ none
  | _ => True

/-- The step is a frame on an open connection that starts or ends a message of several frames. -/
def Broken (s : Station) (act : Act) : Prop :=
  ∃ bev p c, act = .frame bev p ∧ s.hub.getConnection bev = some c ∧ ¬ ConnectionPower.WholeFrame p.pkg

section
variable {s s' : Station} {act : Act}

theorem owned_step (h : s.hub.Owned) (hp : s.Possible act) (hb : ¬ s.Broken act) :
    ∃ s', s.step act = some s' ∧ s'.hub.Owned := by
  cases act with
  | accept bev m_jzq =>
    have hno : s.hub.getConnection bev = none := hp
    refine ⟨s.setHub (s.hub.newJzqConnection bev m_jzq), ?_, h.accept m_jzq hno⟩
    simp [step, Hub.step, hno]
  | frame bev p =>
    cases hc : s.hub.getConnection bev with
    | none => exact ⟨s.setHub s.hub, by simp [step, Hub.step, hc], h⟩
    | some c =>
      have hwhole : ConnectionPower.WholeFrame p.pkg :=
        Decidable.byContradiction fun hbad => hb ⟨bev, p, c, rfl, hc, hbad⟩
      obtain ⟨hub, hstep, hown⟩ := h.frame hc hwhole
      exact ⟨s.setHub hub, by rw [step, hstep, Option.map_some], hown⟩
  | close bev => exact ⟨_, rfl, h.close bev⟩
  | call tag name a =>
    obtain ⟨r, hr, hown⟩ := h.call tag name a
    exact ⟨s.setHub r.1, by rw [step, hr, Option.map_some], hown⟩
  | freshjzq db =>
    have hi : s.iter = none := hp
    exact ⟨_, if_pos hi, h.bevs, h.nodup, h.live⟩
  | checkConnection => exact ⟨_, rfl, h.bevs, h.nodup, h.live⟩
  | wait ms => exact ⟨_, rfl, h.bevs, h.nodup, h.live⟩
  | timeout =>
    have hi : s.iter = none := hp
    exact ⟨{ s with iter := some 0 }, if_pos hi, h⟩
  | visit tag =>
    obtain ⟨i, hi⟩ := Option.ne_none_iff_exists'.mp hp
    cases hj : s.hub.world.jzqList.m_jzqList[i]? with
    | none => exact ⟨{ s with iter := none }, by simp only [step, hi, hj], h⟩
    | some pJzq =>
      simp only [step, hi, hj, visitAt]
      split
      next =>
        have hown : Hub.Owned { s.hub with world := { s.hub.world with
            jzqList := s.hub.world.jzqList.startGetTimer s.hub.world.tick i } } := ⟨h.bevs, h.nodup, h.live⟩
        obtain ⟨⟨hub, ret, found⟩, hr, hown'⟩ := hown.getallkwhAsync tag pJzq
        rw [hr]
        exact ⟨_, rfl, hown'⟩
      next => exact ⟨_, rfl, h⟩

theorem possible_of_step (hs : s.step act = some s') : s.Possible act := by
  cases act with
  | accept bev m_jzq =>
    simp only [step, Hub.step] at hs
    split at hs
    next => cases hs
    next hno => exact Option.not_isSome_iff_eq_none.mp hno
  | freshjzq db =>
    simp only [step] at hs
    split at hs
    next hi => exact hi
    next => cases hs
  | timeout =>
    simp only [step] at hs
    split at hs
    next hi => exact hi
    next => cases hs
  | visit tag =>
    intro hi
    simp only [step, hi] at hs
    cases hs
  | _ => trivial

theorem stops_of_broken (hb : s.Broken act) : s.step act = none := by
  obtain ⟨bev, p, c, rfl, hc, hbad⟩ := hb
  rw [step, Option.map_eq_none_iff]
  unfold Hub.step
  simp only [hc]
  split
  next r w hr => exact absurd (ConnectionPower.whole_of_receive hr) hbad
  next => rfl

theorem owned_of_step (h : s.hub.Owned) (hs : s.step act = some s') : s'.hub.Owned := by
  have hb : ¬ s.Broken act := fun hb => nomatch hs.symm.trans (stops_of_broken hb)
  obtain ⟨t, ht, hown⟩ := owned_step h (possible_of_step hs) hb
  cases hs.symm.trans ht
  exact hown

end

/-- **In every state that the server reaches, it faults only on the first or last frame of a message of several
frames**, and the frames kept on all connections are different live objects. Calls and collections do not fault,
whatever the connections keep. -/
theorem faults_throughout (world : World) (time : Nat) (acts : List Act) :
    Run.Throughout step (fun s => s.hub.Owned ∧ ∀ act, s.Possible act → (s.step act = none ↔ s.Broken act))
      (start world time) acts := by
  refine Run.throughout_of (I := fun s => s.hub.Owned) ?_ (fun hI hs => owned_of_step hI hs) (Hub.owned_start _)
  intro s hI
  refine ⟨hI, fun act hp => ⟨fun hnone => ?_, stops_of_broken⟩⟩
  apply Classical.byContradiction
  intro hb
  obtain ⟨s', hs', -⟩ := owned_step hI hp hb
  exact nomatch hnone.symm.trans hs'

end Station

end Afn
