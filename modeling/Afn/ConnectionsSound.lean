import Afn.Connections
import Afn.JzqSound

/-!
# Connections and their concentrators

A connection knows its concentrator by `m_jzq`, which is indeterminate until the first frame and may be that
of another connection. So a close may log out a concentrator that the connection never heard from or that has
come back on another one, and a request goes to the first connection in the list, not to the latest.
-/

namespace Afn

open Bytes Access Effect AFNPackage

/-! ## The record that a close changes -/

namespace JzqList

section
variable {l : List Jzq} {a n : UInt16} {f : Jzq → Jzq}

theorem getElem?_modifyFirst : ∀ {l : List Jzq} {i : Nat} {p p' : Jzq}, l[i]? = some p →
    (modifyFirst a n f l)[i]? = some p' → p' = p ∨ l.find? (at? a n) = some p ∧ p' = f p := by
  intro l
  induction l with
  | nil => exact fun hp => nomatch hp
  | cons q qs ih =>
    intro i p p' hp hp'
    simp only [modifyFirst, List.find?_cons] at hp' ⊢
    cases hq : at? a n q with
    | true =>
      simp only [hq, if_true] at hp'
      cases i with
      | zero =>
        cases hp
        cases hp'
        exact .inr ⟨rfl, rfl⟩
      | succ i =>
        rw [List.getElem?_cons_succ] at hp hp'
        rw [hp] at hp'
        cases hp'
        exact .inl rfl
    | false =>
      simp only [hq, Bool.false_eq_true, if_false] at hp'
      cases i with
      | zero =>
        cases hp
        cases hp'
        exact .inl rfl
      | succ i =>
        rw [List.getElem?_cons_succ] at hp hp'
        exact ih hp hp'

theorem getElem?_of_find : ∀ {l : List Jzq} {p : Jzq}, l.find? (at? a n) = some p →
    ∃ i : Nat, l[i]? = some p ∧ (modifyFirst a n f l)[i]? = some (f p) := by
  intro l
  induction l with
  | nil => exact fun hp => nomatch hp
  | cons q qs ih =>
    intro p hp
    rw [List.find?_cons] at hp
    cases hq : at? a n q with
    | true =>
      rw [hq] at hp
      cases hp
      exact ⟨0, rfl, by simp only [modifyFirst, hq, if_true, List.getElem?_cons_zero]⟩
    | false =>
      rw [hq] at hp
      obtain ⟨i, hi, hi'⟩ := ih hp
      refine ⟨i + 1, hi, ?_⟩
      simp only [modifyFirst, hq, Bool.false_eq_true, if_false, List.getElem?_cons_succ]
      exact hi'

end

section
variable {l : JzqList} {tick : UInt32} {a n : UInt16} {p : Jzq}

theorem getElem?_del {i : Nat} {p' : Jzq} (hp : l.m_jzqList[i]? = some p)
    (hp' : (l.delConnection tick a n).m_jzqList[i]? = some p') :
    p' = p ∨ l.getJzq a n = some p ∧ p' = p.loginState tick 2 0 := by
  unfold delConnection at hp'
  cases hg : l.getJzq a n with
  | none =>
    simp only [hg] at hp'
    rw [hp] at hp'
    cases hp'
    exact .inl rfl
  | some q =>
    simp only [hg] at hp'
    rw [← hg]
    exact getElem?_modifyFirst hp hp'

variable (tick) in
theorem getElem?_del_of_getJzq (hp : l.getJzq a n = some p) : ∃ i : Nat, l.m_jzqList[i]? = some p ∧
    (l.delConnection tick a n).m_jzqList[i]? = some (p.loginState tick 2 0) := by
  unfold delConnection
  simp only [hp]
  exact getElem?_of_find hp

theorem address_of_getJzq (hp : l.getJzq a n = some p) : p.m_areacode = a ∧ p.m_number = n := by
  have hat := List.find?_some hp
  simp only [at?, Bool.and_eq_true, beq_iff_eq] at hat
  exact hat

end

end JzqList

/-! ## What a connection has heard -/

namespace Connection

def heard (c : Connection) : Option (Nat × UInt16 × UInt16) :=
  (c.log.find? fun e => decide (e.2.userHeader.TAG = 0)).map fun e =>
    (e.1, e.2.userHeader.A1, e.2.userHeader.A2)

/-- `m_jzq` is the address heard last, or what it was at first. -/
def Synced (c : Connection) : Prop :=
  c.con.m_jzq = match c.heard with | some h => h.2 | none => c.opened

theorem Synced.receive {c : Connection} (h : c.Synced) {con : ConnectionPower} {pkg : AFNPackage} {w w' : World}
    {ret : Int} (hr : Ends (c.con.receive pkg) w (con, ret) w') (now : Nat) :
    Synced { c with con := con, log := (now, pkg) :: c.log } := by
  have hjzq := ConnectionPower.m_jzq_receive hr
  unfold Synced heard at h ⊢
  simp only [hjzq, ConnectionPower.addressed, List.find?_cons]
  by_cases htag : pkg.userHeader.TAG = 0
  · simp only [htag, decide_true, if_true, Option.map_some]
  · simp only [htag, decide_false, if_false]
    exact h

end Connection

namespace Hub

def AllSynced (s : Hub) : Prop := ∀ c ∈ s.list, c.Synced

theorem allSynced_start (world : World) : (start world).AllSynced := List.forall_mem_nil _

theorem mem_update {bev : Nat} {f : Connection → Connection} {k : Connection} :
    ∀ {l : List Connection}, k ∈ update bev f l → k ∈ l ∨ ∃ c, l.find? (·.bev == bev) = some c ∧ k = f c := by
  intro l
  induction l with
  | nil => exact fun hk => nomatch hk
  | cons c cs ih =>
    intro hk
    simp only [update, List.find?_cons] at hk ⊢
    cases hc : c.bev == bev with
    | true =>
      simp only [hc, if_true] at hk
      rcases List.mem_cons.mp hk with rfl | hk
      · exact .inr ⟨c, rfl, rfl⟩
      · exact .inl (List.mem_cons_of_mem _ hk)
    | false =>
      simp only [hc, Bool.false_eq_true, if_false] at hk
      rcases List.mem_cons.mp hk with rfl | hk
      · exact .inl (List.mem_cons_self ..)
      · exact (ih hk).imp (List.mem_cons_of_mem _) id

theorem AllSynced.step {s s' : Hub} {act : Act} (h : s.AllSynced) (hs : s.step act = some s') : s'.AllSynced := by
  cases act with
  | accept bev m_jzq =>
    simp only [Hub.step] at hs
    split at hs
    · cases hs
    · cases hs
      intro c hc
      rcases List.mem_append.mp hc with hc | hc
      · exact h c hc
      · rw [List.mem_singleton.mp hc]
        rfl
  | frame bev p =>
    simp only [Hub.step] at hs
    split at hs
    next c hc =>
      split at hs
      next r w hr =>
        cases hs
        intro k hk
        rcases mem_update hk with hk | ⟨c', hc', rfl⟩
        · exact h k hk
        · have hsame : some c = some c' := hc.symm.trans hc'
          cases hsame
          exact (h c (List.mem_of_find?_eq_some hc)).receive hr s.now
      next => cases hs
    next =>
      cases hs
      exact h
  | close bev =>
    cases hs
    unfold delConnection
    cases s.getConnection bev with
    | none => exact h
    | some c => exact fun k hk => h k (List.mem_of_mem_eraseP hk)
  | clock tick =>
    cases hs
    exact h

/-! ## Closing -/

-- the packages by which `AFN02` is told of a login (1) or a heartbeat (3)
def SignOfLife (p : AFNPackage) : Prop :=
  p.isRequest = true ∧ p.getCode = 2 ∧ p.userHeader.FUN = 9 ∧ p.pn = 0 ∧ (p.Fn = 1 ∨ p.Fn = 3)

instance (p : AFNPackage) : Decidable (SignOfLife p) := inferInstanceAs (Decidable (_ ∧ _ ∧ _ ∧ _ ∧ _))

/-- Another connection has received a login or a heartbeat of the address after all frames of `c`. -/
def Superseded (s : Hub) (c : Connection) (a n : UInt16) : Prop :=
  ∃ k ∈ s.list, k.bev ≠ c.bev ∧ ∃ e ∈ k.log, SignOfLife e.2 ∧ e.2.userHeader.A1 = a ∧ e.2.userHeader.A2 = n ∧
    ∀ f ∈ c.log, f.1 < e.1

/-- A concentrator logged out by a close is the one that the connection heard from last, and it has not come
back since. -/
def ClosesOwn (s : Hub) (act : Act) (s' : Hub) : Prop :=
  ∀ bev c, act = .close bev → s.getConnection bev = some c → ∀ (i : Nat) p p',
    s.world.jzqList.m_jzqList[i]? = some p → s'.world.jzqList.m_jzqList[i]? = some p' →
    p.online = true → p'.online = false →
    (∃ t, c.heard = some (t, p.m_areacode, p.m_number)) ∧ ¬ s.Superseded c p.m_areacode p.m_number

/-- A connection that is closed while a concentrator is online at its `m_jzq` has heard from that one last, and
the concentrator has not come back since. -/
def HeardOrOffline (s : Hub) (act : Act) : Prop :=
  ∀ bev c p, act = .close bev → s.getConnection bev = some c →
    s.world.jzqList.getJzq c.con.m_jzq.1 c.con.m_jzq.2 = some p → p.online = true →
    c.heard.isSome = true ∧ ¬ s.Superseded c c.con.m_jzq.1 c.con.m_jzq.2

section
variable {s s' : Hub} {act : Act}

theorem del_of_close {bev : Nat} {c : Connection} (hc : s.getConnection bev = some c)
    (hs : s.step (.close bev) = some s') : s'.world.jzqList =
      s.world.jzqList.delConnection s.world.tick c.con.m_jzq.1 c.con.m_jzq.2 := by
  cases hs
  simp only [delConnection, hc]

theorem closesOwn_of_heard (hI : s.AllSynced) (hs : s.step act = some s') (h : s.HeardOrOffline act) :
    ClosesOwn s act s' := by
  rintro bev c rfl hc i p p' hp hp' hon hoff
  rw [del_of_close hc hs] at hp'
  rcases JzqList.getElem?_del hp hp' with rfl | ⟨hg, -⟩
  · rw [hon] at hoff
    cases hoff
  · obtain ⟨ha, hn⟩ := JzqList.address_of_getJzq hg
    obtain ⟨hheard, hsup⟩ := h bev c p rfl hc hg hon
    obtain ⟨⟨t, x⟩, ht⟩ := Option.isSome_iff_exists.mp hheard
    have hsync : c.con.m_jzq = _ := hI c (List.mem_of_find?_eq_some hc)
    rw [ht] at hsync
    rw [ha, hn]
    exact ⟨⟨t, by rw [ht, hsync]⟩, hsup⟩

theorem heard_of_closesOwn (hs : s.step act = some s') (h : ClosesOwn s act s') : s.HeardOrOffline act := by
  rintro bev c p rfl hc hg hon
  obtain ⟨ha, hn⟩ := JzqList.address_of_getJzq hg
  obtain ⟨i, hi, hi'⟩ := JzqList.getElem?_del_of_getJzq s.world.tick hg
  rw [← del_of_close hc hs] at hi'
  obtain ⟨⟨t, ht⟩, hsup⟩ := h bev c rfl hc i p _ hi hi' hon (p.offline_logout s.world.tick 0)
  rw [ha, hn] at hsup
  exact ⟨by rw [ht]; rfl, hsup⟩

end

/-- **Closes log out no concentrator but their own exactly when every connection that is closed while the
concentrator at its `m_jzq` is online has heard from it and is not superseded.** -/
theorem closesOwn_iff (world : World) (acts : List Act) :
    Run.Each step ClosesOwn (start world) acts ↔
      Run.Each step (fun s act _ => s.HeardOrOffline act) (start world) acts :=
  Run.each_iff (I := AllSynced) (P := fun s act _ => s.HeardOrOffline act) (Q := ClosesOwn)
    (fun hI hs h => ⟨closesOwn_of_heard hI hs h, hI.step hs⟩)
    (fun _ hs h => heard_of_closesOwn hs h) (allSynced_start world)

-- the login of a concentrator that asks for no confirmation
def quietLogin : Bytes :=
  [0x68, 0x32, 0, 0x32, 0, 0x68, 0xc9, 0, 0x10, 0x4d, 0x04, 0, 0x02, 0x65, 0, 0, 0x01, 0, 0x92, 0x16]

def quietLoginPkg : RecPkg := ⟨frameOf quietLogin, zeros, quietLogin, 20, by decide, rfl⟩

-- the concentrator logs in on a second connection, and the first one is closed
def reconnect : List Act :=
  [.accept 1 (0, 0), .frame 1 quietLoginPkg, .accept 2 (0, 0), .frame 2 quietLoginPkg, .close 1]

theorem reconnect_loggedOut : ¬ Run.Each step ClosesOwn (start ConnectionPower.start) reconnect := by
  intro h
  have h₁ := ((Run.each_cons rfl).mp h).2
  have h₂ := ((Run.each_cons rfl).mp h₁).2
  have h₃ := ((Run.each_cons rfl).mp h₂).2
  have h₄ := ((Run.each_cons rfl).mp h₃).2
  have hclose := ((Run.each_cons rfl).mp h₄).1
  have hlife : SignOfLife quietLoginPkg.pkg := by decide
  obtain ⟨-, hsup⟩ := hclose 1 _ rfl rfl 0 _ _ rfl rfl (by decide) (by decide)
  apply hsup
  exact ⟨_, List.mem_cons_of_mem _ (List.mem_cons_self ..), by decide, _, List.mem_cons_self .., hlife, rfl, rfl,
    by decide⟩

/-! ## Requests -/

def heardFrom (c : Connection) (a n : UInt16) (t : Nat) : Prop := c.heard = some (t, a, n)

/-- The connection found for an address is the open one that heard from it last, of those that have not heard
from another since; none if there is none. -/
def GoesLive (s : Hub) (a n : UInt16) : Prop :=
  match s.getJzqConnection a n with
  | some c => ∃ t, heardFrom c a n t ∧ ∀ k ∈ s.list, ∀ u, heardFrom k a n u → u ≤ t
  | none => ∀ k ∈ s.list, ∀ u, ¬ heardFrom k a n u

-- `m_jzq` is the address: it has been heard from last, or the memory held it before any frame
def Matches (c : Connection) (a n : UInt16) : Prop :=
  (∃ t, heardFrom c a n t) ∨ c.heard = none ∧ c.opened = (a, n)

/-- The first connection at an address has heard from it, and none after it has done so later. -/
def FirstIsLatest (s : Hub) (a n : UInt16) : Prop :=
  ∀ before c after, s.list = before ++ c :: after → Matches c a n → (∀ k ∈ before, ¬ Matches k a n) →
    ∃ t, heardFrom c a n t ∧ ∀ k ∈ after, ∀ u, heardFrom k a n u → u ≤ t

theorem matches_iff {c : Connection} (h : c.Synced) (a n : UInt16) :
    Matches c a n ↔ c.con.m_jzq.1 = a ∧ c.con.m_jzq.2 = n := by
  unfold Connection.Synced at h
  unfold Matches heardFrom
  rw [h]
  cases hh : c.heard with
  | none =>
    simp only [reduceCtorEq, exists_false, true_and, false_or, Prod.ext_iff]
  | some x =>
    obtain ⟨t, a', n'⟩ := x
    simp only [Option.some.injEq, Prod.mk.injEq, reduceCtorEq, false_and, or_false]
    constructor
    · rintro ⟨t', -, ha, hn⟩
      exact ⟨ha, hn⟩
    · rintro ⟨ha, hn⟩
      exact ⟨t, rfl, ha, hn⟩

section
variable {s : Hub} (hI : s.AllSynced) (a n : UInt16)
include hI

theorem found_iff {c : Connection} (hc : c ∈ s.list) :
    (c.con.m_jzq.1 == a && c.con.m_jzq.2 == n) = true ↔ Matches c a n := by
  rw [matches_iff (hI c hc), Bool.and_eq_true, beq_iff_eq, beq_iff_eq]

theorem goesLive_iff : s.GoesLive a n ↔ s.FirstIsLatest a n := by
  unfold GoesLive
  cases hg : s.getJzqConnection a n with
  | none =>
    have hnone : ∀ k ∈ s.list, ¬ Matches k a n := by
      intro k hk hm
      have hfind := List.find?_eq_none.mp hg k hk
      exact hfind ((found_iff hI a n hk).mpr hm)
    constructor
    · intro _ before c after hlist hm
      exact absurd hm (hnone c (by rw [hlist]; exact List.mem_append_right _ (List.mem_cons_self ..)))
    · exact fun _ k hk u hu => hnone k hk (.inl ⟨u, hu⟩)
  | some c =>
    obtain ⟨hfound, before, after, hlist, hbefore⟩ := List.find?_eq_some_iff_append.mp hg
    have hmem : ∀ {k}, k ∈ before → k ∈ s.list := fun hk => by rw [hlist]; exact List.mem_append_left _ hk
    have hc : c ∈ s.list := by rw [hlist]; exact List.mem_append_right _ (List.mem_cons_self ..)
    have hm : Matches c a n := (found_iff hI a n hc).mp hfound
    have hskip : ∀ k ∈ before, ¬ Matches k a n := by
      intro k hk hmk
      have hno := hbefore k hk
      rw [(found_iff hI a n (hmem hk)).mpr hmk] at hno
      cases hno
    constructor
    · rintro ⟨t, ht, hlatest⟩ before' c' after' hlist' hm' hskip'
      have hmem' : ∀ {k}, k ∈ before' ∨ k ∈ c' :: after' → k ∈ s.list :=
        fun hk => by rw [hlist']; exact List.mem_append.mpr hk
      have hfound' : s.getJzqConnection a n = some c' := by
        apply List.find?_eq_some_iff_append.mpr
        refine ⟨(found_iff hI a n (hmem' (.inr (List.mem_cons_self ..)))).mpr hm', before', after', hlist', ?_⟩
        intro k hk
        rw [Bool.not_eq_true', ← Bool.not_eq_true, found_iff hI a n (hmem' (.inl hk))]
        exact hskip' k hk
      rw [hg] at hfound'
      cases hfound'
      exact ⟨t, ht, fun k hk u hu => hlatest k (hmem' (.inr (List.mem_cons_of_mem _ hk))) u hu⟩
    · intro h
      obtain ⟨t, ht, hlatest⟩ := h before c after hlist hm hskip
      refine ⟨t, ht, fun k hk u hu => ?_⟩
      rw [hlist] at hk
      rcases List.mem_append.mp hk with hk | hk
      · exact absurd (.inl ⟨u, hu⟩) (hskip k hk)
      rcases List.mem_cons.mp hk with rfl | hk
      · unfold heardFrom at hu ht
        rw [ht] at hu
        cases hu
        exact Nat.le_refl _
      · exact hlatest k hk u hu

end

/-- **A request goes to the live connection exactly when the first connection at the address has heard from
it, and no other one later**, in every state of every run. -/
theorem goesLive_throughout (world : World) (acts : List Act) :
    Run.Throughout step (fun s => ∀ a n, s.GoesLive a n ↔ s.FirstIsLatest a n) (start world) acts :=
  Run.throughout_of (I := AllSynced) (fun hI a n => goesLive_iff hI a n) (fun hI hs => hI.step hs)
    (allSynced_start world)

/-- After the concentrator has logged in again, its requests still go to the first connection. -/
theorem reconnect_requests :
    ¬ Run.Throughout step (fun s => ∀ a n, s.GoesLive a n) (start ConnectionPower.start) reconnect := by
  rintro ⟨-, h⟩
  have h₁ := ((Run.each_cons rfl).mp h).2
  have h₂ := ((Run.each_cons rfl).mp h₁).2
  have h₃ := ((Run.each_cons rfl).mp h₂).2
  have h₄ := ((Run.each_cons rfl).mp h₃).1
  obtain ⟨t, ht, hlatest⟩ := h₄ 0x1000 0x044d
  have hle := hlatest _ (List.mem_cons_of_mem _ (List.mem_cons_self ..)) 1 rfl
  cases ht
  exact absurd hle (by decide)

end Hub

end Afn
