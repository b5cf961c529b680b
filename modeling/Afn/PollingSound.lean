import Afn.CallsSound
import Afn.Polling
import Afn.Run

/-!
# Collections are spaced and complete

The poll timer of a record is the low half of the time of its last collection, whatever else happens, so two
collections of a record are more than `TM_GETKWH` apart; and they are at most the time between two visits
further apart. A collection asks for every meter of the record once, in order.
-/

namespace Afn

open Bytes Access Effect AFNPackage AFNPackageBuilder

/-! ## Time -/

theorem toNat_timeElapse {t now : Nat} (h : t ≤ now) :
    (timeElapse (UInt32.ofNat now) (UInt32.ofNat t)).toNat = (now - t) % 2 ^ 32 := by
  rw [timeElapse_eq, ← UInt32.ofNat_sub h, UInt32.toNat_ofNat']

theorem due_iff (p : UInt32) : TM_GETKWH < p ↔ 60000 < p.toNat := by
  rw [UInt32.lt_iff_toNat_lt]
  exact Iff.rfl

/-! ## Records in their places -/

namespace JzqList

theorem getElem?_startGetTimer (l : JzqList) (tick : UInt32) (i j : Nat) :
    (l.startGetTimer tick i).m_jzqList[j]? =
      (l.m_jzqList[j]?).map fun p => if i = j then { p with m_getTimer := tick } else p := by
  rw [startGetTimer, List.getElem?_modify]
  cases l.m_jzqList[j]? with
  | none => rfl
  | some p =>
    by_cases h : i = j
    · simp [h]
    · simp [h]

end JzqList

/-! ## Collections -/

namespace Hub

theorem moves_requestData (w : World) (m_jzq : UInt16 × UInt16) (afnData : PkgAfn) (n : Nat) :
    Moves World.Kept w (requestData m_jzq afnData n) := by
  have hmake : Moves World.Kept w (makeRequest m_jzq afnData n) := by
    refine moves_get_bind ?_
    refine (moves_modify (World.kept_jzqList (w.jzqList.grows_getPSEQ m_jzq.1 m_jzq.2))).bind fun _ w₁ _ => ?_
    exact (moves_liftAcc w₁ _).bind fun pkg w₂ _ => moves_new w₂ pkg
  refine hmake.bind fun snd w₁ _ => (moves_sendPkg w₁ snd).bind fun ret w₂ _ => ?_
  exact (moves_liftAcc w₂ _).bind fun d w₃ _ => (moves_delete w₃ snd).bind fun _ _ _ => moves_pure _

theorem moves_requestAll (m_jzq : UInt16 × UInt16) (tag : PkgAfnDataTag) :
    ∀ (eleLst : List Element) (ret : Int) (w : World), Moves World.Kept w (requestAll m_jzq tag eleLst ret) := by
  intro eleLst
  induction eleLst with
  | nil => exact fun ret w => moves_pure ret
  | cons ele eleLst ih =>
    exact fun ret w => moves_get_bind ((moves_requestData w m_jzq _ 10).bind fun r w₁ _ => ih _ w₁)

theorem kept_call {s : Hub} {tag : PkgAfnDataTag} {name : String} {a : Api} {r : Hub × Int × Option AppCall}
    (h : a.call s tag name = some r) : s.world.Kept r.1.world := by
  rw [Api.call_eq] at h
  obtain ⟨⟨s₁, b⟩, hlock, rfl⟩ := Option.map_eq_some_iff.mp h
  rcases lockConnection_inv hlock with ⟨-, rfl, rfl⟩ | ⟨c, b', -, rfl, hl⟩
  · exact World.kept_refl _
  · obtain ⟨heap, hbody⟩ := hl.world
    have hkept := moves_requestData _ c.con.m_jzq _ _ _ _ hbody
    exact ⟨hkept.jzqList, hkept.tick, hkept.cmdMap, hkept.notified, hkept.stored⟩

theorem kept_getallkwhAsync {s s' : Hub} {tag : PkgAfnDataTag} {pJzq : Jzq} {ret : Int} {found : Option Connection}
    (h : s.getallkwhAsync tag pJzq = some (s', ret, found)) : s.world.Kept s'.world := by
  obtain ⟨⟨s₁, r⟩, hlock, hr⟩ := Option.map_eq_some_iff.mp h
  rcases lockConnection_inv hlock with ⟨-, rfl, rfl⟩ | ⟨c, a, -, rfl, hl⟩
  · cases hr
    exact World.kept_refl _
  · cases hr
    obtain ⟨heap, hbody⟩ := hl.world
    have hkept := moves_requestAll c.con.m_jzq tag pJzq.eleLst YQER_OK _ _ _ hbody
    exact ⟨hkept.jzqList, hkept.tick, hkept.cmdMap, hkept.notified, hkept.stored⟩

end Hub

/-! ## Steps -/

namespace Station

inductive Step (s : Station) : Act → Station → Prop
  | other {act : Act} (hub : Hub) (h : s.hub.world.Kept hub.world) (ha : ∀ tag, act ≠ .visit tag) :
      Step s act (s.setHub hub)
  | freshjzq (db : Tables) (h : s.iter = none) :
      Step s (.freshjzq db) (s.setHub { s.hub with
        world := { s.hub.world with jzqList := s.hub.world.jzqList.loadJzq db } })
  | wait (ms : Nat) :
      Step s (.wait ms) { s with
        time := s.time + ms
        hub := { s.hub with world := { s.hub.world with tick := UInt32.ofNat (s.time + ms) } } }
  | timeout (h : s.iter = none) : Step s .timeout { s with iter := some 0 }
  | ended {tag : PkgAfnDataTag} {i : Nat} (hi : s.iter = some i) (h : s.hub.world.jzqList.m_jzqList[i]? = none) :
      Step s (.visit tag) { s with iter := none }
  | pass {tag : PkgAfnDataTag} {i : Nat} {p : Jzq} (hi : s.iter = some i)
      (hp : s.hub.world.jzqList.m_jzqList[i]? = some p)
      (h : ¬ TM_GETKWH < timeElapse s.hub.world.tick p.m_getTimer) :
      Step s (.visit tag) { s with iter := some (i + 1), visits := (i, s.time) :: s.visits }
  | poll {tag : PkgAfnDataTag} {i : Nat} {p : Jzq} {hub : Hub} {ret : Int} {found : Option Connection}
      (hi : s.iter = some i) (hp : s.hub.world.jzqList.m_jzqList[i]? = some p)
      (h : TM_GETKWH < timeElapse s.hub.world.tick p.m_getTimer)
      (hc : Hub.getallkwhAsync { s.hub with world := { s.hub.world with
        jzqList := s.hub.world.jzqList.startGetTimer s.hub.world.tick i } } tag p = some (hub, ret, found)) :
      Step s (.visit tag) { s with
        hub := hub
        iter := some (i + 1)
        polls := ⟨i, s.time, p, ret, found, hub.world.sent.drop s.hub.world.sent.length⟩ :: s.polls
        visits := (i, s.time) :: s.visits }

theorem kept_hubStep {s s' : Hub} {act : Hub.Act} (h : s.step act = some s') (ha : ∀ tick, act ≠ .clock tick) :
    s.world.Kept s'.world := by
  cases act with
  | accept bev m_jzq =>
    simp only [Hub.step] at h
    split at h
    · cases h
    · cases h
      exact World.kept_refl _
  | frame bev p =>
    simp only [Hub.step] at h
    split at h
    next c hc =>
      split at h
      next r w hr =>
        cases h
        exact moves_receive s.world c.con p.pkg r w hr
      next => cases h
    next =>
      cases h
      exact World.kept_refl _
  | close bev =>
    cases h
    unfold Hub.delConnection
    cases s.getConnection bev with
    | none => exact World.kept_refl _
    | some c => exact World.kept_jzqList (s.world.jzqList.grows_del s.world.tick _ _)
  | clock tick => exact absurd rfl (ha tick)

theorem step_cases {s s' : Station} {act : Act} (h : s.step act = some s') : Step s act s' := by
  have hother : ∀ a : Hub.Act, (∀ tick, a ≠ .clock tick) → (∀ tag, act ≠ .visit tag) →
      (s.hub.step a).map s.setHub = some s' → Step s act s' := by
    intro a ha hact h
    obtain ⟨hub, hstep, rfl⟩ := Option.map_eq_some_iff.mp h
    exact .other hub (kept_hubStep hstep ha) hact
  cases act with
  | accept bev m_jzq => exact hother (.accept bev m_jzq) (fun _ h => (nomatch h)) (fun _ h => (nomatch h)) h
  | frame bev p => exact hother (.frame bev p) (fun _ h => (nomatch h)) (fun _ h => (nomatch h)) h
  | close bev => exact hother (.close bev) (fun _ h => (nomatch h)) (fun _ h => (nomatch h)) h
  | call tag name a =>
    obtain ⟨r, hc, rfl⟩ := Option.map_eq_some_iff.mp h
    exact .other r.1 (Hub.kept_call hc) fun _ h => (nomatch h)
  | freshjzq db =>
    simp only [step] at h
    split at h
    next hi =>
      cases h
      exact .freshjzq db hi
    next => cases h
  | checkConnection =>
    cases h
    exact .other _ (World.kept_jzqList (s.hub.world.jzqList.grows_check s.hub.world.tick)) fun _ h => (nomatch h)
  | wait ms =>
    cases h
    exact .wait ms
  | timeout =>
    simp only [step] at h
    split at h
    next hi =>
      cases h
      exact .timeout hi
    next => cases h
  | visit tag =>
    simp only [step] at h
    split at h
    next i hi =>
      split at h
      next p hp =>
        simp only [visitAt] at h
        split at h
        next hdue =>
          obtain ⟨⟨hub, ret, found⟩, hc, rfl⟩ := Option.map_eq_some_iff.mp h
          exact .poll hi hp hdue hc
        next hdue =>
          cases h
          exact .pass hi hp hdue
      next hp =>
        cases h
        exact .ended hi hp
    next => cases h

/-! ## Spacing -/

def last (s : Station) (i : Nat) : Option Poll := s.polls.find? fun q => q.index == i

/-- Two collections of a record are more than 60 seconds apart; the newest stands first. -/
def Spaced (s : Station) : Prop := s.polls.Pairwise fun p q => p.index = q.index → q.time + 60000 < p.time

/-- The poll timer of a record that has been asked is the low half of the time of its last collection. -/
structure Timed (s : Station) : Prop where
  tick : s.hub.world.tick = UInt32.ofNat s.time
  past : ∀ q ∈ s.polls, q.time ≤ s.time
  timer : ∀ i q, s.last i = some q →
    ∃ p, s.hub.world.jzqList.m_jzqList[i]? = some p ∧ p.m_getTimer = UInt32.ofNat q.time
  spaced : s.Spaced

theorem timed_start (world : World) (time : Nat) : (start world time).Timed where
  tick := rfl
  past := List.forall_mem_nil _
  timer _ _ h := nomatch h
  spaced := .nil

section
variable {s s' : Station} {i : Nat} {q : Poll}

theorem mem_of_last (h : s.last i = some q) : q ∈ s.polls ∧ q.index = i := by
  have hi := List.find?_some h
  exact ⟨List.mem_of_find?_eq_some h, beq_iff_eq.mp hi⟩

theorem le_last (hs : s.Spaced) (h : s.last i = some q) {r : Poll} (hr : r ∈ s.polls) (hi : r.index = i) :
    r.time ≤ q.time := by
  obtain ⟨hq, before, after, hsplit, hbefore⟩ := List.find?_eq_some_iff_append.mp h
  unfold Spaced at hs
  rw [hsplit] at hs hr
  rcases List.mem_append.mp hr with hr | hr
  · have hno := hbefore r hr
    simp [hi] at hno
  rcases List.mem_cons.mp hr with rfl | hr
  · exact Nat.le_refl _
  · have hlt := List.rel_of_pairwise_cons (List.pairwise_append.mp hs).2.1 hr
    have hsame := hlt (by rw [beq_iff_eq.mp hq, hi])
    exact Nat.le_trans (Nat.le_add_right _ 60000) (Nat.le_of_lt hsame)

theorem last_isSome {r : Poll} (hr : r ∈ s.polls) (hi : r.index = i) : ∃ q, s.last i = some q := by
  apply Option.isSome_iff_exists.mp
  apply List.find?_isSome.mpr
  exact ⟨r, hr, beq_iff_eq.mpr hi⟩

section
variable (h : s.Timed)
include h

theorem Timed.elapsed {p : Jzq} (hp : s.hub.world.jzqList.m_jzqList[i]? = some p) (hq : s.last i = some q) :
    (timeElapse s.hub.world.tick p.m_getTimer).toNat = (s.time - q.time) % 2 ^ 32 := by
  obtain ⟨p', hp', htimer⟩ := h.timer i q hq
  cases hp.symm.trans hp'
  rw [htimer, h.tick]
  exact toNat_timeElapse (h.past q (mem_of_last hq).1)

theorem Timed.apart {p : Jzq} (hp : s.hub.world.jzqList.m_jzqList[i]? = some p)
    (hdue : TM_GETKWH < timeElapse s.hub.world.tick p.m_getTimer) {r : Poll} (hr : r ∈ s.polls) (hi : r.index = i) :
    r.time + 60000 < s.time := by
  obtain ⟨q, hq⟩ := last_isSome hr hi
  have hle := le_last h.spaced hq hr hi
  rw [due_iff, h.elapsed hp hq] at hdue
  have hmod := Nat.mod_le (s.time - q.time) (2 ^ 32)
  omega

theorem Timed.kept {hub : Hub} (hk : s.hub.world.Kept hub.world) : (s.setHub hub).Timed where
  tick := hk.tick.trans h.tick
  past := h.past
  timer i q hq := by
    obtain ⟨p, hp, htimer⟩ := h.timer i q hq
    obtain ⟨p', hp', hsame⟩ := hk.jzqList i p hp
    exact ⟨p', hp', hsame.m_getTimer.trans htimer⟩
  spaced := h.spaced

theorem Timed.collected {p : Jzq} {hub : Hub} (poll : Poll) (hp : s.hub.world.jzqList.m_jzqList[i]? = some p)
    (hdue : TM_GETKWH < timeElapse s.hub.world.tick p.m_getTimer)
    (hk : World.Kept { s.hub.world with jzqList := s.hub.world.jzqList.startGetTimer s.hub.world.tick i } hub.world)
    (hindex : poll.index = i) (htime : poll.time = s.time) (iter : Option Nat) (visits : List (Nat × Nat)) :
    Timed { s with hub := hub, iter := iter, polls := poll :: s.polls, visits := visits } where
  tick := hk.tick.trans h.tick
  past := by
    intro q hq
    rcases List.mem_cons.mp hq with rfl | hq
    · exact Nat.le_of_eq htime
    · exact h.past q hq
  timer := by
    intro j q hq
    have hrecord : ∀ {r : Jzq}, s.hub.world.jzqList.m_jzqList[j]? = some r →
        ∃ r', hub.world.jzqList.m_jzqList[j]? = some r' ∧
          r'.m_getTimer = if i = j then s.hub.world.tick else r.m_getTimer := by
      intro r hr
      have hset := JzqList.getElem?_startGetTimer s.hub.world.jzqList s.hub.world.tick i j
      rw [hr, Option.map_some] at hset
      obtain ⟨r', hr', hsame⟩ := hk.jzqList j _ hset
      refine ⟨r', hr', hsame.m_getTimer.trans ?_⟩
      split
      · rfl
      · rfl
    simp only [last, List.find?_cons, hindex] at hq
    by_cases hij : i = j
    · subst hij
      simp only [beq_self_eq_true, Option.some.injEq] at hq
      subst hq
      obtain ⟨r', hr', htimer⟩ := hrecord hp
      rw [if_pos rfl, h.tick, ← htime] at htimer
      exact ⟨r', hr', htimer⟩
    · simp only [beq_eq_false_iff_ne.mpr hij] at hq
      obtain ⟨r, hr, htimer⟩ := h.timer j q hq
      obtain ⟨r', hr', htimer'⟩ := hrecord hr
      rw [if_neg hij, htimer] at htimer'
      exact ⟨r', hr', htimer'⟩
  spaced := by
    refine List.pairwise_cons.mpr ⟨fun q hq heq => ?_, h.spaced⟩
    rw [htime]
    exact h.apart hp hdue hq (heq.symm.trans hindex)

theorem Timed.freshjzq (db : Tables) :
    (s.setHub { s.hub with world := { s.hub.world with jzqList := s.hub.world.jzqList.loadJzq db } }).Timed where
  tick := h.tick
  past := h.past
  timer i q hq := by
    obtain ⟨p, hp, htimer⟩ := h.timer i q hq
    have hmap : (s.hub.world.jzqList.loadJzq db).m_jzqList[i]? =
        some { p with eleLst := p.eleLst ++ db.elements p.m_areacode p.m_number } := by
      unfold JzqList.loadJzq
      rw [List.getElem?_map, List.getElem?_append_left (List.getElem?_eq_some_iff.mp hp).1, hp, Option.map_some]
    exact ⟨_, hmap, htimer⟩
  spaced := h.spaced

theorem Timed.step {act : Act} (hs : Step s act s') : s'.Timed := by
  cases hs with
  | other hub hk _ => exact h.kept hk
  | freshjzq db _ => exact h.freshjzq db
  | wait ms =>
    exact ⟨rfl, fun q hq => Nat.le_trans (h.past q hq) (Nat.le_add_right ..), h.timer, h.spaced⟩
  | timeout _ => exact ⟨h.tick, h.past, h.timer, h.spaced⟩
  | ended _ _ => exact ⟨h.tick, h.past, h.timer, h.spaced⟩
  | pass _ _ _ => exact ⟨h.tick, h.past, h.timer, h.spaced⟩
  | poll _ hp hdue hc => exact h.collected _ hp hdue (Hub.kept_getallkwhAsync hc) rfl rfl _ _

end

/-- **In every run, the collections of a record are more than 60 seconds apart**, whatever the other threads
do and however often the clock wraps. -/
theorem spaced_throughout (world : World) (time : Nat) (acts : List Act) :
    Run.Throughout step Spaced (start world time) acts :=
  Run.throughout_of (I := Timed) (fun hI => hI.spaced) (fun hI hs => hI.step (step_cases hs)) (timed_start world time)

end

/-! ## Regularity -/

def lastVisit (s : Station) (i : Nat) : Option (Nat × Nat) := s.visits.find? fun v => v.1 == i

/-- A visit comes at most `d` after the one before to the same record. -/
def Prompt (d : Nat) (s : Station) (act : Act) : Prop :=
  ∀ tag i v, act = .visit tag → s.iter = some i → s.lastVisit i = some v → s.time ≤ v.2 + d

/-- A visit to a record that has been asked is at most 60 seconds and `d` after that, and the record is asked again
exactly when it is more than 60 seconds after it. -/
def Regular (d : Nat) (s : Station) (act : Act) (s' : Station) : Prop :=
  ∀ tag i q, act = .visit tag → s.iter = some i → s.last i = some q →
    s.time ≤ q.time + 60000 + d ∧ ((∃ p, s'.polls = p :: s.polls) ↔ q.time + 60000 < s.time)

/-- The last visit to a record that has been asked was at most 60 seconds after the last collection. -/
structure Watched (s : Station) : Prop where
  timed : s.Timed
  visited : ∀ i q, s.last i = some q → ∃ v, s.lastVisit i = some v ∧ q.time ≤ v.2 ∧ v.2 ≤ q.time + 60000

section
variable {d : Nat} (hd : 60000 + d < 2 ^ 32) {s s' : Station} {act : Act}

include hd

theorem Watched.due_iff (h : s.Watched) {tag : PkgAfnDataTag} {i : Nat} {p : Jzq} {q : Poll}
    (hprompt : s.Prompt d (.visit tag)) (hi : s.iter = some i)
    (hp : s.hub.world.jzqList.m_jzqList[i]? = some p) (hq : s.last i = some q) :
    s.time ≤ q.time + 60000 + d ∧
      (TM_GETKWH < timeElapse s.hub.world.tick p.m_getTimer ↔ q.time + 60000 < s.time) := by
  obtain ⟨v, hv, hle, hlt⟩ := h.visited i q hq
  have hnow := hprompt tag i v rfl hi hv
  have hpast := h.timed.past q (mem_of_last hq).1
  refine ⟨by omega, ?_⟩
  rw [Afn.due_iff, h.timed.elapsed hp hq, Nat.mod_eq_of_lt (by omega)]
  omega

theorem Watched.step (h : s.Watched) (hs : Step s act s') (hprompt : s.Prompt d act) :
    Regular d s act s' ∧ s'.Watched := by
  have hnext := h.timed.step hs
  cases hs with
  | other hub _ ha => exact ⟨fun tag _ _ hact => absurd hact (ha tag), hnext, h.visited⟩
  | freshjzq db _ => exact ⟨fun _ _ _ hact => (nomatch hact), hnext, h.visited⟩
  | wait ms => exact ⟨fun _ _ _ hact => (nomatch hact), hnext, h.visited⟩
  | timeout _ => exact ⟨fun _ _ _ hact => (nomatch hact), hnext, h.visited⟩
  | @ended tag i hi hnone =>
    refine ⟨fun _ j q _ hj hq => ?_, hnext, h.visited⟩
    cases hi.symm.trans hj
    obtain ⟨p, hp, -⟩ := h.timed.timer i q hq
    exact nomatch hnone.symm.trans hp
  | @pass tag i p hi hp hdue =>
    have hlate : ∀ {q : Poll}, s.last i = some q → ¬ q.time + 60000 < s.time := by
      intro q hq hlt
      exact hdue ((h.due_iff hd hprompt hi hp hq).2.mpr hlt)
    refine ⟨fun _ j q _ hj hq => ?_, hnext, fun j q hq => ?_⟩
    · cases hi.symm.trans hj
      refine ⟨(h.due_iff hd hprompt hi hp hq).1, fun ⟨r, hr⟩ => ?_, fun hlt => absurd hlt (hlate hq)⟩
      exact absurd (congrArg List.length hr) (by simp)
    · simp only [lastVisit, List.find?_cons]
      by_cases hij : i = j
      · subst hij
        have hpast := h.timed.past q (mem_of_last hq).1
        simp only [beq_self_eq_true]
        exact ⟨_, rfl, hpast, Nat.le_of_not_lt (hlate hq)⟩
      · simp only [beq_eq_false_iff_ne.mpr hij]
        exact h.visited j q hq
  | @poll tag i p hub ret found hi hp hdue hc =>
    refine ⟨fun _ j q _ hj hq => ?_, hnext, fun j q hq => ?_⟩
    · cases hi.symm.trans hj
      obtain ⟨hwindow, hiff⟩ := h.due_iff hd hprompt hi hp hq
      exact ⟨hwindow, fun _ => hiff.mp hdue, fun _ => ⟨_, rfl⟩⟩
    · simp only [last, lastVisit, List.find?_cons] at hq ⊢
      by_cases hij : i = j
      · subst hij
        simp only [beq_self_eq_true, Option.some.injEq] at hq ⊢
        subst hq
        exact ⟨_, rfl, Nat.le_refl _, Nat.le_add_right ..⟩
      · simp only [beq_eq_false_iff_ne.mpr hij] at hq ⊢
        exact h.visited j q hq

/-- **When the visits to a record come at most `d` apart, so do its collections but for the 60 seconds**, as long
as both together do not fill the clock. -/
theorem regular_of_prompt (world : World) (time : Nat) (acts : List Act)
    (h : Run.Each step (fun s act _ => s.Prompt d act) (start world time) acts) :
    Run.Each step (Regular d) (start world time) acts :=
  Run.each_of (I := Watched) (P := fun s act _ => s.Prompt d act) (Q := Regular d)
    (fun hI hs hp => hI.step hd (step_cases hs) hp) ⟨timed_start world time, fun _ _ hq => nomatch hq⟩ h

end

-- a concentrator without meters that is not connected
def lonely : Tables := ⟨[⟨4096, 1101, "test"⟩], []⟩

def twoRounds : List Act :=
  [.freshjzq lonely, .timeout, .visit ⟨0, 0, 0, 0⟩, .visit ⟨0, 0, 0, 0⟩, .wait 10000, .timeout, .visit ⟨0, 0, 0, 0⟩]

theorem regular_twoRounds : Run.Each step (Regular 10000) (start ConnectionPower.start 100000) twoRounds := by
  refine regular_of_prompt (by decide) ConnectionPower.start 100000 twoRounds ?_
  have hquiet : ∀ {s : Station} {act : Act}, (∀ tag, act ≠ .visit tag) → s.Prompt 10000 act :=
    fun h tag _ _ hact => absurd hact (h tag)
  refine (Run.each_cons rfl).mpr ⟨hquiet fun _ h => (nomatch h), ?_⟩
  refine (Run.each_cons rfl).mpr ⟨hquiet fun _ h => (nomatch h), ?_⟩
  refine (Run.each_cons rfl).mpr ⟨fun _ _ _ _ _ hv => (nomatch hv), ?_⟩
  refine (Run.each_cons rfl).mpr ⟨?_, ?_⟩
  · intro _ i v _ hi hv
    cases hi
    cases hv
  refine (Run.each_cons rfl).mpr ⟨hquiet fun _ h => (nomatch h), ?_⟩
  refine (Run.each_cons rfl).mpr ⟨hquiet fun _ h => (nomatch h), ?_⟩
  refine (Run.each_cons rfl).mpr ⟨?_, trivial⟩
  intro _ i v _ hi hv
  cases hi
  cases hv
  decide

end Station

/-! ## Completeness -/

/-- The requests for the meters of a record, to the address `m_jzq` and with numbers from `k` on. A meter whose
number does not fit is asked for with whatever tag the memory held. -/
def Asks (m_jzq : UInt16 × UInt16) (k : Nat) (eleLst : List Element) (frames : List Bytes) : Prop :=
  frames.length = eleLst.length ∧ ∀ (i : Nat) ele bs, eleLst[i]? = some ele → frames[i]? = some bs →
    (UInt16.ofInt ele.pn).toNat ≤ 2041 → ReadsBack (.getallkwh (UInt16.ofInt ele.pn)) m_jzq ((k + i) % 16) bs

section
variable {m_jzq : UInt16 × UInt16} {tag : PkgAfnDataTag}

theorem Asks.cons {k : Nat} {ele : Element} {eleLst : List Element} {bs : Bytes} {frames : List Bytes}
    (h : Asks m_jzq ((k + 1) % 256) eleLst frames)
    (hbs : (UInt16.ofInt ele.pn).toNat ≤ 2041 → ReadsBack (.getallkwh (UInt16.ofInt ele.pn)) m_jzq (k % 16) bs) :
    Asks m_jzq k (ele :: eleLst) (bs :: frames) := by
  refine ⟨by simp [h.1], fun i ele' bs' hele hbs' hpn => ?_⟩
  cases i with
  | zero =>
    cases hele
    cases hbs'
    exact hbs hpn
  | succ i =>
    have hnum : (k + (i + 1)) % 16 = ((k + 1) % 256 + i) % 16 := by omega
    rw [hnum]
    exact h.2 i ele' bs' hele hbs' hpn

theorem asks_requestData {w w' : World} {p : Jzq} {pn : UInt16} {r : PkgPtr × Int × AppCall}
    (h : Ends (requestData m_jzq (AFN0C.createAllKwh w.mem.pAfn tag pn) 10) w r w')
    (hp : w.jzqList.getJzq m_jzq.1 m_jzq.2 = some p) :
    r.2.1 = YQER_OK ∧ w'.jzqList.getJzq m_jzq.1 m_jzq.2 = some p.requested ∧
      ∃ bs, w'.sent = w.sent ++ [bs] ∧
        (pn.toNat ≤ 2041 → ReadsBack (.getallkwh pn) m_jzq (p.m_PFC.toNat % 16) bs) := by
  have hseq := JzqList.getPSEQ_some _ _ _ hp
  have hlist := (requestData_inv h).2
  have haux : PlainAux (AFN0C.createAllKwh w.mem.pAfn tag pn).pAux := by
    intro aux haux
    cases haux
    rfl
  have hfit : (AFN0C.createAllKwh w.mem.pAfn tag pn).getDataLen + 14 < BUF_SIZE := by
    show 22 + 14 < BUF_SIZE
    decide
  obtain ⟨d, hd, htag⟩ : ∃ d, (AFN0C.createAllKwh w.mem.pAfn tag pn).pAfnData = some d ∧
      (pn.toNat ≤ 2041 → d = ⟨requestTag pn 33, []⟩) := by
    refine ⟨_, rfl, fun hpn => ?_⟩
    exact Option.some.inj (create_unit ⟨hpn, (Api.getallkwh pn).Fn_range⟩ w.mem.pAfn tag)
  obtain ⟨rfl, hsent, -⟩ := requestData_sent h hd haux hfit
  refine ⟨rfl, ?_, _, hsent, fun hpn => ?_⟩
  · rw [hlist, hseq, JzqList.getJzq_modify_self w.jzqList m_jzq.1 m_jzq.2 Jzq.at_requested, hp, Option.map_some]
  · have hback := readsBack_made w m_jzq tag (a := .getallkwh pn) hpn
    rw [hseq, Jzq.low_bits, Nat.mod_mod] at hback
    rw [htag hpn]
    exact hback

theorem asks_requestAll : ∀ {eleLst : List Element} {w w' : World} {p : Jzq} {ret : Int},
    Ends (requestAll m_jzq tag eleLst YQER_OK) w ret w' → w.jzqList.getJzq m_jzq.1 m_jzq.2 = some p →
    ret = YQER_OK ∧ ∃ frames, w'.sent = w.sent ++ frames ∧ Asks m_jzq p.m_PFC.toNat eleLst frames := by
  intro eleLst
  induction eleLst with
  | nil =>
    intro w w' p ret h _
    cases h
    exact ⟨rfl, [], (List.append_nil _).symm, rfl, fun i ele bs hele => (nomatch hele)⟩
  | cons ele eleLst ih =>
    intro w w' p ret h hp
    obtain ⟨v, w₀, hget, h⟩ := h.of_bind
    cases hget
    obtain ⟨⟨snd, as, call⟩, w₁, hreq, h⟩ := h.of_bind
    obtain ⟨hok, hp', bs, hsent, hback⟩ := asks_requestData hreq hp
    obtain rfl : as = YQER_OK := hok
    obtain ⟨hret, frames, hframes, hasks⟩ := ih h hp'
    rw [p.PFC_requested] at hasks
    refine ⟨hret, bs :: frames, ?_, hasks.cons hback⟩
    rw [hframes, hsent, List.append_assoc, List.singleton_append]

end

theorem map_find_modify {α β : Type} {q : α → Bool} {f : α → α} {g : α → β} (hq : ∀ x, q (f x) = q x)
    (hg : ∀ x, g (f x) = g x) : ∀ (l : List α) (i : Nat), ((l.modify i f).find? q).map g = (l.find? q).map g := by
  intro l
  induction l with
  | nil => exact fun i => by simp
  | cons x xs ih =>
    intro i
    cases i with
    | zero =>
      rw [List.modify_zero_cons, List.find?_cons, List.find?_cons, hq]
      cases q x with
      | true => simp [hg]
      | false => rfl
    | succ i =>
      rw [List.modify_succ_cons, List.find?_cons, List.find?_cons]
      cases q x with
      | true => rfl
      | false => exact ih i

def JzqList.addressNamed (l : JzqList) (name : String) : Option (UInt16 × UInt16) :=
  (l.getJzqNamed name).map fun p => (p.m_areacode, p.m_number)

theorem JzqList.addressNamed_startGetTimer (l : JzqList) (tick : UInt32) (i : Nat) (name : String) :
    (l.startGetTimer tick i).addressNamed name = l.addressNamed name :=
  map_find_modify (q := fun p : Jzq => p.m_name == name) (f := fun p => { p with m_getTimer := tick })
    (g := fun p : Jzq => (p.m_areacode, p.m_number)) (fun _ => rfl) (fun _ => rfl) l.m_jzqList i

namespace Hub

theorem getJzqConnectionNamed_eq (s : Hub) (name : String) : s.getJzqConnectionNamed name =
    (s.world.jzqList.addressNamed name).bind fun a => s.getJzqConnection a.1 a.2 := by
  unfold getJzqConnectionNamed JzqList.addressNamed
  cases s.world.jzqList.getJzqNamed name with
  | none => rfl
  | some q => rfl

theorem address_of_named {s : Hub} {name : String} {c : Connection} (h : s.getJzqConnectionNamed name = some c) :
    s.world.jzqList.addressNamed name = some c.con.m_jzq ∧
      ∃ p, s.world.jzqList.getJzq c.con.m_jzq.1 c.con.m_jzq.2 = some p := by
  rw [getJzqConnectionNamed_eq] at h
  obtain ⟨a, ha, hc⟩ := Option.bind_eq_some_iff.mp h
  have haddr := List.find?_some hc
  rw [Bool.and_eq_true, beq_iff_eq, beq_iff_eq] at haddr
  have hsame : c.con.m_jzq = a := Prod.ext haddr.1 haddr.2
  rw [hsame]
  refine ⟨ha, Option.isSome_iff_exists.mp (List.find?_isSome.mpr ?_)⟩
  obtain ⟨q, hq, rfl⟩ := Option.map_eq_some_iff.mp ha
  exact ⟨q, List.mem_of_find?_eq_some hq, by simp [JzqList.at?]⟩

end Hub

namespace Station

/-- The collection is of the record the loop is at. Without a connection for its name nothing is written; else one
request is written for each of its meters, in order and with consecutive numbers, to the address of the first
record with its name, and nothing but them. -/
def Complete (s : Station) (_ : Act) (s' : Station) : Prop :=
  ∀ poll, s'.polls = poll :: s.polls →
    s.iter = some poll.index ∧ s.hub.world.jzqList.m_jzqList[poll.index]? = some poll.jzq ∧
    s.hub.getJzqConnectionNamed poll.jzq.m_name = poll.found ∧
    s'.hub.world.sent = s.hub.world.sent ++ poll.frames ∧
    match poll.found with
    | none => poll.ret = YQER_JZQ_NOTOK ∧ poll.frames = []
    | some c => poll.ret = YQER_OK ∧ s.hub.world.jzqList.addressNamed poll.jzq.m_name = some c.con.m_jzq ∧
        ∃ k, Asks c.con.m_jzq k poll.jzq.eleLst poll.frames

section
variable {s s' : Station} {act : Act}

theorem polls_ne_cons {l : List Poll} {p : Poll} : l ≠ p :: l := by
  intro h
  exact absurd (congrArg List.length h) (by simp)

theorem complete_of_step (hs : Step s act s') : Complete s act s' := by
  intro poll hpoll
  cases hs with
  | other hub _ _ => exact absurd hpoll polls_ne_cons
  | freshjzq db _ => exact absurd hpoll polls_ne_cons
  | wait ms => exact absurd hpoll polls_ne_cons
  | timeout _ => exact absurd hpoll polls_ne_cons
  | ended _ _ => exact absurd hpoll polls_ne_cons
  | pass _ _ _ => exact absurd hpoll polls_ne_cons
  | @poll tag i p hub ret found hi hp hdue hc =>
    obtain ⟨rfl, -⟩ := List.cons.inj hpoll
    obtain ⟨⟨hub', r⟩, hlock, hr⟩ := Option.map_eq_some_iff.mp hc
    have hnamed := Hub.getJzqConnectionNamed_eq { s.hub with world := { s.hub.world with
      jzqList := s.hub.world.jzqList.startGetTimer s.hub.world.tick i } } p.m_name
    simp only [JzqList.addressNamed_startGetTimer] at hnamed
    have hsame := hnamed.trans (Hub.getJzqConnectionNamed_eq s.hub p.m_name).symm
    rcases Hub.lockConnection_inv hlock with ⟨hnone, rfl, rfl⟩ | ⟨c, as, hfound, rfl, hl⟩
    · cases hr
      exact ⟨hi, hp, hsame.symm.trans hnone, by simp, rfl, by simp⟩
    · cases hr
      obtain ⟨heap, hbody⟩ := hl.world
      obtain ⟨haddr, q, hq⟩ := Hub.address_of_named hfound
      obtain ⟨hret, frames, hframes, hasks⟩ := asks_requestAll hbody hq
      rw [JzqList.addressNamed_startGetTimer] at haddr
      have hdrop : List.drop s.hub.world.sent.length hub'.world.sent = frames := by
        rw [hframes]
        exact List.drop_left
      rw [← hdrop] at hframes hasks
      exact ⟨hi, hp, hsame.symm.trans hfound, hframes, hret, haddr, _, hasks⟩

end

/-- **Every collection in every run asks for all meters of its record**, once each, where the name of the record
leads. -/
theorem complete_throughout (s : Station) (acts : List Act) : Run.Each step Complete s acts :=
  Run.each_intro (Q := Complete) fun hs => complete_of_step (step_cases hs)

/-! ## Silence -/

/-- No result has been passed to a waiting call or saved since the start. -/
def Silent (world : World) (s : Station) : Prop :=
  s.hub.world.notified = world.notified ∧ s.hub.world.stored = world.stored ∧ s.hub.world.cmdMap = world.cmdMap

theorem Silent.kept {world : World} {s s' : Station} (h : s.Silent world) (hk : s.hub.world.Kept s'.hub.world) :
    s'.Silent world :=
  ⟨hk.notified.trans h.1, hk.stored.trans h.2.1, hk.cmdMap.trans h.2.2⟩

theorem Silent.step {world : World} {s s' : Station} {act : Act} (h : s.Silent world) (hs : Step s act s') :
    s'.Silent world := by
  cases hs with
  | other hub hk _ => exact h.kept hk
  | freshjzq db _ => exact h
  | wait ms => exact h
  | timeout _ => exact h
  | ended _ _ => exact h
  | pass _ _ _ => exact h
  | poll _ _ _ hc =>
    have hk := Hub.kept_getallkwhAsync hc
    exact ⟨hk.notified.trans h.1, hk.stored.trans h.2.1, hk.cmdMap.trans h.2.2⟩

/-! ## Calls -/

def CallReadsBack (s : Station) (act : Act) (s' : Station) : Prop :=
  match act with
  | .call tag name a => a.pn.toNat ≤ 2041 →
    ∃ ret key, a.call s.hub tag name = some (s'.hub, ret, key) ∧ Written s.hub s'.hub name a ret key
  | _ => True

/-- **Every call in every run is written as one frame that reads back as the call**, on the one connection where the
name leads. -/
theorem calls_read_back (s : Station) (acts : List Act) : Run.Each step CallReadsBack s acts := by
  refine Run.each_intro (Q := CallReadsBack) fun {s act s'} hs => ?_
  cases act with
  | call tag name a =>
    intro hpn
    obtain ⟨⟨hub, ret, key⟩, hc, rfl⟩ := Option.map_eq_some_iff.mp hs
    exact ⟨ret, key, hc, written_of_call tag hpn hc⟩
  | _ => trivial

end Station

end Afn
