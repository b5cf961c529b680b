import Afn.Console
import Afn.PollingSound
import Afn.TelnetSound

/-!
# From the console to the concentrator

What is typed becomes a frame that the concentrator reads as what was asked for. The answer the client is given never
has data: whatever the other thread does while the call waits, no response is passed to it.
-/

namespace Afn

open Bytes Access Lines TelnetServer

namespace Station

theorem cmdMap_step {s s' : Station} {act : Act} (hs : s.step act = some s') :
    s'.hub.world.cmdMap = s.hub.world.cmdMap := by
  have hsilent : s.Silent s.hub.world := ⟨rfl, rfl, rfl⟩
  exact (hsilent.step (step_cases hs)).2.2

end Station

namespace Console

def asked (s : Console) : Option (String × Int × AppCall) := s.waiting.map fun w => (w.cmd, w.ret, w.call)

/-- What the client is told at once of a command that makes no call, when `list` are the records after it. -/
def told (helpstr : Bytes) (list : JzqList) : Action → List Bytes
  | .ls => [ascii (list.print ++ "$")]
  | .freshjzq => [ascii (list.print ++ "\r\n$")]
  | .paramError => [ascii "param error\r\n$"]
  | .notSupported => [ascii "not support command\r\n" ++ helpstr]
  | _ => []

def loaded (station : Station) (db : Tables) : Station :=
  station.setHub { station.hub with
    world := { station.hub.world with jzqList := station.hub.world.jzqList.loadJzq db } }

/-- What the command asks for has been done. A call has been written as one frame that reads back as it, and is
waited for, or without a connection for the name there is nothing written and the client has its answer. Every other
command has its answer at once; of these only `freshjzq` changes the server, which loads the records, and only `quit`
closes the console. -/
def Carried (dataString : AckChain → Bytes) (helpstr : Bytes) (db : Tables) (params : List Bytes) (s s' : Console) :
    Prop :=
  match (dispatch params).api with
  | some (cmd, name, a) => s'.freed = s.freed ∧ ∃ ret key,
      (a.pn.toNat ≤ 2041 → Written s.station.hub s'.station.hub (nameOf name) a ret key) ∧
      match key with
      | some call => s'.asked = some (cmd, ret, call) ∧ s'.written = s.written
      | none => s'.asked = none ∧ s'.written = s.written ++ [answer dataString cmd ret none]
  | none => s'.asked = none ∧
      s'.station = (if dispatch params = .freshjzq then loaded s.station db else s.station) ∧
      s'.written = s.written ++ told helpstr s'.station.hub.world.jzqList (dispatch params) ∧
      s'.freed = s.freed + if dispatch params = .quit then 1 else 0

/-- A read carries out the command of the line that it ends, if it ends one. A call that has been waited for is
answered without data. -/
def Served (dataString : AckChain → Bytes) (helpstr : Bytes) (s : Console) (act : Act) (s' : Console) : Prop :=
  match act with
  | .read cmd _ db =>
    s'.g_cmd = kept 10 (s.g_cmd ++ cmd) ∧
      match commands (s.g_cmd ++ cmd) with
      | [] => s'.station = s.station ∧ s'.asked = none ∧ s'.written = s.written ∧ s'.freed = s.freed
      | [params] => Carried dataString helpstr db params s s'
      | _ => False
  | .timeout => s'.g_cmd = s.g_cmd ∧ s'.freed = s.freed ∧ s'.asked = none ∧
      ∃ cmd ret call, s.asked = some (cmd, ret, call) ∧ s'.written = s.written ++ [answer dataString cmd ret none]
  | _ => s'.g_cmd = s.g_cmd ∧ s'.freed = s.freed ∧ s'.asked = s.asked ∧ s'.written = s.written

/-- A read brings at most one line, and that to its end. -/
def Orderly (s : Console) : Act → Prop
  | .read cmd _ _ => Plain cmd ∧ BringsOne s.g_cmd cmd
  | _ => True

structure Inv (s : Console) : Prop where
  line : 10 ∉ s.g_cmd
  registered : ∀ w, s.waiting = some w → w.registered = true → s.station.hub.world.cmdMap w.call = some none

section
variable {dataString : AckChain → Bytes} {helpstr : Bytes} {s s' : Console}

theorem call_carried {tag : PkgAfnDataTag} {cmd : String} {name : Bytes} {a : Api} (hwaiting : s.waiting = none)
    (h : s.call dataString tag cmd name a = some s') :
    s'.g_cmd = s.g_cmd ∧ (∀ w, s'.waiting = some w → w.registered = false) ∧ s'.freed = s.freed ∧ ∃ ret key,
      (a.pn.toNat ≤ 2041 → Written s.station.hub s'.station.hub (nameOf name) a ret key) ∧
      match key with
      | some call => s'.asked = some (cmd, ret, call) ∧ s'.written = s.written
      | none => s'.asked = none ∧ s'.written = s.written ++ [answer dataString cmd ret none] := by
  obtain ⟨⟨hub, ret, key⟩, hc, rfl⟩ := Option.map_eq_some_iff.mp h
  cases key with
  | none =>
    refine ⟨rfl, ?_, rfl, ret, none, fun hpn => written_of_call tag hpn hc, ?_, rfl⟩
    · intro w hw
      cases hwaiting.symm.trans hw
    · exact congrArg (Option.map fun w : Waiting => (w.cmd, w.ret, w.call)) hwaiting
  | some call =>
    refine ⟨rfl, ?_, rfl, ret, some call, fun hpn => written_of_call tag hpn hc, rfl, rfl⟩
    intro w hw
    cases hw
    rfl

theorem execute_carried {tag : PkgAfnDataTag} {db : Tables} {params : List Bytes} (hwaiting : s.waiting = none)
    (h : s.execute dataString helpstr tag db (dispatch params) = some s') :
    s'.g_cmd = s.g_cmd ∧ (∀ w, s'.waiting = some w → w.registered = false) ∧
      Carried dataString helpstr db params s s' := by
  unfold execute at h
  unfold Carried
  generalize dispatch params = action at h
  cases hapi : action.api with
  | some r =>
    obtain ⟨cmd, name, a⟩ := r
    rw [hapi] at h
    exact call_carried hwaiting h
  | none =>
    rw [hapi] at h
    have hasked : s.asked = none := congrArg (Option.map fun w : Waiting => (w.cmd, w.ret, w.call)) hwaiting
    have hno : ∀ w, s.waiting = some w → w.registered = false := fun w hw => nomatch hwaiting.symm.trans hw
    cases action with
    | freshjzq =>
      obtain ⟨station, hstep, rfl⟩ := Option.map_eq_some_iff.mp h
      simp only [Station.step] at hstep
      split at hstep
      next =>
        cases hstep
        exact ⟨rfl, hno, hasked, rfl, rfl, rfl⟩
      next => cases hstep
    | quit =>
      cases h
      exact ⟨rfl, hno, hasked, rfl, (List.append_nil _).symm, rfl⟩
    | ls | paramError | notSupported =>
      cases h
      exact ⟨rfl, hno, hasked, rfl, rfl, rfl⟩
    | _ => cases hapi

theorem commands_cases {g_cmd cmd : Bytes} (hkept : 10 ∉ g_cmd) (h : BringsOne g_cmd cmd) :
    commands (g_cmd ++ cmd) = [] ∨ ∃ params, commands (g_cmd ++ cmd) = [params] := by
  by_cases hnl : 10 ∈ cmd
  · exact .inr (List.length_eq_one_iff.mp (h hnl).2)
  · exact .inl (commands_of_not_mem fun hm => (List.mem_append.mp hm).elim hkept hnl)

theorem Inv.read (hI : s.Inv) {cmd : Bytes} {tag : PkgAfnDataTag} {db : Tables}
    (hs : s.step dataString helpstr (.read cmd tag db) = some s') (ho : Orderly s (.read cmd tag db)) :
    Served dataString helpstr s (.read cmd tag db) s' ∧ s'.Inv := by
  obtain ⟨hplain, hone⟩ := ho
  obtain ⟨r, hr, rfl⟩ := (connReadcb_meant_iff hI.line hplain).mpr hone
  unfold step at hs
  simp only at hs
  split at hs
  next hfree =>
    have hwaiting : s.waiting = none := Option.isNone_iff_eq_none.mp hfree.1
    have hasked : s.asked = none := congrArg (Option.map fun w : Waiting => (w.cmd, w.ret, w.call)) hwaiting
    rw [hr] at hs
    unfold Served
    rcases commands_cases hI.line hone with hnil | ⟨params, hparams⟩
    · simp only [hnil] at hs ⊢
      cases hs
      exact ⟨⟨rfl, rfl, hasked, rfl, rfl⟩, not_mem_kept _, hI.registered⟩
    · simp only [hparams, List.map_cons, List.map_nil, List.foldlM_cons, List.foldlM_nil, bind_pure] at hs ⊢
      obtain ⟨hg, hreg, hcarried⟩ := execute_carried (s := { s with g_cmd := kept 10 (s.g_cmd ++ cmd) }) hwaiting hs
      refine ⟨⟨hg, hcarried⟩, ?_, ?_⟩
      · rw [hg]
        exact not_mem_kept _
      · intro w hw htrue
        cases (hreg w hw).symm.trans htrue
  next => cases hs

theorem Inv.station (hI : s.Inv) {act : Station.Act} (hs : s.step dataString helpstr (.station act) = some s') :
    Served dataString helpstr s (.station act) s' ∧ s'.Inv := by
  have hnext : (s.station.step act).map (fun station => { s with station := station }) = some s' →
      Served dataString helpstr s (.station act) s' ∧ s'.Inv := by
    intro h
    obtain ⟨station, hstep, rfl⟩ := Option.map_eq_some_iff.mp h
    refine ⟨⟨rfl, rfl, rfl, rfl⟩, hI.line, ?_⟩
    intro w hw htrue
    rw [← hI.registered w hw htrue]
    exact congrFun (Station.cmdMap_step hstep) w.call
  cases act with
  | call => cases hs
  | freshjzq => cases hs
  | timeout =>
    unfold step at hs
    simp only at hs
    split at hs
    next => exact hnext hs
    next => cases hs
  | visit tag =>
    unfold step at hs
    simp only at hs
    split at hs
    next => exact hnext hs
    next => cases hs
  | _ => exact hnext hs

theorem Inv.step (hI : s.Inv) {act : Act} (hs : s.step dataString helpstr act = some s') (ho : Orderly s act) :
    Served dataString helpstr s act s' ∧ s'.Inv := by
  cases act with
  | read cmd tag db => exact hI.read hs ho
  | station act => exact hI.station hs
  | register =>
    unfold Console.step at hs
    simp only at hs
    split at hs
    next w hw =>
      split at hs
      next => cases hs
      next =>
        cases hs
        refine ⟨⟨rfl, rfl, ?_, rfl⟩, hI.line, ?_⟩
        · unfold asked
          rw [hw]
          rfl
        · intro v hv _
          cases hv
          exact CmdMap.set_self _ _ _
    next => cases hs
  | timeout =>
    unfold Console.step at hs
    simp only at hs
    split at hs
    next w hw =>
      split at hs
      next hreg =>
        cases hs
        refine ⟨⟨rfl, rfl, rfl, w.cmd, w.ret, w.call, ?_, ?_⟩, hI.line, fun v hv => (nomatch hv)⟩
        · unfold asked
          rw [hw]
          rfl
        · rw [hI.registered w hw hreg]
          rfl
      next => cases hs
    next => cases hs

end

/-! ## Silence -/

/-- Nothing has been notified or saved since the start, and no entry of the table of waiting calls has been given
data. -/
def Silent (world : World) (s : Console) : Prop :=
  s.station.hub.world.notified = world.notified ∧ s.station.hub.world.stored = world.stored ∧
    ∀ call d, s.station.hub.world.cmdMap call = some (some d) → world.cmdMap call = some (some d)

section
variable {dataString : AckChain → Bytes} {helpstr : Bytes} {world : World} {s s' : Console}

theorem Silent.station (h : s.Silent world) (act : Station.Act) (hs : s.station.step act = some s'.station) :
    s'.Silent world := by
  have hsilent : s.station.Silent s.station.hub.world := ⟨rfl, rfl, rfl⟩
  obtain ⟨hnotified, hstored, hmap⟩ := hsilent.step (Station.step_cases hs)
  exact ⟨hnotified.trans h.1, hstored.trans h.2.1, fun call d hd => h.2.2 call d (hmap ▸ hd)⟩

theorem Silent.execute (h : s.Silent world) {tag : PkgAfnDataTag} {db : Tables} {action : Action}
    (hs : s.execute dataString helpstr tag db action = some s') : s'.Silent world := by
  unfold Console.execute at hs
  cases hapi : action.api with
  | some r =>
    obtain ⟨cmd, name, a⟩ := r
    rw [hapi] at hs
    obtain ⟨⟨hub, ret, key⟩, hc, rfl⟩ := Option.map_eq_some_iff.mp hs
    have hstep : s.station.step (.call tag (nameOf name) a) = some (s.station.setHub hub) := by
      rw [Station.step, hc, Option.map_some]
    cases key with
    | none => exact h.station (.call tag (nameOf name) a) hstep
    | some call => exact h.station (.call tag (nameOf name) a) hstep
  | none =>
    rw [hapi] at hs
    cases action with
    | freshjzq =>
      obtain ⟨station, hstep, rfl⟩ := Option.map_eq_some_iff.mp hs
      exact h.station (.freshjzq db) hstep
    | _ =>
      cases hs
      exact h

theorem Silent.replies (tag : PkgAfnDataTag) (db : Tables) : ∀ {replies : List Reply} {s : Console},
    s.Silent world → replies.foldlM (fun s r => s.reply dataString helpstr tag db r) s = some s' →
    s'.Silent world := by
  intro replies
  induction replies with
  | nil =>
    intro s h hs
    cases hs
    exact h
  | cons r replies ih =>
    intro s h hs
    rw [List.foldlM_cons] at hs
    obtain ⟨t, ht, hs⟩ := Option.bind_eq_some_iff.mp hs
    refine ih ?_ hs
    cases r with
    | prompt msg =>
      cases ht
      exact h
    | command params action => exact h.execute ht

theorem Silent.step (h : s.Silent world) {act : Act} (hs : s.step dataString helpstr act = some s') :
    s'.Silent world := by
  cases act with
  | station act =>
    have hnext : (s.station.step act).map (fun station => { s with station := station }) = some s' →
        s'.Silent world := by
      intro hn
      obtain ⟨station, hstep, rfl⟩ := Option.map_eq_some_iff.mp hn
      exact h.station act hstep
    unfold Console.step at hs
    cases act with
    | call => cases hs
    | freshjzq => cases hs
    | timeout =>
      simp only at hs
      split at hs
      next => exact hnext hs
      next => cases hs
    | visit tag =>
      simp only at hs
      split at hs
      next => exact hnext hs
      next => cases hs
    | _ => exact hnext hs
  | read cmd tag db =>
    unfold Console.step at hs
    simp only at hs
    split at hs
    next =>
      split at hs
      next g_cmd replies _ =>
        have hread : ({ s with g_cmd := g_cmd } : Console).Silent world := h
        exact hread.replies tag db hs
      next => cases hs
    next => cases hs
  | register =>
    unfold Console.step at hs
    simp only at hs
    split at hs
    next w _ =>
      split at hs
      next => cases hs
      next =>
        cases hs
        refine ⟨h.1, h.2.1, fun call d hd => h.2.2 call d ?_⟩
        by_cases hcall : call = w.call
        · subst hcall
          cases (CmdMap.set_self _ _ _).symm.trans hd
        · exact (CmdMap.set_ne _ _ hcall).symm.trans hd
    next => cases hs
  | timeout =>
    unfold Console.step at hs
    simp only at hs
    split at hs
    next w _ =>
      split at hs
      next =>
        cases hs
        refine ⟨h.1, h.2.1, fun call d hd => h.2.2 call d ?_⟩
        by_cases hcall : call = w.call
        · subst hcall
          cases (CmdMap.erase_self _ _).symm.trans hd
        · exact (CmdMap.erase_ne _ hcall).symm.trans hd
      next => cases hs
    next => cases hs

end

/-- **In no run does a reading reach the data base or a waiting call**, however the meters are asked and whatever
they answer. -/
theorem silent_throughout (dataString : AckChain → Bytes) (helpstr : Bytes) (world : World) (time : Nat)
    (acts : List Act) :
    Run.Throughout (step dataString helpstr) (Silent world) (start world time) acts :=
  Run.throughout_of (I := Silent world) id (fun hI hs => hI.step hs) ⟨rfl, rfl, fun _ _ h => h⟩

/-! ## Service -/

def oneConcentrator : World :=
  { ConnectionPower.start with jzqList := ⟨[Jzq.construct "test" 0x1000 0x044d 1], 1⟩ }

-- a concentrator is connected and asked for its clock; it does not answer
def clockActs : List Act :=
  [.station (.accept 1 (0x1000, 0x044d)), .read (ascii "getclock test\r\n") ⟨0, 0, 0, 0⟩ ⟨[], []⟩,
    .station (.wait 10), .register, .timeout]

end Console

end Afn
