import Afn.Calls

/-!
# The collection of meter readings

`JzqList::AutoGetAllKwh` of `ConnectionList.cpp` and `getallkwh_async` of `AFNPackageBuilder.cpp`: a timer of
the Telnet server goes through the records of the concentrators and asks for the readings of their meters,
while another thread accepts connections, receives and closes, and others call.
-/

namespace Afn

open Bytes Access AFNPackage

def TM_GETKWH : UInt32 := 60000

-- `TimeStart(m_getTimer)` of the record at the place `i`
def JzqList.startGetTimer (self : JzqList) (tick : UInt32) (i : Nat) : JzqList :=
  { self with m_jzqList := self.m_jzqList.modify i fun p => { p with m_getTimer := tick } }

/-- The loop of `getallkwh_async` over the meters of a record. `tag` is what the memory of a new data unit held,
and `pn` is cut to 16 bits. -/
def AFNPackageBuilder.requestAll (m_jzq : UInt16 × UInt16) (tag : PkgAfnDataTag) :
    List Element → (ret : Int) → Srv Int
  | [], ret => pure ret
  | ele :: eleLst, _ => do
    let w ← get
    let (_, ret, _) ← requestData m_jzq (AFN0C.createAllKwh w.mem.pAfn tag (UInt16.ofInt ele.pn)) 10
    requestAll m_jzq tag eleLst ret

-- `getallkwh_async` for a record: `ret` with the connection it found
def Hub.getallkwhAsync (s : Hub) (tag : PkgAfnDataTag) (pJzq : Jzq) : Option (Hub × Int × Option Connection) :=
  (s.lockConnection pJzq.m_name fun m_jzq => AFNPackageBuilder.requestAll m_jzq tag pJzq.eleLst YQER_OK).map fun r =>
    match r.2 with
    | some (c, ret) => (r.1, ret, some c)
    | none => (r.1, YQER_JZQ_NOTOK, none)

/-- One collection. No part of the program: it was made at `time` for the record `jzq` at the place `index`, on
the connection `found`, and `frames` are the requests written. -/
structure Poll where
  index : Nat
  time : Nat
  jzq : Jzq
  ret : Int
  found : Option Connection
  frames : List Bytes

/-- The connections, the clock of which the ticks are the low 32 bits, and the loop of `AutoGetAllKwh`, which
is at the record `iter`. `polls` and `visits` list the collections and the records looked at with the time,
the newest first. -/
structure Station where
  hub : Hub
  time : Nat
  iter : Option Nat
  polls : List Poll
  visits : List (Nat × Nat)

namespace Station

inductive Act
  | accept (bev : Nat) (m_jzq : UInt16 × UInt16)
  | frame (bev : Nat) (p : RecPkg)
  | close (bev : Nat)
  | call (tag : PkgAfnDataTag) (name : String) (a : Api)
  | freshjzq (db : Tables)
  | checkConnection
  | wait (ms : Nat)
  | timeout
  | visit (tag : PkgAfnDataTag)

def setHub (s : Station) (hub : Hub) : Station := { s with hub := hub }

/-- The body of the loop at the record `pJzq` in the place `i`. -/
def visitAt (s : Station) (tag : PkgAfnDataTag) (i : Nat) (pJzq : Jzq) : Option Station :=
  let s := { s with iter := some (i + 1), visits := (i, s.time) :: s.visits }
  let world := s.hub.world
  if TM_GETKWH < timeElapse world.tick pJzq.m_getTimer then
    let hub := { s.hub with world := { world with jzqList := world.jzqList.startGetTimer world.tick i } }
    (hub.getallkwhAsync tag pJzq).map fun (hub, ret, found) =>
      let frames := hub.world.sent.drop world.sent.length
      { s with hub := hub, polls := ⟨i, s.time, pJzq, ret, found, frames⟩ :: s.polls }
  else
    some s

/-- The thread of the Telnet server is in `AutoGetAllKwh` from `timeout` to the `visit` that finds no more
record, so `freshjzq` does not come in between; the steps of the other threads do. -/
def step (s : Station) : Act → Option Station
  | .accept bev m_jzq => (s.hub.step (.accept bev m_jzq)).map s.setHub
  | .frame bev p => (s.hub.step (.frame bev p)).map s.setHub
  | .close bev => (s.hub.step (.close bev)).map s.setHub
  | .call tag name a => (a.call s.hub tag name).map fun r => s.setHub r.1
  | .freshjzq db =>
    if s.iter = none then
      let world := { s.hub.world with jzqList := s.hub.world.jzqList.loadJzq db }
      some (s.setHub { s.hub with world := world })
    else none
  | .checkConnection =>
    let world := { s.hub.world with jzqList := s.hub.world.jzqList.checkConnection s.hub.world.tick }
    some (s.setHub { s.hub with world := world })
  | .wait ms =>
    let world := { s.hub.world with tick := UInt32.ofNat (s.time + ms) }
    some { s with time := s.time + ms, hub := { s.hub with world := world } }
  | .timeout => if s.iter = none then some { s with iter := some 0 } else none
  | .visit tag =>
    match s.iter with
    | some i =>
      match s.hub.world.jzqList.m_jzqList[i]? with
      | some pJzq => s.visitAt tag i pJzq
      | none => some { s with iter := none }
    | none => none

def start (world : World) (time : Nat) : Station :=
  ⟨Hub.start { world with tick := UInt32.ofNat time }, time, none, [], []⟩

end Station

end Afn
