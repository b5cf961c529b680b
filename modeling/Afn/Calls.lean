import Afn.Connections

/-!
# Calls

The calls of `AFNPackageBuilder.cpp` up to the wait for the response, and the data units of `AFN04.cpp` and
`AFN0C.cpp` that they send.
-/

namespace Afn

open Bytes Access AFNPackage

def YQER_JZQ_NOTOK : Int := -97

/-! ## Data units -/

namespace AFN0C

variable (self : PkgAfn) (tag : PkgAfnDataTag)

def createClock : PkgAfn := create self tag 0 2

def createRunStatus : PkgAfn := create self tag 0 11

def createAllKwh (pn : UInt16) : PkgAfn := create self tag pn 33

end AFN0C

namespace AFN04

variable (self : PkgAfn) (tag : PkgAfnDataTag)

-- the function code it sets is that of AFN 0C
def create (pn Fn : UInt16) : PkgAfn := AFN0C.create self tag pn Fn

def createPointBaseSetting (pn : UInt16) (_hasPW : Bool) : PkgAfn := create self tag pn 25

def createPointStatus : PkgAfn :=
  let p := create self tag 0 150
  { p with pAfnData := p.pAfnData.map fun d => { d with m_pData := List.replicate (256 * 2) 0 } }

end AFN04

/-! ## Requests -/

def JzqList.getJzqNamed (self : JzqList) (_name : String) : Option Jzq :=
  self.m_jzqList.find? fun p => p.m_name == _name

namespace Hub

def getJzqConnectionNamed (s : Hub) (_name : String) : Option Connection :=
  match s.world.jzqList.getJzqNamed _name with
  | some p => s.getJzqConnection p.m_areacode p.m_number
  | none => none

/-- `LOCK_CONNECTION(name)` before `body`, which is given the address of the connection: the hub afterwards, and
the connection with the result if one was found. -/
def lockConnection {α : Type} (s : Hub) (name : String) (body : UInt16 × UInt16 → Srv α) :
    Option (Hub × Option (Connection × α)) :=
  match s.getJzqConnectionNamed name with
  | some c =>
    let locked : Srv (ConnectionPower × α) := do
      let con ← c.con.clearRecPkgList
      let a ← body con.m_jzq
      return (con, a)
    match locked s.world with
    | .ok (con, a) w =>
      some ({ s with list := update c.bev (fun k => { k with con := con }) s.list, world := w }, some (c, a))
    | .error _ _ => none
  | none => some (s, none)

def request (s : Hub) (name : String) (afnData : PkgAfn) (n : Nat) : Option (Hub × Int × Option AppCall) :=
  (s.lockConnection name fun m_jzq => AFNPackageBuilder.requestData m_jzq afnData n).map fun r =>
    match r.2 with
    | some (_, _, ret, call) => (r.1, ret, some call)
    | none => (r.1, YQER_JZQ_NOTOK, none)

section
variable (s : Hub) (tag : PkgAfnDataTag) (name : String)

def setpointparams (pn : UInt16) : Option (Hub × Int × Option AppCall) :=
  s.request name (AFN04.createPointBaseSetting s.world.mem.pAfn tag pn true) 11

def setpointstatus : Option (Hub × Int × Option AppCall) :=
  s.request name (AFN04.createPointStatus s.world.mem.pAfn tag) 10

def getclock : Option (Hub × Int × Option AppCall) := s.request name (AFN0C.createClock s.world.mem.pAfn tag) 10

def getstatus : Option (Hub × Int × Option AppCall) := s.request name (AFN0C.createRunStatus s.world.mem.pAfn tag) 10

def getallkwh (pn : UInt16) : Option (Hub × Int × Option AppCall) :=
  s.request name (AFN0C.createAllKwh s.world.mem.pAfn tag pn) 10

end

end Hub

inductive Api
  | setpointparams (pn : UInt16)
  | setpointstatus
  | getclock
  | getstatus
  | getallkwh (pn : UInt16)
  deriving DecidableEq, Repr

def Api.call (s : Hub) (tag : PkgAfnDataTag) (name : String) : Api → Option (Hub × Int × Option AppCall)
  | setpointparams pn => s.setpointparams tag name pn
  | setpointstatus => s.setpointstatus tag name
  | getclock => s.getclock tag name
  | getstatus => s.getstatus tag name
  | getallkwh pn => s.getallkwh tag name pn

end Afn
