import Afn.Polling
import Afn.Telnet

/-!
# The console

`TelnetServer::conn_readcb` with what the commands do: a call writes its request and then waits in `Wait` of
`AFNPackageBuilder.cpp`, while the other thread accepts, receives and closes. The thread of the console is also that
of the poll timer.
-/

namespace Afn

open Bytes Access

def nameOf (s : Bytes) : String := String.ofList (s.map fun c => Char.ofNat c.toNat)

def Jzq.printInfo (self : Jzq) : String :=
  "totalEle(" ++ toString self.eleLst.length ++ "),name(" ++ self.m_name ++ "),areacode(" ++
    toString self.m_areacode.toNat ++ "),address(" ++ toString self.m_number.toNat ++ "),state(" ++
    (if self.m_tag &&& 0x1 ≠ 0 then "config:yes," else "config:no,") ++
    (if self.m_tag &&& 0x2 ≠ 0 then "online:yes)" else "online:no)") ++
    "\r\n-------------------------------------------------------------------------------\r\n"

-- `LoadWater` loads nothing
def JzqList.print (self : JzqList) : String := String.join (self.m_jzqList.map Jzq.printInfo)

/-- The call that a command makes, with its name and that of the concentrator; a number is cut to 16 bits. -/
def TelnetServer.Action.api : TelnetServer.Action → Option (String × Bytes × Api)
  | .setpointparams name pn => some ("setpointparams", name, .setpointparams (UInt16.ofInt pn))
  | .setpointstatus name => some ("setpointstatus", name, .setpointstatus)
  | .getclock name => some ("getclock", name, .getclock)
  | .getstatus name => some ("getstatus", name, .getstatus)
  | .getallkwh name pn => some ("getallkwh", name, .getallkwh (UInt16.ofInt pn))
  | _ => none

open TelnetServer

/-- The thread is in a call: before `cmdMap[call] = NULL`, or `registered` after it. -/
structure Waiting where
  cmd : String
  ret : Int
  call : AppCall
  registered : Bool

/-- The server with its console; `written` is what the client is given, and `freed` counts the `bufferevent`s that
`quit` has freed. -/
structure Console where
  station : Station
  g_cmd : Bytes
  waiting : Option Waiting
  written : List Bytes
  freed : Nat

namespace Console

/-- `db` is what `freshjzq` would find, `tag` what the memory of a new data unit would hold. -/
inductive Act
  | station (act : Station.Act)
  | read (cmd : Bytes) (tag : PkgAfnDataTag) (db : Tables)
  | register
  | timeout

def write (s : Console) (msg : Bytes) : Console := { s with written := s.written ++ [msg] }

section
-- `toString` of the data units, and the text `helpstr`
variable (dataString : AckChain → Bytes) (helpstr : Bytes)

def answer (cmd : String) (ret : Int) (p : Option AckChain) : Bytes :=
  ascii (cmd ++ " return " ++ toString ret ++ "\r\n") ++
    match p with
    | some p => dataString p ++ ascii "\r\n$"
    | none => ascii "$"

def call (s : Console) (tag : PkgAfnDataTag) (cmd : String) (name : Bytes) (a : Api) : Option Console :=
  (a.call s.station.hub tag (nameOf name)).map fun (hub, ret, key) =>
    let s := { s with station := s.station.setHub hub }
    match key with
    | some call => { s with waiting := some ⟨cmd, ret, call, false⟩ }
    | none => s.write (answer dataString cmd ret none)

def execute (s : Console) (tag : PkgAfnDataTag) (db : Tables) (action : Action) : Option Console :=
  match action.api with
  | some (cmd, name, a) => s.call dataString tag cmd name a
  | none =>
    match action with
    | .ls => some (s.write (ascii (s.station.hub.world.jzqList.print ++ "$")))
    | .freshjzq =>
      (s.station.step (.freshjzq db)).map fun station =>
        { s with station := station }.write (ascii (station.hub.world.jzqList.print ++ "\r\n$"))
    | .paramError => some (s.write (ascii "param error\r\n$"))
    | .notSupported => some (s.write (ascii "not support command\r\n" ++ helpstr))
    -- `quit`
    | _ => some { s with freed := s.freed + 1 }

def reply (s : Console) (tag : PkgAfnDataTag) (db : Tables) : Reply → Option Console
  | .prompt msg => some (s.write msg)
  | .command _ action => s.execute dataString helpstr tag db action

def step (s : Console) : Act → Option Console
  | .station act =>
    let next := (s.station.step act).map fun station => { s with station := station }
    match act with
    -- these come from commands
    | .call _ _ _ | .freshjzq _ => none
    | .timeout | .visit _ => if s.waiting.isNone then next else none
    | _ => next
  | .read cmd tag db =>
    if s.waiting.isNone ∧ s.station.iter = none then
      match connReadcb s.g_cmd cmd with
      | .ok (g_cmd, replies) =>
        replies.foldlM (fun s r => s.reply dataString helpstr tag db r) { s with g_cmd := g_cmd }
      | .error _ => none
    else none
  | .register =>
    match s.waiting with
    | some w =>
      if w.registered then none
      else
        let world := s.station.hub.world
        let world := { world with cmdMap := world.cmdMap.set w.call none }
        some { s with
          station := s.station.setHub { s.station.hub with world := world }
          waiting := some { w with registered := true } }
    | none => none
  -- the end of `Wait`; until a result is there it goes on for ten seconds
  | .timeout =>
    match s.waiting with
    | some w =>
      if w.registered then
        let world := s.station.hub.world
        let p := (world.cmdMap w.call).join
        let world := { world with cmdMap := world.cmdMap.erase w.call }
        some ({ s with
          station := s.station.setHub { s.station.hub with world := world }
          waiting := none }.write (answer dataString w.cmd w.ret p))
      else none
    | none => none

end

def start (world : World) (time : Nat) : Console := ⟨Station.start world time, [], none, [], 0⟩

end Console

end Afn
