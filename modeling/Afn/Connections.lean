import Afn.ServerSound

/-!
# The list of connections

The connection part of `ConnectionList.cpp`: connections are accepted, receive frames and are closed, in any
order. A connection is known by its `bufferevent`.
-/

namespace Afn

open Bytes Access AFNPackage

/-- A power connection in the list. No part of the program: `opened` is what its memory held at `m_jzq`, and
`log` lists the frames it has received with their times, the newest first. -/
structure Connection where
  bev : Nat
  con : ConnectionPower
  opened : UInt16 × UInt16
  log : List (Nat × AFNPackage)

/-- The connections in the order they were accepted, and the world behind them. -/
structure Hub where
  list : List Connection
  world : World
  now : Nat

namespace Hub

def newJzqConnection (s : Hub) (bev : Nat) (m_jzq : UInt16 × UInt16) : Hub :=
  { s with list := s.list ++ [⟨bev, ⟨m_jzq, []⟩, m_jzq, []⟩] }

def getConnection (s : Hub) (bev : Nat) : Option Connection := s.list.find? (·.bev == bev)

def getJzqConnection (s : Hub) (_areacode _number : UInt16) : Option Connection :=
  s.list.find? fun old => old.con.m_jzq.1 == _areacode && old.con.m_jzq.2 == _number

-- `delConnection` with the destructor of the connection
def delConnection (s : Hub) (bev : Nat) : Hub :=
  match s.getConnection bev with
  | some c =>
    { s with
      list := s.list.eraseP (·.bev == bev)
      world := { s.world with
        jzqList := s.world.jzqList.delConnection s.world.tick c.con.m_jzq.1 c.con.m_jzq.2 } }
  | none => s

inductive Act
  | accept (bev : Nat) (m_jzq : UInt16 × UInt16)
  | frame (bev : Nat) (p : RecPkg)
  | close (bev : Nat)
  | clock (tick : UInt32)

def update (bev : Nat) (f : Connection → Connection) : List Connection → List Connection
  | [] => []
  | c :: cs => if c.bev == bev then f c :: cs else c :: update bev f cs

-- the connection of `bev` has become `con` by receiving `pkg`
def received (s : Hub) (bev : Nat) (con : ConnectionPower) (pkg : AFNPackage) : List Connection :=
  update bev (fun c => { c with con := con, log := (s.now, pkg) :: c.log }) s.list

/-- A `bufferevent` in use is not accepted again; a frame that makes its handling fault ends the run. -/
def step (s : Hub) : Act → Option Hub
  | .accept bev m_jzq => if (s.getConnection bev).isSome then none else some (s.newJzqConnection bev m_jzq)
  | .frame bev p =>
    match s.getConnection bev with
    | some c =>
      match c.con.receive p.pkg s.world with
      | .ok r w => some ⟨s.received bev r.1 p.pkg, w, s.now + 1⟩
      | .error _ _ => none
    | none => some s
  | .close bev => some (s.delConnection bev)
  | .clock tick => some { s with world := { s.world with tick := tick } }

def start (world : World) : Hub := ⟨[], world, 0⟩

end Hub

end Afn
