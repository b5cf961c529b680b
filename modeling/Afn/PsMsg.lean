import Afn.Bytes
import Afn.Loop
import Afn.TypedQueue
import Mathlib.Algebra.Order.Group.Nat
import Mathlib.Logic.Function.Basic

/-!
# Messages between processes

`TYQMsgQueue` and `TYQPsMsg` of `YQProcess.cpp`: processes share a message queue, on which they send to a type and
receive what is sent to their own. A process that cannot send because the queue is full receives meanwhile.
-/

namespace Afn

open Bytes TypedQueue

/-! ## Messages -/

def intBytes (v : Int32) : Bytes :=
  let n := v.toUInt32.toNat
  [UInt8.ofNat n, UInt8.ofNat (n / 2 ^ 8), UInt8.ofNat (n / 2 ^ 16), UInt8.ofNat (n / 2 ^ 24)]

def intAt (b : Bytes) (off : Nat) : Int32 :=
  .ofUInt32 (.ofNat ((byteAt b off).toNat + 2 ^ 8 * (byteAt b (off + 1)).toNat +
    2 ^ 16 * (byteAt b (off + 2)).toNat + 2 ^ 24 * (byteAt b (off + 3)).toNat))

structure YQTcpMsg where
  Flow : Int32
  MsgInt1 : Int32
  MsgInt2 : Int32
  MsgStr : Bytes
  length_MsgStr : MsgStr.length = 48
  deriving DecidableEq

namespace YQTcpMsg

def size : Nat := 60

def toBytes (m : YQTcpMsg) : Bytes := intBytes m.Flow ++ intBytes m.MsgInt1 ++ intBytes m.MsgInt2 ++ m.MsgStr

def ofBytes (b : Bytes) (h : size ≤ b.length) : YQTcpMsg where
  Flow := intAt b 0
  MsgInt1 := intAt b 4
  MsgInt2 := intAt b 8
  MsgStr := slice b 12 48
  length_MsgStr := length_slice_of_le h

/-- The header that `SendMsg` makes: of `MsgStr` at most 48 bytes, and zeros behind them. -/
def make (Flow MsgInt1 MsgInt2 : Int32) (MsgStr : Bytes) : YQTcpMsg where
  Flow := Flow
  MsgInt1 := MsgInt1
  MsgInt2 := MsgInt2
  MsgStr := (MsgStr ++ List.replicate 48 0).take 48
  length_MsgStr := by simp

end YQTcpMsg

/-! ## The queue -/

namespace TYQMsgQueue

/-- `Send` without blocking: whether the message is in the queue. `none` is an exception. -/
def send (FMsgQID : Int) (q : Queue UInt8) (Msg : Bytes) (MsgType : Int) : Option (Bool × Queue UInt8) :=
  if FMsgQID ≠ -1 then
    match q.msgsnd MsgType Msg with
    | .sent q => some (true, q)
    | .full => some (false, q)
    | .invalid => none
  else none

/-- `Receive` without blocking: the bytes put into `Msg`, which are none when there is no message, and of what
type they were. -/
def receive (FMsgQID : Int) (q : Queue UInt8) (MsgSize : Nat) (MsgType : Int) :
    Option (Option (Int × Bytes) × Queue UInt8) :=
  if FMsgQID ≠ -1 then
    match q.msgrcv MsgType with
    | some (m, q) => some (some (m.1, m.2.take MsgSize), q)
    | none => some (none, q)
  else none

end TYQMsgQueue

/-! ## Processes -/

/-- A call of `SendMsg` under way; `full` when its last try has failed. -/
structure Pending where
  MsgType : Int
  msg : YQTcpMsg
  stream : Bytes
  full : Bool
  deriving DecidableEq

def Pending.buf (p : Pending) : Bytes := p.msg.toBytes ++ p.stream

/-- `sends` are the calls of `SendMsg`, the innermost first: `OnReceive` may call it. -/
structure TYQPsMsg where
  FMsgQID : Int
  FMsgType : Int
  sends : List Pending

/-- A call of `OnReceive`. No part of the program: the process and the type the message was sent to. -/
structure Receipt where
  proc : Nat
  type : Int
  msg : YQTcpMsg
  stream : Bytes

/-- The processes with their queue. `msgmnb` is what `IPC_INFO` says; `sent` and `received` list the messages put
into the queue and given to `OnReceive`. -/
structure Post where
  queue : Queue UInt8
  msgmnb : Nat
  procs : Nat → TYQPsMsg
  sent : List (Int × YQTcpMsg × Bytes)
  received : List Receipt

namespace Post

def setProc (s : Post) (i : Nat) (p : TYQPsMsg) : Post := { s with procs := Function.update s.procs i p }

/-- `Execute`: a message that is too short for the header is not looked at. `none` is an exception. -/
def receive (s : Post) (i : Nat) : Option Post :=
  match TYQMsgQueue.receive (s.procs i).FMsgQID s.queue s.msgmnb (s.procs i).FMsgType with
  | some (some (type, buf), queue) =>
    if h : YQTcpMsg.size ≤ buf.length then
      some { s with
        queue := queue
        received := s.received ++ [⟨i, type, .ofBytes buf h, buf.drop YQTcpMsg.size⟩] }
    else some { s with queue := queue }
  | some (none, queue) => some { s with queue := queue }
  | none => none

inductive Act
  | sendMsg (i : Nat) (MsgType : Int) (Flow MsgInt1 MsgInt2 : Int32) (MsgStr stream : Bytes)
  | tryAgain (i : Nat)
  | execute (i : Nat)

-- an exception leaves every call of `SendMsg` of the process
def throwAt (s : Post) (i : Nat) : Post := s.setProc i { s.procs i with sends := [] }

/-- A process calls `SendMsg`, which then tries to send, or `Execute`. A call that has failed to send calls
`Execute` before it tries again. A message is taken from the queue and given to `OnReceive` in one step. -/
def step (s : Post) : Act → Option Post
  | .sendMsg i MsgType Flow MsgInt1 MsgInt2 MsgStr stream =>
    let call := ⟨MsgType, .make Flow MsgInt1 MsgInt2 MsgStr, stream, false⟩
    some (s.setProc i { s.procs i with sends := call :: (s.procs i).sends })
  | .tryAgain i =>
    match (s.procs i).sends with
    | [] => none
    | call :: calls =>
      if call.full then none
      else
        match TYQMsgQueue.send (s.procs i).FMsgQID s.queue call.buf call.MsgType with
        | some (true, queue) =>
          let s := s.setProc i { s.procs i with sends := calls }
          some { s with queue := queue, sent := s.sent ++ [(call.MsgType, call.msg, call.stream)] }
        | some (false, _) => some (s.setProc i { s.procs i with sends := { call with full := true } :: calls })
        | none => some (s.throwAt i)
  | .execute i =>
    match s.receive i with
    | some s =>
      match (s.procs i).sends with
      | [] => some s
      | call :: calls => some (s.setProc i { s.procs i with sends := { call with full := false } :: calls })
    | none => some (s.throwAt i)

def start (msgmnb msgmax : Nat) (FMsgQID FMsgType : Nat → Int) : Post :=
  ⟨⟨[], msgmnb, msgmax⟩, msgmnb, fun i => ⟨FMsgQID i, FMsgType i, []⟩, [], []⟩

/-! ## One process -/

/-- A turn of the loop of `SendMsg` in the process `i`, when no other process acts and `OnReceive` does not send. -/
def sendTurn (i : Nat) (MsgType : Int) (buf : Bytes) (s : Post) : Except Unit (Post ⊕ Post) :=
  match TYQMsgQueue.send (s.procs i).FMsgQID s.queue buf MsgType with
  | some (true, queue) => .ok (.inr { s with queue := queue })
  | some (false, _) =>
    match s.receive i with
    | some s => .ok (.inl s)
    | none => .error ()
  | none => .error ()

end Post

end Afn
