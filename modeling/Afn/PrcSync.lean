import Afn.Semaphore

/-!
# Locks between processes

`TYQPrcSync` of `YQProcess.cpp`: each process has a copy of the counters `FFlag`, and all use one set of semaphores.
The first entry of a process into a lock and its last exit operate on the semaphores, the others only count. The
timeout is 0, so that `semop` waits until it applies.
-/

namespace Afn

open Semaphore

def SyncCountMax : Nat := 12

structure TYQPrcSync where
  FCriticalCount : Nat
  FReadWriteCount : Nat
  FFlag : Nat → UInt16

namespace TYQPrcSync

/-- The counters and the semaphores. It throws when they are too many. -/
def create (CriticalCount ReadWriteCount : Nat) : Option (TYQPrcSync × (Nat → Nat)) :=
  let SyncCount := CriticalCount + ReadWriteCount * 3
  if SyncCountMax < SyncCount then none
  else some (⟨CriticalCount, ReadWriteCount, fun _ => 0⟩, fun i => if i < CriticalCount + ReadWriteCount then 1 else 0)

theorem create_some {CriticalCount ReadWriteCount : Nat} {made : TYQPrcSync × (Nat → Nat)}
    (h : create CriticalCount ReadWriteCount = some made) :
    made = (⟨CriticalCount, ReadWriteCount, fun _ => 0⟩,
      fun i => if i < CriticalCount + ReadWriteCount then 1 else 0) := by
  simp only [create] at h
  split at h
  · cases h
  · exact (Option.some.inj h).symm

def enter (sync : TYQPrcSync) (i : Nat) : TYQPrcSync × Bool :=
  let flag := sync.FFlag i + 1
  ({ sync with FFlag := Function.update sync.FFlag i flag }, flag == 1)

def leave (sync : TYQPrcSync) (i : Nat) : TYQPrcSync × Bool :=
  let flag := sync.FFlag i - 1
  ({ sync with FFlag := Function.update sync.FFlag i flag }, flag == 0)

theorem toNat_up (flag : UInt16) : (flag + 1).toNat = (flag.toNat + 1) % 65536 := by
  simp only [UInt16.toNat_add, UInt16.reduceToNat]

theorem toNat_down (flag : UInt16) : (flag - 1).toNat = (flag.toNat + 65535) % 65536 := by
  simp only [UInt16.toNat_sub, UInt16.reduceToNat]
  have h := flag.toNat_lt
  omega

theorem up_first {flag : UInt16} : (flag + 1 == 1) = true ↔ flag.toNat = 0 := by
  simp only [beq_iff_eq, ← UInt16.toNat_inj, toNat_up, UInt16.reduceToNat]
  have h := flag.toNat_lt
  omega

theorem down_last {flag : UInt16} : (flag - 1 == 0) = true ↔ flag.toNat = 1 := by
  simp only [beq_iff_eq, ← UInt16.toNat_inj, toNat_down, UInt16.reduceToNat]
  have h := flag.toNat_lt
  omega

/-! ## The calls

Each gives the counters and, when it goes on to `semop`, the operations. -/

def criticalLock (sync : TYQPrcSync) (SyncID : Nat) : TYQPrcSync × Option (List Sembuf) :=
  let (sync, Lock) := sync.enter SyncID
  (sync, if Lock then some [⟨SyncID, -1⟩] else none)

def criticalUnlock (sync : TYQPrcSync) (SyncID : Nat) : TYQPrcSync × Option (List Sembuf) :=
  let (sync, Unlock) := sync.leave SyncID
  (sync, if Unlock then some [⟨SyncID, 1⟩] else none)

def WRSyncID (sync : TYQPrcSync) (SyncID : Nat) : Nat := sync.FCriticalCount + sync.FReadWriteCount + SyncID * 2

def CriSyncID (sync : TYQPrcSync) (SyncID : Nat) : Nat := sync.FCriticalCount + SyncID

def readLock (sync : TYQPrcSync) (SyncID : Nat) : TYQPrcSync × Option (List Sembuf) :=
  let WRSyncID := sync.WRSyncID SyncID
  let (sync, Lock) := sync.enter WRSyncID
  (sync, if Lock then some [⟨WRSyncID + 1, 0⟩, ⟨WRSyncID, 1⟩] else none)

def readUnlock (sync : TYQPrcSync) (SyncID : Nat) : TYQPrcSync × Option (List Sembuf) :=
  let WRSyncID := sync.WRSyncID SyncID
  let (sync, Unlock) := sync.leave WRSyncID
  (sync, if Unlock then some [⟨WRSyncID, -1⟩] else none)

def writeLock (sync : TYQPrcSync) (SyncID : Nat) : TYQPrcSync × Option (List Sembuf) :=
  let WRSyncID := sync.WRSyncID SyncID
  let CriSyncID := sync.CriSyncID SyncID
  let (sync, Lock) := sync.enter WRSyncID
  (sync, if Lock then some [⟨WRSyncID, 0⟩, ⟨CriSyncID, -1⟩, ⟨WRSyncID + 1, 1⟩] else none)

def writeUnlock (sync : TYQPrcSync) (SyncID : Nat) : TYQPrcSync × Option (List Sembuf) :=
  let WRSyncID := sync.WRSyncID SyncID
  let CriSyncID := sync.CriSyncID SyncID
  let (sync, Unlock) := sync.leave WRSyncID
  (sync, if Unlock then some [⟨CriSyncID, 1⟩, ⟨WRSyncID + 1, -1⟩] else none)

end TYQPrcSync

/-! ## Processes that share a read/write lock -/

namespace ReadWrite

inductive Kind
  | read
  | write
  deriving DecidableEq

inductive Call
  | lock (kind : Kind)
  | unlock (kind : Kind)
  deriving DecidableEq

def call (sync : TYQPrcSync) (SyncID : Nat) : Call → TYQPrcSync × Option (List Sembuf)
  | .lock .read => sync.readLock SyncID
  | .lock .write => sync.writeLock SyncID
  | .unlock .read => sync.readUnlock SyncID
  | .unlock .write => sync.writeUnlock SyncID

/-- `blocked` is the call that waits in `semop`. `reads` and `writes` are the locks the process has returned from and
has not called the matching unlock of, and `outer` is the kind of the lock it called when it had none. -/
structure Process where
  sync : TYQPrcSync
  blocked : Option (Call × List Sembuf)
  reads : Nat
  writes : Nat
  outer : Kind

-- an unlock matches an earlier lock of the same kind
def Process.may (q : Process) : Call → Bool
  | .lock _ => true
  | .unlock .read => 0 < q.reads
  | .unlock .write => 0 < q.writes

def Process.called (q : Process) : Call → Process
  | .lock kind => if q.reads + q.writes = 0 then { q with outer := kind } else q
  | .unlock .read => { q with reads := q.reads - 1 }
  | .unlock .write => { q with writes := q.writes - 1 }

def Process.returned (q : Process) : Call → Process
  | .lock .read => { q with blocked := none, reads := q.reads + 1 }
  | .lock .write => { q with blocked := none, writes := q.writes + 1 }
  | .unlock _ => { q with blocked := none }

structure System (P : Type) where
  sem : Nat → Nat
  prc : P → Process

inductive Action (P : Type)
  | call (p : P) (c : Call)
  | semop (p : P)

section
variable {P : Type} [DecidableEq P]

def System.set (s : System P) (p : P) (q : Process) : System P := { s with prc := Function.update s.prc p q }

def initial (made : TYQPrcSync × (Nat → Nat)) : System P := ⟨made.2, fun _ => ⟨made.1, none, 0, 0, .read⟩⟩

/-- A call counts, and returns or goes on to `semop`; the operations apply later. A call with a wrong `SyncID` throws
before it does anything. -/
def step (SyncID : Nat) (s : System P) : Action P → Option (System P)
  | .call p c =>
    let q := s.prc p
    if q.blocked = none ∧ q.may c ∧ SyncID < q.sync.FReadWriteCount then
      let q := q.called c
      match call q.sync SyncID c with
      | (sync, none) => some (s.set p ({ q with sync := sync }.returned c))
      | (sync, some sops) => some (s.set p { q with sync := sync, blocked := some (c, sops) })
    else none
  | .semop p =>
    let q := s.prc p
    match q.blocked with
    | none => none
    | some (c, sops) =>
      match semop sops s.sem with
      | none => none
      | some sem => some ({ s with sem := sem }.set p (q.returned c))

end

end ReadWrite

end Afn
