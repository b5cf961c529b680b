import Afn.PrcSync

/-!
# The log of several processes

`TLogFileMp` of `YQProcess.cpp`: a thread that writes the log takes the mutex of its process and the critical lock 0
of all processes, which it may do again while it has them. A step of a thread is a call of a mutex, of `semop`, or a
change of the counter under the mutex of `TYQPrcSync`.
-/

namespace Afn

open Semaphore

namespace LogFileMp

inductive Call
  | Lock
  | Unlock
  deriving DecidableEq

def critical (sync : TYQPrcSync) : Call → TYQPrcSync × Option (List Sembuf)
  | .Lock => sync.criticalLock 0
  | .Unlock => sync.criticalUnlock 0

inductive Place
  -- not in a call
  | outside
  -- `Lock` takes the mutex of the log
  | locking
  -- the critical lock takes the mutex of the counters, and changes the counter
  | entering (c : Call)
  | counting (c : Call)
  -- it gives that mutex back, and goes on to `semop` or not
  | counted (c : Call) (sops : Option (List Sembuf))
  | operating (c : Call) (sops : List Sembuf)
  -- `Unlock` gives the mutex of the log back
  | releasing
  deriving DecidableEq

/-- `depth` is the number of times `Lock` has returned without the matching `Unlock` being called. -/
structure Thread where
  place : Place
  depth : Nat

/-- `FMutex` is that of the log, `syncMutex` that of the counters. -/
structure Process (T : Type) where
  FMutex : Mutex T
  syncMutex : Mutex T
  sync : TYQPrcSync

structure System (P T : Type) where
  sem : Nat → Nat
  prc : P → Process T
  thr : T → Thread

inductive Action (T : Type)
  | call (t : T) (c : Call)
  | next (t : T)

section
variable {P T : Type} [DecidableEq P] [DecidableEq T]

def System.setThread (s : System P T) (t : T) (th : Thread) : System P T :=
  { s with thr := Function.update s.thr t th }

def System.setProcess (s : System P T) (p : P) (q : Process T) : System P T :=
  { s with prc := Function.update s.prc p q }

def initial (made : TYQPrcSync × (Nat → Nat)) : System P T :=
  ⟨made.2, fun _ => ⟨.free, .free, made.1⟩, fun _ => ⟨.outside, 0⟩⟩

def done (depth : Nat) : Call → Thread
  | .Lock => ⟨.outside, depth + 1⟩
  | .Unlock => ⟨.releasing, depth⟩

/-- The next step of a thread of the process `p`; `none` while it waits. When there is no critical lock 0, the call
throws and the thread does not come back. -/
def next (p : P) (s : System P T) (t : T) : Option (System P T) :=
  let q := s.prc p
  let depth := (s.thr t).depth
  match (s.thr t).place with
  | .outside => none
  | .locking => do
    let m ← q.FMutex.lock t
    return (s.setProcess p { q with FMutex := m }).setThread t ⟨.entering .Lock, depth⟩
  | .entering c =>
    if 0 < q.sync.FCriticalCount then do
      let m ← q.syncMutex.lock t
      return (s.setProcess p { q with syncMutex := m }).setThread t ⟨.counting c, depth⟩
    else none
  | .counting c =>
    let (sync, sops) := critical q.sync c
    some ((s.setProcess p { q with sync := sync }).setThread t ⟨.counted c sops, depth⟩)
  | .counted c sops =>
    let s := s.setProcess p { q with syncMutex := q.syncMutex.unlock t }
    match sops with
    | none => some (s.setThread t (done depth c))
    | some sops => some (s.setThread t ⟨.operating c sops, depth⟩)
  | .operating c sops => do
    let sem ← semop sops s.sem
    return { s with sem := sem }.setThread t (done depth c)
  | .releasing => some ((s.setProcess p { q with FMutex := q.FMutex.unlock t }).setThread t ⟨.outside, depth⟩)

/-- `home` is the process of a thread. An `Unlock` matches an earlier `Lock` of its thread. -/
def step (home : T → P) (s : System P T) : Action T → Option (System P T)
  | .call t c =>
    match (s.thr t).place, c with
    | .outside, .Lock => some (s.setThread t { s.thr t with place := .locking })
    | .outside, .Unlock =>
      if 0 < (s.thr t).depth then some (s.setThread t ⟨.entering .Unlock, (s.thr t).depth - 1⟩) else none
    | _, _ => none
  | .next t => next (home t) s t

end

end LogFileMp

end Afn
