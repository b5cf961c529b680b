/-!
# The managing process

`TSvrAdm` of `svr.cpp` on `TYQProcess` and `TYQProcessMsg` of `YQProcess.cpp`: a process that starts another one,
starts it again when it exits, and ends it when it is to end itself. The exit is reported by `SIGCHLD`, whose handler
runs between any two steps of the main program.
-/

namespace Afn

/-- A process that has been forked, until it is waited for. -/
structure SubPrc where
  pid : Int
  exited : Bool
  deriving DecidableEq, Repr

/-- Where the main program is: in the loop of `OnStart`, in `OnRun`, or in `AfterRun`. -/
inductive Pc
  | top
  | onRun
  | fork
  -- `fork` has returned, and `FPid` is to be set, then tested, and then `OnParentRun` called
  | forked (ret : Int)
  | stored
  | parentRun
  | afterRun
  | terminate
  -- `GetPid` has returned
  | kill (pid : Int)
  | wait
  | waiting (pid : Int)
  | delete
  -- the object is deleted, and `FMyMg` is to be set to `NULL`
  | clear
  | ended
  -- an object that is deleted, or `NULL`, has been used
  | fault
  deriving DecidableEq, Repr

/-- `FMyMg` is the `FPid` of the object. `pending` says that `SIGCHLD` waits to be handled, `handling` that its handler
is in `wait`. Of every `SIGTERM` that was sent, `killed` has to whom, and whether that was an own process. -/
structure TSvrAdm where
  pc : Pc
  FMyMg : Option Int
  FTerminated : Bool
  children : List SubPrc
  pending : Bool
  handling : Bool
  killed : List (Int × Bool)
  deriving DecidableEq, Repr

/-- `none` while it blocks. The processes are of one group. -/
def waitpid (children : List SubPrc) (pid : Int) : Option (Int × List SubPrc) :=
  let mine := fun c : SubPrc => decide (pid = -1 ∨ pid = 0 ∨ c.pid = pid)
  if children.any mine then
    (children.find? fun c => mine c && c.exited).map fun c => (c.pid, children.erase c)
  else some (-1, children)

namespace TSvrAdm

def start : TSvrAdm := ⟨.top, none, false, [], false, false, []⟩

inductive Act
  -- `ret` is what `fork` returns
  | main (ret : Int)
  | exit (pid : Int)
  -- a process has stopped, or another process has sent the signal
  | sigchld
  | sigterm
  | deliver
  | collect
  deriving DecidableEq, Repr

def hasPid (s : TSvrAdm) (pid : Int) : Bool := s.children.any fun c => c.pid == pid

def main (s : TSvrAdm) (ret : Int) : Option TSvrAdm :=
  match s.pc with
  | .top => some { s with pc := if s.FTerminated then .afterRun else .onRun }
  | .onRun =>
    match s.FMyMg with
    | none => some { s with FMyMg := some 0, pc := .fork }
    | some _ => some { s with pc := .top }
  | .fork =>
    if ret = -1 then some { s with pc := .forked ret }
    else if 0 < ret ∧ s.hasPid ret = false then
      some { s with children := s.children ++ [⟨ret, false⟩], pc := .forked ret }
    else none
  | .forked ret =>
    match s.FMyMg with
    | none => some { s with pc := .fault }
    | some _ => some { s with FMyMg := some ret, pc := .stored }
  | .stored =>
    match s.FMyMg with
    | none => some { s with pc := .fault }
    -- the exception for a negative one is caught in the loop
    | some pid => some { s with pc := if pid < 0 then .top else .parentRun }
  | .parentRun =>
    match s.FMyMg with
    | none => some { s with pc := .fault }
    | some _ => some { s with pc := .top }
  | .afterRun =>
    match s.FMyMg with
    | none => some { s with pc := .ended }
    | some _ => some { s with pc := .terminate }
  | .terminate =>
    match s.FMyMg with
    | none => some { s with pc := .fault }
    | some pid => some { s with pc := .kill pid }
  | .kill pid => some { s with killed := s.killed ++ [(pid, s.hasPid pid)], pc := .wait }
  | .wait =>
    match s.FMyMg with
    | none => some { s with pc := .fault }
    | some pid => some { s with pc := .waiting pid }
  | .waiting pid => (waitpid s.children pid).map fun r => { s with children := r.2, pc := .delete }
  | .delete => some { s with pc := .clear }
  | .clear => some { s with FMyMg := none, pc := .ended }
  | .ended => none
  | .fault => none

/-- The handler after `wait(NULL)`. It calls `GetPid` of the object, deleted or not. -/
def onSignal (s : TSvrAdm) (SubPid : Int) : TSvrAdm :=
  if s.pc = .clear ∧ s.FMyMg.isSome then { s with pc := .fault, handling := false }
  else { s with FMyMg := if s.FMyMg = some SubPid then none else s.FMyMg, handling := false }

def step (s : TSvrAdm) : Act → Option TSvrAdm
  | .main ret => if s.handling then none else s.main ret
  | .exit pid =>
    if ⟨pid, false⟩ ∈ s.children then
      some { s with
        children := s.children.map fun c => if c = ⟨pid, false⟩ then ⟨pid, true⟩ else c
        pending := true }
    else none
  | .sigchld => some { s with pending := true }
  | .sigterm => some { s with FTerminated := true }
  | .deliver =>
    if s.pending = true ∧ s.handling = false then some { s with pending := false, handling := true }
    else none
  | .collect =>
    if s.handling then
      (waitpid s.children (-1)).map fun r => onSignal { s with children := r.2 } r.1
    else none

end TSvrAdm

end Afn
