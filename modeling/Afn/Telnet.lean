import Afn.CString

/-!
# The telnet console

The read callback of `TelnetServer.cpp`: the bytes read are put behind what `g_cmd` holds, and once that
holds a newline it is taken apart into a command and its parameters. Of the commands only what they ask for
is modelled, not what the lists of concentrators and meters answer.
-/

namespace Afn

open Bytes Access

namespace TelnetServer

def ascii (s : String) : Bytes := s.toList.map fun c => UInt8.ofNat c.toNat

/-! ## Parameters -/

def isSpace (c : UInt8) : Bool := c == 32 || (9 ≤ c && c ≤ 13)

-- the digits that `strtol` reads behind the value `v`
def strtolDigits (v : Nat) : Bytes → Nat
  | [] => v
  | c :: s => if 48 ≤ c ∧ c ≤ 57 then strtolDigits (10 * v + (c.toNat - 48)) s else v

/-- The value is kept within a 64-bit `long`. -/
def strtol (s : Bytes) : Int :=
  match s.dropWhile isSpace with
  | [] => 0
  | c :: r =>
    if c = 45 then max (-(strtolDigits 0 r : Int)) (-(2 ^ 63))
    else if c = 43 then min (strtolDigits 0 r) (2 ^ 63 - 1)
    else min (strtolDigits 0 (c :: r)) (2 ^ 63 - 1)

def atoi (s : Bytes) : Int := toInt32 (strtol s % 2 ^ 32).toNat

inductive Action
  | ls
  | quit
  | setpointparams (name : Bytes) (pn : Int)
  | setpointstatus (name : Bytes)
  | getclock (name : Bytes)
  | getstatus (name : Bytes)
  | getallkwh (name : Bytes) (pn : Int)
  | freshjzq
  | paramError
  | notSupported
  deriving DecidableEq, Repr

def withName (params : List Bytes) (f : Bytes → Action) : Action :=
  match params with
  | _ :: name :: _ => f name
  | _ => .paramError

def withPn (params : List Bytes) (f : Bytes → Int → Action) : Action :=
  match params with
  | _ :: name :: pn :: _ => f name (atoi pn)
  | _ => .paramError

/-- The chain of comparisons of `params[0]`. -/
def dispatch (params : List Bytes) : Action :=
  let cmd := params.headD []
  if cmd = ascii "ls" then .ls
  else if cmd = ascii "quit" then .quit
  else if cmd = ascii "setpointparams" then withPn params .setpointparams
  else if cmd = ascii "setpointstatus" then withName params .setpointstatus
  else if cmd = ascii "getclock" then withName params .getclock
  else if cmd = ascii "getstatus" then withName params .getstatus
  else if cmd = ascii "getallkwh" then withPn params .getallkwh
  else if cmd = ascii "freshjzq" then .freshjzq
  else .notSupported

/-! ## The callback -/

inductive Reply
  | prompt (msg : Bytes)
  | command (params : List Bytes) (action : Action)
  deriving DecidableEq, Repr

def execute (params : List Bytes) : Reply := .command params (dispatch params)

def isBlank (c : UInt8) : Bool := c == 32 || c == 9 || c == 13 || c == 10

/-- The loop over `g_cmd`: what is in `tmp` at its end is left out. -/
def scan : (g_cmd tmp : Bytes) → (params : List Bytes) → List Bytes
  | [], _, params => params
  | c :: g_cmd, tmp, params =>
    if isBlank c then scan g_cmd [] (if tmp ≠ [] then params ++ [tmp] else params)
    else scan g_cmd (tmp ++ [c]) params

/-- The callback with the bytes that `bufferevent_read` has put into `cmd`; the result is the new `g_cmd`. Both
arrays, `cmd` and `msg`, have 512 bytes. -/
def connReadcb (g_cmd cmd : Bytes) : Except Fault (Bytes × List Reply) :=
  match cmd.getLast? with
  | none => .error .outOfBounds
  | some last =>
    if 512 ≤ cmd.length then .error .outOfBounds
    else if last = 8 then
      let g_cmd := g_cmd.dropLast
      let msg := ascii "\r\n$" ++ cString g_cmd
      if 512 ≤ msg.length then .error .outOfBounds
      else .ok (g_cmd, [.prompt msg])
    else
      let g_cmd := g_cmd ++ cString cmd
      if 10 ∈ g_cmd then
        let params := scan g_cmd [] []
        if params = [] then .ok (g_cmd, [])
        else .ok ([], [execute params])
      else .ok (g_cmd, [])

/-- What the callbacks share, and what they have done so far. -/
structure Session where
  g_cmd : Bytes
  replies : List Reply
  deriving DecidableEq, Repr

def Session.read (s : Session) (cmd : Bytes) : Except Fault Session := do
  let (g_cmd, out) ← connReadcb s.g_cmd cmd
  return ⟨g_cmd, s.replies ++ out⟩

def serve (reads : List Bytes) : Except Fault Session := reads.foldlM Session.read ⟨[], []⟩

end TelnetServer

end Afn
