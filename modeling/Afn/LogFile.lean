import Afn.Telnet
import Mathlib.Logic.Function.Basic

/-!
# The log file

`Log`, `Write` and `SetLogClsOutput` of `LogFileu.cpp`: processes write records to one file, one record after another
by the locks of `TLogFileMp` (`LogWriters`); those of `TLogFile` itself are empty. A file that would become too long is
renamed first.
-/

namespace Afn

open Bytes TelnetServer

structure Tm where
  tm_year : Nat
  tm_mon : Nat
  tm_mday : Nat
  tm_hour : Nat
  tm_min : Nat
  tm_sec : Nat
  deriving DecidableEq, Repr

def twoDigits (n : Nat) : String := if n < 10 then "0" ++ toString n else toString n

inductive LOGCLS
  | LOG_INFORMATION
  | LOG_MINOR
  | LOG_MAJOR
  | LOG_CRITICAL
  deriving DecidableEq, Repr

namespace LOGCLS

def toNat : LOGCLS → Nat
  | LOG_INFORMATION => 0
  | LOG_MINOR => 1
  | LOG_MAJOR => 2
  | LOG_CRITICAL => 3

def text : LOGCLS → String
  | LOG_INFORMATION => "Info"
  | LOG_MINOR => "Minor"
  | LOG_MAJOR => "Major"
  | LOG_CRITICAL => "Critical"

end LOGCLS

/-! ## Files -/

/-- The file that is written, and the files it has been renamed to, the latest one last. -/
structure LogDisk where
  file : Option Bytes
  archives : List (String × Bytes)
  deriving DecidableEq, Repr

-- a file that there is with the name `DestFile` is gone then
def LogDisk.rename (d : LogDisk) (DestFile : String) : LogDisk :=
  match d.file with
  | some content => ⟨none, d.archives.filter (fun a => a.1 ≠ DestFile) ++ [(DestFile, content)]⟩
  | none => d

def LogDisk.fopen (d : LogDisk) : LogDisk := { d with file := some (d.file.getD []) }

def LogDisk.fwrite (d : LogDisk) (Cont : Bytes) : LogDisk := { d with file := some (d.file.getD [] ++ Cont) }

/-- One `TLogFile` in every process. -/
structure TLogFile where
  FFileName : String
  FMaxLen : UInt32
  FModule : String
  FVersion : String

namespace TLogFile

def destFile (self : TLogFile) (p : Tm) : String :=
  self.FFileName ++ "." ++ twoDigits (1 + p.tm_mon) ++ twoDigits p.tm_mday ++ "_" ++ twoDigits p.tm_hour ++
    twoDigits p.tm_min ++ twoDigits p.tm_sec

/-- The loop of `Write`; `times` are the answers of `time`, one for each turn. The file has been opened, and its
length is taken by `ftell`, which is 0 for a file opened anew. -/
def makeRoom (self : TLogFile) (ContLen : Nat) : (times : List Tm) → (FileLen : Nat) → LogDisk → Option LogDisk
  | times, FileLen, d =>
    if self.FMaxLen.toNat < (FileLen + ContLen) % 2 ^ 32 then
      match times with
      | p :: times => makeRoom self ContLen times 0 (d.rename (self.destFile p)).fopen
      | [] => none
    else some d

/-- `none` when `times` are not enough. -/
def write (self : TLogFile) (Cont : Bytes) (times : List Tm) (d : LogDisk) : Option LogDisk :=
  if self.FMaxLen.toNat < Cont.length then some d
  else
    let d := d.fopen
    (self.makeRoom Cont.length times ((d.file.getD []).length % 2 ^ 32) d).map fun d => d.fwrite Cont

def inf (self : TLogFile) (LogCls : LOGCLS) (p : Tm) (Log : Bytes) : Bytes :=
  ascii ("\n+++ " ++ LogCls.text ++ " " ++ self.FModule ++ " " ++ self.FVersion ++ " " ++
    toString (1900 + p.tm_year) ++ "-" ++ twoDigits (1 + p.tm_mon) ++ "-" ++ twoDigits p.tm_mday ++ " " ++
    twoDigits p.tm_hour ++ ":" ++ twoDigits p.tm_min ++ ":" ++ twoDigits p.tm_sec ++ " +++\n") ++ Log ++
    ascii "\n--- Log end ---\n"

def log (self : TLogFile) (FOupLogCls : BitVec 16) (LogCls : LOGCLS) (Log : Bytes) (p : Tm) (times : List Tm)
    (d : LogDisk) : Option LogDisk :=
  if FOupLogCls &&& (1#16 <<< LogCls.toNat) ≠ 0#16 then self.write (self.inf LogCls p Log) times d else some d

def setLogClsOutput (FOupLogCls : BitVec 16) (LogCls : LOGCLS) (Output : Bool) : BitVec 16 :=
  let Buf := 1#16 <<< LogCls.toNat
  if Output then FOupLogCls ||| Buf else FOupLogCls &&& ~~~Buf

end TLogFile

/-! ## Processes -/

/-- The files, and of each process which classes it writes. No part of the program: `enabled` says the same, and
`records` are those that were to be written. -/
structure Logbook where
  disk : LogDisk
  FOupLogCls : Nat → BitVec 16
  enabled : Nat → LOGCLS → Bool
  records : List Bytes

namespace Logbook

inductive Act
  | setLogClsOutput (i : Nat) (LogCls : LOGCLS) (Output : Bool)
  | log (i : Nat) (LogCls : LOGCLS) (Log : Bytes) (p : Tm) (times : List Tm)

def due (self : TLogFile) (s : Logbook) : Act → Option Bytes
  | .setLogClsOutput _ _ _ => none
  | .log i LogCls Log p _ =>
    let Inf := self.inf LogCls p Log
    if s.enabled i LogCls ∧ Inf.length ≤ self.FMaxLen.toNat then some Inf else none

def step (self : TLogFile) (s : Logbook) (act : Act) : Option Logbook :=
  let records := s.records ++ (due self s act).toList
  match act with
  | .setLogClsOutput i LogCls Output =>
    some { s with
      FOupLogCls := Function.update s.FOupLogCls i (TLogFile.setLogClsOutput (s.FOupLogCls i) LogCls Output)
      enabled := Function.update s.enabled i (Function.update (s.enabled i) LogCls Output)
      records := records }
  | .log i LogCls Log p times =>
    (self.log (s.FOupLogCls i) LogCls Log p times s.disk).map fun disk => { s with disk := disk, records := records }

def start : Logbook := ⟨⟨none, []⟩, fun _ => 0xFFFF#16, fun _ _ => true, []⟩

end Logbook

end Afn
