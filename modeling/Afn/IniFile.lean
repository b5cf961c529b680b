import Afn.CString

/-!
# Configuration files

`TIniFile` of `YQConfig.cpp`: a file of sections with keys and values is read in pieces of at most 99 characters,
and written as a whole from the copy `FileData`. A line is the C string that `fgets` leaves in its buffer; files
can always be opened.
-/

namespace Afn

open Bytes Access

namespace TIniFile

def LINE_LEN : Nat := 128
def VALUE_LEN : Nat := 512

/-! ## Streams -/

structure FILE where
  data : Bytes
  pos : Nat
  eof : Bool

-- what `fgets` takes when `room` bytes fit: up to a newline or the end
def piece : (room : Nat) → Bytes → Bytes
  | 0, _ => []
  | _ + 1, [] => []
  | room + 1, c :: s => if c = 10 then [c] else c :: piece room s

/-- The buffer has `n` bytes, one of them for the NUL. -/
def FILE.fgets (f : FILE) (n : Nat) : Option Bytes × FILE :=
  let rest := f.data.drop f.pos
  let line := piece (n - 1) rest
  let f := { f with
    pos := f.pos + line.length
    eof := f.eof || (decide (line.length < n - 1) && line.getLast? != some 10) }
  if rest = [] then (none, f) else (some line, f)

/-! ## Lines -/

def isgraph (c : UInt8) : Bool := 33 ≤ c && c ≤ 126

def isremark (line : Bytes) : Bool :=
  match line.find? isgraph with
  | some c => c == 35
  | none => true

-- the loop that comes down to the last graphic character, and stops at index 1
def sectionEnd (line : Bytes) : (last : Nat) → Nat
  | 0 => 0
  | 1 => 1
  | last + 2 => if isgraph (byteAt line (last + 2)) then last + 2 else sectionEnd line (last + 1)

/-- The name of the section that the line begins. It has at least one character; what is returned as 0 is `none`. -/
def getsection (line : Bytes) (seclen : Nat) : Option Bytes :=
  let start := line.findIdx isgraph
  let last := sectionEnd line line.length
  if line.length ≤ start then none
  else if byteAt line start ≠ 91 then none
  else if last ≤ 1 then none
  else if byteAt line last ≠ 93 then none
  else if last - start < 2 then none
  else if last - start - 1 < seclen then some (slice line (start + 1) (last - start - 1))
  else some (slice line (start + 1) (seclen - 1))

-- `start` and `keyname` after the loop of `getkeyname`
def keynameLoop (keylen : Nat) : (rest : Bytes) → (start : Nat) → (keyname : Bytes) → Nat × Bytes
  | [], start, keyname => (start, keyname)
  | c :: rest, start, keyname =>
    if keyname.length < keylen - 1 then
      if isgraph c then
        if c ≠ 61 then keynameLoop keylen rest (start + 1) (keyname ++ [c]) else (start, keyname)
      else keynameLoop keylen rest (start + 1) keyname
    else (start, keyname)

/-- Returns the count and the name. -/
def getkeyname (line : Bytes) (keylen : Nat) : Nat × Bytes :=
  let (start, keyname) := keynameLoop keylen line 0 []
  if start + 1 = line.length ∧ byteAt line start ≠ 61 ∧ 1 ≤ keyname.length then (keyname.length, [])
  else (keyname.length, keyname)

/-- Returns the count, which is never 0, and the value: the graphic characters behind the equals sign. -/
def getkeyvalue (line : Bytes) (valen : Nat) : Nat × Bytes :=
  let start := line.findIdx (· == 61)
  if start + 1 = line.length then (1, [])
  else
    let keyvalue := ((line.drop (start + 1)).filter isgraph).take (valen - 1)
    (if keyvalue.length = 0 then 1 else keyvalue.length, keyvalue)

/-! ## Reading -/

-- what `getconfigstr` returns: an error, or 0 with the value and the place of its line
inductive Result
  | error (code : Nat)
  | found (keyvalue : Bytes) (LinePos LineCnt : Nat)
  deriving DecidableEq, Repr

/-- The loop of `getconfigstr`, where `step` tells whether the section has begun. The third step is never taken, as
`getkeyvalue` returns no negative count. Each turn takes a byte of the file. -/
def getconfigstrLoop (sect keyname : Bytes) (len : Nat) : (fuel : Nat) → (stream : FILE) → (step : Bool) → Result
  | 0, _, _ => .error 3
  | fuel + 1, stream, step =>
    if stream.eof then .error 5
    else
      match stream.fgets 100 with
      | (none, _) => .error 3
      | (some line, stream) =>
        let line := cString line
        if isremark line then getconfigstrLoop sect keyname len fuel stream step
        else
          match step, getsection line LINE_LEN with
          | false, none => getconfigstrLoop sect keyname len fuel stream false
          | false, some sec => getconfigstrLoop sect keyname len fuel stream (decide (sec = sect))
          | true, some _ => .error 5
          | true, none =>
            let (count, ken) := getkeyname line LINE_LEN
            if count ≠ 0 ∧ ken = keyname then
              let (_, kev) := getkeyvalue line LINE_LEN
              .found (kev.take len) (stream.pos - line.length) line.length
            else getconfigstrLoop sect keyname len fuel stream true

structure ConfigItem where
  name : Bytes
  value : Bytes
  deriving DecidableEq, Repr

def sectionItemLoop (sect : Bytes) : (fuel : Nat) → (stream : FILE) → (step : Bool) → List ConfigItem
  | 0, _, _ => []
  | fuel + 1, stream, step =>
    if stream.eof then []
    else
      match stream.fgets 100 with
      | (none, _) => []
      | (some line, stream) =>
        let line := cString line
        if isremark line then sectionItemLoop sect fuel stream step
        else
          match step, getsection line LINE_LEN with
          | false, none => sectionItemLoop sect fuel stream false
          | false, some sec => sectionItemLoop sect fuel stream (decide (sec = sect))
          | true, some _ => []
          | true, none =>
            let (count, ken) := getkeyname line LINE_LEN
            if count ≠ 0 then
              let (_, kev) := getkeyvalue line LINE_LEN
              ⟨ken, kev⟩ :: sectionItemLoop sect fuel stream true
            else sectionItemLoop sect fuel stream true

def loadLoop : (fuel : Nat) → (stream : FILE) → Bytes
  | 0, _ => []
  | fuel + 1, stream =>
    match stream.fgets 100 with
    | (none, _) => []
    | (some lines, stream) => cString lines ++ loadLoop fuel stream

end TIniFile

/-- `file` is what the file holds; the stream that is open on it stands at its beginning before each use. -/
structure TIniFile where
  file : Bytes
  FileData : Bytes
  deriving DecidableEq, Repr

namespace TIniFile

def stream (ini : TIniFile) : FILE := ⟨ini.file, 0, false⟩

def load (ini : TIniFile) : TIniFile :=
  if ini.FileData = [] then { ini with FileData := loadLoop (ini.file.length + 1) ini.stream } else ini

def construct (file : Bytes) : TIniFile := load ⟨file, []⟩

def save (ini : TIniFile) : TIniFile := load { ini with file := ini.FileData }

def getconfigstr (ini : TIniFile) (sect keyname : Bytes) (len : Nat) : Result :=
  getconfigstrLoop sect keyname len (ini.file.length + 1) ini.stream false

def readString (ini : TIniFile) (sect key defaultVal : Bytes) : Bytes :=
  match ini.getconfigstr sect key VALUE_LEN with
  | .found tmp _ _ => tmp
  | .error _ => defaultVal

def getSectionItem (ini : TIniFile) (sect : Bytes) : List ConfigItem :=
  sectionItemLoop sect (ini.file.length + 1) ini.stream false

/-- `std::string::replace`, which throws when the place is not in the string. -/
def replace (s : Bytes) (pos n : Nat) (t : Bytes) : Except Fault Bytes :=
  if pos ≤ s.length then .ok (s.take pos ++ t ++ s.drop (pos + n)) else .error .outOfBounds

def writeString (ini : TIniFile) (sect key val : Bytes) : Except Fault (Bool × TIniFile) :=
  match ini.getconfigstr sect key VALUE_LEN with
  | .found _ LinePos LineCnt => do
    let nline := key ++ 61 :: (val ++ [13, 10])
    if VALUE_LEN ≤ nline.length then .error .outOfBounds
    else do
      let FileData ← replace ini.FileData LinePos LineCnt nline
      return (true, save { ini with FileData := FileData })
  | .error _ => .ok (false, ini)

end TIniFile

end Afn
