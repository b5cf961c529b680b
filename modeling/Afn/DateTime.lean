import Afn.StringScan
import Afn.Telnet

/-!
# Dates of the database

`TParams::AsDateTime` of `YQDB.cpp`: the text of a date is copied to the heap, and what follows a field is moved down
in the copy before the next field is read. The copy is the first `strlen(src)` bytes of the memory at the address
that `new` returned.
-/

namespace Afn

open Bytes Access

namespace TParams

open TelnetServer (ascii isSpace atoi)

structure Tm where
  tm_sec : Int
  tm_min : Int
  tm_hour : Int
  tm_mday : Int
  tm_mon : Int
  tm_year : Int
  tm_isdst : Int
  deriving DecidableEq, Repr

def ltrim (buf : Bytes) (s : Nat) (c : UInt8) : Acc Bytes := do
  let l ← strlen buf s
  if l = 0 then return buf
  else do
    let (p, _) ← scan (fun x => !(x == c || x == 9)) (buf.length + 1) buf s
    if p = s then return buf
    else moveDown (buf.length + 1) buf s p

def sztmpdata : Bytes := List.replicate 10 0

def isDigit (c : UInt8) : Bool := 48 ≤ c && c ≤ 57

/-- Digits up to the end of the buffer are read on behind it. -/
def atoiWithin (tmp : Bytes) : Acc Int :=
  let s := tmp.dropWhile isSpace
  let digits := if s.head? = some 45 ∨ s.head? = some 43 then s.tail else s
  ⟨[], if digits.all isDigit then .error .outOfBounds else .ok (atoi tmp)⟩

def storeNumber (set : Int → Tm → Tm) (tmp : Bytes) (ftm : Tm) : Acc Tm := do
  let n ← atoiWithin tmp
  return set n ftm

/-- What is common to the fields: the text from `p1` up to `sep` is stored, and `next` goes on at `sep`. -/
def readField (buf : Bytes) (p1 : Nat) (sep : UInt8) (width : Nat) (store : Bytes → Tm → Acc Tm) (ftm : Tm)
    (next : Nat → Tm → Acc (Int × Tm)) : Acc (Int × Tm) := do
  match ← strchr buf p1 sep with
  | none => return (-1, ftm)
  | some p2 =>
    if width < p2 - p1 then return (-1, ftm)
    else do
      let tmp ← strncpy sztmpdata buf p1 (p2 - p1)
      let ftm ← store tmp ftm
      next p2 ftm

/-- The copy; `strcpy` writes the NUL too. -/
def copyOf (src heap : Bytes) : Acc Bytes := do
  let buf ← writeAt heap 0 (List.replicate src.length 0)
  writeAt buf 0 (src ++ [0])

/-- `heap` is `none` when there is no memory, so that `new` throws. -/
def paramMySQLDateTime (src heap : Option Bytes) (ftm : Tm) : Acc (Int × Tm) :=
  match src, heap with
  | none, _ => return (-1, ftm)
  | some _, none => return (-1, ftm)
  | some src, some heap => do
    let buf ← copyOf src heap
    readField buf 0 45 4 (storeNumber fun n t => { t with tm_year := n - 1900 }) ftm fun p2 ftm => do
    let buf ← ltrim buf p2 45
    readField buf p2 45 2 (storeNumber fun n t => { t with tm_mon := n }) ftm fun p2 ftm => do
    let buf ← ltrim buf p2 45
    readField buf p2 32 2 (storeNumber fun n t => { t with tm_mday := n }) ftm fun p2 ftm => do
    let buf ← ltrim buf p2 32
    readField buf p2 58 2 (storeNumber fun n t => { t with tm_hour := n }) ftm fun p2 ftm => do
    let buf ← ltrim buf p2 58
    readField buf p2 58 2 (storeNumber fun n t => { t with tm_min := n }) ftm fun p2 ftm => do
    let buf ← ltrim buf p2 58
    let l ← strlen buf p2
    let tmp ← strncpy sztmpdata buf p2 l
    let ftm ← storeNumber (fun n t => { t with tm_sec := n }) tmp ftm
    return (0, { ftm with tm_isdst := 0 })

/-! ## The form of Sybase -/

def mons : List Bytes :=
  ["JAN", "FEB", "MAR", "APR", "MAY", "JUN", "JUL", "AUG", "SEP", "OCT", "NOV", "DEC"].map ascii

def lower (c : UInt8) : UInt8 := if 65 ≤ c ∧ c ≤ 90 then c + 32 else c

def strcasecmp (s t : Bytes) : Bool := (cString s).map lower == (cString t).map lower

-- a name that is not found is stored too: the loop ends with `i = 12`, and the test is `i <= 12`
def storeMonth (tmp : Bytes) (ftm : Tm) : Acc Tm :=
  let i := mons.findIdx fun mon => strcasecmp mon tmp
  return { ftm with tm_mon := i + 1 }

def paramSybaseDateTime (src heap : Option Bytes) (ftm : Tm) : Acc (Int × Tm) :=
  match src, heap with
  | none, _ => return (-1, ftm)
  | some _, none => return (-1, ftm)
  | some src, some heap => do
    let buf ← copyOf src heap
    readField buf 0 32 3 storeMonth ftm fun p2 ftm => do
    let buf ← ltrim buf p2 32
    readField buf p2 32 2 (storeNumber fun n t => { t with tm_mday := n }) ftm fun p2 ftm => do
    let buf ← ltrim buf p2 32
    readField buf p2 32 4 (storeNumber fun n t => { t with tm_year := n - 1900 }) ftm fun p2 ftm => do
    let buf ← ltrim buf p2 32
    readField buf p2 58 2 (storeNumber fun n t => { t with tm_hour := n }) ftm fun p2 ftm => do
    let buf ← ltrim buf p2 58
    readField buf p2 58 2 (storeNumber fun n t => { t with tm_min := n }) ftm fun p2 ftm => do
    let buf ← ltrim buf p2 58
    readField buf p2 58 2 (storeNumber fun n t => { t with tm_sec := n }) ftm fun p2 ftm => do
    -- behind the milliseconds
    let p2 := p2 + 4
    let l ← strlen buf p2
    let tmp ← strncpy sztmpdata buf p2 l
    let ftm := if strcasecmp tmp (ascii "PM") then { ftm with tm_hour := ftm.tm_hour + 12 } else ftm
    return (0, { ftm with tm_isdst := 0 })

def asDateTime (mktime : Tm → Int) (value heap : Option Bytes) (gettm : Tm) : Acc Int :=
  match value with
  | none => return 0
  | some s => do
    let (ret, gettm) ← if 45 ∈ s then paramMySQLDateTime value heap gettm else paramSybaseDateTime value heap gettm
    if ret ≠ 0 then return 0
    else return mktime gettm

end TParams

end Afn
