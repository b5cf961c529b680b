import Afn.CString
import Afn.ComFun

/-!
# Queries with parameters

`TQuery.cpp`: the text of a query is scanned for parameters when it is added, and its copy `newsql`, where each
parameter is a question mark, is scanned again when the query is run. A pointer into a C string is what is left
of the string behind it, the NUL at its end included; to read through it when nothing is left is a fault.
-/

namespace Afn

open Bytes Access

namespace TQuery

def quote : UInt8 := 39
def colon : UInt8 := 58
def question : UInt8 := 63

def endsName (c : UInt8) : Bool := c == 32 || c == 44 || c == 41

/-! ## Parameters -/

-- the field of the value that `FValid` names
inductive Value
  | int (val : Int32)
  | str (val : Bytes)
  deriving DecidableEq

structure TYQParam where
  FName : Bytes
  value : Option Value
  deriving DecidableEq

-- `char name[32]`, which starts as zeros
def newParam (name : Bytes) : Except Fault TYQParam := do
  let name ← memcpy (List.replicate 32 0) name
  return ⟨← readCString name, none⟩

-- an `int` as `unsigned long`, which has 64 bits
def toULong (val : Int32) : Nat := (val.toInt % 2 ^ 64).toNat

-- what `ReplaceSql` writes for a value
def literal : Value → Except Fault Bytes
  | .int val => do readCString (← (COM.itoa (toULong val) (List.replicate 32 0) 10).out)
  | .str val => .ok (quote :: (cString val ++ [quote]))

/-! ## The scans -/

/-- The loop of `CreateParams`; the result is what is put behind `newsql` and `FParams`. Of `ParamStart` the text
from there to `start` is kept; `add` is false while there is one. -/
def createLoop : (start : Bytes) → (count : Nat) → (ParamStart : Option Bytes) → Except Fault (Bytes × List TYQParam)
  | [], _, _ => .error .outOfBounds
  | c :: start, count, ParamStart =>
    if c = 0 then
      match ParamStart with
      | none => .ok ([], [])
      | some name => do
        let pa ← newParam name
        return ([question], [pa])
    else
      let count := if c = quote then count + 1 else count
      if c = colon ∧ count % 2 = 0 then createLoop start count (some [])
      else
        match ParamStart with
        | none => do
          let (newsql, params) ← createLoop start count none
          return (c :: newsql, params)
        | some name =>
          if endsName c then do
            let pa ← newParam name
            let (newsql, params) ← createLoop start count none
            return (question :: c :: newsql, pa :: params)
          else createLoop start count (some (name ++ [c]))

/-- The loop of `ReplaceSql`; the result is what is put behind `real`. The character behind a literal is copied
without being looked at. -/
def replaceLoop : (start : Bytes) → (count : Nat) → (it : List TYQParam) → Except Fault Bytes
  | [], _, _ => .error .outOfBounds
  | c :: start, count, it =>
    if c = 0 then .ok []
    else
      let count := if c = quote then count + 1 else count
      if c = question ∧ count % 2 = 0 then
        match it with
        | [] => do return c :: (← replaceLoop start count [])
        | pa :: it =>
          match pa.value with
          | none => do return c :: (← replaceLoop start count it)
          | some val =>
            match start with
            | [] => .error .outOfBounds
            | d :: start => do return (← literal val) ++ d :: (← replaceLoop start count it)
      else do return c :: (← replaceLoop start count it)

end TQuery

/-- `sql` is what `GetSQL` returns. `Paramcount` is the length of `FParams`. -/
structure TQuery where
  sql : Option Bytes
  newsql : Bytes
  FParams : List TQuery.TYQParam
  deriving DecidableEq

namespace TQuery

def createParams (q : TQuery) : Except Fault TQuery :=
  match q.sql with
  | none => .ok q
  | some sql => do
    let (newsql, params) ← createLoop (sql ++ [0]) 0 none
    return { q with newsql := if params = [] then [] else q.newsql ++ newsql, FParams := params }

def addSQL (q : TQuery) (szSQL : Bytes) : Except Fault TQuery :=
  createParams { q with newsql := [], sql := some (cString szSQL) }

def assign (q : TQuery) (vals : Nat → Value) : TQuery :=
  { q with FParams := q.FParams.mapIdx fun i pa => { pa with value := some (vals i) } }

def replaceSql (q : TQuery) : Except Fault TQuery :=
  if q.newsql = [] then .ok q
  else do
    let real ← replaceLoop (q.newsql ++ [0]) 0 q.FParams
    return { q with sql := some (cString real) }

end TQuery

end Afn
