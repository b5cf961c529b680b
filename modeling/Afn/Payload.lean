import Afn.Proto

/-!
# Data units that share a payload

The constructors and the destructor of `Pkg_Afn_Data`. A copy refers to the payload of its origin, and each
unit has its own count of the uses of that payload.
-/

namespace Afn

open Bytes Access

-- the part of a data unit that says who releases its payload; `m_pData` is an address or null
structure DataUnit where
  m_pData : Option Nat
  m_DataUsed : Int
  deriving DecidableEq, Repr

/-- The live data units by their addresses, and the payloads released, the newest first. No part of the
program: `copies` counts the copies made of each unit. -/
structure Payloads where
  units : Nat → Option DataUnit
  nextUnit : Nat
  nextData : Nat
  released : List Nat
  copies : Nat → Nat

namespace Payloads

def start : Payloads := ⟨fun _ => none, 0, 0, [], fun _ => 0⟩

def set (units : Nat → Option DataUnit) (u : Nat) (d : Option DataUnit) : Nat → Option DataUnit :=
  fun v => if v = u then d else units v

-- what `unPackData` leaves for the payload of a unit made from `_data`
def dataLen (_data : Bytes) : Nat :=
  if PKG_AFN_DATATAGLEN ≤ _data.length then _data.length - PKG_AFN_DATATAGLEN else _data.length

def made (s : Payloads) (_data : Bytes) : DataUnit :=
  if 0 < dataLen _data then ⟨some s.nextData, 1⟩ else ⟨none, 0⟩

def construct (s : Payloads) (_data : Bytes) : Payloads :=
  { s with
    units := set s.units s.nextUnit (some (s.made _data))
    nextUnit := s.nextUnit + 1
    nextData := if 0 < dataLen _data then s.nextData + 1 else s.nextData }

def copy (s : Payloads) (_origin : Nat) (d : DataUnit) : Payloads :=
  { s with
    units := set (set s.units _origin (some { d with m_DataUsed := d.m_DataUsed + 1 })) s.nextUnit
      (some ⟨d.m_pData, 1⟩)
    nextUnit := s.nextUnit + 1
    copies := fun u => if u = _origin then s.copies u + 1 else s.copies u }

def destroy (s : Payloads) (u : Nat) (d : DataUnit) : Payloads :=
  { s with
    units := set s.units u none
    released := if d.m_DataUsed - 1 ≤ 0 then d.m_pData.toList ++ s.released else s.released }

inductive Act
  | construct (_data : Bytes)
  | copy (_origin : Nat)
  | destroy (u : Nat)

/-- Only a live unit is copied or destroyed. -/
def step (s : Payloads) : Act → Option Payloads
  | .construct _data => some (s.construct _data)
  | .copy _origin => (s.units _origin).map fun d => s.copy _origin d
  | .destroy u => (s.units u).map fun d => s.destroy u d

end Payloads

end Afn
