import Afn.Package

/-!
# Readings

`AFNData.cpp` and the data units of `AFN0C.cpp`: the responses to the requests for the clock (F2), the
run status (F11) and the energy readings (F33) of a concentrator. A pointer into the payload is its
offset, with the number of bytes left, an `int` that never comes near its bound: a frame has less than
2^14 bytes. The `float` results are exact rationals; what has not been set yet is `none`.
-/

namespace Afn

open Bytes Access

def YQER_PKG_DATA_Err (x : Int) : Int := -400 - x

/-! ## Fields -/

namespace AFNData

def bcd (b : UInt8) : Nat := b.toNat / 16 % 16 * 10 + b.toNat % 16

def nibbles (b : UInt8) : Nat × Nat := (b.toNat / 16 % 16, b.toNat % 16)

def pad2 (n : Nat) : String := if n < 10 then "0" ++ toString n else toString n

def invalidTime : String := "00-00-00 00:00:00"

/-- Returns the number of bytes used, 0 when there are too few, and the text. -/
def parseDateTime5 (data : Bytes) (off len : Nat) (dt : String) : Acc (Nat × String) := do
  if 5 ≤ len then
    let b0 ← getByte data off
    if b0 = 0xee then
      return (5, invalidTime)
    else
    let year ← getByte data (off + 4)
    let mon ← getByte data (off + 3)
    let day ← getByte data (off + 2)
    let hour ← getByte data (off + 1)
    return (5, "20" ++ pad2 (bcd year) ++ "-" ++ pad2 (bcd mon) ++ "-" ++ pad2 (bcd day) ++ " " ++
      pad2 (bcd hour) ++ ":" ++ pad2 (bcd b0) ++ ":00")
  else
    return (0, dt)

-- of the tens of the month only the lowest bit counts
def parseDateTime6 (data : Bytes) (off len : Nat) (dt : String) : Acc (Nat × String) := do
  if 6 ≤ len then
    let b0 ← getByte data off
    if b0 = 0xee then
      return (6, invalidTime)
    else
    let year ← getByte data (off + 5)
    let mon ← getByte data (off + 4)
    let day ← getByte data (off + 3)
    let hour ← getByte data (off + 2)
    let min ← getByte data (off + 1)
    return (6, "20" ++ pad2 (bcd year) ++ "-" ++ pad2 (mon.toNat / 16 % 2 * 10 + mon.toNat % 16) ++ "-" ++
      pad2 (bcd day) ++ " " ++ pad2 (bcd hour) ++ ":" ++ pad2 (bcd min) ++ ":" ++ pad2 (bcd b0))
  else
    return (0, dt)

def parseTable14 (data : Bytes) (off len : Nat) (val : Option Rat) : Acc (Nat × Option Rat) := do
  if 5 ≤ len then
    let b0 ← getByte data off
    if b0 = 0xee then
      return (5, some (-1))
    else
    let b4 ← getByte data (off + 4)
    let b3 ← getByte data (off + 3)
    let b2 ← getByte data (off + 2)
    let b1 ← getByte data (off + 1)
    let whole := bcd b4 * 10000 + bcd b3 * 100 + bcd b2
    return (5, some (whole + (nibbles b1).1 * (1 / 10) + (nibbles b1).2 * (1 / 100) +
      (nibbles b0).1 * (1 / 1000) + (nibbles b0).2 * (1 / 10000)))
  else
    return (0, val)

def parseTable11 (data : Bytes) (off len : Nat) (val : Option Rat) : Acc (Nat × Option Rat) := do
  if 4 ≤ len then
    let b0 ← getByte data off
    if b0 = 0xee then
      return (4, some (-1))
    else
    let b3 ← getByte data (off + 3)
    let b2 ← getByte data (off + 2)
    let b1 ← getByte data (off + 1)
    let whole := bcd b3 * 10000 + bcd b2 * 100 + bcd b1
    return (4, some (whole + (nibbles b0).1 * (1 / 10) + (nibbles b0).2 * (1 / 100)))
  else
    return (0, val)

end AFNData

/-! ## Data units -/

structure GetRunStatus.Block where
  port : UInt8
  num : Int
  status : UInt8
  success : Int
  success_import : UInt8
  sdt : String
  edt : String
  deriving DecidableEq, Repr

-- the `short` with the bits of the word
def short (w : UInt16) : Int := if w.toNat < 32768 then w.toNat else w.toNat - 65536

structure GetClock where
  base : PkgAfnData
  dt : String
  deriving DecidableEq, Repr

structure GetRunStatus where
  base : PkgAfnData
  n : Option Nat
  pBlock : Option (List (Option GetRunStatus.Block))
  deriving DecidableEq, Repr

-- a meter's total and its readings by tariff
structure Kwh where
  total : Option Rat
  fee : Option (List (Option Rat))
  deriving DecidableEq, Repr

structure AllKwh where
  base : PkgAfnData
  dt : String
  m : Option Nat
  userkwh : Kwh
  devkwh : Kwh
  onekwh : Kwh
  fourkwh : Kwh
  deriving DecidableEq, Repr

inductive AckData
  | clock (d : GetClock)
  | runStatus (d : GetRunStatus)
  | allKwh (d : AllKwh)
  deriving DecidableEq, Repr

namespace GetClock

def construct (_origin : PkgAfnData) : GetClock := ⟨_origin, ""⟩

def handleData (self : GetClock) : Acc (Int × GetClock) := do
  let (len, dt) ← AFNData.parseDateTime6 self.base.m_pData 0 self.base.m_nLen self.dt
  return (len, { self with dt := dt })

end GetClock

def GetRunStatus.Block.parse (data : Bytes) (off len : Nat) : Acc (Nat × Option GetRunStatus.Block) := do
  if 19 ≤ len then
    let port ← getByte data off
    let num ← readAt data (off + 1) 2
    let status ← getByte data (off + 3)
    let success ← readAt data (off + 4) 2
    let success_import ← getByte data (off + 6)
    let (_, sdt) ← AFNData.parseDateTime6 data (off + 7) 6 ""
    let (_, edt) ← AFNData.parseDateTime6 data (off + 13) 6 ""
    return (19, some ⟨port, short (word (byteAt num 0) (byteAt num 1)), status,
      short (word (byteAt success 0) (byteAt success 1)), success_import, sdt, edt⟩)
  else
    return (0, none)

namespace GetRunStatus

def construct (_origin : PkgAfnData) : GetRunStatus := ⟨_origin, none, none⟩

/-- The loop over the blocks from offset `off`, `left` bytes being left; the blocks after one that
cannot be parsed stay as they are. -/
def parseBlocks (data : Bytes) : (k off left : Nat) → Acc (Int × List (Option Block))
  | 0, _, _ => pure (YQER_OK, [])
  | k + 1, off, left => do
    let (len, block) ← Block.parse data off left
    if len = 0 then
      return (YQER_PKG_DATA_Err 3, List.replicate (k + 1) none)
    else
    let (ret, blocks) ← parseBlocks data k (off + len) (left - len)
    return (ret, block :: blocks)

def handleData (self : GetRunStatus) : Acc (Int × GetRunStatus) := do
  let left := self.base.m_nLen
  if left < 1 then
    return (YQER_PKG_DATA_Err 2, self)
  else
  let p0 ← getByte self.base.m_pData 0
  let n := p0.toNat
  let self := { self with n := some n }
  if n < 1 ∨ 31 < n then
    return (YQER_PKG_DATA_Err 3, self)
  else
  let (ret, blocks) ← parseBlocks self.base.m_pData n 1 (left - 1)
  return (ret, { self with pBlock := some blocks })

end GetRunStatus

namespace AllKwh

def construct (_origin : PkgAfnData) : AllKwh :=
  ⟨_origin, "", none, ⟨none, none⟩, ⟨none, none⟩, ⟨none, none⟩, ⟨none, none⟩⟩

/-- Parses `k` fields from offset `off`; returns whether there were enough bytes, the offset and the
number of bytes left after them, and the fields. -/
def parseFees (parse : Nat → Nat → Option Rat → Acc (Nat × Option Rat)) :
    (k off left : Nat) → Acc (Bool × Nat × Nat × List (Option Rat))
  | 0, off, left => pure (true, off, left, [])
  | k + 1, off, left => do
    let (len, val) ← parse off left none
    if len = 0 then
      return (false, off, left, List.replicate (k + 1) none)
    else
    let (ok, off, left, vals) ← parseFees parse k (off + len) (left - len)
    return (ok, off, left, val :: vals)

/-- A total and the `m` fees after it. `checked` is false of the one total whose length is not checked
before the fees are read. -/
def parseKwh (parse : Nat → Nat → Option Rat → Acc (Nat × Option Rat)) (checked : Bool) (m off left : Nat) :
    Acc (Bool × Nat × Nat × Kwh) := do
  let (len, total) ← parse off left none
  if checked ∧ len = 0 then
    return (false, off, left, ⟨none, none⟩)
  else
  let (ok, off, left, fee) ← parseFees parse m (off + len) (left - len)
  return (ok, off, left, ⟨total, some fee⟩)

def handleData (self : AllKwh) : Acc (Int × AllKwh) := do
  let data := self.base.m_pData
  let left := self.base.m_nLen
  let (len, dt) ← AFNData.parseDateTime5 data 0 left self.dt
  let self := { self with dt := dt }
  if len = 0 then
    return (YQER_PKG_DATA_Err 2, self)
  else
  let off := len
  let left := left - len
  if left < 1 then
    return (YQER_PKG_DATA_Err 2, self)
  else
  let p0 ← getByte data off
  let m := p0.toNat
  let self := { self with m := some m }
  if m < 1 ∨ 12 < m then
    return (YQER_PKG_DATA_Err 3, self)
  else
  let off := off + 1
  let left := left - 1
  let (ok, off, left, k) ← parseKwh (AFNData.parseTable14 data) true m off left
  let self := { self with userkwh := k }
  if ok = false then
    return (YQER_PKG_DATA_Err 2, self)
  else
  let (ok, off, left, k) ← parseKwh (AFNData.parseTable11 data) false m off left
  let self := { self with devkwh := k }
  if ok = false then
    return (YQER_PKG_DATA_Err 2, self)
  else
  let (ok, off, left, k) ← parseKwh (AFNData.parseTable11 data) true m off left
  let self := { self with onekwh := k }
  if ok = false then
    return (YQER_PKG_DATA_Err 2, self)
  else
  let (ok, _, _, k) ← parseKwh (AFNData.parseTable11 data) true m off left
  let self := { self with fourkwh := k }
  if ok = false then
    return (YQER_PKG_DATA_Err 2, self)
  else
  return (YQER_OK, self)

end AllKwh

namespace AckData

-- `HandleData`, which is virtual
def handleData : AckData → Acc (Int × AckData)
  | .clock d => do
    let (ret, d) ← d.handleData
    return (ret, .clock d)
  | .runStatus d => do
    let (ret, d) ← d.handleData
    return (ret, .runStatus d)
  | .allKwh d => do
    let (ret, d) ← d.handleData
    return (ret, .allKwh d)

end AckData

def AFN0C.handleAck (ackPkg : AFNPackage) : Acc (Option AckData) := do
  if ackPkg.Fn = 2 then
    let d ← deref ackPkg.pAfn.pAfnData
    return some (.clock (.construct d))
  else if ackPkg.Fn = 11 then
    let d ← deref ackPkg.pAfn.pAfnData
    return some (.runStatus (.construct d))
  else if ackPkg.Fn = 33 then
    let d ← deref ackPkg.pAfn.pAfnData
    return some (.allKwh (.construct d))
  else
    return none

end Afn
