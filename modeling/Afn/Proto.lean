import Afn.Access

/-!
# The frame structures

`proto.h` and `proto.cpp`: the packed structures of a frame with their bit fields, and the packing
and unpacking of the application data. All multi-byte fields are little-endian. A pointer into a
buffer is the buffer together with an offset.
-/

namespace Afn

open Bytes Access

def PKG_HEADLEN : Nat := 6
def PKG_USER_HEADLEN : Nat := 6
def PKG_TAILLEN : Nat := 2
def PKG_AFN_HEADLEN : Nat := 2
def PKG_AFN_DATATAGLEN : Nat := 4

/-! ## Headers -/

structure PkgHeader where
  S1 : UInt8
  L : UInt16
  L1 : UInt16
  S2 : UInt8
  deriving DecidableEq, Repr

-- `L` and `L1` hold a 2-bit tag below a 14-bit length.
def lenOf (l : UInt16) : Nat := field l.toNat 4 16384

def setTag (l : UInt16) (v : Nat) : UInt16 := UInt16.ofNat (setField l.toNat 1 4 v)

def setLen (l : UInt16) (v : Nat) : UInt16 := UInt16.ofNat (setField l.toNat 4 16384 v)

namespace PkgHeader

def LEN (h : PkgHeader) : Nat := lenOf h.L

def ofBytes (bs : Bytes) : PkgHeader where
  S1 := byteAt bs 0
  L := word (byteAt bs 1) (byteAt bs 2)
  L1 := word (byteAt bs 3) (byteAt bs 4)
  S2 := byteAt bs 5

def toBytes (h : PkgHeader) : Bytes :=
  [h.S1, loByte h.L, hiByte h.L, loByte h.L1, hiByte h.L1, h.S2]

end PkgHeader

structure PkgUserHeader where
  C : UInt8
  A1 : UInt16
  A2 : UInt16
  A3 : UInt8
  deriving DecidableEq, Repr

namespace PkgUserHeader

def FUN (h : PkgUserHeader) : Nat := field h.C.toNat 1 16
def PRM (h : PkgUserHeader) : Nat := field h.C.toNat 64 2
def TAG (h : PkgUserHeader) : Nat := field h.A3.toNat 1 2

def setC (h : PkgUserHeader) (p m v : Nat) : PkgUserHeader :=
  { h with C := UInt8.ofNat (setField h.C.toNat p m v) }

def setFUN (h : PkgUserHeader) : Nat → PkgUserHeader := h.setC 1 16
def setFCV (h : PkgUserHeader) : Nat → PkgUserHeader := h.setC 16 2
def setFCB (h : PkgUserHeader) : Nat → PkgUserHeader := h.setC 32 2
def setPRM (h : PkgUserHeader) : Nat → PkgUserHeader := h.setC 64 2
def setDIR (h : PkgUserHeader) : Nat → PkgUserHeader := h.setC 128 2

def setA3 (h : PkgUserHeader) (p m v : Nat) : PkgUserHeader :=
  { h with A3 := UInt8.ofNat (setField h.A3.toNat p m v) }

def setTAG (h : PkgUserHeader) : Nat → PkgUserHeader := h.setA3 1 2
def setMSA (h : PkgUserHeader) : Nat → PkgUserHeader := h.setA3 2 128

def ofBytes (bs : Bytes) : PkgUserHeader where
  C := byteAt bs 0
  A1 := word (byteAt bs 1) (byteAt bs 2)
  A2 := word (byteAt bs 3) (byteAt bs 4)
  A3 := byteAt bs 5

def toBytes (h : PkgUserHeader) : Bytes :=
  [h.C, loByte h.A1, hiByte h.A1, loByte h.A2, hiByte h.A2, h.A3]

end PkgUserHeader

structure PkgTail where
  CS : UInt8
  E : UInt8
  deriving DecidableEq, Repr

def PkgTail.ofBytes (bs : Bytes) : PkgTail := ⟨byteAt bs 0, byteAt bs 1⟩

def PkgTail.toBytes (t : PkgTail) : Bytes := [t.CS, t.E]

structure PkgAfnHeader where
  AFN : UInt8
  SEQ : UInt8
  deriving DecidableEq, Repr

namespace PkgAfnHeader

def PRSEQ (h : PkgAfnHeader) : Nat := field h.SEQ.toNat 1 16
def CON (h : PkgAfnHeader) : Nat := field h.SEQ.toNat 16 2
def FIN (h : PkgAfnHeader) : Nat := field h.SEQ.toNat 32 2
def FIR (h : PkgAfnHeader) : Nat := field h.SEQ.toNat 64 2

def setSEQ (h : PkgAfnHeader) (p m v : Nat) : PkgAfnHeader :=
  { h with SEQ := UInt8.ofNat (setField h.SEQ.toNat p m v) }

def setPRSEQ (h : PkgAfnHeader) : Nat → PkgAfnHeader := h.setSEQ 1 16
def setCON (h : PkgAfnHeader) : Nat → PkgAfnHeader := h.setSEQ 16 2
def setFIN (h : PkgAfnHeader) : Nat → PkgAfnHeader := h.setSEQ 32 2
def setFIR (h : PkgAfnHeader) : Nat → PkgAfnHeader := h.setSEQ 64 2
def setTPV (h : PkgAfnHeader) : Nat → PkgAfnHeader := h.setSEQ 128 2

def ofBytes (bs : Bytes) : PkgAfnHeader := ⟨byteAt bs 0, byteAt bs 1⟩

def toBytes (h : PkgAfnHeader) : Bytes := [h.AFN, h.SEQ]

end PkgAfnHeader

structure PkgAfnDataTag where
  DA1 : UInt8
  DA2 : UInt8
  DT1 : UInt8
  DT2 : UInt8
  deriving DecidableEq, Repr

def PkgAfnDataTag.ofBytes (bs : Bytes) : PkgAfnDataTag :=
  ⟨byteAt bs 0, byteAt bs 1, byteAt bs 2, byteAt bs 3⟩

def PkgAfnDataTag.toBytes (t : PkgAfnDataTag) : Bytes := [t.DA1, t.DA2, t.DT1, t.DT2]

/-! ## Data units -/

-- `m_pData` is the array with its length, so `m_nLen` is not kept apart.
structure PkgAfnData where
  m_Tag : PkgAfnDataTag
  m_pData : Bytes
  deriving DecidableEq, Repr

namespace PkgAfnData

def m_nLen (d : PkgAfnData) : Nat := d.m_pData.length

def unPackData (data : Bytes) (off len : Nat) : Acc PkgAfnData := do
  -- `Pkg_Afn_Data(_data, _len)` starts with no data; it leaves the tag as it found it
  let d : PkgAfnData := ⟨⟨0, 0, 0, 0⟩, []⟩
  if PKG_AFN_DATATAGLEN ≤ len then
    let tag ← readAt data off PKG_AFN_DATATAGLEN
    let len ← sub32 len PKG_AFN_DATATAGLEN
    let d := { d with m_Tag := .ofBytes tag }
    if 0 < len then
      let bs ← readAt data (off + PKG_AFN_DATATAGLEN) len
      return { d with m_pData := bs }
    else
      return d
  else if 0 < len then
    let bs ← readAt data off len
    return { d with m_pData := bs }
  else
    return d

/-- Packs into `buf` at `off`, where `len` bytes are left; also returns the bytes packed. -/
def packData (d : PkgAfnData) (buf : Bytes) (off len : Nat) : Acc (Bytes × Nat) := do
  if d.m_nLen + PKG_AFN_DATATAGLEN ≤ len then
    let buf ← writeAt buf off d.m_Tag.toBytes
    let buf ← writeAt buf (off + PKG_AFN_DATATAGLEN) d.m_pData
    return (buf, d.m_nLen + PKG_AFN_DATATAGLEN)
  else
    return (buf, 0)

def getDataLen (d : PkgAfnData) : Nat := PKG_AFN_DATATAGLEN + d.m_nLen

end PkgAfnData

/-! ## Additional information -/

structure TimeTag where
  PFC : UInt8
  TM : UInt8 × UInt8 × UInt8 × UInt8
  DELAY : UInt8
  deriving DecidableEq, Repr

def TimeTag.toBytes (t : TimeTag) : Bytes :=
  [t.PFC, t.TM.1, t.TM.2.1, t.TM.2.2.1, t.TM.2.2.2, t.DELAY]

def TimeTag.ofBytes (bs : Bytes) : TimeTag where
  PFC := byteAt bs 0
  TM := (byteAt bs 1, byteAt bs 2, byteAt bs 3, byteAt bs 4)
  DELAY := byteAt bs 5

inductive PkgAfnAux
  | up (hasTp : Bool) (TP : TimeTag) (EC1 EC2 : UInt8)
  | down (hasTp hasPW : Bool) (TP : TimeTag) (PW : Vector UInt8 16)
  deriving DecidableEq, Repr

namespace PkgAfnAux

-- `Pkg_Afn_Aux::GetDataLen`, the base class part
def baseLen (hasTp : Bool) : Nat := if hasTp then 6 else 0

def getDataLen : PkgAfnAux → Nat
  | .up hasTp .. => 2 + baseLen hasTp
  | .down hasTp hasPW .. => if hasPW then 16 + baseLen hasTp else baseLen hasTp

-- `Pkg_Afn_Aux::PackData`, whose return value the derived classes drop
def packBase (hasTp : Bool) (TP : TimeTag) (buf : Bytes) (off len : Nat) : Acc Bytes :=
  if baseLen hasTp ≤ len ∧ hasTp then writeAt buf off TP.toBytes else pure buf

/-- `PackData` of the two derived classes. The base part goes to offset 16 of a downlink aux also
when there is no `PW` before it. -/
def packData (aux : PkgAfnAux) (buf : Bytes) (off len : Nat) : Acc (Bytes × Nat) := do
  let myLen := aux.getDataLen
  if myLen ≤ len then
    match aux with
    | .up hasTp TP EC1 EC2 =>
      let buf ← writeAt buf off [EC1, EC2]
      let left ← sub32 len 2
      let buf ← packBase hasTp TP buf (off + 2) left
      return (buf, myLen)
    | .down hasTp hasPW TP PW =>
      let buf ← if hasPW then writeAt buf off PW.toList else pure buf
      let left ← sub32 len 16
      let buf ← packBase hasTp TP buf (off + 16) left
      return (buf, myLen)
  else
    return (buf, myLen)

def unPackBase (hasTp : Bool) (TP : TimeTag) (data : Bytes) (off len : Nat) : Acc TimeTag :=
  if baseLen hasTp ≤ len ∧ hasTp then do
    let bs ← readAt data off 6
    return .ofBytes bs
  else pure TP

/-- `unPackData` of the two derived classes. A downlink aux reads 16 bytes of `PW` also when it has none. -/
def unPackData (aux : PkgAfnAux) (data : Bytes) (off len : Nat) : Acc PkgAfnAux := do
  if aux.getDataLen ≤ len then
    match aux with
    | .up hasTp TP _ _ =>
      let EC ← readAt data off 2
      let left ← sub32 len 2
      let TP ← unPackBase hasTp TP data (off + 2) left
      return .up hasTp TP (byteAt EC 0) (byteAt EC 1)
    | .down hasTp hasPW TP _ =>
      let PW ← readAt data off 16
      let left ← sub32 len 16
      let TP ← unPackBase hasTp TP data (off + 16) left
      return .down hasTp hasPW TP (Vector.ofFn fun i => byteAt PW i)
  else
    return aux

end PkgAfnAux

/-! ## Application data -/

structure PkgAfn where
  afnHeader : PkgAfnHeader
  pAfnData : Option PkgAfnData
  pAux : Option PkgAfnAux
  deriving DecidableEq, Repr

namespace PkgAfn

/-- The aux of a received frame is never unpacked: both branches on `TPV` are empty. -/
def unPackData (self : PkgAfn) (data : Bytes) (off len : Nat) : Acc PkgAfn := do
  if PKG_AFN_HEADLEN ≤ len then
    let h ← readAt data off PKG_AFN_HEADLEN
    let len ← sub32 len PKG_AFN_HEADLEN
    let self := { self with afnHeader := .ofBytes h }
    if PKG_AFN_DATATAGLEN ≤ len then
      let d ← PkgAfnData.unPackData data (off + PKG_AFN_HEADLEN) len
      return { self with pAfnData := some d }
    else
      return self
  else
    return self

/-- `_len < 0` is false of an unsigned length, so the first check never returns. The data and the
aux are both offered the length left after the header. -/
def packData (self : PkgAfn) (buf : Bytes) (off len : Nat) : Acc (Bytes × Nat) := do
  let len ← sub32 len PKG_AFN_HEADLEN
  let buf ← writeAt buf off self.afnHeader.toBytes
  let off := off + PKG_AFN_HEADLEN
  let (buf, dataLen) ← match self.pAfnData with
    | some d => d.packData buf off len
    | none => pure (buf, 0)
  let (buf, auxLen) ← match self.pAux with
    | some aux => aux.packData buf (off + dataLen) len
    | none => pure (buf, 0)
  return (buf, PKG_AFN_HEADLEN + dataLen + auxLen)

def getDataLen (self : PkgAfn) : Nat :=
  PKG_AFN_HEADLEN + (match self.pAfnData with | some d => d.getDataLen | none => 0) +
    (match self.pAux with | some aux => aux.getDataLen | none => 0)

end PkgAfn

end Afn
