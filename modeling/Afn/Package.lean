import Afn.Proto

/-!
# AFN packages

`AFNPackage.cpp`: parsing a package from received bytes, serializing one, and the translation
between the tag bytes and the numbers `pn` and `Fn`.
-/

namespace Afn

open Bytes Access

def YQER_OK : Int := 0
def YQER_PARAMERR : Int := -98
def YQER_PKG_Err (x : Int) : Int := -300 - x

structure AFNPackage where
  pkgHeader : PkgHeader
  userHeader : PkgUserHeader
  pAfn : PkgAfn
  pkgTail : PkgTail
  Fn : UInt16
  pn : UInt16
  deriving DecidableEq, Repr

namespace AFNPackage

/-- The constructor run on the memory `mem`: what it does not set keeps what was there. -/
def construct (mem : AFNPackage) : AFNPackage where
  pkgHeader := ⟨0x68, setTag mem.pkgHeader.L 1, setTag mem.pkgHeader.L1 1, 0x68⟩
  userHeader := mem.userHeader
  pAfn := ⟨mem.pAfn.afnHeader, none, none⟩
  pkgTail := ⟨mem.pkgTail.CS, 0x16⟩
  Fn := 0
  pn := 0

def getFrameL (p : AFNPackage) : Nat := PKG_HEADLEN + p.pkgHeader.LEN + PKG_TAILLEN

def valid (p : AFNPackage) : Bool :=
  p.pkgHeader.S1 == 0x68 && p.pkgHeader.S2 == 0x68 && p.pkgTail.E == 0x16

def isRequest (p : AFNPackage) : Bool := p.userHeader.PRM == 1

def getCode (p : AFNPackage) : Int := p.pAfn.afnHeader.AFN.toNat

/-- Adds the `len` bytes of `buf` from `off` to `cs`. -/
def getCS (buf : Bytes) (off : Nat) : (len : Nat) → (cs : UInt8) → Acc UInt8
  | 0, cs => pure cs
  | len + 1, cs => do
    let b ← readAt buf off 1
    getCS buf (off + 1) len (cs + byteAt b 0)

/-! ## Tags -/

-- The number of the lowest set bit counted from 1, or 0: the loop over `n <= 0x07`.
def lowBit (x : UInt8) : Nat :=
  match (List.range 8).find? fun n => x.toNat / 2 ^ n % 2 == 1 with
  | some n => n + 1
  | none => 0

/-- Other values of `pn` leave `DA1` and `DA2` as they were. -/
def getDA (pn : UInt16) (DA1 DA2 : UInt8) : UInt8 × UInt8 :=
  let n := pn.toNat
  if n = 0 then (0, 0)
  else if n = 2041 then (0xff, 0)
  else if n ≤ 2040 then (UInt8.ofNat (2 ^ ((n - 1) % 8)), UInt8.ofNat ((n - 1) / 8 + 1))
  else (DA1, DA2)

def getpn (DA1 DA2 : UInt8) : UInt16 :=
  if DA1 = 0 ∧ DA2 = 0 then 0
  else if DA1 = 0xff ∧ DA2 = 0 then 2041
  -- `(DA2-1)<<3` is negative for `DA2 = 0` and wraps when it is added to the `WORD`
  else UInt16.ofNat ((DA2.toNat + 65536 - 1) * 8 + lowBit DA1)

def getDT (Fn : UInt16) (DT1 DT2 : UInt8) : UInt8 × UInt8 :=
  let n := Fn.toNat
  if n ≤ 248 ∧ 0 < n then (UInt8.ofNat (2 ^ ((n - 1) % 8)), UInt8.ofNat ((n - 1) / 8))
  else (DT1, DT2)

def getFn (DT1 DT2 : UInt8) : UInt16 :=
  if DT2.toNat ≤ 30 then UInt16.ofNat (DT2.toNat * 8 + lowBit DT1) else 0

/-! ## Parsing -/

/-- The last part of `ParseProto`: the user header and the application data of a frame whose checks
have passed. The length passed on is `LEN - PKG_USER_HEADLEN` as a `DWORD`. -/
def parseUserData (self : AFNPackage) (data : Bytes) : Acc AFNPackage := do
  let u ← readAt data PKG_HEADLEN PKG_USER_HEADLEN
  let len ← sub32 self.pkgHeader.LEN PKG_USER_HEADLEN
  let afn ← self.pAfn.unPackData data (PKG_HEADLEN + PKG_USER_HEADLEN) len
  -- `pAfn->pAfnData->m_Tag`, whether or not there was a data unit to unpack
  let d ← deref afn.pAfnData
  return { self with
    userHeader := .ofBytes u
    pAfn := afn
    pn := getpn d.m_Tag.DA1 d.m_Tag.DA2
    Fn := getFn d.m_Tag.DT1 d.m_Tag.DT2 }

/-- The checks of the markers and of the checksum, made once the header and the tail are there. -/
def parseChecked (self : AFNPackage) (data : Bytes) : Acc (Int × Nat × AFNPackage) := do
  let eatLen := self.getFrameL
  if self.valid = false then
    return (YQER_PKG_Err 2, eatLen, self)
  else
  let cs ← getCS data PKG_HEADLEN self.pkgHeader.LEN 0
  if cs ≠ self.pkgTail.CS then
    return (YQER_PKG_Err 4, eatLen, self)
  else
  let self ← self.parseUserData data
  return (YQER_OK, eatLen, self)

/-- Returns the error code, `eatLen` and the package after the call. -/
def parseProto (self : AFNPackage) (data : Bytes) : Acc (Int × Nat × AFNPackage) := do
  let dataLen := data.length
  if dataLen < PKG_HEADLEN + PKG_USER_HEADLEN + PKG_TAILLEN then
    return (YQER_PKG_Err 1, 0, self)
  else
  let h ← readAt data 0 PKG_HEADLEN
  let self := { self with pkgHeader := .ofBytes h }
  if toInt32 dataLen < (self.pkgHeader.LEN + PKG_HEADLEN + PKG_TAILLEN : Nat) then
    return (YQER_PKG_Err 1, 0, self)
  else
  let t ← readAt data (PKG_HEADLEN + self.pkgHeader.LEN) PKG_TAILLEN
  let self := { self with pkgTail := .ofBytes t }
  self.parseChecked data

/-! ## Serializing -/

/-- Serializes into `buf`, whose length is `bufLen`; returns the buffer and the `int` result. The
checks `bufLen < 0` of the source are false of an unsigned length and never return. -/
def serialize (self : AFNPackage) (buf : Bytes) : Acc (Bytes × Int) := do
  let bufLen ← sub32 buf.length PKG_HEADLEN
  let buf ← writeAt buf 0 self.pkgHeader.toBytes
  let bufLen ← sub32 bufLen PKG_USER_HEADLEN
  let buf ← writeAt buf PKG_HEADLEN self.userHeader.toBytes
  let (buf, afnLen) ← self.pAfn.packData buf (PKG_HEADLEN + PKG_USER_HEADLEN) bufLen
  if toInt32 afnLen ≤ 0 then
    return (buf, YQER_PKG_Err 99)
  else
  let bufLen ← sub32 bufLen afnLen
  let _ ← sub32 bufLen PKG_TAILLEN
  let buf ← writeAt buf (PKG_HEADLEN + PKG_USER_HEADLEN + afnLen) self.pkgTail.toBytes
  return (buf, (PKG_HEADLEN + PKG_USER_HEADLEN + afnLen + PKG_TAILLEN : Nat))

def setL (p : AFNPackage) : AFNPackage :=
  { p with pkgHeader := { p.pkgHeader with
      L := setLen p.pkgHeader.L (PKG_USER_HEADLEN + p.pAfn.getDataLen)
      L1 := setLen p.pkgHeader.L1 (PKG_USER_HEADLEN + p.pAfn.getDataLen) } }

/-- The sum over the header fields and the data unit; the additional information is left out. -/
def createCS (p : AFNPackage) : Acc AFNPackage := do
  let d ← deref p.pAfn.pAfnData
  let u := p.userHeader
  let a := p.pAfn.afnHeader
  let cs := u.C + loByte u.A1 + hiByte u.A1 + loByte u.A2 + hiByte u.A2 + u.A3 + a.AFN + a.SEQ +
    d.m_Tag.DA1 + d.m_Tag.DA2 + d.m_Tag.DT1 + d.m_Tag.DT2
  let cs ← getCS d.m_pData 0 d.m_nLen cs
  return { p with pkgTail := { p.pkgTail with CS := cs } }

def okPkg (p : AFNPackage) : Acc AFNPackage := createCS p.setL

end AFNPackage

/-! ## Requests -/

/-- `AFN0C::Create` on the object `self`, whose new data unit was allocated with the tag `tag`;
`AFN04::Create` is the same. -/
def AFN0C.create (self : PkgAfn) (tag : PkgAfnDataTag) (pn Fn : UInt16) : PkgAfn :=
  let h : PkgAfnHeader := { self.afnHeader with AFN := 0x0C }
  let DA := AFNPackage.getDA pn tag.DA1 tag.DA2
  let DT := AFNPackage.getDT Fn tag.DT1 tag.DT2
  { afnHeader := (((h.setCON 1).setFIN 1).setFIR 1).setTPV 0
    pAfnData := some ⟨⟨DA.1, DA.2, DT.1, DT.2⟩, []⟩
    pAux := some (.down false true ⟨0, (0, 0, 0, 0), 0⟩ (Vector.replicate 16 0)) }

end Afn
