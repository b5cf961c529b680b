import Afn.AFN0C
import Afn.Jzq
import Afn.Rounding

/-!
# Storing readings

`AFN0CAck_Data_AllKwh::toDB` and `JzqList::GetEleID`. What has not been set cannot be read: where `toDB`
would read it there is no result.
-/

namespace Afn

/-- The first meter with the number `pn` at a concentrator of the address. -/
def JzqList.getEleID (self : JzqList) (areacode addr pn : UInt16) : Int :=
  let id := self.m_jzqList.findSome? fun p =>
    if at? areacode addr p then (p.eleLst.find? fun ele => ele.pn == (pn.toNat : Int)).map (·.ID) else none
  id.getD (-1)

-- `operator<<` of a floating value
def floatText (x : Rat) : String := String.ofList (Decimal.general 6 x).text

structure KwhText where
  total : String
  fee : List String
  deriving DecidableEq, Repr

/-- The `insert` statement, by what is written in its columns. -/
structure Insert where
  EquipmentCjqID : Int
  RecordTime : String
  userkwh : KwhText
  devkwh : KwhText
  onekwh : KwhText
  fourkwh : KwhText
  deriving DecidableEq, Repr

def KwhText.feeText (k : KwhText) : String := String.join (k.fee.map (· ++ "#"))

def Insert.text (s : Insert) : String :=
  "insert into gc_nhfxelect(EquipmentCjqID,TimeSpace,RecordTime,USERKWH,DEVKVAR,FIRSTKVAR,FOURKVAR," ++
  "M_USERKWH,M_DEVKVAR,M_FIRSTKVAR,M_FOURKVAR) " ++
  "values(" ++ toString s.EquipmentCjqID ++ "," ++ toString 60 ++ ",'" ++ s.RecordTime ++ "'," ++
  s.userkwh.total ++ "," ++ s.devkwh.total ++ "," ++ s.onekwh.total ++ "," ++ s.fourkwh.total ++ ",'" ++
  s.userkwh.feeText ++ "','" ++ s.devkwh.feeText ++ "','" ++ s.onekwh.feeText ++ "','" ++ s.fourkwh.feeText ++ "')"

example : Insert.text ⟨7, "2016-01-01 12:00:00", ⟨"3456.78", ["0"]⟩, ⟨"1.5", ["1", "0.5"]⟩, ⟨"0", []⟩, ⟨"0", []⟩⟩ =
    "insert into gc_nhfxelect(EquipmentCjqID,TimeSpace,RecordTime,USERKWH,DEVKVAR,FIRSTKVAR,FOURKVAR," ++
    "M_USERKWH,M_DEVKVAR,M_FIRSTKVAR,M_FOURKVAR) " ++
    "values(7,60,'2016-01-01 12:00:00',3456.78,1.5,0,0,'0#','1#0.5#','','')" := by decide +kernel

-- writes `total` and the first `m` of `fee`
def Kwh.write (k : Kwh) (m : Nat) : Option KwhText := do
  let total ← k.total
  let fee ← (List.range m).mapM fun i => k.fee.bind fun fee => fee[i]?.join
  return ⟨floatText total, fee.map floatText⟩

namespace AllKwh

def insert (self : AllKwh) (eleId : Int) : Option Insert := do
  let m ← self.m
  let userkwh ← self.userkwh.write m
  let devkwh ← self.devkwh.write m
  let onekwh ← self.onekwh.write m
  let fourkwh ← self.fourkwh.write m
  return ⟨eleId, self.dt, userkwh, devkwh, onekwh, fourkwh⟩

/-- The result and the statements executed. -/
def toDB (jzqList : JzqList) (A1 A2 _Fn pn : UInt16) (self : AllKwh) : Option (Int × List Insert) := do
  let eleId := jzqList.getEleID A1 A2 pn
  if eleId = -1 then
    return (-1, [])
  else
  let s ← self.insert eleId
  return (YQER_OK, [s])

end AllKwh

-- `toDB`, which is virtual: that of `Pkg_Afn_Data` only returns
def AckData.toDB (jzqList : JzqList) (A1 A2 Fn pn : UInt16) : AckData → Option (Int × List Insert)
  | .clock _ => some (-1, [])
  | .runStatus _ => some (-1, [])
  | .allKwh d => d.toDB jzqList A1 A2 Fn pn

end Afn
