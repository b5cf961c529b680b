/-!
# Concentrators

`Jzq.cpp`, the concentrator part of `ConnectionList.cpp`, and the timers of `YQUtils.cpp`. The clock is
read as a 32-bit number of milliseconds; one call reads it once.
-/

namespace Afn

/-! ## Timers -/

-- `TimeElapse`, the clock reading `Tick`
def timeElapse (Tick StartTime : UInt32) : UInt32 :=
  let MaxVal : UInt32 := ~~~0
  if Tick < StartTime then (MaxVal - StartTime) + 1 + Tick else Tick - StartTime

/-- Both branches are the subtraction of 32-bit numbers. -/
theorem timeElapse_eq (Tick StartTime : UInt32) : timeElapse Tick StartTime = Tick - StartTime := by
  simp only [timeElapse]
  split
  next =>
    have hwrap : (~~~0 : UInt32) + 1 = 0 := by decide
    rw [UInt32.sub_eq_add_neg, UInt32.sub_eq_add_neg, UInt32.add_assoc (~~~0), UInt32.add_comm (-StartTime),
      ← UInt32.add_assoc, hwrap, UInt32.zero_add, UInt32.add_comm]
  next => rfl

/-! ## Concentrators -/

structure Element where
  ID : Int
  pn : Int
  deriving DecidableEq, Repr

structure Jzq where
  m_areacode : UInt16
  m_number : UInt16
  m_name : String
  m_tag : UInt8
  m_RSEQ : UInt8
  m_PSEQ : UInt8
  m_PFC : UInt8
  m_heartTimer : UInt32
  m_getTimer : UInt32
  eleLst : List Element
  deriving DecidableEq, Repr

namespace Jzq

def s_MSA : UInt8 := 0x01

def construct (_name : String) (_areaCode _number : UInt16) (_tag : UInt8) : Jzq :=
  ⟨_areaCode, _number, _name, _tag, 0, 0, 0, 0, 0, []⟩

def online (self : Jzq) : Bool := self.m_tag &&& 0x2 != 0

/-- Login (1), logout or timeout (2), heartbeat (3) at the clock reading `tick`. -/
def loginState (self : Jzq) (tick : UInt32) (_Fn : UInt16) (_pseq : UInt8) : Jzq :=
  if _Fn = 1 then { self with m_tag := self.m_tag ||| ((0x1 : UInt8) <<< 1), m_RSEQ := _pseq }
  else if _Fn = 2 then { self with m_tag := self.m_tag &&& ~~~((0x1 : UInt8) <<< 1) }
  else if _Fn = 3 then { self with m_tag := self.m_tag ||| ((0x1 : UInt8) <<< 1), m_heartTimer := tick }
  else self

def checkTimeout (self : Jzq) (tick : UInt32) : Jzq × Bool :=
  let dwElapse := timeElapse tick self.m_heartTimer
  if 180000 < dwElapse then ({ self with m_heartTimer := tick }.loginState tick 2 0, true)
  else (self, false)

end Jzq

/-! ## The list of concentrators -/

-- `noneTag` is the counter that names the concentrators not in the database
structure JzqList where
  m_jzqList : List Jzq
  noneTag : Nat
  deriving DecidableEq, Repr

namespace JzqList

def at? (_areacode _number : UInt16) (p : Jzq) : Bool := p.m_areacode == _areacode && p.m_number == _number

def getJzq (self : JzqList) (_areacode _number : UInt16) : Option Jzq :=
  self.m_jzqList.find? (at? _areacode _number)

def modifyFirst (_areacode _number : UInt16) (f : Jzq → Jzq) : List Jzq → List Jzq
  | [] => []
  | p :: ps => if at? _areacode _number p then f p :: ps else p :: modifyFirst _areacode _number f ps

-- what a method called through the pointer that `getJzq` returns does to the list
def modify (self : JzqList) (_areacode _number : UInt16) (f : Jzq → Jzq) : JzqList :=
  { self with m_jzqList := modifyFirst _areacode _number f self.m_jzqList }

def reportLoginState (self : JzqList) (tick : UInt32) (_areacode _number _Fn : UInt16) (_pseq : UInt8)
    (_add : Bool) : JzqList :=
  match self.getJzq _areacode _number with
  | some _ => self.modify _areacode _number fun p => p.loginState tick _Fn _pseq
  | none =>
    if _add then
      let p := Jzq.construct ("none" ++ toString self.noneTag) _areacode _number 0
      ⟨self.m_jzqList ++ [p.loginState tick _Fn _pseq], self.noneTag + 1⟩
    else self

/-- The response number, and the list with that of the concentrator advanced modulo 16. -/
def getRSEQ (self : JzqList) (_areacode _number : UInt16) (_increase : Bool) : UInt8 × JzqList :=
  match self.getJzq _areacode _number with
  | some p =>
    (p.m_RSEQ,
      if _increase then
        self.modify _areacode _number fun p =>
          { p with m_RSEQ := if 15 < p.m_RSEQ + 1 then 0 else p.m_RSEQ + 1 }
      else self)
  | none => (0, self)

/-- The request number, the low four bits of a counter of eight, and the list with the counter advanced. -/
def getPSEQ (self : JzqList) (_areacode _number : UInt16) (_increase : Bool) : UInt8 × JzqList :=
  match self.getJzq _areacode _number with
  | some p =>
    (p.m_PFC &&& 0x0f,
      if _increase then self.modify _areacode _number fun p => { p with m_PFC := p.m_PFC + 1 } else self)
  | none => (0, self)

def checkConnection (self : JzqList) (tick : UInt32) : JzqList :=
  { self with m_jzqList := self.m_jzqList.map fun p => (p.checkTimeout tick).1 }

/-- The destructor of a connection whose concentrator has the address. -/
def delConnection (self : JzqList) (tick : UInt32) (_areacode _number : UInt16) : JzqList :=
  match self.getJzq _areacode _number with
  | some _ => self.modify _areacode _number fun p => p.loginState tick 2 0
  | none => self

end JzqList

/-! ## The database -/

structure JzqRow where
  EquipmentCjqArea : Int
  EquipmentCjqAddr : Int
  EquipmentName : String
  deriving DecidableEq, Repr

structure ElectRow where
  EquipmentCjqArea : Int
  EquipmentCjqAddr : Int
  EquipmentCjqPn : Int
  ID : Int
  deriving DecidableEq, Repr

structure Tables where
  gc_equipmentjzq : List JzqRow
  gc_equipmentelect : List ElectRow

-- the second query of `LoadJzq`
def Tables.elements (db : Tables) (m_areacode m_number : UInt16) : List Element :=
  (db.gc_equipmentelect.filter fun r =>
    r.EquipmentCjqArea == (m_areacode.toNat : Int) && r.EquipmentCjqAddr == (m_number.toNat : Int)).map fun r =>
      ⟨r.ID, r.EquipmentCjqPn⟩

-- a concentrator of the database; the `int` columns become `WORD`s
def JzqRow.jzq (r : JzqRow) : Jzq :=
  Jzq.construct r.EquipmentName (UInt16.ofInt r.EquipmentCjqArea) (UInt16.ofInt r.EquipmentCjqAddr) 0x01

namespace JzqList

/-- Every row is added without a look at the list, and the elements of every concentrator once more. -/
def loadJzq (self : JzqList) (db : Tables) : JzqList :=
  let m_jzqList := self.m_jzqList ++ db.gc_equipmentjzq.map JzqRow.jzq
  { self with m_jzqList := m_jzqList.map fun p =>
      { p with eleLst := p.eleLst ++ db.elements p.m_areacode p.m_number } }

def load (self : JzqList) (db : Tables) : JzqList := { self with m_jzqList := [] }.loadJzq db

end JzqList

end Afn
