import Afn.AFN0C
import Afn.Effect
import Afn.Heap
import Afn.Jzq
import Afn.Mailbox
import Afn.RecBuf

/-!
# From a package to its handler

`ConnectionPower.cpp`, `PackageBuilder.cpp`, `AFNPackageBuilder.cpp`, `AFN02.cpp` and `AFNAck.cpp`: what
is done with a received package. Packages are objects at addresses, and deleting one twice is a fault.
-/

namespace Afn

open Bytes Access AFNPackage

structure PkgPtr where
  addr : Nat
  pkg : AFNPackage
  deriving DecidableEq, Repr

-- what `notify` is given: the first data unit and those linked to it by `m_next`
structure AckChain where
  head : AckData
  next : List AckData
  deriving DecidableEq, Repr

/-- The state behind a connection. `mem` is what new memory holds. The logs list the packages received,
the lists `HandlePkg` was called on, the calls of `notify` and of `toDB`, and the frames written. -/
structure World where
  jzqList : JzqList
  tick : UInt32
  cmdMap : CmdMap AckChain
  mem : AFNPackage
  heap : Heap
  received : List PkgPtr
  handled : List (List PkgPtr)
  notified : List (AppCall × Option AckChain)
  stored : List (AppCall × AckData)
  sent : List Bytes

abbrev Srv := EStateM Fault World

def liftAcc {α : Type} (x : Acc α) : Srv α := fun w =>
  match x.out with
  | .ok a => .ok a w
  | .error e => .error e w

def new (pkg : AFNPackage) : Srv PkgPtr := fun w => .ok ⟨w.heap.next, pkg⟩ { w with heap := w.heap.alloc }

def delete (p : PkgPtr) : Srv Unit := fun w =>
  match w.heap.free p.addr with
  | some heap => .ok () { w with heap := heap }
  | none => .error .doubleFree w

-- `ClearPkgList`; the list is empty afterwards
def clearPkgList : List PkgPtr → Srv (List PkgPtr)
  | [] => pure []
  | p :: lst => do
    delete p
    clearPkgList lst

/-! ## Sending -/

def sendBuf (cmd : Bytes) : Srv Int := do
  modify fun w => { w with sent := w.sent ++ [cmd] }
  return 0

def sendPkg (pkg : PkgPtr) : Srv Int := do
  let (sndBuf, size) ← liftAcc (pkg.pkg.serialize (List.replicate BUF_SIZE 0))
  if 0 < size ∧ size < BUF_SIZE then
    sendBuf (sndBuf.take size.toNat)
  else
    return size

def sendPkgs : List PkgPtr → (ret : Int) → Srv Int
  | [], ret => pure ret
  | p :: pkgLst, ret => do
    let as ← sendPkg p
    sendPkgs pkgLst (if as = YQER_OK then ret else as)

/-! ## Builders -/

-- `pfnDoHandleRequest` also returns the list of replies afterwards
structure PkgHandler where
  reqHander : Option (List PkgPtr → List PkgPtr → Srv (Int × List PkgPtr))
  ackHandler : Option (AFNPackage → Acc (Option AckData))

/-- A builder: its handlers in the order of their codes, and the one virtual function. -/
structure PackageBuilder where
  handlerMap : List (Int × PkgHandler)
  createAck : PkgPtr → Option PkgAfnData → Srv PkgPtr

namespace PackageBuilder

def register (handlerMap : List (Int × PkgHandler)) (code : Int) (h : PkgHandler) : List (Int × PkgHandler) :=
  match handlerMap with
  | [] => [(code, h)]
  | (c, h') :: rest =>
    if code < c then (code, h) :: (c, h') :: rest
    else if code = c then (code, h) :: rest
    else (c, h') :: register rest code h

/-- The loop over the handlers returns in its first round, whichever branch it takes. -/
def doHandleRequest (self : PackageBuilder) (reqPkg : PkgPtr) (reqLst ackLst : List PkgPtr) :
    Srv (Int × List PkgPtr) :=
  match self.handlerMap with
  | [] => return (-1, ackLst)
  | (code, h) :: _ =>
    match h.reqHander with
    | some reqHander =>
      if code = reqPkg.pkg.getCode then reqHander reqLst ackLst
      else do
        let ack ← self.createAck reqPkg none
        return (YQER_OK, ackLst ++ [ack])
    | none => do
      let ack ← self.createAck reqPkg none
      return (YQER_OK, ackLst ++ [ack])

def doHandleAck (ackLst : List PkgPtr) : Int := if ackLst.length = 0 then -1 else YQER_OK

/-- `DoHandleRequest` and `DoHandleAck` are not virtual: these calls are of the functions above. -/
def handlePkg (self : PackageBuilder) (reqLst ackLst : List PkgPtr) : Srv (Int × List PkgPtr) := do
  modify fun w => { w with handled := w.handled ++ [reqLst] }
  match reqLst with
  | reqPkg :: _ =>
    if reqPkg.pkg.isRequest then
      self.doHandleRequest reqPkg reqLst ackLst
    else
      return (doHandleAck reqLst, ackLst)
  | [] => return (YQER_PARAMERR, ackLst)

end PackageBuilder

/-! ## Replies -/

def AFNAck_Data : PkgAfnData := ⟨⟨0, 0, (getDT 1 0 0).1, (getDT 1 0 0).2⟩, []⟩

-- `AFN02Ack_Data`: the data unit `_what` of AFN 02 is confirmed
def AFN02Ack_Data (_what : PkgAfnDataTag) : PkgAfnData :=
  ⟨⟨0, 0, (getDT 3 0 0).1, (getDT 3 0 0).2⟩, 0x02 :: _what.toBytes ++ [0x00]⟩

namespace AFNPackageBuilder

/-- The reply to `reqPkg` before `okPkg`, made in the memory `mem`. -/
def ackPkg (mem reqPkg : AFNPackage) (PRSEQ : UInt8) (data : PkgAfnData) : AFNPackage :=
  let p := AFNPackage.construct mem
  let u := ((((p.userHeader.setDIR 0).setPRM 0).setFCV 0).setFCB 0).setFUN 11
  let u := (u.setTAG 0).setMSA Jzq.s_MSA.toNat
  let h : PkgAfnHeader := { p.pAfn.afnHeader with AFN := 0 }
  { p with
    userHeader := { u with A1 := reqPkg.userHeader.A1, A2 := reqPkg.userHeader.A2 }
    pAfn := ⟨((((h.setCON 0).setFIN 1).setFIR 1).setTPV 0).setPRSEQ PRSEQ.toNat, some data, none⟩ }

def createAck (reqPkg : PkgPtr) (data : Option PkgAfnData) : Srv PkgPtr := do
  let w ← get
  let (n, jzqList) := w.jzqList.getRSEQ reqPkg.pkg.userHeader.A1 reqPkg.pkg.userHeader.A2 true
  set { w with jzqList := jzqList }
  let pkg ← liftAcc (ackPkg w.mem reqPkg.pkg n (data.getD AFNAck_Data)).okPkg
  new pkg

/-! ## Requests -/

/-- The request before `okPkg`, made in the memory `mem` for the concentrator of the address `m_jzq`. -/
def requestPkg (mem : AFNPackage) (m_jzq : UInt16 × UInt16) (afnData : PkgAfn) (PRSEQ : UInt8) (n : Nat) :
    AFNPackage :=
  let p := AFNPackage.construct mem
  let u := ((((p.userHeader.setDIR 0).setPRM 1).setFCV 0).setFCB 0).setFUN n
  let u := (u.setTAG 0).setMSA Jzq.s_MSA.toNat
  { p with
    userHeader := { u with A1 := m_jzq.1, A2 := m_jzq.2 }
    pAfn := { afnData with afnHeader := afnData.afnHeader.setPRSEQ PRSEQ.toNat } }

def makeRequest (m_jzq : UInt16 × UInt16) (afnData : PkgAfn) (n : Nat) : Srv PkgPtr := do
  let w ← get
  let (PRSEQ, jzqList) := w.jzqList.getPSEQ m_jzq.1 m_jzq.2 true
  set { w with jzqList := jzqList }
  let pkg ← liftAcc (requestPkg w.mem m_jzq afnData PRSEQ n).okPkg
  new pkg

/-- `REQUEST_DATA` on a connection to `m_jzq`: returns the request, which has been deleted, `ret` and `call`. -/
def requestData (m_jzq : UInt16 × UInt16) (afnData : PkgAfn) (n : Nat) : Srv (PkgPtr × Int × AppCall) := do
  let sndPkg ← makeRequest m_jzq afnData n
  let ret ← sendPkg sndPkg
  let d ← liftAcc (deref sndPkg.pkg.pAfn.pAfnData)
  let call : AppCall := ⟨m_jzq.1, m_jzq.2, sndPkg.pkg.pAfn.afnHeader.AFN, getFn d.m_Tag.DT1 d.m_Tag.DT2,
    getpn d.m_Tag.DA1 d.m_Tag.DA2⟩
  delete sndPkg
  return (sndPkg, ret, call)

end AFNPackageBuilder

def AFN02.handleRequest (reqLst ackLst : List PkgPtr) : Srv (Int × List PkgPtr) :=
  match reqLst with
  | [] => return (YQER_OK, ackLst)
  | reqPkg :: _ => do
    let p := reqPkg.pkg
    if p.userHeader.FUN = 9 ∧ p.pn = 0 ∧ (p.Fn = 1 ∨ p.Fn = 2 ∨ p.Fn = 3) then
      modify fun w => { w with
        jzqList := w.jzqList.reportLoginState w.tick p.userHeader.A1 p.userHeader.A2 p.Fn
          (UInt8.ofNat p.pAfn.afnHeader.PRSEQ) true }
      if p.pAfn.afnHeader.CON ≠ 1 then
        return (YQER_OK, ackLst)
      else
      let d ← liftAcc (deref p.pAfn.pAfnData)
      let ack ← AFNPackageBuilder.createAck reqPkg (some (AFN02Ack_Data d.m_Tag))
      return (YQER_OK, ackLst ++ [ack])
    else
      return (-1, ackLst)

/-! ## Responses -/

namespace AFNPackageBuilder

-- of the data units only `AFN0CAck_Data_AllKwh` has a `toDB`; the others' does nothing
def saveResultToDB (call : AppCall) (data : Option AckChain) : Srv Unit :=
  match data with
  | some d =>
    if call.AFN = 0x0C then modify fun w => { w with stored := w.stored ++ [(call, d.head)] } else pure ()
  | none => pure ()

/-- A result for a key that is not in the map is deleted. -/
def notify (call : AppCall) (data : Option AckChain) : Srv Int := do
  modify fun w => { w with notified := w.notified ++ [(call, data)] }
  let w ← get
  match w.cmdMap call with
  | some _ =>
    modify fun w => { w with cmdMap := w.cmdMap.set call data }
    saveResultToDB call data
  | none => saveResultToDB call data
  return 0

def callOf (p : AFNPackage) : AppCall :=
  ⟨p.userHeader.A1, p.userHeader.A2, p.pAfn.afnHeader.AFN, p.Fn, p.pn⟩

-- the loop over the handlers: the last result of those for the code of the package
def decode (handlerMap : List (Int × PkgHandler)) (p : AFNPackage) (pData : Option AckData) :
    Acc (Option AckData) :=
  match handlerMap with
  | [] => pure pData
  | (code, h) :: rest =>
    match h.ackHandler with
    | some ackHandler => do
      let pData ← if code = p.getCode then ackHandler p else pure pData
      decode rest p pData
    | none => decode rest p pData

/-- The loop over the responses: the key of the last one, and the data units linked in order. The
result of `HandleData` is not looked at. -/
def collect (handlerMap : List (Int × PkgHandler)) :
    List PkgPtr → (call : AppCall) → (data : Option AckChain) → Acc (AppCall × Option AckChain)
  | [], call, data => pure (call, data)
  | p :: lst, _, data => do
    if p.pkg.userHeader.FUN = 8 then
      let pData ← decode handlerMap p.pkg none
      match pData with
      | some d =>
        let (_, d) ← d.handleData
        let data := match data with
          | none => some ⟨d, []⟩
          | some c => some { c with next := c.next ++ [d] }
        collect handlerMap lst (callOf p.pkg) data
      | none => collect handlerMap lst (callOf p.pkg) data
    else
      collect handlerMap lst (callOf p.pkg) data

/-- `AFNPackageBuilder::DoHandleAck`, which hides the function of the base class. -/
def doHandleAck (handlerMap : List (Int × PkgHandler)) (ackLst : List PkgPtr) : Srv Int := do
  if ackLst.length = 0 then
    return -1
  else
  let (call, data) ← liftAcc (collect handlerMap ackLst ⟨0, 0, 0, 0, 0⟩ none)
  let _ ← notify call data
  return YQER_OK

end AFNPackageBuilder

-- the handlers `YQLoop` registers
def handlerMap : List (Int × PkgHandler) :=
  PackageBuilder.register (PackageBuilder.register [] 0x02 ⟨some AFN02.handleRequest, none⟩)
    0x0C ⟨none, some AFN0C.handleAck⟩

def AFNPackageBuilder.Instance : PackageBuilder := ⟨handlerMap, AFNPackageBuilder.createAck⟩

/-! ## Connections -/

-- the part of a connection above its receive buffer; `m_jzq` is the address of its concentrator
structure ConnectionPower where
  m_jzq : UInt16 × UInt16
  m_pkgList : List PkgPtr
  deriving DecidableEq, Repr

namespace ConnectionPower

def handleList (reqLst : List PkgPtr) : Srv Unit := do
  let (nRet, ackLst) ← AFNPackageBuilder.Instance.handlePkg reqLst []
  if nRet = YQER_OK ∧ 0 < ackLst.length then
    let _ ← sendPkgs ackLst YQER_OK
    let _ ← clearPkgList ackLst
  else
    pure ()

/-- The branch of the first frame handles it at once, and deletes it once as an element of the list and
once more as `pkg`, as the branch of the last frame does. -/
def handlePackage (self : ConnectionPower) (pkg : PkgPtr) : Srv (ConnectionPower × Int) := do
  modify fun w => { w with received := w.received ++ [pkg] }
  let u := pkg.pkg.userHeader
  let h := pkg.pkg.pAfn.afnHeader
  let self := if u.TAG = 0 then { self with m_jzq := (u.A1, u.A2) } else self
  if h.FIN = 1 ∧ h.FIR = 1 then
    handleList [pkg]
    delete pkg
    return (self, YQER_OK)
  else if h.FIN = 0 ∧ h.FIR = 1 then
    let m_pkgList ← clearPkgList self.m_pkgList
    let m_pkgList := m_pkgList ++ [pkg]
    handleList m_pkgList
    let m_pkgList ← clearPkgList m_pkgList
    delete pkg
    return ({ self with m_pkgList := m_pkgList }, YQER_OK)
  else if h.FIR = 0 then
    let m_pkgList := self.m_pkgList ++ [pkg]
    if h.FIN = 0 then
      return ({ self with m_pkgList := m_pkgList }, YQER_OK)
    else
      handleList m_pkgList
      let m_pkgList ← clearPkgList m_pkgList
      delete pkg
      return ({ self with m_pkgList := m_pkgList }, YQER_OK)
  else
    return (self, YQER_OK)

def receive (self : ConnectionPower) (pkg : AFNPackage) : Srv (ConnectionPower × Int) := do
  let p ← new pkg
  self.handlePackage p

-- `LOCK_CONNECTION` on the connection
def clearRecPkgList (self : ConnectionPower) : Srv ConnectionPower := do
  let m_pkgList ← clearPkgList self.m_pkgList
  return { self with m_pkgList := m_pkgList }

end ConnectionPower

end Afn
