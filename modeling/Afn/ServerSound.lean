import Afn.CodecSound
import Afn.Server

/-!
# What becomes of a received package

A request is answered or not by its function code, whatever its confirmation bit says, except in the
link check (AFN 02). A response goes to the base class, which does nothing with it.
-/

namespace Afn

open Bytes Access Effect AFNPackage

-- a package the parser has accepted
structure RecPkg where
  pkg : AFNPackage
  parsed : ∃ mem data e, 12 ≤ lenAt data ∧ ((construct mem).parseProto data).out = .ok (YQER_OK, e, pkg)

theorem RecPkg.unit (p : RecPkg) : ∃ d, p.pkg.pAfn.pAfnData = some d := by
  obtain ⟨mem, data, e, h12, h⟩ := p.parsed
  obtain ⟨-, -, hq⟩ := parse_ok_inv h12 h
  exact ⟨unitOf data, by rw [hq]; rfl⟩

/-! ## Primitive operations -/

theorem ends_liftAcc {α : Type} {x : Acc α} {a : α} (h : x.out = .ok a) (w : World) : Ends (liftAcc x) w a w := by
  simp only [Ends, liftAcc, h]

theorem ends_new (pkg : AFNPackage) (w : World) :
    Ends (new pkg) w ⟨w.heap.next, pkg⟩ { w with heap := w.heap.alloc } := rfl

theorem ends_delete {p : PkgPtr} {w : World} (h : w.heap.Live p.addr) :
    ∃ heap, Ends (delete p) w () { w with heap := heap } ∧ (∀ a, w.heap.Live a → a ≠ p.addr → heap.Live a) ∧
      ∀ a, a = p.addr ∨ a ∈ w.heap.freed → a ∈ heap.freed := by
  obtain ⟨heap, hfree, hkept⟩ := Heap.free_live h
  refine ⟨heap, ?_, hkept⟩
  simp only [Ends, delete, hfree]

theorem stops_delete {p : PkgPtr} {w : World} (h : p.addr ∈ w.heap.freed) : Stops (delete p) w .doubleFree := by
  refine ⟨w, ?_⟩
  simp only [delete, Heap.free_freed h]

section
variable {w w' : World}

theorem liftAcc_inv {α : Type} {x : Acc α} {a : α} (h : Ends (liftAcc x) w a w') : x.out = .ok a ∧ w' = w := by
  unfold Ends liftAcc at h
  split at h
  next b hb =>
    cases h
    exact ⟨hb, rfl⟩
  next => cases h

theorem delete_inv {p : PkgPtr} (h : Ends (delete p) w () w') :
    ∃ heap, w.heap.free p.addr = some heap ∧ w' = { w with heap := heap } := by
  unfold Ends delete at h
  split at h
  next heap hfree =>
    cases h
    exact ⟨heap, hfree, rfl⟩
  next => cases h

theorem sendPkg_inv {p : PkgPtr} {ret : Int} (h : Ends (sendPkg p) w ret w') :
    ∃ sent, w' = { w with sent := sent } := by
  unfold sendPkg at h
  obtain ⟨⟨sndBuf, size⟩, v, hser, h⟩ := h.of_bind
  rw [(liftAcc_inv hser).2] at h
  by_cases hsize : 0 < size ∧ size < BUF_SIZE
  · simp only [hsize, and_self, if_true] at h
    cases h
    exact ⟨_, rfl⟩
  · simp only [hsize, if_false] at h
    cases h
    exact ⟨_, rfl⟩

end

theorem ends_sendPkg_closed {p : AFNPackage} {d : PkgAfnData} (hd : p.pAfn.pAfnData = some d)
    (haux : PlainAux p.pAfn.pAux) (hfit : p.pAfn.getDataLen + 14 < BUF_SIZE) (a : Nat) (w : World) :
    Ends (sendPkg ⟨a, closed p d⟩) w 0 { w with sent := w.sent ++ [encode (closed p d) d] } := by
  have hlen : p.pAfn.getDataLen + 6 < 16384 := by
    simp only [BUF_SIZE] at hfit
    omega
  have hroom : p.pAfn.getDataLen + 14 ≤ (List.replicate BUF_SIZE (0 : UInt8)).length := by
    rw [List.length_replicate]
    exact Nat.le_of_lt hfit
  obtain ⟨b, hb, htake⟩ := serialize_closed hd haux hlen hroom
  unfold sendPkg
  refine (ends_liftAcc hb w).bind ?_
  have hsize : 0 < ((p.pAfn.getDataLen + 14 : Nat) : Int) ∧
      ((p.pAfn.getDataLen + 14 : Nat) : Int) < (BUF_SIZE : Nat) :=
    ⟨Int.natCast_pos.mpr (Nat.succ_pos _), Int.ofNat_lt.mpr hfit⟩
  simp only [hsize, and_self, if_true, Int.toNat_natCast, htake]
  exact (ends_modify _ w).bind (ends_pure _ _)

/-! ## Replies -/

namespace AFNPackageBuilder

theorem PRM_setC {u : PkgUserHeader} {p m v : Nat} (hp : 0 < p) (hm : 0 < m) (h : p * m ∣ 64) :
    (u.setC p m v).PRM = u.PRM := by
  simp only [PkgUserHeader.PRM, PkgUserHeader.setC, UInt8.toNat_ofNat']
  rw [field_mod _ (by decide), field_setField_above _ _ hp hm h]

theorem PRM_setPRM (u : PkgUserHeader) (v : Nat) : (u.setPRM v).PRM = v % 2 := by
  simp only [PkgUserHeader.PRM, PkgUserHeader.setPRM, PkgUserHeader.setC, UInt8.toNat_ofNat']
  rw [field_mod _ (by decide), field_setField_self _ _ (by decide)]

section
variable (mem reqPkg : AFNPackage) (n : UInt8) (d : PkgAfnData)

theorem ackPkg_PRM : (ackPkg mem reqPkg n d).userHeader.PRM = 0 := by
  have h : (ackPkg mem reqPkg n d).userHeader.PRM =
      ((((mem.userHeader.setDIR 0).setPRM 0).setFCV 0).setFCB 0 |>.setFUN 11).PRM := rfl
  rw [h, PkgUserHeader.setFUN, PRM_setC (by decide) (by decide) (by decide), PkgUserHeader.setFCB,
    PRM_setC (by decide) (by decide) (by decide), PkgUserHeader.setFCV,
    PRM_setC (by decide) (by decide) (by decide), PRM_setPRM]

theorem ackPkg_getDataLen : (ackPkg mem reqPkg n d).pAfn.getDataLen = d.m_nLen + 6 :=
  @getDataLen_eq (ackPkg mem reqPkg n d).pAfn d rfl

end

/-- The frame is a confirmation addressed to the sender of `reqPkg`. -/
def Confirms (reqPkg : AFNPackage) (bs : Bytes) : Prop :=
  ∀ mem, ∃ q, ((construct mem).parseProto bs).out = .ok (YQER_OK, bs.length, q) ∧
    q.pAfn.afnHeader.AFN = 0 ∧ q.userHeader.PRM = 0 ∧
    q.userHeader.A1 = reqPkg.userHeader.A1 ∧ q.userHeader.A2 = reqPkg.userHeader.A2

def replyPkg (w : World) (reqPkg : AFNPackage) (d : PkgAfnData) : AFNPackage :=
  ackPkg w.mem reqPkg (w.jzqList.getRSEQ reqPkg.userHeader.A1 reqPkg.userHeader.A2 true).1 d

def replyBytes (w : World) (reqPkg : AFNPackage) (d : PkgAfnData) : Bytes :=
  encode (closed (replyPkg w reqPkg d) d) d

section
variable (w : World) (reqPkg : AFNPackage) (d : PkgAfnData)

theorem replyPkg_unit : (replyPkg w reqPkg d).pAfn.pAfnData = some d := rfl

theorem replyPkg_plain : PlainAux (replyPkg w reqPkg d).pAfn.pAux := by
  intro aux h
  cases h

theorem replyPkg_getDataLen : (replyPkg w reqPkg d).pAfn.getDataLen = d.m_nLen + 6 := ackPkg_getDataLen _ _ _ d

variable {d} (hd : d.m_nLen ≤ 1000)
include hd

theorem replyPkg_fits : (replyPkg w reqPkg d).pAfn.getDataLen + 6 < 16384 := by
  rw [replyPkg_getDataLen]
  omega

theorem length_replyBytes : (replyBytes w reqPkg d).length = (replyPkg w reqPkg d).pAfn.getDataLen + 14 := by
  have hlen := replyPkg_fits w reqPkg hd
  rw [replyBytes, length_encode, length_userData_closed rfl hlen,
    closed_LEN _ _ hlen]

theorem confirms_reply : Confirms reqPkg (replyBytes w reqPkg d) := by
  intro mem
  obtain ⟨hp, hu, ha⟩ := parse_closed mem (replyPkg_unit w reqPkg d) (replyPkg_fits w reqPkg hd) rfl
    ⟨rfl, rfl, rfl⟩
  refine ⟨frameOf (replyBytes w reqPkg d), ?_, ?_, ?_, ?_, ?_⟩
  · rw [length_replyBytes w reqPkg hd]
    exact hp
  · rw [replyBytes, ha]; rfl
  · rw [replyBytes, hu]; exact ackPkg_PRM ..
  · rw [replyBytes, hu]; rfl
  · rw [replyBytes, hu]; rfl

theorem ends_sendPkg (a : Nat) (w' : World) :
    Ends (sendPkg ⟨a, closed (replyPkg w reqPkg d) d⟩) w' 0
      { w' with sent := w'.sent ++ [replyBytes w reqPkg d] } := by
  have hfit : (replyPkg w reqPkg d).pAfn.getDataLen + 14 < BUF_SIZE := by
    rw [replyPkg_getDataLen, BUF_SIZE]
    omega
  exact ends_sendPkg_closed (replyPkg_unit w reqPkg d) (replyPkg_plain w reqPkg d) hfit a w'

omit hd in
theorem ends_createAck (a : Nat) {data : Option PkgAfnData} (hdata : data.getD AFNAck_Data = d) :
    Ends (createAck ⟨a, reqPkg⟩ data) w ⟨w.heap.next, closed (replyPkg w reqPkg d) d⟩
      { w with
        jzqList := (w.jzqList.getRSEQ reqPkg.userHeader.A1 reqPkg.userHeader.A2 true).2
        heap := w.heap.alloc } := by
  unfold createAck
  refine (ends_get w).bind ?_
  rw [hdata]
  exact Ends.bind rfl ((ends_liftAcc (yields_okPkg (replyPkg w reqPkg d) (replyPkg_unit w reqPkg d)).out _).bind
    (ends_new _ _))

end

end AFNPackageBuilder

/-! ## Requests -/

open AFNPackageBuilder

def LinkCheck (p : AFNPackage) : Prop := p.userHeader.FUN = 9 ∧ p.pn = 0 ∧ (p.Fn = 1 ∨ p.Fn = 2 ∨ p.Fn = 3)

def Answers (p : AFNPackage) : Prop :=
  p.getCode ≠ 2 ∨ LinkCheck p ∧ p.pAfn.afnHeader.CON = 1

instance (p : AFNPackage) : Decidable (LinkCheck p) := inferInstanceAs (Decidable (_ ∧ _ ∧ _))
instance (p : AFNPackage) : Decidable (Answers p) := inferInstanceAs (Decidable (_ ∨ _))

/-- Replies are made at new addresses, and nothing else happens to the objects and the logs. -/
structure Replied (w w' : World) (reqPkg : AFNPackage) (ackLst : List PkgPtr) : Prop where
  received : w'.received = w.received
  handled : w'.handled = w.handled
  notified : w'.notified = w.notified
  sent : w'.sent = w.sent
  live : ∀ a, w.heap.Live a → w'.heap.Live a
  acks : ackLst = [] ∨ ∃ v d, d.m_nLen ≤ 1000 ∧ w'.heap.Live w.heap.next ∧
    ackLst = [⟨w.heap.next, closed (replyPkg v reqPkg d) d⟩]

theorem replied_none (w : World) (reqPkg : AFNPackage) (jzqList : JzqList) :
    Replied w { w with jzqList := jzqList } reqPkg [] :=
  ⟨rfl, rfl, rfl, rfl, fun _ => id, .inl rfl⟩

theorem ends_confirm (w : World) (p : PkgPtr) (jzqList : JzqList) (data : Option PkgAfnData)
    (hdata : (data.getD AFNAck_Data).m_nLen ≤ 1000) :
    ∃ ack w', Ends (createAck p data) { w with jzqList := jzqList } ack w' ∧ Replied w w' p.pkg [ack] :=
  ⟨_, _, ends_createAck { w with jzqList := jzqList } p.pkg p.addr rfl,
    ⟨rfl, rfl, rfl, rfl, fun _ h => h.alloc, .inr ⟨_, _, hdata, Heap.live_alloc w.heap, rfl⟩⟩⟩

theorem AFN02Ack_Data_fits (_what : PkgAfnDataTag) : (AFN02Ack_Data _what).m_nLen ≤ 1000 := by
  have h : (AFN02Ack_Data _what).m_nLen = 6 := rfl
  omega

theorem handlerMap_eq : handlerMap =
    [(0x02, ⟨some AFN02.handleRequest, none⟩), (0x0C, ⟨none, some AFN0C.handleAck⟩)] := rfl

theorem AFN02.ends_handleRequest (w : World) (p : PkgPtr) (rest : List PkgPtr) {d : PkgAfnData}
    (hd : p.pkg.pAfn.pAfnData = some d) :
    ∃ nRet ackLst w', Ends (AFN02.handleRequest (p :: rest) []) w (nRet, ackLst) w' ∧
      Replied w w' p.pkg ackLst ∧ (ackLst ≠ [] ↔ LinkCheck p.pkg ∧ p.pkg.pAfn.afnHeader.CON = 1) ∧
      (ackLst ≠ [] → nRet = YQER_OK) := by
  unfold AFN02.handleRequest
  by_cases hlink : LinkCheck p.pkg
  · have hlink' : p.pkg.userHeader.FUN = 9 ∧ p.pkg.pn = 0 ∧ (p.pkg.Fn = 1 ∨ p.pkg.Fn = 2 ∨ p.pkg.Fn = 3) := hlink
    simp only [hlink', and_self, if_true]
    by_cases hcon : p.pkg.pAfn.afnHeader.CON = 1
    · have hne : ¬ p.pkg.pAfn.afnHeader.CON ≠ 1 := fun h => h hcon
      simp only [hne, if_false, hd]
      obtain ⟨ack, w', hack, hr⟩ := ends_confirm w p (w.jzqList.reportLoginState w.tick p.pkg.userHeader.A1
        p.pkg.userHeader.A2 p.pkg.Fn (UInt8.ofNat p.pkg.pAfn.afnHeader.PRSEQ) true)
        (some (AFN02Ack_Data d.m_Tag)) (AFN02Ack_Data_fits d.m_Tag)
      refine ⟨YQER_OK, [ack], w', ?_, hr, ⟨fun _ => ⟨hlink, hcon⟩, fun _ => List.cons_ne_nil _ _⟩, fun _ => rfl⟩
      exact (ends_modify _ w).bind ((ends_liftAcc rfl _).bind (hack.bind (ends_pure _ _)))
    · simp only [ne_eq, hcon, not_false_eq_true, if_true]
      refine ⟨YQER_OK, [], _, (ends_modify _ w).bind (ends_pure _ _), replied_none w p.pkg _, ?_, fun _ => rfl⟩
      exact ⟨fun h => absurd rfl h, fun h => h.2.elim⟩
  · have hlink' : ¬ (p.pkg.userHeader.FUN = 9 ∧ p.pkg.pn = 0 ∧ (p.pkg.Fn = 1 ∨ p.pkg.Fn = 2 ∨ p.pkg.Fn = 3)) :=
      hlink
    simp only [hlink', if_false]
    refine ⟨-1, [], w, ends_pure _ _, replied_none w p.pkg w.jzqList, ?_, fun h => absurd rfl h⟩
    exact ⟨fun h => absurd rfl h, fun h => absurd h.1 hlink⟩

theorem AFN02.handleRequest_inv {w w' : World} {p : PkgPtr} {rest ackLst : List PkgPtr} {ret : Int}
    (h : Ends (AFN02.handleRequest (p :: rest) []) w (ret, ackLst) w') :
    (¬ LinkCheck p.pkg ∧ ackLst = [] ∧ w' = w) ∨
    (LinkCheck p.pkg ∧ ∃ v : World, v.jzqList = w.jzqList.reportLoginState w.tick p.pkg.userHeader.A1
        p.pkg.userHeader.A2 p.pkg.Fn (UInt8.ofNat p.pkg.pAfn.afnHeader.PRSEQ) true ∧ v.heap = w.heap ∧
      (ackLst = [] ∧ w' = v ∨
        ∃ data ack, ackLst = [ack] ∧ ret = YQER_OK ∧ Ends (createAck p data) v ack w')) := by
  unfold AFN02.handleRequest at h
  by_cases hlink : p.pkg.userHeader.FUN = 9 ∧ p.pkg.pn = 0 ∧ (p.pkg.Fn = 1 ∨ p.pkg.Fn = 2 ∨ p.pkg.Fn = 3)
  · simp only [hlink, and_self, if_true] at h
    obtain ⟨_, v, hreport, h⟩ := h.of_bind
    have hv : v.jzqList = w.jzqList.reportLoginState w.tick p.pkg.userHeader.A1 p.pkg.userHeader.A2 p.pkg.Fn
        (UInt8.ofNat p.pkg.pAfn.afnHeader.PRSEQ) true ∧ v.heap = w.heap := by
      cases hreport
      exact ⟨rfl, rfl⟩
    refine .inr ⟨hlink, v, hv.1, hv.2, ?_⟩
    by_cases hcon : p.pkg.pAfn.afnHeader.CON ≠ 1
    · rw [if_pos hcon] at h
      cases h
      exact .inl ⟨rfl, rfl⟩
    · rw [if_neg hcon] at h
      obtain ⟨d, v', hderef, h⟩ := h.of_bind
      obtain ⟨ack, v'', hack, h⟩ := h.of_bind
      rw [(liftAcc_inv hderef).2] at hack
      cases h
      exact .inr ⟨_, ack, rfl, rfl, hack⟩
  · simp only [hlink, if_false] at h
    cases h
    exact .inl ⟨hlink, rfl, rfl⟩

theorem ends_doHandleRequest (w : World) (p : PkgPtr) (rest : List PkgPtr) {d : PkgAfnData}
    (hd : p.pkg.pAfn.pAfnData = some d) :
    ∃ nRet ackLst w', Ends (AFNPackageBuilder.Instance.doHandleRequest p (p :: rest) []) w (nRet, ackLst) w' ∧
      Replied w w' p.pkg ackLst ∧ (ackLst ≠ [] ↔ Answers p.pkg) ∧ (ackLst ≠ [] → nRet = YQER_OK) := by
  simp only [PackageBuilder.doHandleRequest, AFNPackageBuilder.Instance, handlerMap_eq]
  by_cases hcode : 2 = p.pkg.getCode
  · simp only [hcode, if_true]
    obtain ⟨nRet, ackLst, w', h, hr, hiff, hok⟩ := AFN02.ends_handleRequest w p rest hd
    refine ⟨nRet, ackLst, w', h, hr, hiff.trans ⟨.inr, fun h => ?_⟩, hok⟩
    exact h.resolve_left fun hne => hne hcode.symm
  · simp only [hcode, if_false]
    obtain ⟨ack, w', hack, hr⟩ := ends_confirm w p w.jzqList none (by decide)
    refine ⟨YQER_OK, [ack], w', hack.bind (ends_pure _ _), hr, ?_, fun _ => rfl⟩
    exact ⟨fun _ => .inl (Ne.symm hcode), fun _ => List.cons_ne_nil _ _⟩

/-! ## Lists of packages -/

namespace ConnectionPower

/-- A list has been handled: it is logged, nothing is passed to a waiter, and no object from before is
deleted. -/
structure Served (w w' : World) (lst : List PkgPtr) : Prop where
  received : w'.received = w.received
  handled : w'.handled = w.handled ++ [lst]
  notified : w'.notified = w.notified
  live : ∀ a, w.heap.Live a → w'.heap.Live a

def logged (w : World) (lst : List PkgPtr) : World := { w with handled := w.handled ++ [lst] }

theorem ends_handleList_request (w : World) (p : PkgPtr) (rest : List PkgPtr) {d : PkgAfnData}
    (hd : p.pkg.pAfn.pAfnData = some d) (hreq : p.pkg.isRequest = true) :
    ∃ w', Ends (handleList (p :: rest)) w () w' ∧ Served w w' (p :: rest) ∧
      (Answers p.pkg → ∃ bs, w'.sent = w.sent ++ [bs] ∧ Confirms p.pkg bs) ∧
      (¬ Answers p.pkg → w'.sent = w.sent) := by
  obtain ⟨nRet, ackLst, w₁, hdo, hr, hiff, hok⟩ := ends_doHandleRequest (logged w (p :: rest)) p rest hd
  have hpkg : Ends (AFNPackageBuilder.Instance.handlePkg (p :: rest) []) w (nRet, ackLst) w₁ := by
    unfold PackageBuilder.handlePkg
    refine (ends_modify _ w).bind ?_
    simp only [hreq, if_true]
    exact hdo
  have hserved : Served w w₁ (p :: rest) := ⟨hr.received, hr.handled, hr.notified, hr.live⟩
  unfold handleList
  rcases hr.acks with rfl | ⟨v, d', hfit, hlive, rfl⟩
  · refine ⟨w₁, hpkg.bind ?_, hserved, fun ha => absurd rfl (hiff.mpr ha), fun _ => hr.sent⟩
    simp only [List.length_nil, Nat.lt_irrefl, and_false, if_false]
    exact ends_pure _ _
  · have hret : nRet = YQER_OK := hok (List.cons_ne_nil _ _)
    have hans : Answers p.pkg := hiff.mp (List.cons_ne_nil _ _)
    have hsend := ends_sendPkg v p.pkg hfit w.heap.next w₁
    obtain ⟨heap, hdel, hkeep, -⟩ := ends_delete (p := ⟨w.heap.next, closed (replyPkg v p.pkg d') d'⟩)
      (w := { w₁ with sent := w₁.sent ++ [replyBytes v p.pkg d'] }) hlive
    refine ⟨{ w₁ with sent := w₁.sent ++ [replyBytes v p.pkg d'], heap := heap }, hpkg.bind ?_,
      ⟨hserved.received, hserved.handled, hserved.notified, fun a ha => hkeep a (hr.live a ha) ha.ne_next⟩,
      fun _ => ⟨_, ?_, confirms_reply v p.pkg hfit⟩, fun hna => absurd hans hna⟩
    · simp only [hret, List.length_cons, List.length_nil, Nat.zero_add, Nat.lt_add_one, and_self, if_true]
      exact Ends.bind (hsend.bind (ends_pure _ _)) (Ends.bind (hdel.bind (ends_pure _ _)) (ends_pure _ _))
    · rw [hr.sent]; rfl

theorem ends_handleList_response (w : World) (p : PkgPtr) (rest : List PkgPtr) (hreq : p.pkg.isRequest = false) :
    Ends (handleList (p :: rest)) w () (logged w (p :: rest)) := by
  have hpkg : Ends (AFNPackageBuilder.Instance.handlePkg (p :: rest) []) w (YQER_OK, [])
      (logged w (p :: rest)) := by
    unfold PackageBuilder.handlePkg
    refine (ends_modify _ w).bind ?_
    simp only [hreq, Bool.false_eq_true, if_false]
    exact ends_pure _ _
  unfold handleList
  refine hpkg.bind ?_
  simp only [List.length_nil, Nat.lt_irrefl, and_false, if_false]
  exact ends_pure _ _

theorem ends_handleList (w : World) (p : PkgPtr) (rest : List PkgPtr) {d : PkgAfnData}
    (hd : p.pkg.pAfn.pAfnData = some d) :
    ∃ w', Ends (handleList (p :: rest)) w () w' ∧ Served w w' (p :: rest) := by
  cases hreq : p.pkg.isRequest with
  | true =>
    obtain ⟨w', h, hs, -⟩ := ends_handleList_request w p rest hd hreq
    exact ⟨w', h, hs⟩
  | false => exact ⟨_, ends_handleList_response w p rest hreq, ⟨rfl, rfl, rfl, fun _ => id⟩⟩

/-! ## Single frames -/

def Single (p : AFNPackage) : Prop := p.pAfn.afnHeader.FIN = 1 ∧ p.pAfn.afnHeader.FIR = 1

def addressed (self : ConnectionPower) (u : PkgUserHeader) : ConnectionPower :=
  if u.TAG = 0 then { self with m_jzq := (u.A1, u.A2) } else self

theorem m_pkgList_addressed (self : ConnectionPower) (u : PkgUserHeader) :
    (self.addressed u).m_pkgList = self.m_pkgList := by
  unfold addressed
  split
  · rfl
  · rfl

theorem m_jzq_receive {self con : ConnectionPower} {pkg : AFNPackage} {w w' : World} {ret : Int}
    (h : Ends (self.receive pkg) w (con, ret) w') : con.m_jzq = (self.addressed pkg.userHeader).m_jzq := by
  unfold receive handlePackage at h
  obtain ⟨p, w₁, hnew, h⟩ := h.of_bind
  cases hnew
  obtain ⟨u, w₂, -, h⟩ := h.of_bind
  have hsame : ∀ {m_pkgList : List PkgPtr} {w₃ : World},
      Ends (pure ({ self.addressed pkg.userHeader with m_pkgList := m_pkgList }, YQER_OK) :
        Srv (ConnectionPower × Int)) w₃ (con, ret) w' →
      con.m_jzq = (self.addressed pkg.userHeader).m_jzq := by
    intro m_pkgList w₃ h
    cases h
    rfl
  by_cases hsingle : pkg.pAfn.afnHeader.FIN = 1 ∧ pkg.pAfn.afnHeader.FIR = 1
  · rw [if_pos hsingle] at h
    obtain ⟨_, w₃, -, h⟩ := h.of_bind
    obtain ⟨_, w₄, -, h⟩ := h.of_bind
    exact hsame h
  rw [if_neg hsingle] at h
  by_cases hfirst : pkg.pAfn.afnHeader.FIN = 0 ∧ pkg.pAfn.afnHeader.FIR = 1
  · rw [if_pos hfirst] at h
    obtain ⟨_, w₃, -, h⟩ := h.of_bind
    obtain ⟨_, w₄, -, h⟩ := h.of_bind
    obtain ⟨_, w₅, -, h⟩ := h.of_bind
    obtain ⟨_, w₆, -, h⟩ := h.of_bind
    exact hsame h
  rw [if_neg hfirst] at h
  by_cases hlater : pkg.pAfn.afnHeader.FIR = 0
  · rw [if_pos hlater] at h
    by_cases hmiddle : pkg.pAfn.afnHeader.FIN = 0
    · rw [if_pos hmiddle] at h
      exact hsame h
    · rw [if_neg hmiddle] at h
      obtain ⟨_, w₃, -, h⟩ := h.of_bind
      obtain ⟨_, w₄, -, h⟩ := h.of_bind
      obtain ⟨_, w₅, -, h⟩ := h.of_bind
      exact hsame h
  · rw [if_neg hlater] at h
    exact hsame h

def ptr (w : World) (pkg : AFNPackage) : PkgPtr := ⟨w.heap.next, pkg⟩

def arrived (w : World) (pkg : AFNPackage) : World :=
  { w with heap := w.heap.alloc, received := w.received ++ [ptr w pkg] }

theorem ends_receive_single (self : ConnectionPower) {w w' : World} {pkg : AFNPackage} (hs : Single pkg)
    (hh : Ends (handleList [ptr w pkg]) (arrived w pkg) () w') (hserved : Served (arrived w pkg) w' [ptr w pkg]) :
    ∃ con heap, Ends (self.receive pkg) w (con, YQER_OK) { w' with heap := heap } ∧
      con.m_pkgList = self.m_pkgList ∧ ∀ a, w.heap.Live a → heap.Live a := by
  have hlive : w'.heap.Live (ptr w pkg).addr := hserved.live _ (Heap.live_alloc w.heap)
  obtain ⟨heap, hdel, hkeep, -⟩ := ends_delete hlive
  refine ⟨self.addressed pkg.userHeader, heap, ?_, m_pkgList_addressed self pkg.userHeader,
    fun a ha => hkeep a (hserved.live a ha.alloc) ha.ne_next⟩
  unfold receive handlePackage
  refine (ends_new pkg w).bind ((ends_modify _ _).bind ?_)
  have hs' : pkg.pAfn.afnHeader.FIN = 1 ∧ pkg.pAfn.afnHeader.FIR = 1 := hs
  simp only [hs', and_self, if_true]
  exact hh.bind (hdel.bind (ends_pure _ _))

/-! ## Replies to requests -/

/-- The package is received without a fault, and one confirmation is sent if its CON bit is 1, none if
it is 0. -/
def RepliesAsAsked (self : ConnectionPower) (w : World) (pkg : AFNPackage) : Prop :=
  ∃ con w', Ends (self.receive pkg) w (con, YQER_OK) w' ∧
    (pkg.pAfn.afnHeader.CON = 1 → ∃ bs, w'.sent = w.sent ++ [bs] ∧ Confirms pkg bs) ∧
    (pkg.pAfn.afnHeader.CON = 0 → w'.sent = w.sent)

theorem getCode_eq (pkg : AFNPackage) : pkg.getCode = 2 ↔ pkg.pAfn.afnHeader.AFN = 2 := by
  unfold getCode
  constructor
  · intro h
    refine UInt8.toNat_inj.mp (?_ : _ = 2)
    omega
  · intro h
    rw [h]
    rfl

theorem repliesAsAsked_iff_answers (self : ConnectionPower) (w : World) (p : RecPkg)
    (hreq : p.pkg.isRequest = true) (hs : Single p.pkg) :
    RepliesAsAsked self w p.pkg ↔ (p.pkg.pAfn.afnHeader.CON = 1 ↔ Answers p.pkg) := by
  obtain ⟨d, hd⟩ := p.unit
  obtain ⟨w', hh, hserved, hyes, hno⟩ := ends_handleList_request (arrived w p.pkg) (ptr w p.pkg) [] hd hreq
  obtain ⟨con, heap, hrec, -, -⟩ := ends_receive_single self hs hh hserved
  constructor
  · intro ⟨con', w'', hrec', hone, hzero⟩
    obtain ⟨-, rfl⟩ := hrec.inj hrec'
    constructor
    · intro h1
      refine Decidable.byContradiction fun hna => ?_
      obtain ⟨bs, hbs, -⟩ := hone h1
      have hsent : w'.sent = w.sent := hno hna
      simp only at hbs
      rw [hsent] at hbs
      exact absurd hbs (by simp)
    · intro ha
      refine Or.resolve_left (a := p.pkg.pAfn.afnHeader.CON = 0) (field_two ..) fun h0 => ?_
      obtain ⟨bs, hbs, -⟩ := hyes ha
      have hsent : w'.sent = w.sent := hzero h0
      rw [hsent] at hbs
      exact absurd hbs (by simp [arrived])
  · intro h
    refine ⟨con, _, hrec, fun h1 => hyes (h.mp h1), fun h0 => hno fun ha => ?_⟩
    rw [h.mpr ha] at h0
    cases h0

/-- **A request is replied to as it asks exactly when, being a link check (AFN 02), it asks for no
confirmation or is a login, logout or heartbeat, and otherwise asks for one.** -/
theorem repliesAsAsked_iff (self : ConnectionPower) (w : World) (p : RecPkg) (hreq : p.pkg.isRequest = true)
    (hs : Single p.pkg) :
    RepliesAsAsked self w p.pkg ↔
      if p.pkg.pAfn.afnHeader.AFN = 2 then p.pkg.pAfn.afnHeader.CON = 0 ∨ LinkCheck p.pkg
      else p.pkg.pAfn.afnHeader.CON = 1 := by
  have hcon : p.pkg.pAfn.afnHeader.CON = 0 ∨ p.pkg.pAfn.afnHeader.CON = 1 := field_two ..
  rw [repliesAsAsked_iff_answers self w p hreq hs, Answers, ne_eq, getCode_eq]
  by_cases hafn : p.pkg.pAfn.afnHeader.AFN = 2
  · simp only [hafn, not_true_eq_false, false_or, if_true]
    constructor
    · intro h
      exact hcon.imp id fun h1 => (h.mp h1).1
    · rintro (h0 | hl)
      · rw [h0]
        exact ⟨fun h => (nomatch h), fun h => nomatch h.2⟩
      · exact ⟨fun h1 => ⟨hl, h1⟩, fun h => h.2⟩
  · simp only [hafn, not_false_eq_true, true_or, if_false, iff_true]

def start : World := ⟨⟨[], 1⟩, 0, fun _ => none, zeros, Heap.empty, [], [], [], [], []⟩

def loginPkg : RecPkg := ⟨frameOf login, zeros, login, 20, by decide, rfl⟩

theorem repliesAsAsked_login :
    loginPkg.pkg.isRequest = true ∧ Single loginPkg.pkg ∧ LinkCheck loginPkg.pkg ∧
    RepliesAsAsked ⟨(0, 0), []⟩ start loginPkg.pkg := by
  have hreq : loginPkg.pkg.isRequest = true := by decide
  have hs : Single loginPkg.pkg := ⟨by decide, by decide⟩
  have hl : LinkCheck loginPkg.pkg := by decide
  refine ⟨hreq, hs, hl, (repliesAsAsked_iff _ _ loginPkg hreq hs).mpr ?_⟩
  rw [if_pos (by decide)]
  exact .inr hl

-- an event of a concentrator (AFN 0E) that asks for no confirmation
def event : Bytes :=
  [0x68, 0x32, 0, 0x32, 0, 0x68, 0xc4, 0, 0x10, 0x4d, 0x04, 0, 0x0e, 0x65, 0, 0, 0x01, 0, 0x99, 0x16]

def eventPkg : RecPkg := ⟨frameOf event, zeros, event, 20, by decide, rfl⟩

theorem event_confirmed :
    eventPkg.pkg.isRequest = true ∧ Single eventPkg.pkg ∧ eventPkg.pkg.pAfn.afnHeader.CON = 0 ∧
    ¬ RepliesAsAsked ⟨(0, 0), []⟩ start eventPkg.pkg := by
  have hreq : eventPkg.pkg.isRequest = true := by decide
  have hs : Single eventPkg.pkg := ⟨by decide, by decide⟩
  have h0 : eventPkg.pkg.pAfn.afnHeader.CON = 0 := by decide
  refine ⟨hreq, hs, h0, fun h => ?_⟩
  have hiff := (repliesAsAsked_iff_answers _ _ eventPkg hreq hs).mp h
  have h1 := hiff.mpr (by decide)
  rw [h0] at h1
  cases h1

/-! ## Responses to calls -/

structure Response (p : AFNPackage) : Prop where
  response : p.isRequest = false
  single : Single p
  FUN : p.userHeader.FUN = 8
  AFN : p.pAfn.afnHeader.AFN = 0x0C
  Fn : p.Fn = 2 ∨ p.Fn = 11 ∨ p.Fn = 33

def Decodes (p : AFNPackage) (d : AckData) : Prop :=
  ∃ made ret, (AFN0C.handleAck p).out = .ok (some made) ∧ made.handleData.out = .ok (ret, d)

/-- The response is received without a fault, and its data unit is passed to `notify` with its key. -/
def Delivered (self : ConnectionPower) (w : World) (pkg : AFNPackage) : Prop :=
  ∃ con w' d, Ends (self.receive pkg) w (con, YQER_OK) w' ∧ Decodes pkg d ∧
    w'.notified = w.notified ++ [(callOf pkg, some ⟨d, []⟩)]

def saved (call : AppCall) (data : Option AckChain) : List (AppCall × AckData) :=
  match data with
  | some d => if call.AFN = 0x0C then [(call, d.head)] else []
  | none => []

/-- What `notify` does: a result is kept for those who wait for it, and saved in any case. -/
def heard (w : World) (call : AppCall) (data : Option AckChain) : World := { w with
  notified := w.notified ++ [(call, data)]
  cmdMap := if (w.cmdMap call).isSome then w.cmdMap.set call data else w.cmdMap
  stored := w.stored ++ saved call data }

theorem ends_saveResultToDB (call : AppCall) (data : Option AckChain) (w : World) :
    Ends (saveResultToDB call data) w () { w with stored := w.stored ++ saved call data } := by
  unfold saveResultToDB saved
  cases data with
  | none =>
    simp only [List.append_nil]
    exact ends_pure _ _
  | some d =>
    by_cases h : call.AFN = 0x0C
    · simp only [h, if_true]
      exact ends_modify _ w
    · simp only [h, if_false, List.append_nil]
      exact ends_pure _ _

theorem ends_notify (call : AppCall) (data : Option AckChain) (w : World) :
    Ends (notify call data) w 0 (heard w call data) := by
  have hlog := ends_modify (ε := Fault) (fun w : World => { w with notified := w.notified ++ [(call, data)] }) w
  unfold notify heard
  refine hlog.bind ((ends_get _).bind ?_)
  cases w.cmdMap call with
  | none =>
    simp only [Option.isSome_none, Bool.false_eq_true, if_false]
    exact (ends_saveResultToDB call data _).bind (ends_pure _ _)
  | some slot =>
    simp only [Option.isSome_some, if_true]
    exact (ends_modify _ _).bind ((ends_saveResultToDB call data _).bind (ends_pure _ _))

theorem ends_doHandleAck {p : PkgPtr} {d : AckData} (h : Response p.pkg) (hd : Decodes p.pkg d) (w : World) :
    ∃ w', Ends (AFNPackageBuilder.doHandleAck handlerMap [p]) w YQER_OK w' ∧
      w'.notified = w.notified ++ [(callOf p.pkg, some ⟨d, []⟩)] := by
  obtain ⟨made, ret, hmade, hret⟩ := hd
  have hcode : p.pkg.getCode = 12 := by unfold getCode; rw [h.AFN]; rfl
  have hdec : (decode handlerMap p.pkg none).out = .ok (some made) := by
    simp only [handlerMap_eq, decode, hcode, if_true]
    exact out_bind hmade _
  have hcol : (collect handlerMap [p] ⟨0, 0, 0, 0, 0⟩ none).out = .ok (callOf p.pkg, some ⟨d, []⟩) := by
    simp only [collect, h.FUN, if_true]
    rw [out_bind hdec]
    exact out_bind hret _
  refine ⟨heard w (callOf p.pkg) (some ⟨d, []⟩), ?_, rfl⟩
  unfold AFNPackageBuilder.doHandleAck
  simp only [List.length_cons, Nat.succ_ne_zero, if_false]
  exact (ends_liftAcc hcol w).bind ((ends_notify _ _ w).bind (ends_pure _ _))

/-- The call in `HandlePkg` is not of that function, and no waiter or data base hears of the response. -/
theorem ends_receive_response (self : ConnectionPower) (w : World) {pkg : AFNPackage}
    (hresp : pkg.isRequest = false) (hs : Single pkg) :
    ∃ con heap, Ends (self.receive pkg) w (con, YQER_OK)
      { logged (arrived w pkg) [ptr w pkg] with heap := heap } := by
  have hh := ends_handleList_response (arrived w pkg) (ptr w pkg) [] hresp
  obtain ⟨con, heap, h, -, -⟩ := ends_receive_single self hs hh ⟨rfl, rfl, rfl, fun _ => id⟩
  exact ⟨con, heap, h⟩

/-- **No response is delivered**, whatever the connection and the calls that wait. -/
theorem response_not_delivered (self : ConnectionPower) (w : World) (p : RecPkg) (h : Response p.pkg) :
    ¬ Delivered self w p.pkg := by
  obtain ⟨con, heap, hrec⟩ := ends_receive_response self w h.response h.single
  intro ⟨con', w', d, hrec', _, hn⟩
  obtain ⟨-, rfl⟩ := hrec.inj hrec'
  have hsame : w.notified = w.notified ++ [(callOf p.pkg, some ⟨d, []⟩)] := hn
  exact absurd hsame (by simp)

def clock : Bytes :=
  [0x68, 0x4a, 0, 0x4a, 0, 0x68, 0x88, 0, 0x10, 0x4d, 0x04, 0, 0x0c, 0x65, 0, 0, 0x02, 0,
    0x30, 0x15, 0x10, 0x01, 0x42, 0x16, 0x0a, 0x16]

def clockPkg : RecPkg := ⟨frameOf clock, zeros, clock, 26, by decide, rfl⟩

theorem response_clock : Response clockPkg.pkg :=
  ⟨by decide, ⟨by decide, by decide⟩, by decide, by decide, by decide⟩

theorem response_not_delivered_clock : Response clockPkg.pkg ∧ ¬ Delivered ⟨(0, 0), []⟩ start clockPkg.pkg :=
  ⟨response_clock, response_not_delivered _ _ clockPkg response_clock⟩

def waiting : World := { start with cmdMap := CmdMap.set (fun _ => none) (callOf clockPkg.pkg) none }

/-- The clock is decoded, but the thread that waits for it gets nothing. -/
theorem clock_undelivered :
    (∃ d, Decodes clockPkg.pkg (.clock d) ∧ d.dt = "2016-02-01 10:15:30") ∧
    (∃ con w', Ends (ConnectionPower.receive ⟨(0, 0), []⟩ clockPkg.pkg) waiting (con, YQER_OK) w' ∧
      w'.cmdMap (callOf clockPkg.pkg) = some none ∧ w'.notified = [] ∧ w'.stored = []) ∧
    ¬ Delivered ⟨(0, 0), []⟩ waiting clockPkg.pkg := by
  obtain ⟨con, heap, h⟩ := ends_receive_response ⟨(0, 0), []⟩ waiting response_clock.response response_clock.single
  refine ⟨⟨⟨unitOf clock, "2016-02-01 10:15:30"⟩, ⟨.clock (.construct (unitOf clock)), 6, rfl, rfl⟩, rfl⟩,
    ⟨con, _, h, CmdMap.set_self (fun _ => none) (callOf clockPkg.pkg) none, rfl, rfl⟩, ?_⟩
  · intro ⟨con', w', d, h', _, hn⟩
    obtain ⟨-, rfl⟩ := h.inj h'
    exact absurd hn (by simp [logged, arrived, waiting, start])

end ConnectionPower

end Afn
