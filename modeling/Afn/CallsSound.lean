import Afn.Calls
import Afn.CapacitySound
import Afn.KeptSound
import Afn.ReassemblySound

/-!
# Calls as the concentrator reads them

A call is written as one frame on the first connection at the address of the first record with its name. The
frame is accepted, and is read as a request with the function code of AFN 0C whichever class made it.
-/

namespace Afn

open Bytes Access Effect AFNPackage AFNPackageBuilder

/-! ## Bit fields of a byte -/

section
variable (x v : Nat) {p m p' m' : Nat}

theorem field_setField_below (h : p' * m' ∣ p) : field (setField x p m v) p' m' = field x p' m' := by
  have hmod : setField x p m v % p = x % p := by
    rw [setField, Nat.mul_assoc, Nat.add_mul_mod_self_left, Nat.add_mul_mod_self_left, Nat.mod_mod]
  rw [← field_mod _ h, hmod, field_mod _ h]

theorem field_set_self (hp : 0 < p) (h : p * m ∣ 256) :
    field (UInt8.ofNat (setField x p m v)).toNat p m = v % m := by
  rw [UInt8.toNat_ofNat', field_mod _ h, field_setField_self _ _ hp]

theorem field_set_above (hp : 0 < p) (hm : 0 < m) (h : p * m ∣ p') (h' : p' * m' ∣ 256) :
    field (UInt8.ofNat (setField x p m v)).toNat p' m' = field x p' m' := by
  rw [UInt8.toNat_ofNat', field_mod _ h', field_setField_above _ _ hp hm h]

theorem field_set_below (h : p' * m' ∣ p) (h' : p' * m' ∣ 256) :
    field (UInt8.ofNat (setField x p m v)).toNat p' m' = field x p' m' := by
  rw [UInt8.toNat_ofNat', field_mod _ h', field_setField_below _ _ h]

end

theorem byte_fields (x : UInt8) : x.toNat =
    field x.toNat 1 16 + 16 * field x.toNat 16 2 + 32 * field x.toNat 32 2 + 64 * field x.toNat 64 2 +
      128 * field x.toNat 128 2 := by
  have h := x.toNat_lt
  unfold field
  omega

/-! ## Headers of a request -/

section
variable (mem : AFNPackage) (m_jzq : UInt16 × UInt16) (afnData : PkgAfn) (PRSEQ : UInt8) {n : Nat}

theorem requestPkg_C (hn : n < 16) :
    (requestPkg mem m_jzq afnData PRSEQ n).userHeader.C = UInt8.ofNat (64 + n) := by
  have hC : (requestPkg mem m_jzq afnData PRSEQ n).userHeader.C =
      (((((mem.userHeader.setDIR 0).setPRM 1).setFCV 0).setFCB 0).setFUN n).C := rfl
  apply UInt8.toNat_inj.mp
  rw [hC, byte_fields]
  simp (disch := decide) only [PkgUserHeader.setDIR, PkgUserHeader.setPRM, PkgUserHeader.setFCV,
    PkgUserHeader.setFCB, PkgUserHeader.setFUN, PkgUserHeader.setC, field_set_self, field_set_above,
    field_set_below]
  rw [UInt8.toNat_ofNat']
  omega

theorem requestPkg_A3 : (requestPkg mem m_jzq afnData PRSEQ n).userHeader.A3 = 2 := by
  have hA3 : ∀ x : UInt8, x.toNat = field x.toNat 1 2 + 2 * field x.toNat 2 128 := by
    intro x
    have h := x.toNat_lt
    unfold field
    omega
  have h : (requestPkg mem m_jzq afnData PRSEQ n).userHeader.A3 =
      ((mem.userHeader.setTAG 0).setMSA Jzq.s_MSA.toNat).A3 := rfl
  apply UInt8.toNat_inj.mp
  rw [h, hA3]
  simp (disch := decide) only [PkgUserHeader.setTAG, PkgUserHeader.setMSA, PkgUserHeader.setA3, field_set_self,
    field_set_below]
  rfl

theorem requestPkg_userHeader (hn : n < 16) :
    (requestPkg mem m_jzq afnData PRSEQ n).userHeader = ⟨UInt8.ofNat (64 + n), m_jzq.1, m_jzq.2, 2⟩ := by
  rw [← requestPkg_C mem m_jzq afnData PRSEQ hn, ← requestPkg_A3 mem m_jzq afnData PRSEQ]
  rfl

end

theorem create_header (self : PkgAfn) (tag : PkgAfnDataTag) (pn Fn : UInt16) (v : Nat) :
    (AFN0C.create self tag pn Fn).afnHeader.setPRSEQ v = ⟨0x0C, UInt8.ofNat (0x70 + v % 16)⟩ := by
  have hSEQ : ((AFN0C.create self tag pn Fn).afnHeader.setPRSEQ v).SEQ =
      (((((self.afnHeader.setCON 1).setFIN 1).setFIR 1).setTPV 0).setPRSEQ v).SEQ := rfl
  have h : ((AFN0C.create self tag pn Fn).afnHeader.setPRSEQ v).SEQ = UInt8.ofNat (0x70 + v % 16) := by
    apply UInt8.toNat_inj.mp
    rw [hSEQ, byte_fields]
    simp (disch := decide) only [PkgAfnHeader.setCON, PkgAfnHeader.setFIN, PkgAfnHeader.setFIR, PkgAfnHeader.setTPV,
      PkgAfnHeader.setPRSEQ, PkgAfnHeader.setSEQ, field_set_self, field_set_above, field_set_below]
    rw [UInt8.toNat_ofNat']
    omega
  rw [← h]
  rfl

/-! ## The frame of a request -/

theorem parse_closed_of_sum (mem : AFNPackage) {p : AFNPackage} {d : PkgAfnData} (hd : p.pAfn.pAfnData = some d)
    (hlen : p.pAfn.getDataLen + 6 < 16384) (hsum : byteSum (auxBytes p.pAfn.pAux) = 0)
    (hm : p.pkgHeader.S1 = 0x68 ∧ p.pkgHeader.S2 = 0x68 ∧ p.pkgTail.E = 0x16) :
    ((construct mem).parseProto (encode (closed p d) d)).out =
      .ok (YQER_OK, (encode (closed p d) d).length, frameOf (encode (closed p d) d)) := by
  have hud := length_userData_closed hd hlen
  have hS : Summed (encode (closed p d) d) := by
    rw [summed_encode (closed p d) d hud, byteSum_closed, hsum, UInt8.add_zero]
  have hc : Checked (encode (closed p d) d) := ⟨whole_encode _ _ hud, (marked_closed hud).mpr hm, hS⟩
  have h12 : 12 ≤ lenAt (encode (closed p d) d) := by
    have hget := getDataLen_eq hd
    rw [lenAt_closed p d hlen]
    omega
  have hl : (encode (closed p d) d).length = lenAt (encode (closed p d) d) + 8 := by
    rw [length_encode, hud, lenAt_encode]
  rw [hl]
  exact (parse_ok mem hc h12).out

theorem requestData_sent {m_jzq : UInt16 × UInt16} {afnData : PkgAfn} {n : Nat} {w w' : World}
    {r : PkgPtr × Int × AppCall} {d : PkgAfnData} (h : Ends (requestData m_jzq afnData n) w r w')
    (hd : afnData.pAfnData = some d) (haux : PlainAux afnData.pAux) (hfit : afnData.getDataLen + 14 < BUF_SIZE) :
    r = (⟨w.heap.next, closed (madePkg w m_jzq afnData n) d⟩, 0, requestCall m_jzq afnData d) ∧
      w'.sent = w.sent ++ [encode (closed (madePkg w m_jzq afnData n) d) d] ∧ w'.mem = w.mem := by
  obtain ⟨w₀, hends⟩ := ends_requestData w m_jzq afnData n hd haux hfit
  refine ⟨(h.inj hends).1, ?_⟩
  have hunit : (madePkg w m_jzq afnData n).pAfn.pAfnData = some d := hd
  have hsend := ends_sendPkg_closed hunit haux hfit w.heap.next (madeWorld w m_jzq)
  unfold requestData at h
  obtain ⟨snd, w₁, hmake, h⟩ := h.of_bind
  obtain ⟨rfl, rfl⟩ := (ends_makeRequest w m_jzq afnData n hd).inj hmake
  obtain ⟨ret, w₂, hsnd, h⟩ := h.of_bind
  obtain ⟨rfl, rfl⟩ := hsend.inj hsnd
  obtain ⟨d', w₃, hderef, h⟩ := h.of_bind
  rw [(liftAcc_inv hderef).2] at h
  obtain ⟨_, w₄, hdel, h⟩ := h.of_bind
  obtain ⟨heap, -, rfl⟩ := delete_inv hdel
  cases h
  exact ⟨rfl, rfl⟩

theorem parse_made (w : World) (m_jzq : UInt16 × UInt16) {afnData : PkgAfn} {n : Nat} {d : PkgAfnData}
    (hd : afnData.pAfnData = some d) (hlen : afnData.getDataLen + 6 < 16384)
    (hsum : byteSum (auxBytes afnData.pAux) = 0) (hn : n < 16) (mem : AFNPackage) :
    ∃ q, ((construct mem).parseProto (encode (closed (madePkg w m_jzq afnData n) d) d)).out =
        .ok (YQER_OK, (encode (closed (madePkg w m_jzq afnData n) d) d).length, q) ∧
      q.userHeader = ⟨UInt8.ofNat (64 + n), m_jzq.1, m_jzq.2, 2⟩ ∧
      q.pAfn = ⟨afnData.afnHeader.setPRSEQ (w.jzqList.getPSEQ m_jzq.1 m_jzq.2 true).1.toNat,
        some ⟨d.m_Tag, d.m_pData ++ auxBytes afnData.pAux⟩, none⟩ ∧
      q.pn = getpn d.m_Tag.DA1 d.m_Tag.DA2 ∧ q.Fn = getFn d.m_Tag.DT1 d.m_Tag.DT2 := by
  have hunit : (madePkg w m_jzq afnData n).pAfn.pAfnData = some d := hd
  have hud := length_userData_closed hunit hlen
  obtain ⟨hu, ha⟩ := frameOf_encode _ _ hud
  have htag := encode_unit _ d hud
  refine ⟨_, parse_closed_of_sum mem hunit hlen hsum ⟨rfl, rfl, rfl⟩, ?_, ha, ?_, ?_⟩
  · rw [hu]
    exact requestPkg_userHeader w.mem m_jzq afnData (w.jzqList.getPSEQ m_jzq.1 m_jzq.2 true).1 hn
  · simp only [frameOf, htag]
  · simp only [frameOf, htag]

/-! ## The lock of the connection list -/

theorem clearRecPkgList_inv {con con' : ConnectionPower} {w w' : World} (h : Ends con.clearRecPkgList w con' w') :
    con' = { con with m_pkgList := [] } ∧ ∃ heap, w' = { w with heap := heap } := by
  have hclear : ∀ (lst l : List PkgPtr) (w w' : World), Ends (clearPkgList lst) w l w' →
      l = [] ∧ ∃ heap, w' = { w with heap := heap } := by
    intro lst
    induction lst with
    | nil =>
      intro l w w' h
      cases h
      exact ⟨rfl, w.heap, rfl⟩
    | cons p lst ih =>
      intro l w w' h
      obtain ⟨_, w₁, hdel, hrest⟩ := h.of_bind
      obtain ⟨heap, -, rfl⟩ := delete_inv hdel
      obtain ⟨hnil, heap', rfl⟩ := ih l _ w' hrest
      exact ⟨hnil, heap', rfl⟩
  obtain ⟨l, w₁, hc, h⟩ := h.of_bind
  cases h
  obtain ⟨rfl, hw⟩ := hclear _ _ _ _ hc
  exact ⟨rfl, hw⟩

namespace Hub

/-- The list and the world after `body` on the connection `c`, whose kept frames are cleared first. -/
structure Locked {α : Type} (s : Hub) (body : UInt16 × UInt16 → Srv α) (c : Connection) (a : α) (s' : Hub) : Prop where
  world : ∃ heap, Ends (body c.con.m_jzq) { s.world with heap := heap } a s'.world
  list : s'.list = update c.bev (fun k => { k with con := ⟨c.con.m_jzq, []⟩ }) s.list
  now : s'.now = s.now

theorem lockConnection_inv {α : Type} {s s' : Hub} {name : String} {body : UInt16 × UInt16 → Srv α}
    {r : Option (Connection × α)} (h : s.lockConnection name body = some (s', r)) :
    s.getJzqConnectionNamed name = none ∧ s' = s ∧ r = none ∨
      ∃ c a, s.getJzqConnectionNamed name = some c ∧ r = some (c, a) ∧ Locked s body c a s' := by
  unfold lockConnection at h
  cases hc : s.getJzqConnectionNamed name with
  | none =>
    simp only [hc] at h
    cases h
    exact .inl ⟨rfl, rfl, rfl⟩
  | some c =>
    simp only [hc] at h
    split at h
    next con a w hends =>
      cases h
      obtain ⟨con', w₁, hclear, hbody⟩ := Ends.of_bind hends
      obtain ⟨rfl, heap, rfl⟩ := clearRecPkgList_inv hclear
      obtain ⟨a', w₂, hbody, hret⟩ := hbody.of_bind
      cases hret
      exact .inr ⟨c, a, rfl, rfl, ⟨heap, hbody⟩, rfl, rfl⟩
    next => cases h

end Hub

/-! ## Calls -/

namespace Api

def FUN : Api → Nat
  | setpointparams _ => 11
  | _ => 10

def pn : Api → UInt16
  | setpointparams pn => pn
  | getallkwh pn => pn
  | _ => 0

def Fn : Api → UInt16
  | setpointparams _ => 25
  | setpointstatus => 150
  | getclock => 2
  | getstatus => 11
  | getallkwh _ => 33

def data : Api → Bytes
  | setpointstatus => List.replicate 512 0
  | _ => []

def afnData (self : PkgAfn) (tag : PkgAfnDataTag) (a : Api) : PkgAfn :=
  let p := AFN0C.create self tag a.pn a.Fn
  { p with pAfnData := p.pAfnData.map fun d => { d with m_pData := a.data } }

theorem call_eq (s : Hub) (tag : PkgAfnDataTag) (name : String) (a : Api) :
    a.call s tag name = s.request name (a.afnData s.world.mem.pAfn tag) a.FUN := by
  cases a with
  | setpointparams pn => rfl
  | setpointstatus => rfl
  | getclock => rfl
  | getstatus => rfl
  | getallkwh pn => rfl

theorem FUN_lt (a : Api) : a.FUN < 16 := by cases a <;> simp [FUN]

theorem data_length (a : Api) : a.data.length ≤ 512 := by
  cases a with
  | setpointstatus => exact Nat.le_of_eq List.length_replicate
  | _ => exact Nat.zero_le _

theorem Fn_range (a : Api) : 1 ≤ a.Fn.toNat ∧ a.Fn.toNat ≤ 248 := by cases a <;> simp [Fn]

end Api

theorem plainAux_create (self : PkgAfn) (tag : PkgAfnDataTag) (pn Fn : UInt16) :
    PlainAux (AFN0C.create self tag pn Fn).pAux := by
  intro aux haux
  cases haux
  rfl

theorem create_fits (self : PkgAfn) (tag : PkgAfnDataTag) (a : Api) :
    (a.afnData self tag).getDataLen + 14 < BUF_SIZE := by
  have hget : (a.afnData self tag).getDataLen = 2 + (4 + a.data.length) + 16 := rfl
  have hdata := a.data_length
  rw [hget, BUF_SIZE]
  omega

/-- The frame is accepted whatever memory it is parsed in, and is the request of the call `a` to the address
`m_jzq` with the number `PRSEQ`. -/
def ReadsBack (a : Api) (m_jzq : UInt16 × UInt16) (PRSEQ : Nat) (bs : Bytes) : Prop :=
  ∀ mem, ∃ q, ((construct mem).parseProto bs).out = .ok (YQER_OK, bs.length, q) ∧ q.isRequest = true ∧
    q.userHeader = ⟨UInt8.ofNat (64 + a.FUN), m_jzq.1, m_jzq.2, 2⟩ ∧
    q.pAfn.afnHeader = ⟨0x0C, UInt8.ofNat (0x70 + PRSEQ)⟩ ∧ q.pn = a.pn ∧ q.Fn = a.Fn ∧
    q.pAfn.pAfnData.map (·.m_pData) = some (a.data ++ List.replicate 16 0)

section
variable (w : World) (m_jzq : UInt16 × UInt16) (tag : PkgAfnDataTag) {a : Api} (hpn : a.pn.toNat ≤ 2041)
include hpn

theorem afnData_unit (self : PkgAfn) : (a.afnData self tag).pAfnData = some ⟨requestTag a.pn a.Fn, a.data⟩ := by
  have h := create_unit ⟨hpn, a.Fn_range⟩ self tag
  simp only [Api.afnData, h, Option.map_some]

theorem afnData_getDataLen (self : PkgAfn) : (a.afnData self tag).getDataLen = a.data.length + 22 := by
  rw [getDataLen_eq (afnData_unit tag hpn self)]
  rfl

theorem readsBack_made : ReadsBack a m_jzq ((w.jzqList.getPSEQ m_jzq.1 m_jzq.2 true).1.toNat % 16)
    (encode (closed (madePkg w m_jzq (a.afnData w.mem.pAfn tag) a.FUN) ⟨requestTag a.pn a.Fn, a.data⟩)
      ⟨requestTag a.pn a.Fn, a.data⟩) := by
  intro mem
  have hget := afnData_getDataLen tag hpn w.mem.pAfn
  have hdata := a.data_length
  have hsum : byteSum (auxBytes (a.afnData w.mem.pAfn tag).pAux) = 0 := rfl
  obtain ⟨q, hq, hu, hp, hpn', hFn⟩ := parse_made w m_jzq (afnData_unit tag hpn w.mem.pAfn) (by omega) hsum a.FUN_lt mem
  have hPRM : q.userHeader.PRM = 1 := by
    rw [hu]
    have hlt := a.FUN_lt
    simp only [PkgUserHeader.PRM, field, UInt8.toNat_ofNat']
    omega
  refine ⟨q, hq, beq_iff_eq.mpr hPRM, hu, ?_, ?_, ?_, ?_⟩
  · rw [hp]
    exact create_header w.mem.pAfn tag a.pn a.Fn _
  · rw [hpn', getpn_requestTag ⟨hpn, a.Fn_range⟩]
  · rw [hFn, getFn_requestTag ⟨hpn, a.Fn_range⟩]
  · rw [hp]
    rfl

/-- Nothing has been written for want of a connection. Or the frames kept on the one connection are dropped, and one
frame is written that reads back as the call, to the address of the connection and with its next number; the key to
wait for is that of the frame. -/
def Written (s s' : Hub) (name : String) (a : Api) (ret : Int) (key : Option AppCall) : Prop :=
  s.getJzqConnectionNamed name = none ∧ s' = s ∧ ret = YQER_JZQ_NOTOK ∧ key = none ∨
    ∃ c bs, s.getJzqConnectionNamed name = some c ∧ ret = YQER_OK ∧
      s'.list = Hub.update c.bev (fun k => { k with con := ⟨c.con.m_jzq, []⟩ }) s.list ∧
      s'.world.sent = s.world.sent ++ [bs] ∧
      ReadsBack a c.con.m_jzq ((s.world.jzqList.getPSEQ c.con.m_jzq.1 c.con.m_jzq.2 true).1.toNat % 16) bs ∧
      key = some ⟨c.con.m_jzq.1, c.con.m_jzq.2, 0x0C, a.Fn, a.pn⟩

theorem written_of_call {s s' : Hub} {name : String} {ret : Int} {key : Option AppCall}
    (h : a.call s tag name = some (s', ret, key)) : Written s s' name a ret key := by
  rw [Api.call_eq, Hub.request] at h
  obtain ⟨⟨s₁, r⟩, hlock, hr⟩ := Option.map_eq_some_iff.mp h
  rcases Hub.lockConnection_inv hlock with ⟨hnone, rfl, rfl⟩ | ⟨c, ⟨snd, ret', call⟩, hc, rfl, hl⟩
  · cases hr
    exact .inl ⟨hnone, rfl, rfl, rfl⟩
  · cases hr
    obtain ⟨heap, hbody⟩ := hl.world
    obtain ⟨hres, hsent, -⟩ := requestData_sent hbody (afnData_unit tag hpn _)
      (plainAux_create s.world.mem.pAfn tag a.pn a.Fn) (create_fits s.world.mem.pAfn tag a)
    cases hres
    refine .inr ⟨c, _, hc, rfl, hl.list, hsent, readsBack_made { s.world with heap := heap } c.con.m_jzq tag hpn, ?_⟩
    simp only [requestCall, getpn_requestTag ⟨hpn, a.Fn_range⟩, getFn_requestTag ⟨hpn, a.Fn_range⟩]
    rfl

end

end Afn
