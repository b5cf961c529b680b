import Afn.ServerSound

/-!
# Which responses are matched with a request

A request and a response are compared by the numbers read back from their tags. Reading looks at the lowest
bit only and takes a missing one for bit 0, so different tags have the same numbers; and a request for a
number that has no tag carries what memory held.
-/

namespace Afn

open Bytes Access Effect AFNPackage AFNPackageBuilder

/-! ## The lowest bit -/

theorem mod_two_pow_eq_zero (x : Nat) : ∀ {n : Nat}, x % 2 ^ n = 0 ↔ ∀ j < n, x / 2 ^ j % 2 = 0 := by
  intro n
  induction n with
  | zero => simp [Nat.mod_one]
  | succ n ih =>
    have hpos : 0 < 2 ^ n := Nat.two_pow_pos n
    rw [Nat.mod_pow_succ, Nat.add_eq_zero_iff, ih, Nat.mul_eq_zero]
    constructor
    · rintro ⟨hlow, hn⟩ j hj
      rcases Nat.lt_succ_iff_lt_or_eq.mp hj with hj | rfl
      · exact hlow j hj
      · exact hn.resolve_left (Nat.ne_of_gt hpos)
    · intro h
      exact ⟨fun j hj => h j (Nat.lt_succ_of_lt hj), .inr (h n (Nat.lt_succ_self n))⟩

def LowestBit (x : UInt8) (k : Nat) : Prop := x.toNat % 2 ^ (k + 1) = 2 ^ k

instance (x : UInt8) (k : Nat) : Decidable (LowestBit x k) := inferInstanceAs (Decidable (_ = _))

theorem lowestBit_iff (x : UInt8) (k : Nat) :
    LowestBit x k ↔ x.toNat % 2 ^ k = 0 ∧ x.toNat / 2 ^ k % 2 = 1 := by
  have hlt : x.toNat % 2 ^ k < 2 ^ k := Nat.mod_lt _ (Nat.two_pow_pos k)
  have hpos : 0 < 2 ^ k := Nat.two_pow_pos k
  unfold LowestBit
  rw [Nat.mod_pow_succ]
  rcases Nat.mod_two_eq_zero_or_one (x.toNat / 2 ^ k) with h | h
  · rw [h]
    constructor
    · intro heq
      omega
    · exact fun h' => absurd h'.2 (by decide)
  · rw [h, Nat.mul_one]
    constructor
    · exact fun heq => ⟨Nat.add_eq_right.mp heq, rfl⟩
    · rintro ⟨hlow, -⟩
      rw [hlow, Nat.zero_add]

theorem lowBit_eq_iff (x : UInt8) {k : Nat} (hk : k < 8) : lowBit x = k + 1 ↔ LowestBit x k := by
  have hfind : ((List.range 8).find? fun n => x.toNat / 2 ^ n % 2 == 1) = some k ↔ LowestBit x k := by
    rw [List.find?_range_eq_some, lowestBit_iff, mod_two_pow_eq_zero]
    simp only [beq_iff_eq, List.mem_range, Bool.not_eq_true', beq_eq_false_iff_ne, ne_eq, Nat.mod_two_not_eq_one]
    exact ⟨fun h => ⟨h.2.2, h.1⟩, fun h => ⟨h.2, hk, h.1⟩⟩
  rw [← hfind]
  unfold lowBit
  split
  next n hn => rw [hn, Nat.add_right_cancel_iff, Option.some.injEq]
  next hn =>
    rw [hn]
    exact ⟨fun h => (nomatch h), fun h => nomatch h⟩

theorem lowBit_eq_zero_iff (x : UInt8) : lowBit x = 0 ↔ x = 0 := by
  have hlt : x.toNat < 2 ^ 8 := x.toNat_lt
  have hfind : ((List.range 8).find? fun n => x.toNat / 2 ^ n % 2 == 1) = none ↔ x = 0 := by
    have hzero : x = 0 ↔ x.toNat % 2 ^ 8 = 0 := by
      rw [Nat.mod_eq_of_lt hlt, ← UInt8.toNat_inj, UInt8.toNat_zero]
    rw [List.find?_range_eq_none, hzero, mod_two_pow_eq_zero]
    simp only [Bool.not_eq_true', beq_eq_false_iff_ne, ne_eq, Nat.mod_two_not_eq_one]
  rw [← hfind]
  unfold lowBit
  split
  next n hn =>
    rw [hn]
    exact ⟨fun h => (nomatch h), fun h => nomatch h⟩
  next hn => simp only [hn]

theorem lowBit_le (x : UInt8) : lowBit x ≤ 8 := by
  unfold lowBit
  split
  next n hn =>
    have hmem : n ∈ List.range 8 := List.mem_of_find?_eq_some hn
    exact List.mem_range.mp hmem
  next => exact Nat.zero_le 8

/-! ## Numbers read from tags -/

def NamesPoint (n : Nat) (DA1 DA2 : UInt8) : Prop :=
  n = 0 ∧ (DA1 = 0 ∧ DA2 ≤ 1 ∨ DA1 = 0x80 ∧ DA2 = 0) ∨
    n = 2041 ∧ DA1 = 0xff ∧ DA2 = 0 ∨
    0 < n ∧ n < 2041 ∧
      (LowestBit DA1 ((n - 1) % 8) ∧ DA2.toNat = (n - 1) / 8 + 1 ∨ n % 8 = 0 ∧ DA1 = 0 ∧ DA2.toNat = n / 8 + 1)

def NamesType (n : Nat) (DT1 DT2 : UInt8) : Prop :=
  LowestBit DT1 ((n - 1) % 8) ∧ DT2.toNat = (n - 1) / 8 ∨ n % 8 = 0 ∧ n ≤ 240 ∧ DT1 = 0 ∧ DT2.toNat = n / 8

theorem getFn_eq_iff {Fn : UInt16} (h₁ : 1 ≤ Fn.toNat) (h₂ : Fn.toNat ≤ 248) (DT1 DT2 : UInt8) :
    getFn DT1 DT2 = Fn ↔ NamesType Fn.toNat DT1 DT2 := by
  have hle := lowBit_le DT1
  have hbit := lowBit_eq_iff DT1 (k := (Fn.toNat - 1) % 8) (Nat.mod_lt _ (by decide))
  unfold NamesType
  rw [← hbit, ← lowBit_eq_zero_iff, ← UInt16.toNat_inj]
  unfold getFn
  by_cases h30 : DT2.toNat ≤ 30
  · rw [if_pos h30, UInt16.toNat_ofNat']
    omega
  · rw [if_neg h30, UInt16.toNat_zero]
    omega

theorem lowBit_eq_eight_iff (x : UInt8) : lowBit x = 8 ↔ x = 0x80 := by
  have hlt : x.toNat < 2 ^ 8 := x.toNat_lt
  rw [lowBit_eq_iff x (show 7 < 8 by decide), LowestBit, Nat.mod_eq_of_lt hlt, ← UInt8.toNat_inj]
  exact Iff.rfl

theorem getpn_eq_iff {pn : UInt16} (h : pn.toNat ≤ 2041) (DA1 DA2 : UInt8) :
    getpn DA1 DA2 = pn ↔ NamesPoint pn.toNat DA1 DA2 := by
  have hle := lowBit_le DA1
  have hlt := DA2.toNat_lt
  have hall : DA1 = 0xff ↔ DA1.toNat = 255 := UInt8.toNat_inj.symm
  have hone : DA1.toNat = 255 → lowBit DA1 = 1 := by
    rw [← hall]
    rintro rfl
    decide
  have hbit := lowBit_eq_iff DA1 (k := (pn.toNat - 1) % 8) (Nat.mod_lt _ (by decide))
  have h0 : DA2 = 0 ↔ DA2.toNat = 0 := UInt8.toNat_inj.symm
  have h1 : DA2 ≤ 1 ↔ DA2.toNat ≤ 1 := UInt8.le_iff_toNat_le
  unfold NamesPoint getpn
  rw [← hbit, ← lowBit_eq_eight_iff, ← UInt16.toNat_inj, h1]
  by_cases hterminal : DA1 = 0 ∧ DA2 = 0
  · rw [if_pos hterminal, UInt16.toNat_zero]
    rw [← lowBit_eq_zero_iff, h0] at hterminal ⊢
    rw [hall]
    omega
  rw [if_neg hterminal]
  by_cases hpoints : DA1 = 0xff ∧ DA2 = 0
  · have h2041 : (2041 : UInt16).toNat = 2041 := rfl
    rw [if_pos hpoints, h2041]
    rw [← lowBit_eq_zero_iff, h0] at hterminal ⊢
    rw [hall, h0] at hpoints
    rw [hall]
    omega
  · rw [if_neg hpoints, UInt16.toNat_ofNat']
    rw [← lowBit_eq_zero_iff, h0] at hterminal ⊢
    rw [hall, h0] at hpoints
    rw [hall]
    constructor
    · intro hpn
      by_cases h2 : DA2.toNat = 0
      · have hlow : lowBit DA1 = 8 := by omega
        exact .inl ⟨by omega, .inr ⟨hlow, h2⟩⟩
      · have hval : pn.toNat = (DA2.toNat - 1) * 8 + lowBit DA1 := by omega
        by_cases hlow : lowBit DA1 = 0
        · by_cases hpn0 : pn.toNat = 0
          · exact .inl ⟨hpn0, .inl ⟨hlow, by omega⟩⟩
          · exact .inr (.inr ⟨by omega, by omega, .inr ⟨by omega, hlow, by omega⟩⟩)
        · exact .inr (.inr ⟨by omega, by omega, .inl ⟨by omega, by omega⟩⟩)
    · rintro (⟨hn, hlow⟩ | ⟨-, hpn⟩ | ⟨hn, hn', hlow | hlow⟩)
      · omega
      · exact absurd hpn hpoints
      · omega
      · omega

/-! ## The tag of a request -/

-- the tag that `Create` makes in zeroed memory
def requestTag (pn Fn : UInt16) : PkgAfnDataTag :=
  ⟨(getDA pn 0 0).1, (getDA pn 0 0).2, (getDT Fn 0 0).1, (getDT Fn 0 0).2⟩

def PointTag (n : Nat) (DA1 DA2 : UInt8) : Prop :=
  n = 0 ∧ DA1 = 0 ∧ DA2 = 0 ∨ n = 2041 ∧ DA1 = 0xff ∧ DA2 = 0 ∨
    0 < n ∧ n < 2041 ∧ DA1.toNat = 2 ^ ((n - 1) % 8) ∧ DA2.toNat = (n - 1) / 8 + 1

def TypeTag (n : Nat) (DT1 DT2 : UInt8) : Prop := DT1.toNat = 2 ^ ((n - 1) % 8) ∧ DT2.toNat = (n - 1) / 8

/-- Whatever memory held, the tag is the same. -/
def Determined (pn Fn : UInt16) : Prop :=
  ∀ self self' tag tag', (AFN0C.create self tag pn Fn).pAfnData = (AFN0C.create self' tag' pn Fn).pAfnData

theorem lowestBit_two_pow {k : Nat} (hk : k < 8) : LowestBit (UInt8.ofNat (2 ^ k)) k := by
  have hlt : 2 ^ k < 2 ^ 8 := Nat.pow_lt_pow_right (by decide) hk
  unfold LowestBit
  rw [UInt8.toNat_ofNat', Nat.mod_eq_of_lt hlt]
  exact Nat.mod_eq_of_lt (Nat.pow_lt_pow_right (by decide) (Nat.lt_succ_self k))

section
variable {pn Fn : UInt16}

theorem getDA_eq (h : pn.toNat ≤ 2041) (DA1 DA2 : UInt8) : getDA pn DA1 DA2 = getDA pn 0 0 := by
  unfold getDA
  by_cases h0 : pn.toNat = 0
  · simp only [h0, if_true]
  by_cases h1 : pn.toNat = 2041
  · simp only [h1, if_true]
  · have hle : pn.toNat ≤ 2040 := by omega
    simp only [h0, h1, hle, if_true, if_false]

theorem getDA_kept (h : ¬ pn.toNat ≤ 2041) (DA1 DA2 : UInt8) : getDA pn DA1 DA2 = (DA1, DA2) := by
  have h0 : ¬ pn.toNat = 0 := by omega
  have h1 : ¬ pn.toNat = 2041 := by omega
  have hle : ¬ pn.toNat ≤ 2040 := by omega
  simp only [getDA, h0, h1, hle, if_false]

theorem getDT_eq (h : 1 ≤ Fn.toNat ∧ Fn.toNat ≤ 248) (DT1 DT2 : UInt8) : getDT Fn DT1 DT2 = getDT Fn 0 0 := by
  have hin : Fn.toNat ≤ 248 ∧ 0 < Fn.toNat := ⟨h.2, h.1⟩
  simp only [getDT, hin, and_self, if_true]

theorem getDT_kept (h : ¬ (1 ≤ Fn.toNat ∧ Fn.toNat ≤ 248)) (DT1 DT2 : UInt8) : getDT Fn DT1 DT2 = (DT1, DT2) := by
  have hout : ¬ (Fn.toNat ≤ 248 ∧ 0 < Fn.toNat) := fun hin => h ⟨hin.2, hin.1⟩
  simp only [getDT, hout, if_false]

theorem namesPoint_getDA (h : pn.toNat ≤ 2041) : NamesPoint pn.toNat (getDA pn 0 0).1 (getDA pn 0 0).2 := by
  unfold NamesPoint getDA
  by_cases h0 : pn.toNat = 0
  · simp only [h0, if_true]
    exact .inl ⟨trivial, .inl ⟨trivial, by decide⟩⟩
  by_cases h1 : pn.toNat = 2041
  · simp only [h1]
    exact .inr (.inl ⟨trivial, rfl, rfl⟩)
  · have hle : pn.toNat ≤ 2040 := by omega
    have hgroup : (UInt8.ofNat ((pn.toNat - 1) / 8 + 1)).toNat = (pn.toNat - 1) / 8 + 1 := by
      rw [UInt8.toNat_ofNat']
      omega
    simp only [h0, h1, hle, if_true, if_false]
    exact .inr (.inr ⟨by omega, by omega, .inl ⟨lowestBit_two_pow (Nat.mod_lt _ (by decide)), hgroup⟩⟩)

theorem namesType_getDT (h : 1 ≤ Fn.toNat ∧ Fn.toNat ≤ 248) :
    NamesType Fn.toNat (getDT Fn 0 0).1 (getDT Fn 0 0).2 := by
  have hin : Fn.toNat ≤ 248 ∧ 0 < Fn.toNat := ⟨h.2, h.1⟩
  have hgroup : (UInt8.ofNat ((Fn.toNat - 1) / 8)).toNat = (Fn.toNat - 1) / 8 := by
    rw [UInt8.toNat_ofNat']
    omega
  unfold NamesType getDT
  simp only [hin, and_self, if_true]
  exact .inl ⟨lowestBit_two_pow (Nat.mod_lt _ (by decide)), hgroup⟩

theorem pointTag_iff (h : pn.toNat ≤ 2041) (DA1 DA2 : UInt8) :
    PointTag pn.toNat DA1 DA2 ↔ DA1 = (getDA pn 0 0).1 ∧ DA2 = (getDA pn 0 0).2 := by
  unfold PointTag getDA
  by_cases h0 : pn.toNat = 0
  · simp [h0]
  by_cases h1 : pn.toNat = 2041
  · simp [h1]
  · have hlt : pn.toNat < 2041 := by omega
    have hle : pn.toNat ≤ 2040 := by omega
    have hgroup : (pn.toNat - 1) / 8 + 1 < 2 ^ 8 := by omega
    have hpow : 2 ^ ((pn.toNat - 1) % 8) < 2 ^ 8 := Nat.pow_lt_pow_right (by decide) (Nat.mod_lt _ (by decide))
    simp only [h0, h1, hlt, hle, Nat.pos_of_ne_zero h0, if_true, if_false, false_and, false_or, true_and]
    rw [← UInt8.toNat_inj, ← UInt8.toNat_inj, UInt8.toNat_ofNat', UInt8.toNat_ofNat', Nat.mod_eq_of_lt hpow,
      Nat.mod_eq_of_lt hgroup]

theorem typeTag_iff (h : 1 ≤ Fn.toNat ∧ Fn.toNat ≤ 248) (DT1 DT2 : UInt8) :
    TypeTag Fn.toNat DT1 DT2 ↔ DT1 = (getDT Fn 0 0).1 ∧ DT2 = (getDT Fn 0 0).2 := by
  have hin : Fn.toNat ≤ 248 ∧ 0 < Fn.toNat := ⟨h.2, h.1⟩
  have hgroup : (Fn.toNat - 1) / 8 < 2 ^ 8 := by omega
  have hpow : 2 ^ ((Fn.toNat - 1) % 8) < 2 ^ 8 := Nat.pow_lt_pow_right (by decide) (Nat.mod_lt _ (by decide))
  unfold TypeTag getDT
  simp only [hin, and_self, if_true]
  rw [← UInt8.toNat_inj, ← UInt8.toNat_inj, UInt8.toNat_ofNat', UInt8.toNat_ofNat', Nat.mod_eq_of_lt hpow,
    Nat.mod_eq_of_lt hgroup]

theorem eq_requestTag_iff (h : pn.toNat ≤ 2041 ∧ 1 ≤ Fn.toNat ∧ Fn.toNat ≤ 248) (t : PkgAfnDataTag) :
    t = requestTag pn Fn ↔ PointTag pn.toNat t.DA1 t.DA2 ∧ TypeTag Fn.toNat t.DT1 t.DT2 := by
  rw [pointTag_iff h.1, typeTag_iff h.2, and_assoc]
  cases t
  simp only [requestTag, PkgAfnDataTag.mk.injEq]

theorem create_unit (h : pn.toNat ≤ 2041 ∧ 1 ≤ Fn.toNat ∧ Fn.toNat ≤ 248) (self : PkgAfn) (tag : PkgAfnDataTag) :
    (AFN0C.create self tag pn Fn).pAfnData = some ⟨requestTag pn Fn, []⟩ := by
  simp only [AFN0C.create, getDA_eq h.1, getDT_eq h.2, requestTag]

theorem determined_iff : Determined pn Fn ↔ pn.toNat ≤ 2041 ∧ 1 ≤ Fn.toNat ∧ Fn.toNat ≤ 248 := by
  constructor
  · intro h
    have hunit := h ⟨⟨0, 0⟩, none, none⟩ ⟨⟨0, 0⟩, none, none⟩ ⟨0, 0, 0, 0⟩ ⟨1, 1, 1, 1⟩
    simp only [AFN0C.create, Option.some.injEq, PkgAfnData.mk.injEq, PkgAfnDataTag.mk.injEq, and_true] at hunit
    constructor
    · refine Decidable.byContradiction fun hpn => ?_
      rw [getDA_kept hpn, getDA_kept hpn] at hunit
      exact absurd hunit.1 (by decide)
    · refine Decidable.byContradiction fun hFn => ?_
      rw [getDT_kept hFn, getDT_kept hFn] at hunit
      exact absurd hunit.2.2.1 (by decide)
  · intro h self self' tag tag'
    rw [create_unit h, create_unit h]

end

/-! ## Requests and responses -/

section
variable (w : World) (m_jzq : UInt16 × UInt16) (afnData : PkgAfn) (n : Nat)

def madePkg : AFNPackage :=
  requestPkg w.mem m_jzq afnData (w.jzqList.getPSEQ m_jzq.1 m_jzq.2 true).1 n

def requestCall (d : PkgAfnData) : AppCall :=
  ⟨m_jzq.1, m_jzq.2, afnData.afnHeader.AFN, getFn d.m_Tag.DT1 d.m_Tag.DT2, getpn d.m_Tag.DA1 d.m_Tag.DA2⟩

def madeWorld : World :=
  { w with jzqList := (w.jzqList.getPSEQ m_jzq.1 m_jzq.2 true).2, heap := w.heap.alloc }

theorem ends_makeRequest {d : PkgAfnData} (hd : afnData.pAfnData = some d) :
    Ends (makeRequest m_jzq afnData n) w ⟨w.heap.next, closed (madePkg w m_jzq afnData n) d⟩
      (madeWorld w m_jzq) := by
  have hunit : (madePkg w m_jzq afnData n).pAfn.pAfnData = some d := hd
  unfold makeRequest
  refine (ends_get w).bind ?_
  exact Ends.bind rfl ((ends_liftAcc (yields_okPkg (madePkg w m_jzq afnData n) hunit).out _).bind (ends_new _ _))

theorem ends_requestData {d : PkgAfnData} (hd : afnData.pAfnData = some d) (haux : PlainAux afnData.pAux)
    (hfit : afnData.getDataLen + 14 < BUF_SIZE) :
    ∃ w', Ends (requestData m_jzq afnData n) w
      (⟨w.heap.next, closed (madePkg w m_jzq afnData n) d⟩, 0, requestCall m_jzq afnData d) w' := by
  have hunit : (madePkg w m_jzq afnData n).pAfn.pAfnData = some d := hd
  have hlen : (madePkg w m_jzq afnData n).pAfn.getDataLen = afnData.getDataLen := rfl
  have hmake := ends_makeRequest w m_jzq afnData n hd
  have hsend := ends_sendPkg_closed hunit haux (by rw [hlen]; exact hfit) w.heap.next (madeWorld w m_jzq)
  have hderef : (deref (closed (madePkg w m_jzq afnData n) d).pAfn.pAfnData).out = .ok d := by
    rw [show (closed (madePkg w m_jzq afnData n) d).pAfn.pAfnData = some d from hd]
    rfl
  have hlive : (madeWorld w m_jzq).heap.Live w.heap.next := Heap.live_alloc w.heap
  obtain ⟨heap, hdel, -⟩ := ends_delete (p := ⟨w.heap.next, closed (madePkg w m_jzq afnData n) d⟩)
    (w := { madeWorld w m_jzq with
      sent := (madeWorld w m_jzq).sent ++ [encode (closed (madePkg w m_jzq afnData n) d) d] }) hlive
  exact ⟨_, hmake.bind (hsend.bind ((ends_liftAcc hderef _).bind (hdel.bind (ends_pure _ _))))⟩

end

/-- The response has the addresses, the function and the tag of the request. -/
def SameHead (ack req : AFNPackage) : Prop :=
  ack.userHeader.A1 = req.userHeader.A1 ∧ ack.userHeader.A2 = req.userHeader.A2 ∧
    ack.pAfn.afnHeader.AFN = req.pAfn.afnHeader.AFN ∧
    ack.pAfn.pAfnData.map (·.m_Tag) = req.pAfn.pAfnData.map (·.m_Tag)

/-- The request for `pn` and `Fn` has a tag of its own, and the response has the key to wait for exactly
when it has the head of the request. -/
def MatchesOnly (w : World) (m_jzq : UInt16 × UInt16) (self : PkgAfn) (tag : PkgAfnDataTag) (pn Fn : UInt16)
    (n : Nat) (r : RecPkg) : Prop :=
  Determined pn Fn ∧ ∃ sndPkg ret call w',
    Ends (requestData m_jzq (AFN0C.create self tag pn Fn) n) w (sndPkg, ret, call) w' ∧
      (callOf r.pkg = call ↔ SameHead r.pkg sndPkg.pkg)

/-- The tag is read as the numbers `pn` and `Fn`, and is not theirs. -/
def Aliased (m_jzq : UInt16 × UInt16) (pn Fn : UInt16) (ack : AFNPackage) : Prop :=
  ack.userHeader.A1 = m_jzq.1 ∧ ack.userHeader.A2 = m_jzq.2 ∧ ack.pAfn.afnHeader.AFN = 0x0C ∧
    ∃ d, ack.pAfn.pAfnData = some d ∧ NamesPoint pn.toNat d.m_Tag.DA1 d.m_Tag.DA2 ∧
      NamesType Fn.toNat d.m_Tag.DT1 d.m_Tag.DT2 ∧
      ¬ (PointTag pn.toNat d.m_Tag.DA1 d.m_Tag.DA2 ∧ TypeTag Fn.toNat d.m_Tag.DT1 d.m_Tag.DT2)

theorem RecPkg.numbers (r : RecPkg) {d : PkgAfnData} (hd : r.pkg.pAfn.pAfnData = some d) :
    r.pkg.Fn = getFn d.m_Tag.DT1 d.m_Tag.DT2 ∧ r.pkg.pn = getpn d.m_Tag.DA1 d.m_Tag.DA2 := by
  obtain ⟨mem, data, e, h12, hparse⟩ := r.parsed
  obtain ⟨-, -, hq⟩ := parse_ok_inv h12 hparse
  rw [hq] at hd ⊢
  cases hd
  exact ⟨rfl, rfl⟩

section
variable {pn Fn : UInt16} (h : pn.toNat ≤ 2041 ∧ 1 ≤ Fn.toNat ∧ Fn.toNat ≤ 248)
include h

theorem getpn_requestTag : getpn (requestTag pn Fn).DA1 (requestTag pn Fn).DA2 = pn :=
  (getpn_eq_iff h.1 _ _).mpr (namesPoint_getDA h.1)

theorem getFn_requestTag : getFn (requestTag pn Fn).DT1 (requestTag pn Fn).DT2 = Fn :=
  (getFn_eq_iff h.2.1 h.2.2 _ _).mpr (namesType_getDT h.2)

theorem callOf_eq_iff (m_jzq : UInt16 × UInt16) (r : RecPkg) {d : PkgAfnData} (hd : r.pkg.pAfn.pAfnData = some d) :
    callOf r.pkg = ⟨m_jzq.1, m_jzq.2, 0x0C, Fn, pn⟩ ↔
      r.pkg.userHeader.A1 = m_jzq.1 ∧ r.pkg.userHeader.A2 = m_jzq.2 ∧ r.pkg.pAfn.afnHeader.AFN = 0x0C ∧
        NamesPoint pn.toNat d.m_Tag.DA1 d.m_Tag.DA2 ∧ NamesType Fn.toNat d.m_Tag.DT1 d.m_Tag.DT2 := by
  obtain ⟨hFn, hpn⟩ := r.numbers hd
  rw [← getpn_eq_iff h.1, ← getFn_eq_iff h.2.1 h.2.2, ← hpn, ← hFn]
  simp only [callOf, AppCall.mk.injEq]
  exact ⟨fun ⟨h1, h2, h3, h4, h5⟩ => ⟨h1, h2, h3, h5, h4⟩, fun ⟨h1, h2, h3, h4, h5⟩ => ⟨h1, h2, h3, h5, h4⟩⟩

theorem ends_request (w : World) (m_jzq : UInt16 × UInt16) (self : PkgAfn) (tag : PkgAfnDataTag) (n : Nat) :
    ∃ sndPkg ret w',
      Ends (requestData m_jzq (AFN0C.create self tag pn Fn) n) w
        (sndPkg, ret, ⟨m_jzq.1, m_jzq.2, 0x0C, Fn, pn⟩) w' ∧
      ∀ r : RecPkg, SameHead r.pkg sndPkg.pkg ↔ r.pkg.userHeader.A1 = m_jzq.1 ∧ r.pkg.userHeader.A2 = m_jzq.2 ∧
        r.pkg.pAfn.afnHeader.AFN = 0x0C ∧ r.pkg.pAfn.pAfnData.map (·.m_Tag) = some (requestTag pn Fn) := by
  have hunit := create_unit h self tag
  have haux : PlainAux (AFN0C.create self tag pn Fn).pAux := by
    intro aux haux
    cases haux
    rfl
  have hlen : (AFN0C.create self tag pn Fn).getDataLen = 22 := rfl
  have hfit : (AFN0C.create self tag pn Fn).getDataLen + 14 < BUF_SIZE := by
    rw [hlen]
    decide
  obtain ⟨w', hends⟩ := ends_requestData w m_jzq (AFN0C.create self tag pn Fn) n hunit haux hfit
  have hcall : requestCall m_jzq (AFN0C.create self tag pn Fn) ⟨requestTag pn Fn, []⟩ =
      ⟨m_jzq.1, m_jzq.2, 0x0C, Fn, pn⟩ := by
    simp only [requestCall, getpn_requestTag h, getFn_requestTag h]
    rfl
  rw [hcall] at hends
  refine ⟨_, _, w', hends, fun r => ?_⟩
  have hsnd : (closed (madePkg w m_jzq (AFN0C.create self tag pn Fn) n) ⟨requestTag pn Fn, []⟩).pAfn.pAfnData =
      some ⟨requestTag pn Fn, []⟩ := hunit
  simp only [SameHead, hsnd]
  exact Iff.rfl

end

section
variable {w : World} {m_jzq : UInt16 × UInt16} {self : PkgAfn} {tag : PkgAfnDataTag} {pn Fn : UInt16} {n : Nat}
  {r : RecPkg}

theorem MatchesOnly.determined (hm : MatchesOnly w m_jzq self tag pn Fn n r) :
    pn.toNat ≤ 2041 ∧ 1 ≤ Fn.toNat ∧ Fn.toNat ≤ 248 := determined_iff.mp hm.1

theorem MatchesOnly.not_aliased (hm : MatchesOnly w m_jzq self tag pn Fn n r) : ¬ Aliased m_jzq pn Fn r.pkg := by
  have h := hm.determined
  obtain ⟨-, snd', ret', call', w'', hends', hmatch⟩ := hm
  obtain ⟨sndPkg, ret, w', hends, hsame⟩ := ends_request h w m_jzq self tag n
  obtain ⟨heq, -⟩ := hends.inj hends'
  cases heq
  rintro ⟨hA1, hA2, hAFN, d, hd, hpoint, htype, hne⟩
  have hhead := hmatch.mp ((callOf_eq_iff h m_jzq r hd).mpr ⟨hA1, hA2, hAFN, hpoint, htype⟩)
  have htag := ((hsame r).mp hhead).2.2.2
  rw [hd] at htag
  exact hne ((eq_requestTag_iff h d.m_Tag).mp (Option.some.inj htag))

theorem matchesOnly_of_not_aliased (h : pn.toNat ≤ 2041 ∧ 1 ≤ Fn.toNat ∧ Fn.toNat ≤ 248)
    (hnot : ¬ Aliased m_jzq pn Fn r.pkg) : MatchesOnly w m_jzq self tag pn Fn n r := by
  obtain ⟨d, hd⟩ := r.unit
  obtain ⟨sndPkg, ret, w', hends, hsame⟩ := ends_request h w m_jzq self tag n
  refine ⟨determined_iff.mpr h, sndPkg, ret, _, w', hends, ?_⟩
  rw [hsame, callOf_eq_iff h m_jzq r hd, hd, Option.map_some, Option.some.injEq]
  constructor
  · rintro ⟨hA1, hA2, hAFN, hpoint, htype⟩
    refine ⟨hA1, hA2, hAFN, Decidable.byContradiction fun hne => ?_⟩
    rw [eq_requestTag_iff h] at hne
    exact hnot ⟨hA1, hA2, hAFN, d, hd, hpoint, htype, hne⟩
  · rintro ⟨hA1, hA2, hAFN, heq⟩
    refine ⟨hA1, hA2, hAFN, ?_⟩
    rw [heq]
    exact ⟨namesPoint_getDA h.1, namesType_getDT h.2⟩

end

/-- **A response is matched with the request it answers and no other exactly when there is a tag for the
numbers of the request, and the tag of the response is that one or is not read as them.** -/
theorem matchesOnly_iff (w : World) (m_jzq : UInt16 × UInt16) (self : PkgAfn) (tag : PkgAfnDataTag)
    (pn Fn : UInt16) (n : Nat) (r : RecPkg) :
    MatchesOnly w m_jzq self tag pn Fn n r ↔
      (pn.toNat ≤ 2041 ∧ 1 ≤ Fn.toNat ∧ Fn.toNat ≤ 248) ∧ ¬ Aliased m_jzq pn Fn r.pkg :=
  ⟨fun hm => ⟨hm.determined, hm.not_aliased⟩, fun h => matchesOnly_of_not_aliased h.1 h.2⟩

-- a response with the readings of the points 1 and 2
def twoPoints : Bytes :=
  [0x68, 0xd2, 0, 0xd2, 0, 0x68, 0x88, 0, 0x10, 0x4d, 0x04, 0, 0x0c, 0x60, 0x03, 0x01, 0x01, 0x04] ++
    [0x30, 0x10, 0x01, 0x02, 0x16, 0x01, 0, 0, 0x12, 0, 0, 0, 0, 0x12, 0, 0] ++ List.replicate 24 0 ++ [0xdc, 0x16]

def twoPointsPkg : RecPkg := ⟨frameOf twoPoints, zeros, twoPoints, 60, by decide, rfl⟩

/-- The request for the readings of point 1 takes that response for its own. -/
theorem twoPoints_matched :
    ¬ MatchesOnly ConnectionPower.start (0x1000, 0x044d) ⟨⟨0, 0⟩, none, none⟩ ⟨0, 0, 0, 0⟩ 1 33 10
      twoPointsPkg := by
  intro hm
  refine hm.not_aliased ⟨rfl, rfl, rfl, unitOf twoPoints, rfl, ?_, ?_, ?_⟩
  · exact .inr (.inr ⟨by decide, by decide, .inl ⟨by decide, by decide⟩⟩)
  · exact .inl ⟨by decide, by decide⟩
  · rintro ⟨hpoint | hpoint | hpoint, -⟩
    · exact absurd hpoint.1 (by decide)
    · exact absurd hpoint.1 (by decide)
    · exact absurd hpoint.2.2.1 (by decide)

end Afn
