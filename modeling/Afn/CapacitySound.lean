import Afn.CodecSound

/-!
# What a package declares, and the room it needs

`okPkg` leaves the additional information out of the checksum, a downlink aux with `Tp` and without `PW` is
written past its place, and none of the tests of the room left in the buffer ever fails.
-/

namespace Afn

open Bytes Access AFNPackage

/-! ## The place of the additional information -/

-- `Tp` goes to offset 16, where no `PW` stands before it
def PkgAfnAux.Misplaced : PkgAfnAux → Prop
  | .up .. => False
  | .down hasTp hasPW .. => hasTp = true ∧ hasPW = false

def Placed (pAux : Option PkgAfnAux) : Prop := ∀ aux, pAux = some aux → ¬ aux.Misplaced

theorem yields_packAux_placed {hi : Nat} {aux : PkgAfnAux} (h : ¬ aux.Misplaced) :
    aux.Packs (WritesBelow hi) hi := by
  intro pre rest off len hoff hlen hrest hhi
  have hplain : aux.Plain → Yields (WritesBelow hi) (aux.packData (pre ++ rest) off len)
      (pre ++ aux.toBytes ++ rest.drop aux.getDataLen, aux.getDataLen) := by
    intro hp
    exact (yields_packAux hp hoff hlen hrest hhi).mono writesBelow_of_within
  cases aux with
  | up => exact hplain trivial
  | down hasTp hasPW TP PW =>
    cases hasPW with
    | true => exact hplain rfl
    | false =>
      cases hasTp with
      | true => exact absurd ⟨rfl, rfl⟩ h
      | false =>
        have hsub : Yields (WritesBelow hi) (sub32 len 16) (if 16 ≤ len then len - 16 else len + 2 ^ 32 - 16) :=
          ⟨fun e he => by rw [List.mem_singleton.mp he]; trivial, rfl⟩
        simp only [PkgAfnAux.packData, PkgAfnAux.packBase, PkgAfnAux.getDataLen, PkgAfnAux.baseLen,
          PkgAfnAux.toBytes, Nat.zero_le, Bool.false_eq_true, and_false, if_true, if_false, List.drop_zero,
          List.append_nil]
        apply (yields_pure _).bind
        apply hsub.bind
        apply (yields_pure _).bind
        exact yields_pure _

section
variable (p : AFNPackage) {d : PkgAfnData} {buf : Bytes} (hd : p.pAfn.pAfnData = some d)
  (hlen : p.pAfn.getDataLen + 6 < 16384)
include hd hlen

theorem yields_serialize_placed (hplaced : Placed p.pAfn.pAux) (hbuf : p.pAfn.getDataLen + 14 ≤ buf.length) :
    Yields (WritesBelow buf.length) ((closed p d).serialize buf)
      (encode (closed p d) d ++ buf.drop (p.pAfn.getDataLen + 14), ((p.pAfn.getDataLen + 14 : Nat) : Int)) := by
  apply yields_serialize_packs writesBelow_of_within (closed p d) rfl hd _ hbuf
  · show p.pAfn.getDataLen < _
    omega
  · exact fun aux haux => yields_packAux_placed (hplaced aux haux)

end

/-! ## The lengths returned -/

section
variable {buf b : Bytes} {off len n : Nat}

theorem packUnit_len {d : PkgAfnData} (h : (d.packData buf off len).out = .ok (b, n)) :
    n = if d.m_nLen + 4 ≤ len then d.m_nLen + 4 else 0 := by
  unfold PkgAfnData.packData at h
  simp only [PKG_AFN_DATATAGLEN] at h
  by_cases hlen : d.m_nLen + 4 ≤ len
  · simp only [hlen, if_true] at h ⊢
    obtain ⟨b₁, -, h⟩ := out_bind_ok h
    obtain ⟨b₂, -, h⟩ := out_bind_ok h
    cases h
    rfl
  · simp only [hlen, if_false] at h ⊢
    cases h
    rfl

theorem packAux_len {aux : PkgAfnAux} (h : (aux.packData buf off len).out = .ok (b, n)) :
    n = aux.getDataLen := by
  unfold PkgAfnAux.packData at h
  by_cases hlen : aux.getDataLen ≤ len
  · simp only [hlen, if_true] at h
    cases aux with
    | up =>
      obtain ⟨b₁, -, h⟩ := out_bind_ok h
      obtain ⟨left, -, h⟩ := out_bind_ok h
      obtain ⟨b₂, -, h⟩ := out_bind_ok h
      cases h
      rfl
    | down hasTp hasPW =>
      cases hasPW with
      | true =>
        obtain ⟨b₁, -, h⟩ := out_bind_ok h
        obtain ⟨left, -, h⟩ := out_bind_ok h
        obtain ⟨b₂, -, h⟩ := out_bind_ok h
        cases h
        rfl
      | false =>
        obtain ⟨b₁, -, h⟩ := out_bind_ok h
        obtain ⟨left, -, h⟩ := out_bind_ok h
        obtain ⟨b₂, -, h⟩ := out_bind_ok h
        cases h
        rfl
  · simp only [hlen, if_false] at h
    cases h
    rfl

theorem packAfn_len {afn : PkgAfn} {d : PkgAfnData} (hd : afn.pAfnData = some d)
    (h : (afn.packData buf off len).out = .ok (b, n)) : 0 < n ∧ n ≤ afn.getDataLen := by
  unfold PkgAfn.packData at h
  simp only [PKG_AFN_HEADLEN, hd] at h
  simp only [PkgAfn.getDataLen, PKG_AFN_HEADLEN, hd, PkgAfnData.getDataLen, PKG_AFN_DATATAGLEN]
  obtain ⟨left, -, h⟩ := out_bind_ok h
  obtain ⟨b₁, -, h⟩ := out_bind_ok h
  obtain ⟨⟨b₂, dataLen⟩, hdata, h⟩ := out_bind_ok h
  have hdataLen : dataLen ≤ 4 + d.m_nLen := by
    rw [packUnit_len hdata]
    split <;> omega
  cases haux : afn.pAux with
  | none =>
    simp only [haux] at h ⊢
    cases h
    omega
  | some aux =>
    simp only [haux] at h ⊢
    obtain ⟨⟨b₃, auxLen⟩, hb₃, h⟩ := out_bind_ok h
    cases h
    rw [packAux_len hb₃]
    omega

theorem serialize_pos {p : AFNPackage} {d : PkgAfnData} {r : Int} (hd : p.pAfn.pAfnData = some d)
    (hlen : p.pAfn.getDataLen < 2 ^ 31) (h : (p.serialize buf).out = .ok (b, r)) : 0 < r := by
  unfold serialize at h
  obtain ⟨len₁, -, h⟩ := out_bind_ok h
  obtain ⟨b₁, -, h⟩ := out_bind_ok h
  obtain ⟨len₂, -, h⟩ := out_bind_ok h
  obtain ⟨b₂, -, h⟩ := out_bind_ok h
  obtain ⟨⟨b₃, afnLen⟩, hafn, h⟩ := out_bind_ok h
  obtain ⟨hpos, hle⟩ := packAfn_len hd hafn
  have hint : ¬ toInt32 afnLen ≤ 0 := by
    rw [toInt32_of_lt (by omega)]
    omega
  simp only [hint, if_false] at h
  obtain ⟨len₃, -, h⟩ := out_bind_ok h
  obtain ⟨len₄, -, h⟩ := out_bind_ok h
  obtain ⟨b₄, -, h⟩ := out_bind_ok h
  cases h
  omega

end

/-! ## A byte that is not written -/

theorem splice_set {buf bs : Bytes} {off i : Nat} (x : UInt8) (hfit : off + bs.length ≤ buf.length)
    (hi : i < off ∨ off + bs.length ≤ i) : splice (buf.set i x) off bs = (splice buf off bs).set i x := by
  have htake : (buf.take off).length = off := by simp; omega
  unfold splice
  rcases hi with hi | hi
  · rw [List.take_set, List.drop_set_of_lt (by omega), List.append_assoc, List.append_assoc,
      List.set_append_left _ _ (by omega)]
  · rw [List.take_set_of_le (by omega), List.drop_set, if_neg (by omega), List.set_append_right, List.length_append,
      htake]
    simp only [List.length_append, htake]
    omega

section
variable {buf b : Bytes} {i : Nat} (x : UInt8)

theorem writeAt_set {off : Nat} {bs : Bytes} (hi : i < off ∨ off + bs.length ≤ i)
    (h : (writeAt buf off bs).out = .ok b) : (writeAt (buf.set i x) off bs).out = .ok (b.set i x) := by
  simp only [writeAt, List.length_set] at h ⊢
  by_cases hfit : off + bs.length ≤ buf.length
  · simp only [hfit, if_true, Except.ok.injEq] at h ⊢
    rw [splice_set x hfit hi, h]
  · simp only [hfit, if_false] at h
    cases h

theorem packBase_set {hasTp : Bool} {TP : TimeTag} {off len : Nat} (hi : i < off)
    (h : (PkgAfnAux.packBase hasTp TP buf off len).out = .ok b) :
    (PkgAfnAux.packBase hasTp TP (buf.set i x) off len).out = .ok (b.set i x) := by
  unfold PkgAfnAux.packBase at h ⊢
  by_cases hw : PkgAfnAux.baseLen hasTp ≤ len ∧ hasTp = true
  · rw [if_pos hw] at h ⊢
    exact writeAt_set x (.inl hi) h
  · rw [if_neg hw] at h ⊢
    cases h
    rfl

theorem packAux_set {hasTp : Bool} {TP : TimeTag} {PW : Vector UInt8 16} {off len n : Nat} (hi : i < off + 16)
    (h : (PkgAfnAux.packData (.down hasTp false TP PW) buf off len).out = .ok (b, n)) :
    (PkgAfnAux.packData (.down hasTp false TP PW) (buf.set i x) off len).out = .ok (b.set i x, n) := by
  unfold PkgAfnAux.packData at h ⊢
  by_cases hlen : PkgAfnAux.getDataLen (.down hasTp false TP PW) ≤ len
  · simp only [hlen, if_true] at h ⊢
    obtain ⟨b₁, hb₁, h⟩ := out_bind_ok h
    obtain ⟨left, hleft, h⟩ := out_bind_ok h
    obtain ⟨b₂, hb₂, h⟩ := out_bind_ok h
    cases h
    cases hb₁
    apply (out_bind rfl _).trans
    apply (out_bind hleft _).trans
    exact out_bind (packBase_set x hi hb₂) _
  · simp only [hlen, if_false] at h ⊢
    cases h
    rfl

theorem packUnit_set {d : PkgAfnData} {off len n : Nat} (hi : off + (d.m_nLen + 4) ≤ i)
    (h : (d.packData buf off len).out = .ok (b, n)) :
    (d.packData (buf.set i x) off len).out = .ok (b.set i x, n) := by
  have htag : d.m_Tag.toBytes.length = 4 := rfl
  have hn : d.m_pData.length = d.m_nLen := rfl
  unfold PkgAfnData.packData at h ⊢
  simp only [PKG_AFN_DATATAGLEN] at h ⊢
  by_cases hlen : d.m_nLen + 4 ≤ len
  · simp only [hlen, if_true] at h ⊢
    obtain ⟨b₁, hb₁, h⟩ := out_bind_ok h
    obtain ⟨b₂, hb₂, h⟩ := out_bind_ok h
    cases h
    apply (out_bind (writeAt_set x (.inr (by omega)) hb₁) _).trans
    exact out_bind (writeAt_set x (.inr (by omega)) hb₂) _
  · simp only [hlen, if_false] at h ⊢
    cases h
    rfl

section
variable {d : PkgAfnData} {hasTp : Bool} {TP : TimeTag} {PW : Vector UInt8 16}

theorem packAfn_set {afn : PkgAfn} {off len n : Nat} (hd : afn.pAfnData = some d)
    (haux : afn.pAux = some (.down hasTp false TP PW)) (hlen : d.m_nLen + 6 ≤ len)
    (hi : off + (d.m_nLen + 6) ≤ i) (hi' : i < off + (d.m_nLen + 22))
    (h : (afn.packData buf off len).out = .ok (b, n)) :
    (afn.packData (buf.set i x) off len).out = .ok (b.set i x, n) ∧ n = afn.getDataLen := by
  have hhead : afn.afnHeader.toBytes.length = 2 := rfl
  have hsub : (sub32 len 2).out = .ok (len - 2) := (yields_sub32 (P := fun _ => True) (by omega) trivial).out
  unfold PkgAfn.packData at h ⊢
  simp only [PKG_AFN_HEADLEN, hd, haux] at h ⊢
  obtain ⟨left, hleft, h⟩ := out_bind_ok h
  rw [hsub] at hleft
  cases hleft
  obtain ⟨b₁, hb₁, h⟩ := out_bind_ok h
  obtain ⟨⟨b₂, dataLen⟩, hb₂, h⟩ := out_bind_ok h
  obtain ⟨⟨b₃, auxLen⟩, hb₃, h⟩ := out_bind_ok h
  cases h
  have hdataLen := packUnit_len hb₂
  rw [if_pos (by omega)] at hdataLen
  have hauxLen := packAux_len hb₃
  subst hdataLen hauxLen
  refine ⟨?_, ?_⟩
  · apply (out_bind hsub _).trans
    apply (out_bind (writeAt_set x (.inr (by omega)) hb₁) _).trans
    apply (out_bind (packUnit_set x (by omega) hb₂) _).trans
    exact out_bind (packAux_set x (by omega) hb₃) _
  · simp only [PkgAfn.getDataLen, hd, haux, PkgAfnData.getDataLen, PKG_AFN_HEADLEN, PKG_AFN_DATATAGLEN]
    omega

theorem serialize_set {p : AFNPackage} {r : Int} (hd : p.pAfn.pAfnData = some d)
    (haux : p.pAfn.pAux = some (.down hasTp false TP PW)) (hbuf : p.pAfn.getDataLen + 14 ≤ buf.length)
    (hsmall : p.pAfn.getDataLen < 2 ^ 31) (hi : d.m_nLen + 18 ≤ i) (hi' : i < p.pAfn.getDataLen + 12)
    (h : (p.serialize buf).out = .ok (b, r)) : (p.serialize (buf.set i x)).out = .ok (b.set i x, r) := by
  have hget := getDataLen_eq hd
  have haux' : (auxBytes p.pAfn.pAux).length ≤ 6 := by
    rw [haux, auxBytes, length_aux]
    cases hasTp <;> simp [PkgAfnAux.getDataLen, PkgAfnAux.baseLen]
  have hh : p.pkgHeader.toBytes.length = 6 := rfl
  have hu : p.userHeader.toBytes.length = 6 := rfl
  have hsub₁ : (sub32 buf.length 6).out = .ok (buf.length - 6) :=
    (yields_sub32 (P := fun _ => True) (by omega) trivial).out
  have hsub₂ : (sub32 (buf.length - 6) 6).out = .ok (buf.length - 6 - 6) :=
    (yields_sub32 (P := fun _ => True) (by omega) trivial).out
  unfold serialize at h ⊢
  simp only [PKG_HEADLEN, PKG_USER_HEADLEN, PKG_TAILLEN, List.length_set] at h ⊢
  obtain ⟨len₁, hlen₁, h⟩ := out_bind_ok h
  rw [hsub₁] at hlen₁
  cases hlen₁
  obtain ⟨b₁, hb₁, h⟩ := out_bind_ok h
  obtain ⟨len₂, hlen₂, h⟩ := out_bind_ok h
  rw [hsub₂] at hlen₂
  cases hlen₂
  obtain ⟨b₂, hb₂, h⟩ := out_bind_ok h
  obtain ⟨⟨b₃, afnLen⟩, hb₃, h⟩ := out_bind_ok h
  have hafn : (p.pAfn.packData (b₂.set i x) (6 + 6) (buf.length - 6 - 6)).out = .ok (b₃.set i x, afnLen) ∧
      afnLen = p.pAfn.getDataLen := packAfn_set x hd haux (by omega) (by omega) (by omega) hb₃
  obtain ⟨hset, rfl⟩ := hafn
  have hint : ¬ toInt32 p.pAfn.getDataLen ≤ 0 := by
    rw [toInt32_of_lt hsmall]
    omega
  simp only [hint, if_false] at h
  obtain ⟨len₃, hlen₃, h⟩ := out_bind_ok h
  obtain ⟨len₄, hlen₄, h⟩ := out_bind_ok h
  obtain ⟨b₄, hb₄, h⟩ := out_bind_ok h
  cases h
  apply (out_bind hsub₁ _).trans
  apply (out_bind (writeAt_set x (.inr (by omega)) hb₁) _).trans
  apply (out_bind hsub₂ _).trans
  apply (out_bind (writeAt_set x (.inr (by omega)) hb₂) _).trans
  apply (out_bind hset _).trans
  simp only [hint, if_false]
  apply (out_bind hlen₃ _).trans
  apply (out_bind hlen₄ _).trans
  exact out_bind (writeAt_set x (.inl (by omega)) hb₄) _

end

end

theorem misplaced_of_not_placed {pAux : Option PkgAfnAux} (h : ¬ Placed pAux) :
    ∃ TP PW, pAux = some (.down true false TP PW) := by
  refine Classical.byContradiction fun hne => h ?_
  intro aux haux hm
  cases aux with
  | up => exact hm
  | down hasTp hasPW TP PW =>
    obtain ⟨rfl, rfl⟩ := hm
    exact hne ⟨TP, PW, haux⟩

/-! ## The capacity of the buffer -/

/-- After `okPkg` the package is written below `bufLen` only; the whole of it when it fits, and the error is
returned when it does not. -/
def Respects (p : AFNPackage) (bufLen : UInt32) : Prop :=
  ∃ q d, p.okPkg.out = .ok q ∧ q.pAfn.pAfnData = some d ∧
    ∀ buf : Bytes, buf.length = bufLen.toNat →
      ∃ b r, Yields (WritesBelow bufLen.toNat) (q.serialize buf) (b, r) ∧
        (q.getFrameL ≤ bufLen.toNat → r = (q.getFrameL : Int) ∧ b.take q.getFrameL = encode q d) ∧
        (bufLen.toNat < q.getFrameL → r = YQER_PKG_Err 99)

section
variable {p : AFNPackage} {d : PkgAfnData} (hd : p.pAfn.pAfnData = some d)
  (hlen : p.pAfn.getDataLen + 6 < 16384)
include hd hlen

omit hd in
theorem closed_getFrameL : (closed p d).getFrameL = p.pAfn.getDataLen + 14 := by
  rw [getFrameL, closed_header]
  exact setL_getFrameL p d hlen

theorem length_closed : (encode (closed p d) d).length = p.pAfn.getDataLen + 14 := by
  rw [length_encode, length_userData_closed hd hlen, closed_LEN p d hlen]

theorem serialize_misplaced {TP : TimeTag} {PW : Vector UInt8 16}
    (haux : p.pAfn.pAux = some (.down true false TP PW)) {buf b : Bytes} {r : Int}
    (hbuf : p.pAfn.getDataLen + 14 ≤ buf.length) (h : ((closed p d).serialize buf).out = .ok (b, r)) (x : UInt8) :
    ((closed p d).serialize (buf.set (d.m_nLen + 18) x)).out = .ok (b.set (d.m_nLen + 18) x, r) := by
  have hget := getDataLen_eq hd
  have haux' : (auxBytes p.pAfn.pAux).length = 6 := by rw [haux]; rfl
  have hsmall : (closed p d).pAfn.getDataLen < 2 ^ 31 := by
    show p.pAfn.getDataLen < _
    omega
  apply serialize_set (p := closed p d) x hd haux hbuf hsmall (Nat.le_refl _) _ h
  show d.m_nLen + 18 < p.pAfn.getDataLen + 12
  omega

theorem Respects.fits {bufLen : UInt32} (h : Respects p bufLen) : p.setL.getFrameL ≤ bufLen.toNat := by
  obtain ⟨q, d', hq, -, h⟩ := h
  rw [(yields_okPkg p hd).out] at hq
  cases hq
  refine Nat.le_of_not_lt fun hlt => ?_
  obtain ⟨b, r, hs, -, hr⟩ := h (List.replicate bufLen.toNat 0) List.length_replicate
  have hpos := serialize_pos (p := closed p d) hd (by show p.pAfn.getDataLen < _; omega) hs.out
  have hlt' : bufLen.toNat < (closed p d).getFrameL := by
    rw [getFrameL, closed_header]
    exact hlt
  rw [hr hlt'] at hpos
  exact absurd hpos (by decide)

theorem Respects.placed {bufLen : UInt32} (h : Respects p bufLen) : Placed p.pAfn.pAux := by
  have hfit := h.fits hd hlen
  obtain ⟨q, d', hq, hd', h⟩ := h
  rw [(yields_okPkg p hd).out] at hq
  cases hq
  have hdd : some d = some d' := hd.symm.trans hd'
  cases hdd
  rw [setL_getFrameL p d hlen] at hfit
  refine Classical.byContradiction fun hnp => ?_
  obtain ⟨TP, PW, haux⟩ := misplaced_of_not_placed hnp
  have hget := getDataLen_eq hd
  have haux' : (auxBytes p.pAfn.pAux).length = 6 := by rw [haux]; rfl
  have hbuf : (List.replicate bufLen.toNat (0 : UInt8)).length = bufLen.toNat := List.length_replicate
  have hframe := closed_getFrameL (d := d) hlen
  obtain ⟨b, r, hs, hwhole, -⟩ := h _ hbuf
  have hset := serialize_misplaced hd hlen haux (by omega) hs.out (byteAt b (d.m_nLen + 18) + 1)
  obtain ⟨b', r', hs', hwhole', -⟩ := h _ (List.length_set.trans hbuf)
  have hout := hs'.out
  rw [hset] at hout
  cases hout
  have hb := (hwhole (by omega)).2
  have hb' := (hwhole' (by omega)).2
  have hblen : p.pAfn.getDataLen + 14 ≤ b.length := by
    have hl := congrArg List.length hb
    rw [List.length_take, length_closed hd hlen] at hl
    omega
  have hbyte := congrArg (byteAt · (d.m_nLen + 18)) (hb'.trans hb.symm)
  rw [byteAt_take (by omega), byteAt_take (by omega), byteAt_set _ (by omega)] at hbyte
  exact absurd hbyte (by simp)

theorem respects_of_placed {bufLen : UInt32} (hfit : p.setL.getFrameL ≤ bufLen.toNat)
    (hplaced : Placed p.pAfn.pAux) : Respects p bufLen := by
  have hframe := closed_getFrameL (d := d) hlen
  have hfit' : p.pAfn.getDataLen + 14 ≤ bufLen.toNat := by rw [← setL_getFrameL p d hlen]; exact hfit
  refine ⟨closed p d, d, (yields_okPkg p hd).out, hd, fun buf hbuf => ?_⟩
  have hroom : p.pAfn.getDataLen + 14 ≤ buf.length := by omega
  have hs := yields_serialize_placed p hd hlen hplaced hroom
  rw [hbuf] at hs
  refine ⟨_, _, hs, fun _ => ?_, fun hlt => absurd hlt (by omega)⟩
  rw [hframe]
  refine ⟨rfl, ?_⟩
  rw [← length_closed hd hlen, List.take_left]

end

/-- **The buffer is respected exactly when it holds the whole package** (and no `Tp` is misplaced). -/
theorem respects_iff (p : AFNPackage) (d : PkgAfnData) (bufLen : UInt32) (hd : p.pAfn.pAfnData = some d)
    (hlen : PKG_USER_HEADLEN + p.pAfn.getDataLen < 2 ^ 14) :
    Respects p bufLen ↔ p.setL.getFrameL ≤ bufLen.toNat ∧ Placed p.pAfn.pAux := by
  have hlen' : p.pAfn.getDataLen + 6 < 16384 := by simp only [PKG_USER_HEADLEN] at hlen; omega
  constructor
  · exact fun h => ⟨h.fits hd hlen', h.placed hd hlen'⟩
  · rintro ⟨hfit, hplaced⟩
    exact respects_of_placed hd hlen' hfit hplaced

theorem respects_iff_confirmation :
    Respects confirmation 18 ↔ confirmation.setL.getFrameL ≤ (18 : UInt32).toNat ∧ Placed confirmation.pAfn.pAux :=
  respects_iff confirmation ⟨⟨0, 0, 1, 0⟩, []⟩ 18 rfl (by decide)

/-- 17 bytes have no room for the data unit, and are filled with a frame without it. -/
theorem confirmation_truncated :
    ¬ Respects confirmation 17 ∧
    ∃ q b, confirmation.okPkg.out = .ok q ∧ q.getFrameL = 20 ∧
      (q.serialize (List.replicate 17 0)).out = .ok (b, 16) := by
  refine ⟨fun h => ?_, _, _, rfl, rfl, rfl⟩
  have hfit := h.fits (d := ⟨⟨0, 0, 1, 0⟩, []⟩) rfl (by decide)
  exact absurd hfit (by decide)

/-! ## What the header and the tail say -/

/-- After `okPkg` both length fields are the number of bytes written between the header and the tail, and the
checksum is the sum of these bytes. -/
def DeclaresSent (p : AFNPackage) : Prop :=
  ∃ q, p.okPkg.out = .ok q ∧ lenOf q.pkgHeader.L1 = q.pkgHeader.LEN ∧
    ∀ buf : Bytes, q.getFrameL ≤ buf.length →
      ∃ b, (q.serialize buf).out = .ok (b, (q.getFrameL : Int)) ∧
        slice b 0 PKG_HEADLEN = q.pkgHeader.toBytes ∧
        slice b (PKG_HEADLEN + q.pkgHeader.LEN) PKG_TAILLEN = q.pkgTail.toBytes ∧
        (getCS b PKG_HEADLEN q.pkgHeader.LEN 0).out = .ok q.pkgTail.CS

theorem out_getCS {b : Bytes} {off len : Nat} (h : off + len ≤ b.length) :
    (getCS b off len 0).out = .ok (byteSum (slice b off len)) := by
  have hcs := (yields_getCS (Nat.le_refl b.length) len off 0 h).out
  rw [UInt8.zero_add] at hcs
  exact hcs

section
variable {p : AFNPackage} {d : PkgAfnData} (hd : p.pAfn.pAfnData = some d)
  (hlen : p.pAfn.getDataLen + 6 < 16384)

theorem byteSum_closed (p : AFNPackage) (d : PkgAfnData) :
    byteSum (userData (closed p d) d) = (closed p d).pkgTail.CS + byteSum (auxBytes p.pAfn.pAux) := by
  have hu : userData (closed p d) d = p.userHeader.toBytes ++ (p.pAfn.afnHeader.toBytes ++
      (d.m_Tag.toBytes ++ (d.m_pData ++ auxBytes p.pAfn.pAux))) := rfl
  have hcs : (closed p d).pkgTail.CS = byteSum (p.userHeader.toBytes ++ (p.pAfn.afnHeader.toBytes ++
      (d.m_Tag.toBytes ++ d.m_pData))) := rfl
  rw [hu, hcs]
  simp only [byteSum_append, UInt8.add_assoc]

include hd hlen

theorem slices_closed {b rest : Bytes} (hb : b = encode (closed p d) d ++ rest) :
    slice b 0 6 = (closed p d).pkgHeader.toBytes ∧
    slice b 6 (closed p d).pkgHeader.LEN = userData (closed p d) d ∧
    slice b (6 + (closed p d).pkgHeader.LEN) 2 = (closed p d).pkgTail.toBytes := by
  have hlength := length_closed hd hlen
  have hud := length_userData_closed hd hlen
  have hL := closed_LEN p d hlen
  rw [hb, slice_append (by omega), slice_append (by omega), slice_append (by omega), ← hud]
  refine ⟨?_, encode_userData .., ?_⟩
  · rw [← PkgHeader.toBytes_ofBytes (length_slice_of_le (by omega)), encode_header]
  · rw [← PkgTail.toBytes_ofBytes (length_slice_of_le (by omega)), encode_tail]

theorem declaresSent_of_placed (hplaced : Placed p.pAfn.pAux) :
    DeclaresSent p ↔ byteSum (auxBytes p.pAfn.pAux) = 0 := by
  have hframe := closed_getFrameL (d := d) hlen
  have hlength := length_closed hd hlen
  have hL := closed_LEN p d hlen
  have hcs : ∀ {b rest : Bytes}, b = encode (closed p d) d ++ rest →
      (getCS b 6 (closed p d).pkgHeader.LEN 0).out =
        .ok ((closed p d).pkgTail.CS + byteSum (auxBytes p.pAfn.pAux)) := by
    intro b rest hb
    have hblen := congrArg List.length hb
    rw [List.length_append] at hblen
    rw [out_getCS (by omega), (slices_closed hd hlen hb).2.1, byteSum_closed]
  constructor
  · rintro ⟨q, hq, -, h⟩
    rw [(yields_okPkg p hd).out] at hq
    cases hq
    have hbuf : (closed p d).getFrameL ≤ (List.replicate (closed p d).getFrameL (0 : UInt8)).length :=
      Nat.le_of_eq List.length_replicate.symm
    obtain ⟨b, hs, -, -, hsum⟩ := h _ hbuf
    have hs' := yields_serialize_placed p hd hlen hplaced (by rw [← hframe]; exact hbuf)
    rw [hs'.out, Except.ok.injEq, Prod.mk.injEq] at hs
    obtain ⟨rfl, -⟩ := hs
    have hsum' := (hcs rfl).symm.trans hsum
    exact (UInt8.add_right_inj _).mp ((Except.ok.inj hsum').trans (UInt8.add_zero _).symm)
  · intro hzero
    refine ⟨closed p d, (yields_okPkg p hd).out, ?_, fun buf hbuf => ?_⟩
    · show lenOf (setLen _ _) = lenOf (setLen _ _)
      rw [lenOf_setLen, lenOf_setLen]
    · have hs := yields_serialize_placed p hd hlen hplaced (by rw [← hframe]; exact hbuf)
      obtain ⟨hhead, -, htail⟩ := slices_closed hd hlen rfl
      refine ⟨_, ?_, hhead, htail, ?_⟩
      · rw [hframe]
        exact hs.out
      · apply (hcs rfl).trans
        rw [hzero, UInt8.add_zero]

theorem placed_of_declaresSent (h : DeclaresSent p) : Placed p.pAfn.pAux := by
  obtain ⟨q, hq, -, h⟩ := h
  rw [(yields_okPkg p hd).out] at hq
  cases hq
  refine Classical.byContradiction fun hnp => ?_
  obtain ⟨TP, PW, haux⟩ := misplaced_of_not_placed hnp
  have hget := getDataLen_eq hd
  have haux' : (auxBytes p.pAfn.pAux).length = 6 := by rw [haux]; rfl
  have hframe := closed_getFrameL (d := d) hlen
  have hL := closed_LEN p d hlen
  have hbuf : (List.replicate (closed p d).getFrameL (0 : UInt8)).length = (closed p d).getFrameL :=
    List.length_replicate
  obtain ⟨b, hs, -, htail, hsum⟩ := h _ (Nat.le_of_eq hbuf.symm)
  have hset := serialize_misplaced hd hlen haux (by omega) hs (byteAt b (d.m_nLen + 18) + 1)
  obtain ⟨b', hs', -, -, hsum'⟩ := h _ (Nat.le_of_eq (List.length_set.trans hbuf).symm)
  rw [hset] at hs'
  cases hs'
  have hblen : (closed p d).pkgHeader.LEN + 8 ≤ b.length := by
    have hl := congrArg List.length htail
    have htwo : (closed p d).pkgTail.toBytes.length = 2 := rfl
    rw [length_slice, htwo] at hl
    simp only [PKG_HEADLEN, PKG_TAILLEN] at hl
    omega
  simp only [PKG_HEADLEN] at hsum hsum'
  rw [out_getCS (by omega)] at hsum
  rw [out_getCS (by rw [List.length_set]; omega), slice_set _ (by omega)] at hsum'
  have hpos : d.m_nLen + 18 - 6 < (slice b 6 (closed p d).pkgHeader.LEN).length := by
    rw [length_slice_of_le (by omega)]
    omega
  have hbyte := byteSum_set (byteAt b (d.m_nLen + 18) + 1) hpos
  have hpos' : 6 + (d.m_nLen + 18 - 6) = d.m_nLen + 18 := by omega
  rw [Except.ok.inj hsum', Except.ok.inj hsum, byteAt_slice (by omega), hpos', UInt8.add_right_inj] at hbyte
  exact absurd hbyte (by simp)

end

/-- **The lengths and the checksum match the bytes sent exactly when no `Tp` is misplaced and the bytes of the
additional information sum up to zero.** -/
theorem declaresSent_iff (p : AFNPackage) (d : PkgAfnData) (hd : p.pAfn.pAfnData = some d)
    (hlen : PKG_USER_HEADLEN + p.pAfn.getDataLen < 2 ^ 14) :
    DeclaresSent p ↔ Placed p.pAfn.pAux ∧ byteSum (auxBytes p.pAfn.pAux) = 0 := by
  have hlen' : p.pAfn.getDataLen + 6 < 16384 := by simp only [PKG_USER_HEADLEN] at hlen; omega
  constructor
  · intro h
    have hplaced := placed_of_declaresSent hd hlen' h
    exact ⟨hplaced, (declaresSent_of_placed hd hlen' hplaced).mp h⟩
  · rintro ⟨hplaced, hzero⟩
    exact (declaresSent_of_placed hd hlen' hplaced).mpr hzero

theorem declaresSent_iff_confirmation :
    DeclaresSent confirmation ↔ Placed confirmation.pAfn.pAux ∧ byteSum (auxBytes confirmation.pAfn.pAux) = 0 :=
  declaresSent_iff confirmation ⟨⟨0, 0, 1, 0⟩, []⟩ rfl (by decide)

def keyedRequest : AFNPackage :=
  { clockRequest with
    pAfn.pAux := some (.down false true ⟨0, (0, 0, 0, 0), 0⟩ (Vector.replicate 16 1)) }

theorem keyedRequest_missummed : ¬ DeclaresSent keyedRequest := by
  intro h
  have hplaced := placed_of_declaresSent (p := keyedRequest) (d := ⟨⟨0, 0, 2, 0⟩, []⟩) rfl (by decide) h
  have hzero := (declaresSent_of_placed (p := keyedRequest) (d := ⟨⟨0, 0, 2, 0⟩, []⟩) rfl (by decide) hplaced).mp h
  exact absurd hzero (by decide)

end Afn
