import Afn.ParseSound

/-!
# Encoding and decoding

Serializing a package without additional information writes its parts one after another (`encode`),
and parsing is the inverse: `decode_encode` for packages closed by `okPkg`, `encode_decode` for
accepted frames. A package with additional information never comes back.
-/

namespace Afn

open Bytes Access AFNPackage

/-! ## Structures and their bytes -/

theorem PkgHeader.ofBytes_toBytes (h : PkgHeader) : PkgHeader.ofBytes h.toBytes = h := by
  simp [PkgHeader.ofBytes, PkgHeader.toBytes, byteAt]

theorem PkgHeader.toBytes_ofBytes : ∀ {bs : Bytes}, bs.length = 6 → (PkgHeader.ofBytes bs).toBytes = bs
  | [_, _, _, _, _, _], _ => by simp [PkgHeader.ofBytes, PkgHeader.toBytes, byteAt]

theorem PkgUserHeader.ofBytes_toBytes (h : PkgUserHeader) : PkgUserHeader.ofBytes h.toBytes = h := by
  simp [PkgUserHeader.ofBytes, PkgUserHeader.toBytes, byteAt]

theorem PkgUserHeader.toBytes_ofBytes :
    ∀ {bs : Bytes}, bs.length = 6 → (PkgUserHeader.ofBytes bs).toBytes = bs
  | [_, _, _, _, _, _], _ => by simp [PkgUserHeader.ofBytes, PkgUserHeader.toBytes, byteAt]

theorem PkgTail.ofBytes_toBytes (t : PkgTail) : PkgTail.ofBytes t.toBytes = t := rfl

theorem PkgTail.toBytes_ofBytes : ∀ {bs : Bytes}, bs.length = 2 → (PkgTail.ofBytes bs).toBytes = bs
  | [_, _], _ => rfl

theorem PkgAfnHeader.ofBytes_toBytes (h : PkgAfnHeader) : PkgAfnHeader.ofBytes h.toBytes = h := rfl

theorem PkgAfnHeader.toBytes_ofBytes :
    ∀ {bs : Bytes}, bs.length = 2 → (PkgAfnHeader.ofBytes bs).toBytes = bs
  | [_, _], _ => rfl

theorem PkgAfnDataTag.ofBytes_toBytes (t : PkgAfnDataTag) : PkgAfnDataTag.ofBytes t.toBytes = t := rfl

theorem PkgAfnDataTag.toBytes_ofBytes :
    ∀ {bs : Bytes}, bs.length = 4 → (PkgAfnDataTag.ofBytes bs).toBytes = bs
  | [_, _, _, _], _ => rfl

theorem lenOf_setLen (l : UInt16) (v : Nat) : lenOf (setLen l v) = v % 16384 := by
  have h := l.toNat_lt
  simp only [lenOf, setLen, field, setField, UInt16.toNat_ofNat']
  omega

/-! ## Serializing -/

def PkgAfnAux.toBytes : PkgAfnAux → Bytes
  | .up hasTp TP EC1 EC2 => [EC1, EC2] ++ (if hasTp then TP.toBytes else [])
  | .down hasTp hasPW TP PW => (if hasPW then PW.toList else []) ++ (if hasTp then TP.toBytes else [])

def PkgAfnAux.Plain : PkgAfnAux → Prop
  | .up .. => True
  | .down _ hasPW .. => hasPW = true

def auxBytes : Option PkgAfnAux → Bytes
  | some aux => aux.toBytes
  | none => []

def userData (p : AFNPackage) (d : PkgAfnData) : Bytes :=
  p.userHeader.toBytes ++ (p.pAfn.afnHeader.toBytes ++ (d.m_Tag.toBytes ++ (d.m_pData ++ auxBytes p.pAfn.pAux)))

def encode (p : AFNPackage) (d : PkgAfnData) : Bytes :=
  p.pkgHeader.toBytes ++ (userData p d ++ p.pkgTail.toBytes)

theorem length_aux (aux : PkgAfnAux) : aux.toBytes.length = aux.getDataLen := by
  cases aux with
  | up hasTp TP EC1 EC2 =>
    cases hasTp <;> simp [PkgAfnAux.toBytes, PkgAfnAux.getDataLen, PkgAfnAux.baseLen, TimeTag.toBytes]
  | down hasTp hasPW TP PW =>
    cases hasTp <;> cases hasPW <;>
      simp [PkgAfnAux.toBytes, PkgAfnAux.getDataLen, PkgAfnAux.baseLen, TimeTag.toBytes]

theorem length_userData (p : AFNPackage) (d : PkgAfnData) :
    (userData p d).length = d.m_nLen + (auxBytes p.pAfn.pAux).length + 12 := by
  simp [userData, PkgUserHeader.toBytes, PkgAfnHeader.toBytes, PkgAfnDataTag.toBytes, PkgAfnData.m_nLen]

theorem length_encode (p : AFNPackage) (d : PkgAfnData) :
    (encode p d).length = (userData p d).length + 8 := by
  simp [encode, PkgHeader.toBytes, PkgTail.toBytes]

theorem yields_packUnit {hi : Nat} (d : PkgAfnData) {pre rest : Bytes} {off len : Nat}
    (hoff : off = pre.length) (hlen : d.m_nLen + 4 ≤ len) (hrest : d.m_nLen + 4 ≤ rest.length)
    (hhi : off + (d.m_nLen + 4) ≤ hi) :
    Yields (Within hi) (d.packData (pre ++ rest) off len)
      (pre ++ (d.m_Tag.toBytes ++ d.m_pData) ++ rest.drop (d.m_nLen + 4), d.m_nLen + 4) := by
  have htag : d.m_Tag.toBytes.length = 4 := rfl
  unfold PkgAfnData.packData
  simp only [PKG_AFN_DATATAGLEN, hlen, if_true]
  refine (yields_writeAt_append hoff (by omega) (by simp only [Within]; omega)).bind ?_
  refine (yields_writeAt_append ?_ ?_ ?_).bind ?_
  · simp only [List.length_append, htag]; omega
  · simp only [List.length_drop, htag, PkgAfnData.m_nLen] at *; omega
  · simp only [Within, PkgAfnData.m_nLen] at *; omega
  · have hdrop : List.drop d.m_pData.length (List.drop d.m_Tag.toBytes.length rest) =
        rest.drop (d.m_nLen + 4) := by
      rw [List.drop_drop, htag, PkgAfnData.m_nLen, Nat.add_comm]
    rw [hdrop, List.append_assoc pre]
    exact yields_pure _

theorem yields_packBase {hi : Nat} (hasTp : Bool) (TP : TimeTag) {pre rest : Bytes} {off len : Nat}
    (hoff : off = pre.length) (hlen : PkgAfnAux.baseLen hasTp ≤ len)
    (hrest : PkgAfnAux.baseLen hasTp ≤ rest.length) (hhi : off + PkgAfnAux.baseLen hasTp ≤ hi) :
    Yields (Within hi) (PkgAfnAux.packBase hasTp TP (pre ++ rest) off len)
      (pre ++ (if hasTp then TP.toBytes else []) ++ rest.drop (PkgAfnAux.baseLen hasTp)) := by
  unfold PkgAfnAux.packBase
  cases hasTp with
  | true =>
    simp only [hlen, and_self, if_true]
    exact yields_writeAt_append hoff hrest hhi
  | false =>
    simp only [Bool.false_eq_true, and_false, if_false, PkgAfnAux.baseLen, List.drop_zero, List.append_nil]
    exact yields_pure _

/-- Wherever its bytes fit below `hi`, the aux is packed as them. -/
def PkgAfnAux.Packs (P : Event → Prop) (hi : Nat) (aux : PkgAfnAux) : Prop :=
  ∀ {pre rest : Bytes} {off len : Nat}, off = pre.length → aux.getDataLen ≤ len →
    aux.getDataLen ≤ rest.length → off + aux.getDataLen ≤ hi →
    Yields P (aux.packData (pre ++ rest) off len)
      (pre ++ aux.toBytes ++ rest.drop aux.getDataLen, aux.getDataLen)

theorem yields_packAux {hi : Nat} {aux : PkgAfnAux} (h : aux.Plain) : aux.Packs (Within hi) hi := by
  intro pre rest off len hoff hlen hrest hhi
  unfold PkgAfnAux.packData
  simp only [hlen, if_true]
  cases aux with
  | up hasTp TP EC1 EC2 =>
    simp only [PkgAfnAux.getDataLen] at hlen hrest hhi
    have hec : [EC1, EC2].length = 2 := rfl
    refine (yields_writeAt_append hoff (by omega) (by simp only [Within]; omega)).bind ?_
    refine (yields_sub32 (by omega) (by simp only [Within]; omega)).bind ?_
    refine (yields_packBase hasTp TP ?_ ?_ ?_ ?_).bind ?_
    · simp only [List.length_append, hec, hoff]
    · omega
    · simp only [List.length_drop, hec]; omega
    · omega
    · rw [List.drop_drop, List.append_assoc pre]
      exact yields_pure _
  | down hasTp hasPW TP PW =>
    have hpw : hasPW = true := h
    subst hpw
    simp only [PkgAfnAux.getDataLen, if_true] at hlen hrest hhi
    have hlenPW : PW.toList.length = 16 := by simp
    refine (yields_writeAt_append hoff (by omega) (by simp only [Within]; omega)).bind ?_
    refine (yields_sub32 (by omega) (by simp only [Within]; omega)).bind ?_
    refine (yields_packBase hasTp TP ?_ ?_ ?_ ?_).bind ?_
    · simp only [List.length_append, hlenPW, hoff]
    · omega
    · simp only [List.length_drop, hlenPW]; omega
    · omega
    · rw [List.drop_drop, List.append_assoc pre, hlenPW]
      exact yields_pure _

def PlainAux (pAux : Option PkgAfnAux) : Prop := ∀ aux, pAux = some aux → aux.Plain

theorem getDataLen_eq {afn : PkgAfn} {d : PkgAfnData} (hd : afn.pAfnData = some d) :
    afn.getDataLen = d.m_nLen + (auxBytes afn.pAux).length + 6 := by
  unfold PkgAfn.getDataLen
  simp only [hd, PkgAfnData.getDataLen, PKG_AFN_HEADLEN, PKG_AFN_DATATAGLEN]
  cases h : afn.pAux with
  | none => simp only [auxBytes, List.length_nil]; omega
  | some aux => simp only [auxBytes, length_aux aux]; omega

section
variable {P : Event → Prop} {hi : Nat} (hP : ∀ e, Within hi e → P e)
include hP

theorem yields_packAfn {afn : PkgAfn} {d : PkgAfnData} {pre rest : Bytes} {off len : Nat}
    (hd : afn.pAfnData = some d) (haux : ∀ aux, afn.pAux = some aux → aux.Packs P hi) (hoff : off = pre.length)
    (hlen : afn.getDataLen ≤ len) (hrest : afn.getDataLen ≤ rest.length)
    (hhi : off + afn.getDataLen ≤ hi) :
    Yields P (afn.packData (pre ++ rest) off len)
      (pre ++ (afn.afnHeader.toBytes ++ (d.m_Tag.toBytes ++ (d.m_pData ++ auxBytes afn.pAux))) ++
        rest.drop afn.getDataLen, afn.getDataLen) := by
  have hget := getDataLen_eq hd
  have hhead : afn.afnHeader.toBytes.length = 2 := rfl
  have htag : d.m_Tag.toBytes.length = 4 := rfl
  have hn : d.m_pData.length = d.m_nLen := rfl
  unfold PkgAfn.packData
  simp only [PKG_AFN_HEADLEN, hd]
  refine (yields_sub32 (by omega) (hP _ (by simp only [Within]; omega))).bind ?_
  refine (yields_writeAt_append hoff (by omega) (hP _ (by simp only [Within, hhead]; omega))).bind ?_
  refine ((yields_packUnit d ?_ ?_ ?_ ?_).mono hP).bind ?_
  · simp only [List.length_append, hhead]; omega
  · omega
  · simp only [List.length_drop, hhead]; omega
  · omega
  cases h : afn.pAux with
  | none =>
    rw [h] at hget
    have hsum : 2 + (d.m_nLen + 4) + 0 = afn.getDataLen := by
      simp only [auxBytes, List.length_nil] at hget; omega
    have hdrop : List.drop (d.m_nLen + 4) (List.drop afn.afnHeader.toBytes.length rest) =
        rest.drop afn.getDataLen := by
      rw [List.drop_drop, hhead, show 2 + (d.m_nLen + 4) = afn.getDataLen by omega]
    refine (yields_pure _).bind ?_
    simp only [hsum]
    rw [hdrop, auxBytes, List.append_nil, List.append_assoc pre]
    exact yields_pure _
  | some aux =>
    rw [h] at hget
    simp only [auxBytes, length_aux] at hget
    have hsum : 2 + (d.m_nLen + 4) + aux.getDataLen = afn.getDataLen := by omega
    refine (haux aux h ?_ ?_ ?_ ?_).bind ?_
    · simp only [List.length_append, hhead, htag, hn]; omega
    · omega
    · simp only [List.length_drop, hhead]; omega
    · omega
    have hdrop : List.drop aux.getDataLen (List.drop (d.m_nLen + 4)
        (List.drop afn.afnHeader.toBytes.length rest)) = rest.drop afn.getDataLen := by
      rw [List.drop_drop, List.drop_drop, hhead,
        show 2 + (d.m_nLen + 4 + aux.getDataLen) = afn.getDataLen by omega]
    simp only [hsum]
    rw [hdrop]
    simp only [auxBytes, List.append_assoc]
    exact yields_pure _

/-- **A package is written as `encode`, and the rest of the buffer is kept**, if its aux is packed as its
bytes. -/
theorem yields_serialize_packs (p : AFNPackage) {d : PkgAfnData} {buf : Bytes} (hbuf : hi = buf.length)
    (hd : p.pAfn.pAfnData = some d) (haux : ∀ aux, p.pAfn.pAux = some aux → aux.Packs P hi)
    (hfit : p.pAfn.getDataLen + 14 ≤ buf.length) (hsmall : p.pAfn.getDataLen < 2 ^ 31) :
    Yields P (p.serialize buf)
      (encode p d ++ buf.drop (p.pAfn.getDataLen + 14), ((p.pAfn.getDataLen + 14 : Nat) : Int)) := by
  have hget := getDataLen_eq hd
  have hh : p.pkgHeader.toBytes.length = 6 := rfl
  have hu : p.userHeader.toBytes.length = 6 := rfl
  have ht : p.pkgTail.toBytes.length = 2 := rfl
  have ha : p.pAfn.afnHeader.toBytes.length = 2 := rfl
  have hg : d.m_Tag.toBytes.length = 4 := rfl
  have hn : d.m_pData.length = d.m_nLen := rfl
  unfold serialize
  simp only [PKG_HEADLEN, PKG_USER_HEADLEN, PKG_TAILLEN]
  refine (yields_sub32 (by omega) (hP _ (by simp only [Within]; omega))).bind ?_
  have hw : Yields P (writeAt ([] ++ buf) 0 p.pkgHeader.toBytes)
      ([] ++ p.pkgHeader.toBytes ++ buf.drop p.pkgHeader.toBytes.length) :=
    yields_writeAt_append rfl (by omega) (hP _ (by simp only [Within, hh]; omega))
  refine hw.bind ?_
  refine (yields_sub32 (by omega) (hP _ (by simp only [Within]; omega))).bind ?_
  refine (yields_writeAt_append (by simp [hh]) (by simp only [List.length_drop]; omega) (hP _ ?_)).bind ?_
  · simp only [Within]; omega
  refine (yields_packAfn hP hd haux ?_ ?_ ?_ ?_).bind ?_
  · simp only [List.length_append, List.length_nil]; omega
  · omega
  · simp only [List.length_drop]; omega
  · omega
  have hpos : ¬ toInt32 p.pAfn.getDataLen ≤ 0 := by
    rw [toInt32_of_lt hsmall]; omega
  simp only [hpos, if_false]
  refine (yields_sub32 (by omega) (hP _ (by simp only [Within]; omega))).bind ?_
  refine (yields_sub32 (by omega) (hP _ (by simp only [Within]; omega))).bind ?_
  refine (yields_writeAt_append ?_ ?_ (hP _ ?_)).bind ?_
  · simp only [List.length_append, List.length_nil, hh, hu, ha, hg, hn]; omega
  · simp only [List.length_drop]; omega
  · simp only [Within]; omega
  have hbytes : [] ++ p.pkgHeader.toBytes ++ p.userHeader.toBytes ++
      (p.pAfn.afnHeader.toBytes ++ (d.m_Tag.toBytes ++ (d.m_pData ++ auxBytes p.pAfn.pAux))) ++
      p.pkgTail.toBytes = encode p d := by
    simp only [encode, userData, List.nil_append, List.append_assoc]
  have hsum : 6 + 6 + p.pAfn.getDataLen + 2 = p.pAfn.getDataLen + 14 := by omega
  have hdrop : List.drop p.pkgTail.toBytes.length (List.drop p.pAfn.getDataLen
      (List.drop p.userHeader.toBytes.length (List.drop p.pkgHeader.toBytes.length buf))) =
      buf.drop (p.pAfn.getDataLen + 14) := by
    simp only [List.drop_drop, hh, hu, ht, hsum]
  rw [hbytes, hdrop, hsum]
  exact yields_pure _

end

theorem yields_serialize (p : AFNPackage) {d : PkgAfnData} {buf : Bytes} (hd : p.pAfn.pAfnData = some d)
    (haux : PlainAux p.pAfn.pAux) (hfit : p.pAfn.getDataLen + 14 ≤ buf.length)
    (hsmall : p.pAfn.getDataLen < 2 ^ 31) :
    Yields (Within buf.length) (p.serialize buf)
      (encode p d ++ buf.drop (p.pAfn.getDataLen + 14), ((p.pAfn.getDataLen + 14 : Nat) : Int)) :=
  yields_serialize_packs (fun _ => id) p rfl hd (fun aux h => yields_packAux (haux aux h)) hfit hsmall

/-! ## Parsing what was serialized -/

def closed (p : AFNPackage) (d : PkgAfnData) : AFNPackage :=
  { p.setL with pkgTail := { p.pkgTail with
      CS := byteSum (p.userHeader.toBytes ++ (p.pAfn.afnHeader.toBytes ++ (d.m_Tag.toBytes ++ d.m_pData))) } }

section
variable (p : AFNPackage) (d : PkgAfnData)

theorem closed_userHeader : (closed p d).userHeader = p.userHeader := rfl

theorem closed_S1 : (closed p d).pkgHeader.S1 = p.pkgHeader.S1 := rfl

theorem closed_S2 : (closed p d).pkgHeader.S2 = p.pkgHeader.S2 := rfl

theorem closed_E : (closed p d).pkgTail.E = p.pkgTail.E := by simp only [closed]

theorem closed_header : (closed p d).pkgHeader = p.setL.pkgHeader := rfl

end

theorem yields_okPkg (p : AFNPackage) {d : PkgAfnData} (hd : p.pAfn.pAfnData = some d) :
    Yields (Within d.m_nLen) p.okPkg (closed p d) := by
  have hsetL : p.setL.pAfn.pAfnData = some d := hd
  unfold okPkg createCS
  rw [hsetL]
  refine (yields_deref d).bind ?_
  refine (yields_getCS (Nat.le_refl _) _ _ _ (by simp [PkgAfnData.m_nLen])).bind ?_
  have hsum : closed p d = { p.setL with pkgTail := { p.pkgTail with
      CS := p.userHeader.C + loByte p.userHeader.A1 + hiByte p.userHeader.A1 + loByte p.userHeader.A2 +
        hiByte p.userHeader.A2 + p.userHeader.A3 + p.pAfn.afnHeader.AFN + p.pAfn.afnHeader.SEQ +
        d.m_Tag.DA1 + d.m_Tag.DA2 + d.m_Tag.DT1 + d.m_Tag.DT2 + byteSum d.m_pData } } := by
    simp only [closed, byteSum_append, PkgUserHeader.toBytes, PkgAfnHeader.toBytes, PkgAfnDataTag.toBytes,
      byteSum_cons, byteSum_nil, UInt8.add_zero, UInt8.add_assoc]
  rw [hsum, PkgAfnData.m_nLen, slice_all]
  exact yields_pure _

theorem lenAt_encode (p : AFNPackage) (d : PkgAfnData) : lenAt (encode p d) = p.pkgHeader.LEN := by
  have h₁ : byteAt (encode p d) 1 = loByte p.pkgHeader.L := rfl
  have h₂ : byteAt (encode p d) 2 = hiByte p.pkgHeader.L := rfl
  rw [lenAt, h₁, h₂, word_bytes]
  rfl

theorem closed_LEN (p : AFNPackage) (d : PkgAfnData) (h : p.pAfn.getDataLen + 6 < 16384) :
    (closed p d).pkgHeader.LEN = p.pAfn.getDataLen + 6 := by
  show lenOf (setLen p.pkgHeader.L (6 + p.pAfn.getDataLen)) = _
  rw [lenOf_setLen]
  omega

/-! The parts of a serialized package, by their offsets. -/

theorem encode_userData (p : AFNPackage) (d : PkgAfnData) :
    slice (encode p d) 6 (userData p d).length = userData p d := slice_part rfl rfl

theorem encode_header (p : AFNPackage) (d : PkgAfnData) :
    PkgHeader.ofBytes (slice (encode p d) 0 6) = p.pkgHeader := by
  have h : slice ([] ++ encode p d) 0 6 = p.pkgHeader.toBytes := slice_part rfl rfl
  rw [List.nil_append] at h
  rw [h, PkgHeader.ofBytes_toBytes]

theorem encode_tail (p : AFNPackage) (d : PkgAfnData) :
    PkgTail.ofBytes (slice (encode p d) (6 + (userData p d).length) 2) = p.pkgTail := by
  have hpart : encode p d = (p.pkgHeader.toBytes ++ userData p d) ++ (p.pkgTail.toBytes ++ []) := by
    simp only [encode, List.append_assoc, List.append_nil]
  have h : slice (encode p d) (6 + (userData p d).length) 2 = p.pkgTail.toBytes := by
    rw [hpart]
    exact slice_part (by rw [List.length_append]; rfl) rfl
  rw [h, PkgTail.ofBytes_toBytes]

theorem encode_userHeader (p : AFNPackage) (d : PkgAfnData) :
    PkgUserHeader.ofBytes (slice (encode p d) 6 6) = p.userHeader := by
  have h : slice (encode p d) 6 6 = p.userHeader.toBytes := by
    simp only [encode, userData, List.append_assoc]
    exact slice_part rfl rfl
  rw [h, PkgUserHeader.ofBytes_toBytes]

theorem encode_afnHeader (p : AFNPackage) (d : PkgAfnData) :
    PkgAfnHeader.ofBytes (slice (encode p d) 12 2) = p.pAfn.afnHeader := by
  have hpart : encode p d = (p.pkgHeader.toBytes ++ p.userHeader.toBytes) ++ (p.pAfn.afnHeader.toBytes ++
      (d.m_Tag.toBytes ++ (d.m_pData ++ (auxBytes p.pAfn.pAux ++ p.pkgTail.toBytes)))) := by
    simp only [encode, userData, List.append_assoc]
  have h : slice (encode p d) 12 2 = p.pAfn.afnHeader.toBytes := by
    rw [hpart]
    exact slice_part rfl rfl
  rw [h, PkgAfnHeader.ofBytes_toBytes]

theorem encode_unit (p : AFNPackage) (d : PkgAfnData) (hlen : (userData p d).length = p.pkgHeader.LEN) :
    unitOf (encode p d) = ⟨d.m_Tag, d.m_pData ++ auxBytes p.pAfn.pAux⟩ := by
  have hpart : encode p d = (p.pkgHeader.toBytes ++ (p.userHeader.toBytes ++ p.pAfn.afnHeader.toBytes)) ++
      (d.m_Tag.toBytes ++ (d.m_pData ++ auxBytes p.pAfn.pAux ++ p.pkgTail.toBytes)) := by
    simp only [encode, userData, List.append_assoc]
  have hpart' : encode p d =
      (p.pkgHeader.toBytes ++ (p.userHeader.toBytes ++ (p.pAfn.afnHeader.toBytes ++ d.m_Tag.toBytes))) ++
      (d.m_pData ++ auxBytes p.pAfn.pAux ++ p.pkgTail.toBytes) := by
    simp only [encode, userData, List.append_assoc]
  have htag : slice (encode p d) 14 4 = d.m_Tag.toBytes := by
    rw [hpart]
    exact slice_part rfl rfl
  have hdata : slice (encode p d) 18 (lenAt (encode p d) - 12) = d.m_pData ++ auxBytes p.pAfn.pAux := by
    have hu := length_userData p d
    rw [lenAt_encode, hpart']
    refine slice_part rfl ?_
    rw [List.length_append, ← PkgAfnData.m_nLen]
    omega
  rw [unitOf, htag, hdata, PkgAfnDataTag.ofBytes_toBytes]

theorem marked_encode (p : AFNPackage) (d : PkgAfnData) (hlen : (userData p d).length = p.pkgHeader.LEN) :
    Marked (encode p d) ↔ p.pkgHeader.S1 = 0x68 ∧ p.pkgHeader.S2 = 0x68 ∧ p.pkgTail.E = 0x16 := by
  rw [← framed_valid p]
  simp only [valid, framed, encode_header]
  rw [lenAt_encode, ← hlen, encode_tail]
  simp only [Bool.and_eq_true, beq_iff_eq, and_assoc]

theorem summed_encode (p : AFNPackage) (d : PkgAfnData) (hlen : (userData p d).length = p.pkgHeader.LEN) :
    Summed (encode p d) ↔ byteSum (userData p d) = p.pkgTail.CS := by
  have hCS : byteAt (encode p d) (lenAt (encode p d) + 6) = p.pkgTail.CS := by
    rw [← framed_CS p]
    simp only [framed]
    rw [lenAt_encode, ← hlen, encode_tail]
  rw [Summed, hCS, lenAt_encode, ← hlen, encode_userData]

theorem whole_encode (p : AFNPackage) (d : PkgAfnData) (hlen : (userData p d).length = p.pkgHeader.LEN) :
    Whole (encode p d) := by
  have hlt := lenAt_lt (encode p d)
  have hu := length_userData p d
  have hlength := length_encode p d
  rw [lenAt_encode] at hlt
  rw [whole_iff (by omega), lenAt_encode]
  omega

theorem frameOf_encode (p : AFNPackage) (d : PkgAfnData) (hlen : (userData p d).length = p.pkgHeader.LEN) :
    (frameOf (encode p d)).userHeader = p.userHeader ∧
      (frameOf (encode p d)).pAfn =
        ⟨p.pAfn.afnHeader, some ⟨d.m_Tag, d.m_pData ++ auxBytes p.pAfn.pAux⟩, none⟩ := by
  simp only [frameOf, encode_userHeader, encode_afnHeader, encode_unit p d hlen, and_self]

/-! ## Decode undoes encode -/

/-- Serialized after `okPkg`, the package is parsed from the bytes written, with all its parts. -/
def ComesBack (mem p : AFNPackage) (buf : Bytes) : Prop :=
  ∃ (p' : AFNPackage) (b : Bytes) (n : Nat) (q : AFNPackage), p.okPkg.out = .ok p' ∧
    (p'.serialize buf).out = .ok (b, (n : Int)) ∧
    ((construct mem).parseProto (b.take n)).out = .ok (YQER_OK, n, q) ∧
    q.userHeader = p.userHeader ∧ q.pAfn = p.pAfn

section
variable (mem : AFNPackage) {p : AFNPackage} {d : PkgAfnData} {buf : Bytes}

theorem length_userData_closed (hd : p.pAfn.pAfnData = some d)
    (hlen : p.pAfn.getDataLen + 6 < 16384) :
    (userData (closed p d) d).length = (closed p d).pkgHeader.LEN := by
  have h₁ : (userData (closed p d) d).length = d.m_nLen + (auxBytes p.pAfn.pAux).length + 12 :=
    length_userData (closed p d) d
  have h₂ := getDataLen_eq hd
  rw [closed_LEN p d hlen]
  omega

theorem serialize_closed (hd : p.pAfn.pAfnData = some d) (haux : PlainAux p.pAfn.pAux)
    (hlen : p.pAfn.getDataLen + 6 < 16384) (hbuf : p.pAfn.getDataLen + 14 ≤ buf.length) :
    ∃ b, ((closed p d).serialize buf).out = .ok (b, ((p.pAfn.getDataLen + 14 : Nat) : Int)) ∧
      b.take (p.pAfn.getDataLen + 14) = encode (closed p d) d := by
  have hs : Yields (Within buf.length) ((closed p d).serialize buf)
      (encode (closed p d) d ++ buf.drop (p.pAfn.getDataLen + 14), ((p.pAfn.getDataLen + 14 : Nat) : Int)) :=
    yields_serialize (closed p d) hd haux hbuf (by show p.pAfn.getDataLen < _; omega)
  have hl : (encode (closed p d) d).length = p.pAfn.getDataLen + 14 := by
    rw [length_encode, length_userData_closed hd hlen, closed_LEN p d hlen]
  refine ⟨_, hs.out, ?_⟩
  rw [← hl, List.take_left]

theorem lenAt_closed (p : AFNPackage) (d : PkgAfnData) (hlen : p.pAfn.getDataLen + 6 < 16384) :
    lenAt (encode (closed p d) d) = p.pAfn.getDataLen + 6 := by
  rw [lenAt_encode, closed_LEN p d hlen]

theorem setL_getFrameL (p : AFNPackage) (d : PkgAfnData) (hlen : p.pAfn.getDataLen + 6 < 16384) :
    p.setL.getFrameL = p.pAfn.getDataLen + 14 := by
  have h : p.setL.getFrameL = PKG_HEADLEN + (closed p d).pkgHeader.LEN + PKG_TAILLEN := rfl
  rw [h, closed_LEN p d hlen]
  simp only [PKG_HEADLEN, PKG_TAILLEN]
  omega

theorem marked_closed {p : AFNPackage} {d : PkgAfnData}
    (hud : (userData (closed p d) d).length = (closed p d).pkgHeader.LEN) :
    Marked (encode (closed p d) d) ↔ p.pkgHeader.S1 = 0x68 ∧ p.pkgHeader.S2 = 0x68 ∧ p.pkgTail.E = 0x16 := by
  rw [marked_encode _ _ hud, closed_S1, closed_S2, closed_E]

section
variable (hd : p.pAfn.pAfnData = some d) (haux : PlainAux p.pAfn.pAux)
  (hlen : p.pAfn.getDataLen + 6 < 16384) (hbuf : p.pAfn.getDataLen + 14 ≤ buf.length)
include hd haux hlen hbuf

theorem ComesBack.none {mem : AFNPackage} (h : ComesBack mem p buf) :
    p.pAfn.pAux = none ∧ p.pkgHeader.S1 = 0x68 ∧ p.pkgHeader.S2 = 0x68 ∧ p.pkgTail.E = 0x16 := by
  obtain ⟨p', b', n, q, hok, hser, hparse, -, hq⟩ := h
  obtain ⟨b, hb, htake⟩ := serialize_closed hd haux hlen hbuf
  have hud := length_userData_closed hd hlen
  have hp' : p' = closed p d := by
    rw [(yields_okPkg p hd).out] at hok
    exact (Except.ok.inj hok).symm
  rw [hp', hb] at hser
  simp only [Except.ok.injEq, Prod.mk.injEq, Int.natCast_inj] at hser
  obtain ⟨rfl, rfl⟩ := hser
  have h12 : 12 ≤ lenAt (encode (closed p d) d) := by
    have := getDataLen_eq hd
    rw [lenAt_closed p d hlen]
    omega
  rw [htake] at hparse
  obtain ⟨hc, -, rfl⟩ := parse_ok_inv h12 hparse
  refine ⟨?_, (marked_closed hud).mp hc.marked⟩
  rw [← hq, (frameOf_encode (closed p d) d hud).2]

omit haux hbuf in
theorem parse_closed (hnone : p.pAfn.pAux = none)
    (hm : p.pkgHeader.S1 = 0x68 ∧ p.pkgHeader.S2 = 0x68 ∧ p.pkgTail.E = 0x16) :
    ((construct mem).parseProto (encode (closed p d) d)).out =
        .ok (YQER_OK, p.pAfn.getDataLen + 14, frameOf (encode (closed p d) d)) ∧
      (frameOf (encode (closed p d) d)).userHeader = p.userHeader ∧
      (frameOf (encode (closed p d) d)).pAfn = p.pAfn := by
  have hud := length_userData_closed hd hlen
  obtain ⟨huser, hafn⟩ := frameOf_encode (closed p d) d hud
  have hsum : Summed (encode (closed p d) d) := by
    rw [summed_encode (closed p d) d hud]
    have hbody : userData (closed p d) d = p.userHeader.toBytes ++ (p.pAfn.afnHeader.toBytes ++
        (d.m_Tag.toBytes ++ (d.m_pData ++ auxBytes p.pAfn.pAux))) := rfl
    rw [hbody, hnone, auxBytes, List.append_nil]
    rfl
  have hc : Checked (encode (closed p d) d) :=
    ⟨whole_encode _ _ hud, (marked_closed hud).mpr hm, hsum⟩
  have h12 : 12 ≤ lenAt (encode (closed p d) d) := by
    have := getDataLen_eq hd
    rw [lenAt_closed p d hlen]
    omega
  have hp := (parse_ok mem hc h12).out
  rw [lenAt_closed p d hlen] at hp
  rw [closed_userHeader] at huser
  refine ⟨hp, huser, ?_⟩
  have hafn' : (closed p d).pAfn = p.pAfn := rfl
  have hparts : p.pAfn = ⟨p.pAfn.afnHeader, p.pAfn.pAfnData, p.pAfn.pAux⟩ := rfl
  rw [hafn, hafn', hnone, auxBytes, List.append_nil, hparts, hd, hnone]

theorem comesBack_of_none (hnone : p.pAfn.pAux = none)
    (hm : p.pkgHeader.S1 = 0x68 ∧ p.pkgHeader.S2 = 0x68 ∧ p.pkgTail.E = 0x16) : ComesBack mem p buf := by
  obtain ⟨b, hb, htake⟩ := serialize_closed hd haux hlen hbuf
  obtain ⟨hp, huser, hafn⟩ := parse_closed mem hd hlen hnone hm
  exact ⟨closed p d, b, _, _, (yields_okPkg p hd).out, hb, by rw [htake]; exact hp, huser, hafn⟩

end

/-- **Decode undoes encode exactly for the packages without additional information** (whose markers
are the ones the constructor sets). -/
theorem comesBack_iff (hd : p.pAfn.pAfnData = some d) (haux : PlainAux p.pAfn.pAux)
    (hlen : PKG_USER_HEADLEN + p.pAfn.getDataLen < 2 ^ 14) (hbuf : p.setL.getFrameL ≤ buf.length) :
    ComesBack mem p buf ↔
      p.pAfn.pAux = none ∧ p.pkgHeader.S1 = 0x68 ∧ p.pkgHeader.S2 = 0x68 ∧ p.pkgTail.E = 0x16 := by
  have hlen' : p.pAfn.getDataLen + 6 < 16384 := by simp only [PKG_USER_HEADLEN] at hlen; omega
  have hbuf' : p.pAfn.getDataLen + 14 ≤ buf.length := by rw [← setL_getFrameL p d hlen']; exact hbuf
  constructor
  · exact ComesBack.none hd haux hlen' hbuf'
  · rintro ⟨hnone, hm⟩
    exact comesBack_of_none mem hd haux hlen' hbuf' hnone hm

end

def clockRequest : AFNPackage :=
  { construct zeros with pAfn := AFN0C.create zeros.pAfn ⟨0, 0, 0, 0⟩ 0 2 }

def confirmation : AFNPackage :=
  { construct zeros with pAfn := ⟨⟨0, 0x60⟩, some ⟨⟨0, 0, 1, 0⟩, []⟩, none⟩ }

theorem comesBack_iff_confirmation :
    ComesBack zeros confirmation (List.replicate 20 0) ↔ confirmation.pAfn.pAux = none ∧
      confirmation.pkgHeader.S1 = 0x68 ∧ confirmation.pkgHeader.S2 = 0x68 ∧ confirmation.pkgTail.E = 0x16 :=
  comesBack_iff zeros rfl (fun _ h => nomatch h) (by decide) (by decide)

theorem clockRequest_lost : ¬ ComesBack zeros clockRequest (List.replicate 36 0) := by
  intro h
  have hplain : PlainAux clockRequest.pAfn.pAux := by
    intro aux haux
    cases haux
    rfl
  have hnone := (ComesBack.none (d := ⟨⟨0, 0, 2, 0⟩, []⟩) rfl hplain (by decide) (by decide) h).1
  cases hnone

/-! ## Encode undoes decode -/

theorem encode_frameOf {data : Bytes} (hle : lenAt data + 8 ≤ data.length) (h12 : 12 ≤ lenAt data) :
    encode (frameOf data) (unitOf data) = data.take (lenAt data + 8) := by
  have hpre : data.take (lenAt data + 8) = slice data 0 (lenAt data + 8) := by simp [slice]
  have hsplit : slice data 0 (lenAt data + 8) =
      slice data 0 6 ++ (slice data 6 6 ++ (slice data 12 2 ++ (slice data 14 4 ++
        (slice data 18 (lenAt data - 12) ++ slice data (6 + lenAt data) 2)))) := by
    rw [show lenAt data + 8 = 6 + (6 + (2 + (4 + ((lenAt data - 12) + 2)))) by omega]
    simp only [slice_add, Nat.zero_add, Nat.reduceAdd]
    rw [show 18 + (lenAt data - 12) = 6 + lenAt data by omega]
  rw [hpre, hsplit]
  simp only [encode, userData, frameOf, unitOf, auxBytes, List.append_nil, List.append_assoc]
  rw [PkgHeader.toBytes_ofBytes (length_slice_of_le (by omega)),
    PkgUserHeader.toBytes_ofBytes (length_slice_of_le (by omega)),
    PkgAfnHeader.toBytes_ofBytes (length_slice_of_le (by omega)),
    PkgAfnDataTag.toBytes_ofBytes (length_slice_of_le (by omega)),
    PkgTail.toBytes_ofBytes (length_slice_of_le (by omega))]

/-- **Encode undoes decode.** Serializing a parsed frame writes the bytes it was parsed from. -/
theorem serialize_parsed {mem q : AFNPackage} {data buf : Bytes} {e : Nat} (h12 : 12 ≤ lenAt data)
    (h : ((construct mem).parseProto data).out = .ok (YQER_OK, e, q)) (hcap : e ≤ buf.length) :
    Yields (Within buf.length) (q.serialize buf) (data.take e ++ buf.drop e, (e : Int)) := by
  obtain ⟨hc, rfl, rfl⟩ := parse_ok_inv h12 h
  have hle := hc.whole.le_length
  have hlt := lenAt_lt data
  have hd : (frameOf data).pAfn.pAfnData = some (unitOf data) := rfl
  have haux : PlainAux (frameOf data).pAfn.pAux := fun aux haux => nomatch haux
  have hget : (frameOf data).pAfn.getDataLen + 14 = lenAt data + 8 := by
    have hnone : (auxBytes (frameOf data).pAfn.pAux).length = 0 := rfl
    have hn : (unitOf data).m_nLen = lenAt data - 12 := length_slice_of_le (by omega)
    rw [getDataLen_eq hd, hnone, hn]
    omega
  have hs : Yields (Within buf.length) ((frameOf data).serialize buf)
      (encode (frameOf data) (unitOf data) ++ buf.drop ((frameOf data).pAfn.getDataLen + 14),
        (((frameOf data).pAfn.getDataLen + 14 : Nat) : Int)) :=
    yields_serialize (frameOf data) hd haux (by omega) (by omega)
  rw [hget, encode_frameOf hle h12] at hs
  exact hs

-- the login of a concentrator, from the comment at the head of `proto.h`
def login : Bytes :=
  [0x68, 0x32, 0, 0x32, 0, 0x68, 0xc9, 0, 0x10, 0x4d, 0x04, 0, 0x02, 0x75, 0, 0, 0x01, 0, 0xa2, 0x16]

theorem serialize_parsed_login :
    12 ≤ lenAt login ∧
    ((construct zeros).parseProto login).out = .ok (YQER_OK, 20, frameOf login) ∧
    Yields (Within 20) ((frameOf login).serialize (List.replicate 20 0))
      (login.take 20 ++ (List.replicate 20 0).drop 20, ((20 : Nat) : Int)) := by
  have h12 : 12 ≤ lenAt login := by decide
  have h : ((construct zeros).parseProto login).out = .ok (YQER_OK, 20, frameOf login) := by rfl
  exact ⟨h12, h, serialize_parsed h12 h (by decide)⟩

end Afn
