import Afn.Package

/-!
# What the parser does with each buffer

`ParseProto` decides on the length field, the markers and the checksum. A buffer that passes all
three is a frame, and is parsed when its user data is long enough for a data unit identifier
(`parse_ok`); a shorter one makes the parser fault (`parse_null`, `parse_wild`).
-/

namespace Afn

open Bytes Access AFNPackage

/-! ## The tests of the parser, on the bytes -/

def lenAt (data : Bytes) : Nat := lenOf (word (byteAt data 1) (byteAt data 2))

def Whole (data : Bytes) : Prop :=
  14 ≤ data.length ∧ ((lenAt data + 8 : Nat) : Int) ≤ toInt32 data.length

def Marked (data : Bytes) : Prop :=
  byteAt data 0 = 0x68 ∧ byteAt data 5 = 0x68 ∧ byteAt data (lenAt data + 7) = 0x16

def Summed (data : Bytes) : Prop :=
  byteSum (slice data 6 (lenAt data)) = byteAt data (lenAt data + 6)

instance (data : Bytes) : Decidable (Whole data) := inferInstanceAs (Decidable (_ ∧ _))
instance (data : Bytes) : Decidable (Marked data) := inferInstanceAs (Decidable (_ ∧ _ ∧ _))
instance (data : Bytes) : Decidable (Summed data) := inferInstanceAs (Decidable (_ = _))

theorem lenAt_lt (data : Bytes) : lenAt data < 16384 := by
  unfold lenAt lenOf field; omega

theorem Whole.le_length {data : Bytes} (h : Whole data) : lenAt data + 8 ≤ data.length := by
  have h₁ := h.2
  have h₂ := toInt32_le data.length
  omega

theorem Whole.lt {data : Bytes} (h : Whole data) (h32 : data.length < 2 ^ 32) : data.length < 2 ^ 31 := by
  refine Nat.lt_of_not_le fun hge => ?_
  have h₁ := h.2
  have h₂ := toInt32_neg hge h32
  omega

theorem whole_iff {data : Bytes} (h : data.length < 2 ^ 31) :
    Whole data ↔ 14 ≤ data.length ∧ lenAt data + 8 ≤ data.length := by
  unfold Whole
  rw [toInt32_of_lt h]
  omega

/-! ## The pieces of a frame -/

def unitOf (data : Bytes) : PkgAfnData :=
  ⟨.ofBytes (slice data 14 4), slice data 18 (lenAt data - 12)⟩

def frameOf (data : Bytes) : AFNPackage where
  pkgHeader := .ofBytes (slice data 0 6)
  userHeader := .ofBytes (slice data 6 6)
  pAfn := ⟨.ofBytes (slice data 12 2), some (unitOf data), none⟩
  pkgTail := .ofBytes (slice data (6 + lenAt data) 2)
  Fn := getFn (unitOf data).m_Tag.DT1 (unitOf data).m_Tag.DT2
  pn := getpn (unitOf data).m_Tag.DA1 (unitOf data).m_Tag.DA2

theorem len_ofBytes (data : Bytes) :
    (PkgHeader.ofBytes (slice data 0 6)).LEN = lenAt data := by
  simp only [PkgHeader.LEN, PkgHeader.ofBytes, lenAt]
  rw [byteAt_slice (by omega), byteAt_slice (by omega)]

theorem yields_getCS {hi : Nat} {buf : Bytes} (hb : hi ≤ buf.length) :
    ∀ (len off : Nat) (cs : UInt8), off + len ≤ hi →
      Yields (Within hi) (getCS buf off len cs) (cs + byteSum (slice buf off len))
  | 0, off, cs, _ => by
    rw [slice_zero, byteSum_nil, UInt8.add_zero]
    exact yields_pure cs
  | len + 1, off, cs, h => by
    have hread : Yields (Within hi) (readAt buf off 1) (slice buf off 1) :=
      yields_readAt (by omega) (by simp only [Within]; omega)
    refine hread.bind ?_
    have hbyte : byteAt (slice buf off 1) 0 = byteAt buf off := byteAt_slice (by omega)
    rw [hbyte, slice_succ (by omega), byteSum_cons, ← UInt8.add_assoc]
    exact yields_getCS hb len (off + 1) (cs + byteAt buf off) (by omega)

theorem yields_unPackUnit {hi : Nat} {data : Bytes} {off len : Nat} (hb : hi ≤ data.length)
    (h : off + len ≤ hi) (hlen : 4 ≤ len) :
    Yields (Within hi) (PkgAfnData.unPackData data off len)
      ⟨.ofBytes (slice data off 4), slice data (off + 4) (len - 4)⟩ := by
  unfold PkgAfnData.unPackData
  simp only [PKG_AFN_DATATAGLEN, hlen, if_true]
  refine (yields_readAt (by omega) (by simp only [Within]; omega)).bind ?_
  refine (yields_sub32 hlen hlen).bind ?_
  by_cases h0 : 0 < len - 4
  · simp only [h0, if_true]
    refine (yields_readAt (by omega) (by simp only [Within]; omega)).bind ?_
    exact yields_pure _
  · simp only [h0, if_false]
    rw [show len - 4 = 0 by omega, slice_zero]
    exact yields_pure _

theorem yields_unPackData {hi : Nat} {data : Bytes} {off len : Nat} (afn : PkgAfn) (hb : hi ≤ data.length)
    (h : off + len ≤ hi) (hlen : 6 ≤ len) :
    Yields (Within hi) (afn.unPackData data off len)
      ⟨.ofBytes (slice data off 2),
        some ⟨.ofBytes (slice data (off + 2) 4), slice data (off + 6) (len - 6)⟩, afn.pAux⟩ := by
  unfold PkgAfn.unPackData
  simp only [PKG_AFN_HEADLEN, PKG_AFN_DATATAGLEN, show 2 ≤ len by omega, if_true]
  refine (yields_readAt (by omega) (by simp only [Within]; omega)).bind ?_
  refine (yields_sub32 (by omega) (by simp only [Within]; omega)).bind ?_
  simp only [show 4 ≤ len - 2 by omega, if_true]
  have hu : Yields (Within hi) (PkgAfnData.unPackData data (off + 2) (len - 2))
      ⟨.ofBytes (slice data (off + 2) 4), slice data (off + 2 + 4) (len - 2 - 4)⟩ :=
    yields_unPackUnit hb (by omega) (by omega)
  rw [show len - 2 - 4 = len - 6 by omega] at hu
  exact hu.bind (yields_pure _)

theorem fails_unPackData {data : Bytes} {off len : Nat} (afn : PkgAfn) (h : off + 2 ≤ data.length)
    (hlen : 6 < len) (hout : data.length < off + len) :
    Fails (afn.unPackData data off len) .outOfBounds := by
  unfold PkgAfn.unPackData
  simp only [PKG_AFN_HEADLEN, PKG_AFN_DATATAGLEN, show 2 ≤ len by omega, if_true]
  have hread : Yields (fun _ => True) (readAt data off 2) (slice data off 2) := yields_readAt h trivial
  have hsub : Yields (fun _ => True) (sub32 len 2) (len - 2) := yields_sub32 (by omega) trivial
  refine hread.bind_fails (hsub.bind_fails ?_)
  simp only [show 4 ≤ len - 2 by omega, if_true]
  refine Fails.bind ?_ _
  unfold PkgAfnData.unPackData
  simp only [PKG_AFN_DATATAGLEN, show 4 ≤ len - 2 by omega, if_true]
  by_cases h6 : off + 2 + 4 ≤ data.length
  · have hread : Yields (fun _ => True) (readAt data (off + 2) 4) (slice data (off + 2) 4) :=
      yields_readAt h6 trivial
    have hsub : Yields (fun _ => True) (sub32 (len - 2) 4) (len - 2 - 4) :=
      yields_sub32 (by omega) trivial
    refine hread.bind_fails (hsub.bind_fails ?_)
    simp only [show 0 < len - 2 - 4 by omega, if_true]
    exact (fails_readAt (by omega)).bind _
  · exact (fails_readAt (by omega)).bind _

/-! ## The user data -/

section
variable {data : Bytes} (self : AFNPackage) (hL : self.pkgHeader.LEN = lenAt data)
include hL

theorem yields_parseUserData (hlen : lenAt data + 8 ≤ data.length) (h12 : 12 ≤ lenAt data)
    (haux : self.pAfn.pAux = none) :
    Yields (Within (lenAt data + 8)) (self.parseUserData data)
      { frameOf data with pkgHeader := self.pkgHeader, pkgTail := self.pkgTail } := by
  have hlt := lenAt_lt data
  unfold parseUserData
  simp only [PKG_HEADLEN, PKG_USER_HEADLEN, hL]
  refine (yields_readAt (by omega) (by simp only [Within]; omega)).bind ?_
  refine (yields_sub32 (by omega) (by simp only [Within]; omega)).bind ?_
  refine (yields_unPackData self.pAfn hlen (by omega) (by omega)).bind ?_
  refine (yields_deref _).bind ?_
  rw [haux, show lenAt data - 6 - 6 = lenAt data - 12 by omega]
  exact yields_pure _

theorem fails_parseUserData_null (h6 : 6 ≤ lenAt data) (h12 : lenAt data < 12)
    (hdata : self.pAfn.pAfnData = none) (h14 : 14 ≤ data.length) :
    Fails (self.parseUserData data) .null := by
  unfold parseUserData
  simp only [PKG_HEADLEN, PKG_USER_HEADLEN, hL]
  have hread : Yields (fun _ => True) (readAt data 6 6) (slice data 6 6) :=
    yields_readAt (by omega) trivial
  have hsub : Yields (fun _ => True) (sub32 (lenAt data) 6) (lenAt data - 6) := yields_sub32 h6 trivial
  refine hread.bind_fails (hsub.bind_fails ?_)
  have hun : ∃ afn : PkgAfn, afn.pAfnData = none ∧
      Yields (fun _ => True) (self.pAfn.unPackData data (6 + 6) (lenAt data - 6)) afn := by
    unfold PkgAfn.unPackData
    simp only [PKG_AFN_HEADLEN, PKG_AFN_DATATAGLEN]
    by_cases h8 : 2 ≤ lenAt data - 6
    · simp only [h8, if_true]
      refine ⟨{ self.pAfn with afnHeader := .ofBytes (slice data 12 2) }, hdata, ?_⟩
      refine (yields_readAt (by omega) trivial).bind ((yields_sub32 h8 trivial).bind ?_)
      simp only [show ¬ 4 ≤ lenAt data - 6 - 2 by omega, if_false]
      exact yields_pure _
    · simp only [h8, if_false]
      exact ⟨self.pAfn, hdata, yields_pure _⟩
  obtain ⟨afn, hnone, hun⟩ := hun
  refine hun.bind_fails ?_
  rw [hnone]
  exact fails_deref.bind _

/-- With a length below the user header's the subtraction wraps, and the parser reads about
`2 ^ 32` bytes. -/
theorem fails_parseUserData_wild (h6 : lenAt data < 6) (h14 : 14 ≤ data.length)
    (h31 : data.length < 2 ^ 31) : Fails (self.parseUserData data) .outOfBounds := by
  unfold parseUserData
  simp only [PKG_HEADLEN, PKG_USER_HEADLEN, hL]
  have hread : Yields (fun _ => True) (readAt data 6 6) (slice data 6 6) :=
    yields_readAt (by omega) trivial
  have hsub : Yields (fun _ => True) (sub32 (lenAt data) 6) (lenAt data + 2 ^ 32 - 6) :=
    yields_sub32_wrap h6 trivial
  refine hread.bind_fails (hsub.bind_fails (Fails.bind ?_ _))
  exact fails_unPackData _ (by omega) (by omega) (by omega)

end

/-! ## The parser -/

def InFrame (data : Bytes) : Event → Prop := Within (min data.length (lenAt data + 8))

section
variable (mem : AFNPackage) {data : Bytes}

theorem parse_wait (h : ¬ Whole data) :
    ∃ p, Yields (InFrame data) ((construct mem).parseProto data) (YQER_PKG_Err 1, 0, p) := by
  unfold parseProto
  simp only [PKG_HEADLEN, PKG_USER_HEADLEN, PKG_TAILLEN]
  by_cases h14 : data.length < 6 + 6 + 2
  · simp only [h14, if_true]
    exact ⟨_, yields_pure _⟩
  · simp only [h14, if_false]
    have hint : toInt32 data.length < ((lenAt data + 6 + 2 : Nat) : Int) := by
      have : ¬ ((lenAt data + 8 : Nat) : Int) ≤ toInt32 data.length := fun hl => h ⟨by omega, hl⟩
      omega
    have hread : Yields (InFrame data) (readAt data 0 6) (slice data 0 6) :=
      yields_readAt (by omega) (by simp only [InFrame, Within]; omega)
    refine ⟨{ construct mem with pkgHeader := .ofBytes (slice data 0 6) }, hread.bind ?_⟩
    simp only [len_ofBytes, hint, if_true]
    exact yields_pure _

def framed (mem : AFNPackage) (data : Bytes) : AFNPackage :=
  { construct mem with
    pkgHeader := .ofBytes (slice data 0 6)
    pkgTail := .ofBytes (slice data (6 + lenAt data) 2) }

theorem framed_len : (framed mem data).pkgHeader.LEN = lenAt data := len_ofBytes data

theorem framed_getFrameL : (framed mem data).getFrameL = lenAt data + 8 := by
  simp only [getFrameL, framed_len, PKG_HEADLEN, PKG_TAILLEN]; omega

theorem framed_valid : (framed mem data).valid = true ↔ Marked data := by
  simp only [valid, framed, PkgHeader.ofBytes, PkgTail.ofBytes, Marked, Bool.and_eq_true, beq_iff_eq]
  rw [byteAt_slice (by omega), byteAt_slice (by omega), byteAt_slice (by omega),
    show 6 + lenAt data + 1 = lenAt data + 7 by omega]
  exact ⟨fun ⟨⟨h₁, h₂⟩, h₃⟩ => ⟨h₁, h₂, h₃⟩, fun ⟨h₁, h₂, h₃⟩ => ⟨⟨h₁, h₂⟩, h₃⟩⟩

theorem framed_CS : (framed mem data).pkgTail.CS = byteAt data (lenAt data + 6) := by
  simp only [framed, PkgTail.ofBytes]
  rw [byteAt_slice (by omega), show 6 + lenAt data + 0 = lenAt data + 6 by omega]

theorem parse_whole (h : Whole data) :
    (construct mem).parseProto data = (do
      let _ ← readAt data 0 6
      let _ ← readAt data (6 + lenAt data) 2
      (framed mem data).parseChecked data) := by
  have hle := h.le_length
  have h14 : ¬ data.length < 6 + 6 + 2 := by have := h.1; omega
  have hint : ¬ toInt32 data.length < ((lenAt data + 6 + 2 : Nat) : Int) := by have := h.2; omega
  have hhead : Yields (fun _ => True) (readAt data 0 6) (slice data 0 6) := yields_readAt (by omega) trivial
  have htail : Yields (fun _ => True) (readAt data (6 + lenAt data) 2) (slice data (6 + lenAt data) 2) :=
    yields_readAt (by omega) trivial
  unfold parseProto
  simp only [PKG_HEADLEN, PKG_USER_HEADLEN, PKG_TAILLEN, h14, if_false]
  refine hhead.bind_congr ?_
  simp only [len_ofBytes, hint, if_false]
  exact htail.bind_congr rfl

theorem yields_of_checked (h : Whole data) {r : Int × Nat × AFNPackage}
    (hr : Yields (InFrame data) ((framed mem data).parseChecked data) r) :
    Yields (InFrame data) ((construct mem).parseProto data) r := by
  have hle := h.le_length
  rw [parse_whole mem h]
  refine (yields_readAt (by omega) ?_).bind ((yields_readAt (by omega) ?_).bind hr)
  · simp only [InFrame, Within]; omega
  · simp only [InFrame, Within]; omega

theorem fails_of_checked (h : Whole data) {e : Fault}
    (he : Fails ((framed mem data).parseChecked data) e) :
    Fails ((construct mem).parseProto data) e := by
  have hle := h.le_length
  rw [parse_whole mem h]
  have hhead : Yields (fun _ => True) (readAt data 0 6) (slice data 0 6) := yields_readAt (by omega) trivial
  have htail : Yields (fun _ => True) (readAt data (6 + lenAt data) 2) (slice data (6 + lenAt data) 2) :=
    yields_readAt (by omega) trivial
  exact hhead.bind_fails (htail.bind_fails he)

theorem parse_mark (h : Whole data) (hm : ¬ Marked data) :
    Yields (InFrame data) ((construct mem).parseProto data)
      (YQER_PKG_Err 2, lenAt data + 8, framed mem data) := by
  refine yields_of_checked mem h ?_
  have hv : (framed mem data).valid = false := by
    rw [← Bool.not_eq_true, framed_valid]; exact hm
  unfold parseChecked
  simp only [hv, if_true, framed_getFrameL]
  exact yields_pure _

theorem yields_sum (h : Whole data) :
    Yields (InFrame data) (getCS data 6 (lenAt data) 0) (byteSum (slice data 6 (lenAt data))) := by
  have hle := h.le_length
  have hcs := yields_getCS (Nat.min_le_left data.length (lenAt data + 8)) (lenAt data) 6 0 (by omega)
  rw [UInt8.zero_add] at hcs
  exact hcs

theorem parse_sum (h : Whole data) (hm : Marked data) (hs : ¬ Summed data) :
    Yields (InFrame data) ((construct mem).parseProto data)
      (YQER_PKG_Err 4, lenAt data + 8, framed mem data) := by
  refine yields_of_checked mem h ?_
  have hv : (framed mem data).valid = true := (framed_valid mem).mpr hm
  have hne : byteSum (slice data 6 (lenAt data)) ≠ (framed mem data).pkgTail.CS := by
    rw [framed_CS]; exact hs
  unfold parseChecked
  simp only [hv, Bool.true_eq_false, if_false, framed_len, framed_getFrameL, PKG_HEADLEN]
  refine (yields_sum h).bind ?_
  simp only [ne_eq, hne, not_false_eq_true, if_true]
  exact yields_pure _

/-- A buffer passes the parser's checks: it starts with a whole frame with its markers and its sum. -/
structure Checked (data : Bytes) : Prop where
  whole : Whole data
  marked : Marked data
  summed : Summed data

theorem parseChecked_eq (h : Checked data) :
    (framed mem data).parseChecked data = (do
      let _ ← getCS data 6 (lenAt data) 0
      let p ← (framed mem data).parseUserData data
      return (YQER_OK, lenAt data + 8, p)) := by
  have hv : (framed mem data).valid = true := (framed_valid mem).mpr h.marked
  have hcs : ¬ byteSum (slice data 6 (lenAt data)) ≠ (framed mem data).pkgTail.CS := by
    rw [framed_CS]; exact fun hne => hne h.summed
  unfold parseChecked
  simp only [hv, Bool.true_eq_false, if_false, framed_len, framed_getFrameL, PKG_HEADLEN]
  refine (yields_sum h.whole).bind_congr ?_
  simp only [hcs, if_false]

/-- **A checked buffer with room for a data unit identifier is parsed as a frame.** -/
theorem parse_ok (h : Checked data) (h12 : 12 ≤ lenAt data) :
    Yields (InFrame data) ((construct mem).parseProto data) (YQER_OK, lenAt data + 8, frameOf data) := by
  have hle := h.whole.le_length
  refine yields_of_checked mem h.whole ?_
  rw [parseChecked_eq mem h]
  have huser := yields_parseUserData (framed mem data) (framed_len mem) hle h12 rfl
  have hin : Yields (InFrame data) ((framed mem data).parseUserData data) (frameOf data) := by
    unfold InFrame
    rw [Nat.min_eq_right hle]
    exact huser
  exact (yields_sum h.whole).bind (hin.bind (yields_pure _))

/-- **A checked buffer without that room makes the parser fault.** -/
theorem parse_fault (h : Checked data) (h12 : lenAt data < 12) (h32 : data.length < 2 ^ 32) :
    ∃ e, Fails ((construct mem).parseProto data) e := by
  have h14 := h.whole.1
  have h31 := h.whole.lt h32
  have huser : ∃ e, Fails ((framed mem data).parseUserData data) e := by
    by_cases h6 : 6 ≤ lenAt data
    · exact ⟨_, fails_parseUserData_null _ (framed_len mem) h6 h12 rfl h14⟩
    · exact ⟨_, fails_parseUserData_wild _ (framed_len mem) (by omega) h14 h31⟩
  obtain ⟨e, he⟩ := huser
  refine ⟨e, fails_of_checked mem h.whole ?_⟩
  rw [parseChecked_eq mem h]
  exact (yields_sum h.whole).bind_fails (he.bind _)

end

/-- An accepted frame is a checked one, and the package is the one it describes. -/
theorem parse_ok_inv {mem : AFNPackage} {data : Bytes} {e : Nat} {q : AFNPackage}
    (h12 : 12 ≤ lenAt data) (h : ((construct mem).parseProto data).out = .ok (YQER_OK, e, q)) :
    Checked data ∧ e = lenAt data + 8 ∧ q = frameOf data := by
  have code : ∀ {c : Int} {e' : Nat} {q' : AFNPackage},
      Yields (InFrame data) ((construct mem).parseProto data) (c, e', q') →
      c = YQER_OK ∧ e = e' ∧ q = q' := by
    intro c e' q' hy
    have := hy.out
    rw [h] at this
    simp only [Except.ok.injEq, Prod.mk.injEq] at this
    exact ⟨this.1.symm, this.2.1, this.2.2⟩
  by_cases hw : Whole data
  · by_cases hm : Marked data
    · by_cases hs : Summed data
      · have hc : Checked data := ⟨hw, hm, hs⟩
        exact ⟨hc, (code (parse_ok mem hc h12)).2⟩
      · exact absurd (code (parse_sum mem hw hm hs)).1 (by decide)
    · exact absurd (code (parse_mark mem hw hm)).1 (by decide)
  · obtain ⟨q', hy⟩ := parse_wait mem hw
    exact absurd (code hy).1 (by decide)

/-! ## The grammar of frames -/

def zeros : AFNPackage :=
  ⟨⟨0, 0, 0, 0⟩, ⟨0, 0, 0, 0⟩, ⟨⟨0, 0⟩, none, none⟩, ⟨0, 0⟩, 0, 0⟩

/-- The frame layout at the head of `proto.h`: the markers, both length fields, and the sum of the user
data. -/
structure Grammar (data : Bytes) : Prop where
  start : byteAt data 0 = 0x68
  start₂ : byteAt data 5 = 0x68
  lengths : word (byteAt data 1) (byteAt data 2) = word (byteAt data 3) (byteAt data 4)
  stop : byteAt data (lenAt data + 7) = 0x16
  sum : byteAt data (lenAt data + 6) = byteSum (slice data 6 (lenAt data))

/-- The parser accepts `data` if and only if the grammar does, and eats the frame then. -/
def AcceptsGrammar (mem : AFNPackage) (data : Bytes) : Prop :=
  ((∃ e q, ((construct mem).parseProto data).out = .ok (YQER_OK, e, q)) ↔ Grammar data) ∧
    ∀ e q, ((construct mem).parseProto data).out = .ok (YQER_OK, e, q) → e = lenAt data + 8

def SameLengths (data : Bytes) : Prop :=
  word (byteAt data 1) (byteAt data 2) = word (byteAt data 3) (byteAt data 4)

theorem grammar_iff (data : Bytes) : Grammar data ↔ SameLengths data ∧ Marked data ∧ Summed data := by
  constructor
  · intro h
    exact ⟨h.lengths, ⟨h.start, h.start₂, h.stop⟩, h.sum.symm⟩
  · rintro ⟨hlen, ⟨h0, h5, h7⟩, hs⟩
    exact ⟨h0, h5, hlen, h7, hs.symm⟩

/-- **The parser accepts what the grammar does exactly when the second length field is the first one, or
the markers or the sum are wrong in any case.** -/
theorem acceptsGrammar_iff (mem : AFNPackage) (data : Bytes) (h12 : 12 ≤ lenAt data)
    (hle : lenAt data + 8 ≤ data.length) (h31 : data.length < 2 ^ 31) :
    AcceptsGrammar mem data ↔ SameLengths data ∨ ¬ (Marked data ∧ Summed data) := by
  have hw : Whole data := (whole_iff h31).mpr ⟨by omega, hle⟩
  have haccept : (∃ e q, ((construct mem).parseProto data).out = .ok (YQER_OK, e, q)) ↔
      Marked data ∧ Summed data := by
    constructor
    · rintro ⟨e, q, h⟩
      obtain ⟨hc, -, -⟩ := parse_ok_inv h12 h
      exact ⟨hc.marked, hc.summed⟩
    · rintro ⟨hm, hs⟩
      exact ⟨_, _, (parse_ok mem ⟨hw, hm, hs⟩ h12).out⟩
  unfold AcceptsGrammar
  rw [haccept, grammar_iff]
  constructor
  · rintro ⟨h, -⟩
    by_cases hc : Marked data ∧ Summed data
    · exact .inl (h.mp hc).1
    · exact .inr hc
  · intro h
    refine ⟨?_, fun e q he => (parse_ok_inv h12 he).2.1⟩
    rcases h with h | h
    · exact ⟨fun hc => ⟨h, hc⟩, And.right⟩
    · exact ⟨fun hc => absurd hc h, And.right⟩

def skewedLogin : Bytes :=
  [0x68, 0x32, 0, 0x36, 0, 0x68, 0xc9, 0, 0x10, 0x4d, 0x04, 0, 0x02, 0x75, 0, 0, 0x01, 0, 0xa2, 0x16]

theorem acceptsGrammar_iff_skewedLogin :
    AcceptsGrammar zeros skewedLogin ↔
      SameLengths skewedLogin ∨ ¬ (Marked skewedLogin ∧ Summed skewedLogin) :=
  acceptsGrammar_iff zeros skewedLogin (by decide) (by decide) (by decide)

theorem skewedLogin_accepted : ¬ AcceptsGrammar zeros skewedLogin := by
  intro ⟨h, _⟩
  have hp : ((construct zeros).parseProto skewedLogin).out = .ok (YQER_OK, 20, frameOf skewedLogin) := by rfl
  have hg := h.mp ⟨_, _, hp⟩
  exact absurd hg.lengths (by decide)

/-! ## Safety -/

/-- The parser returns one of its four codes; it reads below offset `min(dataLen, LEN + 8)` only, and
no length subtraction goes below zero. -/
def SafeOn (mem : AFNPackage) (data : Bytes) : Prop :=
  ∃ r, Yields (InFrame data) ((construct mem).parseProto data) r ∧
    r.1 ∈ [YQER_OK, YQER_PKG_Err 1, YQER_PKG_Err 2, YQER_PKG_Err 4]

/-- **The parser is safe exactly on the buffers that are not a checked frame with `LEN < 12`.** -/
theorem parse_safe_iff (mem : AFNPackage) (data : Bytes) (h32 : data.length < 2 ^ 32) :
    SafeOn mem data ↔ ¬ (Checked data ∧ lenAt data < 12) := by
  constructor
  · intro ⟨r, hr, _⟩ ⟨hc, h12⟩
    obtain ⟨e, he⟩ := parse_fault mem hc h12 h32
    exact hr.not_fails e he
  · intro h
    by_cases hw : Whole data
    · by_cases hm : Marked data
      · by_cases hs : Summed data
        · have h12 : 12 ≤ lenAt data := Nat.le_of_not_lt fun h12 => h ⟨⟨hw, hm, hs⟩, h12⟩
          exact ⟨_, parse_ok mem ⟨hw, hm, hs⟩ h12, by simp⟩
        · exact ⟨_, parse_sum mem hw hm hs, by simp⟩
      · exact ⟨_, parse_mark mem hw hm, by simp⟩
    · obtain ⟨p, hp⟩ := parse_wait mem hw
      exact ⟨_, hp, by simp⟩

-- a frame whose user data is the user header alone, `LEN = 6`
def headerOnly : Bytes := [0x68, 0x19, 0, 0x19, 0, 0x68, 0, 0, 0, 0, 0, 0, 0, 0x16]

theorem parse_safe_iff_headerOnly : SafeOn zeros headerOnly ↔ ¬ (Checked headerOnly ∧ lenAt headerOnly < 12) :=
  parse_safe_iff zeros headerOnly (by decide)

theorem headerOnly_unsafe : ¬ SafeOn zeros headerOnly := by
  intro ⟨r, hr, _⟩
  have hc : Checked headerOnly := ⟨by decide, by decide, by decide⟩
  obtain ⟨e, he⟩ := parse_fault zeros hc (by decide) (by decide)
  exact hr.not_fails e he

end Afn
