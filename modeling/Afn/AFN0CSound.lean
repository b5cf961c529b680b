import Afn.AFN0C
import Mathlib.Data.Nat.Digits.Defs
import Mathlib.Data.Rat.Cast.Defs
import Mathlib.Tactic.FieldSimp
import Mathlib.Tactic.Ring

/-!
# What energy readings are decoded to

A unit of `M` tariffs is five bytes of time, the number `M`, and four groups of a total and `M` fees at
fixed places. Decoding succeeds exactly on the payloads that are long enough for their `M`.
-/

namespace Afn

open Bytes Access

/-! ## Fields -/

namespace AFNData

def digits (data : Bytes) (off n : Nat) : List Nat :=
  (slice data off n).flatMap fun b => [b.toNat % 16, b.toNat / 16]

/-- The value of the field of `n` bytes at `off`, whose lowest `places` digits stand after the point. -/
def fieldValue (n places : Nat) (data : Bytes) (off : Nat) : Rat :=
  if byteAt data off = 0xee then -1 else (Nat.ofDigits 10 (digits data off n) : Nat) / 10 ^ places

def timeText (b : Bytes) : String :=
  if byteAt b 0 = 0xee then invalidTime
  else "20" ++ pad2 (bcd (byteAt b 4)) ++ "-" ++ pad2 (bcd (byteAt b 3)) ++ "-" ++ pad2 (bcd (byteAt b 2)) ++ " " ++
    pad2 (bcd (byteAt b 1)) ++ ":" ++ pad2 (bcd (byteAt b 0)) ++ ":00"

/-- `parse` reads fields of `n` bytes, and takes no byte when there are fewer. -/
structure ReadsFields (data : Bytes) (n : Nat) (value : Nat → Rat)
    (parse : Nat → Nat → Option Rat → Acc (Nat × Option Rat)) : Prop where
  pos : 0 < n
  enough : ∀ off left val, n ≤ left → off + left = data.length →
    Yields (Within data.length) (parse off left val) (n, some (value off))
  short : ∀ off left val, left < n → Yields (Within data.length) (parse off left val) (0, val)

theorem high_eq (b : UInt8) : b.toNat / 16 % 16 = b.toNat / 16 := by
  have := b.toNat_lt
  omega

section
variable {data : Bytes} {off left : Nat}

theorem yields_getByte (h : off < data.length) :
    Yields (Within data.length) (getByte data off) (byteAt data off) := by
  have hbyte : byteAt (slice data off 1) 0 = byteAt data off := byteAt_slice Nat.zero_lt_one
  rw [← hbyte]
  exact (yields_readAt h h).bind (yields_pure _)

theorem digits_succ (h : off < data.length) (n : Nat) :
    digits data off (n + 1) =
      (byteAt data off).toNat % 16 :: (byteAt data off).toNat / 16 :: digits data (off + 1) n := by
  unfold digits
  rw [slice_succ h, List.flatMap_cons]
  rfl

theorem digits_zero : digits data off 0 = [] := by rw [digits, slice_zero, List.flatMap_nil]

theorem parseTable14_enough (val : Option Rat) (h : 5 ≤ left) (hlen : off + left = data.length) :
    Yields (Within data.length) (parseTable14 data off left val) (5, some (fieldValue 5 4 data off)) := by
  unfold parseTable14
  rw [if_pos h]
  refine (yields_getByte (by omega)).bind ?_
  by_cases hee : byteAt data off = 0xee
  · rw [if_pos hee, fieldValue, if_pos hee]
    exact yields_pure _
  rw [if_neg hee, fieldValue, if_neg hee]
  refine (yields_getByte (by omega)).bind ?_
  refine (yields_getByte (by omega)).bind ?_
  refine (yields_getByte (by omega)).bind ?_
  refine (yields_getByte (by omega)).bind ?_
  rw [digits_succ (by omega), digits_succ (by omega), digits_succ (by omega), digits_succ (by omega),
    digits_succ (by omega), digits_zero]
  simp only [nibbles, bcd, high_eq, Nat.ofDigits_cons, Nat.ofDigits_nil]
  convert yields_pure _ using 3
  push_cast
  ring

theorem parseTable11_enough (val : Option Rat) (h : 4 ≤ left) (hlen : off + left = data.length) :
    Yields (Within data.length) (parseTable11 data off left val) (4, some (fieldValue 4 2 data off)) := by
  unfold parseTable11
  rw [if_pos h]
  refine (yields_getByte (by omega)).bind ?_
  by_cases hee : byteAt data off = 0xee
  · rw [if_pos hee, fieldValue, if_pos hee]
    exact yields_pure _
  rw [if_neg hee, fieldValue, if_neg hee]
  refine (yields_getByte (by omega)).bind ?_
  refine (yields_getByte (by omega)).bind ?_
  refine (yields_getByte (by omega)).bind ?_
  rw [digits_succ (by omega), digits_succ (by omega), digits_succ (by omega), digits_succ (by omega), digits_zero]
  simp only [nibbles, bcd, high_eq, Nat.ofDigits_cons, Nat.ofDigits_nil]
  convert yields_pure _ using 3
  push_cast
  ring

end

theorem readsFields14 (data : Bytes) : ReadsFields data 5 (fieldValue 5 4 data) (parseTable14 data) where
  pos := by decide
  enough _ _ val h hlen := parseTable14_enough val h hlen
  short off left val h := by
    unfold parseTable14
    rw [if_neg (Nat.not_le.mpr h)]
    exact yields_pure _

theorem readsFields11 (data : Bytes) : ReadsFields data 4 (fieldValue 4 2 data) (parseTable11 data) where
  pos := by decide
  enough _ _ val h hlen := parseTable11_enough val h hlen
  short off left val h := by
    unfold parseTable11
    rw [if_neg (Nat.not_le.mpr h)]
    exact yields_pure _

theorem parseDateTime5_enough {data : Bytes} {left : Nat} (dt : String) (h : 5 ≤ left) (hlen : left = data.length) :
    Yields (Within data.length) (parseDateTime5 data 0 left dt) (5, timeText (slice data 0 5)) := by
  have hbyte : ∀ i < 5, byteAt (slice data 0 5) i = byteAt data i := fun i hi => by
    rw [byteAt_slice hi, Nat.zero_add]
  unfold parseDateTime5 timeText
  rw [if_pos h, hbyte 0 (by omega), hbyte 1 (by omega), hbyte 2 (by omega), hbyte 3 (by omega), hbyte 4 (by omega)]
  refine (yields_getByte (by omega)).bind ?_
  by_cases hee : byteAt data 0 = 0xee
  · rw [if_pos hee, if_pos hee]
    exact yields_pure _
  rw [if_neg hee, if_neg hee]
  refine (yields_getByte (by omega)).bind ?_
  refine (yields_getByte (by omega)).bind ?_
  refine (yields_getByte (by omega)).bind ?_
  refine (yields_getByte (by omega)).bind ?_
  exact yields_pure _

theorem parseDateTime5_short {data : Bytes} {left : Nat} {P : Event → Prop} (dt : String) (h : ¬ 5 ≤ left) :
    Yields P (parseDateTime5 data 0 left dt) (0, dt) := by
  unfold parseDateTime5
  rw [if_neg h]
  exact yields_pure _

end AFNData

/-! ## Clocks and run states -/

abbrev Total {α : Type} (data : Bytes) (x : Acc α) : Prop := Ensures (Within data.length) (fun _ => True) x

section
variable {data : Bytes} {off left : Nat}

theorem total_parseDateTime6 (dt : String) (h : off + left ≤ data.length) :
    Total data (AFNData.parseDateTime6 data off left dt) := by
  unfold AFNData.parseDateTime6
  split
  next h6 =>
    refine (AFNData.yields_getByte (by omega)).bind_ensures ?_
    split
    · exact ensures_pure trivial
    refine (AFNData.yields_getByte (by omega)).bind_ensures ?_
    refine (AFNData.yields_getByte (by omega)).bind_ensures ?_
    refine (AFNData.yields_getByte (by omega)).bind_ensures ?_
    refine (AFNData.yields_getByte (by omega)).bind_ensures ?_
    refine (AFNData.yields_getByte (by omega)).bind_ensures ?_
    exact ensures_pure trivial
  next => exact ensures_pure trivial

theorem ensures_parse (h : off + left ≤ data.length) :
    Ensures (Within data.length) (fun r => r.1 ≤ left) (GetRunStatus.Block.parse data off left) := by
  unfold GetRunStatus.Block.parse
  split
  next h19 =>
    refine (AFNData.yields_getByte (by omega)).bind_ensures ?_
    refine (yields_readAt (by omega) (by unfold Within; omega)).bind_ensures ?_
    refine (AFNData.yields_getByte (by omega)).bind_ensures ?_
    refine (yields_readAt (by omega) (by unfold Within; omega)).bind_ensures ?_
    refine (AFNData.yields_getByte (by omega)).bind_ensures ?_
    refine (total_parseDateTime6 "" (by omega)).bind fun sdt _ => ?_
    refine (total_parseDateTime6 "" (by omega)).bind fun edt _ => ?_
    exact ensures_pure h19
  next => exact ensures_pure (Nat.zero_le _)

theorem total_parseBlocks (k : Nat) : ∀ off left : Nat, off + left ≤ data.length →
    Total data (GetRunStatus.parseBlocks data k off left) := by
  induction k with
  | zero => exact fun _ _ _ => ensures_pure trivial
  | succ k ih =>
    intro off left h
    unfold GetRunStatus.parseBlocks
    refine (ensures_parse h).bind fun ⟨len, block⟩ hlen => ?_
    simp only at hlen ⊢
    split
    · exact ensures_pure trivial
    · refine (ih (off + len) (left - len) (by omega)).bind fun _ _ => ?_
      exact ensures_pure trivial

end

theorem GetClock.total_handleData (d : PkgAfnData) : Total d.m_pData (handleData (construct d)) := by
  unfold handleData construct
  refine (total_parseDateTime6 "" (by simp only [PkgAfnData.m_nLen]; omega)).bind fun _ _ => ?_
  exact ensures_pure trivial

theorem GetRunStatus.total_handleData (d : PkgAfnData) : Total d.m_pData (handleData (construct d)) := by
  unfold handleData construct PkgAfnData.m_nLen
  extract_lets left
  have hleft : left = d.m_pData.length := rfl
  split
  · exact ensures_pure trivial
  refine (AFNData.yields_getByte (by omega)).bind_ensures ?_
  extract_lets n self
  split
  · exact ensures_pure trivial
  refine (total_parseBlocks _ 1 _ (by omega)).bind fun _ _ => ?_
  exact ensures_pure trivial

/-! ## Groups -/

namespace AllKwh

open AFNData

def feesAt (n : Nat) (value : Nat → Rat) (k off : Nat) : List (Option Rat) :=
  (List.range k).map fun i => some (value (off + n * i))

def kwhAt (n : Nat) (value : Nat → Rat) (m off : Nat) : Kwh :=
  ⟨some (value off), some (feesAt n value m (off + n))⟩

section
variable {data : Bytes} {n : Nat} {value : Nat → Rat} {parse : Nat → Nat → Option Rat → Acc (Nat × Option Rat)}

theorem feesAt_succ (k off : Nat) :
    feesAt n value (k + 1) off = some (value off) :: feesAt n value k (off + n) := by
  unfold feesAt
  rw [List.range_succ_eq_map, List.map_cons, List.map_map, Nat.mul_zero, Nat.add_zero]
  congr 1
  refine List.map_congr_left fun i _ => ?_
  rw [Function.comp_apply, Nat.mul_succ, Nat.add_assoc, Nat.add_comm n]

theorem parseFees_enough (hp : ReadsFields data n value parse) : ∀ k off left : Nat, n * k ≤ left →
    off + left = data.length → Yields (Within data.length) (parseFees parse k off left)
      (true, off + n * k, left - n * k, feesAt n value k off) := by
  intro k
  induction k with
  | zero => exact fun _ _ _ _ => yields_pure _
  | succ k ih =>
    intro off left hk hlen
    rw [Nat.mul_succ] at hk
    have hrest := ih (off + n) (left - n) (by omega) (by omega)
    unfold parseFees
    refine (hp.enough off left none (by omega) hlen).bind ?_
    have hpos := hp.pos
    simp only [Nat.ne_of_gt hpos, if_false]
    refine hrest.bind ?_
    have hoff : off + n + n * k = off + n * (k + 1) := by rw [Nat.mul_succ]; omega
    have hleft : left - n - n * k = left - n * (k + 1) := by rw [Nat.mul_succ]; omega
    rw [feesAt_succ, ← hoff, ← hleft]
    exact yields_pure _

theorem parseFees_short (hp : ReadsFields data n value parse) : ∀ k off left : Nat, left < n * k →
    off + left = data.length →
      ∃ r, Yields (Within data.length) (parseFees parse k off left) (false, r) := by
  intro k
  induction k with
  | zero => exact fun _ _ hk => absurd hk (Nat.not_lt_zero _)
  | succ k ih =>
    intro off left hk hlen
    rw [Nat.mul_succ] at hk
    unfold parseFees
    by_cases hn : n ≤ left
    · obtain ⟨⟨off', left', vals⟩, hrest⟩ := ih (off + n) (left - n) (by omega) (by omega)
      refine ⟨(off', left', some (value off) :: vals), (hp.enough off left none hn hlen).bind ?_⟩
      have hpos := hp.pos
      simp only [Nat.ne_of_gt hpos, if_false]
      exact hrest.bind (yields_pure _)
    · refine ⟨(off, left, List.replicate (k + 1) none), (hp.short off left none (Nat.not_le.mp hn)).bind ?_⟩
      exact yields_pure _

variable {m off left : Nat}

theorem parseKwh_enough (hp : ReadsFields data n value parse) (checked : Bool) (hm : n * (m + 1) ≤ left)
    (hlen : off + left = data.length) : Yields (Within data.length) (parseKwh parse checked m off left)
      (true, off + n * (m + 1), left - n * (m + 1), kwhAt n value m off) := by
  rw [Nat.mul_succ] at hm
  have hpos := hp.pos
  have hfees := parseFees_enough hp m (off + n) (left - n) (by omega) (by omega)
  have hoff : off + n + n * m = off + n * (m + 1) := by rw [Nat.mul_succ]; omega
  have hleft : left - n - n * m = left - n * (m + 1) := by rw [Nat.mul_succ]; omega
  unfold parseKwh
  refine (hp.enough off left none (by omega) hlen).bind ?_
  simp only [Nat.ne_of_gt hpos, and_false, if_false]
  refine hfees.bind ?_
  rw [hoff, hleft]
  exact yields_pure _

theorem parseKwh_short (hp : ReadsFields data n value parse) (checked : Bool) (hpos : 1 ≤ m)
    (hm : left < n * (m + 1)) (hlen : off + left = data.length) :
    ∃ r, Yields (Within data.length) (parseKwh parse checked m off left) (false, r) := by
  rw [Nat.mul_succ] at hm
  have hn := hp.pos
  unfold parseKwh
  by_cases htotal : n ≤ left
  · have hrest := parseFees_short hp m (off + n) (left - n) (by omega) (by omega)
    obtain ⟨⟨off', left', fee⟩, hfees⟩ := hrest
    refine ⟨(off', left', ⟨some (value off), some fee⟩), (hp.enough off left none htotal hlen).bind ?_⟩
    simp only [Nat.ne_of_gt hn, and_false, if_false]
    exact hfees.bind (yields_pure _)
  · have hshort := hp.short off left none (Nat.not_le.mp htotal)
    cases checked with
    | true => exact ⟨(off, left, ⟨none, none⟩), hshort.bind (yields_pure _)⟩
    | false =>
      have hm' : n * 1 ≤ n * m := Nat.mul_le_mul_left n hpos
      have hrest := parseFees_short hp m (off + 0) (left - 0) (by omega) (by omega)
      obtain ⟨⟨off', left', fee⟩, hfees⟩ := hrest
      exact ⟨(off', left', ⟨none, some fee⟩), hshort.bind (hfees.bind (yields_pure _))⟩

theorem ensures_group {β : Type} {f : Bool × Nat × Nat × Kwh → Acc β} {R : β → Prop}
    (hp : ReadsFields data n value parse) (checked : Bool) (hpos : 1 ≤ m) (hlen : off + left = data.length)
    (hmissing : ∀ r, Ensures (Within data.length) R (f (false, r)))
    (hnext : n * (m + 1) ≤ left → Ensures (Within data.length) R
      (f (true, off + n * (m + 1), left - n * (m + 1), kwhAt n value m off))) :
    Ensures (Within data.length) R (parseKwh parse checked m off left >>= f) := by
  by_cases hm : n * (m + 1) ≤ left
  · exact (parseKwh_enough hp checked hm hlen).bind_ensures (hnext hm)
  · obtain ⟨r, hshort⟩ := parseKwh_short hp checked hpos (Nat.not_le.mp hm) hlen
    exact hshort.bind_ensures (hmissing r)

end

/-! ## Units -/

def tariffs (data : Bytes) : Nat := (byteAt data 5).toNat

def WellFormed (data : Bytes) : Prop :=
  6 ≤ data.length ∧ 1 ≤ tariffs data ∧ tariffs data ≤ 12 ∧ 23 + 17 * tariffs data ≤ data.length

def decoded (d : PkgAfnData) : AllKwh :=
  let data := d.m_pData
  let m := tariffs data
  { base := d
    dt := timeText (slice data 0 5)
    m := some m
    userkwh := kwhAt 5 (fieldValue 5 4 data) m 6
    devkwh := kwhAt 4 (fieldValue 4 2 data) m (11 + 5 * m)
    onekwh := kwhAt 4 (fieldValue 4 2 data) m (15 + 9 * m)
    fourkwh := kwhAt 4 (fieldValue 4 2 data) m (19 + 13 * m) }

section
variable {d : PkgAfnData}

theorem handleData_accepts (h : WellFormed d.m_pData) :
    Yields (Within d.m_nLen) (handleData (construct d)) (YQER_OK, decoded d) := by
  obtain ⟨h6, hmin, hmax, hlen⟩ := h
  have hm : (byteAt d.m_pData 5).toNat = tariffs d.m_pData := rfl
  have hdev : 5 + 1 + 5 * (tariffs d.m_pData + 1) = 11 + 5 * tariffs d.m_pData := by omega
  have hone : 11 + 5 * tariffs d.m_pData + 4 * (tariffs d.m_pData + 1) = 15 + 9 * tariffs d.m_pData := by omega
  have hfour : 15 + 9 * tariffs d.m_pData + 4 * (tariffs d.m_pData + 1) = 19 + 13 * tariffs d.m_pData := by omega
  unfold handleData construct PkgAfnData.m_nLen
  refine (parseDateTime5_enough "" (by omega) rfl).bind ?_
  simp only [Nat.reduceEqDiff, if_false]
  split
  · omega
  refine (yields_getByte (by omega)).bind ?_
  simp only [hm]
  split
  · omega
  refine (parseKwh_enough (readsFields14 _) true (by omega) (by omega)).bind ?_
  simp only [Bool.true_eq_false, if_false]
  refine (parseKwh_enough (readsFields11 _) false (by omega) (by omega)).bind ?_
  simp only [Bool.true_eq_false, if_false]
  refine (parseKwh_enough (readsFields11 _) true (by omega) (by omega)).bind ?_
  simp only [Bool.true_eq_false, if_false]
  refine (parseKwh_enough (readsFields11 _) true (by omega) (by omega)).bind ?_
  simp only [Bool.true_eq_false, if_false, hdev, hone, hfour]
  exact yields_pure _

def Refused (d : PkgAfnData) (r : Int × AllKwh) : Prop := r.1 ≠ YQER_OK ∧ r.2.base = d

theorem handleData_rejects (h : ¬ WellFormed d.m_pData) :
    Ensures (Within d.m_nLen) (Refused d) (handleData (construct d)) := by
  have hm : (byteAt d.m_pData 5).toNat = tariffs d.m_pData := rfl
  have hshort : YQER_PKG_DATA_Err 2 ≠ YQER_OK := by decide
  have htariffs : YQER_PKG_DATA_Err 3 ≠ YQER_OK := by decide
  unfold WellFormed at h
  unfold handleData construct PkgAfnData.m_nLen
  by_cases h5 : 5 ≤ d.m_pData.length
  swap
  · refine (parseDateTime5_short "" h5).bind_ensures ?_
    exact ensures_pure ⟨hshort, rfl⟩
  refine (parseDateTime5_enough "" h5 rfl).bind_ensures ?_
  simp only [Nat.reduceEqDiff, if_false]
  split
  · exact ensures_pure ⟨hshort, rfl⟩
  refine (yields_getByte (by omega)).bind_ensures ?_
  simp only [hm]
  split
  · exact ensures_pure ⟨htariffs, rfl⟩
  have hpos : 1 ≤ tariffs d.m_pData := by omega
  refine ensures_group (readsFields14 _) true hpos (by omega) (fun _ => ensures_pure ⟨hshort, rfl⟩) fun huser => ?_
  simp only [Bool.true_eq_false, if_false]
  refine ensures_group (readsFields11 _) false hpos (by omega) (fun _ => ensures_pure ⟨hshort, rfl⟩) fun hdev => ?_
  simp only [Bool.true_eq_false, if_false]
  refine ensures_group (readsFields11 _) true hpos (by omega) (fun _ => ensures_pure ⟨hshort, rfl⟩) fun hone => ?_
  simp only [Bool.true_eq_false, if_false]
  refine ensures_group (readsFields11 _) true hpos (by omega) (fun _ => ensures_pure ⟨hshort, rfl⟩) fun hfour => ?_
  -- all the groups are there
  exact absurd ⟨by omega, by omega, by omega, by omega⟩ h

theorem total_handleData (d : PkgAfnData) : ∃ r, Yields (Within d.m_nLen) (handleData (construct d)) r := by
  by_cases hw : WellFormed d.m_pData
  · exact ⟨_, handleData_accepts hw⟩
  · obtain ⟨r, hr, -⟩ := handleData_rejects hw
    exact ⟨r, hr⟩

theorem accepted {self : AllKwh} (h : (handleData (construct d)).out = .ok (YQER_OK, self)) :
    WellFormed d.m_pData ∧ self = decoded d := by
  by_cases hw : WellFormed d.m_pData
  · rw [(handleData_accepts hw).out] at h
    cases h
    exact ⟨hw, rfl⟩
  · obtain ⟨⟨ret, self'⟩, hself, hret, -⟩ := handleData_rejects hw
    rw [hself.out] at h
    cases h
    exact absurd rfl hret

end

/-- **A payload is decoded exactly when it is well formed, nothing beyond it is read, and the fields then
have the values at their places.** -/
theorem decodes_iff (d : PkgAfnData) :
    ∃ ret self, Yields (Within d.m_nLen) (handleData (construct d)) (ret, self) ∧
      (ret = YQER_OK ↔ WellFormed d.m_pData) ∧ (ret = YQER_OK → self = decoded d) := by
  by_cases h : WellFormed d.m_pData
  · exact ⟨YQER_OK, decoded d, handleData_accepts h, iff_of_true rfl h, fun _ => rfl⟩
  · obtain ⟨⟨ret, self⟩, hself, hret, -⟩ := handleData_rejects h
    exact ⟨ret, self, hself, iff_of_false hret h, fun hok => absurd hok hret⟩

end AllKwh

end Afn
