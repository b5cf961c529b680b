import Afn.AFN0CSound

/-!
# What a run status is decoded to

A unit of `n` blocks is the number `n` and `n` blocks of 19 bytes. Decoding succeeds exactly on the
payloads that hold all the blocks of their number, and looks at nothing behind the last block.
-/

namespace Afn

open Bytes Access

namespace AFNData

def timeText6 (b : Bytes) : String :=
  if byteAt b 0 = 0xee then invalidTime
  else "20" ++ pad2 (bcd (byteAt b 5)) ++ "-" ++
    pad2 ((byteAt b 4).toNat / 16 % 2 * 10 + (byteAt b 4).toNat % 16) ++ "-" ++ pad2 (bcd (byteAt b 3)) ++ " " ++
    pad2 (bcd (byteAt b 2)) ++ ":" ++ pad2 (bcd (byteAt b 1)) ++ ":" ++ pad2 (bcd (byteAt b 0))

section
variable {data : Bytes} {off hi : Nat}

theorem yields_getByte_within (h : off < hi) (hhi : hi ≤ data.length) :
    Yields (Within hi) (getByte data off) (byteAt data off) := by
  have hbyte : byteAt (slice data off 1) 0 = byteAt data off := byteAt_slice Nat.zero_lt_one
  rw [← hbyte]
  exact (yields_readAt (by omega) h).bind (yields_pure _)

theorem parseDateTime6_enough (dt : String) (h : off + 6 ≤ hi) (hhi : hi ≤ data.length) :
    Yields (Within hi) (parseDateTime6 data off 6 dt) (6, timeText6 (slice data off 6)) := by
  have hbyte : ∀ i < 6, byteAt (slice data off 6) i = byteAt data (off + i) := fun i hi => byteAt_slice hi
  unfold parseDateTime6 timeText6
  rw [if_pos (Nat.le_refl 6), hbyte 0 (by omega), hbyte 1 (by omega), hbyte 2 (by omega), hbyte 3 (by omega),
    hbyte 4 (by omega), hbyte 5 (by omega), Nat.add_zero off]
  refine (yields_getByte_within (by omega) hhi).bind ?_
  by_cases hee : byteAt data off = 0xee
  · rw [if_pos hee, if_pos hee]
    exact yields_pure _
  rw [if_neg hee, if_neg hee]
  refine (yields_getByte_within (by omega) hhi).bind ?_
  refine (yields_getByte_within (by omega) hhi).bind ?_
  refine (yields_getByte_within (by omega) hhi).bind ?_
  refine (yields_getByte_within (by omega) hhi).bind ?_
  refine (yields_getByte_within (by omega) hhi).bind ?_
  exact yields_pure _

end

end AFNData

namespace GetRunStatus

open AFNData

/-! ## Blocks -/

theorem short_eq (w : UInt16) : short w = w.toBitVec.toInt := by
  have hlt : w.toNat < 65536 := w.toNat_lt
  rw [BitVec.toInt_eq_toNat_cond]
  change short w = if 2 * w.toNat < 2 ^ 16 then (w.toNat : Int) else (w.toNat : Int) - (2 ^ 16 : Nat)
  unfold short
  split
  · rw [if_pos (by omega)]
  · rw [if_neg (by omega)]
    rfl

def blockOf (b : Bytes) : Block where
  port := byteAt b 0
  num := (word (byteAt b 1) (byteAt b 2)).toBitVec.toInt
  status := byteAt b 3
  success := (word (byteAt b 4) (byteAt b 5)).toBitVec.toInt
  success_import := byteAt b 6
  sdt := timeText6 (slice b 7 6)
  edt := timeText6 (slice b 13 6)

def blocksAt (data : Bytes) (k off : Nat) : List (Option Block) :=
  (List.range k).map fun i => some (blockOf (slice data (off + 19 * i) 19))

theorem slice_slice {data : Bytes} {off n i m : Nat} (h : i + m ≤ n) :
    slice (slice data off n) i m = slice data (off + i) m := by
  unfold slice
  rw [List.drop_take, List.drop_drop, List.take_take, Nat.min_eq_left (by omega)]

section
variable {data : Bytes} {off left hi : Nat}

theorem blocksAt_succ (k : Nat) :
    blocksAt data (k + 1) off = some (blockOf (slice data off 19)) :: blocksAt data k (off + 19) := by
  unfold blocksAt
  rw [List.range_succ_eq_map, List.map_cons, List.map_map, Nat.mul_zero, Nat.add_zero]
  congr 1
  refine List.map_congr_left fun i _ => ?_
  rw [Function.comp_apply, Nat.mul_succ, Nat.add_assoc, Nat.add_comm 19]

theorem parse_enough (h : 19 ≤ left) (hoff : off + 19 ≤ hi) (hhi : hi ≤ data.length) :
    Yields (Within hi) (Block.parse data off left) (19, some (blockOf (slice data off 19))) := by
  have hbyte : ∀ i < 19, byteAt (slice data off 19) i = byteAt data (off + i) := fun i hi => byteAt_slice hi
  have hword : ∀ i j, i < 2 → byteAt (slice data (off + j) 2) i = byteAt data (off + j + i) :=
    fun i j hi => byteAt_slice hi
  unfold Block.parse blockOf
  rw [if_pos h, hbyte 0 (by omega), hbyte 1 (by omega), hbyte 2 (by omega), hbyte 3 (by omega), hbyte 4 (by omega),
    hbyte 5 (by omega), hbyte 6 (by omega), slice_slice (by omega), slice_slice (by omega), ← short_eq, ← short_eq]
  refine (yields_getByte_within (by omega) hhi).bind ?_
  refine (yields_readAt (by omega) (by unfold Within; omega)).bind ?_
  refine (yields_getByte_within (by omega) hhi).bind ?_
  refine (yields_readAt (by omega) (by unfold Within; omega)).bind ?_
  refine (yields_getByte_within (by omega) hhi).bind ?_
  refine (parseDateTime6_enough "" (by omega) hhi).bind ?_
  refine (parseDateTime6_enough "" (by omega) hhi).bind ?_
  rw [hword 0 1 (by omega), hword 1 1 (by omega), hword 0 4 (by omega), hword 1 4 (by omega)]
  exact yields_pure _

theorem parse_short {P : Event → Prop} (h : left < 19) : Yields P (Block.parse data off left) (0, none) := by
  unfold Block.parse
  rw [if_neg (Nat.not_le.mpr h)]
  exact yields_pure _

theorem parseBlocks_enough (hhi : hi ≤ data.length) : ∀ k off left : Nat, 19 * k ≤ left → off + 19 * k ≤ hi →
    Yields (Within hi) (parseBlocks data k off left) (YQER_OK, blocksAt data k off) := by
  intro k
  induction k with
  | zero => exact fun _ _ _ _ => yields_pure _
  | succ k ih =>
    intro off left hleft hoff
    unfold parseBlocks
    refine (parse_enough (by omega) (by omega) hhi).bind ?_
    simp only [Nat.reduceEqDiff, if_false]
    refine (ih (off + 19) (left - 19) (by omega) (by omega)).bind ?_
    rw [blocksAt_succ]
    exact yields_pure _

theorem parseBlocks_short : ∀ k off left : Nat, left < 19 * k → off + left ≤ data.length →
    ∃ blocks, Yields (Within data.length) (parseBlocks data k off left) (YQER_PKG_DATA_Err 3, blocks) := by
  intro k
  induction k with
  | zero => exact fun _ _ hk => absurd hk (Nat.not_lt_zero _)
  | succ k ih =>
    intro off left hk hlen
    unfold parseBlocks
    by_cases h : 19 ≤ left
    · obtain ⟨blocks, hrest⟩ := ih (off + 19) (left - 19) (by omega) (by omega)
      refine ⟨some (blockOf (slice data off 19)) :: blocks, ?_⟩
      refine (parse_enough h (by omega) (Nat.le_refl _)).bind ?_
      simp only [Nat.reduceEqDiff, if_false]
      exact hrest.bind (yields_pure _)
    · refine ⟨List.replicate (k + 1) none, ?_⟩
      refine (parse_short (Nat.not_le.mp h)).bind ?_
      exact yields_pure _

end

/-! ## Units -/

def count (data : Bytes) : Nat := (byteAt data 0).toNat

def WellFormed (data : Bytes) : Prop :=
  1 ≤ data.length ∧ 1 ≤ count data ∧ count data ≤ 31 ∧ 1 + 19 * count data ≤ data.length

def decoded (d : PkgAfnData) : GetRunStatus where
  base := d
  n := some (count d.m_pData)
  pBlock := some (blocksAt d.m_pData (count d.m_pData) 1)

section
variable {d : PkgAfnData}

theorem handleData_accepts (h : WellFormed d.m_pData) :
    Yields (Within (1 + 19 * count d.m_pData)) (handleData (construct d)) (YQER_OK, decoded d) := by
  obtain ⟨hlen, hmin, hmax, hall⟩ := h
  have hn : (byteAt d.m_pData 0).toNat = count d.m_pData := rfl
  unfold handleData construct PkgAfnData.m_nLen
  rw [if_neg (Nat.not_lt.mpr hlen)]
  refine (yields_getByte_within (by omega) hall).bind ?_
  simp only [hn]
  rw [if_neg (by omega)]
  refine (parseBlocks_enough hall _ 1 _ (by omega) (Nat.le_refl _)).bind ?_
  exact yields_pure _

theorem handleData_rejects (h : ¬ WellFormed d.m_pData) :
    Ensures (Within d.m_nLen) (fun r => r.1 ≠ YQER_OK) (handleData (construct d)) := by
  have hn : (byteAt d.m_pData 0).toNat = count d.m_pData := rfl
  have hshort : YQER_PKG_DATA_Err 2 ≠ YQER_OK := by decide
  have hcount : YQER_PKG_DATA_Err 3 ≠ YQER_OK := by decide
  unfold WellFormed at h
  unfold handleData construct PkgAfnData.m_nLen
  by_cases hlen : d.m_pData.length < 1
  · rw [if_pos hlen]
    exact ensures_pure hshort
  rw [if_neg hlen]
  refine (yields_getByte (by omega)).bind_ensures ?_
  simp only [hn]
  by_cases hrange : count d.m_pData < 1 ∨ 31 < count d.m_pData
  · rw [if_pos hrange]
    exact ensures_pure hcount
  rw [if_neg hrange]
  have hmissing : d.m_pData.length - 1 < 19 * count d.m_pData := by omega
  have hleft : 1 + (d.m_pData.length - 1) ≤ d.m_pData.length := by omega
  obtain ⟨blocks, hblocks⟩ := parseBlocks_short _ 1 _ hmissing hleft
  refine hblocks.bind_ensures ?_
  exact ensures_pure hcount

end

/-- **A payload is decoded exactly when all the blocks of its number are there, nothing beyond it is read, and
block `i` is then what the bytes from `1 + 19 * i` say, nothing behind the last block being read.** -/
theorem accepts_iff_blocks (d : PkgAfnData) :
    ∃ ret self, Yields (Within d.m_nLen) (handleData (construct d)) (ret, self) ∧
      (ret = YQER_OK ↔ 1 ≤ d.m_nLen ∧ 1 ≤ count d.m_pData ∧ count d.m_pData ≤ 31 ∧
        1 + 19 * count d.m_pData ≤ d.m_nLen) ∧
      (ret = YQER_OK → Yields (Within (1 + 19 * count d.m_pData)) (handleData (construct d)) (ret, self) ∧
        self.n = some (count d.m_pData) ∧ self.pBlock = some ((List.range (count d.m_pData)).map fun i =>
          some (blockOf (slice d.m_pData (1 + 19 * i) 19)))) := by
  by_cases h : WellFormed d.m_pData
  · have haccepts := handleData_accepts h
    refine ⟨YQER_OK, decoded d, ?_, iff_of_true rfl h, fun _ => ⟨haccepts, rfl, rfl⟩⟩
    refine haccepts.mono fun e he => ?_
    have hall : 1 + 19 * count d.m_pData ≤ d.m_nLen := h.2.2.2
    cases e with
    | read => exact Nat.le_trans he hall
    | write => exact Nat.le_trans he hall
    | sub => exact he
  · obtain ⟨⟨ret, self⟩, hself, hret⟩ := handleData_rejects h
    exact ⟨ret, self, hself, iff_of_false hret h, fun hok => absurd hok hret⟩

end GetRunStatus

end Afn
