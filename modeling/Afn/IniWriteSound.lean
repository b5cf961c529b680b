import Afn.IniSound
import Mathlib.Data.List.Induction

/-!
# Writing a value

The line of the key is replaced by a line of the same key with the new value. When that line is read as one piece
and does not look like a section, it is the only entry that has changed.
-/

namespace Afn

open Bytes Access

namespace TIniFile

/-! ## Names and values -/

def nameOf (line : Bytes) : Bytes := (line.takeWhile (· ≠ 61)).filter isgraph

def valueOf (line : Bytes) : Bytes := ((line.dropWhile (· ≠ 61)).drop 1).filter isgraph

theorem keynameLoop_eq {keylen : Nat} : ∀ (rest : Bytes) (start : Nat) (keyname : Bytes),
    keyname.length + rest.length < keylen → keynameLoop keylen rest start keyname =
      (start + (rest.takeWhile (· ≠ 61)).length, keyname ++ (rest.takeWhile (· ≠ 61)).filter isgraph)
  | [], start, keyname, _ => by simp [keynameLoop]
  | c :: rest, start, keyname, h => by
    rw [List.length_cons] at h
    have hroom : keyname.length < keylen - 1 := by omega
    rw [keynameLoop, if_pos hroom]
    by_cases hg : isgraph c = true
    · rw [if_pos hg]
      by_cases hc : c = 61
      · rw [if_neg (not_not_intro hc), List.takeWhile_cons_of_neg (by simpa using hc)]
        simp
      · rw [if_pos hc, List.takeWhile_cons_of_pos (by simpa using hc), List.filter_cons_of_pos hg,
          keynameLoop_eq rest _ _ (by rw [List.length_append, List.length_singleton]; omega)]
        simp only [List.length_cons, List.append_assoc, List.singleton_append, Prod.mk.injEq, and_true]
        omega
    · have hc : c ≠ 61 := by
        rintro rfl
        exact hg (by decide)
      rw [if_neg hg, List.takeWhile_cons_of_pos (by simpa using hc), List.filter_cons_of_neg hg,
        keynameLoop_eq rest _ _ (by omega)]
      simp only [List.length_cons, Prod.mk.injEq, and_true]
      omega

theorem byteAt_length_takeWhile : ∀ {line : Bytes}, (line.takeWhile (· ≠ 61)).length < line.length →
    byteAt line (line.takeWhile (· ≠ 61)).length = 61
  | [], h => absurd h (Nat.lt_irrefl 0)
  | c :: line, h => by
    by_cases hc : c = 61
    · rw [List.takeWhile_cons_of_neg (by simpa using hc), hc]
      rfl
    · rw [List.takeWhile_cons_of_pos (by simpa using hc)] at h ⊢
      exact byteAt_length_takeWhile (Nat.lt_of_succ_lt_succ h)

theorem getkeyname_eq {line : Bytes} (h : line.length < LINE_LEN) :
    getkeyname line LINE_LEN = ((nameOf line).length, nameOf line) := by
  have hloop := keynameLoop_eq line 0 [] (by simpa using h)
  rw [Nat.zero_add, List.nil_append] at hloop
  -- the loop stops at an equals sign or at the end
  have hend : ¬((line.takeWhile (· ≠ 61)).length + 1 = line.length ∧
      byteAt line (line.takeWhile (· ≠ 61)).length ≠ 61 ∧ 1 ≤ (nameOf line).length) := by
    rintro ⟨hl, hne, -⟩
    exact hne (byteAt_length_takeWhile (by omega))
  simp only [getkeyname, hloop]
  exact if_neg hend

theorem getkeyvalue_eq {line : Bytes} (h : line.length < LINE_LEN) : (getkeyvalue line LINE_LEN).2 = valueOf line := by
  have hfind : (fun c : UInt8 => !decide (c ≠ 61)) = (· == 61) := by
    funext c
    simp [Bool.beq_eq_decide_eq]
  have hdrop : (line.dropWhile (· ≠ 61)).drop 1 = line.drop (line.findIdx (· == 61) + 1) := by
    rw [List.dropWhile_eq_drop_findIdx_not, List.drop_drop, hfind]
  unfold valueOf
  rw [hdrop]
  simp only [getkeyvalue]
  split <;> rename_i hs
  · rw [hs, List.drop_length]
    rfl
  · refine List.take_of_length_le (Nat.le_trans (List.length_filter_le _ _) ?_)
    rw [List.length_drop]
    exact Nat.le_trans (Nat.sub_le _ _) (Nat.le_of_lt_succ h)

theorem entry_eq {line : Bytes} (h : line.length < LINE_LEN) :
    entry line =
      if isremark line then .skip
      else
        match getsection line LINE_LEN with
        | some sec => .header sec
        | none => if nameOf line = [] then .skip else .item (nameOf line) (valueOf line) := by
  unfold entry
  rw [getkeyname_eq h, getkeyvalue_eq h]
  cases getsection line LINE_LEN with
  | some sec => rfl
  | none => simp only [List.length_eq_zero_iff]

/-! ## The new line -/

def assign (key val : Bytes) : Bytes := key ++ 61 :: val

-- the names that lines have
structure IsKey (key : Bytes) : Prop where
  ne_nil : key ≠ []
  graph : ∀ c ∈ key, isgraph c = true
  no_eq : 61 ∉ key
  no_remark : key.head? ≠ some 35
  length_le : key.length ≤ 99

def Legible (val : Bytes) : Prop := val ≠ [] ∧ ∀ c ∈ val, isgraph c = true

theorem isKey_of_entry {line name value : Bytes} (h : entry line = .item name value) (hlen : line.length ≤ 99) :
    IsKey name := by
  obtain ⟨hr, -, hc, hname, -⟩ := entry_item h
  have hl : line.length < LINE_LEN := Nat.lt_of_le_of_lt hlen (by decide)
  rw [getkeyname_eq hl] at hc hname
  have hne : nameOf line ≠ [] := fun hn => hc (by rw [hn]; rfl)
  have hmem : ∀ c ∈ nameOf line, c ∈ line.takeWhile (· ≠ 61) ∧ isgraph c = true := fun c => List.mem_filter.mp
  subst hname
  refine ⟨hne, fun c hm => (hmem c hm).2, fun hm => ?_, fun hhead => ?_, ?_⟩
  · have := List.mem_takeWhile_imp (hmem 61 hm).1
    simp at this
  · -- the first character of the name is the first graphic one of the line
    have hfind : line.find? isgraph = some 35 := by
      rw [← List.takeWhile_append_dropWhile (p := (· ≠ 61)) (l := line), List.find?_append]
      unfold nameOf at hhead
      rw [List.head?_filter] at hhead
      rw [hhead]
      rfl
    unfold isremark at hr
    rw [hfind] at hr
    exact absurd hr (by decide)
  · exact Nat.le_trans (List.length_filter_le _ _) (Nat.le_trans (List.takeWhile_prefix _).length_le hlen)

section
variable {key val : Bytes} (hk : IsKey key) (hv : Legible val)

theorem not_isgraph_of_end {c : UInt8} (h : c = 13 ∨ c = 10) : isgraph c = false ∧ c ≠ 61 ∧ c ≠ 0 := by
  rcases h with rfl | rfl
  · decide
  · decide

theorem filter_end {tail : Bytes} (h : ∀ c ∈ tail, c = 13 ∨ c = 10) : tail.filter isgraph = [] := by
  refine List.filter_eq_nil_iff.mpr fun c hc => ?_
  rw [(not_isgraph_of_end (h c hc)).1]
  exact Bool.false_ne_true

include hk in
theorem takeWhile_key {w : Bytes} : (key ++ w).takeWhile (· ≠ 61) = key ++ w.takeWhile (· ≠ 61) := by
  refine List.takeWhile_append_of_pos fun c hc => ?_
  rw [decide_eq_true_iff]
  rintro rfl
  exact hk.no_eq hc

include hk in
theorem dropWhile_key {w : Bytes} : (key ++ w).dropWhile (· ≠ 61) = w.dropWhile (· ≠ 61) := by
  refine List.dropWhile_append_of_pos fun c hc => ?_
  rw [decide_eq_true_iff]
  rintro rfl
  exact hk.no_eq hc

include hk in
theorem take_assign : (assign key val).take 99 = key ++ (61 :: val).take (99 - key.length) := by
  unfold assign
  rw [List.take_append, List.take_of_length_le hk.length_le]

include hk in
theorem nameOf_take {tail : Bytes} (ht : ∀ c ∈ tail, c = 13 ∨ c = 10) :
    nameOf ((assign key val).take 99 ++ tail) = key := by
  have hkey : key.filter isgraph = key := List.filter_eq_self.mpr hk.graph
  unfold nameOf
  rw [take_assign hk, List.append_assoc, takeWhile_key hk, List.filter_append, hkey]
  cases 99 - key.length with
  | zero =>
    have htail : (tail.takeWhile (· ≠ 61)).filter isgraph = [] :=
      filter_end fun c hc => ht c ((List.takeWhile_prefix _).sublist.subset hc)
    rw [List.take_zero, List.nil_append, htail, List.append_nil]
  | succ m =>
    rw [List.take_succ_cons, List.cons_append, List.takeWhile_cons_of_neg (by decide), List.filter_nil,
      List.append_nil]

include hk hv in
theorem valueOf_take {tail : Bytes} (ht : ∀ c ∈ tail, c = 13 ∨ c = 10) :
    valueOf ((assign key val).take 99 ++ tail) = val.take (98 - key.length) := by
  have hval : (val.take (98 - key.length)).filter isgraph = val.take (98 - key.length) :=
    List.filter_eq_self.mpr fun c hc => hv.2 c (List.mem_of_mem_take hc)
  unfold valueOf
  rw [take_assign hk, List.append_assoc, dropWhile_key hk]
  cases hm : 99 - key.length with
  | zero =>
    have htail : ((tail.dropWhile (· ≠ 61)).drop 1).filter isgraph = [] :=
      filter_end fun c hc => ht c ((List.dropWhile_suffix _).sublist.subset (List.mem_of_mem_drop hc))
    rw [List.take_zero, List.nil_append, htail, show 98 - key.length = 0 by omega, List.take_zero]
  | succ m =>
    rw [List.take_succ_cons, List.cons_append, List.dropWhile_cons_of_neg (by decide), List.drop_one, List.tail_cons,
      List.filter_append, filter_end ht, List.append_nil, show m = 98 - key.length by omega, hval]

include hk in
theorem isremark_take {tail : Bytes} : isremark ((assign key val).take 99 ++ tail) = false := by
  obtain ⟨c, key', rfl⟩ := List.exists_cons_of_ne_nil hk.ne_nil
  have hc : isgraph c = true := hk.graph c (List.mem_cons_self ..)
  have hne : c ≠ 35 := fun hc => hk.no_remark (by rw [hc]; rfl)
  unfold isremark
  rw [take_assign hk, List.cons_append, List.cons_append, List.find?_cons_of_pos hc]
  simpa using hne

include hk hv in
theorem entry_take {tail : Bytes} (ht : ∀ c ∈ tail, c = 13 ∨ c = 10) (hlen : tail.length ≤ 2) :
    (∃ sec, getsection ((assign key val).take 99 ++ tail) LINE_LEN = some sec ∧
      entry ((assign key val).take 99 ++ tail) = .header sec) ∨
    (getsection ((assign key val).take 99 ++ tail) LINE_LEN = none ∧
      entry ((assign key val).take 99 ++ tail) = .item key (val.take (98 - key.length))) := by
  have hl : ((assign key val).take 99 ++ tail).length < LINE_LEN := by
    have htake : ((assign key val).take 99).length ≤ 99 := List.length_take_le ..
    rw [List.length_append]
    unfold LINE_LEN
    omega
  rw [entry_eq hl, isremark_take hk, nameOf_take hk ht, valueOf_take hk hv ht]
  cases getsection ((assign key val).take 99 ++ tail) LINE_LEN with
  | some sec => exact Or.inl ⟨sec, rfl, rfl⟩
  | none => exact Or.inr ⟨rfl, if_neg hk.ne_nil⟩

theorem sectionEnd_eq {line : Bytes} {m : Nat} (hm : 2 ≤ m) (hg : isgraph (byteAt line m) = true)
    (hend : ∀ i, m < i → isgraph (byteAt line i) = false) : ∀ last, m ≤ last → sectionEnd line last = m
  | 0, h => absurd (Nat.le_trans hm h) (by decide)
  | 1, h => absurd (Nat.le_trans hm h) (by decide)
  | last + 2, h => by
    rw [sectionEnd]
    rcases Nat.eq_or_lt_of_le h with rfl | hlt
    · rw [if_pos hg]
    · rw [if_neg (by rw [hend _ hlt]; exact Bool.false_ne_true)]
      exact sectionEnd_eq hm hg hend (last + 1) (Nat.le_of_lt_succ hlt)

theorem isgraph_byteAt_end {tail : Bytes} (ht : ∀ c ∈ tail, c = 13 ∨ c = 10) (i : Nat) :
    isgraph (byteAt tail i) = false := by
  unfold byteAt
  rw [List.getD_eq_getElem?_getD]
  cases h : tail[i]? with
  | none => rfl
  | some c => exact (not_isgraph_of_end (ht c (List.mem_of_getElem? h))).1

include hk hv in
theorem getsection_assign {tail : Bytes} (ht : ∀ c ∈ tail, c = 13 ∨ c = 10) :
    getsection (assign key val ++ tail) LINE_LEN = none ↔ ¬(key.head? = some 91 ∧ val.getLast? = some 93) := by
  obtain ⟨c, key', rfl⟩ := List.exists_cons_of_ne_nil hk.ne_nil
  obtain ⟨val', d, rfl⟩ : ∃ val' d, val = val' ++ [d] := ⟨_, _, (List.dropLast_concat_getLast hv.1).symm⟩
  have hc : isgraph c = true := hk.graph c (List.mem_cons_self ..)
  have hd : isgraph d = true := hv.2 d (List.mem_append_right _ (List.mem_singleton_self d))
  have hshape : assign (c :: key') (val' ++ [d]) ++ tail = (c :: key' ++ 61 :: val') ++ d :: tail := by
    simp [assign]
  rw [hshape]
  have hat : ∀ i, (c :: key' ++ 61 :: val').length ≤ i →
      byteAt ((c :: key' ++ 61 :: val') ++ d :: tail) i = byteAt (d :: tail) (i - (c :: key' ++ 61 :: val').length) := by
    intro i hi
    unfold byteAt
    rw [List.getD_eq_getElem?_getD, List.getElem?_append_right hi, ← List.getD_eq_getElem?_getD]
  generalize hm : (c :: key' ++ 61 :: val').length = m at hat
  have hm2 : 2 ≤ m := by
    rw [← hm, List.length_append, List.length_cons, List.length_cons]
    omega
  have hlast : byteAt ((c :: key' ++ 61 :: val') ++ d :: tail) m = d := by
    rw [hat m (Nat.le_refl m), Nat.sub_self]
    rfl
  have hend : ∀ i, m < i → isgraph (byteAt ((c :: key' ++ 61 :: val') ++ d :: tail) i) = false := by
    intro i hi
    obtain ⟨j, hj⟩ : ∃ j, i - m = j + 1 := Nat.exists_eq_add_one_of_ne_zero (Nat.sub_ne_zero_of_lt hi)
    rw [hat i (Nat.le_of_lt hi), hj]
    exact isgraph_byteAt_end ht j
  have hsec : sectionEnd ((c :: key' ++ 61 :: val') ++ d :: tail)
      ((c :: key' ++ 61 :: val') ++ d :: tail).length = m := by
    refine sectionEnd_eq hm2 (by rw [hlast]; exact hd) hend _ ?_
    rw [List.length_append, hm]
    exact Nat.le_add_right m _
  have hstart : ((c :: key' ++ 61 :: val') ++ d :: tail).findIdx isgraph = 0 := by
    rw [List.cons_append, List.cons_append, List.findIdx_cons, hc]
    rfl
  have hpos : ¬((c :: key' ++ 61 :: val') ++ d :: tail).length ≤ 0 := by simp
  have hfirst : byteAt ((c :: key' ++ 61 :: val') ++ d :: tail) 0 = c := rfl
  simp only [getsection, hsec, hstart, hpos, hfirst, hlast, if_false]
  rw [List.head?_cons, List.getLast?_concat, Option.some.injEq, Option.some.injEq]
  by_cases hc91 : c = 91
  · by_cases hd93 : d = 93
    · have h1 : ¬m ≤ 1 := by omega
      have h2 : ¬m - 0 < 2 := by omega
      simp only [hc91, hd93, ne_eq, not_true, if_false, h1, h2, and_self, iff_false]
      split <;> exact Option.some_ne_none _
    · simp only [hc91, hd93, ne_eq, not_true, not_false_eq_true, if_true, ite_self, and_false]
  · simp only [hc91, ne_eq, not_false_eq_true, if_true, false_and]

end

/-! ## The place of the line -/

theorem pieces_end (m : Nat) (t : Bytes) :
    ∃ tail blanks, piece m ([13, 10] ++ t) = tail ∧ tail.length ≤ 2 ∧ (∀ c ∈ tail, c = 13 ∨ c = 10) ∧
      pieces (([13, 10] ++ t).drop tail.length) = blanks ++ pieces t ∧ ∀ b ∈ blanks, ∀ c ∈ b, c = 13 ∨ c = 10 := by
  match m with
  | 0 =>
    have hrest : pieces (13 :: 10 :: t) = [[13, 10]] ++ pieces t := pieces_of_ne_nil (List.cons_ne_nil _ _)
    exact ⟨[], [[13, 10]], rfl, by decide, by simp, hrest, by simp⟩
  | 1 =>
    have hrest : pieces (10 :: t) = [[10]] ++ pieces t := pieces_of_ne_nil (List.cons_ne_nil _ _)
    exact ⟨[13], [[10]], rfl, by decide, by simp, hrest, by simp⟩
  | m + 2 => exact ⟨[13, 10], [], rfl, by decide, by simp, rfl, by simp⟩

theorem pieces_line {u : Bytes} (hu : 10 ∉ u) (t : Bytes) :
    ∃ tail others, pieces (u ++ ([13, 10] ++ t)) = (u.take 99 ++ tail) :: others ∧
      (∀ c ∈ tail, c = 13 ∨ c = 10) ∧ tail.length ≤ 2 ∧
      (u.length ≤ 99 → ∃ blanks, others = blanks ++ pieces t ∧ ∀ b ∈ blanks, ∀ c ∈ b, c = 13 ∨ c = 10) := by
  have hne : u ++ ([13, 10] ++ t) ≠ [] := List.append_ne_nil_of_right_ne_nil _ (List.cons_ne_nil _ _)
  rcases Nat.lt_or_ge 99 u.length with hlong | hshort
  · have h10 : 10 ∉ u.take 99 := fun h => hu (List.mem_of_mem_take h)
    have hlen : (u.take 99).length = 99 := List.length_take_of_le (Nat.le_of_lt hlong)
    have hp : piece 99 (u ++ ([13, 10] ++ t)) = u.take 99 ++ [] := by
      conv => lhs; rw [← List.take_append_drop 99 u, List.append_assoc]
      rw [piece_append _ h10 (Nat.le_of_eq hlen), hlen]
      rfl
    refine ⟨[], _, by rw [pieces_of_ne_nil hne, hp], fun c hc => absurd hc List.not_mem_nil, Nat.zero_le _, ?_⟩
    exact fun h => absurd h (Nat.not_le.mpr hlong)
  · obtain ⟨tail, blanks, htail, hlen, hend, hrest, hblanks⟩ := pieces_end (99 - u.length) t
    have hp := piece_append ([13, 10] ++ t) hu hshort
    rw [htail] at hp
    rw [List.take_of_length_le hshort]
    refine ⟨tail, pieces (([13, 10] ++ t).drop tail.length), ?_, hend, hlen, fun _ => ⟨blanks, hrest, hblanks⟩⟩
    rw [pieces_of_ne_nil hne, hp, List.length_append, List.drop_length_add_append]

theorem entry_blank {b : Bytes} (h : ∀ c ∈ b, c = 13 ∨ c = 10) : entry (cString b) = .skip := by
  have hmem : ∀ c ∈ cString b, isgraph c = false := fun c hc =>
    (not_isgraph_of_end (h c ((List.takeWhile_prefix _).sublist.subset hc))).1
  have hr : isremark (cString b) = true := by
    unfold isremark
    rw [List.find?_eq_none.mpr fun c hc => by rw [hmem c hc]; exact Bool.false_ne_true]
  unfold entry
  rw [if_pos hr]

theorem found_getconfigstrLoop {sect key : Bytes} {len : Nat} (fuel : Nat) : ∀ (f : FILE) (step : Bool) {v : Bytes}
    {LinePos LineCnt : Nat}, f.Honest → getconfigstrLoop sect key len fuel f step = .found v LinePos LineCnt →
    ∃ A P B old, pieces f.rest = A ++ P :: B ∧ LinePos = f.pos + A.flatten.length + P.length - (cString P).length ∧
      LineCnt = (cString P).length ∧ entry (cString P) = .item key old ∧
      (A.map fun p => entry (cString p)).foldl (Reader.next sect key) (place step) = .inside := by
  induction fuel with
  | zero => exact fun _ _ _ _ _ _ h => by cases h
  | succ fuel ih =>
    intro f step v LinePos LineCnt hf h
    by_cases hr : f.rest = []
    · have hnone := (@loop_nil sect key len f hr fuel step).1
      rw [h] at hnone
      cases hnone
    rw [getconfigstrLoop_succ hr hf] at h
    have hpieces := pieces_of_ne_nil hr
    rw [← rest_next] at hpieces
    -- the piece is read past
    have hpast : ∀ step', (place step).next sect key (entry (cString (piece 99 f.rest))) = place step' →
        getconfigstrLoop sect key len fuel f.next step' = .found v LinePos LineCnt →
        ∃ A P B old, pieces f.rest = A ++ P :: B ∧
          LinePos = f.pos + A.flatten.length + P.length - (cString P).length ∧
          LineCnt = (cString P).length ∧ entry (cString P) = .item key old ∧
          (A.map fun p => entry (cString p)).foldl (Reader.next sect key) (place step) = .inside := by
      intro step' hstep' h
      obtain ⟨A, P, B, old, hAPB, hpos, hcnt, hentry, hfold⟩ := ih f.next step' (honest_next hr hf) h
      refine ⟨piece 99 f.rest :: A, P, B, old, by rw [hpieces, hAPB]; rfl, ?_, hcnt, hentry, ?_⟩
      · rw [hpos, show f.next.pos = f.pos + (piece 99 f.rest).length from rfl, List.flatten_cons, List.length_append]
        omega
      · rw [List.map_cons, List.foldl_cons, hstep']
        exact hfold
    cases hn : (place step).next sect key (entry (cString (piece 99 f.rest))) with
    | searching =>
      rw [hn] at h
      exact hpast false hn h
    | inside =>
      rw [hn] at h
      exact hpast true hn h
    | ended =>
      rw [hn] at h
      cases h
    | found w =>
      obtain ⟨rfl, hentry⟩ := next_found hn
      rw [hn] at h
      cases h
      exact ⟨[], _, _, w, hpieces, rfl, rfl, hentry, rfl⟩

/-! ## What changes -/

section
variable {sect key : Bytes}

theorem lookup_skips {es : List Entry} (h : ∀ e ∈ es, e = .skip) (r : Reader) (fs : List Entry) :
    lookup sect key r (es ++ fs) = lookup sect key r fs := by
  induction es with
  | nil => rfl
  | cons e es ih =>
    have he : r.next sect key e = r := by
      rw [h e (List.mem_cons_self ..)]
      cases r <;> rfl
    rw [List.cons_append, lookup_cons, he]
    exact ih fun e hm => h e (List.mem_cons_of_mem _ hm)

theorem next_eq_inside {r : Reader} {e : Entry} (h : r.next sect key e = .inside) :
    (r = .inside ∧ ∀ sec, e ≠ .header sec) ∨ e = .header sect := by
  cases r with
  | searching =>
    cases e with
    | header sec =>
      by_cases hs : sec = sect
      · exact Or.inr (congrArg Entry.header hs)
      · simp only [Reader.next, hs, if_false, reduceCtorEq] at h
    | skip => cases h
    | item name value => cases h
  | inside =>
    refine Or.inl ⟨rfl, fun sec he => ?_⟩
    rw [he] at h
    cases h
  | found v => cases e <;> cases h
  | ended => cases e <;> cases h

theorem inside_inj {sect' key' : Bytes} (es : List Entry) :
    es.foldl (Reader.next sect key) .searching = .inside →
    es.foldl (Reader.next sect' key') .searching = .inside → sect' = sect := by
  induction es using List.reverseRecOn with
  | nil => exact fun h => by cases h
  | append_singleton es e ih =>
    intro h h'
    rw [List.foldl_append, List.foldl_cons, List.foldl_nil] at h h'
    rcases next_eq_inside h with ⟨hin, hno⟩ | rfl
    · rcases next_eq_inside h' with ⟨hin', -⟩ | rfl
      · exact ih hin hin'
      · exact absurd rfl (hno sect')
    · rcases next_eq_inside h' with ⟨-, hno⟩ | he
      · exact absurd rfl (hno sect)
      · cases he
        rfl

/-- **Another key does not see that the value of a key has changed.** -/
theorem lookup_frame {sect' key' : Bytes} (hne : (sect', key') ≠ (sect, key)) {es fs : List Entry}
    (hin : es.foldl (Reader.next sect key) .searching = .inside) (old new : Bytes) :
    lookup sect' key' .searching (es ++ .item key new :: fs) =
      lookup sect' key' .searching (es ++ .item key old :: fs) := by
  rw [lookup_append, lookup_append, lookup_cons, lookup_cons]
  cases hr : es.foldl (Reader.next sect' key') .searching with
  | searching => rfl
  | found v => rfl
  | ended => rfl
  | inside =>
    have hk : key ≠ key' := by
      rintro rfl
      exact hne (congrArg (·, key) (inside_inj es hin hr))
    simp only [Reader.next, hk, if_false]

end

/-! ## The object -/

theorem loadLoop_eq (fuel : Nat) : ∀ f : FILE, f.rest.length < fuel →
    loadLoop fuel f = ((pieces f.rest).map cString).flatten := by
  induction fuel with
  | zero => exact fun _ h => absurd h (Nat.not_lt_zero _)
  | succ fuel ih =>
    intro f hlen
    rw [loadLoop]
    by_cases h : f.rest = []
    · have hg := fgets_nil h
      rw [h, pieces_nil]
      generalize f.fgets 100 = r at hg
      obtain ⟨line, g⟩ := r
      cases hg
      rfl
    · rw [fgets_of_ne_nil h, pieces_of_ne_nil h, ← rest_next]
      exact congrArg (cString (piece 99 f.rest) ++ ·)
        (ih f.next (Nat.lt_of_lt_of_le (length_rest_next h) (Nat.le_of_lt_succ hlen)))

theorem cString_of_mem_pieces {content p : Bytes} (h : 0 ∉ content) (hp : p ∈ pieces content) : cString p = p := by
  refine cString_eq fun h0 => h ?_
  rw [← flatten_pieces content]
  exact List.mem_flatten.mpr ⟨p, hp, h0⟩

theorem construct_eq {content : Bytes} (h : 0 ∉ content) : construct content = ⟨content, content⟩ := by
  have hmap : (pieces content).map cString = pieces content := by
    rw [List.map_congr_left fun p hp => cString_of_mem_pieces h hp, List.map_id']
  have hload : loadLoop (content.length + 1) ⟨content, 0, false⟩ = content := by
    rw [loadLoop_eq (content.length + 1) ⟨content, 0, false⟩ (Nat.lt_succ_self _)]
    rw [show FILE.rest ⟨content, 0, false⟩ = content from rfl, hmap, flatten_pieces]
  unfold construct load stream
  rw [if_pos rfl, hload]

theorem save_eq {s : Bytes} (h : s ≠ []) (file : Bytes) : save ⟨file, s⟩ = ⟨s, s⟩ := if_neg h

section
variable {sect key val : Bytes} {ini : TIniFile}

def Finds (ini : TIniFile) (sect key : Bytes) : Prop :=
  ∃ value, ∀ defaultVal, ini.readString sect key defaultVal = value

theorem readString_iff {value : Bytes} : (∀ defaultVal, ini.readString sect key defaultVal = value) ↔
    lookup sect key .searching (entries ini.file) = some value := by
  simp only [readString_eq]
  cases lookup sect key .searching (entries ini.file) with
  | some v => simp
  | none =>
    simp only [Option.getD_none, reduceCtorEq, iff_false]
    exact fun h => absurd ((h []).trans (h [0]).symm) (List.cons_ne_nil _ _).symm

theorem finds_iff : Finds ini sect key ↔
    ∃ v LinePos LineCnt, ini.getconfigstr sect key VALUE_LEN = .found v LinePos LineCnt := by
  have hv : (ini.getconfigstr sect key VALUE_LEN).value = lookup sect key .searching (entries ini.file) :=
    value_getconfigstrLoop _ ini.stream false (honest_stream ini) (Nat.lt_succ_self _)
  unfold Finds
  simp only [readString_iff, ← hv]
  cases ini.getconfigstr sect key VALUE_LEN with
  | error code => simp [Result.value]
  | found v LinePos LineCnt => simp [Result.value]

theorem writeString_of_finds {content : Bytes} (hcontent : 0 ∉ content)
    (hfit : (key ++ 61 :: (val ++ [13, 10])).length < VALUE_LEN) (h : Finds (construct content) sect key) :
    ∃ A P B old, pieces content = A ++ P :: B ∧ entry P = .item key old ∧ P.length ≤ 99 ∧
      (A.map fun p => entry (cString p)).foldl (Reader.next sect key) .searching = .inside ∧
      (construct content).writeString sect key val =
        .ok (true, ⟨A.flatten ++ (assign key val ++ ([13, 10] ++ B.flatten)),
          A.flatten ++ (assign key val ++ ([13, 10] ++ B.flatten))⟩) := by
  obtain ⟨v, LinePos, LineCnt, hfound⟩ := finds_iff.mp h
  rw [construct_eq hcontent] at hfound ⊢
  obtain ⟨A, P, B, old, hAPB, hpos, hcnt, hentry, hfold⟩ :=
    found_getconfigstrLoop _ _ false (honest_stream _) hfound
  change pieces content = A ++ P :: B at hAPB
  have hmem : P ∈ pieces content := by
    rw [hAPB]
    exact List.mem_append_right _ (List.mem_cons_self ..)
  have hP : cString P = P := cString_of_mem_pieces hcontent hmem
  rw [hP] at hpos hcnt hentry
  rw [show (⟨content, content⟩ : TIniFile).stream.pos = 0 from rfl, Nat.zero_add, Nat.add_sub_cancel] at hpos
  have hsplit : content = A.flatten ++ (P ++ B.flatten) := by
    rw [← flatten_pieces content, hAPB, List.flatten_append, List.flatten_cons]
  refine ⟨A, P, B, old, hAPB, hentry, length_of_mem_pieces content P hmem, hfold, ?_⟩
  -- what stands at the place of the piece
  have hreplace : replace content LinePos LineCnt (key ++ 61 :: (val ++ [13, 10])) =
      .ok (A.flatten ++ (assign key val ++ ([13, 10] ++ B.flatten))) := by
    rw [hpos, hcnt, hsplit]
    unfold replace
    rw [if_pos (by rw [List.length_append]; exact Nat.le_add_right _ _), List.take_left, ← List.drop_drop,
      List.drop_left, List.drop_left]
    simp [assign]
  have hne : A.flatten ++ (assign key val ++ ([13, 10] ++ B.flatten)) ≠ [] := by simp
  unfold writeString
  simp only [hfound, if_neg (Nat.not_le.mpr hfit), hreplace]
  change Except.ok (true, save ⟨content, _⟩) = _
  rw [save_eq hne]

end

/-! ## What is read back -/

structure Written (ini ini' : TIniFile) (sect key val : Bytes) : Prop where
  read : ∀ defaultVal, ini'.readString sect key defaultVal = val
  frame : ∀ sect' key', (sect', key') ≠ (sect, key) → ∀ defaultVal,
    ini'.readString sect' key' defaultVal = ini.readString sect' key' defaultVal

structure WritesBack (ini : TIniFile) (sect key val : Bytes) : Prop where
  found : Finds ini sect key → ∃ ini', ini.writeString sect key val = .ok (true, ini') ∧ Written ini ini' sect key val
  missing : ¬Finds ini sect key → ini.writeString sect key val = .ok (false, ini)

section
variable {content sect key val : Bytes}

theorem writeString_of_not_finds {ini : TIniFile} (h : ¬Finds ini sect key) :
    ini.writeString sect key val = .ok (false, ini) := by
  unfold writeString
  cases hg : ini.getconfigstr sect key VALUE_LEN with
  | error code => rfl
  | found v LinePos LineCnt => exact absurd (finds_iff.mpr ⟨v, LinePos, LineCnt, hg⟩) h

theorem not_mem_assign {c : UInt8} (hk : IsKey key) (hv : Legible val) (hc : isgraph c = false) : c ∉ assign key val := by
  intro h
  rcases List.mem_append.mp h with h | h
  · rw [hk.graph c h] at hc
    cases hc
  rcases List.mem_cons.mp h with rfl | h
  · exact absurd hc (by decide)
  · rw [hv.2 c h] at hc
    cases hc

theorem entries_written {A B : List Bytes} {P : Bytes} (hk : IsKey key) (hv : Legible val)
    (hAPB : pieces content = A ++ P :: B) :
    ∃ tail es, (∀ c ∈ tail, c = 13 ∨ c = 10) ∧ tail.length ≤ 2 ∧
      entries (A.flatten ++ (assign key val ++ ([13, 10] ++ B.flatten))) =
        A.map (fun p => entry (cString p)) ++ entry ((assign key val).take 99 ++ tail) :: es ∧
      ((assign key val).length ≤ 99 → ∃ skips, es = skips ++ B.map (fun p => entry (cString p)) ∧
        ∀ e ∈ skips, e = .skip) := by
  obtain ⟨hA, hB⟩ := pieces_change hAPB
  obtain ⟨tail, others, hline, hend, hlen, hblanks⟩ := pieces_line (not_mem_assign hk hv (by decide)) B.flatten
  have h0 : 0 ∉ (assign key val).take 99 ++ tail := by
    intro h
    rcases List.mem_append.mp h with h | h
    · exact not_mem_assign hk hv (by decide) (List.mem_of_mem_take h)
    · exact (not_isgraph_of_end (hend 0 h)).2.2 rfl
  refine ⟨tail, others.map fun p => entry (cString p), hend, hlen, ?_, fun hshort => ?_⟩
  · unfold entries
    rw [hA, hline, List.map_append, List.map_cons, cString_eq h0]
  · obtain ⟨blanks, rfl, hb⟩ := hblanks hshort
    refine ⟨blanks.map fun p => entry (cString p), by rw [hB, List.map_append], fun e he => ?_⟩
    obtain ⟨b, hmem, rfl⟩ := List.mem_map.mp he
    exact entry_blank (hb b hmem)

theorem entries_content {A B : List Bytes} {P : Bytes} {e : Entry} (hcontent : 0 ∉ content)
    (hAPB : pieces content = A ++ P :: B) (he : entry P = e) :
    entries content = A.map (fun p => entry (cString p)) ++ e :: B.map (fun p => entry (cString p)) := by
  have hmem : P ∈ pieces content := by
    rw [hAPB]
    exact List.mem_append_right _ (List.mem_cons_self ..)
  unfold entries
  rw [hAPB, List.map_append, List.map_cons, cString_of_mem_pieces hcontent hmem, he]

/-- **When a value is read back**: for the keys that have a value, the line is read as one piece and does not stand
in brackets. A file in which the key is found is a text, without a NUL. -/
theorem writesBack_iff (content sect key val : Bytes)
    (hcontent : Finds (construct content) sect key → 0 ∉ content) (hv : Legible val)
    (hfit : (key ++ 61 :: (val ++ [13, 10])).length < VALUE_LEN) :
    WritesBack (construct content) sect key val ↔
      (Finds (construct content) sect key →
        key.length + 1 + val.length ≤ 99 ∧ ¬(key.head? = some 91 ∧ val.getLast? = some 93)) := by
  have hlenAssign : (assign key val).length = key.length + 1 + val.length := by
    unfold assign
    rw [List.length_append, List.length_cons]
    omega
  constructor
  · intro hw hfinds
    have htext := hcontent hfinds
    obtain ⟨A, P, B, old, hAPB, hentry, hPlen, hin, hok⟩ := writeString_of_finds htext hfit hfinds
    have hk : IsKey key := isKey_of_entry hentry hPlen
    obtain ⟨ini', hok', hwritten⟩ := hw.found hfinds
    cases hok.symm.trans hok'
    obtain ⟨tail, es, hend, hlen, hentries, -⟩ := entries_written hk hv hAPB
    have hread := readString_iff.mp hwritten.read
    change lookup sect key .searching (entries (A.flatten ++ _)) = _ at hread
    rw [hentries, lookup_append, hin, lookup_cons] at hread
    rcases entry_take hk hv hend hlen with ⟨sec, -, he⟩ | ⟨hsec, he⟩
    · rw [he, Reader.next, lookup_ended] at hread
      cases hread
    · rw [he, Reader.next, if_pos rfl, lookup_found, Option.some.injEq] at hread
      have hvlen := congrArg List.length hread
      rw [List.length_take] at hvlen
      have hvpos : 0 < val.length := List.length_pos_iff.mpr hv.1
      have hshort : (assign key val).length ≤ 99 := by omega
      rw [List.take_of_length_le hshort] at hsec
      exact ⟨hlenAssign ▸ hshort, (getsection_assign hk hv hend).mp hsec⟩
  · intro hcond
    refine ⟨fun hfinds => ?_, writeString_of_not_finds⟩
    obtain ⟨hshort, hbrackets⟩ := hcond hfinds
    have htext := hcontent hfinds
    obtain ⟨A, P, B, old, hAPB, hentry, hPlen, hin, hok⟩ := writeString_of_finds htext hfit hfinds
    have hk : IsKey key := isKey_of_entry hentry hPlen
    obtain ⟨tail, es, hend, hlen, hentries, hskips⟩ := entries_written hk hv hAPB
    obtain ⟨skips, rfl, hskip⟩ := hskips (by omega)
    have he : entry ((assign key val).take 99 ++ tail) = .item key val := by
      have hsec := (getsection_assign hk hv hend).mpr hbrackets
      rcases entry_take hk hv hend hlen with ⟨sec, hsome, -⟩ | ⟨-, he⟩
      · rw [List.take_of_length_le (by omega), hsec] at hsome
        cases hsome
      · rw [he, List.take_of_length_le (by omega)]
    rw [he] at hentries
    refine ⟨_, hok, ?_, ?_⟩
    · refine readString_iff.mpr ?_
      change lookup sect key .searching (entries (A.flatten ++ _)) = _
      rw [hentries, lookup_append, hin, lookup_cons, Reader.next, if_pos rfl, lookup_found]
    · intro sect' key' hne defaultVal
      rw [readString_eq, readString_eq, construct_eq htext]
      change (lookup sect' key' .searching (entries (A.flatten ++ _))).getD _ = _
      rw [hentries, entries_content htext hAPB hentry, lookup_frame hne hin old val, lookup_append, lookup_append,
        lookup_cons, lookup_cons, lookup_skips hskip]

end

def plainContent : Bytes := [91, 115, 93, 10, 107, 61, 49, 10]

theorem writesBack_short : WritesBack (construct plainContent) [115] [107] [50] :=
  (writesBack_iff plainContent [115] [107] [50] (fun _ => by decide) ⟨by decide, List.all_eq_true.mp rfl⟩ (by decide)).mpr
    fun _ => ⟨by decide, by decide⟩

def longValue : Bytes := List.replicate 98 120

def longContent : Bytes := [91, 115, 93, 10, 107, 61] ++ longValue ++ [13, 10]

/-- Of a value of 98 characters 97 are read back. -/
theorem not_writesBack_long : ¬∀ content sect key val : Bytes, 0 ∉ content → Legible val →
    (key ++ 61 :: (val ++ [13, 10])).length < VALUE_LEN → WritesBack (construct content) sect key val := by
  intro h
  have hw := h plainContent [115] [107] longValue (by decide) ⟨by decide, List.all_eq_true.mp rfl⟩ (by decide)
  have hfound : (construct plainContent).getconfigstr [115] [107] VALUE_LEN = .found [49] 4 4 := by decide
  have hwrite : (construct plainContent).writeString [115] [107] longValue =
      .ok (true, ⟨longContent, longContent⟩) := by decide +kernel
  have hread : (⟨longContent, longContent⟩ : TIniFile).readString [115] [107] [] ≠ longValue := by decide +kernel
  obtain ⟨ini', hok, hwritten⟩ := hw.found (finds_iff.mpr ⟨_, _, _, hfound⟩)
  cases hwrite.symm.trans hok
  exact hread (hwritten.read [])

end TIniFile

end Afn
