import Afn.RecBufSound

/-!
# The parser on longer and on damaged buffers

The parser looks at the first `LEN + 8` bytes only, so what it has said of a buffer it says of every longer
one. And a frame with one byte changed fails the markers or the sum, unless the change is in a length field.
-/

namespace Afn

open Bytes Access AFNPackage

/-! ## Longer buffers -/

/-- Where the parser faults neither on `s` nor on `s ++ t`, an answer for `s` other than to wait is the answer
for `s ++ t`, with the package if there is one; it has eaten no more than `s`, and nothing while it waits. -/
def StableOn (mem mem' : AFNPackage) (s t : Bytes) : Prop :=
  ∀ {c e q c' e' q'}, ((construct mem).parseProto s).out = .ok (c, e, q) →
    ((construct mem').parseProto (s ++ t)).out = .ok (c', e', q') →
    (c = YQER_PKG_Err 1 → e = 0) ∧
    (c ≠ YQER_PKG_Err 1 → c' = c ∧ e' = e ∧ e ≤ s.length ∧ (c = YQER_OK → q' = q))

/-- The answers for `s`, `s ++ t` and `s ++ t ++ u` change at most once, from waiting. -/
def ChangesOnce (mem mem' mem'' : AFNPackage) (s t u : Bytes) : Prop :=
  ∀ {c e q c' e' q' c'' e'' q''}, ((construct mem).parseProto s).out = .ok (c, e, q) →
    ((construct mem').parseProto (s ++ t)).out = .ok (c', e', q') →
    ((construct mem'').parseProto (s ++ t ++ u)).out = .ok (c'', e'', q'') →
    (c, e) ≠ (c', e') → (c, e) = (YQER_PKG_Err 1, 0) ∧ (c'', e'') = (c', e')

theorem parse_cases {mem : AFNPackage} {w : Bytes} {c : Int} {e : Nat} {q : AFNPackage} (h31 : w.length < 2 ^ 31)
    (h : ((construct mem).parseProto w).out = .ok (c, e, q)) :
    ¬ Whole w ∧ c = YQER_PKG_Err 1 ∧ e = 0 ∨
    Whole w ∧ ¬ Marked w ∧ c = YQER_PKG_Err 2 ∧ e = lenAt w + 8 ∨
    Whole w ∧ Marked w ∧ ¬ Summed w ∧ c = YQER_PKG_Err 4 ∧ e = lenAt w + 8 ∨
    Checked w ∧ 12 ≤ lenAt w ∧ c = YQER_OK ∧ e = lenAt w + 8 ∧ q = frameOf w := by
  have code : ∀ {r : Int × Nat × AFNPackage}, Yields (InFrame w) ((construct mem).parseProto w) r →
      (c, e, q) = r := by
    intro r hr
    have hr := hr.out
    rw [h] at hr
    exact Except.ok.inj hr
  by_cases hw : Whole w
  · by_cases hm : Marked w
    · by_cases hs : Summed w
      · have hc : Checked w := ⟨hw, hm, hs⟩
        by_cases h12 : 12 ≤ lenAt w
        · have hr := code (parse_ok mem hc h12)
          cases hr
          exact .inr (.inr (.inr ⟨hc, h12, rfl, rfl, rfl⟩))
        · obtain ⟨f, hf⟩ := parse_fault mem hc (Nat.lt_of_not_le h12) (by omega)
          unfold Fails at hf
          rw [h] at hf
          cases hf
      · have hr := code (parse_sum mem hw hm hs)
        cases hr
        exact .inr (.inr (.inl ⟨hw, hm, hs, rfl, rfl⟩))
    · have hr := code (parse_mark mem hw hm)
      cases hr
      exact .inr (.inl ⟨hw, hm, rfl, rfl⟩)
  · obtain ⟨q', hq'⟩ := parse_wait mem hw
    have hr := code hq'
    cases hr
    exact .inl ⟨hw, rfl, rfl⟩

theorem stableOn (mem mem' : AFNPackage) {s t : Bytes} (h31 : (s ++ t).length < 2 ^ 31) : StableOn mem mem' s t := by
  intro c e q c' e' q' hs hst
  have hlen : s.length < 2 ^ 31 := by
    rw [List.length_append] at h31
    omega
  rcases parse_cases hlen hs with ⟨-, rfl, rfl⟩ | hfinal
  · exact ⟨fun _ => rfl, fun h => absurd rfl h⟩
  have hw : Whole s := by
    rcases hfinal with h | h | h
    · exact h.1
    · exact h.1
    · exact h.1.whole
  obtain ⟨h14, hle⟩ := (whole_iff hlen).mp hw
  have hL : lenAt (s ++ t) = lenAt s := lenAt_append (by omega) t
  have hmark : Marked (s ++ t) ↔ Marked s := marked_append h14 hle t
  have hsum : Summed (s ++ t) ↔ Summed s := summed_append h14 hle t
  have hw' : Whole (s ++ t) := by
    rw [whole_iff h31, hL, List.length_append]
    omega
  rcases hfinal with ⟨-, hm, rfl, rfl⟩ | ⟨-, hm, hn, rfl, rfl⟩ | ⟨hc, h12, rfl, rfl, rfl⟩
  · have hp := (parse_mark mem' hw' fun h => hm (hmark.mp h)).out
    rw [hst] at hp
    cases hp
    exact ⟨fun h => absurd h (by decide), fun _ => ⟨rfl, by rw [hL], hle, fun h => absurd h (by decide)⟩⟩
  · have hp := (parse_sum mem' hw' (hmark.mpr hm) fun h => hn (hsum.mp h)).out
    rw [hst] at hp
    cases hp
    exact ⟨fun h => absurd h (by decide), fun _ => ⟨rfl, by rw [hL], hle, fun h => absurd h (by decide)⟩⟩
  · have hp := (parse_ok mem' ⟨hw', hmark.mpr hc.marked, hsum.mpr hc.summed⟩ (by rw [hL]; exact h12)).out
    rw [hst] at hp
    cases hp
    exact ⟨fun h => absurd h (by decide), fun _ => ⟨rfl, by rw [hL], hle, fun _ => frameOf_append h14 hle t h12⟩⟩

/-- **What the parser decides on a buffer it decides on every longer one.** -/
theorem decision_stable (mem mem' mem'' : AFNPackage) (s t u : Bytes) (h31 : (s ++ t ++ u).length < 2 ^ 31) :
    StableOn mem mem' s t ∧ ChangesOnce mem mem' mem'' s t u := by
  have hst : (s ++ t).length < 2 ^ 31 := by
    rw [List.length_append] at h31
    omega
  refine ⟨stableOn mem mem' hst, ?_⟩
  intro c e q c' e' q' c'' e'' q'' h h' h'' hne
  obtain ⟨hwait, hfinal⟩ := stableOn mem mem' hst h h'
  obtain ⟨hwait', hfinal'⟩ := stableOn mem' mem'' h31 h' h''
  have hc : c = YQER_PKG_Err 1 := by
    refine Decidable.byContradiction fun hc => ?_
    obtain ⟨rfl, rfl, -, -⟩ := hfinal hc
    exact hne rfl
  have hc' : c' ≠ YQER_PKG_Err 1 := by
    intro hc'
    apply hne
    rw [hc, hc', hwait hc, hwait' hc']
  obtain ⟨rfl, rfl, -, -⟩ := hfinal' hc'
  exact ⟨by rw [hc, hwait hc], rfl⟩

theorem decision_stable_login :
    StableOn zeros zeros (login.take 10) (login.drop 10) ∧
      ChangesOnce zeros zeros zeros (login.take 10) (login.drop 10) [0x68] :=
  decision_stable zeros zeros zeros (login.take 10) (login.drop 10) [0x68] (by decide)

/-! ## Damaged frames -/

section
variable {data : Bytes} {i : Nat} (b : UInt8)

theorem lenAt_set (h : i = 0 ∨ 3 ≤ i) : lenAt (data.set i b) = lenAt data := by
  unfold lenAt
  rw [byteAt_set_ne b (by omega), byteAt_set_ne b (by omega)]

theorem whole_set (h : i = 0 ∨ 3 ≤ i) : Whole (data.set i b) ↔ Whole data := by
  unfold Whole
  rw [lenAt_set b h, List.length_set]

/-- The byte `b` at the offset `i` is detected: at a marker, or in the user data or the checksum. -/
def Detected (mem : AFNPackage) (data : Bytes) (i : Nat) (b : UInt8) : Prop :=
  (i = 0 ∨ i = 5 ∨ i = lenAt data + 7 →
    ∃ q, ((construct mem).parseProto (data.set i b)).out = .ok (YQER_PKG_Err 2, lenAt data + 8, q)) ∧
  (6 ≤ i ∧ i ≤ lenAt data + 6 →
    ∃ q, ((construct mem).parseProto (data.set i b)).out = .ok (YQER_PKG_Err 4, lenAt data + 8, q))

variable {b} (hc : Checked data) (hb : b ≠ byteAt data i)
include hc hb

theorem not_marked_set (hi : i = 0 ∨ i = 5 ∨ i = lenAt data + 7) : ¬ Marked (data.set i b) := by
  have hle := hc.whole.le_length
  obtain ⟨h0, h5, h7⟩ := hc.marked
  have hself : byteAt (data.set i b) i = b := byteAt_set b (by have := hc.whole.1; omega)
  rintro ⟨h0', h5', h7'⟩
  rw [lenAt_set b (by omega)] at h7'
  rcases hi with rfl | rfl | rfl
  · exact hb (by rw [← hself, h0', h0])
  · exact hb (by rw [← hself, h5', h5])
  · exact hb (by rw [← hself, h7', h7])

theorem not_summed_set (hi : 6 ≤ i ∧ i ≤ lenAt data + 6) :
    Marked (data.set i b) ∧ ¬ Summed (data.set i b) := by
  have hle := hc.whole.le_length
  have hL : lenAt (data.set i b) = lenAt data := lenAt_set b (by omega)
  obtain ⟨h0, h5, h7⟩ := hc.marked
  constructor
  · unfold Marked
    rw [hL, byteAt_set_ne b (by omega), byteAt_set_ne b (by omega), byteAt_set_ne b (by omega)]
    exact ⟨h0, h5, h7⟩
  · have hsum : byteSum (slice data 6 (lenAt data)) = byteAt data (lenAt data + 6) := hc.summed
    unfold Summed
    rw [hL]
    by_cases hcs : i = lenAt data + 6
    · -- the checksum itself
      subst hcs
      rw [slice_set_after b (by omega), byteAt_set b (by omega), hsum]
      exact fun h => hb h.symm
    · have hslice : i - 6 < (slice data 6 (lenAt data)).length := by
        rw [length_slice_of_le (by omega)]
        omega
      have hbyte : byteAt (slice data 6 (lenAt data)) (i - 6) = byteAt data i := by
        rw [byteAt_slice (by omega), show 6 + (i - 6) = i by omega]
      rw [slice_set b hi.1, byteAt_set_ne b hcs, ← hsum]
      exact byteSum_set_ne hslice (hbyte ▸ hb)

end

/-- **One wrong byte of a frame outside its length fields is detected**, and the whole frame is eaten. -/
theorem corruption_detected (mem mem' : AFNPackage) {data : Bytes} (h12 : 12 ≤ lenAt data)
    (haccept : ∃ e q, ((construct mem).parseProto data).out = .ok (YQER_OK, e, q)) {i : Nat} {b : UInt8}
    (hb : b ≠ byteAt data i) : Detected mem' data i b := by
  obtain ⟨e, q, h⟩ := haccept
  obtain ⟨hc, -, -⟩ := parse_ok_inv h12 h
  constructor
  · intro hi
    have hw : Whole (data.set i b) := (whole_set b (by omega)).mpr hc.whole
    have hp := (parse_mark mem' hw (not_marked_set hc hb hi)).out
    rw [lenAt_set b (by omega)] at hp
    exact ⟨_, hp⟩
  · intro hi
    have hw : Whole (data.set i b) := (whole_set b (by omega)).mpr hc.whole
    obtain ⟨hm, hs⟩ := not_summed_set hc hb hi
    have hp := (parse_sum mem' hw hm hs).out
    rw [lenAt_set b (by omega)] at hp
    exact ⟨_, hp⟩

theorem corruption_detected_login : (0x11 : UInt8) ≠ byteAt login 8 ∧ Detected zeros login 8 0x11 :=
  ⟨by decide, corruption_detected zeros zeros (by decide) ⟨20, frameOf login, rfl⟩ (by decide)⟩

end Afn
