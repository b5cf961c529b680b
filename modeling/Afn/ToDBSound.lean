import Afn.AFN0CSound
import Afn.ToDB

/-!
# Which readings are stored as they are

The numbers of a statement have six significant digits, and a meter counts up to ten. A unit is stored
exactly when none of its readings needs more than six.
-/

namespace Afn

open Bytes Access AFNData Decimal

/-! ## The fields of a unit -/

-- `n` bytes at `off`, whose lowest `places` digits stand after the point
structure Field where
  n : Nat
  places : Nat
  off : Nat
  deriving DecidableEq, Repr

namespace Field

def digits (f : Field) (data : Bytes) : List Nat := AFNData.digits data f.off f.n

def reading (f : Field) (data : Bytes) : Rat := (Nat.ofDigits 10 (f.digits data) : Nat) / 10 ^ f.places

end Field

namespace AllKwh

def group (n places m off : Nat) : List Field := (List.range (m + 1)).map fun i => ⟨n, places, off + n * i⟩

/-- The fields of a unit of `m` tariffs, in the order of the payload. -/
def fields (m : Nat) : List Field :=
  group 5 4 m 6 ++ group 4 2 m (11 + 5 * m) ++ group 4 2 m (15 + 9 * m) ++ group 4 2 m (19 + 13 * m)

/-- All nibbles of the fields are decimal digits. -/
def ValidBCD (data : Bytes) : Prop := ∀ f ∈ fields (tariffs data), ∀ x ∈ f.digits data, x < 10

end AllKwh

def KwhText.texts (k : KwhText) : List String := k.total :: k.fee

def Insert.texts (s : Insert) : List String :=
  s.userkwh.texts ++ s.devkwh.texts ++ s.onekwh.texts ++ s.fourkwh.texts

namespace AllKwh

/-- Every number that `toDB` writes for a field denotes the reading encoded there. -/
def StoredExactly (l : JzqList) (A1 A2 Fn pn : UInt16) (self : AllKwh) : Prop :=
  ∃ ret rows, self.toDB l A1 A2 Fn pn = some (ret, rows) ∧
    ∀ s ∈ rows, s.texts.map (fun t => denote t.toList) =
      (fields (tariffs self.base.m_pData)).map fun f => some (f.reading self.base.m_pData)

theorem mapM_eq_map {α β : Type} {f : α → Option β} {g : α → β} : ∀ {xs : List α},
    (∀ x ∈ xs, f x = some (g x)) → xs.mapM f = some (xs.map g) := by
  intro xs
  induction xs with
  | nil => exact fun _ => rfl
  | cons x xs ih =>
    intro h
    rw [List.mapM_cons, h x (List.mem_cons_self ..), ih fun y hy => h y (List.mem_cons_of_mem _ hy)]
    rfl

section
variable (n places m off : Nat) (data : Bytes)

theorem write_kwhAt : ∃ t, (kwhAt n (fieldValue n places data) m off).write m = some t ∧
    t.texts = (group n places m off).map fun f => floatText (fieldValue f.n f.places data f.off) := by
  have hfee : ∀ i ∈ List.range m, ((kwhAt n (fieldValue n places data) m off).fee.bind fun fee => fee[i]?.join) =
      some (fieldValue n places data (off + n + n * i)) := by
    intro i hi
    unfold kwhAt feesAt
    rw [Option.bind_some, List.getElem?_map, List.getElem?_range (List.mem_range.mp hi)]
    rfl
  refine ⟨⟨floatText (fieldValue n places data off),
    ((List.range m).map fun i => fieldValue n places data (off + n + n * i)).map floatText⟩, ?_, ?_⟩
  · unfold Kwh.write
    rw [mapM_eq_map hfee]
    rfl
  · unfold KwhText.texts group
    rw [List.range_succ_eq_map, List.map_cons, List.map_cons, List.map_map, List.map_map, List.map_map]
    congr 1
    refine List.map_congr_left fun i _ => ?_
    simp only [Function.comp_apply, Nat.mul_succ, Nat.add_assoc, Nat.add_comm n]

end

section
variable {d : PkgAfnData}

theorem insert_decoded (eleId : Int) : ∃ s, (decoded d).insert eleId = some s ∧
    s.texts = (fields (tariffs d.m_pData)).map fun f => floatText (fieldValue f.n f.places d.m_pData f.off) := by
  obtain ⟨user, huser, huserText⟩ := write_kwhAt 5 4 (tariffs d.m_pData) 6 d.m_pData
  obtain ⟨dev, hdev, hdevText⟩ := write_kwhAt 4 2 (tariffs d.m_pData) (11 + 5 * tariffs d.m_pData) d.m_pData
  obtain ⟨one, hone, honeText⟩ := write_kwhAt 4 2 (tariffs d.m_pData) (15 + 9 * tariffs d.m_pData) d.m_pData
  obtain ⟨four, hfour, hfourText⟩ := write_kwhAt 4 2 (tariffs d.m_pData) (19 + 13 * tariffs d.m_pData) d.m_pData
  refine ⟨⟨eleId, (decoded d).dt, user, dev, one, four⟩, ?_, ?_⟩
  · unfold insert decoded
    simp only [huser, hdev, hone, hfour, Option.bind_eq_bind, Option.bind_some]
    rfl
  · unfold Insert.texts fields
    rw [huserText, hdevText, honeText, hfourText, List.map_append, List.map_append, List.map_append]

theorem exists_of_mem_group {n places m off : Nat} {f : Field} (hf : f ∈ group n places m off) : f.n = n := by
  obtain ⟨i, -, rfl⟩ := List.mem_map.mp hf
  rfl

theorem field_pos {m : Nat} {f : Field} (hf : f ∈ fields m) : 0 < f.n := by
  unfold fields at hf
  simp only [List.mem_append] at hf
  rcases hf with ((hf | hf) | hf) | hf
  all_goals
    rw [exists_of_mem_group hf]
    decide

theorem value_eq_reading (hbcd : ValidBCD d.m_pData) {f : Field} (hf : f ∈ fields (tariffs d.m_pData)) :
    fieldValue f.n f.places d.m_pData f.off = f.reading d.m_pData := by
  have hee : byteAt d.m_pData f.off ≠ 0xee := by
    intro hee
    have hoff : f.off < d.m_pData.length := by
      refine Decidable.byContradiction fun hoff => ?_
      rw [byteAt, List.getD_eq_getElem?_getD, List.getElem?_eq_none (Nat.not_lt.mp hoff)] at hee
      exact absurd hee (by decide)
    obtain ⟨k, hk⟩ : ∃ k, f.n = k + 1 := ⟨f.n - 1, by have := field_pos hf; omega⟩
    have hdigit := hbcd f hf ((byteAt d.m_pData f.off).toNat % 16) (by
      rw [Field.digits, hk, digits_succ hoff]
      exact List.mem_cons_self ..)
    rw [hee] at hdigit
    exact absurd hdigit (by decide)
  rw [fieldValue, if_neg hee]
  rfl

theorem denote_reading_iff (hbcd : ValidBCD d.m_pData) {f : Field} (hf : f ∈ fields (tariffs d.m_pData)) :
    denote (floatText (f.reading d.m_pData)).toList = some (f.reading d.m_pData) ↔
      (core (f.digits d.m_pData)).length ≤ 6 := by
  have hscale : f.reading d.m_pData = (Nat.ofDigits 10 (f.digits d.m_pData) : Nat) * 10 ^ (-(f.places : Int)) := by
    rw [Field.reading, div_pow_eq]
  unfold floatText
  rw [String.toList_ofList, denote_general_iff (by decide), hscale, fits_iff_core _ (hbcd f hf)]

theorem toDB_decoded (l : JzqList) (A1 A2 Fn pn : UInt16) :
    (l.getEleID A1 A2 pn = -1 ∧ (decoded d).toDB l A1 A2 Fn pn = some (-1, [])) ∨
    (l.getEleID A1 A2 pn ≠ -1 ∧ ∃ s, (decoded d).toDB l A1 A2 Fn pn = some (YQER_OK, [s]) ∧
      s.texts = (fields (tariffs d.m_pData)).map fun f => floatText (fieldValue f.n f.places d.m_pData f.off)) := by
  unfold toDB
  by_cases hid : l.getEleID A1 A2 pn = -1
  · refine .inl ⟨hid, ?_⟩
    simp only [hid, if_true]
    rfl
  · obtain ⟨s, hs, htexts⟩ := insert_decoded (d := d) (l.getEleID A1 A2 pn)
    refine .inr ⟨hid, s, ?_, htexts⟩
    simp only [hid, if_false, hs]
    rfl

theorem storedExactly_decoded (l : JzqList) (A1 A2 Fn pn : UInt16) (hbcd : ValidBCD d.m_pData) :
    StoredExactly l A1 A2 Fn pn (decoded d) ↔
      l.getEleID A1 A2 pn = -1 ∨ ∀ f ∈ fields (tariffs d.m_pData), (core (f.digits d.m_pData)).length ≤ 6 := by
  have hbase : (decoded d).base = d := rfl
  unfold StoredExactly
  rw [hbase]
  obtain ⟨hid, hdb⟩ | ⟨hid, s, hdb, htexts⟩ := toDB_decoded (d := d) l A1 A2 Fn pn
  · exact iff_of_true ⟨-1, [], hdb, fun s hs => absurd hs List.not_mem_nil⟩ (.inl hid)
  have hmap : s.texts.map (fun t => denote t.toList) =
      (fields (tariffs d.m_pData)).map (fun f => some (f.reading d.m_pData)) ↔
      ∀ f ∈ fields (tariffs d.m_pData), (core (f.digits d.m_pData)).length ≤ 6 := by
    rw [htexts, List.map_map, List.map_inj_left]
    refine forall₂_congr fun f hf => ?_
    rw [Function.comp_apply, value_eq_reading hbcd hf, denote_reading_iff hbcd hf]
  constructor
  · rintro ⟨ret, rows, hrows, hall⟩
    rw [hdb] at hrows
    cases hrows
    exact .inr (hmap.mp (hall s (List.mem_singleton_self s)))
  · rintro (hnone | hfits)
    · exact absurd hnone hid
    · refine ⟨YQER_OK, [s], hdb, fun s' hs => ?_⟩
      rw [List.mem_singleton.mp hs]
      exact hmap.mpr hfits

end

/-- **The readings of a unit of decimal digits are stored exactly when no meter is found or each of them has at
most six digits from the first to the last that is not zero.** -/
theorem storedExactly_iff (l : JzqList) (A1 A2 Fn pn : UInt16) {d : PkgAfnData} {self : AllKwh}
    (hself : (handleData (construct d)).out = .ok (YQER_OK, self)) (hbcd : ValidBCD d.m_pData) :
    StoredExactly l A1 A2 Fn pn self ↔
      l.getEleID A1 A2 pn = -1 ∨ ∀ f ∈ fields (tariffs d.m_pData), (core (f.digits d.m_pData)).length ≤ 6 := by
  obtain ⟨-, rfl⟩ := accepted hself
  exact storedExactly_decoded l A1 A2 Fn pn hbcd

-- one tariff, where all readings but the first are zero
def oneTariff (total : Bytes) : PkgAfnData :=
  ⟨⟨0, 0, 0, 0⟩, [0x00, 0x12, 0x01, 0x01, 0x16, 0x01] ++ total ++ List.replicate 29 0⟩

def oneMeter : JzqList := ⟨[{ Jzq.construct "jzq" 1 1 1 with eleLst := [⟨7, 3⟩] }], 0⟩

theorem accepts_oneTariff (total : Bytes) (h : WellFormed (oneTariff total).m_pData) :
    (handleData (construct (oneTariff total))).out = .ok (YQER_OK, decoded (oneTariff total)) :=
  (handleData_accepts h).out

theorem storedExactly_oneTariff :
    StoredExactly oneMeter 1 1 33 3 (decoded (oneTariff [0x00, 0x78, 0x56, 0x34, 0x00])) := by
  have hself := accepts_oneTariff [0x00, 0x78, 0x56, 0x34, 0x00] (by unfold WellFormed; decide)
  have hbcd : ValidBCD (oneTariff [0x00, 0x78, 0x56, 0x34, 0x00]).m_pData := by
    unfold ValidBCD
    decide
  exact (storedExactly_iff oneMeter 1 1 33 3 hself hbcd).mpr (.inr (by decide))

/-- 123456.7891 and 123456.7892 are stored as the same number. -/
theorem lastDigit_lost :
    (handleData (construct (oneTariff [0x91, 0x78, 0x56, 0x34, 0x12]))).out =
      .ok (YQER_OK, decoded (oneTariff [0x91, 0x78, 0x56, 0x34, 0x12])) ∧
    ValidBCD (oneTariff [0x91, 0x78, 0x56, 0x34, 0x12]).m_pData ∧
    ¬ StoredExactly oneMeter 1 1 33 3 (decoded (oneTariff [0x91, 0x78, 0x56, 0x34, 0x12])) ∧
    (decoded (oneTariff [0x91, 0x78, 0x56, 0x34, 0x12])).userkwh.total ≠
      (decoded (oneTariff [0x92, 0x78, 0x56, 0x34, 0x12])).userkwh.total ∧
    (decoded (oneTariff [0x91, 0x78, 0x56, 0x34, 0x12])).toDB oneMeter 1 1 33 3 =
      (decoded (oneTariff [0x92, 0x78, 0x56, 0x34, 0x12])).toDB oneMeter 1 1 33 3 := by
  have hbcd : ValidBCD (oneTariff [0x91, 0x78, 0x56, 0x34, 0x12]).m_pData := by
    unfold ValidBCD
    decide
  refine ⟨accepts_oneTariff _ (by unfold WellFormed; decide), hbcd, ?_, by decide +kernel, by decide +kernel⟩
  rw [storedExactly_decoded oneMeter 1 1 33 3 hbcd]
  rintro (hid | hfits)
  · exact absurd hid (by decide)
  · exact absurd (hfits ⟨5, 4, 6⟩ (by decide)) (by decide)

end AllKwh

end Afn
