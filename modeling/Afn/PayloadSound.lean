import Afn.Payload
import Afn.Run

/-!
# When a shared payload is released

A unit that is destroyed looks at its own count, which says how often it has been copied itself. So the payload
goes with the first unit that was never copied, whoever else refers to it, and with each further one again.
-/

namespace Afn

open Bytes Access

namespace Payloads

/-! ## Steps -/

theorem dataLen_eq (_data : Bytes) :
    ∃ d, (PkgAfnData.unPackData _data 0 _data.length).out = .ok d ∧ d.m_nLen = dataLen _data := by
  unfold PkgAfnData.unPackData dataLen
  by_cases htag : PKG_AFN_DATATAGLEN ≤ _data.length
  · simp only [htag, if_true]
    have hread : (readAt _data 0 PKG_AFN_DATATAGLEN).out = .ok (slice _data 0 PKG_AFN_DATATAGLEN) := by
      simp only [readAt, Nat.zero_add, htag, if_true]
    have hsub : (sub32 _data.length PKG_AFN_DATATAGLEN).out = .ok (_data.length - PKG_AFN_DATATAGLEN) := by
      simp only [sub32, htag, if_true]
    rw [out_bind hread, out_bind hsub]
    by_cases hdata : 0 < _data.length - PKG_AFN_DATATAGLEN
    · simp only [hdata, if_true]
      have hbs : (readAt _data (0 + PKG_AFN_DATATAGLEN) (_data.length - PKG_AFN_DATATAGLEN)).out =
          .ok (slice _data (0 + PKG_AFN_DATATAGLEN) (_data.length - PKG_AFN_DATATAGLEN)) := by
        simp only [readAt, Nat.zero_add, Nat.add_sub_cancel' htag, Nat.le_refl, if_true]
      rw [out_bind hbs]
      refine ⟨_, rfl, ?_⟩
      simp only [PkgAfnData.m_nLen, length_slice, Nat.zero_add, Nat.min_self]
    · simp only [hdata, if_false]
      exact ⟨_, rfl, (Nat.eq_zero_of_not_pos hdata).symm⟩
  · simp only [htag, if_false]
    by_cases hdata : 0 < _data.length
    · simp only [hdata, if_true]
      have hbs : (readAt _data 0 _data.length).out = .ok (slice _data 0 _data.length) := by
        simp only [readAt, Nat.zero_add, Nat.le_refl, if_true]
      rw [out_bind hbs]
      exact ⟨_, rfl, by rw [PkgAfnData.m_nLen, slice_all]⟩
    · simp only [hdata, if_false]
      exact ⟨_, rfl, (Nat.eq_zero_of_not_pos hdata).symm⟩

section
variable {s s' : Payloads}

theorem set_self (units : Nat → Option DataUnit) (u : Nat) (d : Option DataUnit) : set units u d u = d := if_pos rfl

theorem set_ne {u v : Nat} (h : v ≠ u) (units : Nat → Option DataUnit) (d : Option DataUnit) :
    set units u d v = units v := if_neg h

theorem step_cases {a : Act} (h : s.step a = some s') :
    (∃ _data, a = .construct _data ∧ s' = s.construct _data) ∨
    (∃ _origin d, a = .copy _origin ∧ s.units _origin = some d ∧ s' = s.copy _origin d) ∨
    ∃ u d, a = .destroy u ∧ s.units u = some d ∧ s' = s.destroy u d := by
  cases a with
  | construct _data => exact .inl ⟨_data, rfl, (Option.some.inj h).symm⟩
  | copy _origin =>
    obtain ⟨d, hd, rfl⟩ := Option.map_eq_some_iff.mp h
    exact .inr (.inl ⟨_origin, d, rfl, hd, rfl⟩)
  | destroy u =>
    obtain ⟨d, hd, rfl⟩ := Option.map_eq_some_iff.mp h
    exact .inr (.inr ⟨u, d, rfl, hd, rfl⟩)

/-! ## References -/

def Refers (s : Payloads) (u p : Nat) : Prop := ∃ d, s.units u = some d ∧ d.m_pData = some p

theorem refers_construct (_data : Bytes) (u p : Nat) :
    (s.construct _data).Refers u p ↔ if u = s.nextUnit then (s.made _data).m_pData = some p else s.Refers u p := by
  unfold construct Refers
  by_cases hu : u = s.nextUnit
  · subst hu
    simp only [if_true, set_self, Option.some.injEq, exists_eq_left']
  · simp only [hu, if_false, set_ne hu]

theorem made_inv {_data : Bytes} {p : Nat} (hp : (s.made _data).m_pData = some p) :
    0 < dataLen _data ∧ p = s.nextData ∧ (s.made _data).m_DataUsed = 1 := by
  unfold made at hp ⊢
  split at hp
  next hpos =>
    cases hp
    exact ⟨hpos, rfl, by rw [if_pos hpos]⟩
  next => cases hp

theorem refers_copy {_origin : Nat} {d : DataUnit} (hd : s.units _origin = some d) (u p : Nat) :
    (s.copy _origin d).Refers u p ↔ if u = s.nextUnit then s.Refers _origin p else s.Refers u p := by
  unfold copy Refers
  by_cases hu : u = s.nextUnit
  · subst hu
    simp only [if_true, set_self, hd, Option.some.injEq, exists_eq_left']
  · simp only [hu, if_false, set_ne hu]
    by_cases ho : u = _origin
    · subst ho
      simp only [set_self, hd, Option.some.injEq, exists_eq_left']
    · simp only [set_ne ho]

theorem refers_destroy (u : Nat) (d : DataUnit) (v p : Nat) :
    (s.destroy u d).Refers v p ↔ v ≠ u ∧ s.Refers v p := by
  unfold destroy Refers
  by_cases hv : v = u
  · subst hv
    simp only [set_self]
    constructor
    · rintro ⟨_, h, -⟩
      cases h
    · exact fun h => absurd rfl h.1
  · simp only [set_ne hv, ne_eq, hv, not_false_eq_true, true_and]

/-! ## The invariant -/

structure Inv (s : Payloads) : Prop where
  unit_lt : ∀ {u d}, s.units u = some d → u < s.nextUnit
  data_lt : ∀ {u p}, s.Refers u p → p < s.nextData
  used : ∀ {u d p}, s.units u = some d → d.m_pData = some p → d.m_DataUsed = 1 + s.copies u
  copies_new : ∀ {u}, s.nextUnit ≤ u → s.copies u = 0
  released_lt : ∀ {p}, p ∈ s.released → p < s.nextData

theorem inv_start : start.Inv where
  unit_lt h := nomatch h
  data_lt h := by
    obtain ⟨d, h, -⟩ := h
    cases h
  used h := nomatch h
  copies_new _ := rfl
  released_lt h := nomatch h

theorem Refers.lt (h : s.Inv) {u p : Nat} (hr : s.Refers u p) : u < s.nextUnit := by
  obtain ⟨d, hd, -⟩ := hr
  exact h.unit_lt hd

theorem Inv.construct (h : s.Inv) (_data : Bytes) : (s.construct _data).Inv := by
  have hdata : s.nextData ≤ (s.construct _data).nextData := by
    simp only [Payloads.construct]
    split
    · exact Nat.le_succ _
    · exact Nat.le_refl _
  constructor
  · intro u d hu
    simp only [Payloads.construct] at hu ⊢
    by_cases hnew : u = s.nextUnit
    · rw [hnew]
      exact Nat.lt_succ_self _
    · rw [set_ne hnew] at hu
      exact Nat.lt_succ_of_lt (h.unit_lt hu)
  · intro u p hr
    rw [refers_construct] at hr
    split at hr
    · obtain ⟨hpos, rfl, -⟩ := made_inv hr
      simp only [Payloads.construct, hpos, if_true]
      exact Nat.lt_succ_self _
    · exact Nat.lt_of_lt_of_le (h.data_lt hr) hdata
  · intro u d p hu hp
    simp only [Payloads.construct] at hu ⊢
    by_cases hnew : u = s.nextUnit
    · rw [hnew, set_self] at hu
      cases hu
      rw [(made_inv hp).2.2, hnew, h.copies_new (Nat.le_refl _)]
      rfl
    · rw [set_ne hnew] at hu
      exact h.used hu hp
  · intro u hu
    simp only [Payloads.construct] at hu ⊢
    exact h.copies_new (Nat.le_of_succ_le hu)
  · exact fun hp => Nat.lt_of_lt_of_le (h.released_lt hp) hdata

theorem Inv.copy (h : s.Inv) {_origin : Nat} {d : DataUnit} (hd : s.units _origin = some d) :
    (s.copy _origin d).Inv := by
  have ho := h.unit_lt hd
  have hne : _origin ≠ s.nextUnit := Nat.ne_of_lt ho
  constructor
  · intro u d' hu
    simp only [Payloads.copy] at hu ⊢
    by_cases hnew : u = s.nextUnit
    · rw [hnew]
      exact Nat.lt_succ_self _
    · rw [set_ne hnew] at hu
      apply Nat.lt_succ_of_lt
      by_cases hu' : u = _origin
      · rw [hu']
        exact ho
      · rw [set_ne hu'] at hu
        exact h.unit_lt hu
  · intro u p hr
    rw [refers_copy hd] at hr
    split at hr
    · exact h.data_lt hr
    · exact h.data_lt hr
  · intro u d' p hu hp
    simp only [Payloads.copy] at hu ⊢
    by_cases hnew : u = s.nextUnit
    · subst hnew
      rw [set_self] at hu
      cases hu
      rw [if_neg (Ne.symm hne), h.copies_new (Nat.le_refl _)]
      rfl
    · rw [set_ne hnew] at hu
      by_cases hu' : u = _origin
      · subst hu'
        rw [set_self] at hu
        cases hu
        rw [if_pos rfl]
        have hused := h.used hd hp
        simp only [hused]
        omega
      · rw [set_ne hu'] at hu
        rw [if_neg hu']
        exact h.used hu hp
  · intro u hu
    simp only [Payloads.copy] at hu ⊢
    rw [if_neg (by omega)]
    exact h.copies_new (by omega)
  · exact fun hp => h.released_lt hp

theorem Inv.destroy (h : s.Inv) {u : Nat} {d : DataUnit} (hd : s.units u = some d) : (s.destroy u d).Inv := by
  have hunits : ∀ {v d'}, (s.destroy u d).units v = some d' → s.units v = some d' := by
    intro v d' hv
    simp only [Payloads.destroy] at hv
    by_cases hu : v = u
    · rw [hu, set_self] at hv
      cases hv
    · rw [set_ne hu] at hv
      exact hv
  constructor
  · exact fun hv => h.unit_lt (hunits hv)
  · intro v p hr
    exact h.data_lt ((refers_destroy u d v p).mp hr).2
  · exact fun hv hp => h.used (hunits hv) hp
  · exact fun hv => h.copies_new hv
  · intro p hp
    simp only [Payloads.destroy] at hp ⊢
    split at hp
    · rcases List.mem_append.mp hp with hp | hp
      · exact h.data_lt ⟨d, hd, Option.mem_toList.mp hp⟩
      · exact h.released_lt hp
    · exact h.released_lt hp

theorem Inv.step {a : Act} (h : s.Inv) (hs : s.step a = some s') : s'.Inv := by
  rcases step_cases hs with ⟨_data, -, rfl⟩ | ⟨_origin, d, -, hd, rfl⟩ | ⟨u, d, -, hd, rfl⟩
  · exact h.construct _data
  · exact h.copy hd
  · exact h.destroy hd

/-! ## Releases -/

/-- A payload has been released if and only if no live unit refers to it, and none has been twice. -/
structure ReleasedByLast (s : Payloads) : Prop where
  released_iff : ∀ p < s.nextData, p ∈ s.released ↔ ∀ u, ¬ s.Refers u p
  once : s.released.Nodup

/-- A unit with a payload that is destroyed has never been copied if and only if no other unit refers to the
payload. -/
def LastUncopied (s : Payloads) : Act → Prop
  | .destroy u => ∀ p, s.Refers u p → (s.copies u = 0 ↔ ∀ v, v ≠ u → ¬ s.Refers v p)
  | _ => True

theorem ReleasedByLast.construct (h : s.Inv) (hr : s.ReleasedByLast) (_data : Bytes) :
    (s.construct _data).ReleasedByLast := by
  refine ⟨fun p hp => ?_, hr.once⟩
  have hnew : ¬ s.Refers s.nextUnit p := fun hn => Nat.lt_irrefl _ (hn.lt h)
  by_cases hold : p < s.nextData
  · apply (hr.released_iff p hold).trans
    constructor
    · intro hnone u
      rw [refers_construct]
      split
      · intro hp
        exact Nat.ne_of_lt hold (made_inv hp).2.1
      · exact hnone u
    · intro hnone u hu
      apply hnone u
      rw [refers_construct, if_neg fun (heq : u = s.nextUnit) => hnew (heq ▸ hu)]
      exact hu
  · -- the payload is the new one
    have hpos : 0 < dataLen _data := by
      simp only [Payloads.construct] at hp
      split at hp
      · assumption
      · exact absurd hp hold
    have heq : p = s.nextData := by
      simp only [Payloads.construct, hpos, if_true] at hp
      omega
    constructor
    · exact fun hmem => absurd (h.released_lt hmem) hold
    · intro hnone
      refine absurd ?_ (hnone s.nextUnit)
      rw [refers_construct, if_pos rfl, made, if_pos hpos, heq]

theorem ReleasedByLast.copy (h : s.Inv) (hr : s.ReleasedByLast) {_origin : Nat} {d : DataUnit}
    (hd : s.units _origin = some d) : (s.copy _origin d).ReleasedByLast := by
  refine ⟨fun p hp => ?_, hr.once⟩
  have hnew : ¬ s.Refers s.nextUnit p := fun hn => Nat.lt_irrefl _ (hn.lt h)
  apply (hr.released_iff p hp).trans
  constructor
  · intro hnone u
    rw [refers_copy hd]
    split
    · exact hnone _origin
    · exact hnone u
  · intro hnone u hu
    apply hnone u
    rw [refers_copy hd, if_neg fun (heq : u = s.nextUnit) => hnew (heq ▸ hu)]
    exact hu

theorem refers_iff {u p : Nat} {d : DataUnit} (hd : s.units u = some d) : s.Refers u p ↔ d.m_pData = some p := by
  constructor
  · rintro ⟨d', hd', hp'⟩
    rw [hd] at hd'
    cases hd'
    exact hp'
  · exact fun hp => ⟨d, hd, hp⟩

theorem unreferred_destroy {u p : Nat} (d : DataUnit) (hu : ¬ s.Refers u p) :
    (∀ v, ¬ s.Refers v p) ↔ ∀ v, ¬ (s.destroy u d).Refers v p := by
  constructor
  · exact fun hnone v hv => hnone v ((refers_destroy u d v p).mp hv).2
  · exact fun hnone v hv => hnone v ((refers_destroy u d v p).mpr ⟨fun heq => hu (heq ▸ hv), hv⟩)

theorem destroy_null {u : Nat} {d : DataUnit} (hd : s.units u = some d) (hnull : d.m_pData = none)
    (hr : s.ReleasedByLast) : (s.destroy u d).ReleasedByLast := by
  have hreleased : (s.destroy u d).released = s.released := by
    simp only [Payloads.destroy, hnull, Option.toList_none, List.nil_append, ite_self]
  refine ⟨fun p hp => ?_, by rw [hreleased]; exact hr.once⟩
  have hu : ¬ s.Refers u p := by
    rw [refers_iff hd, hnull]
    exact fun he => nomatch he
  rw [hreleased]
  exact (hr.released_iff p hp).trans (unreferred_destroy d hu)

section
variable {u : Nat} {d : DataUnit} (h : s.Inv) (hd : s.units u = some d)
include h hd

theorem released_destroy {p : Nat} (hp : d.m_pData = some p) :
    (s.destroy u d).released = if s.copies u = 0 then p :: s.released else s.released := by
  have hused := h.used hd hp
  simp only [Payloads.destroy, hp, Option.toList_some, List.singleton_append]
  by_cases hzero : s.copies u = 0
  · rw [if_pos (by omega), if_pos hzero]
  · rw [if_neg (by omega), if_neg hzero]

theorem not_released {p : Nat} (hp : d.m_pData = some p) (hr : s.ReleasedByLast) : p ∉ s.released := by
  have hu : s.Refers u p := ⟨d, hd, hp⟩
  rw [hr.released_iff p (h.data_lt hu)]
  exact fun hnone => hnone u hu

theorem mem_released_destroy {p : Nat} (hp : d.m_pData = some p) (hr : s.ReleasedByLast) :
    p ∈ (s.destroy u d).released ↔ s.copies u = 0 := by
  have hfresh := not_released h hd hp hr
  rw [released_destroy h hd hp]
  by_cases hzero : s.copies u = 0
  · rw [if_pos hzero]
    exact ⟨fun _ => hzero, fun _ => List.mem_cons_self ..⟩
  · rw [if_neg hzero]
    exact ⟨fun hmem => absurd hmem hfresh, fun hz => absurd hz hzero⟩

theorem mem_released_destroy_of_ne {p p' : Nat} (hp : d.m_pData = some p) (hne : p' ≠ p) :
    p' ∈ (s.destroy u d).released ↔ p' ∈ s.released := by
  rw [released_destroy h hd hp]
  split
  · rw [List.mem_cons]
    exact or_iff_right hne
  · rfl

theorem nodup_released_destroy {p : Nat} (hp : d.m_pData = some p) (hr : s.ReleasedByLast) :
    (s.destroy u d).released.Nodup := by
  rw [released_destroy h hd hp]
  split
  · exact List.nodup_cons.mpr ⟨not_released h hd hp hr, hr.once⟩
  · exact hr.once

theorem releasedByLast_destroy_iff (hr : s.ReleasedByLast) :
    (s.destroy u d).ReleasedByLast ↔ s.LastUncopied (.destroy u) := by
  cases hp : d.m_pData with
  | none =>
    refine ⟨fun _ p hu => ?_, fun _ => destroy_null hd hp hr⟩
    rw [refers_iff hd, hp] at hu
    cases hu
  | some p =>
    have hu : s.Refers u p := (refers_iff hd).mpr hp
    have hlt : p < s.nextData := h.data_lt hu
    have hmem := mem_released_destroy h hd hp hr
    have hothers : (∀ v, ¬ (s.destroy u d).Refers v p) ↔ ∀ v, v ≠ u → ¬ s.Refers v p := by
      simp only [refers_destroy, not_and]
    have hlast : s.LastUncopied (.destroy u) ↔ (s.copies u = 0 ↔ ∀ v, v ≠ u → ¬ s.Refers v p) := by
      constructor
      · exact fun hl => hl p hu
      · intro hl p' hu'
        rw [refers_iff hd, hp] at hu'
        cases hu'
        exact hl
    rw [hlast, ← hothers]
    constructor
    · intro hr'
      rw [← hr'.released_iff p hlt, hmem]
    · intro hl
      refine ⟨fun p' hp' => ?_, nodup_released_destroy h hd hp hr⟩
      by_cases heq : p' = p
      · subst heq
        exact hmem.trans hl
      · have hu' : ¬ s.Refers u p' := by
          rw [refers_iff hd, hp]
          exact fun he => heq (Option.some.inj he).symm
        rw [mem_released_destroy_of_ne h hd hp heq, hr.released_iff p' hp']
        exact unreferred_destroy d hu'

end

theorem releasedByLast_iff {a : Act} (h : s.Inv) (hr : s.ReleasedByLast) (hs : s.step a = some s') :
    s'.ReleasedByLast ↔ s.LastUncopied a := by
  rcases step_cases hs with ⟨_data, rfl, rfl⟩ | ⟨_origin, d, rfl, hd, rfl⟩ | ⟨u, d, rfl, hd, rfl⟩
  · exact ⟨fun _ => trivial, fun _ => hr.construct h _data⟩
  · exact ⟨fun _ => trivial, fun _ => hr.copy h hd⟩
  · exact releasedByLast_destroy_iff h hd hr

end

/-- **In every state of a run a payload is released once and by its last unit, exactly when at every
destruction the last unit of a payload, and no other, has never been copied.** -/
theorem releasedByLast_throughout (as : List Act) :
    Run.Throughout step ReleasedByLast start as ↔ Run.Each step (fun s a _ => s.LastUncopied a) start as := by
  have hstart : start.ReleasedByLast := ⟨fun p hp => absurd hp (Nat.not_lt_zero p), List.nodup_nil⟩
  have hruns : Run.Each step (fun _ _ s' => s'.ReleasedByLast) start as ↔
      Run.Each step (fun s a _ => s.LastUncopied a) start as := by
    refine Run.each_iff (I := fun s => s.Inv ∧ s.ReleasedByLast) ?_ ?_ ⟨inv_start, hstart⟩
    · intro s a s' hI hs hl
      have hr := (releasedByLast_iff hI.1 hI.2 hs).mpr hl
      exact ⟨hr, hI.1.step hs, hr⟩
    · exact fun hI hs hr => (releasedByLast_iff hI.1 hI.2 hs).mp hr
  exact ⟨fun h => hruns.mp h.2, fun h => ⟨hstart, hruns.mpr h⟩⟩

-- a unit with one byte of payload and a copy of it, which is destroyed first
def copyDestroyed : List Act := [.construct [0, 0, 1, 0, 7], .copy 0, .destroy 1]

def copiesDestroyed : List Act := [.construct [0, 0, 1, 0, 7], .copy 0, .copy 0, .destroy 1, .destroy 2]

/-- The payload is released under the unit it was made for, and with two copies twice. -/
theorem copyDestroyed_released :
    ¬ Run.Throughout step ReleasedByLast start copyDestroyed ∧
    (∃ s, copyDestroyed.foldlM step start = some s ∧ s.released = [0] ∧ s.Refers 0 0) ∧
    ∃ s, copiesDestroyed.foldlM step start = some s ∧ s.released = [0, 0] := by
  refine ⟨fun h => ?_, ⟨_, rfl, rfl, ⟨_, rfl, rfl⟩⟩, _, rfl, rfl⟩
  obtain ⟨-, h⟩ := (h.2 _ rfl).2 _ rfl
  obtain ⟨hr, -⟩ := h _ rfl
  exact (hr.released_iff 0 (by decide)).mp (by decide) 0 ⟨⟨some 0, 2⟩, rfl, rfl⟩

end Payloads

end Afn
