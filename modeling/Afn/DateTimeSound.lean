import Afn.DateTime
import Afn.ItoaSound

/-!
# What the text of a date is read as

The fields are read as written. The month is put into `tm_mon` as it is, where `mktime` counts from 0, and the copy
has no room for the NUL.
-/

namespace Afn.TParams

open Bytes Access TelnetServer COM

/-! ## Dates -/

def leap (year : Nat) : Bool := year % 4 == 0 && (year % 100 != 0 || year % 400 == 0)

def daysIn (year month : Nat) : Nat :=
  if month = 2 then (if leap year then 29 else 28)
  else if month = 4 ∨ month = 6 ∨ month = 9 ∨ month = 11 then 30
  else 31

structure Moment where
  year : Nat
  month : Nat
  day : Nat
  hour : Nat
  minute : Nat
  second : Nat
  year_range : 1900 ≤ year ∧ year ≤ 9999
  month_range : 1 ≤ month ∧ month ≤ 12
  day_range : 1 ≤ day ∧ day ≤ daysIn year month
  hour_lt : hour < 24
  minute_lt : minute < 60
  second_lt : second < 60

/-- As `mktime` understands it: the years from 1900 on, the months from 0 on. -/
structure Tm.Denotes (t : Tm) (d : Moment) : Prop where
  year : t.tm_year = (d.year : Int) - 1900
  mon : t.tm_mon = (d.month : Int) - 1
  mday : t.tm_mday = d.day
  hour : t.tm_hour = d.hour
  min : t.tm_min = d.minute
  sec : t.tm_sec = d.second

structure Number (lo hi v : Nat) (s : Bytes) : Prop where
  value : evaluate 10 s = some v
  length : lo ≤ s.length ∧ s.length ≤ hi

def Written (d : Moment) (src : Bytes) : Prop :=
  ∃ year month day hour minute second, Number 4 4 d.year year ∧ Number 1 2 d.month month ∧ Number 1 2 d.day day ∧
    Number 1 2 d.hour hour ∧ Number 1 2 d.minute minute ∧ Number 1 2 d.second second ∧
    src = year ++ 45 :: (month ++ 45 :: (day ++ 32 :: (hour ++ 58 :: (minute ++ 58 :: second))))

structure Decodes (mktime : Tm → Int) (d : Moment) (src : Bytes) (heap : Option Bytes) (gettm : Tm) : Prop where
  filled : ∃ t : Tm, (paramMySQLDateTime (some src) heap gettm).out = .ok (0, t) ∧ t.Denotes d ∧
    (asDateTime mktime (some src) heap gettm).out = .ok (mktime t)
  inside : ∀ e ∈ (paramMySQLDateTime (some src) heap gettm).log, Within src.length e

-- what is read: the month is one ahead
def Moment.read (d : Moment) : Tm := ⟨d.second, d.minute, d.hour, d.day, d.month, d.year - 1900, 0⟩

theorem not_denotes_read (d : Moment) : ¬ d.read.Denotes d := by
  intro h
  have hmon : (d.month : Int) = d.month - 1 := h.mon
  omega

/-! ## Numbers -/

section
variable {lo hi v w : Nat} {s rest : Bytes}

theorem appendDigit_ten {u : Nat} {c : UInt8} (h : appendDigit 10 u c = some v) :
    (48 ≤ c ∧ c ≤ 57) ∧ v = 10 * u + (c.toNat - 48) := by
  obtain ⟨d, hd, hv⟩ := Option.bind_eq_some_iff.mp h
  split at hv
  · rename_i hlt
    cases hv
    have hc := digit_decimal d hlt
    rw [digit_digitValue hd] at hc
    unfold digitValue at hd
    rw [if_pos hc] at hd
    cases hd
    exact ⟨hc, rfl⟩
  · cases hv

theorem strtolDigits_append : ∀ (s : Bytes) (u : Nat), s.foldlM (appendDigit 10) u = some v →
    strtolDigits u (s ++ 0 :: rest) = v := by
  intro s
  induction s with
  | nil =>
    intro u h
    cases h
    rfl
  | cons c s ih =>
    intro u h
    rw [List.foldlM_cons] at h
    obtain ⟨u', hu, h⟩ := Option.bind_eq_some_iff.mp h
    obtain ⟨hc, rfl⟩ := appendDigit_ten hu
    rw [List.cons_append, strtolDigits, if_pos hc]
    exact ih _ h

theorem Number.decimal (h : Number lo hi v s) {c : UInt8} (hc : c ∈ s) : 48 ≤ c ∧ c ≤ 57 := by
  obtain ⟨ds, hds, rfl, -⟩ := digits_of_evaluate s h.value
  obtain ⟨d, hd, rfl⟩ := List.mem_map.mp (List.mem_reverse.mp hc)
  exact digit_decimal d (hds d hd)

theorem Number.lt (h : Number lo hi v s) : v < 10 ^ s.length := by
  obtain ⟨ds, hds, rfl, rfl⟩ := digits_of_evaluate s h.value
  rw [List.length_reverse, List.length_map]
  exact Nat.ofDigits_lt_base_pow_length (by decide) hds

theorem Number.not_mem (h : Number lo hi v s) {c : UInt8} (hc : ¬ (48 ≤ c ∧ c ≤ 57)) : c ∉ s :=
  fun hmem => hc (h.decimal hmem)

theorem Number.ne_nil (h : Number lo hi v s) (hlo : 0 < lo) : s ≠ [] :=
  List.ne_nil_of_length_pos (Nat.lt_of_lt_of_le hlo h.length.1)

theorem not_isSpace {c : UInt8} (hc : 48 ≤ c ∧ c ≤ 57) : isSpace c = false ∧ c ≠ 45 ∧ c ≠ 43 := by
  have hle := UInt8.le_iff_toNat_le.mp hc.1
  have hne : ∀ x : UInt8, x.toNat < 48 → c ≠ x := by
    rintro x hx rfl
    exact absurd hle (Nat.not_le.mpr hx)
  have hnot : ¬ c ≤ 13 := fun h => absurd (Nat.le_trans hle (UInt8.le_iff_toNat_le.mp h)) (by decide)
  refine ⟨?_, hne 45 (by decide), hne 43 (by decide)⟩
  unfold isSpace
  rw [beq_false_of_ne (hne 32 (by decide)), decide_eq_false hnot, Bool.and_false]
  rfl

theorem atoi_eq (h : Number lo hi v s) (hlo : 0 < lo) (hhi : hi ≤ 9) : atoi (s ++ 0 :: rest) = v := by
  have hdigits : strtolDigits 0 (s ++ 0 :: rest) = v := strtolDigits_append s 0 h.value
  have hlt : v < 10 ^ 9 := Nat.lt_of_lt_of_le h.lt (Nat.pow_le_pow_right (by decide) (Nat.le_trans h.length.2 hhi))
  obtain ⟨c, r, rfl⟩ := List.exists_cons_of_ne_nil (h.ne_nil hlo)
  obtain ⟨hspace, hminus, hplus⟩ := not_isSpace (h.decimal (List.mem_cons_self ..))
  have hstrtol : strtol (c :: r ++ 0 :: rest) = v := by
    unfold strtol
    rw [List.cons_append, List.dropWhile_cons_of_neg (by rw [hspace]; exact Bool.false_ne_true)]
    show (if c = 45 then _ else if c = 43 then _ else min (strtolDigits 0 (c :: r ++ 0 :: rest) : Int) (2 ^ 63 - 1)) = _
    rw [if_neg hminus, if_neg hplus, hdigits]
    omega
  have hmod : ((v : Int) % 2 ^ 32).toNat = v := by omega
  unfold atoi
  rw [hstrtol, hmod]
  exact toInt32_of_lt (by omega)

theorem storeNumber_yields {P : Event → Prop} {set : Int → Tm → Tm} {ftm : Tm} (h : Number lo hi v s) (hlo : 0 < lo)
    (hhi : hi ≤ 9) : Yields P (storeNumber set (s ++ sztmpdata.drop s.length) ftm) (set v ftm) := by
  obtain ⟨n, hn⟩ : ∃ n, 10 - s.length = n + 1 := ⟨9 - s.length, by have := h.length.2; omega⟩
  have htmp : sztmpdata.drop s.length = 0 :: List.replicate n 0 := by
    rw [sztmpdata, List.drop_replicate, hn, List.replicate_succ]
  rw [htmp]
  have hatoi : atoiWithin (s ++ 0 :: List.replicate n 0) = ⟨[], .ok v⟩ := by
    obtain ⟨c, r, rfl⟩ := List.exists_cons_of_ne_nil (h.ne_nil hlo)
    obtain ⟨hspace, hminus, hplus⟩ := not_isSpace (h.decimal (List.mem_cons_self ..))
    have hsign : ¬((c :: (r ++ 0 :: List.replicate n 0)).head? = some 45 ∨
        (c :: (r ++ 0 :: List.replicate n 0)).head? = some 43) :=
      not_or.mpr ⟨fun hc => hminus (Option.some.inj hc), fun hc => hplus (Option.some.inj hc)⟩
    have hstops : (c :: (r ++ 0 :: List.replicate n 0)).all isDigit = false :=
      List.all_eq_false.mpr ⟨0, List.mem_cons_of_mem c (List.mem_append_right r (List.mem_cons_self ..)), by decide⟩
    unfold atoiWithin
    rw [atoi_eq h hlo hhi, List.cons_append, List.dropWhile_cons_of_neg (by rw [hspace]; exact Bool.false_ne_true)]
    simp only [if_neg hsign, hstops]
    rfl
  unfold storeNumber
  rw [hatoi]
  exact Yields.bind ⟨List.forall_mem_nil _, rfl⟩ (yields_pure _)

end

/-! ## A field in memory -/

section
variable {hi lo width v : Nat} {pre a r rest tail buf : Bytes} {sep x : UInt8} {set : Int → Tm → Tm} {ftm : Tm}
  {out : Int × Tm}

theorem ltrim_yields (hsep : sep ≠ 0) (hx : x ≠ sep ∧ x ≠ 9) (hr : 0 ∉ x :: r)
    (hhi : pre.length + (x :: r).length + 1 < hi) :
    Yields (Within hi) (ltrim (pre ++ sep :: (x :: r ++ 0 :: tail)) pre.length sep)
      (pre ++ (x :: r ++ 0 :: 0 :: tail)) := by
  have hstrlen : Yields (Within hi) (strlen (pre ++ (sep :: x :: r ++ 0 :: tail)) pre.length) (sep :: x :: r).length :=
    strlen_yields (List.not_mem_cons_of_ne_of_not_mem hsep.symm hr) (by rw [List.length_cons]; omega)
  have hskip : ∀ y ∈ [sep], (!(y == sep || y == 9)) = false := by
    intro y hy
    rw [List.mem_singleton.mp hy, beq_self_eq_true, Bool.true_or]
    rfl
  have hstop : (!(x == sep || x == 9)) = true := by
    rw [beq_false_of_ne hx.1, beq_false_of_ne hx.2]
    rfl
  rw [List.length_cons] at hhi
  unfold ltrim
  refine hstrlen.bind ?_
  rw [if_neg (List.length_pos_of_ne_nil (List.cons_ne_nil _ _)).ne']
  refine (scan_yields (fun x => !(x == sep || x == 9)) hstop [sep] _ pre hskip ?_ ?_).bind ?_
  · simp only [List.length_append, List.length_cons, List.length_nil]
    omega
  · rw [List.length_singleton]
    omega
  · show Yields _ (if pre.length + 1 = pre.length then _ else _) _
    rw [if_neg (Nat.succ_ne_self _)]
    refine moveDown_yields (x :: r) _ pre sep hsep hr ?_ ?_
    · simp only [List.length_append, List.length_cons]
      omega
    · rw [List.length_cons]
      omega

theorem readField_yields {next : Nat → Tm → Acc (Int × Tm)} (h : Number lo width v a) (hlo : 0 < lo)
    (hwidth : width ≤ 9) (hsep : ¬(48 ≤ sep ∧ sep ≤ 57)) (hhi : pre.length + a.length < hi)
    (hnext : Yields (Within hi) (next (pre.length + a.length) (set v ftm)) out) :
    Yields (Within hi) (readField (pre ++ (a ++ sep :: rest)) pre.length sep width (storeNumber set) ftm next) out := by
  have hnul : 0 ∉ a := h.not_mem (by decide)
  have hlength : a.length ≤ sztmpdata.length := Nat.le_trans h.length.2 (Nat.le_succ_of_le hwidth)
  unfold readField
  refine (strchr_yields (h.not_mem hsep) hnul hhi).bind ?_
  show Yields _ (if width < pre.length + a.length - pre.length then _ else _) _
  rw [Nat.add_sub_cancel_left, if_neg (Nat.not_lt.mpr h.length.2)]
  refine (strncpy_yields hnul hlength (Nat.le_of_lt hhi)).bind ?_
  exact (storeNumber_yields h hlo hwidth).bind hnext

structure Ready (r : Bytes) : Prop where
  nul : 0 ∉ r
  head : ∃ x s, r = x :: s ∧ 48 ≤ x ∧ x ≤ 57

theorem Number.ready (h : Number lo width v a) (hlo : 0 < lo) : Ready a := by
  obtain ⟨c, r, rfl⟩ := List.exists_cons_of_ne_nil (h.ne_nil hlo)
  exact ⟨h.not_mem (by decide), c, r, rfl, h.decimal (List.mem_cons_self ..)⟩

theorem Ready.append (ha : Ready a) (hsep : sep ≠ 0) (hr : Ready r) : Ready (a ++ sep :: r) := by
  obtain ⟨x, s, rfl, hx⟩ := ha.head
  refine ⟨?_, x, s ++ sep :: r, rfl, hx⟩
  rw [List.mem_append, not_or]
  exact ⟨ha.nul, List.not_mem_cons_of_ne_of_not_mem hsep.symm hr.nul⟩

theorem stage_yields (pre : Bytes) {next : Bytes → Nat → Tm → Acc (Int × Tm)} (h : Number lo width v a) (hlo : 0 < lo)
    (hwidth : width ≤ 9) (hsep : sep ≠ 0 ∧ ¬(48 ≤ sep ∧ sep ≤ 57)) (hr : Ready r)
    (hhi : pre.length + (a ++ sep :: r).length < hi)
    (hnext : (pre ++ a).length + r.length < hi →
      Yields (Within hi) (next (pre ++ a ++ (r ++ 0 :: 0 :: tail)) (pre ++ a).length (set v ftm)) out) :
    Yields (Within hi) (readField (pre ++ (a ++ sep :: r ++ 0 :: tail)) pre.length sep width (storeNumber set) ftm
      fun p2 ftm => do
        let buf ← ltrim (pre ++ (a ++ sep :: r ++ 0 :: tail)) p2 sep
        next buf p2 ftm) out := by
  have hlength : (pre ++ a).length = pre.length + a.length := List.length_append
  rw [List.length_append, List.length_cons] at hhi
  have hmove : Yields (Within hi) (ltrim (pre ++ (a ++ sep :: (r ++ 0 :: tail))) (pre.length + a.length) sep)
      (pre ++ a ++ (r ++ 0 :: 0 :: tail)) := by
    obtain ⟨x, s, rfl, hx⟩ := hr.head
    have hne : x ≠ sep ∧ x ≠ 9 := by
      refine ⟨?_, ?_⟩
      · rintro rfl
        exact hsep.2 hx
      · rintro rfl
        exact absurd hx.1 (by decide)
    rw [← hlength, ← List.append_assoc]
    exact ltrim_yields hsep.1 hne hr.nul (by omega)
  rw [hlength] at hnext
  have hrest := hnext (by omega)
  rw [List.append_assoc a, List.cons_append]
  exact readField_yields h hlo hwidth hsep.2 (by omega) (hmove.bind hrest)

end

/-! ## The copy -/

section
variable {d : Moment} {src heap : Bytes}

theorem zeros_yields {hi : Nat} (hroom : src.length ≤ heap.length) (hhi : src.length ≤ hi) :
    Yields (Within hi) (writeAt heap 0 (List.replicate src.length 0))
      (List.replicate src.length 0 ++ heap.drop src.length) := by
  have hzeros : Yields (Within hi) (writeAt ([] ++ heap) 0 (List.replicate src.length 0))
      ([] ++ List.replicate src.length 0 ++ heap.drop (List.replicate src.length (0 : UInt8)).length) := by
    refine yields_writeAt_append rfl ?_ ?_
    · rw [List.length_replicate]
      exact hroom
    · simp only [Within, List.length_replicate]
      omega
  rw [List.length_replicate] at hzeros
  exact hzeros

theorem copyOf_yields (hroom : src.length < heap.length) :
    Yields (Within (src.length + 1)) (copyOf src heap) (src ++ 0 :: heap.drop (src.length + 1)) := by
  have hcopy : Yields (Within (src.length + 1))
      (writeAt ([] ++ (List.replicate src.length 0 ++ heap.drop src.length)) 0 (src ++ [0]))
      ([] ++ (src ++ [0]) ++ (List.replicate src.length 0 ++ heap.drop src.length).drop (src ++ [0]).length) := by
    refine yields_writeAt_append rfl ?_ ?_
    · simp only [List.length_append, List.length_replicate, List.length_drop, List.length_singleton]
      omega
    · simp only [Within, List.length_append, List.length_singleton]
      omega
  have hrest : (List.replicate src.length (0 : UInt8) ++ heap.drop src.length).drop (src ++ [0]).length =
      heap.drop (src.length + 1) := by
    rw [List.length_append, List.drop_append, List.length_replicate, List.drop_drop, List.drop_eq_nil_of_le]
    · simp
    · simp
  rw [hrest, List.nil_append, List.nil_append, ← List.append_cons] at hcopy
  exact (zeros_yields (Nat.le_of_lt hroom) (Nat.le_succ _)).bind hcopy

theorem copyOf_fails (hroom : src.length = heap.length) : Fails (copyOf src heap) .outOfBounds := by
  refine (zeros_yields (Nat.le_of_eq hroom) (Nat.le_refl _)).bind_fails (fails_writeAt ?_)
  simp only [List.length_append, List.length_replicate, List.length_drop, List.length_singleton]
  omega

theorem write_behind (hroom : src.length ≤ heap.length) (gettm : Tm) :
    .write 0 (src.length + 1) ∈ (paramMySQLDateTime (some src) (some heap) gettm).log := by
  have hlength : (src ++ [0]).length = src.length + 1 := List.length_append
  have hcopy : .write 0 (src.length + 1) ∈ (copyOf src heap).log := by
    refine mem_log_bind_ok (zeros_yields hroom (Nat.le_refl _)).out (List.mem_singleton.mpr ?_)
    rw [hlength]
  exact mem_log_bind hcopy

-- the last field ends with the text
theorem second_yields {hi lo v : Nat} {pre a tail : Bytes} {ftm : Tm} (h : Number lo 2 v a) (hlo : 0 < lo)
    (hhi : pre.length + a.length < hi) :
    Yields (Within hi) (do
      let l ← strlen (pre ++ (a ++ 0 :: tail)) pre.length
      let tmp ← strncpy sztmpdata (pre ++ (a ++ 0 :: tail)) pre.length l
      let ftm ← storeNumber (fun n t => { t with tm_sec := n }) tmp ftm
      return ((0 : Int), { ftm with tm_isdst := 0 })) (0, { ftm with tm_sec := v, tm_isdst := 0 }) := by
  have hnul : 0 ∉ a := h.not_mem (by decide)
  have hlength : a.length ≤ sztmpdata.length := Nat.le_trans h.length.2 (by decide)
  refine (strlen_yields hnul hhi).bind ?_
  refine (strncpy_yields hnul hlength (Nat.le_of_lt hhi)).bind ?_
  exact (storeNumber_yields h hlo (by decide)).bind (yields_pure _)

/-- **A date is read field by field**, where the memory goes on for a byte behind the copy. -/
theorem paramMySQLDateTime_yields (h : Written d src) (hroom : src.length < heap.length) (gettm : Tm) :
    Yields (Within (src.length + 1)) (paramMySQLDateTime (some src) (some heap) gettm) (0, d.read) := by
  obtain ⟨year, month, day, hour, minute, second, hyear, hmonth, hday, hhour, hminute, hsecond, rfl⟩ := h
  have hs : Ready second := hsecond.ready (by decide)
  have hmi : Ready (minute ++ 58 :: second) := (hminute.ready (by decide)).append (by decide) hs
  have hh : Ready (hour ++ 58 :: _) := (hhour.ready (by decide)).append (by decide) hmi
  have hd : Ready (day ++ 32 :: _) := (hday.ready (by decide)).append (by decide) hh
  have hmo : Ready (month ++ 45 :: _) := (hmonth.ready (by decide)).append (by decide) hd
  unfold paramMySQLDateTime
  refine (copyOf_yields hroom).bind ?_
  refine stage_yields [] hyear (by decide) (by decide) (by decide) hmo ?_ fun hhi => ?_
  · rw [List.length_nil, Nat.zero_add]
    exact Nat.lt_succ_self _
  refine stage_yields _ hmonth (by decide) (by decide) (by decide) hd hhi fun hhi => ?_
  refine stage_yields _ hday (by decide) (by decide) (by decide) hh hhi fun hhi => ?_
  refine stage_yields _ hhour (by decide) (by decide) (by decide) hmi hhi fun hhi => ?_
  refine stage_yields _ hminute (by decide) (by decide) (by decide) hs hhi fun hhi => ?_
  exact second_yields hsecond (by decide) hhi

theorem asDateTime_yields (h : Written d src) (hroom : src.length < heap.length) (mktime : Tm → Int) (gettm : Tm) :
    Yields (Within (src.length + 1)) (asDateTime mktime (some src) (some heap) gettm) (mktime d.read) := by
  have hdash : 45 ∈ src := by
    obtain ⟨year, month, day, hour, minute, second, -, -, -, -, -, -, rfl⟩ := h
    exact List.mem_append_right year (List.mem_cons_self ..)
  unfold asDateTime
  simp only [if_pos hdash]
  exact (paramMySQLDateTime_yields h hroom gettm).bind (yields_pure _)

/-- **No date is decoded.** It is read as one of the next month, and the NUL of the copy is written behind it. -/
theorem decodes_never {heap : Option Bytes} (h : Written d src) (hroom : ∀ buf ∈ heap, src.length ≤ buf.length)
    (mktime : Tm → Int) (gettm : Tm) :
    ¬Decodes mktime d src heap gettm ∧
    (∀ t, (paramMySQLDateTime (some src) heap gettm).out = .ok (0, t) → ¬t.Denotes d) ∧
    (∀ buf ∈ heap, .write 0 (src.length + 1) ∈ (paramMySQLDateTime (some src) heap gettm).log) ∧
    ∀ buf ∈ heap, src.length < buf.length →
      Yields (Within (src.length + 1)) (paramMySQLDateTime (some src) heap gettm) (0, d.read) ∧
      Yields (Within (src.length + 1)) (asDateTime mktime (some src) heap gettm) (mktime d.read) := by
  have hread : ∀ t, (paramMySQLDateTime (some src) heap gettm).out = .ok (0, t) → ¬t.Denotes d := by
    intro t hout hdenotes
    cases heap with
    | none => cases hout
    | some buf =>
      rcases Nat.lt_or_eq_of_le (hroom buf rfl) with hlt | heq
      · rw [(paramMySQLDateTime_yields h hlt gettm).out] at hout
        cases hout
        exact not_denotes_read d hdenotes
      · have hfails : Fails (paramMySQLDateTime (some src) (some buf) gettm) .outOfBounds := (copyOf_fails heq).bind _
        unfold Fails at hfails
        rw [hfails] at hout
        cases hout
  refine ⟨fun hdecodes => ?_, hread, ?_, ?_⟩
  · obtain ⟨t, hout, hdenotes, -⟩ := hdecodes.filled
    exact hread t hout hdenotes
  · rintro buf rfl
    exact write_behind (hroom buf rfl) gettm
  · rintro buf rfl hlt
    exact ⟨paramMySQLDateTime_yields h hlt gettm, asDateTime_yields h hlt mktime gettm⟩

end

/-! ## A day in December -/

def december : Moment := ⟨2008, 12, 12, 12, 0, 34, by decide, by decide, by decide, by decide, by decide, by decide⟩

def text : Bytes := ascii "2008-12-12 12:00:34"

theorem written_december : Written december text :=
  ⟨ascii "2008", ascii "12", ascii "12", ascii "12", ascii "00", ascii "34", ⟨rfl, by decide⟩, ⟨rfl, by decide⟩,
    ⟨rfl, by decide⟩, ⟨rfl, by decide⟩, ⟨rfl, by decide⟩, ⟨rfl, by decide⟩, rfl⟩

-- `mktime` where the local time is that of Greenwich: a month behind December is one of the next year
def utc (t : Tm) : Int :=
  let year := 1900 + t.tm_year + t.tm_mon / 12
  let mon := t.tm_mon % 12
  -- the year that begins with March
  let y := if mon < 2 then year - 1 else year
  let m := (mon + 10) % 12
  let days := 365 * y + y / 4 - y / 100 + y / 400 + (153 * m + 2) / 5 + t.tm_mday - 1 - 719468
  ((days * 24 + t.tm_hour) * 60 + t.tm_min) * 60 + t.tm_sec

def blank : Tm := ⟨0, 0, 0, 0, 0, 0, 0⟩

def memory : Bytes := List.replicate 24 0

theorem decodes_never_december :
    ¬Decodes utc december text (some memory) blank ∧
    (∀ t, (paramMySQLDateTime (some text) (some memory) blank).out = .ok (0, t) → ¬t.Denotes december) ∧
    (∀ buf ∈ some memory, .write 0 (text.length + 1) ∈ (paramMySQLDateTime (some text) (some memory) blank).log) ∧
    ∀ buf ∈ some memory, text.length < buf.length →
      Yields (Within (text.length + 1)) (paramMySQLDateTime (some text) (some memory) blank) (0, december.read) ∧
      Yields (Within (text.length + 1)) (asDateTime utc (some text) (some memory) blank) (utc december.read) :=
  decodes_never written_december (fun buf h => by cases h; decide) utc blank

/-- The twelfth of December 2008 becomes that of January 2009. -/
theorem december_misread :
    Written december text ∧ ¬Decodes utc december text (some memory) blank ∧
    (asDateTime utc (some text) (some memory) blank).out = .ok 1231761634 ∧
    ∀ t : Tm, t.Denotes december → utc t = 1229083234 := by
  have hroom : text.length < memory.length := by decide
  refine ⟨written_december, fun h => ?_, (asDateTime_yields written_december hroom utc blank).out, fun t h => ?_⟩
  · obtain ⟨t, hout, hdenotes, -⟩ := h.filled
    rw [(paramMySQLDateTime_yields written_december hroom blank).out] at hout
    cases hout
    exact not_denotes_read december hdenotes
  · unfold utc
    rw [h.year, h.mon, h.mday, h.hour, h.min, h.sec]
    decide

end Afn.TParams
