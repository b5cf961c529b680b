import Afn.Decimal

/-!
# Significant digits

`%g` writes a number with as many significant digits as its precision says, and without the zeros at the
end. The number written is the one meant exactly when that has no more significant digits.
-/

namespace Decimal

/-! ## Rounding -/

-- to the nearest natural number, halves to the even one
def roundEven (q : Rat) : Nat :=
  if q - ⌊q⌋₊ < 1 / 2 then ⌊q⌋₊
  else if 1 / 2 < q - ⌊q⌋₊ then ⌊q⌋₊ + 1
  else if ⌊q⌋₊ % 2 = 0 then ⌊q⌋₊ else ⌊q⌋₊ + 1

theorem roundEven_natCast (n : Nat) : roundEven n = n := by
  unfold roundEven
  rw [Nat.floor_natCast, sub_self, if_pos (by norm_num)]

theorem roundEven_cases (q : Rat) : roundEven q = ⌊q⌋₊ ∨ roundEven q = ⌊q⌋₊ + 1 := by
  unfold roundEven
  split
  · exact .inl rfl
  split
  · exact .inr rfl
  split
  · exact .inl rfl
  · exact .inr rfl

theorem roundEven_bounds {m n : Nat} {q : Rat} (hm : (m : Rat) ≤ q) (hn : q < n) :
    m ≤ roundEven q ∧ roundEven q ≤ n := by
  have hq : 0 ≤ q := le_trans (Nat.cast_nonneg m) hm
  have hlow : m ≤ ⌊q⌋₊ := Nat.le_floor hm
  have hhigh : ⌊q⌋₊ < n := (Nat.floor_lt hq).mpr hn
  rcases roundEven_cases q with hr | hr
  · omega
  · omega

/-- The significand of `p` digits and the exponent of its first digit that `a` is rounded to. -/
def significand (p : Nat) (a : Rat) : Nat × Int :=
  let e := Int.log 10 a
  let n := roundEven (a / 10 ^ (e + 1 - p))
  if n = 10 ^ p then (10 ^ (p - 1), e + 1) else (n, e)

def rounded (p : Nat) (x : Rat) : Rat :=
  if x = 0 then 0
  else (if x < 0 then -1 else 1) * ((significand p |x|).1 * 10 ^ ((significand p |x|).2 + 1 - p))

def Fits (p : Nat) (x : Rat) : Prop := ∃ (n : Nat) (k : Int), n < 10 ^ p ∧ |x| = n * 10 ^ k

section
variable {p : Nat} {a : Rat}

theorem ten_zpow_pos (k : Int) : (0 : Rat) < 10 ^ k := zpow_pos (by norm_num) k

theorem pow_pred (hp : 0 < p) : 10 ^ p = 10 * 10 ^ (p - 1) := by
  obtain ⟨k, rfl⟩ : ∃ k, p = k + 1 := ⟨p - 1, by omega⟩
  rw [Nat.add_sub_cancel, pow_succ']

-- `a` in units of the last significant digit
theorem units_bounds (hp : 0 < p) (ha : 0 < a) :
    ((10 ^ (p - 1) : Nat) : Rat) ≤ a / 10 ^ (Int.log 10 a + 1 - p) ∧
      a / 10 ^ (Int.log 10 a + 1 - p) < (10 ^ p : Nat) := by
  have hlow : ((10 : Nat) : Rat) ^ Int.log 10 a ≤ a := Int.zpow_log_le_self (by decide) ha
  have hhigh : a < ((10 : Nat) : Rat) ^ (Int.log 10 a + 1) := Int.lt_zpow_succ_log_self (by decide) a
  have hpos := ten_zpow_pos (Int.log 10 a + 1 - p)
  push_cast at hlow hhigh ⊢
  constructor
  · have he : ((p - 1 : Nat) : Int) + (Int.log 10 a + 1 - p) = Int.log 10 a := by omega
    rw [le_div_iff₀ hpos, ← zpow_natCast, ← zpow_add₀ (by norm_num), he]
    exact hlow
  · have he : (p : Int) + (Int.log 10 a + 1 - p) = Int.log 10 a + 1 := by ring
    rw [div_lt_iff₀ hpos, ← zpow_natCast, ← zpow_add₀ (by norm_num), he]
    exact hhigh

theorem significand_bounds (hp : 0 < p) (ha : 0 < a) :
    10 ^ (p - 1) ≤ (significand p a).1 ∧ (significand p a).1 < 10 ^ p := by
  obtain ⟨hlow, hhigh⟩ := units_bounds hp ha
  obtain ⟨hmin, hmax⟩ := roundEven_bounds hlow hhigh
  have hpow := pow_pred hp
  have hpos : 0 < 10 ^ (p - 1) := Nat.pow_pos (by decide)
  unfold significand
  simp only
  split
  · exact ⟨Nat.le_refl _, by omega⟩
  next hne => exact ⟨hmin, lt_of_le_of_ne hmax hne⟩

theorem significand_value (hp : 0 < p) : ((significand p a).1 : Rat) * 10 ^ ((significand p a).2 + 1 - p) =
    roundEven (a / 10 ^ (Int.log 10 a + 1 - p)) * 10 ^ (Int.log 10 a + 1 - p) := by
  unfold significand
  simp only
  split
  next heq =>
    have he : Int.log 10 a + 1 + 1 - (p : Int) = 1 + (Int.log 10 a + 1 - p) := by ring
    rw [heq, pow_pred hp, he, zpow_add₀ (by norm_num), zpow_one]
    push_cast
    ring
  next => rfl

-- with `p` significant digits there is a whole number of units
theorem units_of_fits (ha : 0 < a) (h : Fits p a) : ∃ n : Nat, a / 10 ^ (Int.log 10 a + 1 - p) = n := by
  obtain ⟨n, k, hn, hval⟩ := h
  rw [abs_of_pos ha] at hval
  have hlow : ((10 : Nat) : Rat) ^ Int.log 10 a ≤ a := Int.zpow_log_le_self (by decide) ha
  have hk : Int.log 10 a + 1 - p ≤ k := by
    have hlt : (10 : Rat) ^ Int.log 10 a < 10 ^ ((p : Int) + k) := by
      calc (10 : Rat) ^ Int.log 10 a ≤ n * 10 ^ k := by rw [← hval]; exact_mod_cast hlow
        _ < 10 ^ p * 10 ^ k := by
          refine mul_lt_mul_of_pos_right ?_ (ten_zpow_pos k)
          exact_mod_cast hn
        _ = 10 ^ ((p : Int) + k) := by rw [zpow_add₀ (by norm_num), zpow_natCast]
    have hexp := (zpow_lt_zpow_iff_right₀ (by norm_num : (1 : Rat) < 10)).mp hlt
    omega
  obtain ⟨j, hj⟩ : ∃ j : Nat, k = j + (Int.log 10 a + 1 - p) := ⟨(k - (Int.log 10 a + 1 - p)).toNat, by omega⟩
  refine ⟨n * 10 ^ j, ?_⟩
  rw [div_eq_iff (ten_zpow_pos _).ne']
  push_cast
  rw [mul_assoc, ← zpow_natCast, ← zpow_add₀ (by norm_num), ← hj, hval]

theorem rounded_eq_iff (hp : 0 < p) (x : Rat) : rounded p x = x ↔ Fits p x := by
  unfold rounded
  by_cases hx : x = 0
  · rw [if_pos hx]
    exact iff_of_true hx.symm ⟨0, 0, Nat.pow_pos (by decide), by rw [hx]; simp⟩
  rw [if_neg hx]
  have ha : 0 < |x| := abs_pos.mpr hx
  have hsign : (if x < 0 then (-1 : Rat) else 1) * |x| = x := by
    split
    next hneg => rw [abs_of_neg hneg, neg_one_mul, neg_neg]
    next hpos => rw [abs_of_nonneg (not_lt.mp hpos), one_mul]
  have hne : (if x < 0 then (-1 : Rat) else 1) ≠ 0 := by
    split
    · norm_num
    · norm_num
  constructor
  · intro h
    have habs : ((significand p |x|).1 : Rat) * 10 ^ ((significand p |x|).2 + 1 - p) = |x| :=
      mul_left_cancel₀ hne (h.trans hsign.symm)
    exact ⟨_, _, (significand_bounds hp ha).2, habs.symm⟩
  · intro h
    obtain ⟨n, hn⟩ := units_of_fits ha (by obtain ⟨m, k, hm, hval⟩ := h; exact ⟨m, k, hm, by rw [abs_abs, hval]⟩)
    rw [significand_value hp, hn, roundEven_natCast, ← hn, div_mul_cancel₀ _ (ten_zpow_pos _).ne', hsign]

end

/-! ## Significant digits -/

def isZero (d : Nat) : Bool := d == 0

/-- The digits from the first to the last that is not zero, the lowest first. -/
def core (ds : List Nat) : List Nat := (ds.dropWhile isZero).rdropWhile isZero

theorem isZero_iff {d : Nat} : isZero d ↔ d = 0 := beq_iff_eq

section
variable (ds : List Nat)

theorem ofDigits_dropWhile :
    Nat.ofDigits 10 ds = 10 ^ (ds.takeWhile isZero).length * Nat.ofDigits 10 (ds.dropWhile isZero) := by
  induction ds with
  | nil => rfl
  | cons d ds ih =>
    by_cases hd : isZero d
    · rw [List.takeWhile_cons_of_pos hd, List.dropWhile_cons_of_pos hd, Nat.ofDigits_cons, ih, List.length_cons,
        pow_succ', isZero_iff.mp hd]
      ring
    · rw [List.takeWhile_cons_of_neg hd, List.dropWhile_cons_of_neg hd, List.length_nil, pow_zero, one_mul]

theorem ofDigits_rdropWhile : Nat.ofDigits 10 (ds.rdropWhile isZero) = Nat.ofDigits 10 ds := by
  induction ds using List.reverseRecOn with
  | nil => rfl
  | append_singleton ds d ih =>
    by_cases hd : isZero d
    · rw [List.rdropWhile_concat_pos _ _ _ hd, ih, isZero_iff.mp hd, Nat.ofDigits_append_zero]
    · rw [List.rdropWhile_concat_neg _ _ _ hd]

theorem ofDigits_core :
    Nat.ofDigits 10 ds = 10 ^ (ds.takeWhile isZero).length * Nat.ofDigits 10 (core ds) := by
  rw [core, ofDigits_rdropWhile, ← ofDigits_dropWhile]

theorem mem_core {d : Nat} (h : d ∈ core ds) : d ∈ ds :=
  (List.dropWhile_sublist _).subset ((List.rdropWhile_prefix _ _).subset h)

theorem eq_mul_pow {m n : Nat} {i j : Int} (h : (m : Rat) * 10 ^ i = n * 10 ^ j) (hij : i ≤ j) :
    m = n * 10 ^ (j - i).toNat := by
  have hj : j = ((j - i).toNat : Nat) + i := by omega
  rw [hj, zpow_add₀ (by norm_num), ← mul_assoc] at h
  have hm := mul_right_cancel₀ (ten_zpow_pos i).ne' h
  rw [zpow_natCast] at hm
  exact_mod_cast hm

theorem le_of_mul_zpow_eq {m n : Nat} {i j : Int} (hm : ¬ 10 ∣ m) (h : (m : Rat) * 10 ^ i = n * 10 ^ j) : m ≤ n := by
  by_cases hij : i < j
  · have heq := eq_mul_pow h (Int.le_of_lt hij)
    obtain ⟨k, hk⟩ : ∃ k, (j - i).toNat = k + 1 := ⟨(j - i).toNat - 1, by omega⟩
    rw [hk, pow_succ, ← Nat.mul_assoc] at heq
    exact absurd (heq ▸ Nat.dvd_mul_left ..) hm
  · have heq := eq_mul_pow h.symm (Int.not_lt.mp hij)
    rw [heq]
    exact Nat.le_mul_of_pos_right m (Nat.pow_pos (by decide))

-- the core of a number other than 0 begins and ends with other digits than 0
theorem core_lowest (h : ∀ d ∈ ds, d < 10) (hne : core ds ≠ []) : ¬ 10 ∣ Nat.ofDigits 10 (core ds) := by
  obtain ⟨rest, hrest⟩ : core ds <+: ds.dropWhile isZero := List.rdropWhile_prefix ..
  cases hc : core ds with
  | nil => exact absurd hc hne
  | cons d cs =>
    rw [hc, List.cons_append] at hrest
    have hd : ¬ isZero d := by
      have hhead := List.head_dropWhile_not isZero (l := ds) (by rw [← hrest]; exact List.cons_ne_nil _ _)
      simp only [← hrest, List.head_cons] at hhead
      rw [hhead]
      decide
    have hlt : d < 10 := h d (mem_core ds (by rw [hc]; exact List.mem_cons_self ..))
    have hzero : d ≠ 0 := fun hz => hd (isZero_iff.mpr hz)
    rw [Nat.ofDigits_cons]
    omega

theorem core_highest (hne : core ds ≠ []) : 10 ^ (core ds).length ≤ 10 * Nat.ofDigits 10 (core ds) := by
  refine Nat.pow_length_le_mul_ofDigits hne fun hlast => ?_
  have hnot : ¬ isZero ((core ds).getLast hne) := List.rdropWhile_last_not _ _ hne
  exact hnot (isZero_iff.mpr hlast)

variable {p : Nat}

theorem fits_iff_core (h : ∀ d ∈ ds, d < 10) (k : Int) :
    Fits p ((Nat.ofDigits 10 ds : Nat) * 10 ^ k) ↔ (core ds).length ≤ p := by
  have hvalue : |((Nat.ofDigits 10 ds : Nat) : Rat) * 10 ^ k| =
      (Nat.ofDigits 10 (core ds) : Nat) * 10 ^ ((ds.takeWhile isZero).length + k) := by
    rw [abs_of_nonneg (mul_nonneg (Nat.cast_nonneg _) (ten_zpow_pos k).le), ofDigits_core, Nat.cast_mul,
      zpow_add₀ (by norm_num), zpow_natCast]
    push_cast
    ring
  unfold Fits
  rw [hvalue]
  constructor
  · rintro ⟨n, j, hn, hval⟩
    by_cases hne : core ds = []
    · rw [hne]
      exact Nat.zero_le _
    have hle : Nat.ofDigits 10 (core ds) ≤ n := le_of_mul_zpow_eq (core_lowest ds h hne) hval
    have hpow : 10 ^ (core ds).length < 10 ^ (p + 1) := by
      rw [pow_succ']
      have := core_highest ds hne
      omega
    exact Nat.lt_succ_iff.mp ((Nat.pow_lt_pow_iff_right (by decide)).mp hpow)
  · intro hp
    refine ⟨_, _, ?_, rfl⟩
    have hlt : Nat.ofDigits 10 (core ds) < 10 ^ (core ds).length :=
      Nat.ofDigits_lt_base_pow_length (by decide) fun d hd => h d (mem_core ds hd)
    exact lt_of_lt_of_le hlt (Nat.pow_le_pow_right (by decide) hp)

end

/-! ## The numeral -/

-- the digits `d :: ds` with the point after the digit of weight `10 ^ e`
def layout (neg : Bool) (d : Fin 10) (ds : Digits) (e : Int) : Numeral :=
  if 0 ≤ e ∧ e ≤ ds.length then ⟨neg, d, ds.take e.toNat, strip (ds.drop e.toNat), none⟩
  else if -4 ≤ e ∧ e < 0 then ⟨neg, digit 0, [], strip (List.replicate (-e - 1).toNat (digit 0) ++ d :: ds), none⟩
  else ⟨neg, d, [], strip ds, some e⟩

/-- `%g` with `p` significant digits. -/
def general (p : Nat) (x : Rat) : Numeral :=
  if x = 0 then ⟨false, digit 0, [], [], none⟩
  else
    let (n, e) := significand p |x|
    layout (x < 0) (digit (n / 10 ^ (p - 1))) (lowest (p - 1) n) e

section
variable (ds : Digits)

theorem fraction_zeros (k : Nat) : fraction (List.replicate k (digit 0) ++ ds) = value ds / 10 ^ (k + ds.length) := by
  have hzeros : value (List.replicate k (digit 0)) = 0 := value_zeros _ fun d hd => (List.mem_replicate.mp hd).2
  rw [fraction, value_append, hzeros, zero_mul, zero_add, List.length_append, List.length_replicate]

theorem div_pow_eq (x : Rat) (k : Nat) : x / 10 ^ k = x * 10 ^ (-(k : Int)) := by
  rw [zpow_neg, zpow_natCast, div_eq_mul_inv]

theorem toRat_layout (neg : Bool) (d : Fin 10) (e : Int) :
    (layout neg d ds e).toRat = (if neg then -1 else 1) * (value (d :: ds) * 10 ^ (e - ds.length)) := by
  unfold layout
  split
  next he =>
    have hlen : -((ds.drop e.toNat).length : Int) = e - ds.length := by rw [List.length_drop]; omega
    unfold Numeral.toRat
    simp only [fraction_strip, Option.getD_none, zpow_zero, mul_one]
    rw [value_add_fraction, List.cons_append, List.take_append_drop, div_pow_eq, hlen]
  split
  next he =>
    have hzero : value [digit 0] = 0 := rfl
    have hlen : -(((-e - 1).toNat + (d :: ds).length : Nat) : Int) = e - ds.length := by
      rw [List.length_cons]
      omega
    unfold Numeral.toRat
    simp only [fraction_strip, Option.getD_none, zpow_zero, mul_one]
    rw [fraction_zeros, hzero, Nat.cast_zero, zero_add, div_pow_eq, hlen]
  next he =>
    have hexp : (10 : Rat) ^ (e - ds.length) = 10 ^ (-(ds.length : Int)) * 10 ^ e := by
      rw [← zpow_add₀ (by norm_num), neg_add_eq_sub]
    unfold Numeral.toRat
    simp only [fraction_strip, Option.getD_some]
    rw [value_add_fraction, List.singleton_append, div_pow_eq, hexp, mul_assoc, mul_assoc]

end

/-- The numeral written is the number rounded to the digits it may have. -/
theorem toRat_general {p : Nat} (hp : 0 < p) (x : Rat) : (general p x).toRat = rounded p x := by
  unfold general rounded
  by_cases hx : x = 0
  · rw [if_pos hx, if_pos hx]
    simp [Numeral.toRat, value, fraction, digit]
  rw [if_neg hx, if_neg hx]
  obtain ⟨-, hmax⟩ := significand_bounds hp (abs_pos.mpr hx)
  generalize significand p |x| = s at hmax ⊢
  obtain ⟨n, e⟩ := s
  have hlen : e - ((lowest (p - 1) n).length : Int) = e + 1 - p := by rw [length_lowest]; omega
  have hvalue : value (digit (n / 10 ^ (p - 1)) :: lowest (p - 1) n) = n := by
    have hlead : n / 10 ^ (p - 1) < 10 := by
      rw [Nat.div_lt_iff_lt_mul (Nat.pow_pos (by decide)), ← pow_pred hp]
      exact hmax
    have hfirst : value [digit (n / 10 ^ (p - 1))] = n / 10 ^ (p - 1) % 10 := Nat.zero_add _
    rw [← List.singleton_append, value_append, hfirst, value_lowest, length_lowest, Nat.mod_eq_of_lt hlead,
      Nat.mul_comm]
    exact Nat.div_add_mod ..
  simp only [toRat_layout, hlen, hvalue, decide_eq_true_eq]

theorem denote_general_iff {p : Nat} (hp : 0 < p) (x : Rat) :
    denote (general p x).text = some x ↔ Fits p x := by
  rw [denote_text, toRat_general hp, Option.some_inj, rounded_eq_iff hp]

end Decimal
