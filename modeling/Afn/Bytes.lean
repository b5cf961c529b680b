/-!
# Byte strings, little-endian words and bit fields

The unions of a packed little-endian structure, seen as arithmetic on its bytes.
-/

abbrev Bytes := List UInt8

namespace Bytes

/-! ## Parts of a buffer -/

/-- The `n` bytes of `buf` from offset `off`, fewer where the buffer ends. -/
def slice (buf : Bytes) (off n : Nat) : Bytes := (buf.drop off).take n

/-- `buf` with `bs` written over it from offset `off`. -/
def splice (buf : Bytes) (off : Nat) (bs : Bytes) : Bytes :=
  buf.take off ++ bs ++ buf.drop (off + bs.length)

def byteAt (buf : Bytes) (i : Nat) : UInt8 := buf.getD i 0

@[simp] theorem length_slice (buf : Bytes) (off n : Nat) :
    (slice buf off n).length = min n (buf.length - off) := by simp [slice]

theorem length_slice_of_le {buf : Bytes} {off n : Nat} (h : off + n ≤ buf.length) :
    (slice buf off n).length = n := by rw [length_slice]; omega

theorem slice_zero (buf : Bytes) (off : Nat) : slice buf off 0 = [] := by simp [slice]

theorem slice_succ {buf : Bytes} {off : Nat} (h : off < buf.length) (n : Nat) :
    slice buf off (n + 1) = byteAt buf off :: slice buf (off + 1) n := by
  unfold slice byteAt
  rw [List.drop_eq_getElem_cons h, List.take_succ_cons]
  simp [h]

theorem slice_add (buf : Bytes) (off m n : Nat) :
    slice buf off (m + n) = slice buf off m ++ slice buf (off + m) n := by
  simp only [slice, List.take_add, List.drop_drop]

theorem byteAt_slice {buf : Bytes} {off n i : Nat} (h : i < n) :
    byteAt (slice buf off n) i = byteAt buf (off + i) := by
  simp [byteAt, slice, h]

theorem byteAt_append {s t : Bytes} {i : Nat} (h : i < s.length) :
    byteAt (s ++ t) i = byteAt s i := by
  simp only [byteAt, List.getD_eq_getElem?_getD, List.getElem?_append_left h]

theorem slice_append {s t : Bytes} {off n : Nat} (h : off + n ≤ s.length) :
    slice (s ++ t) off n = slice s off n := by
  unfold slice
  rw [List.drop_append_of_le_length (by omega), List.take_append_of_le_length (by simp; omega)]

theorem slice_part {pre x post : Bytes} {off n : Nat} (hoff : off = pre.length) (hn : n = x.length) :
    slice (pre ++ (x ++ post)) off n = x := by
  subst hoff hn
  simp [slice]

theorem slice_all (s : Bytes) : slice s 0 s.length = s := by simp [slice]

theorem length_splice {buf bs : Bytes} {off : Nat} (h : off + bs.length ≤ buf.length) :
    (splice buf off bs).length = buf.length := by
  simp [splice]; omega

theorem splice_append (pre rest bs : Bytes) :
    splice (pre ++ rest) pre.length bs = pre ++ bs ++ rest.drop bs.length := by
  simp [splice]

/-! ## Words -/

/-- The little-endian word with low byte `lo` and high byte `hi`. -/
def word (lo hi : UInt8) : UInt16 := UInt16.ofNat (lo.toNat + 256 * hi.toNat)

def loByte (w : UInt16) : UInt8 := UInt8.ofNat w.toNat

def hiByte (w : UInt16) : UInt8 := UInt8.ofNat (w.toNat / 256)

theorem toNat_word (lo hi : UInt8) : (word lo hi).toNat = lo.toNat + 256 * hi.toNat := by
  have h₁ := lo.toNat_lt
  have h₂ := hi.toNat_lt
  simp only [word, UInt16.toNat_ofNat']
  omega

@[simp] theorem loByte_word (lo hi : UInt8) : loByte (word lo hi) = lo := by
  apply UInt8.toNat_inj.mp
  have h := lo.toNat_lt
  simp only [loByte, toNat_word, UInt8.toNat_ofNat']
  omega

@[simp] theorem hiByte_word (lo hi : UInt8) : hiByte (word lo hi) = hi := by
  apply UInt8.toNat_inj.mp
  have h₁ := lo.toNat_lt
  have h₂ := hi.toNat_lt
  simp only [hiByte, toNat_word, UInt8.toNat_ofNat']
  omega

@[simp] theorem word_bytes (w : UInt16) : word (loByte w) (hiByte w) = w := by
  apply UInt16.toNat_inj.mp
  have h := w.toNat_lt
  simp only [toNat_word, loByte, hiByte, UInt8.toNat_ofNat']
  omega

/-! ## Bit fields

A field is given by its weight `p = 2 ^ position` and the number `m = 2 ^ width` of its values. -/

def field (x p m : Nat) : Nat := x / p % m

/-- `x` with the field set to `v`, truncated to the field's width. -/
def setField (x p m v : Nat) : Nat := x % p + p * (v % m) + p * m * (x / (p * m))

theorem field_two (x p : Nat) : field x p 2 = 0 ∨ field x p 2 = 1 := by unfold field; omega

theorem field_mod {p m k : Nat} (x : Nat) (h : p * m ∣ k) : field (x % k) p m = field x p m := by
  obtain ⟨j, rfl⟩ := h
  unfold field
  rw [Nat.mul_assoc, Nat.mod_mul_right_div_self, Nat.mod_mul_right_mod]

theorem field_add {p m q : Nat} {lo : Nat} (y : Nat) (hlo : lo < q) (h : q ∣ p) (hq : 0 < q) :
    field (lo + q * y) p m = y / (p / q) % m := by
  obtain ⟨j, rfl⟩ := h
  unfold field
  rw [← Nat.div_div_eq_div_mul, Nat.add_mul_div_left _ _ hq, Nat.div_eq_of_lt hlo, Nat.zero_add,
    Nat.mul_div_cancel_left _ hq]

theorem setField_low_lt {p m : Nat} (x v : Nat) (hp : 0 < p) (hm : 0 < m) :
    x % p + p * (v % m) < p * m := by
  have h₁ := Nat.mod_lt x hp
  have h₂ : p * (v % m + 1) ≤ p * m := Nat.mul_le_mul_left p (Nat.mod_lt v hm)
  rw [Nat.mul_add, Nat.mul_one] at h₂
  omega

theorem field_setField_self {p m : Nat} (x v : Nat) (hp : 0 < p) : field (setField x p m v) p m = v % m := by
  have hsplit : setField x p m v = x % p + p * (v % m + m * (x / (p * m))) := by
    rw [setField, Nat.mul_add, ← Nat.mul_assoc, Nat.add_assoc]
  rw [hsplit, field_add _ (Nat.mod_lt x hp) (Nat.dvd_refl p) hp, Nat.div_self hp, Nat.div_one,
    Nat.add_mul_mod_self_left, Nat.mod_mod]

theorem field_setField_above {p m p' m' : Nat} (x v : Nat) (hp : 0 < p) (hm : 0 < m) (h : p * m ∣ p') :
    field (setField x p m v) p' m' = field x p' m' := by
  obtain ⟨j, rfl⟩ := h
  rw [setField, field_add _ (setField_low_lt x v hp hm) (Nat.dvd_mul_right ..) (Nat.mul_pos hp hm),
    Nat.mul_div_cancel_left _ (Nat.mul_pos hp hm), field, Nat.div_div_eq_div_mul]

/-! ## Sums of bytes -/

def byteSum : Bytes → UInt8
  | [] => 0
  | b :: bs => b + byteSum bs

@[simp] theorem byteSum_nil : byteSum [] = 0 := rfl

@[simp] theorem byteSum_cons (b : UInt8) (bs : Bytes) : byteSum (b :: bs) = b + byteSum bs := rfl

@[simp] theorem byteSum_append (a b : Bytes) : byteSum (a ++ b) = byteSum a + byteSum b := by
  induction a with
  | nil => simp
  | cons x a ih => simp [ih, UInt8.add_assoc]

/-! ## Changed bytes -/

theorem byteAt_set {b : Bytes} {i : Nat} (x : UInt8) (hi : i < b.length) : byteAt (b.set i x) i = x := by
  simp [byteAt, hi]

theorem byteAt_set_ne {b : Bytes} {i j : Nat} (x : UInt8) (hij : i ≠ j) : byteAt (b.set i x) j = byteAt b j := by
  simp only [byteAt, List.getD_eq_getElem?_getD, List.getElem?_set_ne hij]

theorem byteAt_take {b : Bytes} {i n : Nat} (hi : i < n) : byteAt (b.take n) i = byteAt b i := by
  simp [byteAt, hi]

theorem slice_set {b : Bytes} {off len i : Nat} (x : UInt8) (hi : off ≤ i) :
    slice (b.set i x) off len = (slice b off len).set (i - off) x := by
  unfold slice
  rw [List.drop_set, if_neg (by omega), List.take_set]

theorem slice_set_after {b : Bytes} {off len i : Nat} (x : UInt8) (hi : off + len ≤ i) :
    slice (b.set i x) off len = slice b off len := by
  have hlen : (slice b off len).length ≤ i - off := by
    rw [length_slice]
    omega
  rw [slice_set x (by omega), List.set_eq_of_length_le hlen]

theorem byteSum_set {b : Bytes} {i : Nat} (x : UInt8) (hi : i < b.length) :
    byteSum (b.set i x) + byteAt b i = byteSum b + x := by
  induction b generalizing i with
  | nil => exact absurd hi (Nat.not_lt_zero i)
  | cons a b ih =>
    cases i with
    | zero =>
      have ha : byteAt (a :: b) 0 = a := rfl
      rw [List.set_cons_zero, byteSum_cons, byteSum_cons, ha, UInt8.add_assoc, UInt8.add_comm x,
        UInt8.add_comm (byteSum b), UInt8.add_assoc]
    | succ i =>
      have ha : byteAt (a :: b) (i + 1) = byteAt b i := rfl
      rw [List.set_cons_succ, byteSum_cons, byteSum_cons, ha, UInt8.add_assoc, UInt8.add_assoc,
        ih (Nat.lt_of_succ_lt_succ hi)]

theorem byteSum_set_ne {b : Bytes} {i : Nat} {x : UInt8} (hi : i < b.length) (hx : x ≠ byteAt b i) :
    byteSum (b.set i x) ≠ byteSum b := by
  intro heq
  have h := byteSum_set x hi
  rw [heq] at h
  exact hx (UInt8.add_right_inj (byteSum b) |>.mp h).symm

end Bytes
