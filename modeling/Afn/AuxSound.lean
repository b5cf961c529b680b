import Afn.CodecSound

/-!
# Encoding and decoding additional information

An uplink aux and a downlink one with `PW` are written in their own bytes and read back from them. Without
`PW` the downlink functions keep its place all the same, which `GetDataLen` does not count.
-/

namespace Afn

open Bytes Access

/-! ## Accesses in a log -/

def Writes (log : List Event) (i : Nat) : Prop := ∃ off n, .write off n ∈ log ∧ off ≤ i ∧ i < off + n

theorem log_bind {α β : Type} {x : Acc α} {a : α} (hx : x.out = .ok a) (f : α → Acc β) :
    (x >>= f).log = x.log ++ (f a).log := by
  simp only [Bind.bind, hx]

theorem writes_append {l₁ l₂ : List Event} {i : Nat} : Writes (l₁ ++ l₂) i ↔ Writes l₁ i ∨ Writes l₂ i := by
  unfold Writes
  constructor
  · rintro ⟨off, n, hmem, hi⟩
    rcases List.mem_append.mp hmem with hmem | hmem
    · exact .inl ⟨off, n, hmem, hi⟩
    · exact .inr ⟨off, n, hmem, hi⟩
  · rintro (⟨off, n, hmem, hi⟩ | ⟨off, n, hmem, hi⟩)
    · exact ⟨off, n, List.mem_append_left _ hmem, hi⟩
    · exact ⟨off, n, List.mem_append_right _ hmem, hi⟩

theorem writes_writeAt (buf bs : Bytes) (off i : Nat) :
    Writes (writeAt buf off bs).log i ↔ off ≤ i ∧ i < off + bs.length := by
  constructor
  · rintro ⟨off', n, hmem, hi⟩
    cases List.mem_singleton.mp hmem
    exact hi
  · exact fun hi => ⟨off, bs.length, List.mem_singleton_self _, hi⟩

theorem not_writes_sub (a b i : Nat) : ¬ Writes (sub32 a b).log i := by
  rintro ⟨off, n, hmem, -⟩
  cases List.mem_singleton.mp hmem

theorem not_writes_pure {α : Type} (a : α) (i : Nat) : ¬ Writes (pure a : Acc α).log i := by
  rintro ⟨off, n, hmem, -⟩
  cases hmem

namespace PkgAfnAux

/-! ## The codec -/

def noTag : TimeTag := ⟨0, (0, 0, 0, 0), 0⟩

-- a new object with the flags of `aux`
def fresh : PkgAfnAux → PkgAfnAux
  | .up hasTp .. => .up hasTp noTag 0 0
  | .down hasTp hasPW .. => .down hasTp hasPW noTag (Vector.replicate 16 0)

/-- `q` has the flags of the aux, its `EC` or its `PW` if there is one, and its `Tp` if there is one. -/
def Restored : (q aux : PkgAfnAux) → Prop
  | .up hasTp TP EC1 EC2, .up hasTp' TP' EC1' EC2' =>
    hasTp = hasTp' ∧ EC1 = EC1' ∧ EC2 = EC2' ∧ (hasTp' = true → TP = TP')
  | .down hasTp hasPW TP PW, .down hasTp' hasPW' TP' PW' =>
    hasTp = hasTp' ∧ hasPW = hasPW' ∧ (hasPW' = true → PW = PW') ∧ (hasTp' = true → TP = TP')
  | _, _ => False

/-- Packing into a buffer with room writes the offsets below `GetDataLen` and no others, returns `GetDataLen`,
and a new object unpacks the contents from these bytes. A smaller buffer is not touched by either function. -/
def Codec (aux : PkgAfnAux) : Prop :=
  (∀ buf : Bytes, aux.getDataLen ≤ buf.length → ∃ b,
    (aux.packData buf 0 buf.length).out = .ok (b, aux.getDataLen) ∧
    (∀ i, Writes (aux.packData buf 0 buf.length).log i ↔ i < aux.getDataLen) ∧
    b.drop aux.getDataLen = buf.drop aux.getDataLen ∧
    ∃ q, (aux.fresh.unPackData (b.take aux.getDataLen) 0 aux.getDataLen).out = .ok q ∧ q.Restored aux) ∧
  ∀ buf : Bytes, buf.length < aux.getDataLen →
    aux.packData buf 0 buf.length = ⟨[], .ok (buf, aux.getDataLen)⟩ ∧
    aux.fresh.unPackData buf 0 buf.length = ⟨[], .ok aux.fresh⟩

theorem getDataLen_fresh (aux : PkgAfnAux) : aux.fresh.getDataLen = aux.getDataLen := by
  cases aux with
  | up => rfl
  | down => rfl

theorem small_untouched (aux : PkgAfnAux) {buf : Bytes} (h : buf.length < aux.getDataLen) :
    aux.packData buf 0 buf.length = ⟨[], .ok (buf, aux.getDataLen)⟩ ∧
      aux.fresh.unPackData buf 0 buf.length = ⟨[], .ok aux.fresh⟩ := by
  have hle : ¬ aux.getDataLen ≤ buf.length := Nat.not_le.mpr h
  constructor
  · simp only [packData, hle, if_false]
    rfl
  · simp only [unPackData, getDataLen_fresh, hle, if_false]
    rfl

/-! ## Writing -/

theorem writes_packBase {hasTp : Bool} {TP : TimeTag} {buf : Bytes} {off len : Nat} (hlen : baseLen hasTp ≤ len)
    (i : Nat) : Writes (packBase hasTp TP buf off len).log i ↔ off ≤ i ∧ i < off + baseLen hasTp := by
  unfold packBase
  cases hasTp with
  | true =>
    simp only [hlen, and_self, if_true]
    exact writes_writeAt buf TP.toBytes off i
  | false =>
    simp only [Bool.false_eq_true, and_false, if_false]
    constructor
    · exact fun h => (not_writes_pure buf i h).elim
    · intro h
      simp only [baseLen, Bool.false_eq_true, if_false] at h
      omega

theorem writes_parts {hasTp : Bool} {TP : TimeTag} {part buf b b' : Bytes} {len : Nat} {aux : PkgAfnAux}
    (hpart : (writeAt buf 0 part).out = .ok b) (hlen : part.length + baseLen hasTp ≤ len)
    (hbase : (packBase hasTp TP b part.length (len - part.length)).out = .ok b')
    (heq : aux.packData buf 0 len = (do
      let buf ← writeAt buf 0 part
      let left ← sub32 len part.length
      let buf ← packBase hasTp TP buf part.length left
      return (buf, aux.getDataLen))) (i : Nat) :
    Writes (aux.packData buf 0 len).log i ↔ i < part.length + baseLen hasTp := by
  have hsub : (sub32 len part.length).out = .ok (len - part.length) :=
    (yields_sub32 (P := fun _ => True) (by omega) trivial).out
  rw [heq, log_bind hpart, log_bind hsub, log_bind hbase, writes_append, writes_append, writes_append,
    writes_writeAt, writes_packBase (by omega)]
  constructor
  · rintro (h | h | h | h)
    · omega
    · exact (not_writes_sub _ _ _ h).elim
    · omega
    · exact (not_writes_pure _ _ h).elim
  · intro h
    by_cases hi : i < part.length
    · exact .inl ⟨Nat.zero_le i, by omega⟩
    · exact .inr (.inr (.inl ⟨by omega, h⟩))

theorem writes_pack {aux : PkgAfnAux} (hplain : aux.Plain) {buf : Bytes} (hlen : aux.getDataLen ≤ buf.length)
    (i : Nat) : Writes (aux.packData buf 0 buf.length).log i ↔ i < aux.getDataLen := by
  cases aux with
  | up hasTp TP EC1 EC2 =>
    have hlen' : 2 + baseLen hasTp ≤ buf.length := hlen
    have hpart : Yields (fun _ => True) (writeAt buf 0 [EC1, EC2]) (splice buf 0 [EC1, EC2]) :=
      yields_writeAt (by simp only [List.length_cons, List.length_nil]; omega) trivial
    have hbase : Yields (Within buf.length)
        (packBase hasTp TP ([EC1, EC2] ++ buf.drop 2) [EC1, EC2].length (buf.length - [EC1, EC2].length)) _ :=
      yields_packBase hasTp TP rfl (Nat.le_sub_of_add_le' hlen')
        (by rw [List.length_drop]; exact Nat.le_sub_of_add_le' hlen') hlen'
    refine writes_parts hpart.out hlen' hbase.out ?_ i
    simp only [packData, hlen, if_true]
    rfl
  | down hasTp hasPW TP PW =>
    have hpw : hasPW = true := hplain
    subst hpw
    have hsize : PW.toList.length = 16 := by simp
    have hlen' : PW.toList.length + baseLen hasTp ≤ buf.length := by
      rw [hsize]
      exact hlen
    have hpart : Yields (fun _ => True) (writeAt buf 0 PW.toList) (splice buf 0 PW.toList) :=
      yields_writeAt (by omega) trivial
    have hsplice : splice buf 0 PW.toList = PW.toList ++ buf.drop 16 := by
      simp [splice]
    have hbase : Yields (Within buf.length)
        (packBase hasTp TP (PW.toList ++ buf.drop 16) PW.toList.length (buf.length - PW.toList.length)) _ :=
      yields_packBase hasTp TP rfl (by omega) (by rw [List.length_drop]; omega) (by omega)
    rw [← hsplice] at hbase
    have hwrites : Writes (packData (.down hasTp true TP PW) buf 0 buf.length).log i ↔
        i < PW.toList.length + baseLen hasTp := by
      refine writes_parts hpart.out hlen' hbase.out ?_ i
      simp only [packData, hlen, if_true, hsize]
    rw [hwrites, hsize]
    rfl

/-! ## Reading -/

theorem timeTag_bytes (t : TimeTag) : TimeTag.ofBytes t.toBytes = t := rfl

theorem yields_unPackBase {hi : Nat} {hasTp : Bool} {TP : TimeTag} {pre rest : Bytes} {off len : Nat}
    (hoff : off = pre.length) (hlen : baseLen hasTp ≤ len) (hhi : off + baseLen hasTp ≤ hi) :
    Yields (Within hi) (unPackBase hasTp noTag (pre ++ ((if hasTp then TP.toBytes else []) ++ rest)) off len)
      (if hasTp then TP else noTag) := by
  unfold unPackBase
  cases hasTp with
  | true =>
    simp only [hlen, and_self, if_true]
    have hread : slice (pre ++ (TP.toBytes ++ rest)) off 6 = TP.toBytes := slice_part hoff rfl
    have hfit : off + 6 ≤ (pre ++ (TP.toBytes ++ rest)).length := by
      have hTP : TP.toBytes.length = 6 := rfl
      simp only [List.length_append, hTP, hoff]
      omega
    refine (yields_readAt hfit hhi).bind ?_
    rw [hread, timeTag_bytes]
    exact yields_pure TP
  | false =>
    simp only [Bool.false_eq_true, and_false, if_false]
    exact yields_pure noTag

theorem restored_of_bytes {aux : PkgAfnAux} (hplain : aux.Plain) :
    ∃ q, (aux.fresh.unPackData aux.toBytes 0 aux.getDataLen).out = .ok q ∧ q.Restored aux := by
  cases aux with
  | up hasTp TP EC1 EC2 =>
    have hbase : Yields (Within (2 + baseLen hasTp)) (unPackBase hasTp noTag
        ([EC1, EC2] ++ ((if hasTp then TP.toBytes else []) ++ [])) 2 (baseLen hasTp))
        (if hasTp then TP else noTag) := yields_unPackBase rfl (Nat.le_refl _) (Nat.le_refl _)
    rw [List.append_nil] at hbase
    have hread : Yields (fun _ => True) (readAt ([EC1, EC2] ++ if hasTp then TP.toBytes else []) 0 2) [EC1, EC2] :=
      yields_readAt (by simp) trivial
    have hsub : Yields (fun _ => True) (sub32 (2 + baseLen hasTp) 2) (baseLen hasTp) := by
      have h := yields_sub32 (P := fun _ => True) (Nat.le_add_right 2 (baseLen hasTp)) trivial
      rw [Nat.add_sub_cancel_left] at h
      exact h
    refine ⟨.up hasTp (if hasTp then TP else noTag) EC1 EC2, ?_, rfl, rfl, rfl, fun h => if_pos h⟩
    simp only [unPackData, fresh, getDataLen, toBytes, Nat.le_refl, if_true]
    apply (out_bind hread.out _).trans
    apply (out_bind hsub.out _).trans
    exact out_bind hbase.out _
  | down hasTp hasPW TP PW =>
    have hpw : hasPW = true := hplain
    subst hpw
    have hsize : PW.toList.length = 16 := by simp
    have hbase : Yields (Within (16 + baseLen hasTp)) (unPackBase hasTp noTag
        (PW.toList ++ ((if hasTp then TP.toBytes else []) ++ [])) 16 (baseLen hasTp))
        (if hasTp then TP else noTag) := yields_unPackBase hsize.symm (Nat.le_refl _) (Nat.le_refl _)
    rw [List.append_nil] at hbase
    have hread : Yields (fun _ => True) (readAt (PW.toList ++ if hasTp then TP.toBytes else []) 0 16) PW.toList := by
      have hslice : slice (PW.toList ++ if hasTp then TP.toBytes else []) 0 16 = PW.toList := by
        rw [slice_append (by omega), slice, List.drop_zero, List.take_of_length_le (by omega)]
      have h : Yields (fun _ => True) (readAt (PW.toList ++ if hasTp then TP.toBytes else []) 0 16) _ :=
        yields_readAt (by rw [List.length_append, hsize]; omega) trivial
      rw [hslice] at h
      exact h
    have hsub : Yields (fun _ => True) (sub32 (16 + baseLen hasTp) 16) (baseLen hasTp) := by
      have h := yields_sub32 (P := fun _ => True) (Nat.le_add_right 16 (baseLen hasTp)) trivial
      rw [Nat.add_sub_cancel_left] at h
      exact h
    have hPW : (Vector.ofFn fun i : Fin 16 => byteAt PW.toList i) = PW := by
      ext i hi
      simp [byteAt]
    refine ⟨.down hasTp true (if hasTp then TP else noTag) PW, ?_, rfl, rfl, fun _ => rfl, fun h => if_pos h⟩
    simp only [unPackData, fresh, getDataLen, toBytes, Nat.le_refl, if_true]
    apply (out_bind hread.out _).trans
    apply (out_bind hsub.out _).trans
    apply (out_bind hbase.out _).trans
    rw [hPW]
    rfl

theorem fails_unPackData_keyless (hasTp : Bool) (TP : TimeTag) (PW : Vector UInt8 16) {data : Bytes}
    (h : data.length ≤ baseLen hasTp) :
    Fails ((fresh (.down hasTp false TP PW)).unPackData data 0 (baseLen hasTp)) .outOfBounds := by
  have hsmall : baseLen hasTp ≤ 6 := by cases hasTp <;> decide
  simp only [unPackData, fresh, getDataLen, Bool.false_eq_true, if_false, Nat.le_refl, if_true]
  exact (fails_readAt (by omega)).bind _

theorem not_codec_keyless (hasTp : Bool) (TP : TimeTag) (PW : Vector UInt8 16) :
    ¬ (PkgAfnAux.down hasTp false TP PW).Codec := by
  intro ⟨hroom, _⟩
  obtain ⟨b, -, -, -, q, hq, -⟩ := hroom (List.replicate (baseLen hasTp) 0) (by simp [getDataLen])
  have hfail : Fails ((fresh (.down hasTp false TP PW)).unPackData (b.take (baseLen hasTp)) 0 (baseLen hasTp))
      .outOfBounds := fails_unPackData_keyless hasTp TP PW (List.length_take_le ..)
  unfold Fails at hfail
  simp only [getDataLen, Bool.false_eq_true, if_false] at hq
  rw [hfail] at hq
  cases hq

/-- **The additional information comes back exactly if it is not a downlink one without `PW`.** -/
theorem codec_iff (aux : PkgAfnAux) : aux.Codec ↔ ∀ hasTp TP PW, aux ≠ .down hasTp false TP PW := by
  constructor
  · rintro h hasTp TP PW rfl
    exact not_codec_keyless hasTp TP PW h
  · intro h
    have hplain : aux.Plain := by
      cases aux with
      | up => trivial
      | down hasTp hasPW TP PW =>
        cases hasPW with
        | true => rfl
        | false => exact absurd rfl (h hasTp TP PW)
    refine ⟨fun buf hlen => ?_, fun buf hlen => small_untouched aux hlen⟩
    have hpack : Yields (Within aux.getDataLen) (aux.packData ([] ++ buf) 0 buf.length) _ :=
      yields_packAux hplain rfl hlen hlen (Nat.le_of_eq (Nat.zero_add _))
    refine ⟨aux.toBytes ++ buf.drop aux.getDataLen, hpack.out, writes_pack hplain hlen, ?_, ?_⟩
    · exact List.drop_left' (length_aux aux)
    · rw [List.take_left' (length_aux aux)]
      exact restored_of_bytes hplain

-- a downlink aux with `Tp` and without `PW`
def keyless : PkgAfnAux := .down true false ⟨1, (2, 3, 4, 5), 6⟩ (Vector.replicate 16 0)

/-- Six bytes are counted, but `Tp` is written 16 bytes further on. -/
theorem keyless_lost :
    ¬ keyless.Codec ∧ keyless.getDataLen = 6 ∧
    (keyless.packData (List.replicate 22 0) 0 22).out = .ok (List.replicate 16 0 ++ [1, 2, 3, 4, 5, 6], 6) := by
  exact ⟨not_codec_keyless true ⟨1, (2, 3, 4, 5), 6⟩ (Vector.replicate 16 0), rfl, rfl⟩

end PkgAfnAux

end Afn
