import Afn.Chunk
import Afn.CodecSound
import Afn.RecBuf

/-!
# What the parser makes of a stream

The parser cuts a stream into blocks by the length fields alone, and the calls of the loop of `RecBuf` are the
run of that cutter. A connection that keeps a rest and reads again faults.
-/

namespace Afn

open Bytes Access AFNPackage

/-! ## Blocks -/

-- a frame, bytes that fail the markers or the checksum, or a frame the parser faults on
inductive Block
  | frame (p : AFNPackage)
  | dropped
  | fault
  deriving DecidableEq, Repr

def blockAt (w : Bytes) : Option (Nat × Block) :=
  if 14 ≤ w.length ∧ lenAt w + 8 ≤ w.length then
    some (lenAt w + 8,
      if Marked w ∧ Summed w then if lenAt w < 12 then .fault else .frame (frameOf w) else .dropped)
  else none

def frames : List Block → List AFNPackage
  | [] => []
  | .frame p :: bs => p :: frames bs
  | _ :: bs => frames bs

@[simp] theorem frames_append (a b : List Block) : frames (a ++ b) = frames a ++ frames b := by
  induction a with
  | nil => rfl
  | cons x a ih => cases x <;> simp [frames, ih]

theorem blockAt_some {w : Bytes} {n : Nat} {b : Block} (h : blockAt w = some (n, b)) :
    14 ≤ w.length ∧ lenAt w + 8 ≤ w.length ∧ n = lenAt w + 8 := by
  unfold blockAt at h
  split at h
  next hw =>
    simp only [Option.some.injEq, Prod.mk.injEq] at h
    exact ⟨hw.1, hw.2, h.1.symm⟩
  next => cases h

theorem blockAt_kind {w : Bytes} {n : Nat} {b : Block} (h : blockAt w = some (n, b)) :
    (b = .fault ∧ (Marked w ∧ Summed w) ∧ lenAt w < 12) ∨
    (b = .frame (frameOf w) ∧ (Marked w ∧ Summed w) ∧ 12 ≤ lenAt w) ∨
    (b = .dropped ∧ ¬ (Marked w ∧ Summed w)) := by
  obtain ⟨h14, hle, -⟩ := blockAt_some h
  simp only [blockAt, h14, hle, and_self, if_true, Option.some.injEq, Prod.mk.injEq] at h
  obtain ⟨-, rfl⟩ := h
  by_cases hc : Marked w ∧ Summed w
  · by_cases h12 : lenAt w < 12
    · exact .inl ⟨by simp only [hc, and_self, h12, if_true], hc, h12⟩
    · exact .inr (.inl ⟨by simp only [hc, and_self, h12, if_true, if_false], hc, by omega⟩)
  · exact .inr (.inr ⟨by simp only [hc, if_false], hc⟩)

theorem lenAt_append {s : Bytes} (h : 3 ≤ s.length) (t : Bytes) : lenAt (s ++ t) = lenAt s := by
  unfold lenAt
  rw [byteAt_append (by omega), byteAt_append (by omega)]

section
variable {s : Bytes} (h14 : 14 ≤ s.length) (hle : lenAt s + 8 ≤ s.length) (t : Bytes)
include h14 hle

theorem marked_append : Marked (s ++ t) ↔ Marked s := by
  unfold Marked
  rw [lenAt_append (by omega), byteAt_append (by omega), byteAt_append (by omega), byteAt_append (by omega)]

theorem summed_append : Summed (s ++ t) ↔ Summed s := by
  unfold Summed
  rw [lenAt_append (by omega), slice_append (by omega), byteAt_append (by omega)]

theorem frameOf_append (h12 : 12 ≤ lenAt s) : frameOf (s ++ t) = frameOf s := by
  have hunit : unitOf (s ++ t) = unitOf s := by
    unfold unitOf
    rw [lenAt_append (by omega), slice_append (by omega), slice_append (by omega)]
  unfold frameOf
  rw [hunit, lenAt_append (by omega), slice_append (by omega), slice_append (by omega), slice_append (by omega),
    slice_append (by omega)]

end

theorem stable_blockAt : Chunk.Stable blockAt where
  pos := by
    intro w n b h
    obtain ⟨_, hle, rfl⟩ := blockAt_some h
    exact ⟨by omega, hle⟩
  append := by
    intro w n b t h
    obtain ⟨h14, hle, rfl⟩ := blockAt_some h
    have hw : 14 ≤ (w ++ t).length ∧ lenAt w + 8 ≤ (w ++ t).length := by
      rw [List.length_append]; omega
    have hlen : lenAt (w ++ t) = lenAt w := lenAt_append (by omega) t
    rw [← h]
    unfold blockAt
    simp only [hlen, marked_append h14 hle, summed_append h14 hle, hw, h14, hle, and_self, if_true]
    by_cases h12 : lenAt w < 12
    · simp only [h12, if_true]
    · simp only [h12, if_false, frameOf_append h14 hle t (Nat.le_of_not_lt h12)]

section
variable (mem : AFNPackage) {w : Bytes} (h31 : w.length < 2 ^ 31)
include h31

theorem parse_of_none (h : blockAt w = none) :
    ∃ q, Yields (InFrame w) ((construct mem).parseProto w) (YQER_PKG_Err 1, 0, q) := by
  refine parse_wait mem fun hw => ?_
  have hlen := (whole_iff h31).mp hw
  simp only [blockAt, hlen, and_self, if_true] at h
  cases h

theorem whole_of_some {n : Nat} {b : Block} (h : blockAt w = some (n, b)) : Whole w := by
  obtain ⟨h14, hle, -⟩ := blockAt_some h
  exact (whole_iff h31).mpr ⟨h14, hle⟩

theorem parse_of_frame {n : Nat} {p : AFNPackage} (h : blockAt w = some (n, .frame p)) :
    Yields (InFrame w) ((construct mem).parseProto w) (YQER_OK, n, p) := by
  have hw := whole_of_some h31 h
  obtain ⟨-, -, rfl⟩ := blockAt_some h
  obtain ⟨hb, -⟩ | ⟨hb, hc, h12⟩ | ⟨hb, -⟩ := blockAt_kind h
  · cases hb
  · cases hb
    exact parse_ok mem ⟨hw, hc.1, hc.2⟩ h12
  · cases hb

theorem parse_of_dropped {n : Nat} (h : blockAt w = some (n, .dropped)) :
    ∃ c q, c ≠ YQER_OK ∧ c ≠ YQER_PKG_Err 1 ∧ Yields (InFrame w) ((construct mem).parseProto w) (c, n, q) := by
  have hw := whole_of_some h31 h
  obtain ⟨-, -, rfl⟩ := blockAt_some h
  obtain ⟨hb, -⟩ | ⟨hb, -⟩ | ⟨-, hc⟩ := blockAt_kind h
  · cases hb
  · cases hb
  · by_cases hm : Marked w
    · exact ⟨_, _, by decide, by decide, parse_sum mem hw hm fun hs => hc ⟨hm, hs⟩⟩
    · exact ⟨_, _, by decide, by decide, parse_mark mem hw hm⟩

theorem parse_of_fault {n : Nat} (h : blockAt w = some (n, .fault)) :
    ∃ e, Fails ((construct mem).parseProto w) e := by
  have hw := whole_of_some h31 h
  obtain ⟨-, hc, h12⟩ | ⟨hb, -⟩ | ⟨hb, -⟩ := blockAt_kind h
  · exact parse_fault mem ⟨hw, hc.1, hc.2⟩ h12 (by omega)
  · cases hb
  · cases hb

end

theorem ne_nil_of_block {w : Bytes} {n : Nat} {b : Block} (h : blockAt w = some (n, b)) : w ≠ [] := by
  obtain ⟨h14, -⟩ := blockAt_some h
  exact List.length_pos_iff.mp (by omega)

theorem length_drop_block {w : Bytes} {n : Nat} {b : Block} (h : blockAt w = some (n, b)) :
    (w.drop n).length < w.length := by
  have hp := stable_blockAt.pos h
  rw [List.length_drop]
  omega

/-! ## The calls of the parser -/

/-- The `ParseProto` loop run over `w`: the calls it makes, each on new memory, and the bytes left when it ends. -/
inductive ParseCalls : Bytes → List ParseCall → Bytes → Prop
  | done : ParseCalls [] [] []
  | wait {mem : AFNPackage} {w : Bytes} {e : Nat} {q : AFNPackage} : w ≠ [] →
      ((construct mem).parseProto w).out = .ok (YQER_PKG_Err 1, e, q) →
      ParseCalls w [⟨w, YQER_PKG_Err 1, e, q⟩] (w.drop e)
  | next {mem : AFNPackage} {w tail : Bytes} {c : Int} {e : Nat} {q : AFNPackage} {calls : List ParseCall} :
      w ≠ [] → ((construct mem).parseProto w).out = .ok (c, e, q) → c ≠ YQER_PKG_Err 1 →
      ParseCalls (w.drop e) calls tail → ParseCalls w (⟨w, c, e, q⟩ :: calls) tail

theorem accepted_cons (c : ParseCall) (calls : List ParseCall) :
    accepted (c :: calls) = accepted [c] ++ accepted calls := by
  unfold accepted
  rw [← List.map_append, ← List.filter_append]
  rfl

theorem frames_cons (b : Block) (bs : List Block) : frames (b :: bs) = frames [b] ++ frames bs := by
  rw [← frames_append]
  rfl

section
variable (mem : AFNPackage) {w : Bytes} (h31 : w.length < 2 ^ 31)
include h31

theorem parse_of_block {n : Nat} {b : Block} (hn : blockAt w = some (n, b)) (hb : b ≠ .fault) :
    ∃ c q, c ≠ YQER_PKG_Err 1 ∧ ((construct mem).parseProto w).out = .ok (c, n, q) ∧
      accepted [⟨w, c, n, q⟩] = frames [b] := by
  cases b with
  | frame p => exact ⟨YQER_OK, p, by decide, (parse_of_frame mem h31 hn).out, rfl⟩
  | dropped =>
    obtain ⟨c, q, hok, hwait, hp⟩ := parse_of_dropped mem h31 hn
    exact ⟨c, q, hwait, hp.out, by simp [accepted, hok, frames]⟩
  | fault => exact absurd rfl hb

theorem block_of_parse {c : Int} {e : Nat} {q : AFNPackage} (hc : c ≠ YQER_PKG_Err 1)
    (hp : ((construct mem).parseProto w).out = .ok (c, e, q)) :
    ∃ b, blockAt w = some (e, b) ∧ b ≠ .fault ∧ accepted [⟨w, c, e, q⟩] = frames [b] := by
  cases hn : blockAt w with
  | none =>
    obtain ⟨q', hwait⟩ := parse_of_none mem h31 hn
    rw [hwait.out] at hp
    cases hp
    exact absurd rfl hc
  | some r =>
    obtain ⟨n, b⟩ := r
    by_cases hb : b = .fault
    · subst hb
      obtain ⟨f, hf⟩ := parse_of_fault mem h31 hn
      rw [Fails, hp] at hf
      cases hf
    · obtain ⟨c', q', -, hp', hacc⟩ := parse_of_block mem h31 hn hb
      rw [hp'] at hp
      cases hp
      exact ⟨b, rfl, hb, hacc⟩

end

/-- The loop is the run of the cutter. -/
theorem ParseCalls.run {w tail : Bytes} {calls : List ParseCall} (h : ParseCalls w calls tail)
    (h31 : w.length < 2 ^ 31) : Block.fault ∉ (Chunk.run blockAt w).1 ∧
      accepted calls = frames (Chunk.run blockAt w).1 ∧ tail = (Chunk.run blockAt w).2 := by
  induction h with
  | done =>
    rw [Chunk.run_nil stable_blockAt]
    exact ⟨List.not_mem_nil, rfl, rfl⟩
  | @wait mem w e q hw hp =>
    cases hn : blockAt w with
    | none =>
      obtain ⟨q', hwait⟩ := parse_of_none mem h31 hn
      rw [hwait.out] at hp
      cases hp
      rw [Chunk.run_none hn]
      exact ⟨List.not_mem_nil, rfl, rfl⟩
    | some r =>
      obtain ⟨n, b⟩ := r
      by_cases hb : b = .fault
      · subst hb
        obtain ⟨f, hf⟩ := parse_of_fault mem h31 hn
        rw [Fails, hp] at hf
        cases hf
      · obtain ⟨c, q', hc, hp', -⟩ := parse_of_block mem h31 hn hb
        rw [hp'] at hp
        cases hp
        exact absurd rfl hc
  | @next mem w tail c e q calls _ hp hc _ ih =>
    obtain ⟨b, hn, hb, hacc⟩ := block_of_parse mem h31 hc hp
    have hlen := length_drop_block hn
    obtain ⟨hclean, hframes, htail⟩ := ih (by omega)
    rw [Chunk.run_some stable_blockAt hn, accepted_cons, frames_cons, hacc, hframes]
    exact ⟨fun hm => (List.mem_cons.mp hm).elim (fun heq => hb heq.symm) hclean, rfl, htail⟩

/-! ## What is kept -/

theorem slice_rest (w : Bytes) (n : Nat) : slice w n (w.length - n) = w.drop n := by
  rw [slice, List.take_of_length_le (Nat.le_of_eq List.length_drop)]

namespace EventConnection

/-- The bytes to be parsed stand in the connection's own buffer, when the loop is told so. -/
def Holds (self : EventConnection) (parseBuffer : Bool) (w : Bytes) : Prop :=
  parseBuffer = true → ∃ b, self.m_buffer = some b ∧ w.length ≤ b.length

theorem yields_keep {self : EventConnection} {parseBuffer : Bool} {w : Bytes} (h : self.Holds parseBuffer w) :
    ∃ b, Yields NoWrap (self.keep parseBuffer w) ⟨some b, w.length⟩ ∧ b.take w.length = w := by
  cases parseBuffer with
  | false => exact ⟨w, yields_pure _, List.take_length⟩
  | true =>
    obtain ⟨b, hb, hlen⟩ := h rfl
    refine ⟨splice b 0 w, ?_, ?_⟩
    · unfold keep
      rw [hb]
      apply (yields_deref b).bind
      apply (yields_writeAt (by omega) trivial).bind
      exact yields_pure _
    · have hs : splice b 0 w = w ++ b.drop w.length := by simp [splice]
      rw [hs, List.take_left]

/-- What the loop leaves on `w`: the calls it has made, and the rest `tail` kept if there is one. -/
structure Leaves (con : EventConnection) (w : Bytes) (r : Parsed) (tail : Bytes) : Prop where
  calls : ParseCalls w r.calls tail
  done : tail = [] → r.con = con ∧ r.bufferedData = false
  waits : tail ≠ [] → r.bufferedData = true ∧ ∃ b, r.con = ⟨some b, tail.length⟩ ∧ b.take tail.length = tail

theorem Holds.drop {self : EventConnection} {parseBuffer : Bool} {w : Bytes} (h : self.Holds parseBuffer w) (n : Nat) :
    self.Holds parseBuffer (w.drop n) := by
  intro hpb
  obtain ⟨b, hb, hlen⟩ := h hpb
  exact ⟨b, hb, by rw [List.length_drop]; omega⟩

theorem Leaves.next {self : EventConnection} {mem q : AFNPackage} {w tail : Bytes} {c : Int} {n : Nat} {r : Parsed}
    (hw : w ≠ []) (hp : ((AFNPackage.construct mem).parseProto w).out = .ok (c, n, q)) (hc : c ≠ YQER_PKG_Err 1)
    (h : self.Leaves (w.drop n) r tail) : self.Leaves w { r with calls := ⟨w, c, n, q⟩ :: r.calls } tail :=
  ⟨.next hw hp hc h.calls, h.done, h.waits⟩

theorem Leaves.kept {self : EventConnection} {w tail : Bytes} {r : Parsed} (h : self.Leaves w r tail)
    (hne : tail ≠ []) : r.con.kept = tail ∧ r.con.m_buffer.isSome = true := by
  obtain ⟨-, b, hcon, hb⟩ := h.waits hne
  rw [hcon]
  exact ⟨hb, rfl⟩

/-- Bytes appended to a kept rest are written past the end of the new array, unless the copy before it
has already read past the end of the old one. -/
theorem append_faults (self : EventConnection) (msg : Bytes) (hmsg : msg ≠ []) :
    ∃ e, (self.appendData2Buffer msg).out = .error e := by
  have hpos := List.length_pos_iff.mpr hmsg
  cases hb : self.m_buffer with
  | none =>
    refine ⟨.null, ?_⟩
    simp only [appendData2Buffer, hb]
    exact out_bind_error fails_deref _
  | some b =>
    refine ⟨.outOfBounds, ?_⟩
    simp only [appendData2Buffer, hb]
    have hd : (deref (some b)).out = .ok b := rfl
    rw [out_bind hd]
    by_cases hread : 0 + (self.m_buffer_size + msg.length) ≤ b.length
    · have hr := yields_readAt (P := fun _ => True) hread trivial
      have hlen := length_slice_of_le hread
      have hw : Yields (fun _ => True)
          (writeAt (List.replicate (self.m_buffer_size + msg.length) 0) 0
            (slice b 0 (self.m_buffer_size + msg.length)))
          (splice (List.replicate (self.m_buffer_size + msg.length) 0) 0
            (slice b 0 (self.m_buffer_size + msg.length))) :=
        yields_writeAt (by rw [List.length_replicate]; omega) trivial
      rw [out_bind hr.out, out_bind hw.out]
      refine out_bind_error (fails_writeAt ?_) _
      rw [length_splice (by rw [List.length_replicate]; omega), List.length_replicate]
      omega
    · exact out_bind_error (fails_readAt (by omega)) _

/-! ## Framed reads -/

/-- By its length fields the input consists of whole blocks. -/
inductive Framed : Bytes → Prop
  | nil : Framed []
  | block {w : Bytes} : 14 ≤ w.length → lenAt w + 8 ≤ w.length → Framed (w.drop (lenAt w + 8)) → Framed w

theorem framed_iff (w : Bytes) : Framed w ↔ (Chunk.run blockAt w).2 = [] := by
  rw [← Chunk.splits_iff stable_blockAt]
  constructor
  · intro h
    induction h with
    | nil => exact .nil
    | block h14 hle _ ih => exact .block (if_pos ⟨h14, hle⟩) ih
  · intro h
    induction h with
    | nil => exact .nil
    | block hn _ ih =>
      obtain ⟨h14, hle, rfl⟩ := blockAt_some hn
      exact .block h14 hle ih

end EventConnection

end Afn
