import Afn.PsMsg
import Afn.Run

/-!
# Messages arrive once and in order

Of every type the messages sent, in the order in which they were put into the queue, are those received and those
still in the queue, whatever the processes do and however their calls are nested. A process alone gets its message
into the queue exactly when there is room beside the messages it cannot take.
-/

namespace Afn

open Bytes TypedQueue

/-! ## Round trip -/

theorem byte_parts (n : Nat) (h : n < 2 ^ 32) :
    n % 2 ^ 8 + 2 ^ 8 * (n / 2 ^ 8 % 2 ^ 8) + 2 ^ 16 * (n / 2 ^ 16 % 2 ^ 8) + 2 ^ 24 * (n / 2 ^ 24 % 2 ^ 8) = n := by
  omega

theorem intAt_of_slice {b : Bytes} {off : Nat} {v : Int32} (h : slice b off 4 = intBytes v) : intAt b off = v := by
  have hbyte : ∀ i, i < 4 → byteAt b (off + i) = byteAt (intBytes v) i := by
    intro i hi
    rw [← h, byteAt_slice hi]
  have h0 := hbyte 0 (by decide)
  rw [Nat.add_zero] at h0
  have hval : v.toUInt32.toNat < 2 ^ 32 := v.toUInt32.toNat_lt
  unfold intAt
  rw [h0, hbyte 1 (by decide), hbyte 2 (by decide), hbyte 3 (by decide)]
  have hsum := byte_parts v.toUInt32.toNat hval
  simp only [intBytes, byteAt, List.getD_cons_zero, List.getD_cons_succ, UInt8.toNat_ofNat']
  rw [hsum, UInt32.ofNat_toNat]

@[simp] theorem length_intBytes (v : Int32) : (intBytes v).length = 4 := rfl

namespace YQTcpMsg

@[simp] theorem length_toBytes (m : YQTcpMsg) : m.toBytes.length = size := by
  simp [toBytes, m.length_MsgStr, size]

theorem ofBytes_toBytes (m : YQTcpMsg) (stream : Bytes) (h : size ≤ (m.toBytes ++ stream).length) :
    ofBytes (m.toBytes ++ stream) h = m := by
  have hflow : slice (m.toBytes ++ stream) 0 4 = intBytes m.Flow := by simp [slice, toBytes, intBytes]
  have hint1 : slice (m.toBytes ++ stream) 4 4 = intBytes m.MsgInt1 := by simp [slice, toBytes, intBytes]
  have hint2 : slice (m.toBytes ++ stream) 8 4 = intBytes m.MsgInt2 := by simp [slice, toBytes, intBytes]
  have hstr : slice (m.toBytes ++ stream) 12 48 = m.MsgStr := by
    simp [slice, toBytes, intBytes, List.take_left' m.length_MsgStr]
  unfold ofBytes
  simp only [intAt_of_slice hflow, intAt_of_slice hint1, intAt_of_slice hint2, hstr]

theorem drop_toBytes (m : YQTcpMsg) (stream : Bytes) : (m.toBytes ++ stream).drop size = stream :=
  List.drop_left' m.length_toBytes

end YQTcpMsg

/-! ## Messages in the queue -/

def text (m : YQTcpMsg × Bytes) : Bytes := m.1.toBytes ++ m.2

theorem text_injective : Function.Injective text := by
  intro m m' h
  have hlen : ∀ k : YQTcpMsg × Bytes, YQTcpMsg.size ≤ (k.1.toBytes ++ k.2).length := fun k => by simp
  unfold text at h
  have hmsg : m.1 = m'.1 := by
    rw [← YQTcpMsg.ofBytes_toBytes m.1 m.2 (hlen m), ← YQTcpMsg.ofBytes_toBytes m'.1 m'.2 (hlen m')]
    simp only [h]
  have hstream : m.2 = m'.2 := by
    rw [← YQTcpMsg.drop_toBytes m.1 m.2, ← YQTcpMsg.drop_toBytes m'.1 m'.2, h]
  exact Prod.ext hmsg hstream

def typedText (m : Int × YQTcpMsg × Bytes) : Int × Bytes := (m.1, text m.2)

theorem ofType_typedText (t : Int) (l : List (Int × YQTcpMsg × Bytes)) :
    ofType t (l.map typedText) = (ofType t l).map text := by
  induction l with
  | nil => rfl
  | cons m l ih =>
    rw [List.map_cons, ofType_cons, ofType_cons, ih]
    by_cases h : m.1 = t
    · simp [typedText, h]
    · simp [typedText, h]

def Receipt.message (r : Receipt) : Int × YQTcpMsg × Bytes := (r.type, r.msg, r.stream)

/-! ## Steps -/

namespace Post

/-- What was sent is what has been received and what the queue holds; every message in the queue has been sent and
fits into the buffer of `Execute`, and no process has received what was not for it. -/
structure Inv (s : Post) : Prop where
  conserved : Conserved (s.sent.map typedText) (s.received.map fun r => typedText r.message) s.queue.msgs
  made : ∀ m ∈ s.queue.msgs, ∃ k, m.2 = text k
  room : used s.queue.msgs ≤ s.msgmnb
  qbytes : s.queue.qbytes = s.msgmnb
  own : ∀ r ∈ s.received, 0 < (s.procs r.proc).FMsgType → r.type = (s.procs r.proc).FMsgType

section
variable {s s' : Post} {i : Nat}

theorem inv_start (msgmnb msgmax : Nat) (FMsgQID FMsgType : Nat → Int) : (start msgmnb msgmax FMsgQID FMsgType).Inv :=
  ⟨conserved_nil, List.forall_mem_nil _, Nat.zero_le _, rfl, List.forall_mem_nil _⟩

theorem FMsgType_setProc {p : TYQPsMsg} (h : p.FMsgType = (s.procs i).FMsgType) (j : Nat) :
    ((s.setProc i p).procs j).FMsgType = (s.procs j).FMsgType := by
  by_cases hj : j = i
  · subst hj
    simp [setProc, h]
  · simp [setProc, hj]

theorem Inv.setProc (h : s.Inv) {p : TYQPsMsg} (hp : p.FMsgType = (s.procs i).FMsgType) : (s.setProc i p).Inv := by
  refine ⟨h.conserved, h.made, h.room, h.qbytes, fun r hr => ?_⟩
  rw [FMsgType_setProc hp]
  exact h.own r hr

theorem Inv.receive_cases (h : s.Inv) (hr : s.receive i = some s') :
    s' = s ∨ ∃ type k queue, s.queue.msgrcv (s.procs i).FMsgType = some ((type, text k), queue) ∧
      s' = { s with queue := queue, received := s.received ++ [⟨i, type, k.1, k.2⟩] } := by
  unfold receive TYQMsgQueue.receive at hr
  by_cases hid : (s.procs i).FMsgQID ≠ -1
  · rw [if_pos hid] at hr
    cases hrcv : s.queue.msgrcv (s.procs i).FMsgType with
    | none =>
      simp only [hrcv] at hr
      cases hr
      exact .inl rfl
    | some r =>
      obtain ⟨⟨type, buf⟩, queue⟩ := r
      obtain ⟨before, after, hsplit, -, -, -⟩ := msgrcv_some hrcv
      have hmem : (type, buf) ∈ s.queue.msgs := by simp [hsplit]
      obtain ⟨k, rfl⟩ : ∃ k, buf = text k := h.made _ hmem
      have hfit : (text k).length ≤ s.msgmnb := Nat.le_trans (length_le_used hmem) h.room
      have hlong : YQTcpMsg.size ≤ (text k).length := by simp [text]
      simp only [hrcv, List.take_of_length_le hfit, hlong, dite_true, Option.some.injEq] at hr
      refine .inr ⟨type, k, queue, rfl, ?_⟩
      rw [← hr]
      simp only [text, YQTcpMsg.ofBytes_toBytes, YQTcpMsg.drop_toBytes]
  · rw [if_neg hid] at hr
    cases hr

theorem Inv.receive (h : s.Inv) (hr : s.receive i = some s') : s'.Inv := by
  rcases h.receive_cases hr with rfl | ⟨type, k, queue, hrcv, rfl⟩
  · exact h
  · have hcons := h.conserved.receive hrcv
    obtain ⟨before, after, hsplit, rfl, -, hwants⟩ := msgrcv_some hrcv
    have hsub : (before ++ after).Sublist s.queue.msgs := by simp [hsplit]
    refine ⟨?_, fun m hm => h.made m (hsub.subset hm), Nat.le_trans (used_sublist hsub) h.room, h.qbytes, ?_⟩
    · simpa [Receipt.message, typedText] using hcons
    · intro r hr
      rcases List.mem_append.mp hr with hr | hr
      · exact h.own r hr
      · rw [List.mem_singleton.mp hr]
        exact fun hpos => wants_own hpos hwants

theorem Inv.send (h : s.Inv) {type : Int} {k : YQTcpMsg × Bytes} {FMsgQID : Int} {queue : Queue UInt8}
    (hs : TYQMsgQueue.send FMsgQID s.queue (text k) type = some (true, queue)) :
    Inv { s with queue := queue, sent := s.sent ++ [(type, k)] } := by
  have hsnd : s.queue.msgsnd type (text k) = .sent queue := by
    unfold TYQMsgQueue.send at hs
    split at hs
    · split at hs
      next q hq =>
        cases hs
        exact hq
      next => cases hs
      next => cases hs
    · cases hs
  have hcons := h.conserved.send hsnd
  obtain ⟨hfits, rfl⟩ := msgsnd_sent hsnd
  refine ⟨by simpa [typedText] using hcons, ?_, ?_, h.qbytes, h.own⟩
  · intro m hm
    rcases List.mem_append.mp hm with hm | hm
    · exact h.made m hm
    · rw [List.mem_singleton.mp hm]
      exact ⟨k, rfl⟩
  · have hroom := hfits.1
    rw [h.qbytes] at hroom
    simpa [used_append, used_cons, used, Nat.add_comm] using hroom

theorem Inv.step (h : s.Inv) {act : Act} (hs : s.step act = some s') : s'.Inv := by
  cases act with
  | sendMsg i MsgType Flow MsgInt1 MsgInt2 MsgStr stream =>
    cases hs
    exact h.setProc rfl
  | tryAgain i =>
    simp only [Post.step] at hs
    cases hcalls : (s.procs i).sends with
    | nil => simp [hcalls] at hs
    | cons call calls =>
      simp only [hcalls] at hs
      split at hs
      · cases hs
      · split at hs
        next queue hsend =>
          have h₁ : (s.setProc i { s.procs i with sends := calls }).Inv := h.setProc rfl
          have hsent := h₁.send (k := (call.msg, call.stream)) hsend
          rw [← Option.some.inj hs]
          exact hsent
        next =>
          rw [← Option.some.inj hs]
          exact h.setProc rfl
        next =>
          rw [← Option.some.inj hs]
          exact h.setProc rfl
  | execute i =>
    simp only [Post.step] at hs
    split at hs
    next s₁ hr =>
      have h₁ := h.receive hr
      split at hs
      next =>
        cases hs
        exact h₁
      next call calls _ =>
        cases hs
        exact h₁.setProc rfl
    next =>
      cases hs
      exact h.setProc rfl

end

/-! ## Runs -/

/-- Of every type, the messages sent are those given to `OnReceive`, in the same order, and then those in the queue;
a process with a type of its own is given no others. -/
def Delivers (s : Post) : Prop :=
  (∀ t, ∃ waiting, ofType t s.queue.msgs = waiting.map text ∧
    ofType t s.sent = ofType t (s.received.map Receipt.message) ++ waiting) ∧
  ∀ r ∈ s.received, 0 < (s.procs r.proc).FMsgType → r.type = (s.procs r.proc).FMsgType

theorem Inv.delivers {s : Post} (h : s.Inv) : s.Delivers := by
  refine ⟨fun t => ?_, h.own⟩
  have hcons := h.conserved t
  have hrec : (s.received.map fun r => typedText r.message) = (s.received.map Receipt.message).map typedText := by simp
  rw [hrec, ofType_typedText, ofType_typedText, List.map_eq_append_iff] at hcons
  obtain ⟨l, waiting, hsent, hl, hwait⟩ := hcons
  have hl' := (List.map_inj_right fun _ _ h => text_injective h).mp hl
  exact ⟨waiting, hwait.symm, by rw [hsent, hl']⟩

/-- **In every run the messages of every type are received once and in the order they were sent**, each with the
header and the stream it was sent with. -/
theorem delivers_throughout (msgmnb msgmax : Nat) (FMsgQID FMsgType : Nat → Int) (acts : List Act) :
    Run.Throughout step Delivers (start msgmnb msgmax FMsgQID FMsgType) acts :=
  Run.throughout_of (I := Inv) (fun h => h.delivers) (fun h hs => h.step hs) (inv_start msgmnb msgmax FMsgQID FMsgType)

/-! ## A process alone -/

section
variable {s s' : Post} {i : Nat}

theorem receive_id (hid : (s.procs i).FMsgQID ≠ -1) : ∃ s', s.receive i = some s' ∧ s'.procs = s.procs ∧
    (s.queue.msgrcv (s.procs i).FMsgType = none ∧ s'.queue = s.queue ∨
      ∃ m, s.queue.msgrcv (s.procs i).FMsgType = some (m, s'.queue)) := by
  unfold receive TYQMsgQueue.receive
  rw [if_pos hid]
  cases hrcv : s.queue.msgrcv (s.procs i).FMsgType with
  | none => exact ⟨_, rfl, rfl, .inl ⟨rfl, rfl⟩⟩
  | some r =>
    simp only
    split
    · exact ⟨_, rfl, rfl, .inr ⟨r.1, rfl⟩⟩
    · exact ⟨_, rfl, rfl, .inr ⟨r.1, rfl⟩⟩

theorem receive_setProc {p : TYQPsMsg} (hid : p.FMsgQID = (s.procs i).FMsgQID)
    (htype : p.FMsgType = (s.procs i).FMsgType) :
    (s.setProc i p).receive i = (s.receive i).map fun s' => s'.setProc i p := by
  unfold receive
  simp only [setProc, Function.update_self, hid, htype]
  cases TYQMsgQueue.receive (s.procs i).FMsgQID s.queue s.msgmnb (s.procs i).FMsgType with
  | none => rfl
  | some r =>
    obtain ⟨m, queue⟩ := r
    cases m with
    | none => rfl
    | some m =>
      simp only
      split
      · rfl
      · rfl

theorem receive_procs (h : s.receive i = some s') : s'.procs = s.procs := by
  unfold receive at h
  split at h
  · split at h
    · cases h
      rfl
    · cases h
      rfl
  · cases h
    rfl
  · cases h

theorem setProc_setProc (p q : TYQPsMsg) : (s.setProc i p).setProc i q = s.setProc i q := by
  simp [setProc, Function.update_idem]

theorem setProc_self : s.setProc i (s.procs i) = s := by
  simp [setProc]

section
variable {call : Pending} {calls : List Pending} (hcall : (s.procs i).sends = call :: calls)
include hcall

theorem step_tryAgain (htry : call.full = false) : s.step (.tryAgain i) =
    match TYQMsgQueue.send (s.procs i).FMsgQID s.queue call.buf call.MsgType with
    | some (true, queue) => some { s.setProc i { s.procs i with sends := calls } with
        queue := queue, sent := s.sent ++ [(call.MsgType, call.msg, call.stream)] }
    | some (false, _) => some (s.setProc i { s.procs i with sends := { call with full := true } :: calls })
    | none => some (s.throwAt i) := by
  simp only [step, hcall, htry, Bool.false_eq_true, if_false]
  rfl

theorem step_execute : s.step (.execute i) =
    match s.receive i with
    | some s' => some (s'.setProc i { s.procs i with sends := { call with full := false } :: calls })
    | none => some (s.throwAt i) := by
  cases hrcv : s.receive i with
  | none => simp only [step, hrcv]
  | some s' => simp only [step, hrcv, receive_procs hrcv, hcall]

/-- A turn of the loop is what the innermost call of `SendMsg` does: it tries to send, and when it has failed it calls
`Execute`. -/
theorem steps_sendTurn (htry : call.full = false) :
    match sendTurn i call.MsgType call.buf s with
    | .ok (.inl s') => [Act.tryAgain i, .execute i].foldlM step s = some s'
    | .ok (.inr s') => s.step (.tryAgain i) = some { s'.setProc i { s.procs i with sends := calls } with
        sent := s.sent ++ [(call.MsgType, call.msg, call.stream)] }
    | .error () => s.step (.tryAgain i) = some (s.throwAt i) ∨
        [Act.tryAgain i, .execute i].foldlM step s = some (s.throwAt i) := by
  have hstep := step_tryAgain hcall htry
  unfold sendTurn
  cases hsend : TYQMsgQueue.send (s.procs i).FMsgQID s.queue call.buf call.MsgType with
  | none =>
    rw [hsend] at hstep
    exact .inl hstep
  | some r =>
    obtain ⟨sent, queue⟩ := r
    rw [hsend] at hstep
    cases sent with
    | true => exact hstep
    | false =>
      let waiting : TYQPsMsg := { s.procs i with sends := { call with full := true } :: calls }
      have hwaiting : (s.setProc i waiting).procs i = waiting := Function.update_self ..
      have hsends : ((s.setProc i waiting).procs i).sends = { call with full := true } :: calls := by rw [hwaiting]
      have hrun : [Act.tryAgain i, .execute i].foldlM step s = (s.setProc i waiting).step (.execute i) := by
        show (s.step (.tryAgain i)).bind (fun t => (t.step (.execute i)).bind some) = _
        rw [hstep]
        exact Option.bind_fun_some _
      have hself : { waiting with sends := { call with full := false } :: calls } = s.procs i := by
        rw [← htry, ← hcall]
      rw [hrun, step_execute hsends, hwaiting, @receive_setProc s i waiting rfl rfl]
      cases hrcv : s.receive i with
      | none =>
        right
        show some ((s.setProc i waiting).throwAt i) = some (s.throwAt i)
        unfold throwAt
        rw [setProc_setProc, hwaiting]
      | some s' =>
        show some ((s'.setProc i waiting).setProc i { waiting with sends := { call with full := false } :: calls }) =
          some s'
        rw [setProc_setProc, hself, ← receive_procs hrcv, setProc_self]

end

/-- The process can send, and nothing but the room for the message is missing. -/
structure Sending (s₀ : Post) (i : Nat) (MsgType : Int) (buf : Bytes) (s : Post) : Prop where
  FMsgQID : (s.procs i).FMsgQID ≠ -1
  FMsgType : (s.procs i).FMsgType = (s₀.procs i).FMsgType
  type : 1 ≤ MsgType
  size : buf.length ≤ s.queue.msgmax
  qbytes : s.queue.qbytes = s₀.queue.qbytes
  others : TypedQueue.others (s₀.procs i).FMsgType s.queue.msgs =
    TypedQueue.others (s₀.procs i).FMsgType s₀.queue.msgs

/-- `SendMsg` returns: the message is the last one in the queue, and of the others none is gone that the process does
not take. -/
def Returns (s : Post) (i : Nat) (MsgType : Int) (buf : Bytes) : Prop :=
  ∃ s' left, Loop.Ends (sendTurn i MsgType buf) s s' ∧ s'.queue.msgs = left ++ [(MsgType, buf)] ∧
    others (s.procs i).FMsgType left = others (s.procs i).FMsgType s.queue.msgs

section
variable {s₀ : Post} {MsgType : Int} {buf : Bytes} (h : Sending s₀ i MsgType buf s)
include h

theorem Sending.sent (hfits : Fits s.queue.msgs s.queue.qbytes buf) : ∃ s', sendTurn i MsgType buf s = .ok (.inr s') ∧
    s'.queue.msgs = s.queue.msgs ++ [(MsgType, buf)] := by
  have hok : ¬ (MsgType < 1 ∨ s.queue.msgmax < buf.length) := by simp [h.type, h.size]
  refine ⟨{ s with queue := { s.queue with msgs := s.queue.msgs ++ [(MsgType, buf)] } }, ?_, rfl⟩
  simp only [sendTurn, TYQMsgQueue.send, Queue.msgsnd, if_pos h.FMsgQID, if_neg hok, if_pos hfits]

theorem Sending.full (hfull : ¬ Fits s.queue.msgs s.queue.qbytes buf) :
    ∃ s', sendTurn i MsgType buf s = .ok (.inl s') ∧ Sending s₀ i MsgType buf s' ∧
      (TypedQueue.others (s₀.procs i).FMsgType s.queue.msgs = s.queue.msgs ∨
        s'.queue.msgs.length < s.queue.msgs.length) := by
  have hok : ¬ (MsgType < 1 ∨ s.queue.msgmax < buf.length) := by simp [h.type, h.size]
  obtain ⟨s', hrcv, hprocs, hqueue⟩ := receive_id h.FMsgQID
  refine ⟨s', ?_, ?_⟩
  · simp only [sendTurn, TYQMsgQueue.send, Queue.msgsnd, if_pos h.FMsgQID, if_neg hok, if_neg hfull, hrcv]
  · rw [h.FMsgType] at hqueue
    rcases hqueue with ⟨hnone, hq⟩ | ⟨m, hsome⟩
    · refine ⟨⟨?_, ?_, h.type, ?_, ?_, ?_⟩, .inl (others_of_msgrcv hnone)⟩
      · rw [hprocs]; exact h.FMsgQID
      · rw [hprocs]; exact h.FMsgType
      · rw [hq]; exact h.size
      · rw [hq]; exact h.qbytes
      · rw [hq]; exact h.others
    · obtain ⟨hothers, hlt, hqbytes, hmax⟩ := msgrcv_others hsome
      refine ⟨⟨?_, ?_, h.type, ?_, ?_, ?_⟩, .inr hlt⟩
      · rw [hprocs]; exact h.FMsgQID
      · rw [hprocs]; exact h.FMsgType
      · rw [hmax]; exact h.size
      · rw [hqbytes]; exact h.qbytes
      · rw [hothers]; exact h.others

end

section
variable {MsgType : Int} {buf : Bytes} (hid : (s.procs i).FMsgQID ≠ -1) (htype : 1 ≤ MsgType)
  (hsize : buf.length ≤ s.queue.msgmax)
include hid htype hsize

theorem returns_of_fits (hfits : Fits (others (s.procs i).FMsgType s.queue.msgs) s.queue.qbytes buf) :
    s.Returns i MsgType buf := by
  have hturn : ∀ s₁, Sending s i MsgType buf s₁ →
      (∃ s₂, sendTurn i MsgType buf s₁ = .ok (.inl s₂) ∧ Sending s i MsgType buf s₂ ∧
        s₂.queue.msgs.length < s₁.queue.msgs.length) ∨
      ∃ s₂, sendTurn i MsgType buf s₁ = .ok (.inr s₂) ∧ ∃ left, s₂.queue.msgs = left ++ [(MsgType, buf)] ∧
        others (s.procs i).FMsgType left = others (s.procs i).FMsgType s.queue.msgs := by
    intro s₁ h₁
    by_cases hroom : Fits s₁.queue.msgs s₁.queue.qbytes buf
    · obtain ⟨s₂, hsent, hmsgs⟩ := h₁.sent hroom
      exact .inr ⟨s₂, hsent, _, hmsgs, h₁.others⟩
    · obtain ⟨s₂, hnext, h₂, hothers | hlt⟩ := h₁.full hroom
      · rw [← hothers, h₁.others, h₁.qbytes] at hroom
        exact absurd hfits hroom
      · exact .inl ⟨s₂, hnext, h₂, hlt⟩
  have hstart : Sending s i MsgType buf s := ⟨hid, rfl, htype, hsize, rfl, rfl⟩
  obtain ⟨s', hends, left, hmsgs, hothers⟩ :=
    Loop.ends_of_measure (fun s₁ : Post => s₁.queue.msgs.length) hturn hstart
  exact ⟨s', left, hends, hmsgs, hothers⟩

theorem diverges_of_not_fits (hfull : ¬ Fits (others (s.procs i).FMsgType s.queue.msgs) s.queue.qbytes buf) :
    Loop.Diverges (sendTurn i MsgType buf) s := by
  refine Loop.diverges_of_inv (I := Sending s i MsgType buf) (fun s₁ h₁ => ?_) ⟨hid, rfl, htype, hsize, rfl, rfl⟩
  have hroom : ¬ Fits s₁.queue.msgs s₁.queue.qbytes buf := by
    intro hfits
    apply hfull
    rw [← h₁.others, ← h₁.qbytes]
    exact hfits.sublist List.filter_sublist
  obtain ⟨s₂, hnext, h₂, -⟩ := h₁.full hroom
  exact ⟨s₂, hnext, h₂⟩

end

/-- **Alone, `SendMsg` returns exactly when there is room for the message beside those that the process does not
take**, and otherwise it goes on for ever. -/
theorem sendMsg_returns_iff (s : Post) (i : Nat) (MsgType : Int) (buf : Bytes) (hid : (s.procs i).FMsgQID ≠ -1)
    (htype : 1 ≤ MsgType) (hsize : buf.length ≤ s.queue.msgmax) :
    (s.Returns i MsgType buf ↔ Fits (others (s.procs i).FMsgType s.queue.msgs) s.queue.qbytes buf) ∧
    (Loop.Diverges (sendTurn i MsgType buf) s ↔
      ¬ Fits (others (s.procs i).FMsgType s.queue.msgs) s.queue.qbytes buf) := by
  have hends := returns_of_fits hid htype hsize
  have hdiverges := diverges_of_not_fits hid htype hsize
  have hboth : s.Returns i MsgType buf → ¬ Loop.Diverges (sendTurn i MsgType buf) s := by
    rintro ⟨s', left, h, -⟩ hd
    exact hd.not_ends h
  refine ⟨⟨fun h => ?_, hends⟩, ⟨fun hd hfits => hboth (hends hfits) hd, hdiverges⟩⟩
  apply Classical.byContradiction
  exact fun hfull => hboth h (hdiverges hfull)

-- the queue of a process of type 1 is full of what it has sent to another
def clogged : Post := ⟨⟨[(2, List.replicate 64 0)], 100, 8192⟩, 100, fun _ => ⟨0, 1, []⟩, [], []⟩

theorem sendMsg_returns_iff_clogged :
    (clogged.Returns 0 3 (List.replicate 60 0) ↔
      Fits (others (clogged.procs 0).FMsgType clogged.queue.msgs) clogged.queue.qbytes (List.replicate 60 0)) ∧
    (Loop.Diverges (sendTurn 0 3 (List.replicate 60 0)) clogged ↔
      ¬ Fits (others (clogged.procs 0).FMsgType clogged.queue.msgs) clogged.queue.qbytes (List.replicate 60 0)) :=
  sendMsg_returns_iff clogged 0 3 (List.replicate 60 0) (by decide) (by decide) (by decide)

end

end Post

end Afn
