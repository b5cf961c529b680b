import Afn.FaultSound
import Afn.RecBufSound
import Afn.Session

/-!
# Conversations

On framed reads a power connection does what it does with the frames of the stream, one after the other. So it
answers the requests that ask for it, in their order, until a message of several frames begins or ends.
-/

namespace Afn

open Bytes Access Effect AFNPackage AFNPackageBuilder ConnectionPower

/-! ## Frames -/

def ConnectionPower.receiveAll : ConnectionPower → List AFNPackage → Srv ConnectionPower
  | con, [] => pure con
  | con, pkg :: pkgs => do
    let (con, _) ← con.receive pkg
    con.receiveAll pkgs

/-- The replies to the frames: one for each that asks for it, in the order of the frames. -/
inductive Replies : List AFNPackage → List Bytes → Prop
  | nil : Replies [] []
  | asked {p : AFNPackage} {ps : List AFNPackage} {bs : Bytes} {bss : List Bytes} :
      Asked p → Confirms p bs → Replies ps bss → Replies (p :: ps) (bs :: bss)
  | silent {p : AFNPackage} {ps : List AFNPackage} {bss : List Bytes} :
      ¬ Asked p → Replies ps bss → Replies (p :: ps) bss

theorem unit_of_frames {w : Bytes} : ∀ p ∈ frames (Chunk.run blockAt w).1, ∃ d, p.pAfn.pAfnData = some d := by
  refine Chunk.run_induction stable_blockAt
    (P := fun w => ∀ p ∈ frames (Chunk.run blockAt w).1, ∃ d, p.pAfn.pAfnData = some d) ?_ ?_ w
  · intro w hn
    rw [Chunk.run_none hn]
    exact List.forall_mem_nil _
  · intro w n b hn ih
    rw [Chunk.run_some stable_blockAt hn]
    rcases blockAt_kind hn with ⟨rfl, -⟩ | ⟨rfl, -⟩ | ⟨rfl, -⟩
    · exact ih
    · exact List.forall_mem_cons.mpr ⟨⟨_, rfl⟩, ih⟩
    · exact ih

theorem ends_receiveAll : ∀ {ps : List AFNPackage} (con : ConnectionPower) (w : World),
    (∀ p ∈ ps, ∃ d, p.pAfn.pAfnData = some d) → (∀ p ∈ ps, WholeFrame p) →
    ∃ con' w' bss, Ends (con.receiveAll ps) w con' w' ∧ w'.sent = w.sent ++ bss ∧ Replies ps bss := by
  intro ps
  induction ps with
  | nil => exact fun con w _ _ => ⟨con, w, [], ends_pure _ _, (List.append_nil _).symm, .nil⟩
  | cons p ps ih =>
    intro con w hunit hwhole
    obtain ⟨⟨d, hd⟩, hunit⟩ := List.forall_mem_cons.mp hunit
    obtain ⟨hp, hwhole⟩ := List.forall_mem_cons.mp hwhole
    obtain ⟨con₁, w₁, hrec, htook⟩ := con.ends_receive_whole w hd hp
    obtain ⟨con', w', bss, hall, hsent, hreplies⟩ := ih con₁ w₁ hunit hwhole
    by_cases ha : Asked p
    · obtain ⟨bs, hbs, hconf⟩ := htook.asked ha
      refine ⟨con', w', bs :: bss, hrec.bind hall, ?_, .asked ha hconf hreplies⟩
      rw [hsent, hbs, List.append_assoc, List.singleton_append]
    · refine ⟨con', w', bss, hrec.bind hall, ?_, .silent ha hreplies⟩
      rw [hsent, htook.silent ha]

theorem whole_of_receiveAll : ∀ {ps : List AFNPackage} {con con' : ConnectionPower} {w w' : World},
    Ends (con.receiveAll ps) w con' w' → ∀ p ∈ ps, WholeFrame p := by
  intro ps
  induction ps with
  | nil => exact fun _ => List.forall_mem_nil _
  | cons p ps ih =>
    intro con con' w w' h
    obtain ⟨⟨con₁, ret⟩, w₁, hrec, hall⟩ := h.of_bind
    exact List.forall_mem_cons.mpr ⟨whole_of_receive hrec, ih hall⟩

theorem not_ends_liftAcc {α : Type} {x : Acc α} {e : Fault} (h : x.out = .error e) {a : α} {w w' : World} :
    ¬ Ends (liftAcc x) w a w' := fun he => nomatch h.symm.trans (liftAcc_inv he).1

/-! ## The loop -/

namespace Session

section
variable (buf : EventConnection) (parseBuffer : Bool) (fuel : Nat) (con : ConnectionPower) (errCode : Int)
  {w : Bytes} {v : World}

theorem parseLoop_round {n : Nat} {c : Int} {p : AFNPackage} (hw : w ≠ []) (hn : n ≤ w.length)
    (hp : ((AFNPackage.construct v.mem).parseProto w).out = .ok (c, n, p)) :
    parseLoop buf parseBuffer (fuel + 1) con w errCode v =
      (if c = YQER_OK then do
        let (con, errCode) ← con.receive p
        let (r, con) ← parseLoop buf parseBuffer fuel con (w.drop n) errCode
        return ({ r with calls := ⟨w, c, n, p⟩ :: r.calls }, con)
      else if c = YQER_PKG_Err 1 then do
        let buf ← liftAcc (buf.keep parseBuffer (w.drop n))
        return (⟨buf, true, [⟨w, c, n, p⟩], c⟩, con)
      else do
        let (r, con) ← parseLoop buf parseBuffer fuel con (w.drop n) c
        return ({ r with calls := ⟨w, c, n, p⟩ :: r.calls }, con) : Srv (Parsed × ConnectionPower)) v := by
  have hpos : 0 < w.length := List.length_pos_iff.mpr hw
  have hsub : (sub32 w.length n).out = .ok (w.length - n) := (yields_sub32 (P := fun _ => True) hn trivial).out
  simp only [parseLoop, hpos, if_true]
  rw [bind_eq (ends_get v), bind_eq (ends_liftAcc hp v), bind_eq (ends_liftAcc hsub v), slice_rest]

variable {buf parseBuffer}

theorem ends_waiting (hholds : buf.Holds parseBuffer w) (hw : w ≠ []) {q : AFNPackage}
    (hp : ((AFNPackage.construct v.mem).parseProto w).out = .ok (YQER_PKG_Err 1, 0, q)) :
    ∃ r, Ends (parseLoop buf parseBuffer (fuel + 1) con w errCode) v (r, con) v ∧ buf.Leaves w r w := by
  obtain ⟨b, hkeep, hb⟩ := EventConnection.yields_keep hholds
  refine ⟨⟨⟨some b, w.length⟩, true, [⟨w, YQER_PKG_Err 1, 0, q⟩], YQER_PKG_Err 1⟩, ?_, .wait hw hp, ?_, ?_⟩
  · unfold Ends
    rw [parseLoop_round buf parseBuffer fuel con errCode hw (Nat.zero_le _) hp, if_neg (by decide), if_pos rfl,
      List.drop_zero, bind_eq (ends_liftAcc hkeep.out v)]
    rfl
  · exact fun hnil => absurd hnil hw
  · exact fun _ => ⟨rfl, b, rfl, hb⟩

end

/-- The loop ends exactly when its frames are received without a fault and none faults the parser. -/
structure Handles (buf : EventConnection) (parseBuffer : Bool) (w : Bytes) (fuel : Nat) (con : ConnectionPower)
    (errCode : Int) (v : World) (con' : ConnectionPower) (v' : World) : Prop where
  ends : Block.fault ∉ (Chunk.run blockAt w).1 → Ends (con.receiveAll (frames (Chunk.run blockAt w).1)) v con' v' →
    ∃ r, Ends (parseLoop buf parseBuffer fuel con w errCode) v (r, con') v'
  ended : ∀ r, Ends (parseLoop buf parseBuffer fuel con w errCode) v (r, con') v' →
    Block.fault ∉ (Chunk.run blockAt w).1 ∧ Ends (con.receiveAll (frames (Chunk.run blockAt w).1)) v con' v' ∧
      buf.Leaves w r (Chunk.run blockAt w).2

section
variable {buf : EventConnection} {parseBuffer : Bool} {w : Bytes} (h31 : w.length < 2 ^ 31) {fuel : Nat}
  {con con' : ConnectionPower} {errCode : Int} {v v' : World}
include h31

theorem handles_wait (hholds : buf.Holds parseBuffer w) (hn : blockAt w = none) :
    Handles buf parseBuffer w (fuel + 1) con errCode v con' v' := by
  have hleft : ∃ r, Ends (parseLoop buf parseBuffer (fuel + 1) con w errCode) v (r, con) v ∧ buf.Leaves w r w := by
    by_cases hw : w = []
    · subst hw
      exact ⟨_, rfl, .done, fun _ => ⟨rfl, rfl⟩, fun hne => absurd rfl hne⟩
    · obtain ⟨q, hp⟩ := parse_of_none v.mem h31 hn
      exact ends_waiting fuel con errCode hholds hw hp.out
  obtain ⟨r, hr, hl⟩ := hleft
  have hrun := Chunk.run_none hn
  constructor
  · intro _ h
    rw [hrun] at h
    cases h
    exact ⟨r, hr⟩
  · intro r' h
    obtain ⟨heq, rfl⟩ := hr.inj h
    cases heq
    rw [hrun]
    exact ⟨List.not_mem_nil, ends_pure _ _, hl⟩

theorem handles_frame {n : Nat} {p : AFNPackage} (hn : blockAt w = some (n, .frame p))
    (ih : ∀ con errCode v, Handles buf parseBuffer (w.drop n) fuel con errCode v con' v') :
    Handles buf parseBuffer w (fuel + 1) con errCode v con' v' := by
  have hp := (parse_of_frame v.mem h31 hn).out
  have hround := parseLoop_round buf parseBuffer fuel con errCode (ne_nil_of_block hn) (stable_blockAt.pos hn).2 hp
  rw [if_pos rfl] at hround
  have hrun := Chunk.run_some stable_blockAt hn
  constructor
  · intro hclean h
    rw [hrun, List.mem_cons, not_or] at hclean
    rw [hrun, frames] at h
    obtain ⟨⟨con₁, c⟩, v₁, hrec, hall⟩ := h.of_bind
    obtain ⟨r, hr⟩ := (ih con₁ c v₁).ends hclean.2 hall
    refine ⟨{ r with calls := ⟨w, YQER_OK, n, p⟩ :: r.calls }, ?_⟩
    unfold Ends
    rw [hround]
    exact hrec.bind (hr.bind (ends_pure _ _))
  · intro r h
    unfold Ends at h
    rw [hround] at h
    obtain ⟨⟨con₁, c⟩, v₁, hrec, h⟩ := Ends.of_bind h
    obtain ⟨⟨r₁, con₂⟩, v₂, hloop, h⟩ := h.of_bind
    cases h
    obtain ⟨hclean, hall, hl⟩ := (ih con₁ c v₁).ended r₁ hloop
    have hne : Block.fault ≠ .frame p := by simp
    rw [hrun]
    exact ⟨fun hm => (List.mem_cons.mp hm).elim hne hclean, hrec.bind hall,
      hl.next (ne_nil_of_block hn) hp (by decide)⟩

theorem handles_dropped {n : Nat} (hn : blockAt w = some (n, .dropped))
    (ih : ∀ con errCode v, Handles buf parseBuffer (w.drop n) fuel con errCode v con' v') :
    Handles buf parseBuffer w (fuel + 1) con errCode v con' v' := by
  obtain ⟨c, q, hc₁, hc₂, hp⟩ := parse_of_dropped v.mem h31 hn
  have hround := parseLoop_round buf parseBuffer fuel con errCode (ne_nil_of_block hn) (stable_blockAt.pos hn).2 hp.out
  rw [if_neg hc₁, if_neg hc₂] at hround
  have hrun := Chunk.run_some stable_blockAt hn
  obtain ⟨hends, hended⟩ := ih con c v
  constructor
  · intro hclean h
    rw [hrun, List.mem_cons, not_or] at hclean
    rw [hrun] at h
    obtain ⟨r, hr⟩ := hends hclean.2 h
    refine ⟨{ r with calls := ⟨w, c, n, q⟩ :: r.calls }, ?_⟩
    unfold Ends
    rw [hround]
    exact hr.bind (ends_pure _ _)
  · intro r h
    unfold Ends at h
    rw [hround] at h
    obtain ⟨⟨r₁, con₂⟩, v₂, hloop, h⟩ := Ends.of_bind h
    cases h
    obtain ⟨hclean, hall, hl⟩ := hended r₁ hloop
    rw [hrun]
    have hne : Block.fault ≠ .dropped := by simp
    exact ⟨fun hm => (List.mem_cons.mp hm).elim hne hclean, hall,
      hl.next (ne_nil_of_block hn) hp.out hc₂⟩

theorem handles_fault {n : Nat} (hn : blockAt w = some (n, .fault)) :
    Handles buf parseBuffer w (fuel + 1) con errCode v con' v' := by
  have hmem : Block.fault ∈ (Chunk.run blockAt w).1 := by
    rw [Chunk.run_some stable_blockAt hn]
    exact List.mem_cons_self ..
  constructor
  · exact fun hclean => absurd hmem hclean
  · intro r h
    obtain ⟨e, he⟩ := parse_of_fault v.mem h31 hn
    have hpos : 0 < w.length := List.length_pos_iff.mpr (ne_nil_of_block hn)
    simp only [parseLoop, hpos, if_true] at h
    obtain ⟨v₀, v₁, hget, h⟩ := h.of_bind
    cases hget
    obtain ⟨a, v₂, hparse, -⟩ := h.of_bind
    exact absurd hparse (not_ends_liftAcc he)

end

theorem handles (buf : EventConnection) (parseBuffer : Bool) (con' : ConnectionPower) (v' : World) (w : Bytes) :
    ∀ (fuel : Nat) (con : ConnectionPower) (errCode : Int) (v : World), w.length < 2 ^ 31 → w.length < fuel →
      buf.Holds parseBuffer w → Handles buf parseBuffer w fuel con errCode v con' v' := by
  refine Chunk.run_induction stable_blockAt (P := fun w => ∀ (fuel : Nat) (con : ConnectionPower) (errCode : Int)
    (v : World), w.length < 2 ^ 31 → w.length < fuel → buf.Holds parseBuffer w →
      Handles buf parseBuffer w fuel con errCode v con' v') ?_ ?_ w
  · intro w hn fuel con errCode v h31 hfuel hholds
    obtain ⟨fuel, rfl⟩ := Nat.exists_eq_succ_of_ne_zero (Nat.ne_zero_of_lt hfuel)
    exact handles_wait h31 hholds hn
  · intro w n b hn ih fuel con errCode v h31 hfuel hholds
    obtain ⟨fuel, rfl⟩ := Nat.exists_eq_succ_of_ne_zero (Nat.ne_zero_of_lt hfuel)
    have hlt := length_drop_block hn
    have hrest : ∀ con errCode v, Handles buf parseBuffer (w.drop n) fuel con errCode v con' v' := fun con errCode v =>
      ih fuel con errCode v (Nat.lt_trans hlt h31) (Nat.lt_of_lt_of_le hlt (Nat.le_of_lt_succ hfuel)) (hholds.drop n)
    cases b with
    | frame p => exact handles_frame h31 hn hrest
    | dropped => exact handles_dropped h31 hn hrest
    | fault => exact handles_fault h31 hn

/-! ## The working buffer -/

/-- `w` is the working buffer: the whole of `m_buffer`, or bytes just read while nothing is kept. -/
def Working (buf : EventConnection) (parseBuffer : Bool) (w : Bytes) : Prop :=
  if parseBuffer then ∃ b, buf.m_buffer = some b ∧ buf.m_buffer_size ≤ b.length ∧ w = b.take buf.m_buffer_size
  else buf = .construct

theorem Working.of_read (w : Bytes) : Working .construct false w := rfl

/-- `m_buffer` holds exactly `tail`, or there is none. -/
def Retains (buf : EventConnection) (tail : Bytes) : Prop :=
  if tail = [] then buf = .construct
  else ∃ b, buf.m_buffer = some b ∧ buf.m_buffer_size = tail.length ∧ b.take tail.length = tail

section
variable {buf : EventConnection} {parseBuffer : Bool} {w tail : Bytes}

theorem Working.holds (h : Working buf parseBuffer w) : buf.Holds parseBuffer w := by
  intro hb
  subst hb
  obtain ⟨b, hb, -, rfl⟩ := h
  exact ⟨b, hb, List.length_take_le' _ _⟩

theorem Retains.kept (h : Retains buf tail) : buf.kept = tail := by
  unfold Retains at h
  split at h
  next htail =>
    rw [h, htail]
    rfl
  next =>
    obtain ⟨b, hb, hsize, htake⟩ := h
    unfold EventConnection.kept
    rw [hb, hsize]
    exact htake

theorem retains_nil (h : Retains buf []) : buf = .construct := h

theorem Retains.isSome (h : Retains buf tail) (hne : tail ≠ []) : buf.m_buffer.isSome = true := by
  unfold Retains at h
  rw [if_neg hne] at h
  obtain ⟨b, hb, -⟩ := h
  rw [hb]
  rfl

variable {con con' : ConnectionPower} {v v' : World}

theorem ends_recLoop {r : Parsed} (hw : Working buf parseBuffer w)
    (h : Ends (parseLoop buf parseBuffer (w.length + 1) con w YQER_OK) v (r, con') v') (hl : buf.Leaves w r tail) :
    ∃ buf', Ends (recLoop ⟨buf, con⟩ parseBuffer w) v (⟨buf', con'⟩, r.calls) v' ∧ Retains buf' tail := by
  have hrec : recLoop ⟨buf, con⟩ parseBuffer w v =
      (if r.bufferedData = false ∧ r.con.m_buffer.isSome then pure (⟨⟨none, 0⟩, con'⟩, r.calls)
        else pure (⟨r.con, con'⟩, r.calls) : Srv (Session × List ParseCall)) v' := bind_eq h _
  unfold Ends Retains
  rw [hrec]
  by_cases htail : tail = []
  · obtain ⟨hcon, hbuf⟩ := hl.done htail
    rw [hcon, hbuf]
    refine ⟨.construct, ?_, by rw [if_pos htail]⟩
    cases hsome : buf.m_buffer.isSome with
    | true => rfl
    | false =>
      cases parseBuffer with
      | false =>
        have hfresh : buf = .construct := hw
        rw [hfresh]
        rfl
      | true =>
        obtain ⟨b, hb, -⟩ := hw
        rw [hb] at hsome
        cases hsome
  · obtain ⟨hbuf, b, hcon, hb⟩ := hl.waits htail
    rw [hbuf, hcon, if_neg (fun h => nomatch h.1)]
    exact ⟨_, rfl, by rw [if_neg htail]; exact ⟨b, rfl, rfl, hb⟩⟩

theorem ended_recLoop {s : Session} {calls : List ParseCall}
    (h : Ends (recLoop ⟨buf, con⟩ parseBuffer w) v (s, calls) v') :
    ∃ r, Ends (parseLoop buf parseBuffer (w.length + 1) con w YQER_OK) v (r, s.con) v' ∧ calls = r.calls := by
  obtain ⟨⟨r, con₁⟩, v₁, hr, h⟩ := h.of_bind
  refine ⟨r, ?_⟩
  simp only at h
  split at h
  · cases h
    exact ⟨hr, rfl⟩
  · cases h
    exact ⟨hr, rfl⟩

section
variable (h31 : w.length < 2 ^ 31) (hw : Working buf parseBuffer w)
include h31 hw

theorem ends_frames (hclean : Block.fault ∉ (Chunk.run blockAt w).1)
    (h : Ends (con.receiveAll (frames (Chunk.run blockAt w).1)) v con' v') :
    ∃ buf' calls, Ends (recLoop ⟨buf, con⟩ parseBuffer w) v (⟨buf', con'⟩, calls) v' ∧
      ParseCalls w calls (Chunk.run blockAt w).2 ∧ Retains buf' (Chunk.run blockAt w).2 := by
  have hloop := handles buf parseBuffer con' v' w (w.length + 1) con YQER_OK v h31 (Nat.lt_succ_self _) hw.holds
  obtain ⟨r, hr⟩ := hloop.ends hclean h
  obtain ⟨-, -, hl⟩ := hloop.ended r hr
  obtain ⟨buf', hrec, hret⟩ := ends_recLoop hw hr hl
  exact ⟨buf', r.calls, hrec, hl.calls, hret⟩

theorem ended_frames {s : Session} {calls : List ParseCall}
    (h : Ends (recLoop ⟨buf, con⟩ parseBuffer w) v (s, calls) v') :
    Block.fault ∉ (Chunk.run blockAt w).1 ∧ Ends (con.receiveAll (frames (Chunk.run blockAt w).1)) v s.con v' ∧
      ParseCalls w calls (Chunk.run blockAt w).2 ∧ Retains s.buf (Chunk.run blockAt w).2 := by
  obtain ⟨buf', con'⟩ := s
  obtain ⟨r, hr, -⟩ := ended_recLoop h
  obtain ⟨hclean, hall, hl⟩ := (handles buf parseBuffer con' v' w (w.length + 1) con YQER_OK v h31
    (Nat.lt_succ_self _) hw.holds).ended r hr
  obtain ⟨_, hrec, hret⟩ := ends_recLoop hw hr hl
  obtain ⟨heq, -⟩ := h.inj hrec
  cases heq
  exact ⟨hclean, hall, hl.calls, hret⟩

end

end

/-! ## Reads -/

section
variable {con con' : ConnectionPower} {v v' : World} {msg : Bytes} (h31 : msg.length < 2 ^ 31)
include h31

theorem ends_recBuf (hclean : Block.fault ∉ (Chunk.run blockAt msg).1)
    (h : Ends (con.receiveAll (frames (Chunk.run blockAt msg).1)) v con' v') :
    ∃ buf, Ends (recBuf ⟨.construct, con⟩ msg) v (⟨buf, con'⟩, frames (Chunk.run blockAt msg).1) v' ∧
      Retains buf (Chunk.run blockAt msg).2 := by
  obtain ⟨buf, calls, hrec, hcalls, hret⟩ := ends_frames h31 (Working.of_read msg) hclean h
  refine ⟨buf, ?_, hret⟩
  rw [← (hcalls.run h31).2.1]
  have hstart : Ends (pure (EventConnection.construct, msg, false) : Srv (EventConnection × Bytes × Bool)) v
      (EventConnection.construct, msg, false) v := ends_pure _ _
  exact hstart.bind (hrec.bind (ends_pure _ _))

theorem ended_recBuf {s : Session} {handed : List AFNPackage}
    (h : Ends (recBuf ⟨.construct, con⟩ msg) v (s, handed) v') :
    Block.fault ∉ (Chunk.run blockAt msg).1 ∧ Ends (con.receiveAll (frames (Chunk.run blockAt msg).1)) v s.con v' ∧
      Retains s.buf (Chunk.run blockAt msg).2 := by
  obtain ⟨⟨buf, data, parseBuffer⟩, v₁, hbuf, h⟩ := h.of_bind
  cases hbuf
  obtain ⟨⟨s', calls⟩, v₂, hrec, h⟩ := h.of_bind
  cases h
  obtain ⟨hclean, hall, -, hret⟩ := ended_frames h31 (Working.of_read msg) hrec
  exact ⟨hclean, hall, hret⟩

end

theorem not_ends_kept {self s : Session} {msg : Bytes} {handed : List AFNPackage} {v v' : World}
    (hsome : self.buf.m_buffer.isSome = true) (hmsg : msg ≠ []) :
    ¬ Ends (recBuf self msg) v (s, handed) v' := by
  intro h
  obtain ⟨b, hb⟩ := Option.isSome_iff_exists.mp hsome
  obtain ⟨e, he⟩ := EventConnection.append_faults self.buf msg hmsg
  unfold recBuf at h
  rw [hb] at h
  obtain ⟨buf, v₁, happ, -⟩ := h.of_bind
  exact not_ends_liftAcc he happ

theorem receiveAll_append {ps qs : List AFNPackage} {con con' : ConnectionPower} {v v' : World} :
    Ends (con.receiveAll (ps ++ qs)) v con' v' ↔
      ∃ con₁ v₁, Ends (con.receiveAll ps) v con₁ v₁ ∧ Ends (con₁.receiveAll qs) v₁ con' v' := by
  induction ps generalizing con v with
  | nil =>
    constructor
    · exact fun h => ⟨con, v, ends_pure _ _, h⟩
    · rintro ⟨con₁, v₁, h, h'⟩
      cases h
      exact h'
  | cons p ps ih =>
    constructor
    · intro h
      obtain ⟨⟨con₂, c⟩, v₂, hrec, h⟩ := h.of_bind
      obtain ⟨con₁, v₁, hps, hqs⟩ := ih.mp h
      exact ⟨con₁, v₁, hrec.bind hps, hqs⟩
    · rintro ⟨con₁, v₁, h, hqs⟩
      obtain ⟨⟨con₂, c⟩, v₂, hrec, hps⟩ := h.of_bind
      exact hrec.bind (ih.mpr ⟨con₁, v₁, hps, hqs⟩)

-- every read but the last ends with a block
def Cut (reads : List Bytes) : Prop := ∀ r ∈ reads.dropLast, EventConnection.Framed r

theorem Cut.cons {msg : Bytes} {msgs : List Bytes} (h : Cut (msg :: msgs)) :
    msgs = [] ∨ (Chunk.run blockAt msg).2 = [] ∧ Cut msgs := by
  cases msgs with
  | nil => exact .inl rfl
  | cons m ms =>
    have hdone := (EventConnection.framed_iff msg).mp (h msg (List.mem_cons_self ..))
    exact .inr ⟨hdone, fun r hr => h r (List.mem_cons_of_mem _ hr)⟩

theorem ends_recBufs : ∀ {reads : List Bytes}, (∀ r ∈ reads, r.length < 2 ^ 31) → Cut reads →
    Block.fault ∉ (Chunk.feed blockAt [] reads).1 → ∀ {con con' : ConnectionPower} {v v' : World},
    Ends (con.receiveAll (frames (Chunk.feed blockAt [] reads).1)) v con' v' →
    ∃ buf, Ends (recBufs ⟨.construct, con⟩ reads) v (⟨buf, con'⟩, frames (Chunk.feed blockAt [] reads).1) v' ∧
      buf.kept = (Chunk.feed blockAt [] reads).2 := by
  intro reads
  induction reads with
  | nil =>
    intro _ _ _ con con' v v' h
    cases h
    exact ⟨.construct, ends_pure _ _, rfl⟩
  | cons msg msgs ih =>
    intro hreads hcut hclean con con' v v' h
    rw [Chunk.feed, List.nil_append] at hclean h ⊢
    simp only [List.mem_append, not_or, frames_append] at hclean h ⊢
    obtain ⟨con₁, v₁, hnow, hlater⟩ := receiveAll_append.mp h
    obtain ⟨buf, hrec, hret⟩ := ends_recBuf (hreads msg (List.mem_cons_self ..)) hclean.1 hnow
    rcases hcut.cons with rfl | ⟨hrest, hcut'⟩
    · cases hlater
      exact ⟨buf, hrec.bind (ends_pure _ _), hret.kept⟩
    · rw [hrest] at hclean hlater hret ⊢
      obtain ⟨buf', hrecs, hkept⟩ := ih (fun r hr => hreads r (List.mem_cons_of_mem _ hr)) hcut' hclean.2 hlater
      rw [retains_nil hret] at hrec
      exact ⟨buf', hrec.bind (hrecs.bind (ends_pure _ _)), hkept⟩

theorem receiveAll_of_recBufs : ∀ {reads : List Bytes}, (∀ r ∈ reads, r.length < 2 ^ 31) → Cut reads →
    ∀ {con : ConnectionPower} {v v' : World} {s : Session} {handed : List AFNPackage},
    Ends (recBufs ⟨.construct, con⟩ reads) v (s, handed) v' →
    Ends (con.receiveAll (frames (Chunk.feed blockAt [] reads).1)) v s.con v' := by
  intro reads
  induction reads with
  | nil =>
    intro _ _ con v v' s handed h
    cases h
    exact ends_pure _ _
  | cons msg msgs ih =>
    intro hreads hcut con v v' s handed h
    rw [Chunk.feed, List.nil_append]
    simp only [frames_append]
    obtain ⟨⟨⟨buf₁, con₁⟩, now⟩, v₁, hrec, h⟩ := h.of_bind
    obtain ⟨⟨s₂, later⟩, v₂, hrecs, h⟩ := h.of_bind
    cases h
    obtain ⟨-, hnow, hret⟩ := ended_recBuf (hreads msg (List.mem_cons_self ..)) hrec
    refine receiveAll_append.mpr ⟨_, _, hnow, ?_⟩
    rcases hcut.cons with rfl | ⟨hrest, hcut'⟩
    · cases hrecs
      exact ends_pure _ _
    · rw [hrest] at hret ⊢
      simp only at hret
      rw [retains_nil hret] at hrecs
      exact ih (fun r hr => hreads r (List.mem_cons_of_mem _ hr)) hcut' hrecs

/-! ## Conversations -/

/-- The reads are handled without a fault: the frames of the stream are handled in order, the rest of the stream is
kept, and what is written are the replies to those frames that ask for one. -/
def Converses (con : ConnectionPower) (v : World) (reads : List Bytes) : Prop :=
  ∃ s v' bss, Ends (recBufs ⟨.construct, con⟩ reads) v (s, frames (Chunk.run blockAt reads.flatten).1) v' ∧
    s.buf.kept = (Chunk.run blockAt reads.flatten).2 ∧ v'.sent = v.sent ++ bss ∧
    Replies (frames (Chunk.run blockAt reads.flatten).1) bss

/-- **On reads cut at blocks, of which none faults the parser, a connection answers its requests in order exactly
when no frame is the first or last one of a message of several frames.** -/
theorem converses_iff (con : ConnectionPower) (v : World) (reads : List Bytes)
    (hreads : ∀ r ∈ reads, r.length ≤ BUF_SIZE - 1) (hcut : Cut reads)
    (hclean : Block.fault ∉ (Chunk.run blockAt reads.flatten).1) :
    Converses con v reads ↔ ∀ p ∈ frames (Chunk.run blockAt reads.flatten).1, WholeFrame p := by
  have h31 : ∀ r ∈ reads, r.length < 2 ^ 31 := fun r hr => Nat.lt_of_le_of_lt (hreads r hr) (by decide)
  have hfeed := Chunk.feed_eq_run stable_blockAt reads (Chunk.next_nil stable_blockAt)
  rw [List.nil_append] at hfeed
  constructor
  · rintro ⟨s, v', bss, h, -⟩
    have hall := receiveAll_of_recBufs h31 hcut h
    rw [hfeed] at hall
    exact whole_of_receiveAll hall
  · intro hwhole
    obtain ⟨con', v', bss, hall, hsent, hreplies⟩ := ends_receiveAll con v unit_of_frames hwhole
    rw [← hfeed] at hall hclean
    obtain ⟨buf, hrecs, hkept⟩ := ends_recBufs h31 hcut hclean hall
    rw [hfeed] at hrecs hkept
    exact ⟨_, v', bss, hrecs, hkept, hsent, hreplies⟩

-- three logins in two reads, and a third read that ends inside a frame
def threeReads : List Bytes := [login ++ login, login, login ++ [0x68, 0x32]]

theorem cut_threeReads : Cut threeReads := by
  refine List.forall_mem_cons.mpr ⟨?_, List.forall_mem_singleton.mpr ?_⟩
  · apply (EventConnection.framed_iff _).mpr
    decide
  · apply (EventConnection.framed_iff _).mpr
    decide

theorem converses_iff_login :
    Converses ⟨(0, 0), []⟩ start threeReads ↔
      ∀ p ∈ frames (Chunk.run blockAt threeReads.flatten).1, WholeFrame p :=
  converses_iff ⟨(0, 0), []⟩ start threeReads (by decide) cut_threeReads (by decide)

end Session

end Afn
