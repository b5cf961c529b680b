import Afn.Outcome
import Afn.StreamSound

/-!
# Frames after bytes that are none

A block that is dropped is as long as its length field says, whatever it holds: after bytes that are no frame the
frames that follow are found exactly when the blocks cut off those bytes end where the first frame begins. They are
handed on until one of them is the first or last frame of a message of several frames, which faults.
-/

namespace Afn

open Bytes Access Effect AFNPackage AFNPackageBuilder ConnectionPower

namespace EventConnection

/-! ## Frames after bytes that are none -/

-- a frame that the parser accepts by itself
structure ValidFrame (mem : AFNPackage) where
  bytes : Bytes
  pkg : AFNPackage
  long : 12 ≤ lenAt bytes
  accepted : ((AFNPackage.construct mem).parseProto bytes).out = .ok (YQER_OK, bytes.length, pkg)

/-- By the length fields in it, `g` consists of whole blocks. -/
inductive Cut : Bytes → Prop
  | nil : Cut []
  | block {g : Bytes} : lenAt g + 8 ≤ g.length → Cut (g.drop (lenAt g + 8)) → Cut g

def wireLength : List AFNPackage → Nat
  | [] => 0
  | p :: ps => p.getFrameL + wireLength ps

theorem wireLength_sublist {ps qs : List AFNPackage} (h : ps.Sublist qs) : wireLength ps ≤ wireLength qs := by
  induction h with
  | slnil => exact Nat.le_refl _
  | cons q _ ih => exact Nat.le_trans ih (Nat.le_add_left _ _)
  | cons_cons q _ ih => exact Nat.add_le_add_left ih _

theorem getFrameL_frameOf (w : Bytes) : (frameOf w).getFrameL = lenAt w + 8 := by
  have h : (frameOf w).pkgHeader.LEN = lenAt w := len_ofBytes w
  simp only [getFrameL, h, PKG_HEADLEN, PKG_TAILLEN]
  omega

theorem wireLength_frames (w : Bytes) : wireLength (frames (Chunk.run blockAt w).1) ≤ w.length := by
  refine Chunk.run_induction stable_blockAt (P := fun w => wireLength (frames (Chunk.run blockAt w).1) ≤ w.length)
    ?_ ?_ w
  · intro w hn
    rw [Chunk.run_none hn]
    exact Nat.zero_le _
  · intro w n b hn ih
    obtain ⟨-, hle, rfl⟩ := blockAt_some hn
    rw [List.length_drop] at ih
    rw [Chunk.run_some stable_blockAt hn]
    obtain ⟨rfl, -⟩ | ⟨rfl, -⟩ | ⟨rfl, -⟩ := blockAt_kind hn
    · simp only [frames]
      omega
    · have hsize := getFrameL_frameOf w
      simp only [frames, wireLength] at ih ⊢
      omega
    · simp only [frames]
      omega

section
variable {mem : AFNPackage}

namespace ValidFrame

theorem checked (f : ValidFrame mem) :
    Checked f.bytes ∧ f.bytes.length = lenAt f.bytes + 8 ∧ f.pkg = frameOf f.bytes :=
  parse_ok_inv f.long f.accepted

theorem getFrameL_pkg (f : ValidFrame mem) : f.pkg.getFrameL = f.bytes.length := by
  obtain ⟨-, hlen, hpkg⟩ := f.checked
  rw [hpkg, getFrameL_frameOf, hlen]

theorem blockAt_bytes (f : ValidFrame mem) : blockAt f.bytes = some (f.bytes.length, .frame f.pkg) := by
  obtain ⟨hc, hlen, hpkg⟩ := f.checked
  have h14 := hc.whole.1
  have hle := hc.whole.le_length
  have h12 : ¬ lenAt f.bytes < 12 := Nat.not_lt.mpr f.long
  simp only [blockAt, h14, hc.marked, hc.summed, h12, Nat.le_refl, and_self, if_true, if_false, hpkg, ← hlen]

end ValidFrame

variable (fs : List (ValidFrame mem))

theorem run_frames : Chunk.run blockAt (fs.map ValidFrame.bytes).flatten =
    (fs.map fun f => .frame f.pkg, []) := by
  induction fs with
  | nil => rfl
  | cons f fs ih =>
    have hn := stable_blockAt.append (fs.map ValidFrame.bytes).flatten f.blockAt_bytes
    rw [List.map_cons, List.flatten_cons, Chunk.run_some stable_blockAt hn, List.drop_left, ih]
    rfl

theorem wireLength_pkgs : wireLength (fs.map ValidFrame.pkg) = (fs.map ValidFrame.bytes).flatten.length := by
  induction fs with
  | nil => rfl
  | cons f fs ih =>
    rw [List.map_cons, wireLength, ih, f.getFrameL_pkg, List.map_cons, List.flatten_cons, List.length_append]

theorem length_frames (hne : fs ≠ []) : 20 ≤ (fs.map ValidFrame.bytes).flatten.length := by
  cases fs with
  | nil => exact absurd rfl hne
  | cons f fs =>
    have hlen := f.checked.2.1
    have hlong := f.long
    rw [List.map_cons, List.flatten_cons, List.length_append]
    omega

end

section
variable {g t : Bytes}

theorem dropped_of_unmarked {n : Nat} {b : Block} (hg : 0x68 ∉ g) (hne : g ≠ [])
    (hn : blockAt (g ++ t) = some (n, b)) : b = .dropped := by
  have hbyte : byteAt (g ++ t) 0 ≠ 0x68 := by
    cases g with
    | nil => exact absurd rfl hne
    | cons x g =>
      intro h
      have hx : x = 0x68 := h
      exact hg (hx ▸ List.mem_cons_self ..)
  obtain ⟨-, hc, -⟩ | ⟨-, hc, -⟩ | ⟨hb, -⟩ := blockAt_kind hn
  · exact absurd hc.1.1 hbyte
  · exact absurd hc.1.1 hbyte
  · exact hb

theorem run_cut (h : Cut g) (hg : 0x68 ∉ g) (ht : 14 ≤ t.length) :
    ∃ k, Chunk.run blockAt (g ++ t) =
      (List.replicate k .dropped ++ (Chunk.run blockAt t).1, (Chunk.run blockAt t).2) := by
  induction h with
  | nil => exact ⟨0, rfl⟩
  | @block g hle hrest ih =>
    have hne : g ≠ [] := List.length_pos_iff.mp (by omega)
    have hlen : lenAt (g ++ t) = lenAt g := lenAt_append (by omega) t
    have hn : ∃ b, blockAt (g ++ t) = some (lenAt g + 8, b) := by
      refine ⟨_, if_pos ⟨?_, ?_⟩ |>.trans (by rw [hlen])⟩
      · rw [List.length_append]; omega
      · rw [List.length_append]; omega
    obtain ⟨b, hn⟩ := hn
    obtain rfl := dropped_of_unmarked hg hne hn
    obtain ⟨k, hk⟩ := ih fun hmem => hg (List.mem_of_mem_drop hmem)
    refine ⟨k + 1, ?_⟩
    rw [Chunk.run_some stable_blockAt hn, List.drop_append_of_le_length hle, hk]
    rfl

/-- When the frames of `t` are found after `g`, no block has taken bytes of `t` together with bytes of
`g`. -/
theorem cut_of_found {ps : List AFNPackage} (hsize : t.length ≤ wireLength ps) (hpos : 0 < t.length) :
    ∀ {g : Bytes}, 0x68 ∉ g → ps.Sublist (frames (Chunk.run blockAt (g ++ t)).1) → Cut g := by
  have hlen : ∀ (k : Nat) (g : Bytes), g.length ≤ k → 0x68 ∉ g →
      ps.Sublist (frames (Chunk.run blockAt (g ++ t)).1) → Cut g := by
    intro k
    induction k with
    | zero =>
      intro g hk _ _
      rw [List.eq_nil_of_length_eq_zero (Nat.le_zero.mp hk)]
      exact .nil
    | succ k ih =>
      intro g hk hg hsub
      by_cases hne : g = []
      · subst hne
        exact .nil
      · have hwire := wireLength_sublist hsub
        cases hn : blockAt (g ++ t) with
        | none =>
          rw [Chunk.run_none hn] at hwire
          have hzero : wireLength ps ≤ 0 := hwire
          omega
        | some r =>
          obtain ⟨n, b⟩ := r
          obtain rfl := dropped_of_unmarked hg hne hn
          rw [Chunk.run_some stable_blockAt hn] at hsub hwire
          have hn' := (blockAt_some hn).2.2
          by_cases hle : n ≤ g.length
          · have h8 : lenAt (g ++ t) = lenAt g := lenAt_append (by omega) t
            rw [List.drop_append_of_le_length hle] at hsub
            have hpos' := List.length_pos_iff.mpr hne
            have hdrop : (g.drop n).length = g.length - n := List.length_drop
            have hcut := ih (g.drop n) (by omega) (fun hmem => hg (List.mem_of_mem_drop hmem)) hsub
            rw [hn', h8] at hle hcut
            exact .block hle hcut
          · have hrest := wireLength_frames ((g ++ t).drop n)
            rw [List.length_drop, List.length_append] at hrest
            have hwire' : wireLength ps ≤ wireLength (frames (Chunk.run blockAt ((g ++ t).drop n)).1) := hwire
            omega
  exact fun {g} hg hsub => hlen g.length g (Nat.le_refl _) hg hsub

end

end EventConnection

/-! ## What is handed on -/

theorem steady_liftAcc {α : Type} (x : Acc α) : Steady World.received (liftAcc x) := by
  intro w
  unfold last liftAcc
  cases x.out <;> rfl

theorem steady_delete (p : PkgPtr) : Steady World.received (delete p) := by
  intro w
  unfold last delete
  cases w.heap.free p.addr <;> rfl

theorem steady_clearPkgList : ∀ lst : List PkgPtr, Steady World.received (clearPkgList lst) := by
  intro lst
  induction lst with
  | nil => exact steady_pure _
  | cons p lst ih => exact (steady_delete p).bind fun _ => ih

theorem steady_sendPkg (p : PkgPtr) : Steady World.received (sendPkg p) := by
  refine (steady_liftAcc _).bind fun _ => ?_
  refine steady_ite ?_ (steady_pure _)
  exact Steady.bind (fun _ => rfl) fun _ => steady_pure _

theorem steady_sendPkgs : ∀ (pkgLst : List PkgPtr) (ret : Int), Steady World.received (sendPkgs pkgLst ret) := by
  intro pkgLst
  induction pkgLst with
  | nil => exact fun ret => steady_pure ret
  | cons p pkgLst ih => exact fun ret => (steady_sendPkg p).bind fun _ => ih _

theorem steady_createAck (p : PkgPtr) (data : Option PkgAfnData) : Steady World.received (createAck p data) := by
  intro w
  obtain ⟨ack, w', hack⟩ : ∃ ack w', Ends (createAck p data) w ack w' := ⟨_, _, ends_createAck w p.pkg p.addr rfl⟩
  obtain ⟨-, rfl⟩ := (ends_createAck w p.pkg p.addr rfl).inj hack
  rw [last_of_ends hack]

theorem steady_handleRequest (reqLst ackLst : List PkgPtr) :
    Steady World.received (AFN02.handleRequest reqLst ackLst) := by
  cases reqLst with
  | nil => exact steady_pure _
  | cons p reqLst =>
    refine steady_ite ?_ (steady_pure _)
    refine Steady.bind (fun _ => rfl) fun _ => ?_
    refine steady_ite (steady_pure _) ?_
    exact (steady_liftAcc _).bind fun _ => (steady_createAck p _).bind fun _ => steady_pure _

theorem steady_handleList (reqLst : List PkgPtr) : Steady World.received (handleList reqLst) := by
  refine Steady.bind ?_ fun _ => ?_
  · refine Steady.bind (fun _ => rfl) fun _ => ?_
    cases reqLst with
    | nil => exact steady_pure _
    | cons p rest =>
      refine steady_ite ?_ (steady_pure _)
      simp only [PackageBuilder.doHandleRequest, AFNPackageBuilder.Instance, handlerMap_eq]
      refine steady_ite (steady_handleRequest _ _) ?_
      exact (steady_createAck p none).bind fun _ => steady_pure _
  · refine steady_ite ?_ (steady_pure _)
    exact (steady_sendPkgs _ _).bind fun _ => (steady_clearPkgList _).bind fun _ => steady_pure _

theorem received_receive (con : ConnectionPower) (pkg : AFNPackage) (w : World) :
    (last (con.receive pkg) w).received = w.received ++ [⟨w.heap.next, pkg⟩] := by
  have hlog : ∀ (x : Srv (ConnectionPower × Int)), Steady World.received x →
      (last x (arrived w pkg)).received = w.received ++ [⟨w.heap.next, pkg⟩] := fun x hx => hx _
  refine hlog _ (steady_ite ?_ (steady_ite ?_ (steady_ite ?_ (steady_pure _))))
  · exact (steady_handleList _).bind fun _ => (steady_delete _).bind fun _ => steady_pure _
  · refine (steady_clearPkgList _).bind fun lst => (steady_handleList _).bind fun _ => ?_
    exact (steady_clearPkgList _).bind fun _ => (steady_delete _).bind fun _ => steady_pure _
  · refine steady_ite (steady_pure _) ((steady_handleList _).bind fun _ => ?_)
    exact (steady_clearPkgList _).bind fun _ => (steady_delete _).bind fun _ => steady_pure _

/-- What the loop hands on of the blocks: their frames, until `handlePackage` or the parser faults. -/
def handing : List Block → List AFNPackage
  | [] => []
  | .frame p :: bs => p :: if WholeFrame p then handing bs else []
  | .dropped :: bs => handing bs
  | .fault :: _ => []

theorem handing_sublist (bs : List Block) : (handing bs).Sublist (frames bs) := by
  induction bs with
  | nil => exact List.Sublist.refl _
  | cons b bs ih =>
    cases b with
    | frame p =>
      refine List.Sublist.cons_cons p ?_
      split
      · exact ih
      · exact List.nil_sublist _
    | dropped => exact ih
    | fault => exact List.nil_sublist _

theorem handing_replicate (k : Nat) (bs : List Block) : handing (List.replicate k .dropped ++ bs) = handing bs := by
  induction k with
  | zero => rfl
  | succ k ih => exact ih

namespace Session

/-- **The loop hands on the frames in their order until one of them, or the parser, faults.** -/
theorem received_parseLoop (buf : EventConnection) (parseBuffer : Bool) (w : Bytes) :
    ∀ (fuel : Nat) (con : ConnectionPower) (errCode : Int) (v : World), w.length < 2 ^ 31 → w.length < fuel →
      buf.Holds parseBuffer w → ∃ later, (last (parseLoop buf parseBuffer fuel con w errCode) v).received =
        v.received ++ later ∧ later.map PkgPtr.pkg = handing (Chunk.run blockAt w).1 := by
  refine Chunk.run_induction stable_blockAt (P := fun w => ∀ (fuel : Nat) (con : ConnectionPower) (errCode : Int)
    (v : World), w.length < 2 ^ 31 → w.length < fuel → buf.Holds parseBuffer w →
      ∃ later, (last (parseLoop buf parseBuffer fuel con w errCode) v).received = v.received ++ later ∧
        later.map PkgPtr.pkg = handing (Chunk.run blockAt w).1) ?_ ?_ w
  · intro w hn fuel con errCode v h31 hfuel hholds
    obtain ⟨fuel, rfl⟩ := Nat.exists_eq_succ_of_ne_zero (Nat.ne_zero_of_lt hfuel)
    rw [Chunk.run_none hn]
    refine ⟨[], ?_, rfl⟩
    rw [List.append_nil]
    by_cases hw : w = []
    · subst hw
      rfl
    · obtain ⟨q, hp⟩ := parse_of_none v.mem h31 hn
      obtain ⟨r, hr, -⟩ := ends_waiting fuel con errCode hholds hw hp.out
      rw [last_of_ends hr]
  · intro w n b hn ih fuel con errCode v h31 hfuel hholds
    obtain ⟨fuel, rfl⟩ := Nat.exists_eq_succ_of_ne_zero (Nat.ne_zero_of_lt hfuel)
    have hlt := length_drop_block hn
    have hw := ne_nil_of_block hn
    have hle := (stable_blockAt.pos hn).2
    have hrest : ∀ con errCode v, ∃ later,
        (last (parseLoop buf parseBuffer fuel con (w.drop n) errCode) v).received = v.received ++ later ∧
          later.map PkgPtr.pkg = handing (Chunk.run blockAt (w.drop n)).1 := fun con errCode v =>
      ih fuel con errCode v (Nat.lt_trans hlt h31) (Nat.lt_of_lt_of_le hlt (Nat.le_of_lt_succ hfuel)) (hholds.drop n)
    rw [Chunk.run_some stable_blockAt hn]
    cases b with
    | frame p =>
      have hp := (parse_of_frame v.mem h31 hn).out
      have hround := parseLoop_round buf parseBuffer fuel con errCode hw hle hp
      rw [if_pos rfl] at hround
      obtain ⟨d, hd⟩ : ∃ d, p.pAfn.pAfnData = some d := by
        obtain ⟨hb, -⟩ | ⟨hb, -⟩ | ⟨hb, -⟩ := blockAt_kind hn <;> cases hb
        exact ⟨_, rfl⟩
      have hrec := received_receive con p v
      rw [last_congr hround]
      rcases last_bind_cases (con.receive p) _ v with ⟨⟨con₁, c⟩, v₁, hends, hlast⟩ | ⟨hstops, hlast⟩
      · obtain ⟨later, hlater, hmap⟩ := hrest con₁ c v₁
        rw [last_of_ends hends] at hrec
        refine ⟨⟨v.heap.next, p⟩ :: later, ?_, ?_⟩
        · rw [hlast, last_bind_pure, hlater, hrec, List.append_assoc, List.singleton_append]
        · rw [handing, if_pos (whole_of_receive hends), List.map_cons, hmap]
      · refine ⟨[⟨v.heap.next, p⟩], by rw [hlast, hrec], ?_⟩
        have hbad : ¬ WholeFrame p := by
          intro hwhole
          obtain ⟨con', v', hends, -⟩ := con.ends_receive_whole v hd hwhole
          exact hstops _ _ hends
        rw [handing, if_neg hbad]
        rfl
    | dropped =>
      obtain ⟨c, q, hc₁, hc₂, hp⟩ := parse_of_dropped v.mem h31 hn
      have hround := parseLoop_round buf parseBuffer fuel con errCode hw hle hp.out
      rw [if_neg hc₁, if_neg hc₂] at hround
      obtain ⟨later, hlater, hmap⟩ := hrest con c v
      refine ⟨later, ?_, hmap⟩
      rw [last_congr hround, last_bind_pure, hlater]
    | fault =>
      obtain ⟨e, he⟩ := parse_of_fault v.mem h31 hn
      have hpos : 0 < w.length := List.length_pos_iff.mpr hw
      refine ⟨[], ?_, rfl⟩
      rw [List.append_nil]
      simp only [parseLoop, hpos, if_true]
      rw [last_bind (ends_get v)]
      rcases last_bind_cases (liftAcc ((AFNPackage.construct v.mem).parseProto w)) _ v with
        ⟨a, v₁, hends, -⟩ | ⟨-, hlast⟩
      · exact absurd hends (not_ends_liftAcc he)
      · rw [hlast, steady_liftAcc]

/-- Read in one piece after `g`, the frames are all given to `handlePackage`, in their order. -/
def HandsAll {mem : AFNPackage} (con : ConnectionPower) (v : World) (g : Bytes)
    (fs : List (EventConnection.ValidFrame mem)) : Prop :=
  ∃ later, (last (recBuf ⟨.construct, con⟩ (g ++ (fs.map EventConnection.ValidFrame.bytes).flatten)) v).received =
    v.received ++ later ∧ (fs.map EventConnection.ValidFrame.pkg).Sublist (later.map PkgPtr.pkg)

theorem received_recBuf (con : ConnectionPower) (v : World) {msg : Bytes} (h31 : msg.length < 2 ^ 31) :
    ∃ later, (last (recBuf ⟨.construct, con⟩ msg) v).received = v.received ++ later ∧
      later.map PkgPtr.pkg = handing (Chunk.run blockAt msg).1 := by
  obtain ⟨later, hlater, hmap⟩ := received_parseLoop .construct false msg (msg.length + 1) con YQER_OK v h31
    (Nat.lt_succ_self _) (fun h => nomatch h)
  refine ⟨later, ?_, hmap⟩
  have hstart : Ends (pure (EventConnection.construct, msg, false) : Srv (EventConnection × Bytes × Bool)) v
      (EventConnection.construct, msg, false) v := ends_pure _ _
  have hrec : last (recBuf ⟨.construct, con⟩ msg) v = last (recLoop ⟨.construct, con⟩ false msg) v :=
    (last_bind hstart).trans (last_bind_pure ..)
  rw [hrec, ← hlater]
  unfold recLoop
  rcases last_bind_cases (parseLoop .construct false (msg.length + 1) con msg YQER_OK) _ v with
    ⟨⟨r, con₁⟩, v₁, hends, hlast⟩ | ⟨-, hlast⟩
  · rw [hlast, last_of_ends hends]
    simp only
    split <;> rfl
  · rw [hlast]

section
variable {mem : AFNPackage} {fs : List (EventConnection.ValidFrame mem)}

theorem handing_map : (fs.map EventConnection.ValidFrame.pkg).Sublist
    (handing (fs.map fun f => .frame f.pkg)) ↔ ∀ f ∈ fs.dropLast, WholeFrame f.pkg := by
  induction fs with
  | nil => exact ⟨fun _ => List.forall_mem_nil _, fun _ => List.Sublist.refl _⟩
  | cons f fs ih =>
    rw [List.map_cons, List.map_cons, handing, List.cons_sublist_cons]
    cases fs with
    | nil => exact ⟨fun _ => List.forall_mem_nil _, fun _ => List.nil_sublist _⟩
    | cons f' fs =>
      rw [List.dropLast_cons_cons, List.forall_mem_cons]
      constructor
      · intro h
        split at h
        next hwhole => exact ⟨hwhole, ih.mp h⟩
        next => cases h
      · intro ⟨hwhole, hrest⟩
        rw [if_pos hwhole]
        exact ih.mpr hrest

variable {g : Bytes} (con : ConnectionPower) (v : World) (hg : 0x68 ∉ g) (hne : fs ≠ [])
  (h31 : (g ++ (fs.map EventConnection.ValidFrame.bytes).flatten).length < 2 ^ 31)
include hg hne

theorem handing_cut (h : EventConnection.Cut g) :
    handing (Chunk.run blockAt (g ++ (fs.map EventConnection.ValidFrame.bytes).flatten)).1 =
      handing (fs.map fun f => .frame f.pkg) := by
  have hlength := EventConnection.length_frames fs hne
  obtain ⟨k, hrun⟩ := EventConnection.run_cut (t := (fs.map EventConnection.ValidFrame.bytes).flatten) h hg (by omega)
  rw [EventConnection.run_frames] at hrun
  rw [hrun]
  exact handing_replicate k _

include h31

theorem HandsAll.cut (h : HandsAll con v g fs) : EventConnection.Cut g := by
  obtain ⟨later, hlater, hsub⟩ := h
  obtain ⟨later', hlater', hmap⟩ := received_recBuf con v h31
  rw [hlater] at hlater'
  cases List.append_cancel_left hlater'
  have hlength := EventConnection.length_frames fs hne
  rw [hmap] at hsub
  exact EventConnection.cut_of_found (Nat.le_of_eq (EventConnection.wireLength_pkgs fs).symm) (by omega) hg
    (hsub.trans (handing_sublist _))

end

/-- **After bytes without a start marker the frames that follow are all handed on exactly when the length fields
among those bytes cut them into whole blocks, and no frame but the last is the first or last one of a message of
several frames.** -/
theorem handsAll_iff {mem : AFNPackage} (con : ConnectionPower) (v : World) (g : Bytes)
    (fs : List (EventConnection.ValidFrame mem)) (hg : 0x68 ∉ g) (hne : fs ≠ [])
    (h31 : (g ++ (fs.map EventConnection.ValidFrame.bytes).flatten).length < 2 ^ 31) :
    HandsAll con v g fs ↔ EventConnection.Cut g ∧ ∀ f ∈ fs.dropLast, WholeFrame f.pkg := by
  obtain ⟨later, hlater, hmap⟩ := received_recBuf con v h31
  constructor
  · intro h
    have hcut := h.cut con v hg hne h31
    refine ⟨hcut, handing_map.mp ?_⟩
    obtain ⟨later', hlater', hsub⟩ := h
    rw [hlater] at hlater'
    cases List.append_cancel_left hlater'
    rw [hmap, handing_cut hg hne hcut] at hsub
    exact hsub
  · intro ⟨hcut, hwhole⟩
    refine ⟨later, hlater, ?_⟩
    rw [hmap, handing_cut hg hne hcut]
    exact handing_map.mpr hwhole

def loginFrame : EventConnection.ValidFrame zeros := ⟨login, frameOf login, by decide, rfl⟩

theorem handsAll_iff_zeros :
    HandsAll ⟨(0, 0), []⟩ start (List.replicate 8 0) [loginFrame, loginFrame] ↔
      EventConnection.Cut (List.replicate 8 0) ∧ ∀ f ∈ [loginFrame, loginFrame].dropLast, WholeFrame f.pkg :=
  handsAll_iff ⟨(0, 0), []⟩ start _ [loginFrame, loginFrame] (by decide) (by simp) (by decide)

/-- One zero before the login moves the length field, and the login is kept instead of handed on. -/
theorem shiftedLogin_lost : ¬ HandsAll ⟨(0, 0), []⟩ start [0] [loginFrame] := by
  intro h
  have hcut := h.cut _ _ (by decide) (by simp) (by decide)
  cases hcut with
  | block hle => exact absurd hle (by decide)

end Session

end Afn
