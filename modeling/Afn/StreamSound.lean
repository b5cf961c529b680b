import Afn.SessionSound

/-!
# Streams in pieces

A connection that keeps a rest and reads again faults, and so does one that is handed the first or the last frame of
a message of several frames. Otherwise a stream in pieces is parsed as the stream in one, and the loop of `RecBuf`
ends and loses nothing.
-/

namespace Afn

open Bytes Access Effect AFNPackage ConnectionPower

/-! ## What the calls eat -/

section
variable {mem : AFNPackage}

theorem parse_returned {w : Bytes} {c : Int} {e : Nat} {q : AFNPackage} (h32 : w.length < 2 ^ 32)
    (hp : ((construct mem).parseProto w).out = .ok (c, e, q)) :
    c = YQER_PKG_Err 1 ∧ e = 0 ∨ c ≠ YQER_PKG_Err 1 ∧ 8 ≤ e ∧ e ≤ w.length := by
  by_cases hw : Whole w
  · have hle := hw.le_length
    have heats : ∀ {c' : Int} {q' : AFNPackage}, c' ≠ YQER_PKG_Err 1 →
        Yields (InFrame w) ((construct mem).parseProto w) (c', lenAt w + 8, q') →
        c ≠ YQER_PKG_Err 1 ∧ 8 ≤ e ∧ e ≤ w.length := by
      intro c' q' hc hy
      have hout := hy.out
      rw [hp] at hout
      cases hout
      exact ⟨hc, by omega, hle⟩
    right
    by_cases hm : Marked w
    · by_cases hs : Summed w
      · by_cases h12 : 12 ≤ lenAt w
        · exact heats (by decide) (parse_ok mem ⟨hw, hm, hs⟩ h12)
        · obtain ⟨f, hf⟩ := parse_fault mem ⟨hw, hm, hs⟩ (by omega) h32
          rw [Fails, hp] at hf
          cases hf
      · exact heats (by decide) (parse_sum mem hw hm hs)
    · exact heats (by decide) (parse_mark mem hw hm)
  · obtain ⟨q', hy⟩ := parse_wait mem hw
    have hout := hy.out
    rw [hp] at hout
    cases hout
    exact .inl ⟨rfl, rfl⟩

theorem parse_large {w : Bytes} (h31 : 2 ^ 31 ≤ w.length) (h32 : w.length < 2 ^ 32) (mem : AFNPackage) :
    ∃ q, ((construct mem).parseProto w).out = .ok (YQER_PKG_Err 1, 0, q) := by
  have hw : ¬ Whole w := fun hw => Nat.lt_irrefl _ (Nat.lt_of_lt_of_le (hw.lt h32) h31)
  obtain ⟨q, hp⟩ := parse_wait mem hw
  exact ⟨q, hp.out⟩

namespace ParseCalls

variable {w tail : Bytes} {calls : List ParseCall}

theorem flatten (h : ParseCalls w calls tail) : (calls.map ParseCall.slice).flatten ++ tail = w := by
  induction h with
  | done => rfl
  | @wait mem w e =>
    rw [List.map_singleton, List.flatten_singleton]
    exact List.take_append_drop e w
  | @next mem w tail c e q calls _ _ _ _ ih =>
    rw [List.map_cons, List.flatten_cons, List.append_assoc, ih]
    exact List.take_append_drop e w

theorem eats (h : ParseCalls w calls tail) (h32 : w.length < 2 ^ 32) : ∀ c ∈ calls, c.eatLen ≤ c.data.length ∧
    if c.errCode = YQER_PKG_Err 1 then c.eatLen = 0 ∧ c.data = tail else 8 ≤ c.eatLen := by
  induction h with
  | done => exact List.forall_mem_nil _
  | @wait mem w e q hw hp =>
    obtain ⟨-, rfl⟩ | ⟨hc, -⟩ := parse_returned h32 hp
    · intro c hc
      rw [List.mem_singleton.mp hc, if_pos rfl]
      exact ⟨Nat.zero_le _, rfl, rfl⟩
    · exact absurd rfl hc
  | @next mem w tail c e q calls hw hp hc hcalls ih =>
    obtain ⟨hwait, -⟩ | ⟨-, h8, hle⟩ := parse_returned h32 hp
    · exact absurd hwait hc
    · have hdrop : (w.drop e).length = w.length - e := List.length_drop
      intro c' hc'
      rcases List.mem_cons.mp hc' with rfl | hc'
      · rw [if_neg hc]
        exact ⟨hle, h8⟩
      · exact ih (by omega) c' hc'

theorem waits (h : ParseCalls w calls tail) (h32 : w.length < 2 ^ 32) (hne : tail ≠ []) :
    ∃ c ∈ calls, c.errCode = YQER_PKG_Err 1 ∧ c.data = tail := by
  induction h with
  | done => exact absurd rfl hne
  | @wait mem w e q hw hp =>
    obtain ⟨-, rfl⟩ | ⟨hc, -⟩ := parse_returned h32 hp
    · exact ⟨_, List.mem_cons_self .., rfl, rfl⟩
    · exact absurd rfl hc
  | @next mem w tail c e q calls hw hp hc hcalls ih =>
    have hdrop : (w.drop e).length = w.length - e := List.length_drop
    obtain ⟨c', hc', hwait⟩ := ih (by omega) hne
    exact ⟨c', List.mem_cons_of_mem _ hc', hwait⟩

theorem large (h : ParseCalls w calls tail) (h31 : 2 ^ 31 ≤ w.length) (h32 : w.length < 2 ^ 32) : tail = w := by
  cases h with
  | done => exact absurd h31 (by decide)
  | @wait mem _ e q _ hp =>
    obtain ⟨q', hq⟩ := parse_large h31 h32 mem
    rw [hq] at hp
    cases hp
    rfl
  | @next mem _ _ c e q _ _ hp hc =>
    obtain ⟨q', hq⟩ := parse_large h31 h32 mem
    rw [hq] at hp
    cases hp
    exact absurd rfl hc

end ParseCalls

end

namespace Session

/-! ## Reads one after the other -/

/-- All frames among the blocks of `w` are single frames or middle ones. -/
def WholeFrames (w : Bytes) : Prop := ∀ p ∈ frames (Chunk.run blockAt w).1, WholeFrame p

theorem cut_of_recBufs : ∀ {reads : List Bytes}, (∀ r ∈ reads, r ≠ [] ∧ r.length < 2 ^ 31) →
    ∀ {con : ConnectionPower} {v v' : World} {s : Session} {handed : List AFNPackage},
    Ends (recBufs ⟨.construct, con⟩ reads) v (s, handed) v' → Cut reads ∧ s.buf.kept.length < 2 ^ 31 := by
  intro reads
  induction reads with
  | nil =>
    intro _ con v v' s handed h
    cases h
    exact ⟨List.forall_mem_nil _, Nat.two_pow_pos 31⟩
  | cons msg msgs ih =>
    intro hreads con v v' s handed h
    obtain ⟨⟨-, h31⟩, hmsgs⟩ := List.forall_mem_cons.mp hreads
    obtain ⟨⟨⟨buf, con₁⟩, now⟩, v₁, hrec, h⟩ := h.of_bind
    obtain ⟨⟨s₂, later⟩, v₂, hrecs, h⟩ := h.of_bind
    cases h
    obtain ⟨-, -, hret⟩ := ended_recBuf h31 hrec
    cases msgs with
    | nil =>
      cases hrecs
      have hle := Chunk.length_rest stable_blockAt msg
      refine ⟨List.forall_mem_nil _, ?_⟩
      rw [hret.kept]
      exact Nat.lt_of_le_of_lt hle h31
    | cons m ms =>
      have hdone : (Chunk.run blockAt msg).2 = [] := by
        apply Classical.byContradiction
        intro hrest
        obtain ⟨⟨s₃, c₃⟩, v₃, hnext, -⟩ := hrecs.of_bind
        exact not_ends_kept (hret.isSome hrest) (hmsgs m (List.mem_cons_self ..)).1 hnext
      rw [hdone] at hret
      simp only at hret
      rw [retains_nil hret] at hrecs
      obtain ⟨hcut, hlen⟩ := ih hmsgs hrecs
      refine ⟨fun r hr => ?_, hlen⟩
      rcases List.mem_cons.mp hr with rfl | hr
      · exact (EventConnection.framed_iff r).mpr hdone
      · exact hcut r hr

/-- Reading the pieces ends, and hands on the packages and keeps the bytes of the `ParseProto` loop run once over
the whole stream. -/
def SameAsOneShot (con : ConnectionPower) (v : World) (reads : List Bytes) : Prop :=
  ∃ s handed v' calls tail, Ends (recBufs ⟨.construct, con⟩ reads) v (s, handed) v' ∧
    ParseCalls reads.flatten calls tail ∧ handed = accepted calls ∧ s.buf.kept = tail

/-- **Cutting a stream into reads makes no difference exactly when every read but the last is framed and no frame
is the first or last one of a message of several frames** (and the stream is not so long that its length is a negative
`int`). -/
theorem sameAsOneShot_iff (con : ConnectionPower) (v : World) (reads : List Bytes)
    (hreads : ∀ r ∈ reads, r ≠ [] ∧ r.length ≤ BUF_SIZE - 1) (h32 : reads.flatten.length < 2 ^ 32)
    (hs : ∃ calls tail, ParseCalls reads.flatten calls tail) :
    SameAsOneShot con v reads ↔ reads.flatten.length < 2 ^ 31 ∧ Cut reads ∧ WholeFrames reads.flatten := by
  have hbuf : BUF_SIZE - 1 < 2 ^ 31 := by decide
  have h31 : ∀ r ∈ reads, r.length < 2 ^ 31 := fun r hr => Nat.lt_of_le_of_lt (hreads r hr).2 hbuf
  have hfeed := Chunk.feed_eq_run stable_blockAt reads (Chunk.next_nil stable_blockAt)
  rw [List.nil_append] at hfeed
  constructor
  · rintro ⟨s, handed, v', calls, tail, hrecs, hcalls, -, hkept⟩
    obtain ⟨hcut, hlen⟩ := cut_of_recBufs (fun r hr => ⟨(hreads r hr).1, h31 r hr⟩) hrecs
    refine ⟨Nat.lt_of_not_le fun hge => ?_, hcut, ?_⟩
    · rw [hkept, hcalls.large hge h32] at hlen
      exact Nat.not_lt.mpr hge hlen
    · have hall := receiveAll_of_recBufs h31 hcut hrecs
      rw [hfeed] at hall
      exact whole_of_receiveAll hall
  · intro ⟨hlen, hcut, hwhole⟩
    obtain ⟨calls, tail, hcalls⟩ := hs
    obtain ⟨hclean, hacc, htail⟩ := hcalls.run hlen
    obtain ⟨con', v', bss, hall, -, -⟩ := ends_receiveAll con v unit_of_frames hwhole
    rw [← hfeed] at hall hclean
    obtain ⟨buf, hrecs, hkept⟩ := ends_recBufs h31 hcut hclean hall
    rw [hfeed] at hrecs hkept
    exact ⟨_, _, v', calls, tail, hrecs, hcalls, hacc.symm, hkept.trans htail.symm⟩

def twoReads : List Bytes := [login, login ++ login]

theorem calls_twoReads : ∃ calls, ParseCalls twoReads.flatten calls [] :=
  ⟨_, @ParseCalls.next zeros _ _ _ _ _ _ (by decide) rfl (by decide)
    (@ParseCalls.next zeros _ _ _ _ _ _ (by decide) rfl (by decide)
      (@ParseCalls.next zeros _ _ _ _ _ _ (by decide) rfl (by decide) .done))⟩

theorem sameAsOneShot_iff_login :
    SameAsOneShot ⟨(0, 0), []⟩ start twoReads ↔
      twoReads.flatten.length < 2 ^ 31 ∧ Cut twoReads ∧ WholeFrames twoReads.flatten := by
  obtain ⟨calls, hcalls⟩ := calls_twoReads
  exact sameAsOneShot_iff ⟨(0, 0), []⟩ start twoReads (by decide) (by decide) ⟨calls, _, hcalls⟩

def splitLogin : List Bytes := [login.take 3, login.drop 3]

theorem splitLogin_differs : ¬ SameAsOneShot ⟨(0, 0), []⟩ start splitLogin := by
  rintro ⟨s, handed, v', calls, tail, hrecs, -⟩
  have hframed := (cut_of_recBufs (by decide) hrecs).1 (login.take 3) (List.mem_cons_self ..)
  rw [EventConnection.framed_iff] at hframed
  exact absurd hframed (by decide)

/-! ## The loop on a working buffer -/

/-- The loop on `w` calls the parser on `u`. -/
inductive CalledOn (w : Bytes) : Bytes → Prop
  | first : w ≠ [] → CalledOn w w
  | next {mem : AFNPackage} {u : Bytes} {c : Int} {e : Nat} {q : AFNPackage} : CalledOn w u →
      ((AFNPackage.construct mem).parseProto u).out = .ok (c, e, q) → c ≠ YQER_PKG_Err 1 → u.drop e ≠ [] →
      CalledOn w (u.drop e)

/-- No call of the parser that the loop makes on `w` faults. -/
def Faultless (w : Bytes) : Prop :=
  ∀ u, CalledOn w u → ∀ mem, ∃ r, ((AFNPackage.construct mem).parseProto u).out = .ok r

theorem CalledOn.trans {u v w : Bytes} (h : CalledOn w v) (h' : CalledOn v u) : CalledOn w u := by
  induction h' with
  | first => exact h
  | next _ hp hc hne ih => exact .next ih hp hc hne

theorem not_calledOn_nil {u : Bytes} : ¬ CalledOn [] u := by
  intro h
  induction h with
  | first h => exact h rfl
  | next _ _ _ _ ih => exact ih

theorem Faultless.next {mem : AFNPackage} {w : Bytes} {c : Int} {e : Nat} {q : AFNPackage} (h : Faultless w)
    (hw : w ≠ []) (hp : ((AFNPackage.construct mem).parseProto w).out = .ok (c, e, q)) (hc : c ≠ YQER_PKG_Err 1) :
    Faultless (w.drop e) := by
  intro u hu
  by_cases hne : w.drop e = []
  · rw [hne] at hu
    exact absurd hu not_calledOn_nil
  · exact h u ((CalledOn.next (.first hw) hp hc hne).trans hu)

theorem clean_of_faultless (w : Bytes) : w.length < 2 ^ 31 → Faultless w → Block.fault ∉ (Chunk.run blockAt w).1 := by
  refine Chunk.run_induction stable_blockAt (P := fun w => w.length < 2 ^ 31 → Faultless w →
    Block.fault ∉ (Chunk.run blockAt w).1) ?_ ?_ w
  · intro w hn _ _
    rw [Chunk.run_none hn]
    exact List.not_mem_nil
  · intro w n b hn ih h31 hf
    have hw := ne_nil_of_block hn
    have hlen := length_drop_block hn
    have hb : b ≠ .fault := by
      intro hb
      subst hb
      obtain ⟨e, he⟩ := parse_of_fault zeros h31 hn
      obtain ⟨r, hr⟩ := hf w (.first hw) zeros
      rw [Fails, hr] at he
      cases he
    obtain ⟨c, q, hc, hp, -⟩ := parse_of_block zeros h31 hn hb
    rw [Chunk.run_some stable_blockAt hn, List.mem_cons, not_or]
    exact ⟨Ne.symm hb, ih (Nat.lt_trans hlen h31) (hf.next hw hp hc)⟩

theorem faultless_of_clean {w : Bytes} (h31 : w.length < 2 ^ 31) (hclean : Block.fault ∉ (Chunk.run blockAt w).1) :
    Faultless w := by
  have hsub : ∀ {u : Bytes}, CalledOn w u → u.length < 2 ^ 31 ∧ Block.fault ∉ (Chunk.run blockAt u).1 := by
    intro u hu
    induction hu with
    | first => exact ⟨h31, hclean⟩
    | @next mem u c e q _ hp hc _ ih =>
      obtain ⟨b, hn, -⟩ := block_of_parse mem ih.1 hc hp
      have hlen := length_drop_block hn
      have hrest := ih.2
      rw [Chunk.run_some stable_blockAt hn, List.mem_cons, not_or] at hrest
      exact ⟨Nat.lt_trans hlen ih.1, hrest.2⟩
  intro u hu mem
  obtain ⟨hlen, hrun⟩ := hsub hu
  cases hn : blockAt u with
  | none =>
    obtain ⟨q, hp⟩ := parse_of_none mem hlen hn
    exact ⟨_, hp.out⟩
  | some r =>
    obtain ⟨n, b⟩ := r
    rw [Chunk.run_some stable_blockAt hn, List.mem_cons, not_or] at hrun
    obtain ⟨c, q, -, hp, -⟩ := parse_of_block mem hlen hn (Ne.symm hrun.1)
    exact ⟨_, hp⟩

/-- `RecBuf` ends with its working buffer `w`. The slices of its calls follow one another, and with what is retained
they make up `w`; each call eats at most what there is, and at least 8 bytes unless it waits. Only what the parser waits
for is retained. -/
def Conserves (buf : EventConnection) (con : ConnectionPower) (v : World) (parseBuffer : Bool) (w : Bytes) : Prop :=
  ∃ s calls v' tail, Ends (recLoop ⟨buf, con⟩ parseBuffer w) v (s, calls) v' ∧ ParseCalls w calls tail ∧
    (calls.map ParseCall.slice).flatten ++ tail = w ∧
    (∀ c ∈ calls, c.eatLen ≤ c.data.length ∧
      if c.errCode = YQER_PKG_Err 1 then c.eatLen = 0 ∧ c.data = tail else 8 ≤ c.eatLen) ∧
    (tail ≠ [] → ∃ c ∈ calls, c.errCode = YQER_PKG_Err 1 ∧ c.data = tail) ∧ Retains s.buf tail

section
variable {buf : EventConnection} {con : ConnectionPower} {v : World} {parseBuffer : Bool} {w : Bytes}

theorem conserves_of_calls {s : Session} {calls : List ParseCall} {v' : World} {tail : Bytes}
    (h32 : w.length < 2 ^ 32) (h : Ends (recLoop ⟨buf, con⟩ parseBuffer w) v (s, calls) v')
    (hcalls : ParseCalls w calls tail) (hret : Retains s.buf tail) : Conserves buf con v parseBuffer w :=
  ⟨s, calls, v', tail, h, hcalls, hcalls.flatten, hcalls.eats h32, hcalls.waits h32, hret⟩

theorem conserves_large (h31 : 2 ^ 31 ≤ w.length) (h32 : w.length < 2 ^ 32) (hw : Working buf parseBuffer w) :
    Conserves buf con v parseBuffer w := by
  have hne : w ≠ [] := List.length_pos_iff.mp (Nat.lt_of_lt_of_le (Nat.two_pow_pos 31) h31)
  obtain ⟨q, hp⟩ := parse_large h31 h32 v.mem
  obtain ⟨r, hr, hl⟩ := ends_waiting w.length con YQER_OK hw.holds hne hp
  obtain ⟨buf', hrec, hret⟩ := ends_recLoop hw hr hl
  exact conserves_of_calls h32 hrec hl.calls hret

end

/-- **When no call of the parser faults, the loop ends and loses nothing exactly when no frame is the first or last
one of a message of several frames.** `2 ^ 31` bytes or more are never parsed. -/
theorem conserves_iff (buf : EventConnection) (con : ConnectionPower) (v : World) (parseBuffer : Bool) (w : Bytes)
    (h32 : w.length < 2 ^ 32) (hw : Working buf parseBuffer w) (hf : Faultless w) :
    Conserves buf con v parseBuffer w ↔ (w.length < 2 ^ 31 → WholeFrames w) := by
  constructor
  · rintro ⟨s, calls, v', tail, hrec, -⟩ h31
    obtain ⟨-, hall, -⟩ := ended_frames h31 hw hrec
    exact whole_of_receiveAll hall
  · intro hwhole
    by_cases h31 : w.length < 2 ^ 31
    · obtain ⟨con', v', bss, hall, -, -⟩ := ends_receiveAll con v unit_of_frames (hwhole h31)
      obtain ⟨buf', calls, hrec, hcalls, hret⟩ := ends_frames h31 hw (clean_of_faultless w h31 hf) hall
      exact conserves_of_calls h32 hrec hcalls hret
    · exact conserves_large (Nat.le_of_not_lt h31) h32 hw

def loginAndHalf : Bytes := login ++ [0x68, 0x32]

theorem conserves_iff_loginAndHalf :
    Conserves .construct ⟨(0, 0), []⟩ start false loginAndHalf ↔
      (loginAndHalf.length < 2 ^ 31 → WholeFrames loginAndHalf) :=
  conserves_iff .construct ⟨(0, 0), []⟩ start false loginAndHalf (by decide) rfl
    (faultless_of_clean (by decide) (by decide))

-- a response that is the first frame of a message of several
def firstFrame : Bytes :=
  [0x68, 0x32, 0x00, 0x32, 0x00, 0x68, 0x88, 0x00, 0x10, 0x4d, 0x04, 0x00, 0x0c, 0x45, 0x00, 0x00, 0x01, 0x04, 0x3f,
    0x16]

/-- No call of the parser faults on it and the login behind it, but `handlePackage` deletes it twice. -/
theorem firstFrame_not_conserved :
    Working .construct false (firstFrame ++ login) ∧ Faultless (firstFrame ++ login) ∧
      ¬ Conserves .construct ⟨(0, 0), []⟩ start false (firstFrame ++ login) := by
  have hw : Working .construct false (firstFrame ++ login) := rfl
  refine ⟨hw, faultless_of_clean (by decide) (by decide), ?_⟩
  rintro ⟨s, calls, v', tail, hrec, -⟩
  obtain ⟨-, hall, -⟩ := ended_frames (by decide) hw hrec
  have hwhole := whole_of_receiveAll hall (frameOf firstFrame) (by decide)
  exact absurd hwhole (by decide)

end Session

end Afn
