import Afn.ServerSound

/-!
# Messages of several frames

A first frame is given to `HandlePkg` at once and a last one without it, and each of them is deleted twice.
So a connection gets through its frames exactly when it receives no message of several frames.
-/

namespace Afn

open Bytes Effect

/-! ## Runs of a connection -/

-- a frame is received, or a call of the application clears what has been kept
inductive ConEvent
  | frame (p : RecPkg)
  | request

namespace ConnectionPower

def handle (self : ConnectionPower) : ConEvent → Srv ConnectionPower
  | .frame p => do
    let (self, _) ← self.receive p.pkg
    return self
  | .request => self.clearRecPkgList

def run (self : ConnectionPower) : List ConEvent → Srv ConnectionPower
  | [] => pure self
  | e :: events => do
    let self ← self.handle e
    self.run events

def FirstFrame (p : AFNPackage) : Prop := p.pAfn.afnHeader.FIR = 1 ∧ p.pAfn.afnHeader.FIN = 0
def MiddleFrame (p : AFNPackage) : Prop := p.pAfn.afnHeader.FIR = 0 ∧ p.pAfn.afnHeader.FIN = 0
def LastFrame (p : AFNPackage) : Prop := p.pAfn.afnHeader.FIR = 0 ∧ p.pAfn.afnHeader.FIN = 1

def Message (msg : List PkgPtr) : Prop :=
  ∃ first middle last, msg = first :: (middle ++ [last]) ∧ FirstFrame first.pkg ∧
    (∀ p ∈ middle, MiddleFrame p.pkg) ∧ LastFrame last.pkg

/-- The events are handled without a fault. Then among the lists given to `HandlePkg` those with a frame of
a message that was received uninterrupted are the message, once, and every list starts with a frame that
has FIR = 1. -/
def Reassembled (self : ConnectionPower) (w : World) (events : List ConEvent) : Prop :=
  ∃ con w', Ends (self.run events) w con w' ∧
    (∀ before msg after, w'.received = before ++ msg ++ after → Message msg →
      w'.handled.filter (fun lst => lst.any (· ∈ msg)) = [msg]) ∧
    ∀ lst ∈ w'.handled, ∃ p rest, lst = p :: rest ∧ p.pkg.pAfn.afnHeader.FIR = 1

-- a new connection in `w`, and the logs started afresh
def opened (w : World) : World := { w with received := [], handled := [] }

/-! ## Lists of objects -/

theorem ends_clearPkgList : ∀ (lst : List PkgPtr) (w : World), (lst.map PkgPtr.addr).Nodup →
    (∀ p ∈ lst, w.heap.Live p.addr) →
    ∃ heap, Ends (clearPkgList lst) w [] { w with heap := heap } ∧
      (∀ a, w.heap.Live a → a ∉ lst.map PkgPtr.addr → heap.Live a) ∧
      ∀ a, a ∈ lst.map PkgPtr.addr ∨ a ∈ w.heap.freed → a ∈ heap.freed := by
  intro lst
  induction lst with
  | nil =>
    intro w _ _
    refine ⟨w.heap, ends_pure _ _, fun a ha _ => ha, ?_⟩
    rintro a (ha | ha)
    · cases ha
    · exact ha
  | cons p lst ih =>
    intro w hnodup hlive
    rw [List.map_cons, List.nodup_cons] at hnodup
    obtain ⟨hp, hnodup⟩ := hnodup
    obtain ⟨heap₁, hdel, hkeep₁, hfreed₁⟩ := ends_delete (hlive p (List.mem_cons_self ..))
    have hlive₁ : ∀ q ∈ lst, heap₁.Live q.addr := by
      intro q hq
      apply hkeep₁ q.addr (hlive q (List.mem_cons_of_mem _ hq))
      intro heq
      exact hp (heq ▸ List.mem_map_of_mem hq)
    obtain ⟨heap, hclear, hkeep, hfreed⟩ := ih { w with heap := heap₁ } hnodup hlive₁
    refine ⟨heap, hdel.bind hclear, ?_, ?_⟩
    · intro a ha hne
      rw [List.map_cons, List.mem_cons, not_or] at hne
      exact hkeep a (hkeep₁ a ha hne.1) hne.2
    · intro a ha
      rw [List.map_cons, List.mem_cons] at ha
      apply hfreed a
      rcases ha with (ha | ha) | ha
      · exact .inr (hfreed₁ a (.inl ha))
      · exact .inl ha
      · exact .inr (hfreed₁ a (.inr ha))

/-! ## The invariant -/

def WholeFrame (p : AFNPackage) : Prop := p.pAfn.afnHeader.FIR = p.pAfn.afnHeader.FIN

instance (p : AFNPackage) : Decidable (WholeFrame p) := inferInstanceAs (Decidable (_ = _))

structure Inv (con : ConnectionPower) (w : World) : Prop where
  nodup : (con.m_pkgList.map PkgPtr.addr).Nodup
  live : ∀ p ∈ con.m_pkgList, w.heap.Live p.addr
  unit : ∀ p ∈ con.m_pkgList, ∃ d, p.pkg.pAfn.pAfnData = some d
  received : ∀ p ∈ w.received, WholeFrame p.pkg
  handled : ∀ lst ∈ w.handled, ∃ p rest, lst = p :: rest ∧ p.pkg.pAfn.afnHeader.FIR = 1

theorem inv_opened (m_jzq : UInt16 × UInt16) (w : World) : Inv ⟨m_jzq, []⟩ (opened w) :=
  ⟨List.nodup_nil, List.forall_mem_nil _, List.forall_mem_nil _, List.forall_mem_nil _, List.forall_mem_nil _⟩

theorem whole_cases {p : AFNPackage} (h : WholeFrame p) : Single p ∨ MiddleFrame p := by
  have hFIR : p.pAfn.afnHeader.FIR = 0 ∨ p.pAfn.afnHeader.FIR = 1 := field_two ..
  unfold WholeFrame at h
  cases hFIR with
  | inl h0 => exact .inr ⟨h0, h ▸ h0⟩
  | inr h1 => exact .inl ⟨h ▸ h1, h1⟩

theorem not_whole_cases {p : AFNPackage} (h : ¬ WholeFrame p) : FirstFrame p ∨ LastFrame p := by
  have hFIR : p.pAfn.afnHeader.FIR = 0 ∨ p.pAfn.afnHeader.FIR = 1 := field_two ..
  have hFIN : p.pAfn.afnHeader.FIN = 0 ∨ p.pAfn.afnHeader.FIN = 1 := field_two ..
  unfold WholeFrame at h
  cases hFIR with
  | inl h0 => exact .inr ⟨h0, hFIN.resolve_left fun hn => h (h0.trans hn.symm)⟩
  | inr h1 => exact .inl ⟨h1, hFIN.resolve_right fun hn => h (h1.trans hn.symm)⟩

section
variable {con : ConnectionPower} {w : World} (hI : Inv con w)
include hI

theorem Inv.received_ptr {p : AFNPackage} (h : WholeFrame p) :
    ∀ q ∈ w.received ++ [ptr w p], WholeFrame q.pkg := by
  intro q hq
  rcases List.mem_append.mp hq with hq | hq
  · exact hI.received q hq
  · rw [List.mem_singleton.mp hq]
    exact h

theorem Inv.single (p : RecPkg) (hs : Single p.pkg) :
    ∃ con' w', Ends (con.receive p.pkg) w (con', YQER_OK) w' ∧ Inv con' w' := by
  obtain ⟨d, hd⟩ := p.unit
  obtain ⟨w₁, hh, hserved⟩ := ends_handleList (arrived w p.pkg) (ptr w p.pkg) [] hd
  obtain ⟨con', heap, h, hlst, hlive⟩ := ends_receive_single con hs hh hserved
  refine ⟨con', _, h, ?_, ?_, ?_, ?_, ?_⟩
  · rw [hlst]; exact hI.nodup
  · rw [hlst]; exact fun q hq => hlive q.addr (hI.live q hq)
  · rw [hlst]; exact hI.unit
  · simp only [hserved.received, arrived]
    exact hI.received_ptr (hs.2.trans hs.1.symm)
  · simp only [hserved.handled, arrived]
    intro lst hl
    rcases List.mem_append.mp hl with hl | hl
    · exact hI.handled lst hl
    · rw [List.mem_singleton.mp hl]
      exact ⟨_, _, rfl, hs.2⟩

theorem Inv.append (p : RecPkg) :
    ((con.m_pkgList ++ [ptr w p.pkg]).map PkgPtr.addr).Nodup ∧
    (∀ q ∈ con.m_pkgList ++ [ptr w p.pkg], w.heap.alloc.Live q.addr) ∧
    ∀ q ∈ con.m_pkgList ++ [ptr w p.pkg], ∃ d, q.pkg.pAfn.pAfnData = some d := by
  refine ⟨?_, ?_, ?_⟩
  · rw [List.map_append, List.nodup_append]
    refine ⟨hI.nodup, List.nodup_cons.mpr ⟨List.not_mem_nil, List.nodup_nil⟩, ?_⟩
    intro a ha b hb
    obtain ⟨q, hq, rfl⟩ := List.mem_map.mp ha
    rw [List.mem_singleton.mp hb]
    exact (hI.live q hq).ne_next
  · intro q hq
    rcases List.mem_append.mp hq with hq | hq
    · exact (hI.live q hq).alloc
    · rw [List.mem_singleton.mp hq]
      exact Heap.live_alloc w.heap
  · intro q hq
    rcases List.mem_append.mp hq with hq | hq
    · exact hI.unit q hq
    · rw [List.mem_singleton.mp hq]
      exact p.unit

theorem Inv.middle (p : RecPkg) (hm : MiddleFrame p.pkg) :
    ∃ con' w', Ends (con.receive p.pkg) w (con', YQER_OK) w' ∧ Inv con' w' := by
  obtain ⟨hnodup, hlive, hunit⟩ := hI.append p
  refine ⟨{ con.addressed p.pkg.userHeader with m_pkgList := con.m_pkgList ++ [ptr w p.pkg] }, arrived w p.pkg, ?_,
    hnodup, hlive, hunit, hI.received_ptr (hm.1.trans hm.2.symm), hI.handled⟩
  unfold receive handlePackage
  refine (ends_new p.pkg w).bind ((ends_modify _ _).bind ?_)
  have hlst := m_pkgList_addressed con p.pkg.userHeader
  unfold addressed at hlst
  simp only [hm.1, hm.2, Nat.zero_ne_one, and_false, if_false, if_true, hlst]
  exact ends_pure _ _

theorem Inv.request : ∃ con' w', Ends con.clearRecPkgList w con' w' ∧ Inv con' w' := by
  obtain ⟨heap, hclear, -, -⟩ := ends_clearPkgList con.m_pkgList w hI.nodup hI.live
  exact ⟨_, _, hclear.bind (ends_pure _ _), List.nodup_nil, List.forall_mem_nil _, List.forall_mem_nil _,
    hI.received, hI.handled⟩

end

/-! ## Double deletions -/

theorem stops_handled {α : Type} {lst : List PkgPtr} {w : World} {p : PkgPtr} (hp : p ∈ lst)
    (hnodup : (lst.map PkgPtr.addr).Nodup) (hlive : ∀ q ∈ lst, w.heap.Live q.addr)
    (hunit : ∀ q ∈ lst, ∃ d, q.pkg.pAfn.pAfnData = some d) (f : List PkgPtr → Unit → Srv α) :
    Stops (handleList lst >>= fun _ => clearPkgList lst >>= fun l => delete p >>= f l) w .doubleFree := by
  cases lst with
  | nil => cases hp
  | cons q rest =>
    obtain ⟨d, hd⟩ := hunit q (List.mem_cons_self ..)
    obtain ⟨w₁, hh, hserved⟩ := ends_handleList w q rest hd
    obtain ⟨heap, hclear, -, hfreed⟩ := ends_clearPkgList (q :: rest) w₁ hnodup
      fun q hq => hserved.live q.addr (hlive q hq)
    apply hh.bind_stops
    apply hclear.bind_stops
    apply Stops.bind
    exact stops_delete (hfreed p.addr (.inl (List.mem_map_of_mem hp)))

section
variable {con : ConnectionPower} {w : World} (hI : Inv con w)
include hI

theorem Inv.first (p : RecPkg) (hf : FirstFrame p.pkg) : Stops (con.receive p.pkg) w .doubleFree := by
  have hlive : ∀ q ∈ con.m_pkgList, w.heap.alloc.Live q.addr := fun q hq => (hI.live q hq).alloc
  obtain ⟨heap, hclear, hkeep, -⟩ := ends_clearPkgList con.m_pkgList (arrived w p.pkg) hI.nodup hlive
  have hnew : heap.Live (ptr w p.pkg).addr := by
    apply hkeep _ (Heap.live_alloc w.heap)
    intro hmem
    obtain ⟨q, hq, heq⟩ := List.mem_map.mp hmem
    exact (hI.live q hq).ne_next heq
  have hlst := m_pkgList_addressed con p.pkg.userHeader
  unfold addressed at hlst
  unfold receive handlePackage
  apply (ends_new p.pkg w).bind_stops
  apply (ends_modify _ _).bind_stops
  simp only [hf.1, hf.2, Nat.zero_ne_one, false_and, and_self, if_false, if_true, hlst]
  apply hclear.bind_stops
  refine stops_handled (List.mem_singleton.mpr rfl) ?_ ?_ ?_ _
  · exact List.nodup_cons.mpr ⟨List.not_mem_nil, List.nodup_nil⟩
  · intro q hq
    rw [List.mem_singleton.mp hq]
    exact hnew
  · intro q hq
    rw [List.mem_singleton.mp hq]
    exact p.unit

theorem Inv.last (p : RecPkg) (hl : LastFrame p.pkg) : Stops (con.receive p.pkg) w .doubleFree := by
  obtain ⟨hnodup, hlive, hunit⟩ := hI.append p
  have hlst := m_pkgList_addressed con p.pkg.userHeader
  unfold addressed at hlst
  unfold receive handlePackage
  apply (ends_new p.pkg w).bind_stops
  apply (ends_modify _ _).bind_stops
  simp only [hl.1, hl.2, Nat.zero_ne_one, Nat.one_ne_zero, and_false, if_false, if_true, hlst]
  exact stops_handled (List.mem_append_right _ (List.mem_singleton.mpr rfl)) hnodup hlive hunit _

/-! ## Runs -/

theorem Inv.event (e : ConEvent) (h : ∀ p, e = .frame p → WholeFrame p.pkg) :
    ∃ con' w', Ends (con.handle e) w con' w' ∧ Inv con' w' := by
  cases e with
  | request => exact hI.request
  | frame p =>
    have hreceive : ∃ con' w', Ends (con.receive p.pkg) w (con', YQER_OK) w' ∧ Inv con' w' := by
      cases whole_cases (h p rfl) with
      | inl hs => exact hI.single p hs
      | inr hm => exact hI.middle p hm
    obtain ⟨con', w', hr, hI'⟩ := hreceive
    exact ⟨con', w', hr.bind (ends_pure _ _), hI'⟩

theorem Inv.bad (p : RecPkg) (h : ¬ WholeFrame p.pkg) : Stops (con.handle (.frame p)) w .doubleFree := by
  apply Stops.bind
  cases not_whole_cases h with
  | inl hf => exact hI.first p hf
  | inr hl => exact hI.last p hl

end

theorem Inv.run : ∀ {events : List ConEvent} {con : ConnectionPower} {w : World}, Inv con w →
    (∀ p, .frame p ∈ events → WholeFrame p.pkg) → ∃ con' w', Ends (con.run events) w con' w' ∧ Inv con' w' := by
  intro events
  induction events with
  | nil => exact fun hI _ => ⟨_, _, ends_pure _ _, hI⟩
  | cons e events ih =>
    intro con w hI h
    obtain ⟨con₁, w₁, he, hI₁⟩ := hI.event e fun p hp => h p (hp ▸ List.mem_cons_self ..)
    obtain ⟨con', w', hrun, hI'⟩ := ih hI₁ fun p hp => h p (List.mem_cons_of_mem _ hp)
    exact ⟨con', w', he.bind hrun, hI'⟩

theorem Inv.whole_of_ends : ∀ {events : List ConEvent} {con con' : ConnectionPower} {w w' : World}, Inv con w →
    Ends (con.run events) w con' w' → ∀ p, .frame p ∈ events → WholeFrame p.pkg := by
  intro events
  induction events with
  | nil => exact fun _ _ p hp => nomatch hp
  | cons e events ih =>
    intro con con' w w' hI hrun
    obtain ⟨con₁, w₁, he, hrest⟩ := hrun.of_bind
    have hwhole : ∀ p, e = .frame p → WholeFrame p.pkg := by
      rintro p rfl
      exact Decidable.byContradiction fun hbad => he.not_stops (hI.bad p hbad)
    obtain ⟨con₁', w₁', he', hI₁⟩ := hI.event e hwhole
    obtain ⟨rfl, rfl⟩ := he.inj he'
    intro p hp
    cases hp with
    | head => exact hwhole p rfl
    | tail _ hp => exact ih hI₁ hrest p hp

theorem Inv.no_message {con : ConnectionPower} {w : World} (hI : Inv con w) {before msg after : List PkgPtr}
    (hrec : w.received = before ++ msg ++ after) : ¬ Message msg := by
  rintro ⟨first, middle, last, rfl, hf, -, -⟩
  have hmem : first ∈ w.received := by
    rw [hrec]
    exact List.mem_append_left _ (List.mem_append_right _ (List.mem_cons_self ..))
  have hwhole : first.pkg.pAfn.afnHeader.FIR = first.pkg.pAfn.afnHeader.FIN := hI.received first hmem
  rw [hf.1, hf.2] at hwhole
  cases hwhole

/-- **A run of a connection reassembles its messages exactly when there is no first or last frame of a
message of several frames in it.** -/
theorem reassembled_iff (m_jzq : UInt16 × UInt16) (w : World) (events : List ConEvent) :
    Reassembled ⟨m_jzq, []⟩ (opened w) events ↔
      ∀ p, .frame p ∈ events → p.pkg.pAfn.afnHeader.FIR = p.pkg.pAfn.afnHeader.FIN := by
  have hI := inv_opened m_jzq w
  constructor
  · intro ⟨con, w', hrun, _, _⟩
    exact hI.whole_of_ends hrun
  · intro h
    obtain ⟨con, w', hrun, hI'⟩ := hI.run h
    exact ⟨con, w', hrun, fun before msg after hrec hmsg => absurd hmsg (hI'.no_message hrec), hI'.handled⟩

def firstOfTwo : Bytes :=
  [0x68, 0x32, 0, 0x32, 0, 0x68, 0x88, 0, 0x10, 0x4d, 0x04, 0, 0x0c, 0x45, 0, 0, 0x01, 0x04, 0x3f, 0x16]

def lastOfTwo : Bytes :=
  [0x68, 0x32, 0, 0x32, 0, 0x68, 0x88, 0, 0x10, 0x4d, 0x04, 0, 0x0c, 0x25, 0, 0, 0x01, 0x04, 0x1f, 0x16]

def firstPkg : RecPkg := ⟨frameOf firstOfTwo, zeros, firstOfTwo, 20, by decide, rfl⟩
def lastPkg : RecPkg := ⟨frameOf lastOfTwo, zeros, lastOfTwo, 20, by decide, rfl⟩

/-- The first frame is handled without the last, the last one without the first. -/
theorem twoFrames_not_reassembled :
    FirstFrame firstPkg.pkg ∧ LastFrame lastPkg.pkg ∧
    ¬ Reassembled ⟨(0, 0), []⟩ (opened start) [.frame firstPkg, .frame lastPkg] ∧
    (∃ w, ConnectionPower.run ⟨(0, 0), []⟩ [.frame firstPkg, .frame lastPkg] (opened start) = .error .doubleFree w ∧
      w.handled = [[⟨0, firstPkg.pkg⟩]]) ∧
    (∃ w, ConnectionPower.run ⟨(0, 0), []⟩ [.frame lastPkg] (opened start) = .error .doubleFree w ∧
      w.handled = [[⟨0, lastPkg.pkg⟩]]) := by
  have hf : FirstFrame firstPkg.pkg := ⟨by decide, by decide⟩
  refine ⟨hf, ⟨by decide, by decide⟩, ?_, ⟨_, rfl, rfl⟩, ⟨_, rfl, rfl⟩⟩
  intro ⟨con, w, hrun, _, _⟩
  have hwhole := (inv_opened (0, 0) start).whole_of_ends hrun firstPkg (List.mem_cons_self ..)
  exact absurd hwhole (by decide)

end ConnectionPower

end Afn
