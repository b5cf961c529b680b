import Afn.ReassemblySound

/-!
# The packages a connection owns

A package belongs to the connection from the moment it is parsed. A single frame is deleted once it has been
handled, one that waits for more is kept; the first and the last frame of a message are deleted with the list
and then again.
-/

namespace Afn

open Effect

/-! ## Objects made and deleted on the way -/

/-- All objects made between the two heaps are deleted, and no others. -/
def Spent (h h' : Heap) : Prop :=
  ∃ dels, h.Deleted h' dels ∧ ∀ a, a ∈ dels ↔ h.next ≤ a ∧ a < h'.next

theorem spent_refl (h : Heap) : Spent h h := by
  refine ⟨[], .refl h, fun a => ⟨fun ha => absurd ha List.not_mem_nil, fun ha => ?_⟩⟩
  exact absurd ha.2 (Nat.not_lt_of_le ha.1)

theorem spent_one {h h' : Heap} (hf : h.alloc.free h.next = some h') : Spent h h' := by
  refine ⟨[h.next] ++ [], h.deleted_alloc.trans (Heap.deleted_free hf), fun a => ?_⟩
  obtain ⟨-, hnext, -⟩ := Heap.free_eq hf
  have hsucc : h.alloc.next = h.next + 1 := rfl
  rw [List.append_nil, List.mem_singleton, hnext, hsucc]
  constructor
  · rintro rfl
    exact ⟨Nat.le_refl _, Nat.lt_succ_self _⟩
  · exact fun ha => Nat.le_antisymm (Nat.le_of_lt_succ ha.2) ha.1

section
variable {w w' : World}

theorem clearPkgList_inv : ∀ {lst l : List PkgPtr} {w w' : World}, Ends (clearPkgList lst) w l w' →
    l = [] ∧ (∀ a ∈ w.heap.freed, a ∈ w'.heap.freed) ∧ ∀ p ∈ lst, p.addr ∈ w'.heap.freed := by
  intro lst
  induction lst with
  | nil =>
    intro l w w' h
    cases h
    exact ⟨rfl, fun _ ha => ha, List.forall_mem_nil _⟩
  | cons p lst ih =>
    intro l w w' h
    obtain ⟨_, w₁, hdel, hclear⟩ := h.of_bind
    obtain ⟨heap, hfree, rfl⟩ := delete_inv hdel
    obtain ⟨-, -, hfreed⟩ := Heap.free_eq hfree
    obtain ⟨hnil, hkept, hall⟩ := ih hclear
    have hp : p.addr ∈ w'.heap.freed := by
      apply hkept
      simp only [hfreed]
      exact List.mem_cons_self ..
    refine ⟨hnil, fun a ha => hkept a ?_, List.forall_mem_cons.mpr ⟨hp, hall⟩⟩
    simp only [hfreed]
    exact List.mem_cons_of_mem _ ha

theorem createAck_heap {p ack : PkgPtr} {data : Option PkgAfnData}
    (h : Ends (AFNPackageBuilder.createAck p data) w ack w') : ack.addr = w.heap.next ∧ w'.heap = w.heap.alloc := by
  obtain ⟨rfl, rfl⟩ := (AFNPackageBuilder.ends_createAck w p.pkg p.addr rfl).inj h
  exact ⟨rfl, rfl⟩

theorem handlePkg_heap {p : PkgPtr} {rest ackLst : List PkgPtr} {nRet : Int}
    (h : Ends (AFNPackageBuilder.Instance.handlePkg (p :: rest) []) w (nRet, ackLst) w') :
    ackLst = [] ∧ w'.heap = w.heap ∨
      nRet = YQER_OK ∧ ∃ ack, ackLst = [ack] ∧ ack.addr = w.heap.next ∧ w'.heap = w.heap.alloc := by
  unfold PackageBuilder.handlePkg at h
  obtain ⟨_, w₁, hlog, h⟩ := h.of_bind
  have hw₁ : w₁.heap = w.heap := by
    cases hlog
    rfl
  rw [← hw₁]
  cases hreq : p.pkg.isRequest with
  | false =>
    simp only [hreq, Bool.false_eq_true, if_false] at h
    cases h
    exact .inl ⟨rfl, rfl⟩
  | true =>
    simp only [hreq, if_true, PackageBuilder.doHandleRequest, AFNPackageBuilder.Instance, handlerMap_eq] at h
    by_cases hcode : 2 = p.pkg.getCode
    · simp only [hcode, if_true] at h
      rcases AFN02.handleRequest_inv h with ⟨-, rfl, rfl⟩ | ⟨-, v, -, hv, hrest⟩
      · exact .inl ⟨rfl, rfl⟩
      rw [← hv]
      rcases hrest with ⟨rfl, rfl⟩ | ⟨data, ack, rfl, hok, hack⟩
      · exact .inl ⟨rfl, rfl⟩
      · exact .inr ⟨hok, ack, rfl, createAck_heap hack⟩
    · simp only [hcode, if_false] at h
      obtain ⟨ack, w₂, hack, h⟩ := h.of_bind
      cases h
      exact .inr ⟨rfl, ack, rfl, createAck_heap hack⟩

theorem handleList_heap {p : PkgPtr} {rest : List PkgPtr}
    (h : Ends (ConnectionPower.handleList (p :: rest)) w () w') : Spent w.heap w'.heap := by
  unfold ConnectionPower.handleList at h
  obtain ⟨⟨nRet, ackLst⟩, w₁, hpkg, h⟩ := h.of_bind
  rcases handlePkg_heap hpkg with ⟨rfl, hheap⟩ | ⟨rfl, ack, rfl, haddr, hheap⟩
  · simp only [List.length_nil, Nat.lt_irrefl, and_false, if_false] at h
    cases h
    rw [hheap]
    exact spent_refl _
  · simp only [List.length_cons, List.length_nil, Nat.zero_add, Nat.lt_add_one, and_self, if_true] at h
    obtain ⟨ret, w₂, hsend, h⟩ := h.of_bind
    obtain ⟨ret', w₃, hsend₁, hsend⟩ := hsend.of_bind
    cases hsend
    obtain ⟨sent, rfl⟩ := sendPkg_inv hsend₁
    obtain ⟨l, w₄, hclear, h⟩ := h.of_bind
    cases h
    obtain ⟨_, w₅, hdel, hclear⟩ := hclear.of_bind
    cases hclear
    obtain ⟨heap, hfree, rfl⟩ := delete_inv hdel
    rw [haddr] at hfree
    simp only [hheap] at hfree
    exact spent_one hfree

end

/-! ## Ownership over one frame -/

namespace ConnectionPower

/-- The package is handled without a fault, so nothing is deleted twice: `dels` are the objects deleted. What
is kept afterwards has not been deleted; of the package and of what was kept before, the rest has been, and so
have all objects made on the way. -/
def ReleasesOnce (self : ConnectionPower) (w : World) (pkg : PkgPtr) : Prop :=
  ∃ con w' dels, Ends (self.handlePackage pkg) w (con, YQER_OK) w' ∧ w.heap.Deleted w'.heap dels ∧
    (∀ q ∈ con.m_pkgList, q.addr ∉ w'.heap.freed) ∧
    (∀ q ∈ pkg :: self.m_pkgList, q ∉ con.m_pkgList → q.addr ∈ dels) ∧
    ∀ a, w.heap.next ≤ a → a < w'.heap.next → a ∈ dels

section
variable {self : ConnectionPower} {w : World} {pkg : PkgPtr}

theorem releases_single {d : PkgAfnData} (hs : Single pkg.pkg) (hd : pkg.pkg.pAfn.pAfnData = some d)
    (hnodup : ((pkg :: self.m_pkgList).map PkgPtr.addr).Nodup)
    (hlive : ∀ q ∈ pkg :: self.m_pkgList, w.heap.Live q.addr) :
    ReleasesOnce self w pkg := by
  rw [List.map_cons, List.nodup_cons] at hnodup
  have hpkg := hlive pkg (List.mem_cons_self ..)
  obtain ⟨w₁, hh, hserved⟩ := ends_handleList { w with received := w.received ++ [pkg] } pkg [] hd
  obtain ⟨dels, hdels, hnew⟩ := handleList_heap hh
  obtain ⟨heap, hfree, -, -⟩ := Heap.free_live (hserved.live _ hpkg)
  obtain ⟨-, hnext, hfreed⟩ := Heap.free_eq hfree
  have hdelete : Ends (delete pkg) w₁ () { w₁ with heap := heap } := by
    simp only [Ends, delete, hfree]
  refine ⟨self.addressed pkg.pkg.userHeader, { w₁ with heap := heap }, [pkg.addr] ++ dels, ?_,
    hdels.trans (Heap.deleted_free hfree), ?_, ?_, ?_⟩
  · unfold handlePackage
    refine (ends_modify _ w).bind ?_
    have hs' : pkg.pkg.pAfn.afnHeader.FIN = 1 ∧ pkg.pkg.pAfn.afnHeader.FIR = 1 := hs
    simp only [hs', and_self, if_true]
    exact hh.bind (hdelete.bind (ends_pure _ _))
  · rw [m_pkgList_addressed]
    intro q hq
    have hq' := hlive q (List.mem_cons_of_mem _ hq)
    have hne : q.addr ≠ pkg.addr := fun heq => hnodup.1 (heq ▸ List.mem_map_of_mem hq)
    simp only [hfreed]
    rw [hdels.freed, List.mem_cons, List.mem_append, not_or, not_or]
    exact ⟨hne, fun hmem => Nat.not_le_of_lt hq'.1 ((hnew _).mp hmem).1, hq'.2⟩
  · rw [m_pkgList_addressed]
    intro q hq hgone
    cases hq with
    | head => exact List.mem_cons_self ..
    | tail _ hq => exact absurd hq hgone
  · intro a hle hlt
    rw [hnext] at hlt
    exact List.mem_append_right _ ((hnew a).mpr ⟨hle, hlt⟩)

theorem releases_middle (hm : MiddleFrame pkg.pkg) (hlive : ∀ q ∈ pkg :: self.m_pkgList, w.heap.Live q.addr) :
    ReleasesOnce self w pkg := by
  have hlst := m_pkgList_addressed self pkg.pkg.userHeader
  unfold addressed at hlst
  refine ⟨{ self.addressed pkg.pkg.userHeader with m_pkgList := self.m_pkgList ++ [pkg] },
    { w with received := w.received ++ [pkg] }, [], ?_, .refl w.heap, ?_, ?_, ?_⟩
  · unfold handlePackage
    refine (ends_modify _ w).bind ?_
    simp only [hm.1, hm.2, Nat.zero_ne_one, and_false, if_false, if_true, hlst]
    exact ends_pure _ _
  · intro q hq
    apply (hlive q _).2
    rcases List.mem_append.mp hq with hq | hq
    · exact List.mem_cons_of_mem _ hq
    · rw [List.mem_singleton.mp hq]
      exact List.mem_cons_self ..
  · intro q hq hgone
    apply absurd _ hgone
    cases hq with
    | head => exact List.mem_append_right _ (List.mem_singleton_self _)
    | tail _ hq => exact List.mem_append_left _ hq
  · intro a hle hlt
    exact absurd hlt (Nat.not_lt_of_le hle)

theorem not_ends_cleared {α : Type} {lst : List PkgPtr} {p : PkgPtr} (hp : p ∈ lst)
    (f : List PkgPtr → Unit → Srv α) {w w' : World} {r : α} :
    ¬ Ends (clearPkgList lst >>= fun l => delete p >>= f l) w r w' := by
  intro h
  obtain ⟨l, w₁, hclear, h⟩ := h.of_bind
  obtain ⟨_, w₂, hdel, -⟩ := h.of_bind
  obtain ⟨-, -, hall⟩ := clearPkgList_inv hclear
  exact hdel.not_stops (stops_delete (hall p hp))

theorem whole_of_releases (h : ReleasesOnce self w pkg) : WholeFrame pkg.pkg := by
  obtain ⟨con, w', -, h, -⟩ := h
  refine Decidable.byContradiction fun hbad => ?_
  have hlst := m_pkgList_addressed self pkg.pkg.userHeader
  unfold addressed at hlst
  unfold handlePackage at h
  obtain ⟨_, w₁, -, h⟩ := h.of_bind
  cases not_whole_cases hbad with
  | inl hf =>
    simp only [hf.1, hf.2, Nat.zero_ne_one, false_and, and_self, if_false, if_true] at h
    obtain ⟨l, w₂, -, h⟩ := h.of_bind
    obtain ⟨_, w₃, -, h⟩ := h.of_bind
    exact not_ends_cleared (List.mem_append_right _ (List.mem_singleton_self _)) _ h
  | inr hl =>
    simp only [hl.1, hl.2, Nat.zero_ne_one, Nat.one_ne_zero, and_false, if_false, if_true] at h
    obtain ⟨_, w₂, -, h⟩ := h.of_bind
    exact not_ends_cleared (List.mem_append_right _ (List.mem_singleton_self _)) _ h

end

/-- **Every object is deleted once, or kept, exactly when the frame is neither the first nor the last of a
message of several frames.** -/
theorem releasesOnce_iff (self : ConnectionPower) {w : World} (a : Nat) (p : RecPkg)
    (hnodup : ((⟨a, p.pkg⟩ :: self.m_pkgList).map PkgPtr.addr).Nodup)
    (hlive : ∀ q ∈ ⟨a, p.pkg⟩ :: self.m_pkgList, w.heap.Live q.addr) :
    ReleasesOnce self w ⟨a, p.pkg⟩ ↔ p.pkg.pAfn.afnHeader.FIR = p.pkg.pAfn.afnHeader.FIN := by
  constructor
  · exact whole_of_releases
  · intro hwhole
    cases whole_cases hwhole with
    | inl hs =>
      obtain ⟨d, hd⟩ := p.unit
      exact releases_single hs hd hnodup hlive
    | inr hm => exact releases_middle hm hlive

def opening : World := { start with heap := Heap.empty.alloc }

def middleOfClock : Bytes := (clock.set 13 0x05).set 24 0xaa

def middlePkg : RecPkg := ⟨frameOf middleOfClock, zeros, middleOfClock, 26, by decide, rfl⟩

-- two frames are kept and one is received
def keeping : ConnectionPower := ⟨(0x1000, 0x044d), [⟨0, middlePkg.pkg⟩, ⟨1, middlePkg.pkg⟩]⟩

def receiving : World := { start with heap := Heap.empty.alloc.alloc.alloc }

theorem releasesOnce_iff_clock :
    (ReleasesOnce keeping receiving ⟨2, middlePkg.pkg⟩ ↔
      middlePkg.pkg.pAfn.afnHeader.FIR = middlePkg.pkg.pAfn.afnHeader.FIN) ∧
    (ReleasesOnce keeping receiving ⟨2, clockPkg.pkg⟩ ↔
      clockPkg.pkg.pAfn.afnHeader.FIR = clockPkg.pkg.pAfn.afnHeader.FIN) :=
  ⟨releasesOnce_iff keeping 2 middlePkg (by decide) (by decide),
    releasesOnce_iff keeping 2 clockPkg (by decide) (by decide)⟩

theorem firstOfTwo_released_twice :
    opening.heap.Live 0 ∧ ¬ ReleasesOnce ⟨(0, 0), []⟩ opening ⟨0, firstPkg.pkg⟩ ∧
    ∃ w, handlePackage ⟨(0, 0), []⟩ ⟨0, firstPkg.pkg⟩ opening = .error .doubleFree w ∧ w.heap.freed = [0] := by
  refine ⟨by decide, fun h => ?_, _, rfl, rfl⟩
  have hwhole := whole_of_releases h
  exact absurd hwhole (by decide)

end ConnectionPower

end Afn
