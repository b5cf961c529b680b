import Afn.JzqSound
import Afn.MatchSound

/-!
# Sequence numbers

The confirmations for a concentrator are numbered from the number of its last login, its requests from 0, both
modulo 16. The two counters are fields of the first record of its address, which stays the first through
all that is added behind it.
-/

namespace Afn

open Bytes Access Effect AFNPackage AFNPackageBuilder

/-! ## The counters of a concentrator -/

namespace Jzq

def confirmed (p : Jzq) : Jzq := { p with m_RSEQ := if 15 < p.m_RSEQ + 1 then 0 else p.m_RSEQ + 1 }

def requested (p : Jzq) : Jzq := { p with m_PFC := p.m_PFC + 1 }

theorem at_confirmed (a n : UInt16) (p : Jzq) : JzqList.at? a n p.confirmed = JzqList.at? a n p := rfl

theorem at_requested (a n : UInt16) (p : Jzq) : JzqList.at? a n p.requested = JzqList.at? a n p := rfl

theorem RSEQ_confirmed (p : Jzq) (h : p.m_RSEQ.toNat ≤ 15) :
    p.confirmed.m_RSEQ.toNat = (p.m_RSEQ.toNat + 1) % 16 := by
  have hadd : (p.m_RSEQ + 1).toNat = p.m_RSEQ.toNat + 1 := by
    rw [UInt8.toNat_add, UInt8.toNat_one]
    omega
  have h15 : (15 : UInt8).toNat = 15 := rfl
  unfold confirmed
  by_cases hlt : 15 < p.m_RSEQ + 1
  · simp only [hlt, if_true, UInt8.toNat_zero]
    rw [UInt8.lt_iff_toNat_lt, hadd, h15] at hlt
    omega
  · simp only [hlt, if_false, hadd]
    rw [UInt8.lt_iff_toNat_lt, hadd, h15] at hlt
    omega

theorem PFC_requested (p : Jzq) : p.requested.m_PFC.toNat = (p.m_PFC.toNat + 1) % 256 := by
  simp only [requested, UInt8.toNat_add, UInt8.toNat_one]

theorem low_bits (x : UInt8) : (x &&& 0x0f).toNat = x.toNat % 16 := by
  rw [UInt8.toNat_and]
  exact Nat.and_two_pow_sub_one_eq_mod x.toNat 4

end Jzq

namespace JzqList

/-- The concentrator of the address is still there with its counters, or is a new one that nothing has been
requested from. -/
def Keeps (l l' : JzqList) (a n : UInt16) : Prop :=
  match l.getJzq a n with
  | some p => ∃ p', l'.getJzq a n = some p' ∧ p'.m_RSEQ = p.m_RSEQ ∧ p'.m_PFC = p.m_PFC
  | none => ∀ p', l'.getJzq a n = some p' → p'.m_PFC = 0

def Small (l : JzqList) : Prop := ∀ p ∈ l.m_jzqList, p.m_RSEQ.toNat ≤ 15

section
variable {l l' : JzqList} {a n : UInt16}

theorem keeps_of_map {f : Jzq → Jzq} (h : l'.getJzq a n = (l.getJzq a n).map f)
    (hf : ∀ p, (f p).m_RSEQ = p.m_RSEQ ∧ (f p).m_PFC = p.m_PFC) : l.Keeps l' a n := by
  unfold Keeps
  rw [h]
  cases l.getJzq a n with
  | some p => exact ⟨f p, rfl, hf p⟩
  | none => exact fun p' hp' => nomatch hp'

theorem keeps_of_eq (h : l'.getJzq a n = l.getJzq a n) : l.Keeps l' a n := by
  apply keeps_of_map (f := id)
  · rw [h, Option.map_id, id]
  · exact fun p => ⟨rfl, rfl⟩

theorem Keeps.trans {l'' : JzqList} (h : l.Keeps l' a n) (h' : l'.Keeps l'' a n) : l.Keeps l'' a n := by
  unfold Keeps at h h' ⊢
  cases hg : l.getJzq a n with
  | some p =>
    rw [hg] at h
    obtain ⟨p', hp', hr, hf⟩ := h
    rw [hp'] at h'
    obtain ⟨p'', hp'', hr', hf'⟩ := h'
    exact ⟨p'', hp'', hr'.trans hr, hf'.trans hf⟩
  | none =>
    rw [hg] at h
    intro p'' hp''
    cases hg' : l'.getJzq a n with
    | some p' =>
      rw [hg'] at h'
      obtain ⟨q, hq, -, hf'⟩ := h'
      cases hp''.symm.trans hq
      exact hf'.trans (h p' hg')
    | none =>
      rw [hg'] at h'
      exact h' p'' hp''

theorem mem_modifyFirst {f : Jzq → Jzq} {p' : Jzq} : ∀ {ps : List Jzq}, p' ∈ modifyFirst a n f ps →
    p' ∈ ps ∨ ∃ p ∈ ps, p' = f p := by
  intro ps
  induction ps with
  | nil => exact fun h => nomatch h
  | cons p ps ih =>
    intro h
    simp only [modifyFirst] at h
    split at h
    · rcases List.mem_cons.mp h with rfl | h
      · exact .inr ⟨p, List.mem_cons_self .., rfl⟩
      · exact .inl (List.mem_cons_of_mem _ h)
    · rcases List.mem_cons.mp h with rfl | h
      · exact .inl (List.mem_cons_self ..)
      · rcases ih h with h | ⟨q, hq, rfl⟩
        · exact .inl (List.mem_cons_of_mem _ h)
        · exact .inr ⟨q, List.mem_cons_of_mem _ hq, rfl⟩

theorem Small.modify (h : l.Small) {f : Jzq → Jzq} (hf : ∀ p : Jzq, p.m_RSEQ.toNat ≤ 15 → (f p).m_RSEQ.toNat ≤ 15) :
    (l.modify a n f).Small := by
  intro p' hp'
  rcases mem_modifyFirst hp' with hp' | ⟨p, hp, rfl⟩
  · exact h p' hp'
  · exact hf p (h p hp)

theorem Small.getJzq (h : l.Small) {p : Jzq} (hp : l.getJzq a n = some p) : p.m_RSEQ.toNat ≤ 15 :=
  h p (List.mem_of_find?_eq_some hp)

end

/-! ## Logins, closes and loads -/

section
variable (tick : UInt32) (_Fn : UInt16) (_pseq : UInt8)

theorem loginState_counters (p : Jzq) :
    (p.loginState tick _Fn _pseq).m_RSEQ = (if _Fn = 1 then _pseq else p.m_RSEQ) ∧
      (p.loginState tick _Fn _pseq).m_PFC = p.m_PFC := by
  obtain ⟨m_tag, m_heartTimer, h⟩ := p.loginState_eq tick _pseq _Fn
  rw [h]
  exact ⟨rfl, rfl⟩

theorem loginState_small {p : Jzq} (h : p.m_RSEQ.toNat ≤ 15) (hp : _pseq.toNat ≤ 15) :
    (p.loginState tick _Fn _pseq).m_RSEQ.toNat ≤ 15 := by
  rw [(loginState_counters tick _Fn _pseq p).1]
  split
  · exact hp
  · exact h

variable (l : JzqList) (a n : UInt16)

theorem report_counters : ∃ p', (l.reportLoginState tick a n _Fn _pseq true).getJzq a n = some p' ∧
    (_Fn = 1 → p'.m_RSEQ = _pseq) ∧ (∀ p, l.getJzq a n = some p → p'.m_PFC = p.m_PFC) ∧
    (l.getJzq a n = none → p'.m_PFC = 0) := by
  obtain ⟨_name, h⟩ := getJzq_report_self l tick a n _Fn _pseq
  obtain ⟨hr, hp⟩ := loginState_counters tick _Fn _pseq ((l.getJzq a n).getD (Jzq.construct _name a n 0))
  refine ⟨_, h, fun h1 => ?_, fun p hg => ?_, fun hg => ?_⟩
  · rw [hr, if_pos h1]
  · rw [hp, hg, Option.getD_some]
  · rw [hp, hg]
    rfl

theorem keeps_report (h1 : _Fn ≠ 1) : l.Keeps (l.reportLoginState tick a n _Fn _pseq true) a n := by
  obtain ⟨_name, h⟩ := getJzq_report_self l tick a n _Fn _pseq
  obtain ⟨hr, hp⟩ := loginState_counters tick _Fn _pseq ((l.getJzq a n).getD (Jzq.construct _name a n 0))
  rw [if_neg h1] at hr
  unfold Keeps
  cases hg : l.getJzq a n with
  | some p =>
    rw [hg] at h hr hp
    exact ⟨_, h, hr, hp⟩
  | none =>
    rw [hg] at h hp
    intro p' hp'
    rw [h] at hp'
    cases hp'
    exact hp

theorem Small.report {l : JzqList} (h : l.Small) (hp : _pseq.toNat ≤ 15) :
    (l.reportLoginState tick a n _Fn _pseq true).Small := by
  unfold reportLoginState
  split
  · exact h.modify fun p hle => loginState_small tick _Fn _pseq hle hp
  · intro p' hp'
    rcases List.mem_append.mp hp' with hp' | hp'
    · exact h p' hp'
    · rw [List.mem_singleton.mp hp']
      exact loginState_small tick _Fn _pseq (Nat.zero_le 15) hp

theorem keeps_del (a' n' : UInt16) : l.Keeps (l.delConnection tick a n) a' n' := by
  by_cases h : (a', n') = (a, n)
  · cases h
    exact keeps_of_map (getJzq_del l tick a n) fun p => loginState_counters tick 2 0 p
  · exact keeps_of_eq (getJzq_del_ne l tick a n h)

theorem Small.del {l : JzqList} (h : l.Small) : (l.delConnection tick a n).Small := by
  unfold delConnection
  split
  · exact h.modify fun p hle => loginState_small tick 2 0 hle (Nat.zero_le 15)
  · exact h

theorem checkTimeout_counters (p : Jzq) :
    (p.checkTimeout tick).1.m_RSEQ = p.m_RSEQ ∧ (p.checkTimeout tick).1.m_PFC = p.m_PFC := by
  simp only [Jzq.checkTimeout]
  split
  · exact loginState_counters tick 2 0 _
  · exact ⟨rfl, rfl⟩

theorem keeps_check : l.Keeps (l.checkConnection tick) a n :=
  keeps_of_map (getJzq_check l tick a n) (checkTimeout_counters tick)

theorem Small.check {l : JzqList} (h : l.Small) : (l.checkConnection tick).Small := by
  intro p' hp'
  obtain ⟨p, hp, rfl⟩ := List.mem_map.mp hp'
  rw [(checkTimeout_counters tick p).1]
  exact h p hp

end

section
variable (l : JzqList) (db : Tables) (a n : UInt16)

theorem getJzq_loadJzq : (l.loadJzq db).getJzq a n =
    ((l.getJzq a n).or ((db.gc_equipmentjzq.map JzqRow.jzq).find? (at? a n))).map fun p =>
      { p with eleLst := p.eleLst ++ db.elements p.m_areacode p.m_number } := by
  have h := getJzq_map { l with m_jzqList := l.m_jzqList ++ db.gc_equipmentjzq.map JzqRow.jzq } a n
    (f := fun p => { p with eleLst := p.eleLst ++ db.elements p.m_areacode p.m_number }) fun _ _ _ => rfl
  simp only [getJzq, List.find?_append] at h ⊢
  exact h

theorem keeps_load : l.Keeps (l.loadJzq db) a n := by
  unfold Keeps
  rw [getJzq_loadJzq]
  cases l.getJzq a n with
  | some p => exact ⟨_, rfl, rfl, rfl⟩
  | none =>
    intro p' hp'
    rw [Option.none_or] at hp'
    obtain ⟨p, hp, rfl⟩ := Option.map_eq_some_iff.mp hp'
    obtain ⟨r, -, rfl⟩ := List.mem_map.mp (List.mem_of_find?_eq_some hp)
    rfl

theorem Small.load {l : JzqList} (h : l.Small) : (l.loadJzq db).Small := by
  intro p' hp'
  obtain ⟨p, hp, rfl⟩ := List.mem_map.mp hp'
  rcases List.mem_append.mp hp with hp | hp
  · exact h p hp
  · obtain ⟨r, -, rfl⟩ := List.mem_map.mp hp
    exact Nat.zero_le 15

end

/-! ## Numbers taken -/

section
variable (l : JzqList) (a n : UInt16)

theorem getRSEQ_some {p : Jzq} (hp : l.getJzq a n = some p) :
    l.getRSEQ a n true = (p.m_RSEQ, l.modify a n Jzq.confirmed) := by
  simp only [getRSEQ, hp, if_true]
  rfl

theorem getPSEQ_some {p : Jzq} (hp : l.getJzq a n = some p) :
    l.getPSEQ a n true = (p.m_PFC &&& 0x0f, l.modify a n Jzq.requested) := by
  simp only [getPSEQ, hp, if_true]
  rfl

theorem getRSEQ_none (hp : l.getJzq a n = none) : l.getRSEQ a n true = (0, l) := by
  simp only [getRSEQ, hp]

theorem getPSEQ_none (hp : l.getJzq a n = none) : l.getPSEQ a n true = (0, l) := by
  simp only [getPSEQ, hp]

theorem keeps_getRSEQ {a' n' : UInt16} (h : (a', n') ≠ (a, n)) : l.Keeps (l.getRSEQ a n true).2 a' n' := by
  apply keeps_of_eq
  cases hp : l.getJzq a n with
  | some p =>
    rw [getRSEQ_some l a n hp]
    exact getJzq_modify_ne l a n Jzq.at_confirmed h
  | none => rw [getRSEQ_none l a n hp]

theorem keeps_getPSEQ {a' n' : UInt16} (h : (a', n') ≠ (a, n)) : l.Keeps (l.getPSEQ a n true).2 a' n' := by
  apply keeps_of_eq
  cases hp : l.getJzq a n with
  | some p =>
    rw [getPSEQ_some l a n hp]
    exact getJzq_modify_ne l a n Jzq.at_requested h
  | none => rw [getPSEQ_none l a n hp]

theorem Small.getRSEQ {l : JzqList} (h : l.Small) : (l.getRSEQ a n true).2.Small := by
  cases hp : l.getJzq a n with
  | some p =>
    rw [getRSEQ_some l a n hp]
    refine h.modify fun p hle => ?_
    rw [p.RSEQ_confirmed hle]
    omega
  | none =>
    rw [getRSEQ_none l a n hp]
    exact h

theorem Small.getPSEQ {l : JzqList} (h : l.Small) : (l.getPSEQ a n true).2.Small := by
  cases hp : l.getJzq a n with
  | some p =>
    rw [getPSEQ_some l a n hp]
    exact h.modify fun p hle => hle
  | none =>
    rw [getPSEQ_none l a n hp]
    exact h

end

end JzqList

/-! ## What the operations build -/

theorem PRSEQ_setPRSEQ (h : PkgAfnHeader) (v : Nat) : (h.setPRSEQ v).PRSEQ = v % 16 := by
  simp only [PkgAfnHeader.PRSEQ, PkgAfnHeader.setPRSEQ, PkgAfnHeader.setSEQ, UInt8.toNat_ofNat']
  rw [field_mod _ (by decide), field_setField_self _ _ (by decide)]

theorem PRSEQ_lt (h : PkgAfnHeader) : h.PRSEQ < 16 := Nat.mod_lt _ (by decide)

section
variable {w w' : World}

theorem createAck_inv {p : PkgPtr} {data : Option PkgAfnData} {ack : PkgPtr}
    (h : Ends (createAck p data) w ack w') :
    ack.pkg.pAfn.afnHeader.PRSEQ = (w.jzqList.getRSEQ p.pkg.userHeader.A1 p.pkg.userHeader.A2 true).1.toNat % 16 ∧
      w'.jzqList = (w.jzqList.getRSEQ p.pkg.userHeader.A1 p.pkg.userHeader.A2 true).2 := by
  obtain ⟨rfl, rfl⟩ := (ends_createAck w p.pkg p.addr rfl).inj h
  exact ⟨PRSEQ_setPRSEQ _ _, rfl⟩

theorem makeRequest_inv {m_jzq : UInt16 × UInt16} {afnData : PkgAfn} {n : Nat} {sndPkg : PkgPtr}
    (h : Ends (makeRequest m_jzq afnData n) w sndPkg w') :
    sndPkg.pkg.pAfn.afnHeader.PRSEQ = (w.jzqList.getPSEQ m_jzq.1 m_jzq.2 true).1.toNat % 16 ∧
      w'.jzqList = (w.jzqList.getPSEQ m_jzq.1 m_jzq.2 true).2 := by
  cases hd : afnData.pAfnData with
  | some d =>
    obtain ⟨rfl, rfl⟩ := (ends_makeRequest w m_jzq afnData n hd).inj h
    exact ⟨PRSEQ_setPRSEQ _ _, rfl⟩
  | none =>
    have hnull : (requestPkg w.mem m_jzq afnData (w.jzqList.getPSEQ m_jzq.1 m_jzq.2 true).1 n).okPkg.out =
        .error .null := by
      refine Fails.bind ?_ _
      rw [show (requestPkg _ _ _ _ _).setL.pAfn.pAfnData = none from hd]
      exact fails_deref
    unfold makeRequest at h
    obtain ⟨v, w₁, hget, h⟩ := h.of_bind
    cases hget
    obtain ⟨_, w₂, -, h⟩ := h.of_bind
    obtain ⟨pkg, w₃, hok, -⟩ := h.of_bind
    exact nomatch (liftAcc_inv hok).1.symm.trans hnull

theorem requestData_inv {m_jzq : UInt16 × UInt16} {afnData : PkgAfn} {n : Nat} {sndPkg : PkgPtr} {ret : Int}
    {call : AppCall} (h : Ends (requestData m_jzq afnData n) w (sndPkg, ret, call) w') :
    sndPkg.pkg.pAfn.afnHeader.PRSEQ = (w.jzqList.getPSEQ m_jzq.1 m_jzq.2 true).1.toNat % 16 ∧
      w'.jzqList = (w.jzqList.getPSEQ m_jzq.1 m_jzq.2 true).2 := by
  unfold requestData at h
  obtain ⟨snd, w₁, hmake, h⟩ := h.of_bind
  obtain ⟨ret', w₂, hsend, h⟩ := h.of_bind
  obtain ⟨d, w₃, hderef, h⟩ := h.of_bind
  obtain ⟨_, w₄, hdel, h⟩ := h.of_bind
  rw [(liftAcc_inv hderef).2] at hdel
  cases h
  obtain ⟨hseq, hlist⟩ := makeRequest_inv hmake
  refine ⟨hseq, ?_⟩
  obtain ⟨sent, rfl⟩ := sendPkg_inv hsend
  obtain ⟨heap, -, rfl⟩ := delete_inv hdel
  exact hlist

end

/-! ## Runs -/

/-- What has been built for a concentrator: its confirmations since its last login, which had the number
`login`, and its requests since it has a record. -/
structure Tally where
  login : Option Nat
  confirms : List AFNPackage
  requests : List AFNPackage

def Tally.linkChecked (t : Tally) (p : AFNPackage) (ackLst : List PkgPtr) : Tally :=
  let t := if LinkCheck p ∧ p.Fn = 1 then { t with login := some p.pAfn.afnHeader.PRSEQ, confirms := [] } else t
  { t with confirms := t.confirms ++ ackLst.map (·.pkg) }

structure Ledger where
  world : World
  tally : UInt16 × UInt16 → Tally

namespace Ledger

inductive Act
  | linkCheck (reqPkg : PkgPtr)
  | createAck (reqPkg : PkgPtr) (data : Option PkgAfnData)
  | request (m_jzq : UInt16 × UInt16) (afnData : PkgAfn) (n : Nat)
  | loadJzq (db : Tables)
  | close (m_jzq : UInt16 × UInt16)
  | checkConnection
  | outside (tick : UInt32) (mem : AFNPackage)

def address (p : AFNPackage) : UInt16 × UInt16 := (p.userHeader.A1, p.userHeader.A2)

def Act.address : Act → Option (UInt16 × UInt16)
  | .linkCheck reqPkg => some (Ledger.address reqPkg.pkg)
  | .createAck reqPkg _ => some (Ledger.address reqPkg.pkg)
  | .request m_jzq _ _ => some m_jzq
  | .close m_jzq => some m_jzq
  | .loadJzq _ => none
  | .checkConnection => none
  | .outside _ _ => none

def setTally (s : Ledger) (c : UInt16 × UInt16) (t : Tally) : UInt16 × UInt16 → Tally :=
  fun c' => if c' = c then t else s.tally c'

/-- An operation that faults ends the run. -/
def step (s : Ledger) : Act → Option Ledger
  | .linkCheck reqPkg =>
    match AFN02.handleRequest [reqPkg] [] s.world with
    | .ok r w =>
      let c := address reqPkg.pkg
      some ⟨w, s.setTally c ((s.tally c).linkChecked reqPkg.pkg r.2)⟩
    | .error _ _ => none
  | .createAck reqPkg data =>
    match AFNPackageBuilder.createAck reqPkg data s.world with
    | .ok ack w =>
      let c := address reqPkg.pkg
      some ⟨w, s.setTally c { s.tally c with confirms := (s.tally c).confirms ++ [ack.pkg] }⟩
    | .error _ _ => none
  | .request c afnData n =>
    match requestData c afnData n s.world with
    | .ok r w =>
      let requests := (s.tally c).requests
      some ⟨w, s.setTally c { s.tally c with
        requests := if (s.world.jzqList.getJzq c.1 c.2).isSome then requests ++ [r.1.pkg] else requests }⟩
    | .error _ _ => none
  | .loadJzq db => some { s with world := { s.world with jzqList := s.world.jzqList.loadJzq db } }
  | .close c =>
    some { s with world := { s.world with jzqList := s.world.jzqList.delConnection s.world.tick c.1 c.2 } }
  | .checkConnection =>
    some { s with world := { s.world with jzqList := s.world.jzqList.checkConnection s.world.tick } }
  | .outside tick mem => some { s with world := { s.world with tick := tick, mem := mem } }

def start (world : World) : Ledger :=
  ⟨{ world with jzqList := ⟨[], 1⟩ }, fun _ => ⟨none, [], []⟩⟩

structure Numbered (s : Ledger) : Prop where
  confirms : ∀ c p, (s.tally c).login = some p → ∀ i q, (s.tally c).confirms[i]? = some q →
    q.pAfn.afnHeader.PRSEQ = (p + i) % 16
  requests : ∀ c k q, (s.tally c).requests[k]? = some q → q.pAfn.afnHeader.PRSEQ = k % 16
  small : s.world.jzqList.Small

def Apart (s : Ledger) (act : Act) (s' : Ledger) : Prop :=
  ∀ a n p, act.address ≠ some (a, n) → s.world.jzqList.getJzq a n = some p →
    ∃ p', s'.world.jzqList.getJzq a n = some p' ∧ p'.m_RSEQ = p.m_RSEQ ∧ p'.m_PFC = p.m_PFC

/-! ## The invariant -/

structure Sound (l : JzqList) (a n : UInt16) (t : Tally) : Prop where
  login : ∀ p, t.login = some p → ∃ c, l.getJzq a n = some c ∧ c.m_RSEQ.toNat = (p + t.confirms.length) % 16
  confirms : ∀ p, t.login = some p → ∀ i q, t.confirms[i]? = some q → q.pAfn.afnHeader.PRSEQ = (p + i) % 16
  counted : ∀ c, l.getJzq a n = some c → c.m_PFC.toNat = t.requests.length % 256
  unknown : l.getJzq a n = none → t.requests = []
  requests : ∀ k q, t.requests[k]? = some q → q.pAfn.afnHeader.PRSEQ = k % 16

theorem getElem?_concat {x y : AFNPackage} {i : Nat} {xs : List AFNPackage} (h : (xs ++ [x])[i]? = some y) :
    xs[i]? = some y ∨ i = xs.length ∧ y = x := by
  by_cases hi : i < xs.length
  · rw [List.getElem?_append_left hi] at h
    exact .inl h
  · rw [List.getElem?_append_right (Nat.le_of_not_lt hi)] at h
    obtain ⟨hlt, hy⟩ := List.getElem?_eq_some_iff.mp h
    rw [List.length_singleton] at hlt
    have heq : i = xs.length := by omega
    rw [heq, Nat.sub_self] at h
    cases h
    exact .inr ⟨heq, rfl⟩

section
variable {l l' : JzqList} {a n : UInt16} {t : Tally} (h : Sound l a n t)
include h

theorem Sound.keeps (hk : l.Keeps l' a n) : Sound l' a n t := by
  unfold JzqList.Keeps at hk
  cases hg : l.getJzq a n with
  | some c =>
    rw [hg] at hk
    obtain ⟨c', hc', hr, hf⟩ := hk
    refine ⟨fun p hp => ?_, h.confirms, fun c'' hc'' => ?_, fun hnone => ?_, h.requests⟩
    · obtain ⟨c₀, hc₀, hseq⟩ := h.login p hp
      cases hg.symm.trans hc₀
      exact ⟨c', hc', by rw [hr]; exact hseq⟩
    · cases hc'.symm.trans hc''
      rw [hf]
      exact h.counted c hg
    · cases hc'.symm.trans hnone
  | none =>
    rw [hg] at hk
    refine ⟨fun p hp => ?_, h.confirms, fun c' hc' => ?_, fun _ => h.unknown hg, h.requests⟩
    · obtain ⟨c₀, hc₀, -⟩ := h.login p hp
      cases hg.symm.trans hc₀
    · rw [hk c' hc', h.unknown hg]
      rfl

theorem Sound.logged (tick : UInt32) {p : Nat} (hp : p < 16) :
    Sound (l.reportLoginState tick a n 1 (UInt8.ofNat p) true) a n { t with login := some p, confirms := [] } := by
  obtain ⟨c', hc', hseq, hold, hnew⟩ := JzqList.report_counters tick 1 (UInt8.ofNat p) l a n
  refine ⟨fun p' hp' => ?_, fun _ _ i q hq => (nomatch hq), fun c hc => ?_, fun hnone => ?_, h.requests⟩
  · cases hp'
    refine ⟨c', hc', ?_⟩
    have hbyte : p < 2 ^ 8 := Nat.lt_of_lt_of_le hp (by decide)
    rw [hseq rfl, UInt8.toNat_ofNat', List.length_nil, Nat.add_zero, Nat.mod_eq_of_lt hp, Nat.mod_eq_of_lt hbyte]
  · cases hc'.symm.trans hc
    cases hg : l.getJzq a n with
    | some c₀ =>
      rw [hold c₀ hg]
      exact h.counted c₀ hg
    | none =>
      rw [hnew hg, h.unknown hg]
      rfl
  · cases hc'.symm.trans hnone

theorem Sound.confirmed (hs : l.Small) {q : AFNPackage}
    (hq : q.pAfn.afnHeader.PRSEQ = (l.getRSEQ a n true).1.toNat % 16) :
    Sound (l.getRSEQ a n true).2 a n { t with confirms := t.confirms ++ [q] } := by
  cases hg : l.getJzq a n with
  | some c =>
    rw [JzqList.getRSEQ_some l a n hg] at hq ⊢
    have hg' : (l.modify a n Jzq.confirmed).getJzq a n = some c.confirmed := by
      rw [JzqList.getJzq_modify_self l a n Jzq.at_confirmed, hg, Option.map_some]
    have hseq : ∀ p, t.login = some p → c.m_RSEQ.toNat = (p + t.confirms.length) % 16 := by
      intro p hp
      obtain ⟨c₀, hc₀, hseq⟩ := h.login p hp
      cases hg.symm.trans hc₀
      exact hseq
    refine ⟨fun p hp => ⟨_, hg', ?_⟩, fun p hp i q' hq' => ?_, fun c' hc' => ?_, fun hnone => ?_, h.requests⟩
    · rw [c.RSEQ_confirmed (hs.getJzq hg), hseq p hp, List.length_append, List.length_singleton, Nat.mod_add_mod,
        Nat.add_assoc]
    · rcases getElem?_concat hq' with hq' | ⟨rfl, rfl⟩
      · exact h.confirms p hp i q' hq'
      · rw [hq, hseq p hp, Nat.mod_mod]
    · cases hg'.symm.trans hc'
      exact h.counted c hg
    · cases hg'.symm.trans hnone
  | none =>
    rw [JzqList.getRSEQ_none l a n hg]
    have hlogin : ∀ {p}, t.login ≠ some p := by
      intro p hp
      obtain ⟨c₀, hc₀, -⟩ := h.login p hp
      cases hg.symm.trans hc₀
    exact ⟨fun p hp => absurd hp hlogin, fun p hp => absurd hp hlogin, h.counted, h.unknown, h.requests⟩

theorem Sound.requested {q : AFNPackage} (hq : q.pAfn.afnHeader.PRSEQ = (l.getPSEQ a n true).1.toNat % 16) :
    Sound (l.getPSEQ a n true).2 a n
      { t with requests := if (l.getJzq a n).isSome then t.requests ++ [q] else t.requests } := by
  cases hg : l.getJzq a n with
  | some c =>
    rw [JzqList.getPSEQ_some l a n hg] at hq ⊢
    have hg' : (l.modify a n Jzq.requested).getJzq a n = some c.requested := by
      rw [JzqList.getJzq_modify_self l a n Jzq.at_requested, hg, Option.map_some]
    simp only [Option.isSome_some, if_true]
    refine ⟨fun p hp => ?_, h.confirms, fun c' hc' => ?_, fun hnone => ?_, fun k q' hq' => ?_⟩
    · obtain ⟨c₀, hc₀, hseq⟩ := h.login p hp
      cases hg.symm.trans hc₀
      exact ⟨_, hg', hseq⟩
    · cases hg'.symm.trans hc'
      rw [c.PFC_requested, h.counted c hg, List.length_append, List.length_singleton, Nat.mod_add_mod]
    · cases hg'.symm.trans hnone
    · rcases getElem?_concat hq' with hq' | ⟨rfl, rfl⟩
      · exact h.requests k q' hq'
      · rw [hq, Jzq.low_bits, h.counted c hg, Nat.mod_mod, Nat.mod_mod_of_dvd _ (by decide)]
  | none =>
    rw [JzqList.getPSEQ_none l a n hg]
    exact h

end

structure Inv (s : Ledger) : Prop where
  sound : ∀ a n, Sound s.world.jzqList a n (s.tally (a, n))
  small : s.world.jzqList.Small

theorem inv_start (world : World) : (start world).Inv := by
  refine ⟨fun a n => ⟨fun p hp => ?_, fun p hp => ?_, fun c hc => ?_, fun _ => rfl, fun k q hq => ?_⟩, ?_⟩
  · cases hp
  · cases hp
  · cases hc
  · cases hq
  · exact List.forall_mem_nil _

theorem Inv.numbered {s : Ledger} (h : s.Inv) : s.Numbered :=
  ⟨fun c p hp => (h.sound c.1 c.2).confirms p hp, fun c => (h.sound c.1 c.2).requests, h.small⟩

theorem setTally_self (s : Ledger) (c : UInt16 × UInt16) (t : Tally) : s.setTally c t c = t := if_pos rfl

theorem setTally_ne (s : Ledger) {c c' : UInt16 × UInt16} (t : Tally) (h : c' ≠ c) :
    s.setTally c t c' = s.tally c' := if_neg h

section
variable {s s' : Ledger} {act : Act}

theorem step_linkCheck {p : PkgPtr} (hs : s.step (.linkCheck p) = some s') :
    ∃ ret ackLst w, Ends (AFN02.handleRequest [p] []) s.world (ret, ackLst) w ∧
      s' = ⟨w, s.setTally (address p.pkg) ((s.tally (address p.pkg)).linkChecked p.pkg ackLst)⟩ := by
  simp only [step] at hs
  split at hs
  next r w hr => exact ⟨r.1, r.2, w, hr, (Option.some.inj hs).symm⟩
  next => cases hs

theorem step_createAck {p : PkgPtr} {data : Option PkgAfnData} (hs : s.step (.createAck p data) = some s') :
    ∃ ack w, Ends (AFNPackageBuilder.createAck p data) s.world ack w ∧
      s' = ⟨w, s.setTally (address p.pkg) { s.tally (address p.pkg) with
        confirms := (s.tally (address p.pkg)).confirms ++ [ack.pkg] }⟩ := by
  simp only [step] at hs
  split at hs
  next ack w hack => exact ⟨ack, w, hack, (Option.some.inj hs).symm⟩
  next => cases hs

theorem step_request {c : UInt16 × UInt16} {afnData : PkgAfn} {n : Nat}
    (hs : s.step (.request c afnData n) = some s') :
    ∃ sndPkg ret call w, Ends (requestData c afnData n) s.world (sndPkg, ret, call) w ∧
      s' = ⟨w, s.setTally c { s.tally c with
        requests := if (s.world.jzqList.getJzq c.1 c.2).isSome then (s.tally c).requests ++ [sndPkg.pkg]
          else (s.tally c).requests }⟩ := by
  simp only [step] at hs
  split at hs
  next r w hr => exact ⟨r.1, r.2.1, r.2.2, w, hr, (Option.some.inj hs).symm⟩
  next => cases hs

theorem Inv.update (h : s.Inv) {w : World} {a n : UInt16} {t : Tally} (hself : Sound w.jzqList a n t)
    (hne : ∀ a' n', (a', n') ≠ (a, n) → s.world.jzqList.Keeps w.jzqList a' n') (hsmall : w.jzqList.Small) :
    Inv ⟨w, s.setTally (a, n) t⟩ := by
  refine ⟨fun a' n' => ?_, hsmall⟩
  by_cases heq : (a', n') = (a, n)
  · cases heq
    simp only [setTally_self]
    exact hself
  · simp only [setTally_ne s t heq]
    exact (h.sound a' n').keeps (hne a' n' heq)

theorem keeps_step (hs : s.step act = some s') {a n : UInt16} (hne : act.address ≠ some (a, n)) :
    s.world.jzqList.Keeps s'.world.jzqList a n := by
  have hne' : ∀ {a' n'}, act.address = some (a', n') → (a, n) ≠ (a', n') := by
    rintro a' n' hact heq
    rw [hact, heq] at hne
    exact hne rfl
  cases act with
  | linkCheck reqPkg =>
    have hne' := hne' rfl
    obtain ⟨ret, ackLst, w, hr, rfl⟩ := step_linkCheck hs
    rcases AFN02.handleRequest_inv hr with ⟨-, -, rfl⟩ | ⟨-, v, hlist, -, hrest⟩
    · exact JzqList.keeps_of_eq rfl
    have hreport : s.world.jzqList.Keeps v.jzqList a n := by
      rw [hlist]
      exact JzqList.keeps_of_eq (JzqList.getJzq_report_ne _ _ _ _ _ _ hne')
    rcases hrest with ⟨-, rfl⟩ | ⟨data, ack, -, -, hack⟩
    · exact hreport
    · apply hreport.trans
      rw [(createAck_inv hack).2]
      exact JzqList.keeps_getRSEQ _ _ _ hne'
  | createAck reqPkg data =>
    obtain ⟨ack, w, hack, rfl⟩ := step_createAck hs
    rw [(createAck_inv hack).2]
    exact JzqList.keeps_getRSEQ _ _ _ (hne' rfl)
  | request c afnData m =>
    obtain ⟨sndPkg, ret, call, w, hr, rfl⟩ := step_request hs
    rw [(requestData_inv hr).2]
    exact JzqList.keeps_getPSEQ _ _ _ (hne' rfl)
  | loadJzq db =>
    cases hs
    exact JzqList.keeps_load _ db a n
  | close c =>
    cases hs
    exact JzqList.keeps_del _ _ c.1 c.2 a n
  | checkConnection =>
    cases hs
    exact JzqList.keeps_check _ _ a n
  | outside tick mem =>
    cases hs
    exact JzqList.keeps_of_eq rfl

theorem apart_step (hs : s.step act = some s') : Apart s act s' := by
  intro a n p hne hp
  have hk := keeps_step hs hne
  unfold JzqList.Keeps at hk
  rw [hp] at hk
  exact hk

theorem Inv.of_keeps (h : s.Inv) (htally : s'.tally = s.tally) (hsmall : s'.world.jzqList.Small)
    (hk : ∀ a n, s.world.jzqList.Keeps s'.world.jzqList a n) : s'.Inv := by
  refine ⟨fun a n => ?_, hsmall⟩
  rw [htally]
  exact (h.sound a n).keeps (hk a n)

theorem Inv.linkChecked (h : s.Inv) {p : PkgPtr} {ret : Int} {ackLst : List PkgPtr} {w : World}
    (hr : Ends (AFN02.handleRequest [p] []) s.world (ret, ackLst) w) :
    Sound w.jzqList p.pkg.userHeader.A1 p.pkg.userHeader.A2
      ((s.tally (address p.pkg)).linkChecked p.pkg ackLst) ∧ w.jzqList.Small := by
  have hsound := h.sound p.pkg.userHeader.A1 p.pkg.userHeader.A2
  rcases AFN02.handleRequest_inv hr with ⟨hlink, rfl, rfl⟩ | ⟨hlink, v, hlist, -, hrest⟩
  · have hnot : ¬ (LinkCheck p.pkg ∧ p.pkg.Fn = 1) := fun h' => hlink h'.1
    simp only [Tally.linkChecked, hnot, if_false, List.map_nil, List.append_nil]
    exact ⟨hsound, h.small⟩
  have hlt := PRSEQ_lt p.pkg.pAfn.afnHeader
  have hsmall : v.jzqList.Small := by
    rw [hlist]
    apply h.small.report
    rw [UInt8.toNat_ofNat']
    omega
  have hlogged : Sound v.jzqList p.pkg.userHeader.A1 p.pkg.userHeader.A2
      ((s.tally (address p.pkg)).linkChecked p.pkg []) := by
    simp only [Tally.linkChecked, List.map_nil, List.append_nil]
    by_cases hFn : p.pkg.Fn = 1
    · have hlogin : LinkCheck p.pkg ∧ p.pkg.Fn = 1 := ⟨hlink, hFn⟩
      rw [if_pos hlogin, hlist, hFn]
      exact hsound.logged s.world.tick hlt
    · have hnot : ¬ (LinkCheck p.pkg ∧ p.pkg.Fn = 1) := fun h' => hFn h'.2
      rw [hlist, if_neg hnot]
      exact hsound.keeps (JzqList.keeps_report _ _ _ _ _ _ hFn)
  rcases hrest with ⟨rfl, rfl⟩ | ⟨data, ack, rfl, -, hack⟩
  · exact ⟨hlogged, hsmall⟩
  · obtain ⟨hseq, hlist'⟩ := createAck_inv hack
    have hconfirmed := hlogged.confirmed hsmall hseq
    rw [hlist']
    refine ⟨?_, hsmall.getRSEQ _ _⟩
    simp only [Tally.linkChecked, List.map_nil, List.append_nil, List.map_cons] at hconfirmed ⊢
    exact hconfirmed

theorem Inv.step (h : s.Inv) (hs : s.step act = some s') : s'.Inv := by
  have hk : ∀ a n, act.address ≠ some (a, n) → s.world.jzqList.Keeps s'.world.jzqList a n :=
    fun a n hne => keeps_step hs hne
  cases act with
  | linkCheck reqPkg =>
    obtain ⟨ret, ackLst, w, hr, rfl⟩ := step_linkCheck hs
    obtain ⟨hsound, hsmall⟩ := h.linkChecked hr
    exact h.update hsound (fun a n hne => hk a n fun heq => hne (Option.some.inj heq).symm) hsmall
  | createAck reqPkg data =>
    obtain ⟨ack, w, hack, rfl⟩ := step_createAck hs
    obtain ⟨hseq, hlist⟩ := createAck_inv hack
    refine h.update ?_ (fun a n hne => hk a n fun heq => hne (Option.some.inj heq).symm) ?_
    · rw [hlist]
      exact (h.sound _ _).confirmed h.small hseq
    · rw [hlist]
      exact h.small.getRSEQ _ _
  | request c afnData m =>
    obtain ⟨sndPkg, ret, call, w, hr, rfl⟩ := step_request hs
    obtain ⟨hseq, hlist⟩ := requestData_inv hr
    refine h.update ?_ (fun a n hne => hk a n fun heq => hne (Option.some.inj heq).symm) ?_
    · rw [hlist]
      exact (h.sound _ _).requested hseq
    · rw [hlist]
      exact h.small.getPSEQ _ _
  | loadJzq db =>
    cases hs
    exact h.of_keeps rfl (h.small.load db) fun a n => hk a n nofun
  | close c =>
    cases hs
    exact h.of_keeps rfl (h.small.del _ _ _) fun a n => JzqList.keeps_del _ _ c.1 c.2 a n
  | checkConnection =>
    cases hs
    exact h.of_keeps rfl (h.small.check _) fun a n => hk a n nofun
  | outside tick mem =>
    cases hs
    exact h.of_keeps rfl h.small fun a n => hk a n nofun

end

/-- **In every run the confirmations of a concentrator go on from the number of its last login, its requests
from 0, and no operation on another address has a part in it.** -/
theorem numbered_throughout (world : World) (acts : List Act) :
    Run.Throughout step Numbered (start world) acts ∧ Run.Each step Apart (start world) acts := by
  constructor
  · exact Run.throughout_of (I := Inv) (fun hI => hI.numbered) (fun hI hs => hI.step hs) (inv_start world)
  · exact Run.each_intro apart_step

end Ledger

end Afn
