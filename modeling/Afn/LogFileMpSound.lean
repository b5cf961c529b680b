import Afn.LogFileMp
import Afn.Run

/-!
# One writer of the log

How often a thread holds the mutex of the log, what it has added to the counter of its process, and whether it has
taken the semaphore follow from where it is. In a process only the thread that holds the mutex of the log is past it,
so that the counter is that of this thread.
-/

namespace Afn.LogFileMp

open Semaphore

/-! ## One thread -/

def Thread.held (th : Thread) : Nat :=
  match th.place with
  | .outside | .locking => th.depth
  | _ => th.depth + 1

def Thread.count (th : Thread) : Nat :=
  match th.place with
  | .counted .Lock _ | .operating .Lock _ | .entering .Unlock | .counting .Unlock => th.depth + 1
  | _ => th.depth

-- between the call of `Unlock` and its `semop`
def Thread.unlocking (th : Thread) : Bool :=
  match th.place with
  | .entering .Unlock | .counting .Unlock | .counted .Unlock _ | .operating .Unlock _ => true
  | _ => false

def Thread.taken (th : Thread) : Nat := if 0 < th.depth ∨ th.unlocking then 1 else 0

def Thread.Ok (th : Thread) : Prop :=
  th.depth ≤ 65536 ∧
    match th.place with
    | .entering .Unlock | .counting .Unlock => th.depth < 65536
    | .counted .Lock sops => sops = if th.depth % 65536 = 0 then some [⟨0, -1⟩] else none
    | .counted .Unlock sops => sops = if th.depth = 0 then some [⟨0, 1⟩] else none
    | .operating .Lock sops => sops = [⟨0, -1⟩] ∧ th.depth % 65536 = 0
    | .operating .Unlock sops => sops = [⟨0, 1⟩] ∧ th.depth = 0
    | _ => True

-- between the return of its outermost `Lock` and the return of the matching `Unlock`
def Thread.Inside (th : Thread) : Prop := 0 < th.depth ∨ th.unlocking = true ∨ th.place = .releasing

section
variable {P T : Type} [DecidableEq P] [DecidableEq T] [Fintype T] {home : T → P} {s s' : System P T} {t : T}

structure Inv (home : T → P) (s : System P T) : Prop where
  thread : ∀ t, (s.thr t).Ok
  mutex : ∀ t p, (s.prc p).FMutex.held t = if home t = p then (s.thr t).held else 0
  counter : ∀ t, 0 < (s.thr t).held → ((s.prc (home t)).sync.FFlag 0).toNat = (s.thr t).count % 65536
  idle : ∀ p, (∀ t, home t = p → (s.thr t).held = 0) → (s.prc p).sync.FFlag 0 = 0
  semaphore : s.sem 0 + ∑ t, (s.thr t).taken = 1

theorem Inv.holder {u : T} (h : Inv home s) (ht : 0 < (s.thr t).held) (hu : 0 < (s.thr u).held)
    (hhome : home u = home t) : u = t := by
  refine Mutex.held_unique (m := (s.prc (home t)).FMutex) ?_ ?_
  · rw [h.mutex, if_pos hhome]
    exact hu
  · rw [h.mutex, if_pos rfl]
    exact ht

theorem Inv.holding {th : Thread} (h : Inv home s) (hth : s.thr t = th) (hpos : 0 < th.held) :
    th.Ok ∧ (s.prc (home t)).FMutex.held t = th.held ∧
      ((s.prc (home t)).sync.FFlag 0).toNat = th.count % 65536 := by
  subst hth
  exact ⟨h.thread t, (h.mutex t (home t)).trans (if_pos rfl), h.counter t hpos⟩

structure Moves (home : T → P) (s : System P T) (t : T) (th : Thread) (q : Process T) (sem : Nat → Nat) : Prop where
  ok : th.Ok
  mutex : q.FMutex.held t = th.held ∧ ∀ u, u ≠ t → q.FMutex.held u = (s.prc (home t)).FMutex.held u
  counter : 0 < th.held → (q.sync.FFlag 0).toNat = th.count % 65536
  idle : th.held = 0 → (∀ u, home u = home t → u ≠ t → (s.thr u).held = 0) → q.sync.FFlag 0 = 0
  others : q.sync.FFlag 0 = (s.prc (home t)).sync.FFlag 0 ∨ 0 < (s.thr t).held
  semaphore : sem 0 + th.taken = s.sem 0 + (s.thr t).taken

theorem inv_moves {th : Thread} {q : Process T} {sem : Nat → Nat} (h : Inv home s) (hm : Moves home s t th q sem) :
    Inv home (({ s with sem := sem }.setProcess (home t) q).setThread t th) := by
  have hthr : ∀ u, u ≠ t → (({ s with sem := sem }.setProcess (home t) q).setThread t th).thr u = s.thr u :=
    fun u hu => Function.update_of_ne hu _ _
  have hself : (({ s with sem := sem }.setProcess (home t) q).setThread t th).thr t = th := Function.update_self ..
  have hprc : ∀ p, p ≠ home t →
      (({ s with sem := sem }.setProcess (home t) q).setThread t th).prc p = s.prc p :=
    fun p hp => Function.update_of_ne hp _ _
  have hhome : (({ s with sem := sem }.setProcess (home t) q).setThread t th).prc (home t) = q :=
    Function.update_self ..
  refine ⟨fun u => ?_, fun u p => ?_, fun u hu => ?_, fun p hp => ?_, ?_⟩
  · by_cases hu : u = t
    · rw [hu, hself]
      exact hm.ok
    · rw [hthr u hu]
      exact h.thread u
  · by_cases hp : p = home t
    · rw [hp, hhome]
      by_cases hu : u = t
      · rw [hu, hself, if_pos rfl]
        exact hm.mutex.1
      · rw [hthr u hu, hm.mutex.2 u hu]
        exact h.mutex u (home t)
    · rw [hprc p hp, h.mutex]
      by_cases hu : u = t
      · rw [hu, if_neg (Ne.symm hp), if_neg (Ne.symm hp)]
      · rw [hthr u hu]
  · by_cases hut : u = t
    · rw [hut, hself] at hu ⊢
      rw [hhome]
      exact hm.counter hu
    · rw [hthr u hut] at hu ⊢
      by_cases hp : home u = home t
      · rw [hp, hhome]
        rcases hm.others with hsame | hheld
        · rw [hsame, ← hp]
          exact h.counter u hu
        · exact absurd (h.holder hheld hu hp) hut
      · rw [hprc _ hp]
        exact h.counter u hu
  · by_cases hpt : p = home t
    · rw [hpt, hhome]
      refine hm.idle ?_ fun u hu hut => ?_
      · have ht := hp t hpt.symm
        rwa [hself] at ht
      · have hzero := hp u (hu.trans hpt.symm)
        rwa [hthr u hut] at hzero
    · rw [hprc p hpt]
      refine h.idle p fun u hu => ?_
      have hzero := hp u hu
      rwa [hthr u (fun hut => hpt (hut ▸ hu.symm))] at hzero
  · have hsum := sum_change (f := fun u => (s.thr u).taken)
      (g := fun u => ((({ s with sem := sem }.setProcess (home t) q).setThread t th).thr u).taken) (p := t)
      fun u hu => by rw [hthr u hu]
    have hsem := hm.semaphore
    have hbefore := h.semaphore
    simp only [hself] at hsum
    show sem 0 + _ = 1
    omega

theorem inv_still {old th : Thread} {q : Process T} (h : Inv home s) (hth : s.thr t = old) (hok : th.Ok)
    (hmutex : q.FMutex = (s.prc (home t)).FMutex) (hflag : q.sync.FFlag 0 = (s.prc (home t)).sync.FFlag 0)
    (hheld : th.held = old.held) (hcount : th.count = old.count) (htaken : th.taken = old.taken) :
    Inv home ((s.setProcess (home t) q).setThread t th) := by
  subst hth
  suffices hm : Moves home s t th q s.sem from inv_moves h hm
  refine ⟨hok, ⟨?_, fun u _ => by rw [hmutex]⟩, fun hpos => ?_, fun h0 hothers => ?_, Or.inl hflag, by rw [htaken]⟩
  · rw [hmutex, h.mutex, if_pos rfl, hheld]
  · rw [hflag, hcount]
    rw [hheld] at hpos
    exact h.counter t hpos
  · rw [hflag]
    refine h.idle (home t) fun u hu => ?_
    by_cases hut : u = t
    · rw [hut, ← hheld]
      exact h0
    · exact hothers u hu hut

theorem inv_thread {old th : Thread} (h : Inv home s) (hth : s.thr t = old) (hok : th.Ok)
    (hheld : th.held = old.held) (hcount : th.count = old.count) (htaken : th.taken = old.taken) :
    Inv home (s.setThread t th) := by
  have hsame : s.setProcess (home t) (s.prc (home t)) = s := by
    simp only [System.setProcess, Function.update_eq_self]
  rw [← hsame]
  exact inv_still h hth hok rfl rfl hheld hcount htaken

/-! ## Steps -/

theorem inv_call {c : Call} (h : Inv home s) (hs : step home s (.call t c) = some s') : Inv home s' := by
  have hok := h.thread t
  cases hth : s.thr t with
  | mk place depth =>
    rw [hth] at hok
    have hle : depth ≤ 65536 := hok.1
    simp only [step, hth] at hs
    cases place with
    | outside =>
      cases c with
      | Lock =>
        cases hs
        exact inv_thread h hth ⟨hle, trivial⟩ rfl rfl rfl
      | Unlock =>
        by_cases hd : 0 < depth
        · simp only [hd, if_true] at hs
          cases hs
          have hsub : depth - 1 + 1 = depth := Nat.sub_add_cancel hd
          have hlt : depth - 1 < 65536 := by omega
          have hok' : Thread.Ok ⟨.entering .Unlock, depth - 1⟩ := ⟨Nat.le_of_lt hlt, hlt⟩
          refine inv_thread h hth hok' hsub hsub ?_
          simp [Thread.taken, Thread.unlocking, hd]
        · simp only [hd, if_false] at hs
          cases hs
    | _ => cases hs

section
variable {depth : Nat}

theorem inv_locking (h : Inv home s) (hth : s.thr t = ⟨.locking, depth⟩) {m : Mutex T}
    (hm : (s.prc (home t)).FMutex.lock t = some m) :
    Inv home ((s.setProcess (home t) { s.prc (home t) with FMutex := m }).setThread t ⟨.entering .Lock, depth⟩) := by
  have hok := h.thread t
  have hheld := h.mutex t (home t)
  rw [hth] at hok
  rw [hth, if_pos rfl] at hheld
  obtain ⟨hself, hothers⟩ := Mutex.held_lock hm
  suffices hmoves : Moves home s t ⟨.entering .Lock, depth⟩ { s.prc (home t) with FMutex := m } s.sem from
    inv_moves h hmoves
  refine ⟨⟨hok.1, trivial⟩, ⟨by rw [hself, hheld]; rfl, hothers⟩, fun _ => ?_,
    fun h0 => absurd h0 (Nat.succ_ne_zero depth), Or.inl rfl, by rw [hth]; rfl⟩
  cases depth with
  | zero =>
    -- the mutex was free, so that nobody in the process has counted
    have hidle : (s.prc (home t)).sync.FFlag 0 = 0 := by
      refine h.idle (home t) fun u hu => ?_
      by_cases hut : u = t
      · rw [hut, hth]
        rfl
      · have hzero := Mutex.held_of_lock hm hut
        rwa [h.mutex, if_pos hu] at hzero
    show ((s.prc (home t)).sync.FFlag 0).toNat = 0 % 65536
    rw [hidle]
    rfl
  | succ depth =>
    have hcounter := h.counter t (by rw [hth]; exact Nat.succ_pos depth)
    rw [hth] at hcounter
    exact hcounter

theorem inv_counting {c : Call} (h : Inv home s) (hth : s.thr t = ⟨.counting c, depth⟩) :
    Inv home ((s.setProcess (home t) { s.prc (home t) with sync := (critical (s.prc (home t)).sync c).1 }).setThread t
      ⟨.counted c (critical (s.prc (home t)).sync c).2, depth⟩) := by
  obtain ⟨hok, hheld, hcounter⟩ := h.holding hth (Nat.succ_pos depth)
  have hpos : 0 < (s.thr t).held := by
    rw [hth]
    exact Nat.succ_pos depth
  have hle : depth ≤ 65536 := hok.1
  generalize hsync : (s.prc (home t)).sync = sync at hcounter
  suffices hmoves : Moves home s t ⟨.counted c (critical sync c).2, depth⟩
      { s.prc (home t) with sync := (critical sync c).1 } s.sem from inv_moves h hmoves
  cases c with
  | Lock =>
    have hflag : (critical sync .Lock).1.FFlag 0 = sync.FFlag 0 + 1 :=
      Function.update_self (0 : Nat) _ sync.FFlag
    have hsops : (critical sync .Lock).2 = if sync.FFlag 0 + 1 == 1 then some [⟨0, -1⟩] else none := rfl
    have hzero : (sync.FFlag 0).toNat = depth % 65536 := hcounter
    refine ⟨⟨hle, ?_⟩, ⟨hheld, fun _ _ => rfl⟩, fun _ => ?_, fun h0 => absurd h0 (Nat.succ_ne_zero depth),
      Or.inr hpos, by rw [hth]; rfl⟩
    · show (critical sync .Lock).2 = if depth % 65536 = 0 then some [⟨0, -1⟩] else none
      simp only [hsops, TYQPrcSync.up_first, hzero]
    · show ((critical sync .Lock).1.FFlag 0).toNat = (depth + 1) % 65536
      rw [hflag, TYQPrcSync.toNat_up, hzero]
      omega
  | Unlock =>
    have hflag : (critical sync .Unlock).1.FFlag 0 = sync.FFlag 0 - 1 :=
      Function.update_self (0 : Nat) _ sync.FFlag
    have hsops : (critical sync .Unlock).2 = if sync.FFlag 0 - 1 == 0 then some [⟨0, 1⟩] else none := rfl
    have hone : (sync.FFlag 0).toNat = (depth + 1) % 65536 := hcounter
    have hlt : depth < 65536 := hok.2
    have hlast : (depth + 1) % 65536 = 1 ↔ depth = 0 := by omega
    refine ⟨⟨hle, ?_⟩, ⟨hheld, fun _ _ => rfl⟩, fun _ => ?_, fun h0 => absurd h0 (Nat.succ_ne_zero depth),
      Or.inr hpos, by rw [hth]; rfl⟩
    · show (critical sync .Unlock).2 = if depth = 0 then some [⟨0, 1⟩] else none
      simp only [hsops, TYQPrcSync.down_last, hone, hlast]
    · show ((critical sync .Unlock).1.FFlag 0).toNat = depth % 65536
      rw [hflag, TYQPrcSync.toNat_down, hone]
      omega

def resume (depth : Nat) (c : Call) : Option (List Sembuf) → Thread
  | none => done depth c
  | some sops => ⟨.operating c sops, depth⟩

theorem inv_counted {c : Call} {sops : Option (List Sembuf)} (h : Inv home s)
    (hth : s.thr t = ⟨.counted c sops, depth⟩) (m : Mutex T) :
    Inv home ((s.setProcess (home t) { s.prc (home t) with syncMutex := m }).setThread t (resume depth c sops)) := by
  have hok := h.thread t
  rw [hth] at hok
  have hle : depth ≤ 65536 := hok.1
  cases c with
  | Lock =>
    by_cases hfirst : depth % 65536 = 0
    · obtain rfl : sops = some [⟨0, -1⟩] := hok.2.trans (if_pos hfirst)
      exact inv_still h hth ⟨hle, rfl, hfirst⟩ rfl rfl rfl rfl rfl
    · obtain rfl : sops = none := hok.2.trans (if_neg hfirst)
      have hpos : 0 < depth := Nat.pos_of_ne_zero fun h0 => hfirst (by rw [h0])
      have hlt : depth + 1 ≤ 65536 := by omega
      refine inv_still h hth ⟨hlt, trivial⟩ rfl rfl rfl rfl ?_
      simp [Thread.taken, resume, done, hpos]
  | Unlock =>
    by_cases hlast : depth = 0
    · obtain rfl : sops = some [⟨0, 1⟩] := hok.2.trans (if_pos hlast)
      exact inv_still h hth ⟨hle, rfl, hlast⟩ rfl rfl rfl rfl rfl
    · obtain rfl : sops = none := hok.2.trans (if_neg hlast)
      have hpos : 0 < depth := Nat.pos_of_ne_zero hlast
      refine inv_still h hth ⟨hle, trivial⟩ rfl rfl rfl rfl ?_
      simp [Thread.taken, resume, done, hpos]

theorem inv_operating {c : Call} {sops : List Sembuf} {sem : Nat → Nat} (h : Inv home s)
    (hth : s.thr t = ⟨.operating c sops, depth⟩) (hsem : semop sops s.sem = some sem) :
    Inv home ({ s with sem := sem }.setThread t (done depth c)) := by
  obtain ⟨hok, hheld, hcounter⟩ := h.holding hth (Nat.succ_pos depth)
  have htaken : (s.thr t).taken ≤ ∑ u, (s.thr u).taken := le_sum (fun u => (s.thr u).taken) t
  have hsemaphore := h.semaphore
  rw [hth] at htaken
  have hsame : ({ s with sem := sem } : System P T).setProcess (home t) (s.prc (home t)) = { s with sem := sem } := by
    simp only [System.setProcess, Function.update_eq_self]
  rw [← hsame]
  suffices hmoves : Moves home s t (done depth c) (s.prc (home t)) sem from inv_moves h hmoves
  cases c with
  | Lock =>
    obtain ⟨rfl, -⟩ := hok.2
    obtain ⟨hup, hsem⟩ := semop_down.mp hsem
    obtain rfl := semop_nil.mp hsem
    -- a thread that has the semaphore already would wait for itself
    have hdepth : depth = 0 := by
      refine Nat.eq_zero_of_not_pos fun hd => ?_
      have hone : Thread.taken ⟨.operating .Lock [⟨0, -1⟩], depth⟩ = 1 := if_pos (Or.inl hd)
      omega
    subst hdepth
    refine ⟨⟨by decide, trivial⟩, ⟨hheld, fun _ _ => rfl⟩, fun _ => hcounter, fun h0 => absurd h0 (by decide),
      Or.inl rfl, ?_⟩
    rw [hth, Function.update_self]
    show s.sem 0 - 1 + 1 = s.sem 0 + 0
    omega
  | Unlock =>
    obtain ⟨rfl, hdepth⟩ := hok.2
    have hdepth : depth = 0 := hdepth
    subst hdepth
    obtain rfl := semop_nil.mp (semop_up.mp hsem)
    refine ⟨⟨by decide, trivial⟩, ⟨hheld, fun _ _ => rfl⟩, fun _ => hcounter, fun h0 => absurd h0 (by decide),
      Or.inl rfl, ?_⟩
    rw [hth, Function.update_self]
    rfl

theorem inv_releasing (h : Inv home s) (hth : s.thr t = ⟨.releasing, depth⟩) :
    Inv home ((s.setProcess (home t)
      { s.prc (home t) with FMutex := (s.prc (home t)).FMutex.unlock t }).setThread t ⟨.outside, depth⟩) := by
  obtain ⟨hok, hheld, hcounter⟩ := h.holding hth (Nat.succ_pos depth)
  have hheld : (s.prc (home t)).FMutex.held t = depth + 1 := hheld
  obtain ⟨hself, hothers⟩ := Mutex.held_unlock (t := t) (m := (s.prc (home t)).FMutex) (by omega)
  suffices hmoves : Moves home s t ⟨.outside, depth⟩
      { s.prc (home t) with FMutex := (s.prc (home t)).FMutex.unlock t } s.sem from inv_moves h hmoves
  refine ⟨⟨hok.1, trivial⟩, ⟨?_, hothers⟩, fun _ => hcounter, fun h0 _ => ?_, Or.inl rfl, by rw [hth]; rfl⟩
  · show ((s.prc (home t)).FMutex.unlock t).held t = depth
    omega
  · have h0 : depth = 0 := h0
    have hflag : ((s.prc (home t)).sync.FFlag 0).toNat = depth % 65536 := hcounter
    rw [h0] at hflag
    exact UInt16.toNat_inj.mp hflag

end

theorem inv_next (h : Inv home s) (hs : step home s (.next t) = some s') : Inv home s' := by
  have hok := h.thread t
  cases hth : s.thr t with
  | mk place depth =>
    rw [hth] at hok
    have hle : depth ≤ 65536 := hok.1
    simp only [step, next, hth] at hs
    cases place with
    | outside => cases hs
    | locking =>
      obtain ⟨m, hm, hs⟩ := Option.bind_eq_some_iff.mp hs
      cases hs
      exact inv_locking h hth hm
    | entering c =>
      simp only at hs
      by_cases hcount : 0 < (s.prc (home t)).sync.FCriticalCount
      · rw [if_pos hcount] at hs
        obtain ⟨m, hm, hs⟩ := Option.bind_eq_some_iff.mp hs
        cases hs
        cases c with
        | Lock =>
          exact inv_still h hth ⟨hle, trivial⟩ rfl rfl rfl rfl rfl
        | Unlock =>
          exact inv_still h hth ⟨hle, hok.2⟩ rfl rfl rfl rfl rfl
      · rw [if_neg hcount] at hs
        cases hs
    | counting c =>
      cases hs
      exact inv_counting h hth
    | counted c sops =>
      have hcounted := inv_counted h hth ((s.prc (home t)).syncMutex.unlock t)
      cases sops with
      | none =>
        cases hs
        exact hcounted
      | some sops =>
        cases hs
        exact hcounted
    | operating c sops =>
      obtain ⟨sem, hsem, hs⟩ := Option.bind_eq_some_iff.mp hs
      cases hs
      exact inv_operating h hth hsem
    | releasing =>
      cases hs
      exact inv_releasing h hth

/-! ## Runs -/

/-- One thread at most of all processes has the lock, and the semaphore tells whether one has. -/
structure Locked (s : System P T) : Prop where
  unique : ∀ t u, 0 < (s.thr t).depth → 0 < (s.thr u).depth → t = u
  binary : s.sem 0 = 0 ∨ s.sem 0 = 1
  free : (∀ t, ¬(s.thr t).Inside) → s.sem 0 = 1

theorem locked_of_inv (h : Inv home s) : Locked s := by
  have hsemaphore := h.semaphore
  refine ⟨fun t u ht hu => ?_, by omega, fun hfree => ?_⟩
  · by_contra hne
    have hsum : (s.thr t).taken + (s.thr u).taken ≤ ∑ r, (s.thr r).taken :=
      add_le_sum (f := fun r => (s.thr r).taken) hne
    have hone : (s.thr t).taken = 1 := if_pos (Or.inl ht)
    have hone' : (s.thr u).taken = 1 := if_pos (Or.inl hu)
    omega
  · have hzero : ∑ t, (s.thr t).taken = 0 := by
      refine Finset.sum_eq_zero fun t _ => if_neg ?_
      rintro (hd | hunlock)
      · exact hfree t (Or.inl hd)
      · exact hfree t (Or.inr (Or.inl hunlock))
    omega

theorem inv_initial {CriticalCount ReadWriteCount : Nat} {made : TYQPrcSync × (Nat → Nat)}
    (hmade : TYQPrcSync.create CriticalCount ReadWriteCount = some made) (hcritical : 0 < CriticalCount) :
    Inv home (initial made : System P T) := by
  obtain rfl := TYQPrcSync.create_some hmade
  refine ⟨fun t => ⟨Nat.zero_le _, trivial⟩, fun t p => ?_, fun t ht => ?_, fun p _ => rfl, ?_⟩
  · rw [show (initial _ : System P T).thr t = ⟨.outside, 0⟩ from rfl]
    exact (ite_self 0).symm
  · exact absurd ht (Nat.lt_irrefl 0)
  · have hzero : ∑ _t : T, Thread.taken ⟨.outside, 0⟩ = 0 :=
      Finset.sum_eq_zero fun _ _ => if_neg (by simp [Thread.unlocking])
    have hone : (initial (⟨CriticalCount, ReadWriteCount, fun _ => 0⟩,
        fun i => if i < CriticalCount + ReadWriteCount then 1 else 0) : System P T).sem 0 = 1 := if_pos (by omega)
    rw [hone]
    exact congrArg (1 + ·) hzero

/-- **Mutual exclusion of the log**, for the locks that are made with a critical lock. -/
theorem mutual_exclusion (home : T → P) (CriticalCount ReadWriteCount : Nat) {made : TYQPrcSync × (Nat → Nat)}
    (hmade : TYQPrcSync.create CriticalCount ReadWriteCount = some made) (hcritical : 0 < CriticalCount)
    (as : List (Action T)) : Run.Throughout (step home) Locked (initial made : System P T) as := by
  have hinit : Inv home (initial made : System P T) := inv_initial hmade hcritical
  refine Run.throughout_of (I := Inv home) locked_of_inv (fun {s a s'} hinv hs => ?_) hinit
  cases a with
  | call t c => exact inv_call hinv hs
  | next t => exact inv_next hinv hs

end

theorem mutual_exclusion_two : Run.Throughout (step id) Locked
    (initial (⟨1, 0, fun _ => 0⟩, fun i => if i < 1 + 0 then 1 else 0) : System Bool Bool)
    [.call true .Lock, .next true, .next true, .next true, .next true, .next true, .call false .Lock, .next false] :=
  mutual_exclusion id 1 0 rfl (by decide) _

end Afn.LogFileMp
