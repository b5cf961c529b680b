import Afn.Supervisor
import Afn.Run

/-!
# One process, and a process

There is never a second process. The managing process has the one it believes to have in the runs in which `fork`
succeeds and the handler does not come between the two uses of `FMyMg` that belong together; when it has lost it, it
never starts another one.
-/

namespace Afn

/-! ## Waiting -/

theorem waitpid_nil (pid : Int) : waitpid [] pid = some (-1, []) := rfl

theorem waitpid_singleton (c : SubPrc) (pid : Int) :
    waitpid [c] pid =
      if pid = -1 ∨ pid = 0 ∨ c.pid = pid then if c.exited then some (c.pid, []) else none else some (-1, [c]) := by
  by_cases hmine : pid = -1 ∨ pid = 0 ∨ c.pid = pid
  · cases hexited : c.exited with
    | true => simp [waitpid, hmine, hexited]
    | false => simp [waitpid, hmine, hexited]
  · simp [waitpid, hmine]

/-! ## Steps -/

def Pc.uses : Pc → Bool
  | .stored => true
  | .parentRun => true
  | .terminate => true
  | .kill _ => true
  | .wait => true
  | _ => false

def Pc.busy : Pc → Bool
  | .forked _ => true
  | pc => pc.uses

namespace TSvrAdm

variable {s s' : TSvrAdm} {ret : Int}

inductive Moved (s : TSvrAdm) (ret : Int) : TSvrAdm → Prop
  | turn (hpc : s.pc = .top) (h : s.FTerminated = false) : Moved s ret { s with pc := .onRun }
  | finish (hpc : s.pc = .top) (h : s.FTerminated = true) : Moved s ret { s with pc := .afterRun }
  | make (hpc : s.pc = .onRun) (h : s.FMyMg = none) : Moved s ret { s with FMyMg := some 0, pc := .fork }
  | keep {pid : Int} (hpc : s.pc = .onRun) (h : s.FMyMg = some pid) : Moved s ret { s with pc := .top }
  | fail (hpc : s.pc = .fork) (h : ret = -1) : Moved s ret { s with pc := .forked ret }
  | fork (hpc : s.pc = .fork) (h : ret ≠ -1) (hpos : 0 < ret) (hnew : s.hasPid ret = false) :
      Moved s ret { s with children := s.children ++ [⟨ret, false⟩], pc := .forked ret }
  | store {pid FPid : Int} (hpc : s.pc = .forked pid) (h : s.FMyMg = some FPid) :
      Moved s ret { s with FMyMg := some pid, pc := .stored }
  | test {pid : Int} (hpc : s.pc = .stored) (h : s.FMyMg = some pid) :
      Moved s ret { s with pc := if pid < 0 then .top else .parentRun }
  | parentRun {pid : Int} (hpc : s.pc = .parentRun) (h : s.FMyMg = some pid) : Moved s ret { s with pc := .top }
  | none (hpc : s.pc = .afterRun) (h : s.FMyMg = none) : Moved s ret { s with pc := .ended }
  | some {pid : Int} (hpc : s.pc = .afterRun) (h : s.FMyMg = some pid) : Moved s ret { s with pc := .terminate }
  | terminate {pid : Int} (hpc : s.pc = .terminate) (h : s.FMyMg = some pid) : Moved s ret { s with pc := .kill pid }
  | kill {pid : Int} (hpc : s.pc = .kill pid) :
      Moved s ret { s with killed := s.killed ++ [(pid, s.hasPid pid)], pc := .wait }
  | wait {pid : Int} (hpc : s.pc = .wait) (h : s.FMyMg = some pid) : Moved s ret { s with pc := .waiting pid }
  | waited {pid : Int} {r : Int × List SubPrc} (hpc : s.pc = .waiting pid) (h : waitpid s.children pid = some r) :
      Moved s ret { s with children := r.2, pc := .delete }
  | delete (hpc : s.pc = .delete) : Moved s ret { s with pc := .clear }
  | clear (hpc : s.pc = .clear) : Moved s ret { s with FMyMg := none, pc := .ended }
  | fault (hpc : s.pc.busy = true) (h : s.FMyMg = none) : Moved s ret { s with pc := .fault }

theorem main_cases (hs : s.main ret = some s') : Moved s ret s' := by
  unfold main at hs
  split at hs
  next hpc =>
    by_cases h : s.FTerminated = true
    · simp only [if_pos h] at hs
      cases hs
      exact .finish hpc h
    · simp only [if_neg h] at hs
      cases hs
      exact .turn hpc (Bool.eq_false_iff.mpr h)
  next hpc =>
    split at hs
    next h =>
      cases hs
      exact .make hpc h
    next h =>
      cases hs
      exact .keep hpc h
  next hpc =>
    by_cases hfail : ret = -1
    · cases (if_pos hfail).symm.trans hs
      exact .fail hpc hfail
    · have hs := (if_neg hfail).symm.trans hs
      by_cases hnew : 0 < ret ∧ s.hasPid ret = false
      · cases (if_pos hnew).symm.trans hs
        exact .fork hpc hfail hnew.1 hnew.2
      · cases (if_neg hnew).symm.trans hs
  next pid hpc =>
    split at hs
    next h =>
      cases hs
      exact .fault (by rw [hpc]; rfl) h
    next h =>
      cases hs
      exact .store hpc h
  next hpc =>
    split at hs
    next h =>
      cases hs
      exact .fault (by rw [hpc]; rfl) h
    next h =>
      cases hs
      exact .test hpc h
  next hpc =>
    split at hs
    next h =>
      cases hs
      exact .fault (by rw [hpc]; rfl) h
    next h =>
      cases hs
      exact .parentRun hpc h
  next hpc =>
    split at hs
    next h =>
      cases hs
      exact .none hpc h
    next h =>
      cases hs
      exact .some hpc h
  next hpc =>
    split at hs
    next h =>
      cases hs
      exact .fault (by rw [hpc]; rfl) h
    next h =>
      cases hs
      exact .terminate hpc h
  next hpc =>
    cases hs
    exact .kill hpc
  next hpc =>
    split at hs
    next h =>
      cases hs
      exact .fault (by rw [hpc]; rfl) h
    next h =>
      cases hs
      exact .wait hpc h
  next pid hpc =>
    obtain ⟨r, hr, rfl⟩ := Option.map_eq_some_iff.mp hs
    exact .waited hpc hr
  next hpc =>
    cases hs
    exact .delete hpc
  next hpc =>
    cases hs
    exact .clear hpc
  next hpc =>
    cases hs
  next hpc =>
    cases hs

/-! ## One process -/

def Owned (FMyMg : Option Int) (children : List SubPrc) : Pc → Prop
  | .fork => FMyMg = some 0 ∧ children = []
  | .forked ret => FMyMg = some 0 ∧ ∀ c ∈ children, c.pid = ret
  | .waiting pid => ∀ c ∈ children, c.pid = pid
  | .delete => children = []
  | .clear => children = []
  | _ => ∀ c ∈ children, FMyMg = some c.pid

structure Inv (s : TSvrAdm) : Prop where
  pos : ∀ c ∈ s.children, 0 < c.pid
  one : s.children.length ≤ 1
  owned : Owned s.FMyMg s.children s.pc

theorem Inv.singleton (h : s.Inv) {c : SubPrc} {rest : List SubPrc} (hchildren : s.children = c :: rest) :
    rest = [] := by
  have hone := h.one
  rw [hchildren] at hone
  exact List.length_eq_zero_iff.mp (Nat.le_zero.mp (Nat.le_of_succ_le_succ hone))

theorem Inv.wait_cases (h : s.Inv) {r : Int × List SubPrc} (hr : waitpid s.children (-1) = some r) :
    r.2 = [] ∧ (s.children = [] ∧ r.1 = -1 ∨ ∃ c, s.children = [c] ∧ c.exited = true ∧ r.1 = c.pid) := by
  cases hchildren : s.children with
  | nil =>
    rw [hchildren, waitpid_nil] at hr
    cases hr
    exact ⟨rfl, .inl ⟨rfl, rfl⟩⟩
  | cons c rest =>
    obtain rfl := h.singleton hchildren
    rw [hchildren, waitpid_singleton, if_pos (.inl rfl)] at hr
    split at hr
    next hexited =>
      cases hr
      exact ⟨rfl, .inr ⟨c, rfl, hexited, rfl⟩⟩
    next => cases hr

theorem Inv.waited (h : s.Inv) {pid : Int} (hpc : s.pc = .waiting pid) {r : Int × List SubPrc}
    (hr : waitpid s.children pid = some r) : r.2 = [] := by
  have howned := h.owned
  rw [hpc] at howned
  cases hchildren : s.children with
  | nil =>
    rw [hchildren, waitpid_nil] at hr
    cases hr
    rfl
  | cons c rest =>
    obtain rfl := h.singleton hchildren
    rw [hchildren] at howned
    rw [hchildren, waitpid_singleton, if_pos (.inr (.inr (howned c List.mem_cons_self)))] at hr
    split at hr
    next =>
      cases hr
      rfl
    next => cases hr

theorem Inv.of_keep (h : s.Inv) (hchildren : s'.children = s.children)
    (howned : Owned s'.FMyMg s.children s'.pc) : s'.Inv := by
  rw [← hchildren] at howned
  refine ⟨?_, ?_, howned⟩
  · rw [hchildren]
    exact h.pos
  · rw [hchildren]
    exact h.one

theorem Inv.of_nil (hchildren : s'.children = []) (howned : Owned s'.FMyMg [] s'.pc) : s'.Inv := by
  rw [← hchildren] at howned
  refine ⟨?_, ?_, howned⟩
  · rw [hchildren]
    exact fun c hc => absurd hc List.not_mem_nil
  · rw [hchildren]
    exact Nat.zero_le 1

theorem Inv.main (h : s.Inv) (hs : s.main ret = some s') : s'.Inv := by
  have howned := h.owned
  cases main_cases hs with
  | turn hpc => rw [hpc] at howned; exact h.of_keep rfl howned
  | finish hpc => rw [hpc] at howned; exact h.of_keep rfl howned
  | make hpc hnone =>
    rw [hpc] at howned
    have hchildren : s.children = [] := by
      apply List.eq_nil_iff_forall_not_mem.mpr
      intro c hc
      cases hnone.symm.trans (howned c hc)
    exact h.of_keep rfl ⟨rfl, hchildren⟩
  | keep hpc => rw [hpc] at howned; exact h.of_keep rfl howned
  | fail hpc =>
    rw [hpc] at howned
    obtain ⟨hFMyMg, hchildren⟩ := howned
    exact .of_nil hchildren ⟨hFMyMg, fun c hc => absurd hc List.not_mem_nil⟩
  | fork hpc _ hpos =>
    rw [hpc] at howned
    obtain ⟨hFMyMg, hchildren⟩ := howned
    rw [hchildren]
    refine ⟨?_, Nat.le_refl 1, hFMyMg, ?_⟩
    · intro c hc
      rw [List.mem_singleton.mp hc]
      exact hpos
    · intro c hc
      rw [List.mem_singleton.mp hc]
  | store hpc =>
    rw [hpc] at howned
    refine h.of_keep rfl ?_
    intro c hc
    rw [howned.2 c hc]
  | @test pid hpc =>
    rw [hpc] at howned
    refine h.of_keep rfl ?_
    by_cases hneg : pid < 0
    · simp only [if_pos hneg]
      exact howned
    · simp only [if_neg hneg]
      exact howned
  | parentRun hpc => rw [hpc] at howned; exact h.of_keep rfl howned
  | none hpc => rw [hpc] at howned; exact h.of_keep rfl howned
  | some hpc => rw [hpc] at howned; exact h.of_keep rfl howned
  | terminate hpc => rw [hpc] at howned; exact h.of_keep rfl howned
  | kill hpc => rw [hpc] at howned; exact h.of_keep rfl howned
  | wait hpc hsome =>
    rw [hpc] at howned
    refine h.of_keep rfl ?_
    intro c hc
    exact (Option.some.inj (hsome.symm.trans (howned c hc))).symm
  | waited hpc hr => exact .of_nil (h.waited hpc hr) rfl
  | delete hpc => rw [hpc] at howned; exact h.of_keep rfl howned
  | clear hpc =>
    rw [hpc] at howned
    exact .of_nil howned fun c hc => absurd hc List.not_mem_nil
  | fault hpc hnone =>
    refine h.of_keep rfl fun c hc => ?_
    cases hpc₀ : s.pc with
    | forked ret =>
      rw [hpc₀] at howned
      cases hnone.symm.trans howned.1
    | stored | parentRun | terminate | kill | wait =>
      rw [hpc₀] at howned
      exact howned c hc
    | _ =>
      rw [hpc₀] at hpc
      cases hpc

theorem pid_exit {pid : Int} {c : SubPrc}
    (hc : c ∈ s.children.map fun c => if c = ⟨pid, false⟩ then ⟨pid, true⟩ else c) :
    ∃ b ∈ s.children, b.pid = c.pid := by
  obtain ⟨b, hb, rfl⟩ := List.mem_map.mp hc
  refine ⟨b, hb, ?_⟩
  split
  next h => rw [h]
  next => rfl

theorem Owned.nil {FMyMg FMyMg' : Option Int} {pc : Pc} {children : List SubPrc} (h : Owned FMyMg children pc)
    (hfork : pc = .fork ∨ (∃ ret, pc = .forked ret) → FMyMg' = FMyMg) : Owned FMyMg' [] pc := by
  cases pc with
  | fork => exact ⟨(hfork (.inl rfl)).trans h.1, rfl⟩
  | forked ret => exact ⟨(hfork (.inr ⟨ret, rfl⟩)).trans h.1, fun c hc => absurd hc List.not_mem_nil⟩
  | delete => rfl
  | clear => rfl
  | _ => exact fun c hc => absurd hc List.not_mem_nil

theorem Owned.of_pids {FMyMg : Option Int} {pc : Pc} {children children' : List SubPrc}
    (h : Owned FMyMg children pc) (hpids : ∀ c ∈ children', ∃ b ∈ children, b.pid = c.pid) :
    Owned FMyMg children' pc := by
  have hnil (hchildren : children = []) : children' = [] := by
    apply List.eq_nil_iff_forall_not_mem.mpr
    intro c hc
    obtain ⟨b, hb, -⟩ := hpids c hc
    rw [hchildren] at hb
    exact List.not_mem_nil hb
  have hall {P : Int → Prop} (hP : ∀ c ∈ children, P c.pid) : ∀ c ∈ children', P c.pid := by
    intro c hc
    obtain ⟨b, hb, hpid⟩ := hpids c hc
    rw [← hpid]
    exact hP b hb
  cases pc with
  | fork => exact ⟨h.1, hnil h.2⟩
  | forked ret => exact ⟨h.1, hall (P := fun pid => pid = ret) h.2⟩
  | waiting pid => exact hall (P := fun p => p = pid) h
  | delete => exact hnil h
  | clear => exact hnil h
  | _ => exact hall (P := fun pid => FMyMg = some pid) h

/-- What the handler can do. -/
theorem Inv.collect_cases (h : s.Inv) (hs : s.step .collect = some s') :
    s'.children = [] ∧ s'.killed = s.killed ∧
      (s.pc = .clear ∧ s.FMyMg ≠ none ∧ s'.pc = .fault ∨
      (s.pc = .clear → s.FMyMg = none) ∧ s'.pc = s.pc ∧ ∃ SubPid,
        s'.FMyMg = (if s.FMyMg = some SubPid then none else s.FMyMg) ∧
        (s.children = [] ∧ SubPid = -1 ∨ ∃ c, s.children = [c] ∧ c.exited = true ∧ SubPid = c.pid)) := by
  unfold TSvrAdm.step at hs
  simp only at hs
  split at hs
  next =>
    obtain ⟨r, hr, rfl⟩ := Option.map_eq_some_iff.mp hs
    obtain ⟨hnil, hcases⟩ := h.wait_cases hr
    unfold onSignal
    split
    next hclear => exact ⟨hnil, rfl, .inl ⟨hclear.1, Option.isSome_iff_ne_none.mp hclear.2, rfl⟩⟩
    next hclear =>
      refine ⟨hnil, rfl, .inr ⟨fun hpc => ?_, rfl, r.1, rfl, hcases⟩⟩
      exact Option.not_isSome_iff_eq_none.mp fun hsome => hclear ⟨hpc, hsome⟩
  next => cases hs

theorem Inv.collect_other (h : s.Inv) (hs : s.step .collect = some s') (hpc : s.pc ≠ .clear) :
    s'.pc = s.pc ∧ ∃ SubPid, s'.FMyMg = (if s.FMyMg = some SubPid then none else s.FMyMg) ∧
      (s.children = [] ∧ SubPid = -1 ∨ ∃ c, s.children = [c] ∧ c.exited = true ∧ SubPid = c.pid) := by
  obtain ⟨-, -, ⟨hclear, -⟩ | ⟨-, hother⟩⟩ := h.collect_cases hs
  · exact absurd hclear hpc
  · exact hother

theorem Inv.collect_fork (h : s.Inv) (hs : s.step .collect = some s')
    (hfork : s.pc = .fork ∨ ∃ ret, s.pc = .forked ret) : s'.FMyMg = s.FMyMg := by
  have hclear : s.pc ≠ .clear := by
    intro hclear
    rcases hfork with hpc | ⟨ret, hpc⟩
    · cases hclear.symm.trans hpc
    · cases hclear.symm.trans hpc
  obtain ⟨-, SubPid, hFMyMg', hcases⟩ := h.collect_other hs hclear
  have hFMyMg : s.FMyMg = some 0 := by
    have howned := h.owned
    rcases hfork with hpc | ⟨ret, hpc⟩
    · rw [hpc] at howned
      exact howned.1
    · rw [hpc] at howned
      exact howned.1
  have hne : SubPid ≠ 0 := by
    rcases hcases with ⟨-, rfl⟩ | ⟨c, hchildren, -, rfl⟩
    · decide
    · apply Int.ne_of_gt
      apply h.pos
      rw [hchildren]
      exact List.mem_cons_self
  rw [hFMyMg', if_neg]
  rw [hFMyMg]
  exact fun h => hne (Option.some.inj h).symm

theorem Inv.collect (h : s.Inv) (hs : s.step .collect = some s') : s'.Inv := by
  obtain ⟨hnil, -, ⟨-, -, hpc⟩ | ⟨-, hpc, -⟩⟩ := h.collect_cases hs
  · refine .of_nil hnil ?_
    rw [hpc]
    exact fun c hc => absurd hc List.not_mem_nil
  · refine .of_nil hnil ?_
    rw [hpc]
    exact h.owned.nil (h.collect_fork hs)

theorem Inv.step (h : s.Inv) {act : Act} (hs : s.step act = some s') : s'.Inv := by
  cases act with
  | main ret =>
    cases hhandling : s.handling with
    | true => cases (if_pos hhandling).symm.trans hs
    | false => exact h.main ((if_neg (Bool.eq_false_iff.mp hhandling)).symm.trans hs)
  | exit pid =>
    unfold TSvrAdm.step at hs
    simp only at hs
    split at hs
    next =>
      cases hs
      refine ⟨?_, ?_, h.owned.of_pids fun c hc => pid_exit hc⟩
      · intro c hc
        obtain ⟨b, hb, hpid⟩ := pid_exit hc
        rw [← hpid]
        exact h.pos b hb
      · rw [List.length_map]
        exact h.one
    next => cases hs
  | sigchld =>
    cases hs
    exact h.of_keep rfl h.owned
  | sigterm =>
    cases hs
    exact h.of_keep rfl h.owned
  | deliver =>
    unfold TSvrAdm.step at hs
    simp only at hs
    split at hs
    next =>
      cases hs
      exact h.of_keep rfl h.owned
    next => cases hs
  | collect => exact h.collect hs

theorem inv_start : start.Inv :=
  .of_nil rfl fun _ hc => absurd hc List.not_mem_nil

/-- **There is never more than one process.** -/
theorem single_throughout (acts : List Act) : Run.Throughout step (fun s => s.children.length ≤ 1) start acts :=
  Run.throughout_of (I := Inv) (fun h => h.one) (fun h hs => h.step hs) inv_start

/-! ## The process it believes to have -/

def watched (FMyMg : Option Int) : Pc → Option Int
  | .forked ret => some ret
  | .fork => none
  | .kill pid => some pid
  | .delete => none
  | .clear => none
  | _ => FMyMg

/-- The process of `FMyMg` is there to be waited for, `SIGTERM` has been sent to no other one, and no object is used
that is gone. -/
structure Supervised (s : TSvrAdm) : Prop where
  there : ∀ pid ∈ watched s.FMyMg s.pc, s.hasPid pid = true
  used : s.pc.uses = true → s.FMyMg ≠ none
  running : s.pc ≠ .fault
  own : ∀ k ∈ s.killed, k.2 = true

/-- `fork` succeeds. The handler does not take the process while `Run` has not returned, or from the test of `AfterRun`
to its `Wait`, and it does not come between the deletion of the object and `FMyMg = NULL`. -/
def Calm (s : TSvrAdm) : Act → Prop
  | .main ret => s.pc = .fork → ret ≠ -1
  | .collect => (s.pc.busy = true → ∀ c ∈ s.children, c.exited = false) ∧ (s.pc = .clear → s.FMyMg = none)
  | _ => True

theorem hasPid_iff {pid : Int} : s.hasPid pid = true ↔ ∃ c ∈ s.children, c.pid = pid := by
  simp [hasPid]

theorem Supervised.of_other (h : s.Supervised) (hkilled : s'.killed = s.killed)
    (hthere : ∀ pid ∈ watched s'.FMyMg s'.pc, s'.hasPid pid = true)
    (hpc : s'.pc.uses = false ∧ s'.pc ≠ .fault) : s'.Supervised := by
  refine ⟨hthere, ?_, hpc.2, ?_⟩
  · intro hused
    cases hpc.1.symm.trans hused
  · rw [hkilled]
    exact h.own

theorem Supervised.of_used (h : s.Supervised) {pid : Int} (hsome : s'.FMyMg = some pid) (hkilled : s'.killed = s.killed)
    (hthere : ∀ pid ∈ watched s'.FMyMg s'.pc, s'.hasPid pid = true) (hpc : s'.pc ≠ .fault) : s'.Supervised := by
  refine ⟨hthere, fun _ => ?_, hpc, ?_⟩
  · rw [hsome]
    exact Option.some_ne_none _
  · rw [hkilled]
    exact h.own

theorem Supervised.main (h : s.Supervised) (hI : s.Inv) (hs : s.main ret = some s') (hcalm : Calm s (.main ret)) :
    s'.Supervised := by
  have hthere := h.there
  have howned := hI.owned
  cases main_cases hs with
  | turn hpc => rw [hpc] at hthere; exact h.of_other rfl hthere ⟨rfl, by simp⟩
  | finish hpc => rw [hpc] at hthere; exact h.of_other rfl hthere ⟨rfl, by simp⟩
  | make hpc => exact h.of_other rfl (fun _ h => (nomatch h)) ⟨rfl, by simp⟩
  | keep hpc => rw [hpc] at hthere; exact h.of_other rfl hthere ⟨rfl, by simp⟩
  | fail hpc hfail => exact absurd hfail (hcalm hpc)
  | fork hpc =>
    refine h.of_other rfl ?_ ⟨rfl, by simp⟩
    intro pid hpid
    cases hpid
    exact hasPid_iff.mpr ⟨_, List.mem_append_right _ (List.mem_singleton_self _), rfl⟩
  | store hpc => rw [hpc] at hthere; exact h.of_used rfl rfl hthere (by simp)
  | @test pid hpc hsome =>
    rw [hpc] at hthere
    by_cases hneg : pid < 0
    · simp only [if_pos hneg]
      exact h.of_other rfl hthere ⟨rfl, by simp⟩
    · simp only [if_neg hneg]
      exact h.of_used hsome rfl hthere (by simp)
  | parentRun hpc => rw [hpc] at hthere; exact h.of_other rfl hthere ⟨rfl, by simp⟩
  | none hpc => rw [hpc] at hthere; exact h.of_other rfl hthere ⟨rfl, by simp⟩
  | some hpc hsome => rw [hpc] at hthere; exact h.of_used hsome rfl hthere (by simp)
  | terminate hpc hsome =>
    rw [hpc] at hthere
    refine h.of_used hsome rfl ?_ (by simp)
    intro p hp
    cases hp
    exact hthere _ hsome
  | @kill pid hpc =>
    rw [hpc] at hthere howned
    refine ⟨?_, fun _ => h.used (by rw [hpc]; rfl), by simp, ?_⟩
    · intro p hp
      obtain ⟨c, hc, -⟩ := hasPid_iff.mp (hthere pid rfl)
      cases (howned c hc).symm.trans hp
      exact hasPid_iff.mpr ⟨c, hc, rfl⟩
    · intro k hk
      rcases List.mem_append.mp hk with hk | hk
      · exact h.own k hk
      · rw [List.mem_singleton.mp hk]
        exact hthere pid rfl
  | wait hpc => rw [hpc] at hthere; exact h.of_other rfl hthere ⟨rfl, by simp⟩
  | waited hpc => exact h.of_other rfl (fun _ h => (nomatch h)) ⟨rfl, by simp⟩
  | delete hpc => exact h.of_other rfl (fun _ h => (nomatch h)) ⟨rfl, by simp⟩
  | clear hpc => exact h.of_other rfl (fun _ h => (nomatch h)) ⟨rfl, by simp⟩
  | fault hpc hnone =>
    cases hpc₀ : s.pc with
    | forked ret =>
      rw [hpc₀] at howned
      cases hnone.symm.trans howned.1
    | _ =>
      rw [hpc₀] at hpc
      exact absurd hnone (h.used (by rw [hpc₀]; exact hpc))

theorem Supervised.busy_child (h : s.Supervised) (hpc : s.pc.busy = true) : ∃ c, c ∈ s.children := by
  have hsome : ∃ pid, pid ∈ watched s.FMyMg s.pc := by
    cases hpc₀ : s.pc with
    | forked ret => exact ⟨ret, rfl⟩
    | kill pid => exact ⟨pid, rfl⟩
    | stored | parentRun | terminate | wait =>
      obtain ⟨pid, hpid⟩ := Option.ne_none_iff_exists'.mp (h.used (by rw [hpc₀]; rfl))
      exact ⟨pid, hpid⟩
    | _ =>
      rw [hpc₀] at hpc
      cases hpc
  obtain ⟨pid, hpid⟩ := hsome
  obtain ⟨c, hc, -⟩ := hasPid_iff.mp (h.there pid hpid)
  exact ⟨c, hc⟩

theorem Supervised.not_collect (h : s.Supervised) (hI : s.Inv) (hs : s.step .collect = some s')
    (hcalm : Calm s .collect) : s.pc.busy = false := by
  apply Bool.eq_false_iff.mpr
  intro hpc
  have hclear : s.pc ≠ .clear := by
    intro hclear
    rw [hclear] at hpc
    cases hpc
  obtain ⟨c, hc⟩ := h.busy_child hpc
  obtain ⟨-, SubPid, -, hcases⟩ := hI.collect_other hs hclear
  rcases hcases with ⟨hchildren, -⟩ | ⟨c', hchildren, hexited, -⟩
  · rw [hchildren] at hc
    exact List.not_mem_nil hc
  · have hno := hcalm.1 hpc c' (by rw [hchildren]; exact List.mem_cons_self)
    cases hno.symm.trans hexited

theorem Supervised.collect_none (h : s.Supervised) (hI : s.Inv) (hs : s.step .collect = some s')
    (hclear : s.pc ≠ .clear) (hwatched : watched s.FMyMg s.pc = s.FMyMg) : s'.FMyMg = none := by
  obtain ⟨-, SubPid, hFMyMg, hcases⟩ := hI.collect_other hs hclear
  rw [hFMyMg]
  split
  next => rfl
  next hne =>
    apply Option.eq_none_iff_forall_ne_some.mpr
    intro pid hpid
    obtain ⟨c, hc, rfl⟩ := hasPid_iff.mp (h.there pid (hwatched.trans hpid))
    rcases hcases with ⟨hchildren, -⟩ | ⟨c', hchildren, -, rfl⟩
    · rw [hchildren] at hc
      exact List.not_mem_nil hc
    · rw [hchildren] at hc
      rw [List.mem_singleton.mp hc] at hpid
      exact hne hpid

theorem Supervised.collect (h : s.Supervised) (hI : s.Inv) (hs : s.step .collect = some s') (hcalm : Calm s .collect) :
    s'.Supervised := by
  have hnot := h.not_collect hI hs hcalm
  have hnone := h.collect_none hI hs
  obtain ⟨-, hkilled, ⟨hclear, hsome, -⟩ | ⟨-, hpc, -⟩⟩ := hI.collect_cases hs
  · exact absurd (hcalm.2 hclear) hsome
  · refine h.of_other hkilled ?_ ?_
    · rw [hpc]
      cases hpc₀ : s.pc with
      | fork | delete | clear => exact fun _ h => (nomatch h)
      | forked | kill =>
        rw [hpc₀] at hnot
        cases hnot
      | _ =>
        rw [hnone (by rw [hpc₀]; simp) (by rw [hpc₀]; rfl)]
        exact fun _ h => (nomatch h)
    · rw [hpc]
      refine ⟨?_, h.running⟩
      cases hpc₀ : s.pc with
      | forked => rfl
      | _ =>
        rw [hpc₀] at hnot
        exact hnot

theorem Supervised.step (h : s.Supervised) (hI : s.Inv) {act : Act} (hs : s.step act = some s') (hcalm : Calm s act) :
    s'.Supervised := by
  cases act with
  | main ret =>
    cases hhandling : s.handling with
    | true => cases (if_pos hhandling).symm.trans hs
    | false => exact h.main hI ((if_neg (Bool.eq_false_iff.mp hhandling)).symm.trans hs) hcalm
  | exit pid =>
    unfold TSvrAdm.step at hs
    simp only at hs
    split at hs
    next =>
      cases hs
      refine ⟨?_, h.used, h.running, h.own⟩
      intro p hp
      obtain ⟨c, hc, rfl⟩ := hasPid_iff.mp (h.there p hp)
      apply hasPid_iff.mpr
      refine ⟨_, List.mem_map_of_mem hc, ?_⟩
      split
      next hc => rw [hc]
      next => rfl
    next => cases hs
  | sigchld =>
    cases hs
    exact ⟨h.there, h.used, h.running, h.own⟩
  | sigterm =>
    cases hs
    exact ⟨h.there, h.used, h.running, h.own⟩
  | deliver =>
    unfold TSvrAdm.step at hs
    simp only at hs
    split at hs
    next =>
      cases hs
      exact ⟨h.there, h.used, h.running, h.own⟩
    next => cases hs
  | collect => exact h.collect hI hs hcalm

theorem Supervised.calm (hI : s.Inv) {act : Act} (hs : s.step act = some s') (h : s'.Supervised) : Calm s act := by
  have howned := hI.owned
  cases act with
  | main ret =>
    intro hpc hret
    cases hhandling : s.handling with
    | true => cases (if_pos hhandling).symm.trans hs
    | false =>
      have hmain := (if_neg (Bool.eq_false_iff.mp hhandling)).symm.trans hs
      unfold TSvrAdm.main at hmain
      rw [hpc] at hmain howned
      cases (if_pos hret).symm.trans hmain
      obtain ⟨c, hc, -⟩ := hasPid_iff.mp (h.there ret rfl)
      have hc : c ∈ s.children := hc
      rw [howned.2] at hc
      exact List.not_mem_nil hc
  | collect =>
    obtain ⟨hnil, -, ⟨-, -, hfault⟩ | ⟨hclear, hpc', SubPid, hFMyMg, hcases⟩⟩ := hI.collect_cases hs
    · exact absurd hfault h.running
    · refine ⟨fun hbusy c hc => ?_, hclear⟩
      have hbusy' : s'.pc.busy = true := by
        rw [hpc']
        exact hbusy
      obtain ⟨b, hb⟩ := h.busy_child hbusy'
      rw [hnil] at hb
      exact absurd hb List.not_mem_nil
  | exit pid => trivial
  | sigchld => trivial
  | sigterm => trivial
  | deliver => trivial

theorem supervised_start : start.Supervised :=
  ⟨fun _ h => (nomatch h), fun h => (nomatch h), by simp [start], fun _ h => absurd h List.not_mem_nil⟩

/-- `FMyMg` is not `NULL`, and what `wait` says when there is nobody is not its `FPid`. -/
def Lost (FMyMg : Option Int) : Pc → Prop
  | .fork => False
  | .top => ∃ pid, FMyMg = some pid ∧ pid ≠ -1
  | .onRun => ∃ pid, FMyMg = some pid ∧ pid ≠ -1
  | .forked ret => (∃ pid, FMyMg = some pid ∧ pid ≠ -1) ∧ ret ≠ -1
  | .stored => ∃ pid, FMyMg = some pid ∧ pid ≠ -1
  | .parentRun => ∃ pid, FMyMg = some pid ∧ pid ≠ -1
  | _ => True

theorem Lost.main (hchildren : s.children = []) (h : Lost s.FMyMg s.pc) (hs : s.main ret = some s') :
    s'.children = [] ∧ Lost s'.FMyMg s'.pc := by
  cases main_cases hs with
  | turn hpc => rw [hpc] at h; exact ⟨hchildren, h⟩
  | make hpc hnone =>
    rw [hpc] at h
    obtain ⟨pid, hsome, -⟩ := h
    cases hnone.symm.trans hsome
  | keep hpc => rw [hpc] at h; exact ⟨hchildren, h⟩
  | fail hpc => rw [hpc] at h; exact h.elim
  | fork hpc => rw [hpc] at h; exact h.elim
  | store hpc => rw [hpc] at h; exact ⟨hchildren, _, rfl, h.2⟩
  | @test pid hpc =>
    rw [hpc] at h
    by_cases hneg : pid < 0
    · simp only [if_pos hneg]
      exact ⟨hchildren, h⟩
    · simp only [if_neg hneg]
      exact ⟨hchildren, h⟩
  | parentRun hpc => rw [hpc] at h; exact ⟨hchildren, h⟩
  | waited hpc hr =>
    rw [hchildren, waitpid_nil] at hr
    cases hr
    exact ⟨rfl, trivial⟩
  | _ => exact ⟨hchildren, trivial⟩

theorem Lost.collect (hchildren : s.children = []) (h : Lost s.FMyMg s.pc) (hs : s.step .collect = some s') :
    s'.children = [] ∧ Lost s'.FMyMg s'.pc := by
  unfold TSvrAdm.step at hs
  simp only [hchildren, waitpid_nil] at hs
  split at hs
  next =>
    obtain rfl : onSignal { s with children := [] } (-1) = s' := Option.some.inj hs
    simp only [onSignal]
    split
    next => exact ⟨rfl, trivial⟩
    next =>
      refine ⟨rfl, ?_⟩
      have hsame (hsome : ∃ pid, s.FMyMg = some pid ∧ pid ≠ -1) :
          (if s.FMyMg = some (-1) then none else s.FMyMg) = s.FMyMg := by
        obtain ⟨pid, hpid, hne⟩ := hsome
        rw [hpid]
        exact if_neg fun h => hne (Option.some.inj h)
      show Lost (if s.FMyMg = some (-1) then none else s.FMyMg) s.pc
      cases hpc : s.pc with
      | fork => rw [hpc] at h; exact h.elim
      | top | onRun | stored | parentRun => rw [hpc] at h; rw [hsame h]; exact h
      | forked ret => rw [hpc] at h; rw [hsame h.1]; exact h
      | _ => trivial
  next => cases hs

theorem Lost.step (hchildren : s.children = []) (h : Lost s.FMyMg s.pc) {act : Act} (hs : s.step act = some s') :
    s'.children = [] ∧ Lost s'.FMyMg s'.pc := by
  cases act with
  | main ret =>
    cases hhandling : s.handling with
    | true => cases (if_pos hhandling).symm.trans hs
    | false => exact h.main hchildren ((if_neg (Bool.eq_false_iff.mp hhandling)).symm.trans hs)
  | exit pid =>
    unfold TSvrAdm.step at hs
    simp only [hchildren] at hs
    cases hs
  | sigchld =>
    cases hs
    exact ⟨hchildren, h⟩
  | sigterm =>
    cases hs
    exact ⟨hchildren, h⟩
  | deliver =>
    unfold TSvrAdm.step at hs
    simp only at hs
    split at hs
    next =>
      cases hs
      exact ⟨hchildren, h⟩
    next => cases hs
  | collect => exact h.collect hchildren hs

/-- **When the handler takes the process while `FPid` is not set, no process is ever started again.** -/
theorem lost_throughout {acts : List Act} (hrun : acts.foldlM step start = some s) {ret : Int}
    (hpc : s.pc = .forked ret) (hchildren : s.children ≠ []) (hs : s.step .collect = some s') (rest : List Act) :
    Run.Throughout step (fun s => s.children = []) s' rest := by
  have hI : s.Inv := by
    have hall : Run.Throughout step Inv start acts :=
      Run.throughout_of (I := Inv) (fun h => h) (fun h hs => h.step hs) inv_start
    exact hall.last hrun
  obtain ⟨hnil, -⟩ := hI.collect_cases hs
  obtain ⟨hpc', -⟩ := hI.collect_other hs (by rw [hpc]; simp)
  have hFMyMg := hI.collect_fork hs (.inr ⟨ret, hpc⟩)
  have howned := hI.owned
  rw [hpc] at howned
  have hlost : Lost s'.FMyMg s'.pc := by
    rw [hpc', hpc, hFMyMg]
    refine ⟨⟨0, howned.1, by decide⟩, ?_⟩
    obtain ⟨c, hc⟩ := List.exists_mem_of_ne_nil _ hchildren
    have hpos := hI.pos c hc
    rw [howned.2 c hc] at hpos
    omega
  exact Run.throughout_of (I := fun s => s.children = [] ∧ Lost s.FMyMg s.pc) (fun h => h.1)
    (fun h hs => h.2.step h.1 hs) ⟨hnil, hlost⟩

theorem lost_throughout_seven :
    Run.Throughout step (fun s => s.children = []) ⟨.forked 7, some 0, false, [], false, false, []⟩
      [.main 0, .main 0, .main 0, .main 0, .main 0, .main 8] := by
  have hrun : [Act.main 0, .main 0, .main 7, .exit 7, .deliver].foldlM step start =
      some ⟨.forked 7, some 0, false, [⟨7, true⟩], false, true, []⟩ := by decide
  have hs : step ⟨.forked 7, some 0, false, [⟨7, true⟩], false, true, []⟩ .collect =
      some ⟨.forked 7, some 0, false, [], false, false, []⟩ := by decide
  exact lost_throughout hrun rfl (List.cons_ne_nil _ _) hs _

end TSvrAdm

end Afn
