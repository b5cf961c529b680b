import Afn.LogFileMpSound
import Afn.LogFileSound

/-!
# A record is written in one step

Threads of several processes write records to the log file step by step, each between its `Lock` and its `Unlock`.
As one thread at most is there, the files are always those of whole records written one after another, which is how
`Logbook` has them.
-/

namespace Afn.LogFileMp

/-! ## Writers -/

/-- Where a thread is in `Write`, behind `Lock`. No part of the program: `times` are the answers of `time` so far. -/
inductive Turn
  | opening (Cont : Bytes)
  | testing (Cont : Bytes) (FileLen : Nat) (times : List Tm)
  | reopening (Cont : Bytes) (times : List Tm)

/-- `written` lists the records that have been written, each with its answers of `time`. -/
structure Writers (P T : Type) where
  locks : System P T
  disk : LogDisk
  turn : T → Option Turn
  written : List (Bytes × List Tm)

inductive WriterAct (T : Type)
  | lock (a : Action T)
  | write (t : T) (Cont : Bytes)
  | fopen (t : T)
  | test (t : T) (p : Tm)

def Action.thread {T : Type} : Action T → T
  | .call t _ => t
  | .next t => t

namespace Writers

section
variable {P T : Type} [DecidableEq P] [DecidableEq T]

def start (made : TYQPrcSync × (Nat → Nat)) : Writers P T := ⟨initial made, ⟨none, []⟩, fun _ => none, []⟩

/-- A thread that has the lock may write; it calls neither `Lock` nor `Unlock` while it does. -/
def step (self : TLogFile) (home : T → P) (s : Writers P T) : WriterAct T → Option (Writers P T)
  | .lock a =>
    if (s.turn a.thread).isSome then none
    else (LogFileMp.step home s.locks a).map fun locks => { s with locks := locks }
  | .write t Cont =>
    if s.turn t = none ∧ 0 < (s.locks.thr t).depth ∧ Cont.length ≤ self.FMaxLen.toNat then
      some { s with turn := Function.update s.turn t (some (.opening Cont)) }
    else none
  | .fopen t =>
    let disk := s.disk.fopen
    match s.turn t with
    | some (.opening Cont) =>
      let FileLen := (disk.file.getD []).length % 2 ^ 32
      some { s with disk := disk, turn := Function.update s.turn t (some (.testing Cont FileLen [])) }
    | some (.reopening Cont times) =>
      some { s with disk := disk, turn := Function.update s.turn t (some (.testing Cont 0 times)) }
    | _ => none
  | .test t p =>
    match s.turn t with
    | some (.testing Cont FileLen times) =>
      if self.FMaxLen.toNat < (FileLen + Cont.length) % 2 ^ 32 then
        some { s with
          disk := s.disk.rename (self.destFile p)
          turn := Function.update s.turn t (some (.reopening Cont (times ++ [p]))) }
      else
        some { s with
          disk := s.disk.fwrite Cont
          turn := Function.update s.turn t none
          written := s.written ++ [(Cont, times)] }
    | _ => none

end

end Writers

/-! ## Other threads -/

section
variable {P T : Type} [DecidableEq P] [DecidableEq T] {home : T → P} {s s' : System P T}

omit [DecidableEq P] in
theorem setThread_of_ne {t u : T} (hu : u ≠ t) (th : Thread) : (s.setThread t th).thr u = s.thr u :=
  Function.update_of_ne hu ..

theorem next_frame {p : P} {t u : T} (h : next p s t = some s') (hu : u ≠ t) : s'.thr u = s.thr u := by
  unfold next at h
  split at h
  next => cases h
  next =>
    obtain ⟨m, -, h⟩ := Option.bind_eq_some_iff.mp h
    cases h
    exact setThread_of_ne hu _
  next =>
    simp only at h
    split at h
    · obtain ⟨m, -, h⟩ := Option.bind_eq_some_iff.mp h
      cases h
      exact setThread_of_ne hu _
    · cases h
  next =>
    cases h
    exact setThread_of_ne hu _
  next =>
    split at h
    · cases h
      exact setThread_of_ne hu _
    · cases h
      exact setThread_of_ne hu _
  next =>
    obtain ⟨m, -, h⟩ := Option.bind_eq_some_iff.mp h
    cases h
    exact setThread_of_ne hu _
  next =>
    cases h
    exact setThread_of_ne hu _

theorem step_frame {a : Action T} {u : T} (h : step home s a = some s') (hu : u ≠ a.thread) :
    s'.thr u = s.thr u := by
  cases a with
  | next t => exact next_frame h hu
  | call t c =>
    simp only [step] at h
    split at h
    · cases h
      exact setThread_of_ne hu _
    · split at h
      · cases h
        exact setThread_of_ne hu _
      · cases h
    · cases h

end

/-! ## Whole records -/

/-- The files after the records have been written one after another. -/
def filed (self : TLogFile) (written : List (Bytes × List Tm)) : Option LogDisk :=
  written.foldlM (fun d w => self.write w.1 w.2 d) ⟨none, []⟩

-- what a call of `Log` writes, and its answers of `time`
def record (self : TLogFile) : Nat × LOGCLS × Bytes × Tm × List Tm → Bytes × List Tm
  | (_, LogCls, Log, p, times) => (self.inf LogCls p Log, times)

def logAct : Nat × LOGCLS × Bytes × Tm × List Tm → Logbook.Act
  | (i, LogCls, Log, p, times) => .log i LogCls Log p times

theorem disk_logAct (self : TLogFile) (calls : List (Nat × LOGCLS × Bytes × Tm × List Tm)) : ∀ s : Logbook,
    s.FOupLogCls = (fun _ => 0xFFFF#16) →
    ((calls.map logAct).foldlM (Logbook.step self) s).map Logbook.disk =
      (calls.map (record self)).foldlM (fun d w => self.write w.1 w.2 d) s.disk := by
  induction calls with
  | nil => exact fun s _ => rfl
  | cons c calls ih =>
    intro s hall
    obtain ⟨i, LogCls, Log, p, times⟩ := c
    have hon : s.FOupLogCls i &&& (1#16 <<< LogCls.toNat) ≠ 0#16 := by
      rw [hall]
      show 0xFFFF#16 &&& (1#16 <<< LogCls.toNat) ≠ 0#16
      cases LogCls <;> decide
    rw [List.map_cons, List.map_cons, List.foldlM_cons, List.foldlM_cons, logAct, record, Logbook.step, TLogFile.log,
      if_pos hon]
    cases self.write (self.inf LogCls p Log) times s.disk with
    | none => rfl
    | some disk => exact ih { s with disk := disk, records := _ } hall

/-- The files that a `Logbook` has after calls of `Log`, when all classes are written. -/
theorem filed_eq (self : TLogFile) (calls : List (Nat × LOGCLS × Bytes × Tm × List Tm)) :
    filed self (calls.map (record self)) =
      ((calls.map logAct).foldlM (Logbook.step self) Logbook.start).map Logbook.disk :=
  (disk_logAct self calls Logbook.start rfl).symm

/-- The thread has begun with the files `before`, and what it does further makes of `now` what `write` makes of
`before`. -/
def Turn.Continues (self : TLogFile) (before now : LogDisk) : Turn → Prop
  | .opening Cont => Cont.length ≤ self.FMaxLen.toNat ∧ now = before
  | .testing Cont FileLen times => ∀ rest, self.write Cont (times ++ rest) before =
      (self.makeRoom Cont.length rest FileLen now).map fun d => d.fwrite Cont
  | .reopening Cont times => ∀ rest, self.write Cont (times ++ rest) before =
      (self.makeRoom Cont.length rest 0 now.fopen).map fun d => d.fwrite Cont

namespace Writers

variable {P T : Type} [DecidableEq P] [DecidableEq T]

def Whole (self : TLogFile) (s : Writers P T) : Prop :=
  (∀ t, s.turn t = none) → filed self s.written = some s.disk

section
variable [Fintype T] {self : TLogFile} {home : T → P} {s s' : Writers P T} {t : T}

structure Inv (log : TLogFile) (home : T → P) (s : Writers P T) : Prop where
  locks : LogFileMp.Inv home s.locks
  depth : ∀ t, s.turn t ≠ none → 0 < (s.locks.thr t).depth
  disk : ∃ before, filed log s.written = some before ∧ ((∀ t, s.turn t = none) → s.disk = before) ∧
    ∀ t turn, s.turn t = some turn → turn.Continues log before s.disk

theorem Inv.whole (h : Inv self home s) : s.Whole self := by
  obtain ⟨before, hbefore, hidle, -⟩ := h.disk
  intro hnone
  rw [hbefore, hidle hnone]

theorem Inv.alone {u : T} (h : Inv self home s) (ht : 0 < (s.locks.thr t).depth) (hu : s.turn u ≠ none) : u = t :=
  (locked_of_inv h.locks).unique u t (h.depth u hu) ht

theorem Inv.lock {a : Action T} (h : Inv self home s) (hs : s.step self home (.lock a) = some s') :
    Inv self home s' := by
  simp only [step] at hs
  by_cases hturn : (s.turn a.thread).isSome
  · rw [if_pos hturn] at hs
    cases hs
  rw [if_neg hturn] at hs
  obtain ⟨locks, hstep, rfl⟩ := Option.map_eq_some_iff.mp hs
  refine ⟨?_, fun u hu => ?_, h.disk⟩
  · cases a with
    | call t c => exact inv_call h.locks hstep
    | next t => exact inv_next h.locks hstep
  · have hne : u ≠ a.thread := by
      rintro rfl
      exact hturn (Option.isSome_iff_ne_none.mpr hu)
    show 0 < (locks.thr u).depth
    rw [step_frame hstep hne]
    exact h.depth u hu

/-- The one thread that writes goes on. -/
theorem Inv.work {before disk : LogDisk} {turn : Turn} (h : Inv self home s) (ht : 0 < (s.locks.thr t).depth)
    (hbefore : filed self s.written = some before) (hturn : turn.Continues self before disk) :
    Inv self home { s with disk := disk, turn := Function.update s.turn t (some turn) } := by
  have hself : Function.update s.turn t (some turn) t = some turn := Function.update_self ..
  have hother : ∀ u, u ≠ t → Function.update s.turn t (some turn) u = s.turn u := fun u hu =>
    Function.update_of_ne hu ..
  refine ⟨h.locks, fun u hu => ?_, before, hbefore, fun hnone => ?_, fun u next hu => ?_⟩
  · by_cases hut : u = t
    · exact hut ▸ ht
    · exact h.depth u fun hfree => hu ((hother u hut).trans hfree)
  · cases hself.symm.trans (hnone t)
  · by_cases hut : u = t
    · subst hut
      cases hself.symm.trans hu
      exact hturn
    · have hsome : s.turn u = some next := (hother u hut).symm.trans hu
      exact absurd (h.alone ht (Option.ne_none_iff_exists'.mpr ⟨next, hsome⟩)) hut

theorem Inv.fopen (h : Inv self home s) (hs : s.step self home (.fopen t) = some s') : Inv self home s' := by
  obtain ⟨before, hbefore, -, hcontinues⟩ := h.disk
  simp only [step] at hs
  cases hturn : s.turn t with
  | none =>
    rw [hturn] at hs
    cases hs
  | some turn =>
    have ht := h.depth t (Option.ne_none_iff_exists'.mpr ⟨turn, hturn⟩)
    have hgoes := hcontinues t turn hturn
    rw [hturn] at hs
    cases turn with
    | opening Cont =>
      cases hs
      obtain ⟨hlen, hsame⟩ := hgoes
      apply h.work ht hbefore
      intro rest
      unfold TLogFile.write
      rw [if_neg (Nat.not_lt_of_le hlen), List.nil_append, hsame]
    | testing => cases hs
    | reopening Cont times =>
      cases hs
      exact h.work ht hbefore hgoes

theorem Inv.test {p : Tm} (h : Inv self home s) (hs : s.step self home (.test t p) = some s') : Inv self home s' := by
  obtain ⟨before, hbefore, -, hcontinues⟩ := h.disk
  simp only [step] at hs
  cases hturn : s.turn t with
  | none =>
    rw [hturn] at hs
    cases hs
  | some turn =>
    have ht := h.depth t (Option.ne_none_iff_exists'.mpr ⟨turn, hturn⟩)
    have hgoes := hcontinues t turn hturn
    rw [hturn] at hs
    cases turn with
    | opening => cases hs
    | reopening => cases hs
    | testing Cont FileLen times =>
      by_cases hlong : self.FMaxLen.toNat < (FileLen + Cont.length) % 2 ^ 32
      · simp only [if_pos hlong] at hs
        cases hs
        apply h.work ht hbefore
        intro rest
        have hrest := hgoes (p :: rest)
        rw [TLogFile.makeRoom, if_pos hlong] at hrest
        rw [List.append_assoc]
        exact hrest
      · simp only [if_neg hlong] at hs
        cases hs
        have hdone := hgoes []
        rw [TLogFile.makeRoom, if_neg hlong, List.append_nil] at hdone
        have hnone : ∀ u, Function.update s.turn t none u = none := by
          intro u
          by_cases hut : u = t
          · rw [hut, Function.update_self]
          · rw [Function.update_of_ne hut]
            apply Classical.byContradiction
            exact fun hu => hut (h.alone ht hu)
        refine ⟨h.locks, fun u hu => absurd (hnone u) hu, _, ?_, fun _ => rfl, fun u next hu => ?_⟩
        · unfold filed at hbefore ⊢
          rw [List.foldlM_append, hbefore]
          show (self.write Cont times before).bind some = _
          rw [hdone]
          rfl
        · cases (hnone u).symm.trans hu

theorem Inv.step {act : WriterAct T} (h : Inv self home s) (hs : s.step self home act = some s') :
    Inv self home s' := by
  cases act with
  | lock a => exact h.lock hs
  | fopen t => exact h.fopen hs
  | test t p => exact h.test hs
  | write t Cont =>
    simp only [Writers.step] at hs
    split at hs
    · next hcond =>
      obtain ⟨hfree, ht, hlen⟩ := hcond
      cases hs
      obtain ⟨before, hbefore, hidle, -⟩ := h.disk
      have hnone : ∀ u, s.turn u = none := by
        intro u
        apply Classical.byContradiction
        intro hu
        rw [h.alone ht hu] at hu
        exact hu hfree
      exact h.work ht hbefore ⟨hlen, hidle hnone⟩
    · cases hs

/-- **In every run in which the processes write between `Lock` and `Unlock`, the files are those of whole records
written one after another** whenever no thread is writing. -/
theorem whole_throughout (self : TLogFile) (home : T → P) (CriticalCount ReadWriteCount : Nat)
    {made : TYQPrcSync × (Nat → Nat)} (hmade : TYQPrcSync.create CriticalCount ReadWriteCount = some made)
    (hcritical : 0 < CriticalCount) (acts : List (WriterAct T)) :
    Run.Throughout (Writers.step self home) (Whole self) (start made) acts := by
  have hinit : Inv self home (start made : Writers P T) :=
    ⟨inv_initial hmade hcritical, fun t ht => absurd rfl ht, _, rfl, fun _ => rfl, fun t turn h => nomatch h⟩
  exact Run.throughout_of (I := Inv self home) (fun h => h.whole) (fun h hs => h.step hs) hinit

end

end Writers

end Afn.LogFileMp
