import Afn.PrcSync
import Afn.Run

/-!
# The lock for one writer

A process that took the lock first as a reader is counted in the first semaphore of the lock, one that took it first
as a writer in the second one. As long as no reader asks for the write lock, the kind a process holds is the kind it
is counted as.
-/

namespace Afn.ReadWrite

open Semaphore

def permitted (q : Process) : Call → Prop
  | .lock .write => q.reads + q.writes = 0 ∨ q.outer = .write
  | _ => True

-- no process asks for the write lock when it took the lock as a reader
def Permitted {P : Type} (s : System P) : Action P → Prop
  | .call p c => permitted (s.prc p) c
  | .semop _ => True

def Exclusive {P : Type} (s : System P) : Prop :=
  ∀ p q, p ≠ q → 0 < (s.prc p).writes → (s.prc q).reads = 0 ∧ (s.prc q).writes = 0

/-! ## One process -/

def entering (q : Process) : Bool :=
  match q.blocked with
  | some (.lock _, _) => true
  | _ => false

def leaving (q : Process) : Bool :=
  match q.blocked with
  | some (.unlock _, _) => true
  | _ => false

-- what the process has put into the semaphore of the readers, once for each time its counter became 1
def readerShare (q : Process) : Nat :=
  if q.outer = .read then (q.reads + 65535) / 65536 + (if leaving q then 1 else 0) else 0

def writerShare (q : Process) : Nat :=
  if q.outer = .write ∧ (0 < q.reads + q.writes ∨ leaving q) then 1 else 0

section
variable (made : TYQPrcSync) (SyncID : Nat)

def operations : Call → List Sembuf
  | .lock .read => [⟨made.WRSyncID SyncID + 1, 0⟩, ⟨made.WRSyncID SyncID, 1⟩]
  | .lock .write => [⟨made.WRSyncID SyncID, 0⟩, ⟨made.CriSyncID SyncID, -1⟩, ⟨made.WRSyncID SyncID + 1, 1⟩]
  | .unlock .read => [⟨made.WRSyncID SyncID, -1⟩]
  | .unlock .write => [⟨made.CriSyncID SyncID, 1⟩, ⟨made.WRSyncID SyncID + 1, -1⟩]

structure Ok (q : Process) : Prop where
  criticalCount : q.sync.FCriticalCount = made.FCriticalCount
  readWriteCount : q.sync.FReadWriteCount = made.FReadWriteCount
  flag : (q.sync.FFlag (made.WRSyncID SyncID)).toNat =
    (q.reads + q.writes + if entering q then 1 else 0) % 65536
  blocked : ∀ c sops, q.blocked = some (c, sops) → sops = operations made SyncID c ∧ (q.reads + q.writes) % 65536 = 0
  first : ∀ kind sops, q.blocked = some (.lock kind, sops) → q.reads + q.writes = 0 → q.outer = kind
  reader : q.outer = .read → q.writes = 0 ∧
    ∀ sops, q.blocked ≠ some (.lock .write, sops) ∧ q.blocked ≠ some (.unlock .write, sops)
  writer : q.outer = .write → q.reads + q.writes ≤ 65536 ∧ (leaving q = true → q.reads + q.writes = 0)

end

section
variable {made : TYQPrcSync} {SyncID : Nat} {q : Process} {c : Call}

theorem called_sync (q : Process) (c : Call) : (q.called c).sync = q.sync := by
  cases c with
  | lock kind =>
    simp only [Process.called]
    split <;> rfl
  | unlock kind => cases kind <;> rfl

def counted (flag : UInt16) : Call → UInt16
  | .lock _ => flag + 1
  | .unlock _ => flag - 1

def outermost (flag : UInt16) : Call → Bool
  | .lock _ => flag == 1
  | .unlock _ => flag == 0

theorem call_eq {sync : TYQPrcSync} (hc : sync.FCriticalCount = made.FCriticalCount)
    (hr : sync.FReadWriteCount = made.FReadWriteCount) {flag : UInt16}
    (hflag : flag = counted (sync.FFlag (made.WRSyncID SyncID)) c) :
    call sync SyncID c =
      ({ sync with FFlag := Function.update sync.FFlag (made.WRSyncID SyncID) flag },
        if outermost flag c then some (operations made SyncID c) else none) := by
  have hwr : sync.WRSyncID SyncID = made.WRSyncID SyncID := by
    unfold TYQPrcSync.WRSyncID
    rw [hc, hr]
  have hcri : sync.CriSyncID SyncID = made.CriSyncID SyncID := by
    unfold TYQPrcSync.CriSyncID
    rw [hc]
  subst hflag
  cases c with
  | lock kind =>
    cases kind with
    | read => simp only [call, TYQPrcSync.readLock, TYQPrcSync.enter, hwr]; rfl
    | write => simp only [call, TYQPrcSync.writeLock, TYQPrcSync.enter, hwr, hcri]; rfl
  | unlock kind =>
    cases kind with
    | read => simp only [call, TYQPrcSync.readUnlock, TYQPrcSync.leave, hwr]; rfl
    | write => simp only [call, TYQPrcSync.writeUnlock, TYQPrcSync.leave, hwr, hcri]; rfl

end

/-! ## A call -/

theorem outermost_lock {flag : UInt16} {kind : Kind} :
    outermost (counted flag (.lock kind)) (.lock kind) = true ↔ flag.toNat = 0 := TYQPrcSync.up_first

theorem outermost_unlock {flag : UInt16} {kind : Kind} :
    outermost (counted flag (.unlock kind)) (.unlock kind) = true ↔ flag.toNat = 1 := TYQPrcSync.down_last

theorem toNat_counted_lock (flag : UInt16) (kind : Kind) :
    (counted flag (.lock kind)).toNat = (flag.toNat + 1) % 65536 := TYQPrcSync.toNat_up flag

theorem toNat_counted_unlock (flag : UInt16) (kind : Kind) :
    (counted flag (.unlock kind)).toNat = (flag.toNat + 65535) % 65536 := TYQPrcSync.toNat_down flag

section
variable (made : TYQPrcSync) (SyncID : Nat)

def flagged (q : Process) (c : Call) : TYQPrcSync :=
  { q.sync with
    FFlag := Function.update q.sync.FFlag (made.WRSyncID SyncID)
      (counted (q.sync.FFlag (made.WRSyncID SyncID)) c) }

def waiting (q : Process) (c : Call) : Process :=
  { q.called c with sync := flagged made SyncID q c, blocked := some (c, operations made SyncID c) }

def passing (q : Process) (c : Call) : Process := { q.called c with sync := flagged made SyncID q c }.returned c

end

section
variable {made : TYQPrcSync} {SyncID : Nat} {q : Process}

structure Keeps (made : TYQPrcSync) (SyncID : Nat) (q q' : Process) : Prop where
  ok : Ok made SyncID q'
  reader : readerShare q' = readerShare q
  writer : writerShare q' = writerShare q

theorem flag_flagged (q : Process) (c : Call) : (flagged made SyncID q c).FFlag (made.WRSyncID SyncID) =
    counted (q.sync.FFlag (made.WRSyncID SyncID)) c := Function.update_self ..

theorem called_lock (q : Process) (kind : Kind) : q.called (.lock kind) =
    { q with outer := if q.reads + q.writes = 0 then kind else q.outer } := by
  simp only [Process.called]
  split <;> rfl

theorem share_reader (h : q.outer = .write) : readerShare q = 0 := by simp [readerShare, h]

theorem share_writer (h : q.outer = .read) : writerShare q = 0 := by simp [writerShare, h]

theorem share_held (h : 0 < q.reads + q.writes) : writerShare q = if q.outer = .write then 1 else 0 := by
  simp [writerShare, h]

theorem Ok.flag_of_free (hok : Ok made SyncID q) (hb : q.blocked = none) :
    (q.sync.FFlag (made.WRSyncID SyncID)).toNat = (q.reads + q.writes) % 65536 := by
  have hent : entering q = false := by simp only [entering, hb]
  have hflag := hok.flag
  rw [hent] at hflag
  exact hflag

theorem Ok.outer_of_writes (hok : Ok made SyncID q) (h : 0 < q.writes) : q.outer = .write := by
  cases houter : q.outer with
  | write => rfl
  | read => exact absurd (hok.reader houter).1 (Nat.ne_of_gt h)

theorem ok_unblocked (hb : q.blocked = none) (hc : q.sync.FCriticalCount = made.FCriticalCount)
    (hr : q.sync.FReadWriteCount = made.FReadWriteCount)
    (hflag : (q.sync.FFlag (made.WRSyncID SyncID)).toNat = (q.reads + q.writes) % 65536)
    (hreader : q.outer = .read → q.writes = 0) (hwriter : q.outer = .write → q.reads + q.writes ≤ 65536) :
    Ok made SyncID q := by
  have hent : entering q = false := by simp only [entering, hb]
  have hleave : leaving q = false := by simp only [leaving, hb]
  have hnot : ∀ b, q.blocked ≠ some b := fun b h => by cases hb.symm.trans h
  refine ⟨hc, hr, ?_, ?_, ?_, ?_, ?_⟩
  · rw [hent]
    exact hflag
  · exact fun c sops h => absurd h (hnot _)
  · exact fun kind sops h => absurd h (hnot _)
  · exact fun houter => ⟨hreader houter, fun sops => ⟨hnot _, hnot _⟩⟩
  · exact fun houter => ⟨hwriter houter, fun h => absurd (hleave.symm.trans h) Bool.false_ne_true⟩

theorem keeps_lock_waiting {kind : Kind} (hok : Ok made SyncID q) (hb : q.blocked = none)
    (hperm : permitted q (.lock kind)) (hfirst : (q.sync.FFlag (made.WRSyncID SyncID)).toNat = 0) :
    Keeps made SyncID q (waiting made SyncID q (.lock kind)) := by
  have hT := hok.flag_of_free hb
  rw [hfirst] at hT
  have hq' : waiting made SyncID q (.lock kind) =
      ⟨flagged made SyncID q (.lock kind), some (.lock kind, operations made SyncID (.lock kind)), q.reads, q.writes,
        if q.reads + q.writes = 0 then kind else q.outer⟩ := by
    unfold waiting
    rw [called_lock]
  rw [hq']
  by_cases h0 : q.reads + q.writes = 0
  · have hreads : q.reads = 0 := by omega
    have hwrites : q.writes = 0 := by omega
    rw [if_pos h0, hreads, hwrites]
    refine ⟨⟨hok.criticalCount, hok.readWriteCount, ?_, ?_, ?_, ?_, ?_⟩, ?_, ?_⟩
    · simp only [flag_flagged, toNat_counted_lock, hfirst]
      rfl
    · rintro c sops ⟨⟩
      exact ⟨rfl, rfl⟩
    · rintro kind' sops ⟨⟩ -
      rfl
    · rintro rfl
      exact ⟨rfl, fun sops => ⟨by simp, by simp⟩⟩
    · exact fun _ => ⟨Nat.zero_le _, fun h => absurd h Bool.false_ne_true⟩
    · simp [readerShare, leaving, hreads, hb]
    · simp [writerShare, leaving, hreads, hwrites, hb]
  · have hkind : q.outer = .read → kind = .read := by
      intro houter
      cases kind with
      | read => rfl
      | write =>
        rcases hperm with h | h
        · exact absurd h h0
        · rw [h] at houter
          cases houter
    rw [if_neg h0]
    refine ⟨⟨hok.criticalCount, hok.readWriteCount, ?_, ?_, ?_, ?_, ?_⟩, ?_, ?_⟩
    · simp only [flag_flagged, toNat_counted_lock, hfirst, entering, if_true]
      omega
    · rintro c sops ⟨⟩
      exact ⟨rfl, hT.symm⟩
    · rintro kind' sops ⟨⟩ h
      exact absurd h h0
    · intro houter
      obtain rfl := hkind houter
      exact ⟨(hok.reader houter).1, fun sops => ⟨by simp, by simp⟩⟩
    · exact fun houter => ⟨(hok.writer houter).1, fun h => absurd h Bool.false_ne_true⟩
    · simp [readerShare, leaving, hb]
    · simp [writerShare, leaving, hb]

theorem keeps_lock_passing {kind : Kind} (hok : Ok made SyncID q) (hb : q.blocked = none)
    (hperm : permitted q (.lock kind)) (hagain : (q.sync.FFlag (made.WRSyncID SyncID)).toNat ≠ 0) :
    Keeps made SyncID q (passing made SyncID q (.lock kind)) := by
  have hT := hok.flag_of_free hb
  have h0 : q.reads + q.writes ≠ 0 := fun h => hagain (by rw [hT, h])
  have hwriter : q.outer = .write → q.reads + q.writes + 1 ≤ 65536 := by
    intro houter
    have hle := (hok.writer houter).1
    omega
  have hq : ({ q.called (.lock kind) with sync := flagged made SyncID q (.lock kind) } : Process) =
      { q with sync := flagged made SyncID q (.lock kind) } := by
    rw [called_lock, if_neg h0]
  unfold passing
  rw [hq]
  cases kind with
  | read =>
    refine ⟨ok_unblocked rfl hok.criticalCount hok.readWriteCount ?_ (fun houter => (hok.reader houter).1) ?_, ?_, ?_⟩
    · simp only [Process.returned, flag_flagged, toNat_counted_lock]
      omega
    · intro houter
      have hle := hwriter houter
      simp only [Process.returned]
      omega
    · have hshare : (q.reads + 1 + 65535) / 65536 = (q.reads + 65535) / 65536 ∨ q.outer ≠ .read := by
        by_cases houter : q.outer = .read
        · have hwrites := (hok.reader houter).1
          omega
        · exact Or.inr houter
      rcases hshare with hshare | houter
      · simp [readerShare, Process.returned, leaving, hb, hshare]
      · simp [readerShare, Process.returned, houter]
    · rw [share_held (Nat.pos_of_ne_zero h0), share_held (by simp only [Process.returned]; omega)]
      rfl
  | write =>
    have houter : q.outer = .write := hperm.resolve_left h0
    refine ⟨ok_unblocked rfl hok.criticalCount hok.readWriteCount ?_ (fun h => by cases houter.symm.trans h) hwriter,
      ?_, ?_⟩
    · simp only [Process.returned, flag_flagged, toNat_counted_lock]
      omega
    · rw [share_reader houter]
      exact share_reader houter
    · rw [share_held (Nat.pos_of_ne_zero h0), share_held (by simp only [Process.returned]; omega)]
      rfl

theorem keeps_unlock_waiting {kind : Kind} (hok : Ok made SyncID q) (hb : q.blocked = none)
    (hmay : q.may (.unlock kind) = true) (hlast : (q.sync.FFlag (made.WRSyncID SyncID)).toNat = 1) :
    Keeps made SyncID q (waiting made SyncID q (.unlock kind)) := by
  have hT := hok.flag_of_free hb
  rw [hlast] at hT
  cases kind with
  | read =>
    have hpos : 0 < q.reads := of_decide_eq_true hmay
    refine ⟨⟨hok.criticalCount, hok.readWriteCount, ?_, ?_, ?_, ?_, ?_⟩, ?_, ?_⟩
    · simp only [waiting, Process.called, flag_flagged, toNat_counted_unlock, entering, hlast, Bool.false_eq_true,
        if_false]
      omega
    · rintro c sops ⟨⟩
      refine ⟨rfl, ?_⟩
      simp only [waiting, Process.called]
      omega
    · exact fun kind sops h => by cases h
    · exact fun houter => ⟨(hok.reader houter).1, fun sops => ⟨by simp [waiting], by simp [waiting]⟩⟩
    · intro houter
      have hle := (hok.writer houter).1
      simp only [waiting, Process.called]
      omega
    · by_cases houter : q.outer = .read
      · have hwrites := (hok.reader houter).1
        have hshare : (q.reads - 1 + 65535) / 65536 + 1 = (q.reads + 65535) / 65536 := by omega
        simp [readerShare, waiting, Process.called, leaving, hb, hshare]
      · simp [readerShare, waiting, Process.called, houter]
    · have hheld : 0 < q.reads + q.writes := by omega
      rw [share_held hheld]
      simp [writerShare, waiting, Process.called, leaving]
  | write =>
    have hpos : 0 < q.writes := of_decide_eq_true hmay
    have houter : q.outer = .write := hok.outer_of_writes hpos
    have hle := (hok.writer houter).1
    refine ⟨⟨hok.criticalCount, hok.readWriteCount, ?_, ?_, ?_, ?_, ?_⟩, ?_, ?_⟩
    · simp only [waiting, Process.called, flag_flagged, toNat_counted_unlock, entering, hlast, Bool.false_eq_true,
        if_false]
      omega
    · rintro c sops ⟨⟩
      refine ⟨rfl, ?_⟩
      simp only [waiting, Process.called]
      omega
    · exact fun kind sops h => by cases h
    · exact fun h => by cases houter.symm.trans h
    · simp only [waiting, Process.called]
      omega
    · rw [share_reader houter]
      exact share_reader houter
    · have hheld : 0 < q.reads + q.writes := by omega
      rw [share_held hheld]
      simp [writerShare, waiting, Process.called, leaving]

theorem keeps_unlock_passing {kind : Kind} (hok : Ok made SyncID q) (hb : q.blocked = none)
    (hmay : q.may (.unlock kind) = true) (hmore : (q.sync.FFlag (made.WRSyncID SyncID)).toNat ≠ 1) :
    Keeps made SyncID q (passing made SyncID q (.unlock kind)) := by
  have hT := hok.flag_of_free hb
  cases kind with
  | read =>
    have hpos : 0 < q.reads := of_decide_eq_true hmay
    refine ⟨ok_unblocked rfl hok.criticalCount hok.readWriteCount ?_ (fun houter => (hok.reader houter).1) ?_, ?_, ?_⟩
    · simp only [passing, Process.returned, Process.called, flag_flagged, toNat_counted_unlock]
      omega
    · intro houter
      have hle := (hok.writer houter).1
      simp only [passing, Process.returned, Process.called]
      omega
    · by_cases houter : q.outer = .read
      · have hwrites := (hok.reader houter).1
        have hshare : (q.reads - 1 + 65535) / 65536 = (q.reads + 65535) / 65536 := by omega
        simp [readerShare, passing, Process.returned, Process.called, leaving, hb, hshare]
      · simp [readerShare, passing, Process.returned, Process.called, houter]
    · have hheld : 0 < q.reads + q.writes := by omega
      rw [share_held hheld, share_held (by simp only [passing, Process.returned, Process.called]; omega)]
      rfl
  | write =>
    have hpos : 0 < q.writes := of_decide_eq_true hmay
    have houter : q.outer = .write := hok.outer_of_writes hpos
    have hle := (hok.writer houter).1
    refine ⟨ok_unblocked rfl hok.criticalCount hok.readWriteCount ?_ (fun h => by cases houter.symm.trans h) ?_, ?_, ?_⟩
    · simp only [passing, Process.returned, Process.called, flag_flagged, toNat_counted_unlock]
      omega
    · simp only [passing, Process.returned, Process.called]
      omega
    · rw [share_reader houter]
      exact share_reader houter
    · have hheld : 0 < q.reads + q.writes := by omega
      rw [share_held hheld, share_held (by simp only [passing, Process.returned, Process.called]; omega)]
      rfl

end

/-! ## The operations apply -/

section
variable {made : TYQPrcSync} {SyncID : Nat} {q : Process} {sops : List Sembuf}

theorem semop_operations {c : Call} {val sem : Nat → Nat} (hid : SyncID < made.FReadWriteCount)
    (h : semop (operations made SyncID c) val = some sem) :
    match c with
    | .lock .read => val (made.WRSyncID SyncID + 1) = 0 ∧
      sem (made.WRSyncID SyncID) = val (made.WRSyncID SyncID) + 1 ∧
      sem (made.WRSyncID SyncID + 1) = val (made.WRSyncID SyncID + 1) ∧
      sem (made.CriSyncID SyncID) = val (made.CriSyncID SyncID)
    | .lock .write => val (made.WRSyncID SyncID) = 0 ∧ 0 < val (made.CriSyncID SyncID) ∧
      sem (made.WRSyncID SyncID) = val (made.WRSyncID SyncID) ∧
      sem (made.WRSyncID SyncID + 1) = val (made.WRSyncID SyncID + 1) + 1 ∧
      sem (made.CriSyncID SyncID) = val (made.CriSyncID SyncID) - 1
    | .unlock .read => 0 < val (made.WRSyncID SyncID) ∧
      sem (made.WRSyncID SyncID) = val (made.WRSyncID SyncID) - 1 ∧
      sem (made.WRSyncID SyncID + 1) = val (made.WRSyncID SyncID + 1) ∧
      sem (made.CriSyncID SyncID) = val (made.CriSyncID SyncID)
    | .unlock .write => 0 < val (made.WRSyncID SyncID + 1) ∧
      sem (made.WRSyncID SyncID) = val (made.WRSyncID SyncID) ∧
      sem (made.WRSyncID SyncID + 1) = val (made.WRSyncID SyncID + 1) - 1 ∧
      sem (made.CriSyncID SyncID) = val (made.CriSyncID SyncID) + 1 := by
  have hcr : made.CriSyncID SyncID ≠ made.WRSyncID SyncID := by
    unfold TYQPrcSync.CriSyncID TYQPrcSync.WRSyncID
    omega
  have hcw : made.CriSyncID SyncID ≠ made.WRSyncID SyncID + 1 := by
    unfold TYQPrcSync.CriSyncID TYQPrcSync.WRSyncID
    omega
  cases c with
  | lock kind =>
    cases kind with
    | read =>
      simp only [operations, semop_zero, semop_up, semop_nil] at h
      obtain ⟨hzero, rfl⟩ := h
      simp [hzero, hcr]
    | write =>
      simp only [operations, semop_zero, semop_up, semop_down, semop_nil] at h
      obtain ⟨hzero, hpos, rfl⟩ := h
      simp [hzero, hpos, hcw, hcw.symm, hcr.symm]
  | unlock kind =>
    cases kind with
    | read =>
      simp only [operations, semop_down, semop_nil] at h
      obtain ⟨hpos, rfl⟩ := h
      simp [hpos, hcr]
    | write =>
      simp only [operations, semop_up, semop_down, semop_nil] at h
      obtain ⟨hpos, rfl⟩ := h
      simp [hcw, hcw.symm, hcr.symm] at hpos ⊢
      exact hpos

theorem ok_returned {c : Call} (hok : Ok made SyncID q) (hb : q.blocked = some (c, sops))
    (hwriter : q.outer = .write → ∀ kind, c = .lock kind → q.reads + q.writes = 0) :
    Ok made SyncID (q.returned c) := by
  have hflag := hok.flag
  cases c with
  | lock kind =>
    have hent : entering q = true := by simp only [entering, hb]
    have hT := (hok.blocked _ _ hb).2
    rw [hent, if_pos rfl] at hflag
    cases kind with
    | read =>
      rw [Nat.add_right_comm] at hflag
      refine ok_unblocked rfl hok.criticalCount hok.readWriteCount hflag (fun houter => (hok.reader houter).1) ?_
      intro houter
      have h0 := hwriter houter .read rfl
      simp only [Process.returned]
      omega
    | write =>
      have houter : q.outer = .write := by
        cases houter : q.outer with
        | write => rfl
        | read => exact absurd hb ((hok.reader houter).2 sops).1
      refine ok_unblocked rfl hok.criticalCount hok.readWriteCount hflag (fun h => by cases houter.symm.trans h) ?_
      intro _
      have h0 := hwriter houter .write rfl
      simp only [Process.returned]
      omega
  | unlock kind =>
    have hent : entering q = false := by simp only [entering, hb]
    rw [hent] at hflag
    exact ok_unblocked rfl hok.criticalCount hok.readWriteCount hflag (fun houter => (hok.reader houter).1)
      fun houter => (hok.writer houter).1

theorem readerShare_lock (hok : Ok made SyncID q) (hb : q.blocked = some (.lock .read, sops))
    (houter : q.outer = .read) : readerShare (q.returned (.lock .read)) = readerShare q + 1 := by
  have hT := (hok.blocked _ _ hb).2
  have hwrites := (hok.reader houter).1
  have hshare : (q.reads + 1 + 65535) / 65536 = (q.reads + 65535) / 65536 + 1 := by omega
  simp [readerShare, Process.returned, leaving, houter, hb, hshare]

theorem readerShare_unlock (hb : q.blocked = some (.unlock .read, sops)) (houter : q.outer = .read) :
    readerShare (q.returned (.unlock .read)) + 1 = readerShare q := by
  simp [readerShare, Process.returned, leaving, houter, hb]

theorem writerShare_lock (hb : q.blocked = some (.lock .write, sops)) (h0 : q.reads + q.writes = 0)
    (houter : q.outer = .write) : writerShare q = 0 ∧ writerShare (q.returned (.lock .write)) = 1 := by
  refine ⟨?_, ?_⟩
  · simp [writerShare, leaving, hb, h0]
  · simp [writerShare, Process.returned, houter]

theorem writerShare_unlock (hb : q.blocked = some (.unlock .write, sops)) (h0 : q.reads + q.writes = 0)
    (houter : q.outer = .write) : writerShare q = 1 ∧ writerShare (q.returned (.unlock .write)) = 0 := by
  refine ⟨?_, ?_⟩
  · simp [writerShare, leaving, hb, houter]
  · simp [writerShare, Process.returned, leaving, h0]

end

/-! ## Steps -/

section
variable {P : Type} [DecidableEq P] {made : TYQPrcSync} {SyncID : Nat} {s s' : System P} {p : P} {c : Call}

theorem step_call (hok : Ok made SyncID (s.prc p)) (h : step SyncID s (.call p c) = some s') :
    ∃ flag, flag = counted ((s.prc p).sync.FFlag (made.WRSyncID SyncID)) c ∧
      (s.prc p).blocked = none ∧ (s.prc p).may c = true ∧
      s' = s.set p
        (if outermost flag c then
          { (s.prc p).called c with
            sync := { (s.prc p).sync with
              FFlag := Function.update (s.prc p).sync.FFlag (made.WRSyncID SyncID) flag }
            blocked := some (c, operations made SyncID c) }
        else
          { (s.prc p).called c with
            sync := { (s.prc p).sync with
              FFlag := Function.update (s.prc p).sync.FFlag (made.WRSyncID SyncID) flag } }.returned c) := by
  have hcall : call (s.prc p).sync SyncID c = (_, _) := call_eq hok.criticalCount hok.readWriteCount rfl
  refine ⟨_, rfl, ?_⟩
  simp only [step, called_sync, hcall] at h
  split at h
  · rename_i hcond
    refine ⟨hcond.1, hcond.2.1, ?_⟩
    by_cases hout : outermost (counted ((s.prc p).sync.FFlag (made.WRSyncID SyncID)) c) c = true
    · simp only [hout, if_true, Option.some.injEq] at h ⊢
      exact h.symm
    · simp only [hout, Bool.false_eq_true, if_false, Option.some.injEq] at h ⊢
      exact h.symm
  · cases h

theorem step_semop (h : step SyncID s (.semop p) = some s') :
    ∃ c sops sem, (s.prc p).blocked = some (c, sops) ∧ semop sops s.sem = some sem ∧
      s' = { s with sem := sem }.set p ((s.prc p).returned c) := by
  rw [step] at h
  cases hb : (s.prc p).blocked with
  | none =>
    rw [hb] at h
    cases h
  | some b =>
    obtain ⟨c, sops⟩ := b
    simp only [hb] at h
    cases hs : semop sops s.sem with
    | none =>
      rw [hs] at h
      cases h
    | some sem =>
      rw [hs] at h
      cases h
      exact ⟨c, sops, sem, rfl, hs, rfl⟩

end

/-! ## All processes -/

section
variable {P : Type} [Fintype P] [DecidableEq P] {made : TYQPrcSync} {SyncID : Nat} {s s' : System P} {p : P}

structure Inv (made : TYQPrcSync) (SyncID : Nat) (s : System P) : Prop where
  ok : ∀ p, Ok made SyncID (s.prc p)
  readers : s.sem (made.WRSyncID SyncID) = ∑ p, readerShare (s.prc p)
  writers : s.sem (made.WRSyncID SyncID + 1) = ∑ p, writerShare (s.prc p)
  critical : s.sem (made.CriSyncID SyncID) + ∑ p, writerShare (s.prc p) = 1
  exclusive : s.sem (made.WRSyncID SyncID) = 0 ∨ s.sem (made.WRSyncID SyncID + 1) = 0

omit [Fintype P] in
theorem ok_set {q : Process} (h : ∀ r, Ok made SyncID (s.prc r)) (hq : Ok made SyncID q) (r : P) :
    Ok made SyncID ((s.set p q).prc r) := by
  by_cases hr : r = p
  · subst hr
    simpa only [System.set, Function.update_self] using hq
  · simpa only [System.set, Function.update_of_ne hr] using h r

theorem sum_set (f : Process → Nat) (s : System P) (p : P) (q : Process) :
    ∑ r, f ((s.set p q).prc r) + f (s.prc p) = ∑ r, f (s.prc r) + f q := by
  have hsum := sum_change (f := fun r => f (s.prc r)) (g := fun r => f ((s.set p q).prc r)) (p := p)
    fun r hr => by simp only [System.set, Function.update_of_ne hr]
  simpa only [System.set, Function.update_self] using hsum

theorem inv_set {q : Process} {sem : Nat → Nat} (h : Inv made SyncID s) (hq : Ok made SyncID q)
    (hreader : sem (made.WRSyncID SyncID) + readerShare (s.prc p) = s.sem (made.WRSyncID SyncID) + readerShare q)
    (hwriter : sem (made.WRSyncID SyncID + 1) + writerShare (s.prc p) =
      s.sem (made.WRSyncID SyncID + 1) + writerShare q)
    (hcritical : sem (made.CriSyncID SyncID) + writerShare q = s.sem (made.CriSyncID SyncID) + writerShare (s.prc p))
    (hexclusive : sem (made.WRSyncID SyncID) = 0 ∨ sem (made.WRSyncID SyncID + 1) = 0) :
    Inv made SyncID (System.set { s with sem := sem } p q) := by
  have hr := sum_set readerShare { s with sem := sem } p q
  have hw := sum_set writerShare { s with sem := sem } p q
  have hreaders := h.readers
  have hwriters := h.writers
  have hone := h.critical
  change _ + readerShare (s.prc p) = ∑ r, readerShare (s.prc r) + _ at hr
  change _ + writerShare (s.prc p) = ∑ r, writerShare (s.prc r) + _ at hw
  refine ⟨ok_set h.ok hq, ?_, ?_, ?_, hexclusive⟩
  · show sem _ = _
    omega
  · show sem _ = _
    omega
  · show sem _ + _ = 1
    omega

theorem inv_keeps {q : Process} (h : Inv made SyncID s) (hq : Keeps made SyncID (s.prc p) q) :
    Inv made SyncID (s.set p q) := by
  refine inv_set h hq.ok ?_ ?_ ?_ h.exclusive
  · rw [hq.reader]
  · rw [hq.writer]
  · rw [hq.writer]

theorem inv_call {c : Call} (h : Inv made SyncID s) (hperm : permitted (s.prc p) c)
    (hs : step SyncID s (.call p c) = some s') : Inv made SyncID s' := by
  have hok := h.ok p
  obtain ⟨flag, rfl, hb, hmay, rfl⟩ := step_call hok hs
  cases c with
  | lock kind =>
    split
    · rename_i hout
      exact inv_keeps h (keeps_lock_waiting hok hb hperm (outermost_lock.mp hout))
    · rename_i hout
      exact inv_keeps h (keeps_lock_passing hok hb hperm fun hf => hout (outermost_lock.mpr hf))
  | unlock kind =>
    split
    · rename_i hout
      exact inv_keeps h (keeps_unlock_waiting hok hb hmay (outermost_unlock.mp hout))
    · rename_i hout
      exact inv_keeps h (keeps_unlock_passing hok hb hmay fun hf => hout (outermost_unlock.mpr hf))

theorem inv_semop (hid : SyncID < made.FReadWriteCount) (h : Inv made SyncID s)
    (hs : step SyncID s (.semop p) = some s') : Inv made SyncID s' := by
  have hok := h.ok p
  obtain ⟨c, sops, sem, hb, hsem, rfl⟩ := step_semop hs
  obtain ⟨rfl, hT⟩ := hok.blocked c sops hb
  have heffect := semop_operations hid hsem
  have hshare : writerShare (s.prc p) ≤ ∑ r, writerShare (s.prc r) := le_sum (fun r => writerShare (s.prc r)) p
  have hheld : (s.prc p).outer = .write → 0 < (s.prc p).reads + (s.prc p).writes → writerShare (s.prc p) = 1 := by
    intro houter hpos
    rw [share_held hpos, if_pos houter]
  have hwriters := h.writers
  have hcritical := h.critical
  have hexclusive := h.exclusive
  cases c with
  | lock kind =>
    cases kind with
    | read =>
      obtain ⟨hzero, hsr, hsw, hsc⟩ := heffect
      have houter : (s.prc p).outer = .read := by
        cases houter : (s.prc p).outer with
        | read => rfl
        | write =>
          -- it waits for itself
          have hpos : 0 < (s.prc p).reads + (s.prc p).writes := by
            refine Nat.pos_of_ne_zero fun h0 => ?_
            cases houter.symm.trans (hok.first _ _ hb h0)
          have hone := hheld houter hpos
          omega
      have houter' : ((s.prc p).returned (.lock .read)).outer = .read := houter
      refine inv_set h (ok_returned hok hb fun hwrite => by cases houter.symm.trans hwrite) ?_ ?_ ?_ ?_
      · rw [hsr, readerShare_lock hok hb houter]
        omega
      · rw [hsw, share_writer houter, share_writer houter']
      · rw [hsc, share_writer houter, share_writer houter']
      · exact Or.inr (hsw.trans hzero)
    | write =>
      obtain ⟨hzero, hpos, hsr, hsw, hsc⟩ := heffect
      have houter : (s.prc p).outer = .write := by
        cases houter : (s.prc p).outer with
        | write => rfl
        | read => exact absurd hb ((hok.reader houter).2 _).1
      have h0 : (s.prc p).reads + (s.prc p).writes = 0 := by
        refine Nat.eq_zero_of_not_pos fun hpos => ?_
        have hone := hheld houter hpos
        omega
      have houter' : ((s.prc p).returned (.lock .write)).outer = .write := houter
      obtain ⟨hbefore, hafter⟩ := writerShare_lock hb h0 houter
      refine inv_set h (ok_returned hok hb fun _ _ _ => h0) ?_ ?_ ?_ ?_
      · rw [hsr, share_reader houter, share_reader houter']
      · rw [hsw, hbefore, hafter]
      · rw [hsc, hbefore, hafter]
        omega
      · exact Or.inl (hsr.trans hzero)
  | unlock kind =>
    cases kind with
    | read =>
      obtain ⟨hpos, hsr, hsw, hsc⟩ := heffect
      have houter : (s.prc p).outer = .read := by
        cases houter : (s.prc p).outer with
        | read => rfl
        | write =>
          -- no reader is counted while it is counted as the writer
          have hone : writerShare (s.prc p) = 1 := by simp [writerShare, leaving, hb, houter]
          omega
      have houter' : ((s.prc p).returned (.unlock .read)).outer = .read := houter
      have hunlock := readerShare_unlock hb houter
      refine inv_set h (ok_returned hok hb fun hwrite => by cases houter.symm.trans hwrite) ?_ ?_ ?_ ?_
      · omega
      · rw [hsw, share_writer houter, share_writer houter']
      · rw [hsc, share_writer houter, share_writer houter']
      · omega
    | write =>
      obtain ⟨hpos, hsr, hsw, hsc⟩ := heffect
      have houter : (s.prc p).outer = .write := by
        cases houter : (s.prc p).outer with
        | write => rfl
        | read => exact absurd hb ((hok.reader houter).2 _).2
      have h0 : (s.prc p).reads + (s.prc p).writes = 0 :=
        (hok.writer houter).2 (by simp only [leaving, hb])
      have houter' : ((s.prc p).returned (.unlock .write)).outer = .write := houter
      obtain ⟨hbefore, hafter⟩ := writerShare_unlock hb h0 houter
      refine inv_set h (ok_returned hok hb fun _ _ _ => h0) ?_ ?_ ?_ ?_
      · rw [hsr, share_reader houter, share_reader houter']
      · rw [hbefore, hafter]
        omega
      · rw [hsc, hbefore, hafter]
      · omega

theorem exclusive_of_inv (h : Inv made SyncID s) : Exclusive s := by
  intro p q hne hpos
  have hpouter := (h.ok p).outer_of_writes hpos
  have hpshare : writerShare (s.prc p) = 1 := by
    rw [share_held (by omega), if_pos hpouter]
  have hshares : writerShare (s.prc p) + writerShare (s.prc q) ≤ ∑ r, writerShare (s.prc r) :=
    add_le_sum (f := fun r => writerShare (s.prc r)) hne
  have hrshare : readerShare (s.prc q) ≤ ∑ r, readerShare (s.prc r) := le_sum (fun r => readerShare (s.prc r)) q
  have hreaders := h.readers
  have hwriters := h.writers
  have hcritical := h.critical
  have hexclusive := h.exclusive
  by_contra hheld
  have hheld : 0 < (s.prc q).reads + (s.prc q).writes := by omega
  cases houter : (s.prc q).outer with
  | write =>
    rw [share_held hheld, if_pos houter] at hshares
    omega
  | read =>
    have hwrites := ((h.ok q).reader houter).1
    have hqshare : 0 < readerShare (s.prc q) := by
      simp only [readerShare, if_pos houter]
      omega
    omega

omit [DecidableEq P] in
theorem inv_initial {CriticalCount ReadWriteCount : Nat} {made : TYQPrcSync × (Nat → Nat)}
    (hmade : TYQPrcSync.create CriticalCount ReadWriteCount = some made) (hid : SyncID < made.1.FReadWriteCount) :
    Inv made.1 SyncID (initial made : System P) := by
  obtain rfl := TYQPrcSync.create_some hmade
  have hsum : ∀ f : Process → Nat, f ⟨⟨CriticalCount, ReadWriteCount, fun _ => 0⟩, none, 0, 0, .read⟩ = 0 →
      ∑ _p : P, f ⟨⟨CriticalCount, ReadWriteCount, fun _ => 0⟩, none, 0, 0, .read⟩ = 0 :=
    fun f hf => Finset.sum_eq_zero fun _ _ => hf
  have hr := hsum readerShare (by simp [readerShare, leaving])
  have hw := hsum writerShare (by simp [writerShare, leaving])
  -- of the three semaphores only the critical one is 1
  have hcri : CriticalCount + SyncID < CriticalCount + ReadWriteCount := Nat.add_lt_add_left hid _
  have hwr : ¬CriticalCount + ReadWriteCount + SyncID * 2 < CriticalCount + ReadWriteCount := by omega
  have hww : ¬CriticalCount + ReadWriteCount + SyncID * 2 + 1 < CriticalCount + ReadWriteCount := by omega
  refine ⟨fun p => ok_unblocked rfl rfl rfl rfl (fun _ => rfl) fun h => (by cases h), ?_, ?_, ?_, ?_⟩
  · exact (if_neg hwr).trans hr.symm
  · exact (if_neg hww).trans hw.symm
  · exact congrArg₂ (· + ·) (if_pos hcri) hw
  · exact Or.inl (if_neg hwr)

/-- **A writer excludes all others**, in every run where no process asks for the write lock when it took the lock as a
reader. -/
theorem writer_excludes (CriticalCount ReadWriteCount SyncID : Nat) {made : TYQPrcSync × (Nat → Nat)}
    (hmade : TYQPrcSync.create CriticalCount ReadWriteCount = some made) (as : List (Action P))
    (h : Run.Each (step SyncID) (fun s a _ => Permitted s a) (initial made) as) :
    Run.Throughout (step SyncID) Exclusive (initial made) as := by
  by_cases hid : SyncID < made.1.FReadWriteCount
  · have hinit : Inv made.1 SyncID (initial made : System P) := inv_initial hmade hid
    refine ⟨exclusive_of_inv hinit, Run.each_of (I := Inv made.1 SyncID) (fun {s a s'} hinv hs hperm => ?_) hinit h⟩
    have hinv' : Inv made.1 SyncID s' := by
      cases a with
      | call p c => exact inv_call hinv hperm hs
      | semop p => exact inv_semop hid hinv hs
    exact ⟨exclusive_of_inv hinv', hinv'⟩
  · -- every call throws
    have hnone : ∀ a : Action P, step SyncID (initial made) a = none := by
      intro a
      cases a with
      | call p c => exact if_neg fun hc => hid hc.2.2
      | semop p => rfl
    refine ⟨fun p q _ _ => ⟨rfl, rfl⟩, ?_⟩
    cases as with
    | nil => trivial
    | cons a as =>
      intro s' hs
      rw [hnone a] at hs
      cases hs

end

theorem writer_excludes_reader :
    Run.Throughout (step 0) Exclusive (initial (⟨0, 1, fun _ => 0⟩, fun i => if i < 0 + 1 then 1 else 0) : System Bool)
      [.call true (.lock .write), .semop true, .call false (.lock .read)] :=
  writer_excludes 0 1 0 rfl _ fun _ _ => ⟨Or.inl rfl, fun _ _ => ⟨trivial, fun _ _ => ⟨trivial, trivial⟩⟩⟩

-- two processes read, and one of them asks for the write lock as well
def upgrade : List (Action Bool) :=
  [.call true (.lock .read), .semop true, .call false (.lock .read), .semop false, .call true (.lock .write)]

theorem not_writer_excludes :
    ¬∀ (P : Type) [Fintype P] [DecidableEq P] (CriticalCount ReadWriteCount SyncID : Nat)
      (made : TYQPrcSync × (Nat → Nat)), TYQPrcSync.create CriticalCount ReadWriteCount = some made →
      ∀ as : List (Action P), Run.Throughout (step SyncID) Exclusive (initial made) as := by
  intro h
  have hrun := h Bool 0 1 0 (⟨0, 1, fun _ => 0⟩, fun i => if i < 0 + 1 then 1 else 0) rfl upgrade
  -- the upgrade returns
  have hend : (upgrade.foldlM (step 0) (initial (⟨0, 1, fun _ => 0⟩, fun i => if i < 0 + 1 then 1 else 0))).map
      (fun s => ((s.prc true).writes, (s.prc false).reads)) = some (1, 1) := by decide +kernel
  obtain ⟨s, hs, hheld⟩ := Option.map_eq_some_iff.mp hend
  simp only [Prod.mk.injEq] at hheld
  have hfree := (hrun.last hs true false (by decide) (by omega)).1
  omega

end Afn.ReadWrite
