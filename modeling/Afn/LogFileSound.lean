import Afn.LogFile
import Afn.Run

/-!
# The log keeps its records

The files together are the records that were to be written, in their order and none split between two files, as long
as no file is renamed to a name that is taken. No file becomes longer than `FMaxLen`.
-/

namespace Afn

open Bytes TelnetServer

/-! ## Classes -/

theorem and_bit_ne_zero (x : BitVec 16) (c : LOGCLS) :
    x &&& (1#16 <<< c.toNat) ≠ 0#16 ↔ x.getLsbD c.toNat = true := by
  have hbit : (1#16 <<< c.toNat) = BitVec.twoPow 16 c.toNat := rfl
  have hne : BitVec.twoPow 16 c.toNat ≠ 0#16 := by cases c <;> decide
  rw [hbit, BitVec.and_twoPow]
  split
  · simp [*]
  · simp [*]

theorem TLogFile.getLsbD_setLogClsOutput (x : BitVec 16) (c d : LOGCLS) (Output : Bool) :
    (TLogFile.setLogClsOutput x c Output).getLsbD d.toNat = if d = c then Output else x.getLsbD d.toNat := by
  have hbit : (1#16 <<< c.toNat).getLsbD d.toNat = decide (d = c) := by
    cases c <;> cases d <;> decide
  have hlt : d.toNat < 16 := by cases d <;> decide
  unfold TLogFile.setLogClsOutput
  generalize 1#16 <<< c.toNat = Buf at hbit
  cases Output with
  | true =>
    rw [if_pos rfl, BitVec.getLsbD_or, hbit]
    by_cases h : d = c
    · simp [h]
    · simp [h]
  | false =>
    rw [if_neg Bool.false_ne_true, BitVec.getLsbD_and, BitVec.getLsbD_not, hbit]
    by_cases h : d = c
    · simp [h]
    · simp [h, hlt]

/-! ## One record -/

namespace LogDisk

def content (d : LogDisk) : Bytes := d.file.getD []

-- the file has been renamed to `DestFile`, and the record `Cont` stands in a new one
def rotated (d : LogDisk) (DestFile : String) (Cont : Bytes) : LogDisk :=
  ⟨some Cont, d.archives.filter (fun a => a.1 ≠ DestFile) ++ [(DestFile, d.content)]⟩

end LogDisk

namespace TLogFile

section
variable {self : TLogFile} {Cont : Bytes} {d : LogDisk}

theorem makeRoom_fits {times : List Tm} {FileLen : Nat}
    (h : (FileLen + Cont.length) % 2 ^ 32 ≤ self.FMaxLen.toNat) :
    self.makeRoom Cont.length times FileLen d = some d := by
  unfold makeRoom
  exact if_neg (Nat.not_lt_of_le h)

theorem write_eq (hmax : self.FMaxLen.toNat < 2 ^ 31) (hfit : Cont.length ≤ self.FMaxLen.toNat)
    (hlen : d.content.length ≤ self.FMaxLen.toNat) (times : List Tm) :
    self.write Cont times d =
      if d.content.length + Cont.length ≤ self.FMaxLen.toNat then some (d.fwrite Cont)
      else times.head?.map fun p => d.rotated (self.destFile p) Cont := by
  have hmod : d.content.length % 2 ^ 32 = d.content.length := Nat.mod_eq_of_lt (by omega)
  have hsum : (d.content.length + Cont.length) % 2 ^ 32 = d.content.length + Cont.length := Nat.mod_eq_of_lt (by omega)
  have hcont : (0 + Cont.length) % 2 ^ 32 ≤ self.FMaxLen.toNat := Nat.le_trans (Nat.mod_le _ _) (by omega)
  have hopen : (d.fopen.file.getD []).length = d.content.length := rfl
  unfold write
  rw [if_neg (Nat.not_lt_of_le hfit)]
  simp only [hopen, hmod]
  by_cases hroom : d.content.length + Cont.length ≤ self.FMaxLen.toNat
  · rw [if_pos hroom, makeRoom_fits (by rw [hsum]; exact hroom)]
    rfl
  · rw [if_neg hroom]
    unfold makeRoom
    rw [if_pos (by rw [hsum]; exact Nat.not_le.mp hroom)]
    cases times with
    | nil => rfl
    | cons p times =>
      simp only [makeRoom_fits hcont]
      rfl

theorem log_cases (hmax : self.FMaxLen.toNat < 2 ^ 31) (hlen : d.content.length ≤ self.FMaxLen.toNat)
    {FOupLogCls : BitVec 16} {LogCls : LOGCLS} {Log : Bytes} {p : Tm} {times : List Tm} {d' : LogDisk}
    (h : self.log FOupLogCls LogCls Log p times d = some d') (hinf : self.inf LogCls p Log = Cont) :
    (¬(FOupLogCls.getLsbD LogCls.toNat = true ∧ Cont.length ≤ self.FMaxLen.toNat) ∧ d' = d) ∨
    ((FOupLogCls.getLsbD LogCls.toNat = true ∧ Cont.length ≤ self.FMaxLen.toNat) ∧
      d.content.length + Cont.length ≤ self.FMaxLen.toNat ∧ d' = d.fwrite Cont) ∨
    ((FOupLogCls.getLsbD LogCls.toNat = true ∧ Cont.length ≤ self.FMaxLen.toNat) ∧
      self.FMaxLen.toNat < d.content.length + Cont.length ∧
      ∃ q, times.head? = some q ∧ d' = d.rotated (self.destFile q) Cont) := by
  unfold log at h
  simp only [and_bit_ne_zero, hinf] at h
  by_cases hset : FOupLogCls.getLsbD LogCls.toNat = true
  · rw [if_pos hset] at h
    by_cases hfit : Cont.length ≤ self.FMaxLen.toNat
    · rw [write_eq hmax hfit hlen] at h
      by_cases hroom : d.content.length + Cont.length ≤ self.FMaxLen.toNat
      · rw [if_pos hroom] at h
        cases h
        exact .inr (.inl ⟨⟨hset, hfit⟩, hroom, rfl⟩)
      · rw [if_neg hroom] at h
        obtain ⟨q, hq, hd⟩ := Option.map_eq_some_iff.mp h
        exact .inr (.inr ⟨⟨hset, hfit⟩, Nat.not_le.mp hroom, q, hq, hd.symm⟩)
    · have hsame : self.write Cont times d = some d := if_pos (Nat.not_le.mp hfit)
      rw [hsame] at h
      cases h
      exact .inl ⟨fun h => hfit h.2, rfl⟩
  · rw [if_neg hset] at h
    cases h
    exact .inl ⟨fun h => hset h.1, rfl⟩

end

end TLogFile

/-! ## Runs -/

namespace LogDisk

def contents (d : LogDisk) : Bytes := (d.archives.map Prod.snd).flatten ++ d.content

theorem contents_rotated (d : LogDisk) (DestFile : String) (Cont : Bytes) :
    (d.rotated DestFile Cont).contents =
      ((d.archives.filter fun a => a.1 ≠ DestFile).map Prod.snd).flatten ++ d.content ++ Cont := by
  unfold contents rotated
  rw [List.map_append, List.flatten_append, List.map_singleton, List.flatten_singleton]
  rfl

theorem length_filter_le (DestFile : String) : ∀ as : List (String × Bytes),
    ((as.filter fun a => a.1 ≠ DestFile).map Prod.snd).flatten.length ≤ (as.map Prod.snd).flatten.length
  | [] => Nat.le_refl _
  | a :: as => by
    have ih := length_filter_le DestFile as
    rw [List.filter_cons]
    split
    · simp only [List.map_cons, List.flatten_cons, List.length_append]
      exact Nat.add_le_add_left ih _
    · simp only [List.map_cons, List.flatten_cons, List.length_append]
      exact Nat.le_add_left_of_le ih

theorem length_filter_lt {DestFile : String} : ∀ {as : List (String × Bytes)}, DestFile ∈ as.map Prod.fst →
    (∀ a ∈ as, a.2 ≠ []) →
    ((as.filter fun a => a.1 ≠ DestFile).map Prod.snd).flatten.length < (as.map Prod.snd).flatten.length
  | a :: as, hmem, hne => by
    obtain ⟨ha, hrest⟩ := List.forall_mem_cons.mp hne
    rw [List.filter_cons]
    split
    next hkeep =>
      have hother : a.1 ≠ DestFile := of_decide_eq_true hkeep
      have hmem : DestFile ∈ as.map Prod.fst := (List.mem_cons.mp hmem).resolve_left (Ne.symm hother)
      simp only [List.map_cons, List.flatten_cons, List.length_append]
      exact Nat.add_lt_add_left (length_filter_lt hmem hrest) _
    next =>
      have hle := length_filter_le DestFile as
      have hpos : 0 < a.2.length := List.length_pos_iff.mpr ha
      simp only [List.map_cons, List.flatten_cons, List.length_append]
      omega

theorem filter_new {DestFile : String} {as : List (String × Bytes)} (h : DestFile ∉ as.map Prod.fst) :
    (as.filter fun a => a.1 ≠ DestFile) = as := by
  apply List.filter_eq_self.mpr
  intro a ha
  apply decide_eq_true
  intro heq
  exact h (List.mem_map.mpr ⟨a, ha, heq⟩)

end LogDisk

namespace Logbook

/-- The files hold the records that were to be written, each in one file, and none of them is longer than it may be. -/
structure Complete (t : TLogFile) (s : Logbook) : Prop where
  whole : ∃ (parts : List (List Bytes)) (last : List Bytes), s.records = parts.flatten ++ last ∧
    s.disk.archives.map Prod.snd = parts.map List.flatten ∧ s.disk.content = last.flatten
  bounded : ∀ Cont ∈ s.disk.content :: s.disk.archives.map Prod.snd, Cont.length ≤ t.FMaxLen.toNat

/-- The name that the file is given, if it is, is not taken. -/
def Fresh (self : TLogFile) (s : Logbook) (act : Act) : Prop :=
  match act with
  | .setLogClsOutput _ _ _ => True
  | .log _ _ _ _ times => ∀ Cont ∈ due self s act, self.FMaxLen.toNat < s.disk.content.length + Cont.length →
      ∀ p ∈ times.head?, self.destFile p ∉ s.disk.archives.map Prod.fst

structure Inv (t : TLogFile) (s : Logbook) : Prop where
  complete : Complete t s
  agrees : ∀ i LogCls, (s.FOupLogCls i).getLsbD LogCls.toNat = s.enabled i LogCls
  filled : ∀ a ∈ s.disk.archives, a.2 ≠ []

section
variable {self : TLogFile} {s s' : Logbook} {act : Act}

theorem Complete.contents_eq (h : Complete self s) : s.disk.contents = s.records.flatten := by
  obtain ⟨parts, last, hrecords, harchives, hcontent⟩ := h.whole
  unfold LogDisk.contents
  rw [hrecords, harchives, hcontent, List.flatten_append, List.flatten_flatten]

theorem Complete.content_le (h : Complete self s) : s.disk.content.length ≤ self.FMaxLen.toNat :=
  h.bounded _ List.mem_cons_self

/-- What a step can do to the files. -/
theorem step_cases (hmax : self.FMaxLen.toNat < 2 ^ 31) (hI : Inv self s) (h : step self s act = some s') :
    (s'.records = s.records ∧ s'.disk = s.disk ∧ Fresh self s act) ∨
    (∃ Cont, s'.records = s.records ++ [Cont] ∧ s.disk.content.length + Cont.length ≤ self.FMaxLen.toNat ∧
      s'.disk = s.disk.fwrite Cont ∧ Fresh self s act) ∨
    ∃ Cont p, s'.records = s.records ++ [Cont] ∧ self.FMaxLen.toNat < s.disk.content.length + Cont.length ∧
      Cont.length ≤ self.FMaxLen.toNat ∧ s'.disk = s.disk.rotated (self.destFile p) Cont ∧
      (Fresh self s act ↔ self.destFile p ∉ s.disk.archives.map Prod.fst) := by
  cases act with
  | setLogClsOutput i c Output =>
    cases h
    exact .inl ⟨List.append_nil _, rfl, trivial⟩
  | log i c Log p times =>
    obtain ⟨disk, hlog, rfl⟩ := Option.map_eq_some_iff.mp h
    simp only [due, Fresh]
    generalize hinf : self.inf c p Log = Cont
    have hcases := TLogFile.log_cases hmax hI.complete.content_le hlog hinf
    rw [hI.agrees] at hcases
    rcases hcases with ⟨hnot, hdisk⟩ | ⟨hset, hroom, hdisk⟩ | ⟨hset, hover, q, hq, hdisk⟩
    · rw [if_neg hnot]
      exact .inl ⟨List.append_nil _, hdisk, fun Cont' hCont => absurd hCont (Option.not_mem_none Cont')⟩
    · rw [if_pos hset]
      refine .inr (.inl ⟨Cont, rfl, hroom, hdisk, ?_⟩)
      intro Cont' hCont hover
      cases hCont
      exact absurd hroom (Nat.not_le.mpr hover)
    · rw [if_pos hset, hq]
      refine .inr (.inr ⟨Cont, q, rfl, hover, hset.2, hdisk, ?_⟩)
      constructor
      · exact fun hfresh => hfresh _ rfl hover q rfl
      · intro hnew Cont' hCont hover' r hr
        cases hr
        exact hnew

theorem agrees_step (hI : Inv self s) (h : step self s act = some s') :
    ∀ i LogCls, (s'.FOupLogCls i).getLsbD LogCls.toNat = s'.enabled i LogCls := by
  cases act with
  | setLogClsOutput i c Output =>
    cases h
    intro j d
    simp only [Function.update_apply]
    by_cases hj : j = i
    · simp only [if_pos hj]
      rw [TLogFile.getLsbD_setLogClsOutput, hI.agrees, Function.update_apply]
    · simp only [if_neg hj]
      exact hI.agrees j d
  | log i c Log p times =>
    obtain ⟨disk, -, rfl⟩ := Option.map_eq_some_iff.mp h
    exact hI.agrees

theorem Inv.fwrite {Cont : Bytes} (hI : Inv self s) (hrecords : s'.records = s.records ++ [Cont])
    (hroom : s.disk.content.length + Cont.length ≤ self.FMaxLen.toNat) (hdisk : s'.disk = s.disk.fwrite Cont) :
    Complete self s' := by
  obtain ⟨parts, last, hparts, harchives, hcontent⟩ := hI.complete.whole
  have hnew : s'.disk.content = s.disk.content ++ Cont := by
    rw [hdisk]
    rfl
  have hold : s'.disk.archives = s.disk.archives := by
    rw [hdisk]
    rfl
  refine ⟨⟨parts, last ++ [Cont], ?_, ?_, ?_⟩, ?_⟩
  · rw [hrecords, hparts, List.append_assoc]
  · rw [hold, harchives]
  · rw [hnew, hcontent, List.flatten_append, List.flatten_singleton]
  · rw [hold, hnew]
    refine List.forall_mem_cons.mpr ⟨?_, (List.forall_mem_cons.mp hI.complete.bounded).2⟩
    rw [List.length_append]
    exact hroom

theorem Inv.rotated {Cont : Bytes} {DestFile : String} (hI : Inv self s)
    (hrecords : s'.records = s.records ++ [Cont]) (hfit : Cont.length ≤ self.FMaxLen.toNat)
    (hdisk : s'.disk = s.disk.rotated DestFile Cont) (hnew : DestFile ∉ s.disk.archives.map Prod.fst) :
    Complete self s' := by
  obtain ⟨parts, last, hparts, harchives, hcontent⟩ := hI.complete.whole
  have hold : s'.disk.archives.map Prod.snd = s.disk.archives.map Prod.snd ++ [s.disk.content] := by
    rw [hdisk]
    unfold LogDisk.rotated
    rw [LogDisk.filter_new hnew, List.map_append]
    rfl
  have hcont : s'.disk.content = Cont := by
    rw [hdisk]
    rfl
  obtain ⟨hlen, hlens⟩ := List.forall_mem_cons.mp hI.complete.bounded
  refine ⟨⟨parts ++ [last], [Cont], ?_, ?_, ?_⟩, ?_⟩
  · rw [hrecords, hparts, List.flatten_append, List.flatten_singleton]
  · rw [hold, harchives, hcontent, List.map_append]
    rfl
  · rw [hcont, List.flatten_singleton]
  · rw [hold, hcont]
    refine List.forall_mem_cons.mpr ⟨hfit, ?_⟩
    intro b hb
    rcases List.mem_append.mp hb with hb | hb
    · exact hlens b hb
    · rw [List.mem_singleton.mp hb]
      exact hlen

theorem Inv.step (hmax : self.FMaxLen.toNat < 2 ^ 31) (hI : Inv self s) (h : step self s act = some s')
    (hfresh : Fresh self s act) : Complete self s' ∧ Inv self s' := by
  have hagrees := agrees_step hI h
  rcases step_cases hmax hI h with ⟨hrecords, hdisk, -⟩ | ⟨Cont, hrecords, hroom, hdisk, -⟩ |
    ⟨Cont, p, hrecords, hover, hfit, hdisk, hiff⟩
  · have hc : Complete self s' := by
      obtain ⟨hwhole, hbounded⟩ := hI.complete
      rw [← hdisk] at hwhole hbounded
      rw [← hrecords] at hwhole
      exact ⟨hwhole, hbounded⟩
    refine ⟨hc, hc, hagrees, ?_⟩
    rw [hdisk]
    exact hI.filled
  · have hc := hI.fwrite hrecords hroom hdisk
    refine ⟨hc, hc, hagrees, ?_⟩
    rw [hdisk]
    exact hI.filled
  · have hnew := hiff.mp hfresh
    have hc := hI.rotated hrecords hfit hdisk hnew
    refine ⟨hc, hc, hagrees, ?_⟩
    intro a ha
    rw [hdisk] at ha
    rcases List.mem_append.mp ha with ha | ha
    · exact hI.filled a (List.mem_filter.mp ha).1
    · rw [List.mem_singleton.mp ha]
      intro hnil
      have hlen : s.disk.content.length = 0 := by
        rw [show s.disk.content = [] from hnil]
        rfl
      omega

/-- A file with a name that was taken is lost, and what stood in it is missing. -/
theorem Complete.fresh (hmax : self.FMaxLen.toNat < 2 ^ 31) (hI : Inv self s) (h : step self s act = some s')
    (hc : Complete self s') : Fresh self s act := by
  rcases step_cases hmax hI h with ⟨-, -, hfresh⟩ | ⟨-, -, -, -, hfresh⟩ |
    ⟨Cont, p, hrecords, -, -, hdisk, hiff⟩
  · exact hfresh
  · exact hfresh
  · apply hiff.mpr
    intro hmem
    have hlt := LogDisk.length_filter_lt hmem hI.filled
    have hnew : s'.disk.contents = s.disk.contents ++ Cont := by
      rw [hc.contents_eq, hrecords, List.flatten_append, List.flatten_singleton, hI.complete.contents_eq]
    have hlen := congrArg List.length hnew
    rw [hdisk, LogDisk.contents_rotated] at hlen
    simp only [LogDisk.contents, List.length_append] at hlen
    omega

theorem inv_start : Inv self start := by
  have hall : ∀ LogCls : LOGCLS, (0xFFFF#16).getLsbD LogCls.toNat = true := by
    intro LogCls
    cases LogCls <;> decide
  refine ⟨⟨⟨[], [], rfl, rfl, rfl⟩, ?_⟩, fun _ => hall, fun a h => (nomatch h)⟩
  intro Cont h
  rw [List.mem_singleton.mp h]
  exact Nat.zero_le _

end

/-- The files hold every record that was to be written, in order and whole, in the runs in which the file is never
renamed to a name that is taken. -/
theorem complete_iff (self : TLogFile) (hmax : self.FMaxLen.toNat < 2 ^ 31) (acts : List Act) :
    Run.Throughout (step self) (Complete self) start acts ↔
      Run.Each (step self) (fun s act _ => Fresh self s act) start acts := by
  have hstart : Complete self start := inv_start.complete
  unfold Run.Throughout
  rw [and_iff_right hstart]
  exact Run.each_iff (I := Inv self) (fun hI h hfresh => hI.step hmax h hfresh) (fun hI h hc => hc.fresh hmax hI h)
    inv_start

-- the log of `AFN.cpp`, in a file of at most 100 bytes
def afnLog : TLogFile := ⟨"/var/log/afn.log", 100, "afn", "1.0.0"⟩

def exitRecord (i : Nat) (p : Tm) (times : List Tm) : Act :=
  .log i .LOG_MINOR (ascii "PkgUserListener::OnRun exit") p times

-- the file is renamed before the second record, and the third one is not written
def exits : List Act :=
  [exitRecord 0 ⟨118, 2, 9, 8, 30, 0⟩ [], exitRecord 1 ⟨118, 2, 9, 8, 30, 5⟩ [⟨118, 2, 9, 8, 30, 6⟩],
    .setLogClsOutput 0 .LOG_MINOR false, exitRecord 0 ⟨118, 2, 9, 8, 31, 0⟩ []]

theorem complete_iff_afn :
    Run.Throughout (step afnLog) (Complete afnLog) start exits ↔
      Run.Each (step afnLog) (fun s act _ => Fresh afnLog s act) start exits :=
  complete_iff afnLog (by decide) exits

example : ((exits.foldlM (step afnLog) start).map fun s => (s.disk.archives.map Prod.fst, s.records.length)) =
    some (["/var/log/afn.log.0309_083006"], 2) := by decide +kernel

end Logbook

end Afn
