import Afn.Lines
import Afn.Telnet

/-!
# Which commands of a stream are executed

A client means its lines: each one that says anything is a command. The callback executes what it holds as
one command as soon as that has a newline in it, so the commands are those of the lines exactly when every
read that brings a newline ends with it and brings one command.
-/

namespace Afn

open Bytes Access Lines

namespace TelnetServer

/-! ## The lines that say something -/

def tokens (line : Bytes) : List Bytes := words isBlank line

def commands (stream : Bytes) : List (List Bytes) := ((completed 10 stream).map tokens).filter (· ≠ [])

theorem commands_of_not_mem {s : Bytes} (h : 10 ∉ s) : commands s = [] := by
  unfold commands
  rw [completed_of_not_mem h]
  rfl

theorem commands_append (s r : Bytes) : commands (s ++ r) = commands s ++ commands (kept 10 s ++ r) := by
  unfold commands
  rw [completed_append, List.map_append, List.filter_append]

theorem tokens_eq_flatten {s : Bytes} (h : kept 10 s = []) : tokens s = (commands s).flatten := by
  have hlines : s.splitOn 10 = completed 10 s ++ [[]] := by
    rw [← h]
    exact (List.dropLast_append_getLast (List.splitOn_ne_nil 10 s)).symm
  have hempty : words isBlank [] = [] := rfl
  unfold tokens commands
  rw [words_eq_flatMap (show isBlank 10 = true from rfl), hlines, List.flatMap_append, List.flatMap_singleton, hempty,
    List.append_nil, List.flatMap_def]
  exact (List.flatten_filter_ne_nil).symm

/-! ## The scan -/

theorem scan_eq (g_cmd : Bytes) : ∀ (tmp : Bytes) (params : List Bytes), (∀ c ∈ tmp, isBlank c = false) →
    scan g_cmd tmp params = params ++ ((tmp ++ g_cmd).splitOnP isBlank).dropLast.filter (· ≠ []) := by
  induction g_cmd with
  | nil =>
    intro tmp params htmp
    rw [List.append_nil, List.splitOnP_eq_singleton htmp]
    exact (List.append_nil params).symm
  | cons c g_cmd ih =>
    intro tmp params htmp
    unfold scan
    by_cases hc : isBlank c = true
    · rw [if_pos hc, ih [] _ (List.forall_mem_nil _), List.splitOnP_append_cons_of_forall_mem htmp c hc,
        List.dropLast_cons_of_ne_nil (List.splitOnP_ne_nil _ _), List.nil_append, List.filter_cons]
      by_cases ht : tmp = []
      · simp [ht]
      · simp [ht]
    · have htmp' : ∀ x ∈ tmp ++ [c], isBlank x = false := by
        intro x hx
        rcases List.mem_append.mp hx with hx | hx
        · exact htmp x hx
        · rw [List.mem_singleton.mp hx]
          exact Bool.eq_false_iff.mpr hc
      rw [if_neg hc, ih _ _ htmp', List.append_assoc, List.singleton_append]

theorem scan_of_kept_nil {s : Bytes} (h : kept 10 s = []) : scan s [] [] = tokens s := by
  rw [scan_eq s [] [] (List.forall_mem_nil _), List.nil_append, List.nil_append]
  rcases kept_nil_iff.mp h with rfl | hlast
  · rfl
  · obtain ⟨a, rfl⟩ := List.getLast?_eq_some_iff.mp hlast
    unfold tokens words
    rw [List.splitOnP_append_cons a [] (show isBlank 10 = true from rfl), List.splitOnP_nil, List.dropLast_concat,
      List.filter_append]
    simp

/-! ## One read -/

/-- A read that a client without backspaces and NULs can cause. -/
structure Plain (cmd : Bytes) : Prop where
  ne_nil : cmd ≠ []
  length_le : cmd.length ≤ 511
  no_nul : 0 ∉ cmd
  no_backspace : 8 ∉ cmd

instance (cmd : Bytes) : Decidable (Plain cmd) :=
  decidable_of_iff (cmd ≠ [] ∧ cmd.length ≤ 511 ∧ 0 ∉ cmd ∧ 8 ∉ cmd)
    ⟨fun ⟨h₁, h₂, h₃, h₄⟩ => ⟨h₁, h₂, h₃, h₄⟩, fun h => ⟨h.ne_nil, h.length_le, h.no_nul, h.no_backspace⟩⟩

section
variable {g_cmd cmd : Bytes}

theorem connReadcb_plain (h : Plain cmd) :
    connReadcb g_cmd cmd =
      if 10 ∈ g_cmd ++ cmd then
        if scan (g_cmd ++ cmd) [] [] = [] then .ok (g_cmd ++ cmd, [])
        else .ok ([], [execute (scan (g_cmd ++ cmd) [] [])])
      else .ok (g_cmd ++ cmd, []) := by
  have hlast := List.getLast?_eq_some_getLast h.ne_nil
  have hback : cmd.getLast h.ne_nil ≠ 8 := fun he => h.no_backspace (he ▸ List.getLast_mem h.ne_nil)
  have hlen : ¬ 512 ≤ cmd.length := by have := h.length_le; omega
  unfold connReadcb
  simp only [hlast, if_neg hlen, if_neg hback, cString_eq h.no_nul]

/-- A read that brings a newline ends with it, and brings exactly one command: that of the text kept before and
what it adds to it. -/
def BringsOne (before cmd : Bytes) : Prop :=
  10 ∈ cmd → cmd.getLast? = some 10 ∧ (commands (before ++ cmd)).length = 1

instance (before cmd : Bytes) : Decidable (BringsOne before cmd) := inferInstanceAs (Decidable (_ → _))

-- what the client means by a read when `before` was kept
def Meant (before cmd : Bytes) (r : Bytes × List Reply) : Prop :=
  r = (kept 10 (before ++ cmd), (commands (before ++ cmd)).map execute)

/-- **One read does what the client means exactly when it brings at most one command, and that whole.** -/
theorem connReadcb_meant_iff (hkept : 10 ∉ g_cmd) (h : Plain cmd) :
    (∃ r, connReadcb g_cmd cmd = .ok r ∧ Meant g_cmd cmd r) ↔ BringsOne g_cmd cmd := by
  rw [connReadcb_plain h]
  unfold Meant BringsOne
  by_cases hnl : 10 ∈ cmd
  · have hmem : 10 ∈ g_cmd ++ cmd := List.mem_append_right _ hnl
    have hlast : (g_cmd ++ cmd).getLast? = cmd.getLast? := List.getLast?_append_of_ne_nil _ h.ne_nil
    have hne : g_cmd ++ cmd ≠ [] := List.append_ne_nil_of_right_ne_nil _ h.ne_nil
    rw [if_pos hmem]
    constructor
    · rintro ⟨r, hr, rfl⟩ _
      split at hr
      · injection hr with hr
        injection hr with hg hout
        have hno : 10 ∉ kept 10 (g_cmd ++ cmd) := not_mem_kept _
        rw [← hg] at hno
        exact absurd hmem hno
      · injection hr with hr
        injection hr with hg hout
        refine ⟨?_, ?_⟩
        · rcases kept_nil_iff.mp hg.symm with hnil | hend
          · exact absurd hnil hne
          · rw [← hlast]
            exact hend
        · have hlen := congrArg List.length hout
          rw [List.length_map] at hlen
          exact hlen.symm
    · intro hone
      obtain ⟨hend, hlen⟩ := hone hnl
      rw [← hlast] at hend
      have hnil : kept 10 (g_cmd ++ cmd) = [] := kept_nil_iff.mpr (Or.inr hend)
      obtain ⟨params, hparams⟩ := List.length_eq_one_iff.mp hlen
      have hscan : scan (g_cmd ++ cmd) [] [] = params := by
        rw [scan_of_kept_nil hnil, tokens_eq_flatten hnil, hparams, List.flatten_singleton]
      have hpos : params ≠ [] := by
        have hin : params ∈ commands (g_cmd ++ cmd) := by rw [hparams]; exact List.mem_singleton_self _
        exact of_decide_eq_true (List.mem_filter.mp hin).2
      refine ⟨([], [execute params]), ?_, ?_⟩
      · rw [hscan, if_neg hpos]
      · rw [hnil, hparams]
        rfl
  · have hmem : 10 ∉ g_cmd ++ cmd := fun hm => (List.mem_append.mp hm).elim hkept hnl
    refine iff_of_true ⟨_, if_neg hmem, ?_⟩ fun hin => absurd hin hnl
    rw [kept_of_not_mem hmem, commands_of_not_mem hmem]
    rfl

end

/-! ## Sessions -/

/-- What was executed is what the client means by the reads, and what is left is kept. -/
def Faithful (reads : List Bytes) : Prop :=
  serve reads = .ok ⟨kept 10 reads.flatten, (commands reads.flatten).map execute⟩

theorem serve_concat (before : List Bytes) (cmd : Bytes) :
    serve (before ++ [cmd]) = serve before >>= fun s => s.read cmd := by
  unfold serve
  simp only [List.foldlM_append, List.foldlM_cons, List.foldlM_nil, bind_pure]

theorem faithful_nil : Faithful [] := rfl

theorem faithful_concat_iff {before : List Bytes} {cmd : Bytes} (hf : Faithful before) (h : Plain cmd) :
    Faithful (before ++ [cmd]) ↔ BringsOne (kept 10 before.flatten) cmd := by
  rw [← connReadcb_meant_iff (not_mem_kept _) h]
  unfold Faithful Meant at *
  rw [serve_concat, hf, List.flatten_append, List.flatten_singleton, kept_append, commands_append, List.map_append]
  show Session.read _ cmd = _ ↔ _
  unfold Session.read
  cases connReadcb (kept 10 before.flatten) cmd with
  | error e =>
    constructor
    · exact fun he => nomatch he
    · exact fun ⟨_, he, _⟩ => nomatch he
  | ok r =>
    obtain ⟨g, out⟩ := r
    constructor
    · intro he
      injection he with he
      injection he with hg hout
      exact ⟨_, rfl, Prod.ext hg (List.append_cancel_left hout)⟩
    · rintro ⟨_, he, rfl⟩
      injection he with he
      injection he with hg hout
      rw [hg, hout]
      rfl

/-- **After every read the commands of the lines have been executed and the rest is kept, exactly when each
read that brings a newline ends with it and brings one command.** -/
theorem segmented_iff (reads : List Bytes) (h : ∀ cmd ∈ reads, Plain cmd) :
    (∀ i ≤ reads.length, Faithful (reads.take i)) ↔
      ∀ i (hi : i < reads.length), BringsOne (kept 10 (reads.take i).flatten) reads[i] := by
  have hstep : ∀ i (hi : i < reads.length), Faithful (reads.take i) →
      (Faithful (reads.take (i + 1)) ↔ BringsOne (kept 10 (reads.take i).flatten) reads[i]) := by
    intro i hi hf
    rw [List.take_succ_eq_append_getElem hi]
    exact faithful_concat_iff hf (h _ (List.getElem_mem hi))
  constructor
  · intro hall i hi
    exact (hstep i hi (hall i (Nat.le_of_lt hi))).mp (hall (i + 1) hi)
  · intro hone i
    induction i with
    | zero => exact fun _ => faithful_nil
    | succ i ih => exact fun hi => (hstep i hi (ih (Nat.le_of_lt hi))).mpr (hone i hi)

/-- A line that is typed in two parts is one command. -/
theorem segmented_ls : Faithful [ascii "l", ascii "s\r\n"] := by
  refine (segmented_iff [ascii "l", ascii "s\r\n"] ?_).mpr ?_ 2 (Nat.le_refl 2)
  · decide +kernel
  · decide +kernel

/-- Two lines in one read are executed as one command with a parameter. -/
theorem not_segmented :
    ¬ ∀ reads : List Bytes, (∀ cmd ∈ reads, Plain cmd) →
      serve reads = .ok ⟨kept 10 reads.flatten, (commands reads.flatten).map execute⟩ := by
  intro h
  have hserve := h [ascii "ls\nfreshjzq\n"] (by decide +kernel)
  exact absurd (congrArg (fun r => r.toOption.map fun s => s.replies.length) hserve) (by decide +kernel)

end TelnetServer

end Afn
