import Afn.IniFile

/-!
# The lines of a configuration file

A file is read as the pieces that `fgets` takes from it one after another, and each piece as an entry. The readers
are folds over the entries: one looks for a key in a section, the other collects the items of the section.
-/

namespace Afn

open Bytes Access

namespace TIniFile

/-! ## Pieces -/

theorem length_piece_le : ∀ (n : Nat) (s : Bytes), (piece n s).length ≤ n
  | 0, _ => Nat.le_refl 0
  | _ + 1, [] => Nat.zero_le _
  | n + 1, c :: s => by
    rw [piece]
    split
    · exact Nat.succ_le_succ (Nat.zero_le n)
    · exact Nat.succ_le_succ (length_piece_le n s)

theorem piece_append_drop : ∀ (n : Nat) (s : Bytes), piece n s ++ s.drop (piece n s).length = s
  | 0, _ => rfl
  | _ + 1, [] => rfl
  | n + 1, c :: s => by
    rw [piece]
    split
    · rfl
    · exact congrArg (c :: ·) (piece_append_drop n s)

theorem piece_ne_nil {n : Nat} {s : Bytes} (h : s ≠ []) : piece (n + 1) s ≠ [] := by
  cases s with
  | nil => exact absurd rfl h
  | cons c s =>
    rw [piece]
    split
    · exact List.cons_ne_nil _ _
    · exact List.cons_ne_nil _ _

-- a short piece without a newline is the end of the file
theorem piece_end : ∀ {n : Nat} {s : Bytes}, (piece n s).length < n → (piece n s).getLast? ≠ some 10 → piece n s = s
  | 0, _, h, _ => absurd h (Nat.not_lt_zero _)
  | _ + 1, [], _, _ => rfl
  | n + 1, c :: s, h, hlast => by
    rw [piece] at h hlast ⊢
    split at h <;> rename_i hc
    · rw [if_pos hc, List.getLast?_singleton, hc] at hlast
      exact absurd rfl hlast
    · rw [if_neg hc] at hlast ⊢
      have hn := Nat.lt_of_succ_lt_succ h
      rw [piece_end hn]
      intro hl
      refine hlast ?_
      rw [List.getLast?_cons, hl]
      rfl

theorem piece_of_ne : ∀ {n : Nat} {s : Bytes}, piece n s ≠ s → ∀ t, piece n (piece n s ++ t) = piece n s
  | 0, _, _, _ => rfl
  | _ + 1, [], h, _ => absurd rfl h
  | n + 1, c :: s, h, t => by
    rw [piece] at h ⊢
    split <;> rename_i hc
    · rw [List.singleton_append, piece, if_pos hc]
    · rw [if_neg hc] at h
      rw [List.cons_append, piece, if_neg hc, piece_of_ne (fun hs => h (congrArg (c :: ·) hs))]

theorem piece_append : ∀ {u : Bytes} {n : Nat} (t : Bytes), 10 ∉ u → u.length ≤ n →
    piece n (u ++ t) = u ++ piece (n - u.length) t
  | [], _, _, _, _ => rfl
  | c :: u, n, t, hu, hn => by
    obtain ⟨n, rfl⟩ : ∃ m, n = m + 1 := Nat.exists_eq_add_one_of_ne_zero (Nat.ne_of_gt (Nat.lt_of_lt_of_le
      (Nat.succ_pos _) hn))
    have hc : c ≠ 10 := fun hc => hu (hc ▸ List.mem_cons_self ..)
    have hu : 10 ∉ u := fun h => hu (List.mem_cons_of_mem c h)
    rw [List.cons_append, piece, if_neg hc, piece_append t hu (Nat.le_of_succ_le_succ hn), List.length_cons,
      Nat.add_sub_add_right, List.cons_append]

/-- The pieces that `fgets` takes one after another. -/
def pieces (s : Bytes) : List Bytes :=
  if s = [] then [] else piece 99 s :: pieces (s.drop (piece 99 s).length)
termination_by s.length
decreasing_by
  rename_i h
  have hp : 0 < (piece 99 s).length := List.length_pos_iff.mpr (piece_ne_nil h)
  have hs : 0 < s.length := List.length_pos_iff.mpr h
  simp only [List.length_drop]
  omega

@[simp] theorem pieces_nil : pieces [] = [] := by rw [pieces, if_pos rfl]

theorem pieces_of_ne_nil {s : Bytes} (h : s ≠ []) :
    pieces s = piece 99 s :: pieces (s.drop (piece 99 s).length) := by
  rw [pieces, if_neg h]

theorem pieces_piece_append {s t : Bytes} (h : piece 99 s ≠ []) (hs : piece 99 (piece 99 s ++ t) = piece 99 s) :
    pieces (piece 99 s ++ t) = piece 99 s :: pieces t := by
  rw [pieces_of_ne_nil (List.append_ne_nil_of_left_ne_nil h t), hs, List.drop_left]

theorem flatten_pieces (s : Bytes) : (pieces s).flatten = s := by
  induction s using pieces.induct with
  | case1 => rw [pieces_nil, List.flatten_nil]
  | case2 s h ih => rw [pieces_of_ne_nil h, List.flatten_cons, ih, piece_append_drop]

theorem length_of_mem_pieces (s : Bytes) : ∀ p ∈ pieces s, p.length ≤ 99 := by
  induction s using pieces.induct with
  | case1 =>
    intro p hp
    rw [pieces_nil] at hp
    exact absurd hp List.not_mem_nil
  | case2 s h ih =>
    intro p hp
    rw [pieces_of_ne_nil h] at hp
    rcases List.mem_cons.mp hp with rfl | hp
    · exact length_piece_le 99 s
    · exact ih p hp

/-- **The pieces before a place stay when what follows it changes.** -/
theorem pieces_change : ∀ {A B : List Bytes} {P s : Bytes}, pieces s = A ++ P :: B →
    (∀ t, pieces (A.flatten ++ t) = A ++ pieces t) ∧ pieces B.flatten = B
  | [], B, P, s, h => by
    refine ⟨fun t => rfl, ?_⟩
    by_cases hs : s = []
    · rw [hs, pieces_nil] at h
      exact absurd h.symm (List.cons_ne_nil _ _)
    · rw [pieces_of_ne_nil hs] at h
      obtain ⟨-, rfl⟩ := List.cons.inj h
      rw [flatten_pieces]
  | p :: A, B, P, s, h => by
    by_cases hs : s = []
    · rw [hs, pieces_nil] at h
      exact absurd h.symm (List.cons_ne_nil _ _)
    · rw [pieces_of_ne_nil hs] at h
      obtain ⟨rfl, hA⟩ := List.cons.inj h
      obtain ⟨ih, hB⟩ := pieces_change hA
      -- something follows the piece
      have hne : piece 99 s ≠ s := by
        intro he
        rw [he, List.drop_length, pieces_nil] at hA
        exact absurd hA (by simp)
      refine ⟨fun t => ?_, hB⟩
      rw [List.flatten_cons, List.append_assoc, pieces_piece_append (piece_ne_nil hs) (piece_of_ne hne _), ih t,
        List.cons_append]

/-! ## Entries -/

-- what a line is to the readers
inductive Entry
  | skip
  | header (sec : Bytes)
  | item (name value : Bytes)
  deriving DecidableEq

def entry (line : Bytes) : Entry :=
  if isremark line then .skip
  else
    match getsection line LINE_LEN with
    | some sec => .header sec
    | none =>
      if (getkeyname line LINE_LEN).1 = 0 then .skip
      else .item (getkeyname line LINE_LEN).2 (getkeyvalue line LINE_LEN).2

theorem entry_cases (line : Bytes) :
    (isremark line = true ∧ entry line = .skip) ∨
    (isremark line = false ∧ ∃ sec, getsection line LINE_LEN = some sec ∧ entry line = .header sec) ∨
    (isremark line = false ∧ getsection line LINE_LEN = none ∧ (getkeyname line LINE_LEN).1 = 0 ∧
      entry line = .skip) ∨
    (isremark line = false ∧ getsection line LINE_LEN = none ∧ (getkeyname line LINE_LEN).1 ≠ 0 ∧
      entry line = .item (getkeyname line LINE_LEN).2 (getkeyvalue line LINE_LEN).2) := by
  unfold entry
  by_cases hr : isremark line = true
  · exact .inl ⟨hr, if_pos hr⟩
  rw [if_neg hr]
  have hr : isremark line = false := Bool.eq_false_iff.mpr hr
  cases hs : getsection line LINE_LEN with
  | some sec => exact .inr (.inl ⟨hr, sec, rfl, rfl⟩)
  | none =>
    by_cases hc : (getkeyname line LINE_LEN).1 = 0
    · exact .inr (.inr (.inl ⟨hr, rfl, hc, if_pos hc⟩))
    · exact .inr (.inr (.inr ⟨hr, rfl, hc, if_neg hc⟩))

theorem entry_item {line name value : Bytes} (h : entry line = .item name value) :
    isremark line = false ∧ getsection line LINE_LEN = none ∧ (getkeyname line LINE_LEN).1 ≠ 0 ∧
      name = (getkeyname line LINE_LEN).2 ∧ value = (getkeyvalue line LINE_LEN).2 := by
  obtain ⟨-, he⟩ | ⟨-, sec, -, he⟩ | ⟨-, -, -, he⟩ | ⟨hr, hs, hc, he⟩ := entry_cases line
  · cases he.symm.trans h
  · cases he.symm.trans h
  · cases he.symm.trans h
  · cases he.symm.trans h
    exact ⟨hr, hs, hc, rfl, rfl⟩

def entries (s : Bytes) : List Entry := (pieces s).map fun p => entry (cString p)

-- where the reader is that looks for a key in a section
inductive Reader
  | searching
  | inside
  | found (value : Bytes)
  | ended
  deriving DecidableEq

def Reader.next (sect key : Bytes) : Reader → Entry → Reader
  | .searching, .header sec => if sec = sect then .inside else .searching
  | .inside, .header _ => .ended
  | .inside, .item name value => if name = key then .found value else .inside
  | r, _ => r

def Reader.value : Reader → Option Bytes
  | .found value => some value
  | _ => none

def lookup (sect key : Bytes) (r : Reader) (es : List Entry) : Option Bytes := (es.foldl (Reader.next sect key) r).value

def items (sect : Bytes) : (step : Bool) → List Entry → List ConfigItem
  | false, .header sec :: es => items sect (decide (sec = sect)) es
  | true, .header _ :: _ => []
  | true, .item name value :: es => ⟨name, value⟩ :: items sect true es
  | step, _ :: es => items sect step es
  | _, [] => []

def place (step : Bool) : Reader := if step then .inside else .searching

section
variable {sect key : Bytes} {step : Bool} {e : Entry}

theorem lookup_found (v : Bytes) (es : List Entry) : lookup sect key (.found v) es = some v := by
  induction es with
  | nil => rfl
  | cons e es ih => exact ih

theorem lookup_ended (es : List Entry) : lookup sect key .ended es = none := by
  induction es with
  | nil => rfl
  | cons e es ih => exact ih

theorem lookup_cons (r : Reader) (e : Entry) (es : List Entry) :
    lookup sect key r (e :: es) = lookup sect key (r.next sect key e) es := rfl

theorem lookup_append (r : Reader) (es fs : List Entry) :
    lookup sect key r (es ++ fs) = lookup sect key (es.foldl (Reader.next sect key) r) fs := by
  unfold lookup
  rw [List.foldl_append]

theorem next_found {v : Bytes} (h : (place step).next sect key e = .found v) : step = true ∧ e = .item key v := by
  cases step with
  | false =>
    cases e with
    | skip => cases h
    | item name value => cases h
    | header sec =>
      by_cases hs : sec = sect
      · simp only [place, Bool.false_eq_true, if_false, Reader.next, hs, if_true, reduceCtorEq] at h
      · simp only [place, Bool.false_eq_true, if_false, Reader.next, hs, reduceCtorEq] at h
  | true =>
    refine ⟨rfl, ?_⟩
    cases e with
    | skip => cases h
    | header sec => cases h
    | item name value =>
      by_cases hk : name = key
      · simp only [place, if_true, Reader.next, hk, Reader.found.injEq] at h
        rw [hk, h]
      · simp only [place, if_true, Reader.next, hk, if_false, reduceCtorEq] at h

/-- **What is looked up is the first item of that name.** -/
theorem lookup_eq_find : ∀ (es : List Entry) (step : Bool),
    lookup sect key (place step) es = ((items sect step es).find? (·.name = key)).map (·.value)
  | [], step => by cases step <;> rfl
  | .skip :: es, false => lookup_eq_find es false
  | .skip :: es, true => lookup_eq_find es true
  | .item _ _ :: es, false => lookup_eq_find es false
  | .header _ :: es, true => lookup_ended es
  | .header sec :: es, false => by
    have hnext : Reader.searching.next sect key (.header sec) = place (decide (sec = sect)) := by
      by_cases h : sec = sect
      · simp [Reader.next, place, h]
      · simp [Reader.next, place, h]
    rw [show place false = Reader.searching from rfl, lookup_cons, hnext, lookup_eq_find es]
    rfl
  | .item name value :: es, true => by
    rw [show place true = Reader.inside from rfl, lookup_cons, items, List.find?_cons]
    by_cases h : name = key
    · simp only [Reader.next, h, if_true, decide_true, lookup_found, Option.map_some]
    · simp only [Reader.next, h, if_false, decide_false]
      exact lookup_eq_find es true

end

/-! ## Reading -/

def FILE.rest (f : FILE) : Bytes := f.data.drop f.pos

def FILE.Honest (f : FILE) : Prop := f.eof = true → f.rest = []

def FILE.next (f : FILE) : FILE :=
  ⟨f.data, f.pos + (piece 99 f.rest).length,
    f.eof || (decide ((piece 99 f.rest).length < 99) && (piece 99 f.rest).getLast? != some 10)⟩

section
variable {f : FILE}

theorem fgets_nil (h : f.rest = []) : (f.fgets 100).1 = none := by
  unfold FILE.rest at h
  simp only [FILE.fgets, h, if_true]

theorem fgets_of_ne_nil (h : f.rest ≠ []) : f.fgets 100 = (some (piece 99 f.rest), f.next) := by
  unfold FILE.fgets
  exact if_neg h

theorem rest_next : f.next.rest = f.rest.drop (piece 99 f.rest).length := by
  unfold FILE.next FILE.rest
  rw [List.drop_drop]

theorem length_rest_next (h : f.rest ≠ []) : f.next.rest.length < f.rest.length := by
  have hp : 0 < (piece 99 f.rest).length := List.length_pos_iff.mpr (piece_ne_nil h)
  have hs : 0 < f.rest.length := List.length_pos_iff.mpr h
  rw [rest_next, List.length_drop]
  omega

theorem honest_next (h : f.rest ≠ []) (hf : f.Honest) : f.next.Honest := by
  intro he
  have hfe : f.eof = false := Bool.eq_false_iff.mpr fun he => h (hf he)
  have hp : (piece 99 f.rest).length < 99 ∧ (piece 99 f.rest).getLast? ≠ some 10 := by
    simpa only [FILE.next, hfe, Bool.false_or, Bool.and_eq_true, decide_eq_true_eq, bne_iff_ne] using he
  rw [rest_next, piece_end hp.1 hp.2, List.drop_length]

theorem entries_rest (h : f.rest ≠ []) :
    entries f.rest = entry (cString (piece 99 f.rest)) :: entries f.next.rest := by
  unfold entries
  rw [pieces_of_ne_nil h, List.map_cons, rest_next]

end

theorem length_getkeyvalue_le (line : Bytes) : (getkeyvalue line LINE_LEN).2.length ≤ 127 := by
  simp only [getkeyvalue]
  split
  · exact Nat.zero_le _
  · exact List.length_take_le ..

def Result.value : Result → Option Bytes
  | .found keyvalue _ _ => some keyvalue
  | .error _ => none

section
variable {sect key : Bytes} {len : Nat}

/-- One turn of the loop of `getconfigstr` is one step of the reader. -/
theorem getconfigstrLoop_succ {f : FILE} (h : f.rest ≠ []) (hf : f.Honest) (fuel : Nat) (step : Bool) :
    getconfigstrLoop sect key len (fuel + 1) f step =
      match (place step).next sect key (entry (cString (piece 99 f.rest))) with
      | .searching => getconfigstrLoop sect key len fuel f.next false
      | .inside => getconfigstrLoop sect key len fuel f.next true
      | .found v => .found (v.take len) (f.next.pos - (cString (piece 99 f.rest)).length)
          (cString (piece 99 f.rest)).length
      | .ended => .error 5 := by
  have hfe : f.eof = false := Bool.eq_false_iff.mpr fun he => h (hf he)
  rw [getconfigstrLoop, hfe, fgets_of_ne_nil h]
  simp only [Bool.false_eq_true, if_false]
  generalize cString (piece 99 f.rest) = line
  obtain ⟨hr, he⟩ | ⟨hr, sec, hsec, he⟩ | ⟨hr, hsec, hc, he⟩ | ⟨hr, hsec, hc, he⟩ := entry_cases line
  · rw [he, if_pos hr]
    cases step <;> rfl
  · rw [he, hr, hsec]
    cases step with
    | true => rfl
    | false =>
      by_cases hs : sec = sect
      · simp only [hs, place, Reader.next, Bool.false_eq_true, if_false, if_true, decide_true]
      · simp only [hs, place, Reader.next, Bool.false_eq_true, if_false, decide_false]
  · rw [he, hr, hsec]
    cases step with
    | false => rfl
    | true => simp only [hc, ne_eq, not_true, false_and, Bool.false_eq_true, if_false, if_true, place, Reader.next]
  · rw [he, hr, hsec]
    cases step with
    | false => rfl
    | true =>
      by_cases hk : (getkeyname line LINE_LEN).2 = key
      · simp only [hc, hk, ne_eq, not_false_eq_true, and_self, Bool.false_eq_true, if_true, if_false, place, Reader.next]
      · simp only [hk, and_false, Bool.false_eq_true, if_true, if_false, place, Reader.next]

theorem sectionItemLoop_succ {f : FILE} (h : f.rest ≠ []) (hf : f.Honest) (fuel : Nat) (step : Bool) :
    sectionItemLoop sect (fuel + 1) f step =
      match step, entry (cString (piece 99 f.rest)) with
      | false, .header sec => sectionItemLoop sect fuel f.next (decide (sec = sect))
      | true, .header _ => []
      | true, .item name value => ⟨name, value⟩ :: sectionItemLoop sect fuel f.next true
      | step, _ => sectionItemLoop sect fuel f.next step := by
  have hfe : f.eof = false := Bool.eq_false_iff.mpr fun he => h (hf he)
  rw [sectionItemLoop, hfe, fgets_of_ne_nil h]
  simp only [Bool.false_eq_true, if_false]
  generalize cString (piece 99 f.rest) = line
  obtain ⟨hr, he⟩ | ⟨hr, sec, hsec, he⟩ | ⟨hr, hsec, hc, he⟩ | ⟨hr, hsec, hc, he⟩ := entry_cases line
  · rw [he, if_pos hr]
    cases step <;> rfl
  · rw [he, hr, hsec]
    cases step <;> rfl
  · rw [he, hr, hsec]
    cases step with
    | false => rfl
    | true => simp only [hc, ne_eq, not_true, Bool.false_eq_true, if_false]
  · rw [he, hr, hsec]
    cases step with
    | false => rfl
    | true => simp only [hc, ne_eq, not_false_eq_true, Bool.false_eq_true, if_true, if_false]

theorem loop_nil {f : FILE} (h : f.rest = []) (fuel : Nat) (step : Bool) :
    (getconfigstrLoop sect key len (fuel + 1) f step).value = none ∧ sectionItemLoop sect (fuel + 1) f step = [] := by
  have hg := fgets_nil h
  rw [getconfigstrLoop, sectionItemLoop]
  generalize f.fgets 100 = r at hg
  obtain ⟨line, g⟩ := r
  cases hg
  cases f.eof with
  | true => exact ⟨rfl, rfl⟩
  | false => exact ⟨rfl, rfl⟩

/-- **What `getconfigstr` finds is what the reader looks up.** -/
theorem value_getconfigstrLoop (fuel : Nat) : ∀ (f : FILE) (step : Bool), f.Honest → f.rest.length < fuel →
    (getconfigstrLoop sect key VALUE_LEN fuel f step).value = lookup sect key (place step) (entries f.rest) := by
  induction fuel with
  | zero => exact fun _ _ _ h => absurd h (Nat.not_lt_zero _)
  | succ fuel ih =>
    intro f step hf hlen
    by_cases h : f.rest = []
    · rw [(loop_nil h fuel step).1, h]
      unfold entries
      rw [pieces_nil]
      cases step <;> rfl
    have hnext := honest_next h hf
    have hl : f.next.rest.length < fuel := Nat.lt_of_lt_of_le (length_rest_next h) (Nat.le_of_lt_succ hlen)
    rw [getconfigstrLoop_succ h hf, entries_rest h, lookup_cons]
    cases hr : (place step).next sect key (entry (cString (piece 99 f.rest))) with
    | searching => exact ih f.next false hnext hl
    | inside => exact ih f.next true hnext hl
    | found v =>
      have hv : v.length ≤ VALUE_LEN := by
        rw [(entry_item (next_found hr).2).2.2.2.2]
        exact Nat.le_trans (length_getkeyvalue_le _) (by decide)
      simp only [lookup_found, Result.value, List.take_of_length_le hv]
    | ended => exact (lookup_ended _).symm

/-- **What `GetSectionItem` collects is the items of the section.** -/
theorem sectionItemLoop_eq (fuel : Nat) : ∀ (f : FILE) (step : Bool), f.Honest → f.rest.length < fuel →
    sectionItemLoop sect fuel f step = items sect step (entries f.rest) := by
  induction fuel with
  | zero => exact fun _ _ _ h => absurd h (Nat.not_lt_zero _)
  | succ fuel ih =>
    intro f step hf hlen
    by_cases h : f.rest = []
    · rw [(@loop_nil sect [] 0 f h fuel step).2, h]
      unfold entries
      rw [pieces_nil]
      cases step <;> rfl
    have hnext := honest_next h hf
    have hl : f.next.rest.length < fuel := Nat.lt_of_lt_of_le (length_rest_next h) (Nat.le_of_lt_succ hlen)
    rw [sectionItemLoop_succ h hf, entries_rest h]
    cases entry (cString (piece 99 f.rest)) with
    | skip => cases step <;> exact ih f.next _ hnext hl
    | header sec =>
      cases step with
      | false => exact ih f.next _ hnext hl
      | true => rfl
    | item name value =>
      cases step with
      | false => exact ih f.next _ hnext hl
      | true => exact congrArg (⟨name, value⟩ :: ·) (ih f.next _ hnext hl)

end

theorem honest_stream (ini : TIniFile) : ini.stream.Honest := fun h => absurd h Bool.false_ne_true

theorem readString_eq (ini : TIniFile) (sect key defaultVal : Bytes) :
    ini.readString sect key defaultVal = (lookup sect key .searching (entries ini.file)).getD defaultVal := by
  have hv : (ini.getconfigstr sect key VALUE_LEN).value = lookup sect key .searching (entries ini.file) :=
    value_getconfigstrLoop _ ini.stream false (honest_stream ini) (Nat.lt_succ_self _)
  rw [← hv]
  unfold readString
  cases ini.getconfigstr sect key VALUE_LEN <;> rfl

theorem getSectionItem_eq (ini : TIniFile) (sect : Bytes) :
    ini.getSectionItem sect = items sect false (entries ini.file) :=
  sectionItemLoop_eq _ ini.stream false (honest_stream ini) (Nat.lt_succ_self _)

/-- **The two readers agree**: the value that is read is that of the first item of the name in the section, and the
default is fallen back on when there is no such item, and then only. -/
theorem readString_eq_first_item (ini : TIniFile) (sect key : Bytes) :
    (∀ defaultVal, ini.readString sect key defaultVal =
      match (ini.getSectionItem sect).find? (·.name = key) with
      | some item => item.value
      | none => defaultVal) ∧
      ((∀ defaultVal, ini.readString sect key defaultVal = defaultVal) ↔
        ∀ item ∈ ini.getSectionItem sect, item.name ≠ key) := by
  have hread : ∀ defaultVal, ini.readString sect key defaultVal =
      match (ini.getSectionItem sect).find? (·.name = key) with
      | some item => item.value
      | none => defaultVal := by
    intro defaultVal
    rw [readString_eq, show Reader.searching = place false from rfl, lookup_eq_find, ← getSectionItem_eq]
    cases (ini.getSectionItem sect).find? (·.name = key) <;> rfl
  refine ⟨hread, ?_⟩
  constructor
  · intro hd item hitem hname
    cases hf : (ini.getSectionItem sect).find? (·.name = key) with
    | none => exact absurd (decide_eq_true hname) (List.find?_eq_none.mp hf item hitem)
    | some first =>
      -- no value is every default
      have hvalue : ∀ defaultVal, first.value = defaultVal := by
        intro defaultVal
        have h := (hread defaultVal).symm.trans (hd defaultVal)
        rw [hf] at h
        exact h
      exact absurd ((hvalue []).symm.trans (hvalue [0])) (List.cons_ne_nil _ _).symm
  · intro hno defaultVal
    have hf : (ini.getSectionItem sect).find? (·.name = key) = none :=
      List.find?_eq_none.mpr fun item hitem => by simpa using hno item hitem
    rw [hread, hf]

end TIniFile

end Afn
