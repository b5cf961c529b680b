import Afn.Query

/-!
# Which queries get their parameters right

A text is cut into characters and placeholders. The two scans find the placeholders and put the literals into
their places, and stay within the strings, exactly for texts that do not lead one of them astray.
-/

namespace Afn

open Bytes Access

namespace TQuery

/-! ## Texts -/

inductive Piece
  | char (c : UInt8)
  | param (name : Bytes)
  deriving DecidableEq

def quotes (count : Nat) (c : UInt8) : Nat := if c = quote then count + 1 else count

/-- The pieces of a text before which `count` quotes stand. A colon that is not in quotes begins a placeholder;
`name` is what is read of its name. -/
def pieces : (count : Nat) → (name : Option Bytes) → Bytes → List Piece
  | _, none, [] => []
  | _, some name, [] => [.param name]
  | count, none, c :: text =>
    if c = colon ∧ count % 2 = 0 then pieces count (some []) text
    else .char c :: pieces (quotes count c) none text
  | count, some name, c :: text =>
    if endsName c then .param name :: .char c :: pieces count none text
    else pieces (quotes count c) (some (name ++ [c])) text

def names : List Piece → List Bytes
  | [] => []
  | .char _ :: ps => names ps
  | .param name :: ps => name :: names ps

-- the text with `lits i` in the place of the first placeholder
def fill (lits : Nat → Bytes) : Nat → List Piece → Bytes
  | _, [] => []
  | i, .char c :: ps => c :: fill lits i ps
  | i, .param _ :: ps => lits i ++ fill lits (i + 1) ps

def template (ps : List Piece) : Bytes := fill (fun _ => [question]) 0 ps

section
variable {c : UInt8}

theorem endsName_cases (h : endsName c = true) : c ≠ 0 ∧ c ≠ quote ∧ c ≠ colon ∧ c ≠ question := by
  unfold endsName at h
  simp only [Bool.or_eq_true, beq_iff_eq] at h
  rcases h with (rfl | rfl) | rfl <;> decide

theorem quotes_of_ne (count : Nat) (h : c ≠ quote) : quotes count c = count := if_neg h

end

theorem quotes_concat {name : Bytes} {c : UInt8} {count : Nat} (h : count % 2 = name.count quote % 2) :
    quotes count c % 2 = (name ++ [c]).count quote % 2 := by
  unfold quotes
  rw [List.count_append, List.count_singleton]
  by_cases hc : c = quote
  · rw [if_pos hc, if_pos (beq_iff_eq.mpr hc)]
    omega
  · rw [if_neg hc, if_neg (fun h => hc (beq_iff_eq.mp h))]
    exact h

theorem not_mem_concat {name : Bytes} {c : UInt8} (h : 0 ∉ name) (hc : c ≠ 0) : 0 ∉ name ++ [c] := by
  intro hmem
  rcases List.mem_append.mp hmem with hmem | hmem
  · exact h hmem
  · exact hc (List.mem_singleton.mp hmem).symm

theorem pieces_some (text : Bytes) : ∀ (count : Nat) (name : Bytes),
    ∃ w ps, pieces count (some name) text = .param (name ++ w) :: ps := by
  induction text with
  | nil => exact fun count name => ⟨[], [], by rw [pieces, List.append_nil]⟩
  | cons c text ih =>
    intro count name
    unfold pieces
    split
    · exact ⟨[], _, by rw [List.append_nil]⟩
    · obtain ⟨w, ps, hps⟩ := ih (quotes count c) (name ++ [c])
      exact ⟨c :: w, ps, by rw [hps, List.append_assoc, List.singleton_append]⟩

/-! ## Finding the placeholders -/

/-- Within the name no colon begins another placeholder. -/
def Unbroken (name : Bytes) : Prop := ∀ a b, name = a ++ colon :: b → a.count quote % 2 = 1

def Readable (name : Bytes) : Prop := name.length < 32 ∧ Unbroken name

theorem unbroken_nil : Unbroken [] :=
  fun a _ h => absurd h.symm (List.append_ne_nil_of_right_ne_nil a (List.cons_ne_nil _ _))

theorem unbroken_concat {name : Bytes} {c : UInt8} (h : Unbroken name) (hc : c = colon → name.count quote % 2 = 1) :
    Unbroken (name ++ [c]) := by
  intro a b hab
  rcases List.eq_nil_or_concat b with rfl | ⟨b', x, rfl⟩
  · obtain ⟨rfl, hcolon⟩ := List.append_inj' hab rfl
    exact hc (List.singleton_inj.mp hcolon)
  · rw [List.concat_eq_append, ← List.cons_append, ← List.append_assoc] at hab
    obtain ⟨hname, -⟩ := List.append_inj' hab rfl
    exact h a b' hname

theorem newParam_eq {name : Bytes} (h0 : 0 ∉ name) (h : name.length < 32) : newParam name = .ok ⟨name, none⟩ := by
  have hlen : name.length ≤ (List.replicate 32 (0 : UInt8)).length := by rw [List.length_replicate]; omega
  obtain ⟨k, hk⟩ : ∃ k, 32 - name.length = k + 1 := ⟨32 - name.length - 1, by omega⟩
  unfold newParam memcpy
  rw [if_pos hlen, List.drop_replicate, hk, List.replicate_succ]
  show (readCString (name ++ 0 :: _) >>= fun n => pure (TYQParam.mk n none)) = _
  rw [readCString_append_nul h0]
  rfl

theorem newParam_long {name : Bytes} (h0 : 0 ∉ name) (h : ¬ name.length < 32) : ∃ e, newParam name = .error e := by
  unfold newParam memcpy
  by_cases hlen : name.length ≤ (List.replicate 32 (0 : UInt8)).length
  · rw [if_pos hlen]
    rw [List.length_replicate] at hlen
    have hdrop : (List.replicate 32 (0 : UInt8)).drop name.length = [] := by
      rw [List.drop_eq_nil_iff, List.length_replicate]
      omega
    refine ⟨.outOfBounds, ?_⟩
    show (readCString (name ++ _) >>= fun n => pure (TYQParam.mk n none)) = _
    rw [hdrop, List.append_nil, readCString, if_neg h0]
    rfl
  · rw [if_neg hlen]
    exact ⟨_, rfl⟩

theorem newParam_ok {name : Bytes} {pa : TYQParam} (h0 : 0 ∉ name) (h : newParam name = .ok pa) :
    pa = ⟨name, none⟩ ∧ name.length < 32 := by
  by_cases hlen : name.length < 32
  · rw [newParam_eq h0 hlen] at h
    exact ⟨(Except.ok.inj h).symm, hlen⟩
  · obtain ⟨e, he⟩ := newParam_long h0 hlen
    rw [he] at h
    cases h

def unset (ps : List Piece) : List TYQParam := (names ps).map fun name => ⟨name, none⟩

section
variable {c : UInt8} {start : Bytes} {count : Nat}

theorem createLoop_colon (name : Option Bytes) (h : count % 2 = 0) :
    createLoop (colon :: start) count name = createLoop start count (some []) := by
  have hne : colon ≠ quote := by decide
  cases name with
  | none => rw [createLoop, if_neg (by decide), if_neg hne, if_pos ⟨rfl, h⟩]
  | some name => rw [createLoop, if_neg (by decide), if_neg hne, if_pos ⟨rfl, h⟩]

theorem createLoop_char (h0 : c ≠ 0) (h : ¬ (c = colon ∧ count % 2 = 0)) :
    createLoop (c :: start) count none =
      createLoop start (quotes count c) none >>= fun r => .ok (c :: r.1, r.2) := by
  have h' : ¬ (c = colon ∧ quotes count c % 2 = 0) := by
    rintro ⟨rfl, he⟩
    exact h ⟨rfl, he⟩
  rw [createLoop, if_neg h0]
  exact if_neg h'

theorem createLoop_end {name : Bytes} (h : endsName c = true) :
    createLoop (c :: start) count (some name) = newParam name >>= fun pa =>
      createLoop start count none >>= fun r => .ok (question :: c :: r.1, pa :: r.2) := by
  obtain ⟨h0, hquote, hcolon, -⟩ := endsName_cases h
  rw [createLoop, if_neg h0, if_neg (fun hc => hcolon hc.1), if_pos h, if_neg hquote]
  rfl

theorem createLoop_name {name : Bytes} (h0 : c ≠ 0) (h : ¬ (c = colon ∧ count % 2 = 0)) (he : ¬ endsName c = true) :
    createLoop (c :: start) count (some name) = createLoop start (quotes count c) (some (name ++ [c])) := by
  have h' : ¬ (c = colon ∧ quotes count c % 2 = 0) := by
    rintro ⟨rfl, he⟩
    exact h ⟨rfl, he⟩
  rw [createLoop, if_neg h0]
  exact (if_neg h').trans (if_neg he)

end

theorem fill_const (x : Bytes) (i : Nat) (ps : List Piece) : fill (fun _ => x) i ps = fill (fun _ => x) 0 ps := by
  induction ps generalizing i with
  | nil => rfl
  | cons p ps ih =>
    cases p with
    | char c =>
      unfold fill
      rw [ih i]
    | param name =>
      unfold fill
      rw [ih (i + 1), ih (0 + 1)]

theorem template_param (name : Bytes) (ps : List Piece) : template (.param name :: ps) = question :: template ps := by
  unfold template
  rw [fill, fill_const]
  rfl

theorem createLoop_finds (text : Bytes) : ∀ (count : Nat) (name : Option Bytes), 0 ∉ text →
    (∀ n, name = some n → 0 ∉ n ∧ count % 2 = n.count quote % 2) →
    (∀ n ∈ names (pieces count name text), Readable n) →
      createLoop (text ++ [0]) count name = .ok (template (pieces count name text), unset (pieces count name text)) := by
  induction text with
  | nil =>
    intro count name _ hname hread
    cases name with
    | none => rfl
    | some n =>
      have hnew := newParam_eq (hname n rfl).1 (hread n (List.mem_cons_self ..)).1
      show (newParam n >>= fun pa => .ok ([question], [pa])) = _
      rw [hnew]
      rfl
  | cons c text ih =>
    intro count name htext hname hread
    have h0 : c ≠ 0 := fun h => htext (h ▸ List.mem_cons_self ..)
    have htext' : 0 ∉ text := fun h => htext (List.mem_cons_of_mem c h)
    rw [List.cons_append]
    cases name with
    | none =>
      by_cases hcolon : c = colon ∧ count % 2 = 0
      · rw [pieces, if_pos hcolon] at hread ⊢
        rw [hcolon.1, createLoop_colon none hcolon.2]
        refine ih count (some []) htext' ?_ hread
        rintro n ⟨rfl⟩
        exact ⟨List.not_mem_nil, hcolon.2⟩
      · rw [pieces, if_neg hcolon] at hread ⊢
        rw [createLoop_char h0 hcolon, ih (quotes count c) none htext' (fun n h => nomatch h) hread]
        rfl
    | some n =>
      obtain ⟨hn0, hparity⟩ := hname n rfl
      by_cases hend : endsName c = true
      · rw [pieces, if_pos hend] at hread ⊢
        have hn := hread n (List.mem_cons_self ..)
        have hrest := ih count none htext' (fun n h => nomatch h) fun m hm => hread m (List.mem_cons_of_mem _ hm)
        rw [createLoop_end hend, newParam_eq hn0 hn.1, template_param]
        show (createLoop (text ++ [0]) count none >>= _) = _
        rw [hrest]
        rfl
      · rw [pieces, if_neg hend] at hread ⊢
        have hcolon : ¬ (c = colon ∧ count % 2 = 0) := by
          rintro ⟨rfl, heven⟩
          obtain ⟨w, ps, hps⟩ := pieces_some text (quotes count colon) (n ++ [colon])
          have hmem : n ++ [colon] ++ w ∈ names (pieces (quotes count colon) (some (n ++ [colon])) text) := by
            rw [hps]
            exact List.mem_cons_self ..
          have hodd := (hread _ hmem).2 n w (by rw [List.append_assoc, List.singleton_append])
          omega
        rw [createLoop_name h0 hcolon hend]
        refine ih _ _ htext' ?_ hread
        rintro m ⟨rfl⟩
        exact ⟨not_mem_concat hn0 h0, quotes_concat hparity⟩

theorem bind_ok {α β : Type} {x : Except Fault α} {f : α → Except Fault β} {b : β} (h : x >>= f = .ok b) :
    ∃ a, x = .ok a ∧ f a = .ok b := by
  cases x with
  | error e => cases h
  | ok a => exact ⟨a, rfl, h⟩

def found (params : List TYQParam) : List Bytes := params.map TYQParam.FName

/-- Once the scan has begun a name again it is shorter than it should be. -/
theorem createLoop_behind (text : Bytes) : ∀ (count : Nat) (tx nm : Bytes), 0 ∉ text → 0 ∉ tx →
    tx.length < nm.length → ∀ newsql params, createLoop (text ++ [0]) count (some tx) = .ok (newsql, params) →
      found params ≠ names (pieces count (some nm) text) := by
  induction text with
  | nil =>
    intro count tx nm _ htx hlt newsql params h
    obtain ⟨pa, hpa, hr⟩ := bind_ok (x := newParam tx) (f := fun pa => .ok ([question], [pa])) h
    cases hr
    obtain ⟨rfl, -⟩ := newParam_ok htx hpa
    intro heq
    have hlen := congrArg List.length (List.singleton_inj.mp heq)
    exact absurd hlen (Nat.ne_of_lt hlt)
  | cons c text ih =>
    intro count tx nm htext htx hlt newsql params h
    have h0 : c ≠ 0 := fun h => htext (h ▸ List.mem_cons_self ..)
    have htext' : 0 ∉ text := fun h => htext (List.mem_cons_of_mem c h)
    rw [List.cons_append] at h
    by_cases hend : endsName c = true
    · rw [createLoop_end hend] at h
      obtain ⟨pa, hpa, h⟩ := bind_ok h
      obtain ⟨r, -, h⟩ := bind_ok h
      cases h
      obtain ⟨rfl, -⟩ := newParam_ok htx hpa
      rw [pieces, if_pos hend]
      intro heq
      have hlen := congrArg List.length (List.cons.inj heq).1
      exact absurd hlen (Nat.ne_of_lt hlt)
    · rw [pieces, if_neg hend]
      by_cases hcolon : c = colon ∧ count % 2 = 0
      · rw [hcolon.1, createLoop_colon _ hcolon.2] at h
        have hq : quotes count c = count := quotes_of_ne count (by rw [hcolon.1]; decide)
        rw [hq]
        exact ih count [] (nm ++ [c]) htext' List.not_mem_nil (by simp) newsql params h
      · rw [createLoop_name h0 hcolon hend] at h
        exact ih _ (tx ++ [c]) (nm ++ [c]) htext' (not_mem_concat htx h0) (by simpa using hlt) newsql params h

theorem readable_of_found (text : Bytes) : ∀ (count : Nat) (name : Option Bytes), 0 ∉ text →
    (∀ n, name = some n → 0 ∉ n ∧ Unbroken n ∧ count % 2 = n.count quote % 2) →
    ∀ newsql params, createLoop (text ++ [0]) count name = .ok (newsql, params) →
      found params = names (pieces count name text) → ∀ n ∈ names (pieces count name text), Readable n := by
  induction text with
  | nil =>
    intro count name _ hname newsql params h heq n hn
    cases name with
    | none => exact absurd hn List.not_mem_nil
    | some m =>
      obtain ⟨hm0, hm, -⟩ := hname m rfl
      obtain ⟨pa, hpa, -⟩ := bind_ok (x := newParam m) (f := fun pa => .ok ([question], [pa])) h
      obtain ⟨rfl, hlen⟩ := newParam_ok hm0 hpa
      rw [List.mem_singleton.mp hn]
      exact ⟨hlen, hm⟩
  | cons c text ih =>
    intro count name htext hname newsql params h heq
    have h0 : c ≠ 0 := fun h => htext (h ▸ List.mem_cons_self ..)
    have htext' : 0 ∉ text := fun h => htext (List.mem_cons_of_mem c h)
    rw [List.cons_append] at h
    cases name with
    | none =>
      by_cases hcolon : c = colon ∧ count % 2 = 0
      · rw [pieces, if_pos hcolon] at heq ⊢
        rw [hcolon.1, createLoop_colon none hcolon.2] at h
        refine ih count (some []) htext' ?_ newsql params h heq
        rintro n ⟨rfl⟩
        exact ⟨List.not_mem_nil, unbroken_nil, hcolon.2⟩
      · rw [pieces, if_neg hcolon] at heq ⊢
        rw [createLoop_char h0 hcolon] at h
        obtain ⟨r, hr, h⟩ := bind_ok h
        cases h
        exact ih _ none htext' (fun n h => nomatch h) r.1 r.2 hr heq
    | some m =>
      obtain ⟨hm0, hm, hparity⟩ := hname m rfl
      by_cases hend : endsName c = true
      · rw [pieces, if_pos hend] at heq ⊢
        rw [createLoop_end hend] at h
        obtain ⟨pa, hpa, h⟩ := bind_ok h
        obtain ⟨r, hr, h⟩ := bind_ok h
        cases h
        obtain ⟨rfl, hlen⟩ := newParam_ok hm0 hpa
        intro n hn
        rcases List.mem_cons.mp hn with rfl | hn
        · exact ⟨hlen, hm⟩
        · exact ih count none htext' (fun n h => nomatch h) r.1 r.2 hr (List.cons.inj heq).2 n hn
      · rw [pieces, if_neg hend] at heq ⊢
        by_cases hcolon : c = colon ∧ count % 2 = 0
        · rw [hcolon.1, createLoop_colon _ hcolon.2] at h
          have hq : quotes count c = count := quotes_of_ne count (by rw [hcolon.1]; decide)
          rw [hq] at heq
          have hbehind := createLoop_behind text count [] (m ++ [c]) htext' List.not_mem_nil (by simp) newsql params h
          exact absurd heq hbehind
        · rw [createLoop_name h0 hcolon hend] at h
          refine ih _ (some (m ++ [c])) htext' ?_ newsql params h heq
          rintro n ⟨rfl⟩
          refine ⟨not_mem_concat hm0 h0, unbroken_concat hm ?_, quotes_concat hparity⟩
          intro hc
          have hodd : ¬ count % 2 = 0 := fun he => hcolon ⟨hc, he⟩
          omega

/-! ## Filling them in -/

def litText : Value → Bytes
  | .int val => COM.numeral 10 (toULong val)
  | .str val => quote :: (cString val ++ [quote])

theorem toULong_lt (val : Int32) : toULong val < 10 ^ 20 := by
  have h : val.toInt % 2 ^ 64 < 2 ^ 64 := Int.emod_lt_of_pos _ (by decide)
  unfold toULong
  omega

theorem not_mem_numeral (val : Nat) : 0 ∉ COM.numeral 10 val := fun h => absurd (COM.numeral_decimal h).1 (by decide)

theorem literal_eq (v : Value) : literal v = .ok (litText v) := by
  cases v with
  | str val => rfl
  | int val =>
    have hlen : (COM.numeral 10 (toULong val)).length ≤ 20 := by
      rw [COM.length_numeral]
      exact COM.length_lowDigits_le (by decide) (by decide) (toULong_lt val)
    have hroom : (COM.numeral 10 (toULong val)).length < (List.replicate 32 (0 : UInt8)).length := by
      rw [List.length_replicate]
      omega
    have hout := (COM.itoa_yields (by decide) hroom).out
    show ((COM.itoa (toULong val) (List.replicate 32 0) 10).out >>= readCString) = _
    rw [hout]
    exact readCString_append_nul (not_mem_numeral _)

theorem litText_head (v : Value) : ∃ c s, litText v = c :: s ∧ c ≠ question := by
  cases v with
  | str val => exact ⟨quote, _, rfl, by decide⟩
  | int val =>
    have hpos : 0 < (COM.numeral 10 (toULong val)).length := by
      rw [COM.length_numeral]
      exact COM.length_lowDigits_pos (by decide)
    obtain ⟨c, s, hs⟩ := List.exists_cons_of_length_pos hpos
    refine ⟨c, s, hs, ?_⟩
    rintro rfl
    have hmem : question ∈ COM.numeral 10 (toULong val) := by
      rw [hs]
      exact List.mem_cons_self ..
    have hdigit := COM.numeral_decimal hmem
    exact absurd hdigit.2 (by decide)

theorem not_mem_litText (v : Value) : 0 ∉ litText v := by
  cases v with
  | int val => exact not_mem_numeral _
  | str val =>
    intro h
    rcases List.mem_cons.mp h with h | h
    · exact absurd h (by decide)
    rcases List.mem_append.mp h with h | h
    · exact not_mem_cString val h
    · exact absurd (List.mem_singleton.mp h) (by decide)

theorem litText_append_ne (v : Value) (s t : Bytes) : litText v ++ s ≠ question :: t := by
  obtain ⟨c, r, hr, hc⟩ := litText_head v
  rw [hr]
  exact fun h => hc (List.cons.inj h).1

/-- What follows a placeholder ends it, and is no quote and no question mark. -/
def Shaped : List Piece → Prop
  | [] => True
  | .char c :: ps => c ≠ 0 ∧ Shaped ps
  | .param _ :: ps => (ps = [] ∨ ∃ d ps', ps = .char d :: ps' ∧ endsName d = true) ∧ Shaped ps

theorem shaped_pieces (text : Bytes) : ∀ (count : Nat) (name : Option Bytes), 0 ∉ text →
    Shaped (pieces count name text) := by
  induction text with
  | nil =>
    intro count name _
    cases name with
    | none => trivial
    | some n => exact ⟨Or.inl rfl, trivial⟩
  | cons c text ih =>
    intro count name htext
    have h0 : c ≠ 0 := fun h => htext (h ▸ List.mem_cons_self ..)
    have htext' : 0 ∉ text := fun h => htext (List.mem_cons_of_mem c h)
    cases name with
    | none =>
      unfold pieces
      split
      · exact ih count (some []) htext'
      · exact ⟨h0, ih _ none htext'⟩
    | some n =>
      unfold pieces
      split
      next hend => exact ⟨Or.inr ⟨c, _, rfl, hend⟩, h0, ih count none htext'⟩
      next => exact ih _ _ htext'

def Assigned (vals : Nat → Value) : Nat → List TYQParam → Prop
  | _, [] => True
  | i, pa :: it => pa.value = some (vals i) ∧ Assigned vals (i + 1) it

theorem assigned_mapIdx (vals : Nat → Value) (params : List TYQParam) : ∀ i,
    Assigned vals i (params.mapIdx fun j pa => { pa with value := some (vals (i + j)) }) := by
  induction params with
  | nil => exact fun _ => trivial
  | cons pa params ih =>
    intro i
    rw [List.mapIdx_cons]
    refine ⟨rfl, ?_⟩
    have h := ih (i + 1)
    simp only [Nat.add_assoc, Nat.add_comm 1] at h
    exact h

/-- The second scan comes to each placeholder outside of quotes, to no other question mark there while
parameters are left, and to something behind the last placeholder. -/
def Placed : Nat → List Piece → Prop
  | _, [] => True
  | count, .char c :: ps => (c = question → count % 2 = 0 → names ps = []) ∧ Placed (quotes count c) ps
  | count, .param _ :: ps => count % 2 = 0 ∧ ps ≠ [] ∧ Placed count ps

section
variable {c : UInt8} {start : Bytes} {count : Nat} {it : List TYQParam} {pa : TYQParam} {v : Value}

theorem replaceLoop_nul : replaceLoop ([] ++ [0]) count it = .ok [] := by
  rw [List.nil_append, replaceLoop, if_pos rfl]

theorem replaceLoop_char (h0 : c ≠ 0) (h : ¬ (c = question ∧ count % 2 = 0)) :
    replaceLoop (c :: start) count it = replaceLoop start (quotes count c) it >>= fun r => .ok (c :: r) := by
  have h' : ¬ (c = question ∧ quotes count c % 2 = 0) := by
    rintro ⟨rfl, he⟩
    exact h ⟨rfl, he⟩
  rw [replaceLoop, if_neg h0]
  exact if_neg h'

theorem replaceLoop_none (h : count % 2 = 0) :
    replaceLoop (question :: start) count [] = replaceLoop start count [] >>= fun r => .ok (question :: r) := by
  rw [replaceLoop, if_neg (by decide)]
  exact if_pos ⟨rfl, h⟩

theorem replaceLoop_some (h : count % 2 = 0) (hv : pa.value = some v) {d : UInt8} :
    replaceLoop (question :: d :: start) count (pa :: it) =
      replaceLoop start count it >>= fun r => .ok (litText v ++ d :: r) := by
  rw [replaceLoop, if_neg (by decide)]
  refine (if_pos ⟨rfl, h⟩).trans ?_
  simp only [hv, literal_eq]
  rfl

theorem replaceLoop_unset (h : count % 2 = 0) (hv : pa.value = none) :
    replaceLoop (question :: start) count (pa :: it) =
      replaceLoop start count it >>= fun r => .ok (question :: r) := by
  rw [replaceLoop, if_neg (by decide)]
  refine (if_pos ⟨rfl, h⟩).trans ?_
  simp only [hv]
  rfl

theorem replaceLoop_value (h : count % 2 = 0) (hv : pa.value = some v) {d : UInt8} (hd : endsName d = true) :
    replaceLoop (question :: d :: start) count (pa :: it) =
      replaceLoop (d :: start) count it >>= fun r => .ok (litText v ++ r) := by
  obtain ⟨h0, hquote, -, hquestion⟩ := endsName_cases hd
  rw [replaceLoop_some h hv, replaceLoop_char h0 (fun hc => hquestion hc.1), quotes_of_ne count hquote]
  cases replaceLoop start count it <;> rfl

end

theorem bind_append_iff {x : Except Fault Bytes} {a y : Bytes} :
    (x >>= fun r => .ok (a ++ r)) = (.ok (a ++ y) : Except Fault Bytes) ↔ x = .ok y := by
  cases x with
  | error e => exact ⟨fun h => (nomatch h), fun h => (nomatch h)⟩
  | ok r =>
    constructor
    · intro h
      rw [List.append_cancel_left (Except.ok.inj h)]
    · intro h
      rw [Except.ok.inj h]
      rfl

theorem bind_cons_iff {x : Except Fault Bytes} {c : UInt8} {y : Bytes} :
    (x >>= fun r => .ok (c :: r)) = (.ok (c :: y) : Except Fault Bytes) ↔ x = .ok y := bind_append_iff (a := [c])

theorem not_mem_of_bind {x : Except Fault Bytes} {a r : Bytes} (ha : 0 ∉ a) (hx : ∀ r, x = .ok r → 0 ∉ r)
    (h : (x >>= fun r => .ok (a ++ r)) = .ok r) : 0 ∉ r := by
  obtain ⟨r', hr', h⟩ := bind_ok h
  cases h
  intro hmem
  rcases List.mem_append.mp hmem with hmem | hmem
  · exact ha hmem
  · exact hx r' hr' hmem

theorem replaceLoop_no_nul (start : Bytes) : ∀ (count : Nat) (it : List TYQParam) (r : Bytes), 0 ∉ start →
    replaceLoop (start ++ [0]) count it = .ok r → 0 ∉ r := by
  generalize hn : start.length = n
  induction n using Nat.strongRecOn generalizing start with
  | ind n ih =>
    intro count it r hstart h
    cases start with
    | nil =>
      rw [replaceLoop_nul] at h
      cases h
      exact List.not_mem_nil
    | cons c start =>
      rw [List.length_cons] at hn
      have h0 : c ≠ 0 := fun h => hstart (h ▸ List.mem_cons_self ..)
      have hc : 0 ∉ [c] := fun h => h0 (List.mem_singleton.mp h).symm
      have hstart' : 0 ∉ start := fun h => hstart (List.mem_cons_of_mem c h)
      have hnext := ih start.length (by omega) start rfl
      rw [List.cons_append] at h
      by_cases hq : c = question ∧ count % 2 = 0
      swap
      · rw [replaceLoop_char h0 hq] at h
        exact not_mem_of_bind hc (fun r => hnext _ _ r hstart') h
      obtain ⟨rfl, heven⟩ := hq
      cases it with
      | nil =>
        rw [replaceLoop_none heven] at h
        exact not_mem_of_bind hc (fun r => hnext _ _ r hstart') h
      | cons pa it =>
        cases hv : pa.value with
        | none =>
          rw [replaceLoop_unset heven hv] at h
          exact not_mem_of_bind hc (fun r => hnext _ _ r hstart') h
        | some v =>
          cases start with
          | nil =>
            rw [List.nil_append, replaceLoop_some heven hv] at h
            cases h
          | cons d start =>
            have hd : 0 ∉ litText v ++ [d] := fun h => (List.mem_append.mp h).elim (not_mem_litText v) fun h =>
              hstart' (List.mem_singleton.mp h ▸ List.mem_cons_self ..)
            have hrest := ih start.length (by rw [List.length_cons] at hn; omega) start rfl
            have hstart'' : 0 ∉ start := fun h => hstart' (List.mem_cons_of_mem d h)
            rw [List.cons_append, replaceLoop_some heven hv] at h
            refine not_mem_of_bind (x := replaceLoop (start ++ [0]) count it) hd (fun r => hrest _ _ r hstart'') ?_
            simp only [List.append_assoc, List.singleton_append]
            exact h

/-- The second scan puts the literals into their places exactly when it is not led astray. -/
theorem replaceLoop_iff (vals : Nat → Value) (ps : List Piece) : ∀ (i count : Nat) (it : List TYQParam), Shaped ps →
    it.length = (names ps).length → Assigned vals i it →
      (replaceLoop (template ps ++ [0]) count it = .ok (fill (fun j => litText (vals j)) i ps) ↔ Placed count ps) := by
  induction ps with
  | nil => exact fun _ _ _ _ _ _ => iff_of_true replaceLoop_nul trivial
  | cons p ps ih =>
    intro i count it hshape hlen hvals
    cases p with
    | char c =>
      obtain ⟨h0, hshape⟩ := hshape
      have htemplate : template (.char c :: ps) ++ [0] = c :: (template ps ++ [0]) := rfl
      have hfill : fill (fun j => litText (vals j)) i (.char c :: ps) = c :: fill (fun j => litText (vals j)) i ps := rfl
      have hplaced : Placed count (.char c :: ps) ↔
          (c = question → count % 2 = 0 → names ps = []) ∧ Placed (quotes count c) ps := Iff.rfl
      rw [htemplate, hfill, hplaced]
      by_cases hq : c = question ∧ count % 2 = 0
      swap
      · rw [replaceLoop_char h0 hq, bind_cons_iff, ih i _ it hshape hlen hvals]
        exact (and_iff_right fun hc he => absurd ⟨hc, he⟩ hq).symm
      obtain ⟨rfl, heven⟩ := hq
      have hquotes : quotes count question = count := quotes_of_ne count (by decide)
      cases it with
      | nil =>
        have hnone : names ps = [] := List.length_eq_zero_iff.mp hlen.symm
        rw [replaceLoop_none heven, bind_cons_iff, ih i count [] hshape hlen hvals, hquotes]
        exact (and_iff_right fun _ _ => hnone).symm
      | cons pa it =>
        -- the parameter is spent on a question mark of the text
        have hlen' : (pa :: it).length = (names ps).length := hlen
        have hne : names ps ≠ [] := by
          intro he
          rw [he] at hlen'
          cases hlen'
        refine iff_of_false ?_ fun h => hne (h.1 rfl heven)
        intro h
        obtain ⟨d, s, hs⟩ : ∃ d s, template ps ++ [0] = d :: s :=
          List.exists_cons_of_ne_nil (List.append_ne_nil_of_right_ne_nil _ (List.cons_ne_nil _ _))
        rw [hs, replaceLoop_some heven hvals.1] at h
        obtain ⟨r, -, h⟩ := bind_ok h
        exact litText_append_ne _ _ _ (Except.ok.inj h)
    | param name =>
      obtain ⟨hafter, hshape⟩ := hshape
      have hplaced : Placed count (.param name :: ps) ↔ count % 2 = 0 ∧ ps ≠ [] ∧ Placed count ps := Iff.rfl
      have hfill : fill (fun j => litText (vals j)) i (.param name :: ps) =
          litText (vals i) ++ fill (fun j => litText (vals j)) (i + 1) ps := rfl
      rw [template_param, List.cons_append, hfill, hplaced]
      cases it with
      | nil => cases hlen
      | cons pa it =>
        by_cases heven : count % 2 = 0
        swap
        · refine iff_of_false ?_ fun h => heven h.1
          rw [replaceLoop_char (by decide) (fun h => heven h.2)]
          intro h
          obtain ⟨r, -, h⟩ := bind_ok h
          exact litText_append_ne _ _ _ (Except.ok.inj h).symm
        rcases hafter with rfl | ⟨d, ps', rfl, hd⟩
        · refine iff_of_false ?_ fun h => h.2.1 rfl
          show ¬ replaceLoop [question, 0] count (pa :: it) = _
          rw [replaceLoop_some heven hvals.1]
          exact fun h => nomatch h
        · have htemplate : template (.char d :: ps') ++ [0] = d :: (template ps' ++ [0]) := rfl
          rw [htemplate, replaceLoop_value heven hvals.1 hd, bind_append_iff, ← htemplate,
            ih (i + 1) count it hshape (Nat.succ.inj hlen) hvals.2]
          exact ⟨fun h => ⟨heven, List.cons_ne_nil _ _, h⟩, fun h => h.2.2⟩

/-! ## Queries -/

theorem placed_of_names_nil {ps : List Piece} (h : names ps = []) : ∀ count, Placed count ps := by
  induction ps with
  | nil => exact fun _ => trivial
  | cons p ps ih =>
    cases p with
    | char c => exact fun count => ⟨fun _ _ => h, ih h _⟩
    | param name => cases h

theorem fill_of_names_nil (lits : Nat → Bytes) (text : Bytes) : ∀ count, names (pieces count none text) = [] →
    fill lits 0 (pieces count none text) = text := by
  induction text with
  | nil => exact fun _ _ => rfl
  | cons c text ih =>
    intro count h
    unfold pieces at h ⊢
    split at h
    next hcolon =>
      obtain ⟨w, ps, hps⟩ := pieces_some text count []
      rw [hps] at h
      cases h
    next hcolon =>
      rw [if_neg hcolon, fill, ih _ h]

def placeholders (szSQL : Bytes) : List Piece := pieces 0 none (cString szSQL)

theorem not_mem_template {ps : List Piece} (h : Shaped ps) : 0 ∉ template ps := by
  induction ps with
  | nil => exact List.not_mem_nil
  | cons p ps ih =>
    intro hmem
    cases p with
    | char c =>
      rcases List.mem_cons.mp hmem with h0 | hmem
      · exact h.1 h0.symm
      · exact ih h.2 hmem
    | param name =>
      rw [template_param] at hmem
      rcases List.mem_cons.mp hmem with h0 | hmem
      · exact absurd h0 (by decide)
      · exact ih h.2 hmem

theorem template_ne_nil {ps : List Piece} (h : names ps ≠ []) : template ps ≠ [] := by
  cases ps with
  | nil => exact absurd rfl h
  | cons p ps =>
    cases p with
    | char c => exact List.cons_ne_nil _ _
    | param name =>
      rw [template_param]
      exact List.cons_ne_nil _ _

section
variable {q q₁ : TQuery} {szSQL : Bytes}

theorem addSQL_eq (q : TQuery) (szSQL : Bytes) :
    addSQL q szSQL = createLoop (cString szSQL ++ [0]) 0 none >>= fun r =>
      .ok ⟨some (cString szSQL), if r.2 = [] then [] else r.1, r.2⟩ := rfl

theorem addSQL_finds (q : TQuery) (h : ∀ n ∈ names (placeholders szSQL), Readable n) :
    addSQL q szSQL = .ok ⟨some (cString szSQL),
      if names (placeholders szSQL) = [] then [] else template (placeholders szSQL), unset (placeholders szSQL)⟩ := by
  have hloop := createLoop_finds (cString szSQL) 0 none (not_mem_cString _) (fun n h => nomatch h) h
  rw [addSQL_eq, hloop]
  show Except.ok _ = _
  unfold unset placeholders
  simp only [List.map_eq_nil_iff]

theorem readable_of_addSQL (h : addSQL q szSQL = .ok q₁) (hfound : found q₁.FParams = names (placeholders szSQL)) :
    ∀ n ∈ names (placeholders szSQL), Readable n := by
  rw [addSQL_eq] at h
  obtain ⟨r, hr, h⟩ := bind_ok h
  cases h
  exact readable_of_found (cString szSQL) 0 none (not_mem_cString _) (fun n h => nomatch h) r.1 r.2 hr hfound

theorem found_unset (ps : List Piece) : found (unset ps) = names ps := by
  unfold found unset
  rw [List.map_map]
  exact List.map_id _

theorem replaceSql_iff (vals : Nat → Value) :
    (∃ q₂, replaceSql (assign ⟨some (cString szSQL), if names (placeholders szSQL) = [] then [] else
        template (placeholders szSQL), unset (placeholders szSQL)⟩ vals) = .ok q₂ ∧
      q₂.sql = some (fill (fun j => litText (vals j)) 0 (placeholders szSQL))) ↔ Placed 0 (placeholders szSQL) := by
  have hshape : Shaped (placeholders szSQL) := shaped_pieces _ 0 none (not_mem_cString _)
  by_cases hnone : names (placeholders szSQL) = []
  · have hfill := fill_of_names_nil (fun j => litText (vals j)) (cString szSQL) 0 hnone
    refine iff_of_true ⟨_, by rw [if_pos hnone]; rfl, ?_⟩ (placed_of_names_nil hnone 0)
    unfold placeholders
    rw [hfill]
    rfl
  · rw [if_neg hnone]
    have hne := template_ne_nil hnone
    have hreal : ∀ r, replaceLoop (template (placeholders szSQL) ++ [0]) 0
        ((unset (placeholders szSQL)).mapIdx fun j pa => { pa with value := some (vals j) }) = .ok r → cString r = r :=
      fun r hr => cString_eq (replaceLoop_no_nul _ 0 _ r (not_mem_template hshape) hr)
    have hassigned := assigned_mapIdx vals (unset (placeholders szSQL)) 0
    simp only [Nat.zero_add] at hassigned
    have hlen : ((unset (placeholders szSQL)).mapIdx fun j pa => ({ pa with value := some (vals j) } : TYQParam)).length =
        (names (placeholders szSQL)).length := by
      rw [List.length_mapIdx, unset, List.length_map]
    rw [← replaceLoop_iff vals (placeholders szSQL) 0 0 _ hshape hlen hassigned]
    unfold replaceSql assign
    rw [if_neg hne]
    constructor
    · rintro ⟨q₂, h, hsql⟩
      obtain ⟨real, hloop, h⟩ := bind_ok h
      cases h
      rw [← Option.some.inj hsql, hreal real hloop]
      exact hloop
    · intro h
      simp only [h]
      exact ⟨_, rfl, congrArg some (hreal _ h)⟩

end

/-- **The parameters of a query are its placeholders and their literals are put into the places of these, without a
step outside of a string, exactly when the names fit their buffer and begin at their colons, and the second scan
finds the places.** -/
theorem substitutes_iff (q : TQuery) (szSQL : Bytes) (vals : Nat → Value) :
    (∃ q₁ q₂, addSQL q szSQL = .ok q₁ ∧ found q₁.FParams = names (placeholders szSQL) ∧
      replaceSql (assign q₁ vals) = .ok q₂ ∧
      q₂.sql = some (fill (fun j => litText (vals j)) 0 (placeholders szSQL))) ↔
    (∀ n ∈ names (placeholders szSQL), Readable n) ∧ Placed 0 (placeholders szSQL) := by
  constructor
  · rintro ⟨q₁, q₂, hadd, hfound, hreplace, hsql⟩
    have hread := readable_of_addSQL hadd hfound
    rw [addSQL_finds q hread] at hadd
    cases hadd
    exact ⟨hread, (replaceSql_iff vals).mp ⟨q₂, hreplace, hsql⟩⟩
  · rintro ⟨hread, hplaced⟩
    obtain ⟨q₂, hreplace, hsql⟩ := (replaceSql_iff vals).mpr hplaced
    exact ⟨_, q₂, addSQL_finds q hread, found_unset _, hreplace, hsql⟩

def idQuery : Bytes := [105, 100, 61, 58, 105, 100]

/-- A placeholder at the end of the text is read past. -/
theorem substitutes_fails :
    ¬ ∀ (q : TQuery) (szSQL : Bytes) (vals : Nat → Value),
      ∃ q₁ q₂, addSQL q szSQL = .ok q₁ ∧ found q₁.FParams = names (placeholders szSQL) ∧
        replaceSql (assign q₁ vals) = .ok q₂ ∧
        q₂.sql = some (fill (fun j => litText (vals j)) 0 (placeholders szSQL)) := by
  intro h
  obtain ⟨q₁, q₂, hadd, -, hreplace, -⟩ := h ⟨none, [], []⟩ idQuery fun _ => .str []
  have hq₁ : addSQL ⟨none, [], []⟩ idQuery = .ok ⟨some idQuery, [105, 100, 61, 63], [⟨[105, 100], none⟩]⟩ := rfl
  rw [hq₁] at hadd
  cases hadd
  cases hreplace

end TQuery

end Afn
