/-!
# Message queues

A message queue of System V: the messages stand in the order they were sent, and are taken by their type. Messages
of one type are taken in the order they were sent, each of them once.
-/

namespace TypedQueue

variable {α β : Type}

/-- The texts together have at most `qbytes` elements, one text at most `msgmax`. -/
structure Queue (α : Type) where
  msgs : List (Int × List α)
  qbytes : Nat
  msgmax : Nat

def used (msgs : List (Int × List α)) : Nat := (msgs.flatMap Prod.snd).length

def Fits (msgs : List (Int × List α)) (qbytes : Nat) (text : List α) : Prop :=
  text.length + used msgs ≤ qbytes ∧ msgs.length + 1 ≤ qbytes

instance (msgs : List (Int × List α)) (qbytes : Nat) (text : List α) : Decidable (Fits msgs qbytes text) :=
  inferInstanceAs (Decidable (_ ∧ _))

inductive Sent (α : Type)
  | sent (q : Queue α)
  | full
  | invalid

def Queue.msgsnd (q : Queue α) (type : Int) (text : List α) : Sent α :=
  if type < 1 ∨ q.msgmax < text.length then .invalid
  else if Fits q.msgs q.qbytes text then .sent { q with msgs := q.msgs ++ [(type, text)] }
  else .full

/-- A receiver of `msgtyp` takes the messages of `type` next: of any type, of its own, or of the lowest type that is
at most `-msgtyp`. -/
def wants (msgs : List (Int × List α)) (msgtyp type : Int) : Bool :=
  if msgtyp = 0 then true
  else if 0 < msgtyp then decide (type = msgtyp)
  else decide (type ≤ -msgtyp) && msgs.all fun m => decide (type ≤ m.1)

def Queue.msgrcv (q : Queue α) (msgtyp : Int) : Option ((Int × List α) × Queue α) :=
  (q.msgs.find? fun m => wants q.msgs msgtyp m.1).map fun m =>
    (m, { q with msgs := q.msgs.eraseP fun m => wants q.msgs msgtyp m.1 })

/-! ## Messages of one type -/

def ofType (t : Int) (l : List (Int × β)) : List β := (l.filter fun m => m.1 == t).map Prod.snd

@[simp] theorem ofType_nil (t : Int) : ofType t ([] : List (Int × β)) = [] := rfl

@[simp] theorem ofType_append (t : Int) (l l' : List (Int × β)) : ofType t (l ++ l') = ofType t l ++ ofType t l' := by
  simp [ofType]

theorem ofType_cons (t : Int) (m : Int × β) (l : List (Int × β)) :
    ofType t (m :: l) = if m.1 = t then m.2 :: ofType t l else ofType t l := by
  by_cases h : m.1 = t
  · simp [ofType, h]
  · simp [ofType, h]

theorem ofType_eq_nil {t : Int} {l : List (Int × β)} (h : ∀ m ∈ l, m.1 ≠ t) : ofType t l = [] := by
  simpa [ofType] using fun a b hm => h (a, b) hm

/-! ## Sending and receiving -/

section
variable {q q' : Queue α} {type msgtyp : Int} {text : List α} {m : Int × List α}

theorem msgsnd_sent (h : q.msgsnd type text = .sent q') :
    Fits q.msgs q.qbytes text ∧ q' = { q with msgs := q.msgs ++ [(type, text)] } := by
  unfold Queue.msgsnd at h
  split at h
  next => cases h
  next =>
    split at h
    next hfits =>
      cases h
      exact ⟨hfits, rfl⟩
    next => cases h

/-- The first message of the wanted types is taken, and none of its type stands before it. -/
theorem msgrcv_some (h : q.msgrcv msgtyp = some (m, q')) :
    ∃ before after, q.msgs = before ++ m :: after ∧ q' = { q with msgs := before ++ after } ∧
      (∀ k ∈ before, k.1 ≠ m.1) ∧ wants q.msgs msgtyp m.1 = true := by
  obtain ⟨k, hfind, heq⟩ := Option.map_eq_some_iff.mp h
  obtain ⟨rfl, rfl⟩ := Prod.mk.inj heq
  obtain ⟨hwants, before, after, hsplit, hbefore⟩ := List.find?_eq_some_iff_append.mp hfind
  refine ⟨before, after, hsplit, ?_, fun k' hk' hsame => ?_, hwants⟩
  · have herase : q.msgs.eraseP (fun m => wants q.msgs msgtyp m.1) = before ++ after := by
      generalize wants q.msgs msgtyp = w at *
      rw [hsplit, List.eraseP_append_right _ (by simpa using hbefore)]
      simp [hwants]
    rw [herase]
  · have hno := hbefore k' hk'
    rw [hsame, hwants] at hno
    cases hno

theorem wants_own (h : 0 < msgtyp) (hw : wants q.msgs msgtyp type = true) : type = msgtyp := by
  simpa [wants, Int.ne_of_gt h, h] using hw

end

/-! ## What a receiver can take -/

def takes (msgtyp type : Int) : Bool :=
  if msgtyp = 0 then true else if 0 < msgtyp then decide (type = msgtyp) else decide (type ≤ -msgtyp)

def others (msgtyp : Int) (msgs : List (Int × List α)) : List (Int × List α) := msgs.filter fun m => !takes msgtyp m.1

section
variable {q q' : Queue α} {type msgtyp : Int} {m : Int × List α}

theorem takes_of_wants (h : wants q.msgs msgtyp type = true) : takes msgtyp type = true := by
  unfold wants at h
  unfold takes
  split
  next => rfl
  next h0 =>
    rw [if_neg h0] at h
    split
    next hpos => rwa [if_pos hpos] at h
    next hneg =>
      rw [if_neg hneg, Bool.and_eq_true] at h
      exact h.1

theorem exists_lowest : ∀ {msgs : List (Int × List α)}, msgs ≠ [] → ∃ m ∈ msgs, ∀ k ∈ msgs, m.1 ≤ k.1 := by
  intro msgs
  induction msgs with
  | nil => exact fun h => absurd rfl h
  | cons k msgs ih =>
    intro _
    by_cases hnil : msgs = []
    · subst hnil
      exact ⟨k, by simp⟩
    obtain ⟨m, hm, hlow⟩ := ih hnil
    by_cases hk : k.1 ≤ m.1
    · exact ⟨k, List.mem_cons_self ..,
        List.forall_mem_cons.mpr ⟨Int.le_refl _, fun j hj => Int.le_trans hk (hlow j hj)⟩⟩
    · exact ⟨m, List.mem_cons_of_mem _ hm, List.forall_mem_cons.mpr ⟨Int.le_of_lt (Int.not_le.mp hk), hlow⟩⟩

theorem others_of_msgrcv (h : q.msgrcv msgtyp = none) : others msgtyp q.msgs = q.msgs := by
  have hnone := List.find?_eq_none.mp (Option.map_eq_none_iff.mp h)
  refine List.filter_eq_self.mpr fun m hm => ?_
  have hno := hnone m hm
  unfold wants at hno
  unfold takes
  by_cases h0 : msgtyp = 0
  · simp [h0] at hno
  by_cases hpos : 0 < msgtyp
  · simpa [h0, hpos] using hno
  · obtain ⟨k, hk, hlow⟩ := exists_lowest (List.ne_nil_of_mem hm)
    have hk' := hnone k hk
    have hhigh : ¬ k.1 ≤ -msgtyp := by
      intro hle
      apply hk'
      simpa [wants, h0, hpos, hle] using fun a b hab => hlow (a, b) hab
    simpa [h0, hpos] using fun hle => hhigh (Int.le_trans (hlow m hm) hle)

theorem msgrcv_others (h : q.msgrcv msgtyp = some (m, q')) :
    others msgtyp q'.msgs = others msgtyp q.msgs ∧ q'.msgs.length < q.msgs.length ∧ q'.qbytes = q.qbytes ∧
      q'.msgmax = q.msgmax := by
  obtain ⟨before, after, hsplit, rfl, -, hwants⟩ := msgrcv_some h
  refine ⟨?_, by simp [hsplit], rfl, rfl⟩
  simp [hsplit, others, takes_of_wants hwants]

end

/-! ## Conservation -/

/-- Of every type, what was sent is what has been received, in this order, and what the queue holds. -/
def Conserved (sent received : List (Int × List α)) (msgs : List (Int × List α)) : Prop :=
  ∀ t, ofType t sent = ofType t received ++ ofType t msgs

section
variable {sent received : List (Int × List α)} {q q' : Queue α} {type msgtyp : Int} {text : List α} {m : Int × List α}

theorem conserved_nil : Conserved ([] : List (Int × List α)) [] [] := fun _ => rfl

theorem Conserved.send (h : Conserved sent received q.msgs) (hs : q.msgsnd type text = .sent q') :
    Conserved (sent ++ [(type, text)]) received q'.msgs := by
  obtain ⟨-, rfl⟩ := msgsnd_sent hs
  intro t
  simp [h t]

theorem Conserved.receive (h : Conserved sent received q.msgs) (hr : q.msgrcv msgtyp = some (m, q')) :
    Conserved sent (received ++ [m]) q'.msgs := by
  obtain ⟨before, after, hsplit, rfl, hbefore, -⟩ := msgrcv_some hr
  intro t
  rw [h t, hsplit]
  simp only [ofType_append, ofType_cons, ofType_nil, List.append_assoc]
  by_cases hm : m.1 = t
  · have hnil : ofType t before = [] := ofType_eq_nil fun k hk => hm ▸ hbefore k hk
    simp [hm, hnil]
  · simp [hm]

end

/-! ## Room -/

theorem used_append (l l' : List (Int × List α)) : used (l ++ l') = used l + used l' := by simp [used]

theorem used_cons (m : Int × List α) (l : List (Int × List α)) : used (m :: l) = m.2.length + used l := by simp [used]

theorem used_sublist {l l' : List (Int × List α)} (h : l.Sublist l') : used l ≤ used l' := by
  induction h with
  | slnil => exact Nat.le_refl _
  | cons m _ ih =>
    rw [used_cons]
    exact Nat.le_add_left_of_le ih
  | cons_cons m _ ih =>
    rw [used_cons, used_cons]
    exact Nat.add_le_add_left ih _

theorem Fits.sublist {l l' : List (Int × List α)} {qbytes : Nat} {text : List α} (h : l.Sublist l')
    (hf : Fits l' qbytes text) : Fits l qbytes text :=
  ⟨Nat.le_trans (Nat.add_le_add_left (used_sublist h) _) hf.1,
    Nat.le_trans (Nat.add_le_add_right h.length_le 1) hf.2⟩

theorem length_le_used {m : Int × List α} {l : List (Int × List α)} (h : m ∈ l) : m.2.length ≤ used l := by
  obtain ⟨before, after, rfl⟩ := List.append_of_mem h
  rw [used_append, used_cons]
  exact Nat.le_trans (Nat.le_add_right _ _) (Nat.le_add_left _ _)

end TypedQueue
