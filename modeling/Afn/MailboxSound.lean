import Afn.Mailbox

/-!
# Responses and their waiters

The slot of a key holds one result: a second result or a second `Wait` on the key overwrites what is
stored there, and a result that arrives before its caller has registered is deleted. Both are the
only ways in which a result is lost.
-/

namespace Afn

namespace Mailbox

variable {T D : Type}

/-! ## Steps -/

def hearing (s : Mailbox T D) (call : AppCall) (data : Option D) : Mailbox T D :=
  { s with
    call := fun t => (s.call t).map (hear call data)
    notified := (data.map fun d => (call, d)).toList ++ s.notified }

inductive Step [DecidableEq T] (s : Mailbox T D) : Act T D → Mailbox T D → Prop
  | sendPkg {t key} (hfree : ∀ c, s.call t = some c → c.stage = .returned) :
      Step s (.sendPkg t key) { s.setCall t ⟨key, .sending, [], none⟩ with listLock := some t }
  | unlock {t c} (hc : s.call t = some c) (hs : c.stage = .sending) :
      Step s (.unlock t) { s.setCall t { c with stage := .sent } with listLock := none }
  | register {t c} (hc : s.call t = some c) (hs : c.stage = .sent) :
      Step s (.register t) { s.setCall t { c with stage := .waiting } with cmdMap := s.cmdMap.set c.key none }
  | sleep {t c} (hc : s.call t = some c) (hs : c.stage = .waiting)
      (hslot : ∀ d, s.cmdMap c.key ≠ some (some d)) :
      Step s (.wake t) { s with cmdMap := s.cmdMap.set c.key none }
  | finish {t c a} (hc : s.call t = some c) (hs : c.stage = .waiting) (ha : a = .wake t ∨ a = .timeout t) :
      Step s a (s.finish t c)
  | store {call data} (hnew : ∀ d, data = some d → d ∉ s.notified.map Prod.snd)
      (hslot : s.cmdMap call ≠ none) :
      Step s (.notify call data) { s.hearing call data with cmdMap := s.cmdMap.set call data }
  | drop {call data} (hnew : ∀ d, data = some d → d ∉ s.notified.map Prod.snd) (hslot : s.cmdMap call = none) :
      Step s (.notify call data) { s.hearing call data with deleted := data.toList ++ s.deleted }

theorem step_cases [DecidableEq T] [DecidableEq D] {s s' : Mailbox T D} {a : Act T D} (h : step s a = some s') :
    Step s a s' := by
  cases a with
  | sendPkg t key =>
    simp only [step] at h
    split at h
    next hg =>
      cases h
      exact .sendPkg fun c hc => hg.2 c hc
    next => cases h
  | unlock t =>
    simp only [step] at h
    split at h
    next c hc =>
      split at h
      next hs => cases h; exact .unlock hc hs
      next => cases h
    next => cases h
  | register t =>
    simp only [step] at h
    split at h
    next c hc =>
      split at h
      next hs => cases h; exact .register hc hs
      next => cases h
    next => cases h
  | wake t =>
    simp only [step] at h
    split at h
    next c hc =>
      split at h
      next hs =>
        split at h
        next => cases h; exact .finish hc hs (.inl rfl)
        next hslot => cases h; exact .sleep hc hs hslot
      next => cases h
    next => cases h
  | timeout t =>
    simp only [step] at h
    split at h
    next c hc =>
      split at h
      next hs => cases h; exact .finish hc hs (.inr rfl)
      next => cases h
    next => cases h
  | notify call data =>
    simp only [step] at h
    split at h
    next hg =>
      have hnew : ∀ d, data = some d → d ∉ s.notified.map Prod.snd := fun d hd => hg d hd
      split at h
      next hslot =>
        cases h
        exact .store hnew (fun hnone => by rw [hnone] at hslot; cases hslot)
      next hslot => cases h; exact .drop hnew hslot
    next => cases h

/-! ## Notification -/

section
variable {s : Mailbox T D} {call : AppCall} {data : Option D}

theorem hear_of_ne {c : Call D} (h : ¬ (c.key = call ∧ c.stage ≠ .returned)) : hear call data c = c := if_neg h

theorem hear_some {c : Call D} (d : D) (h : c.key = call ∧ c.stage ≠ .returned) :
    hear call (some d) c = { c with heard := d :: c.heard } := if_pos h

theorem hear_none (c : Call D) : hear call none c = c := by
  unfold hear
  split
  · rfl
  · rfl

theorem hear_key (call : AppCall) (data : Option D) (c : Call D) :
    (hear call data c).key = c.key ∧ (hear call data c).stage = c.stage := by
  unfold hear
  split
  · exact ⟨rfl, rfl⟩
  · exact ⟨rfl, rfl⟩

theorem call_hearing {t : T} {c' : Call D} (h : (s.hearing call data).call t = some c') :
    ∃ c, s.call t = some c ∧ c' = hear call data c := by
  simp only [hearing, Option.map_eq_some_iff] at h
  obtain ⟨c, hc, rfl⟩ := h
  exact ⟨c, hc, rfl⟩

theorem mem_hearing {k : AppCall} {d : D} (h : (k, d) ∈ (s.hearing call data).notified) :
    (k = call ∧ data = some d) ∨ (k, d) ∈ s.notified := by
  cases data with
  | none => exact .inr h
  | some d' =>
    cases h with
    | head => exact .inl ⟨rfl, rfl⟩
    | tail _ h => exact .inr h

theorem subset_hearing {d : D} (h : d ∈ s.notified.map Prod.snd) :
    d ∈ (s.hearing call data).notified.map Prod.snd := by
  simp only [hearing, List.map_append]
  exact List.mem_append_right _ h

theorem ne_of_notified (hnew : ∀ d, data = some d → d ∉ s.notified.map Prod.snd) {k : AppCall} {d : D}
    (h : (k, d) ∈ s.notified) : data ≠ some d := fun hd => hnew d hd (List.mem_map.mpr ⟨_, h, rfl⟩)

end

/-! ## Every result in one place -/

def Awaited (s : Mailbox T D) (call : AppCall) : Prop :=
  ∃ t c, s.call t = some c ∧ c.stage = .waiting ∧ c.key = call

theorem Awaited.hearing {s : Mailbox T D} {call : AppCall} (h : s.Awaited call) (k : AppCall)
    (data : Option D) : (s.hearing k data).Awaited call := by
  obtain ⟨t, c, hc, hs, hk⟩ := h
  have hcall : (s.hearing k data).call t = some (hear k data c) := by
    simp only [Mailbox.hearing, hc, Option.map_some]
  obtain ⟨hkey, hstage⟩ := hear_key k data c
  exact ⟨t, _, hcall, hstage.trans hs, hkey.trans hk⟩

theorem Awaited.setCall [DecidableEq T] {s : Mailbox T D} {call : AppCall} (h : s.Awaited call) {t : T}
    (c : Call D) (hold : ∀ c, s.call t = some c → c.stage = .waiting → c.key ≠ call) :
    (s.setCall t c).Awaited call := by
  obtain ⟨u, cu, hcu, hs, hk⟩ := h
  have hne : u ≠ t := by
    rintro rfl
    exact hold cu hcu hs hk
  exact ⟨u, cu, by rw [setCall_ne s c hne]; exact hcu, hs, hk⟩

theorem set_none_iff {m : CmdMap D} {call : AppCall} (h : ∀ d, m call ≠ some (some d)) (k : AppCall) (d : D) :
    m.set call none k = some (some d) ↔ m k = some (some d) := by
  by_cases hk : k = call
  · subst hk
    rw [CmdMap.set_self]
    exact ⟨fun h' => (nomatch h'), fun h' => absurd h' (h d)⟩
  · rw [CmdMap.set_ne m none hk]

section
variable [DecidableEq D]

/-- A notified data unit is stored under its key with a thread waiting there, or was returned once, or
was deleted once. -/
inductive InOnePlace (s : Mailbox T D) (call : AppCall) (d : D) : Prop
  | stored (h : ∀ k, s.cmdMap k = some (some d) ↔ k = call) (ht : s.Awaited call) (hr : s.returned.count d = 0)
      (hd : s.deleted.count d = 0)
  | returned (h : ∀ k, s.cmdMap k ≠ some (some d)) (hr : s.returned.count d = 1) (hd : s.deleted.count d = 0)
  | deleted (h : ∀ k, s.cmdMap k ≠ some (some d)) (hr : s.returned.count d = 0) (hd : s.deleted.count d = 1)

def Consumed (s : Mailbox T D) : Prop := ∀ call d, (call, d) ∈ s.notified → s.InOnePlace call d

/-- The slot that the step writes to holds no data. -/
def Free (s : Mailbox T D) : Act T D → Prop
  | .notify call _ => ∀ d, s.cmdMap call ≠ some (some d)
  | .register t => ∀ c, s.call t = some c → ∀ d, s.cmdMap c.key ≠ some (some d)
  | _ => True

/-- Data units are notified once, a slot holds what was notified for its key and has a thread waiting,
and every unit notified is in one place. -/
structure Owned (s : Mailbox T D) : Prop where
  nodup : (s.notified.map Prod.snd).Nodup
  stored : ∀ {call d}, s.cmdMap call = some (some d) → (call, d) ∈ s.notified
  awaited : ∀ {call}, s.cmdMap call ≠ none → s.Awaited call
  returned : ∀ {d}, d ∈ s.returned → d ∈ s.notified.map Prod.snd
  deleted : ∀ {d}, d ∈ s.deleted → d ∈ s.notified.map Prod.snd
  consumed : s.Consumed

theorem owned_init : (init : Mailbox T D).Owned where
  nodup := .nil
  stored h := nomatch h
  awaited h := absurd rfl h
  returned h := nomatch h
  deleted h := nomatch h
  consumed _ _ h := nomatch h

theorem InOnePlace.frame {s s' : Mailbox T D} {call : AppCall} {d : D} (h : s.InOnePlace call d)
    (hmap : ∀ k, s'.cmdMap k = some (some d) ↔ s.cmdMap k = some (some d))
    (ht : s.cmdMap call = some (some d) → s.Awaited call → s'.Awaited call)
    (hr : s'.returned.count d = s.returned.count d) (hd : s'.deleted.count d = s.deleted.count d) :
    s'.InOnePlace call d := by
  cases h with
  | stored h ha hr₀ hd₀ =>
    exact .stored (fun k => by rw [hmap, h]) (ht ((h call).mpr rfl) ha) (by rw [hr, hr₀]) (by rw [hd, hd₀])
  | returned h hr₀ hd₀ =>
    exact .returned (fun k hk => h k ((hmap k).mp hk)) (by rw [hr, hr₀]) (by rw [hd, hd₀])
  | deleted h hr₀ hd₀ =>
    exact .deleted (fun k hk => h k ((hmap k).mp hk)) (by rw [hr, hr₀]) (by rw [hd, hd₀])

section
variable {s : Mailbox T D} (h : s.Owned)
include h

theorem Owned.of_calls {s' : Mailbox T D} (hm : s'.cmdMap = s.cmdMap) (hn : s'.notified = s.notified)
    (hr : s'.returned = s.returned) (hd : s'.deleted = s.deleted)
    (ht : ∀ {call}, s.Awaited call → s'.Awaited call) : s'.Owned where
  nodup := by rw [hn]; exact h.nodup
  stored := by rw [hm, hn]; exact h.stored
  awaited := by rw [hm]; exact fun hne => ht (h.awaited hne)
  returned := by rw [hr, hn]; exact h.returned
  deleted := by rw [hd, hn]; exact h.deleted
  consumed := by
    intro call d hmem
    rw [hn] at hmem
    exact (h.consumed call d hmem).frame (fun k => by rw [hm]) (fun _ => ht) (by rw [hr]) (by rw [hd])

theorem Owned.set_none {s' : Mailbox T D} (call : AppCall) (hslot : ∀ d, s.cmdMap call ≠ some (some d))
    (hm : s'.cmdMap = s.cmdMap.set call none) (hn : s'.notified = s.notified) (hr : s'.returned = s.returned)
    (hd : s'.deleted = s.deleted) (ht : ∀ {call}, s.Awaited call → s'.Awaited call)
    (hcall : s'.Awaited call) : s'.Owned where
  nodup := by rw [hn]; exact h.nodup
  stored := by
    intro k d hk
    rw [hm, set_none_iff hslot] at hk
    rw [hn]
    exact h.stored hk
  awaited := by
    intro k hk
    by_cases hkc : k = call
    · rw [hkc]; exact hcall
    · rw [hm, CmdMap.set_ne _ _ hkc] at hk
      exact ht (h.awaited hk)
  returned := by rw [hr, hn]; exact h.returned
  deleted := by rw [hd, hn]; exact h.deleted
  consumed := by
    intro k d hmem
    rw [hn] at hmem
    exact (h.consumed k d hmem).frame (fun k => by rw [hm, set_none_iff hslot]) (fun _ => ht) (by rw [hr]) (by rw [hd])

theorem Owned.finish [DecidableEq T] {t : T} {c : Call D} (hc : s.call t = some c) : (s.finish t c).Owned := by
  have hawait : ∀ {k}, k ≠ c.key → s.Awaited k → (s.finish t c).Awaited k := by
    intro k hk ha
    refine ha.setCall _ fun c' hc' _ => ?_
    rw [hc] at hc'
    cases hc'
    exact fun hkey => hk hkey.symm
  refine ⟨h.nodup, ?_, ?_, ?_, h.deleted, ?_⟩
  · intro k d hk
    by_cases hkc : k = c.key
    · simp only [Mailbox.finish, hkc, CmdMap.erase_self] at hk
      cases hk
    · simp only [Mailbox.finish, CmdMap.erase_ne _ hkc] at hk
      exact h.stored hk
  · intro k hk
    by_cases hkc : k = c.key
    · simp only [Mailbox.finish, hkc, CmdMap.erase_self, ne_eq, not_true_eq_false] at hk
    · simp only [Mailbox.finish, CmdMap.erase_ne _ hkc] at hk
      exact hawait hkc (h.awaited hk)
  · intro d hd
    rcases List.mem_append.mp hd with hd | hd
    · cases hslot : s.cmdMap c.key with
      | none => rw [hslot] at hd; cases hd
      | some p =>
        rw [hslot] at hd
        cases p with
        | none => cases hd
        | some d' =>
          have hdd : d = d' := by simpa using hd
          rw [hdd]
          exact List.mem_map.mpr ⟨_, h.stored hslot, rfl⟩
    · exact h.returned hd
  · intro k d hmem
    have hone := h.consumed k d hmem
    by_cases hslot : s.cmdMap c.key = some (some d)
    · -- the unit that is returned
      have hret : (s.finish t c).returned = d :: s.returned := by simp [Mailbox.finish, hslot]
      cases hone with
      | stored hk _ hr hd =>
        refine .returned (fun k' hk' => ?_) (by rw [hret, List.count_cons_self, hr]) hd
        by_cases hkc : k' = c.key
        · simp only [Mailbox.finish, hkc, CmdMap.erase_self] at hk'
          cases hk'
        · simp only [Mailbox.finish, CmdMap.erase_ne _ hkc] at hk'
          exact hkc (((hk k').mp hk').trans ((hk c.key).mp hslot).symm)
      | returned hk _ _ => exact absurd hslot (hk _)
      | deleted hk _ _ => exact absurd hslot (hk _)
    · refine hone.frame (fun k' => ?_) (fun hk ha => hawait (fun hkc => hslot (hkc ▸ hk)) ha) ?_ rfl
      · by_cases hkc : k' = c.key
        · simp only [Mailbox.finish, hkc, CmdMap.erase_self]
          exact ⟨fun h' => (nomatch h'), fun h' => absurd h' hslot⟩
        · simp only [Mailbox.finish, CmdMap.erase_ne _ hkc]
      · have hnot : d ∉ ((s.cmdMap c.key).join).toList := by
          intro hd
          rw [Option.mem_toList, Option.join_eq_some_iff] at hd
          exact hslot hd
        simp only [Mailbox.finish, List.count_append, List.count_eq_zero.mpr hnot, Nat.zero_add]

section
variable {call : AppCall} {data : Option D} (hnew : ∀ d, data = some d → d ∉ s.notified.map Prod.snd)
include hnew

theorem Owned.fresh {d : D} (hd : data = some d) :
    (∀ k, s.cmdMap k ≠ some (some d)) ∧ s.returned.count d = 0 ∧ s.deleted.count d = 0 := by
  have hn := hnew d hd
  refine ⟨fun k hk => hn (List.mem_map.mpr ⟨_, h.stored hk, rfl⟩), ?_, ?_⟩
  · exact List.count_eq_zero.mpr fun hr => hn (h.returned hr)
  · exact List.count_eq_zero.mpr fun hr => hn (h.deleted hr)

theorem Owned.nodup_hearing : ((s.hearing call data).notified.map Prod.snd).Nodup := by
  cases data with
  | none => exact h.nodup
  | some d => exact List.nodup_cons.mpr ⟨hnew d rfl, h.nodup⟩

theorem Owned.store (hslot : s.cmdMap call ≠ none) (hfree : ∀ d, s.cmdMap call ≠ some (some d)) :
    Owned { s.hearing call data with cmdMap := s.cmdMap.set call data } := by
  refine ⟨h.nodup_hearing hnew, ?_, ?_, fun hd => subset_hearing (h.returned hd),
    fun hd => subset_hearing (h.deleted hd), ?_⟩
  · intro k d hk
    simp only at hk
    by_cases hkc : k = call
    · subst hkc
      rw [CmdMap.set_self] at hk
      cases hk
      exact List.mem_cons_self ..
    · rw [CmdMap.set_ne _ _ hkc] at hk
      exact List.mem_append_right _ (h.stored hk)
  · intro k hk
    have hk' : s.cmdMap k ≠ none := by
      by_cases hkc : k = call
      · rw [hkc]; exact hslot
      · simp only [CmdMap.set_ne _ _ hkc] at hk
        exact hk
    exact (h.awaited hk').hearing call data
  · intro k d hmem
    rcases mem_hearing hmem with ⟨rfl, rfl⟩ | hmem
    · obtain ⟨hmap, hr, hd⟩ := h.fresh hnew rfl
      refine .stored (fun k' => ⟨fun hk' => ?_, ?_⟩) ((h.awaited hslot).hearing k (some d)) hr hd
      · refine Decidable.byContradiction fun hne => ?_
        simp only [CmdMap.set_ne _ _ hne] at hk'
        exact hmap k' hk'
      · rintro rfl
        exact CmdMap.set_self ..
    · have hne := ne_of_notified hnew hmem
      refine (h.consumed k d hmem).frame (fun k' => ?_) (fun _ ha => ha.hearing call data) rfl rfl
      by_cases hkc : k' = call
      · subst hkc
        simp only [CmdMap.set_self, Option.some.injEq]
        exact ⟨fun h' => absurd h' hne, fun h' => absurd h' (hfree d)⟩
      · simp only [CmdMap.set_ne _ _ hkc]

theorem Owned.drop : Owned { s.hearing call data with deleted := data.toList ++ s.deleted } := by
  refine ⟨h.nodup_hearing hnew, ?_, fun hk => (h.awaited hk).hearing call data,
    fun hd => subset_hearing (h.returned hd), ?_, ?_⟩
  · exact fun hk => List.mem_append_right _ (h.stored hk)
  · intro d hd
    rcases List.mem_append.mp hd with hd | hd
    · rw [Option.mem_toList] at hd
      subst hd
      exact List.mem_cons_self ..
    · exact subset_hearing (h.deleted hd)
  · intro k d hmem
    rcases mem_hearing hmem with ⟨rfl, rfl⟩ | hmem
    · obtain ⟨hmap, hr, hd⟩ := h.fresh hnew rfl
      refine .deleted hmap hr ?_
      simp only [Option.toList, List.cons_append, List.nil_append, List.count_cons_self, hd]
    · have hne := ne_of_notified hnew hmem
      refine (h.consumed k d hmem).frame (fun _ => Iff.rfl) (fun _ ha => ha.hearing call data) rfl ?_
      have hnot : d ∉ data.toList := fun hd => hne (Option.mem_toList.mp hd)
      simp only [List.count_append, List.count_eq_zero.mpr hnot, Nat.zero_add]

end

theorem Owned.step [DecidableEq T] {s' : Mailbox T D} {a : Act T D} (hs : Step s a s') (hfree : s.Free a) :
    s'.Owned := by
  cases hs with
  | @sendPkg t key hold =>
    refine h.of_calls rfl rfl rfl rfl fun ha => ha.setCall _ fun c hc hw => ?_
    rw [hold c hc] at hw
    cases hw
  | @unlock t c hc hst =>
    refine h.of_calls rfl rfl rfl rfl fun ha => ha.setCall _ fun c' hc' hw => ?_
    rw [hc] at hc'
    cases hc'
    rw [hst] at hw
    cases hw
  | @register t c hc hst =>
    refine h.set_none c.key (hfree c hc) rfl rfl rfl rfl (fun ha => ha.setCall _ fun c' hc' hw => ?_) ?_
    · rw [hc] at hc'
      cases hc'
      rw [hst] at hw
      cases hw
    · exact ⟨t, _, setCall_self .., rfl, rfl⟩
  | @sleep t c hc hst hslot =>
    exact h.set_none c.key hslot rfl rfl rfl rfl id ⟨t, c, hc, hst, rfl⟩
  | finish hc _ _ => exact h.finish hc
  | store hnew hslot => exact h.store hnew hslot hfree
  | drop hnew hslot => exact h.drop hnew

theorem Owned.lost [DecidableEq T] {s' : Mailbox T D} {a : Act T D} (hs : Step s a s') (hcons : s'.Consumed) :
    s.Free a := by
  -- the unit `d` leaves its slot and goes nowhere
  have lost : ∀ {k d}, s.cmdMap k = some (some d) → (k, d) ∈ s'.notified → s'.cmdMap k ≠ some (some d) →
      s'.returned = s.returned → s'.deleted = s.deleted → False := by
    intro k d hk hmem hne hr hd
    cases h.consumed k d (h.stored hk) with
    | stored _ _ hr₀ hd₀ =>
      cases hcons k d hmem with
      | stored hk' _ _ _ => exact hne ((hk' k).mpr rfl)
      | returned _ hr₁ _ => rw [hr, hr₀] at hr₁; cases hr₁
      | deleted _ _ hd₁ => rw [hd, hd₀] at hd₁; cases hd₁
    | returned hk' _ _ => exact hk' k hk
    | deleted hk' _ _ => exact hk' k hk
  cases hs with
  | @register t c hc hst =>
    intro c' hc' d hk
    rw [hc] at hc'
    cases hc'
    refine lost hk (h.stored hk) ?_ rfl rfl
    simp only [CmdMap.set_self, ne_eq, Option.some.injEq, reduceCtorEq, not_false_eq_true]
  | @store k data hnew hslot =>
    intro d hk
    refine lost hk (List.mem_append_right _ (h.stored hk)) ?_ rfl rfl
    simp only [CmdMap.set_self, ne_eq, Option.some.injEq]
    exact ne_of_notified hnew (h.stored hk)
  | drop hnew hslot =>
    intro d hk
    rw [hslot] at hk
    cases hk
  | sendPkg _ => trivial
  | unlock _ _ => trivial
  | sleep _ _ _ => trivial
  | finish _ _ ha => rcases ha with rfl | rfl <;> trivial

end

/-- **Every result is in one place throughout a run exactly when no step of it writes to a slot that
holds data.** -/
theorem consumed_iff [DecidableEq T] (acts : List (Act T D)) :
    Run.Throughout step Consumed init acts ↔ Run.Each step (fun s a _ => Free s a) init acts := by
  have hiff : Run.Each step (fun _ _ s' => Consumed s') init acts ↔
      Run.Each step (fun s a _ => Free s a) init acts :=
    Run.each_iff (I := fun s : Mailbox T D => s.Owned)
      (fun hI hs hfree => ⟨(hI.step (step_cases hs) hfree).consumed, hI.step (step_cases hs) hfree⟩)
      (fun hI hs hcons => hI.lost (step_cases hs) hcons) owned_init
  exact ⟨fun h => hiff.mp h.2, fun h => ⟨owned_init.consumed, hiff.mpr h⟩⟩

end

/-! ## No result lost between sender and waiter -/

/-- What a call heard is not deleted, is in its slot while it waits, and is what `Wait` returns. -/
def Answered (s : Mailbox T D) : Prop :=
  ∀ t c, s.call t = some c → ∀ d ∈ c.heard, d ∉ s.deleted ∧
    (c.stage = .waiting → s.cmdMap c.key = some (some d)) ∧ (c.stage = .returned → c.result = some d)

/-- Data come for a key only when no call on it is on its way to `Wait` and a single one, with a null
result so far, waits for it; a slot with data is not written to. -/
def Timely (s : Mailbox T D) : Act T D → Prop
  | .notify call (some _) => ∀ t c, s.call t = some c → c.key = call →
      c.stage ≠ .sending ∧ c.stage ≠ .sent ∧
      (c.stage = .waiting → s.cmdMap call = some none ∧
        ∀ u c', s.call u = some c' → c'.key = call → c'.stage = .waiting → u = t)
  | .notify call none => ∀ d, s.cmdMap call ≠ some (some d)
  | .register t => ∀ c, s.call t = some c → ∀ d, s.cmdMap c.key ≠ some (some d)
  | _ => True

/-- A call has heard nothing before it waits; what it hears then waits for it alone. -/
structure Fit (s : Mailbox T D) (t : T) (c : Call D) : Prop where
  early : c.stage = .sending ∨ c.stage = .sent → c.heard = []
  slot : ∀ d ∈ c.heard, c.stage = .waiting → s.cmdMap c.key = some (some d)
  alone : ∀ d ∈ c.heard, c.stage = .waiting →
    ∀ u c', s.call u = some c' → c'.key = c.key → c'.stage = .waiting → u = t
  result : ∀ d ∈ c.heard, c.stage = .returned → c.result = some d
  kept : ∀ d ∈ c.heard, d ∉ s.deleted
  known : ∀ d ∈ c.heard, d ∈ s.notified.map Prod.snd

theorem Fit.of_nil {s : Mailbox T D} {t : T} {c : Call D} (h : c.heard = []) : s.Fit t c := by
  refine ⟨fun _ => h, ?_, ?_, ?_, ?_, ?_⟩ <;> intro d hd <;> rw [h] at hd <;> cases hd

structure Attended (s : Mailbox T D) : Prop where
  fit : ∀ t c, s.call t = some c → s.Fit t c
  deleted : ∀ d ∈ s.deleted, d ∈ s.notified.map Prod.snd

theorem attended_init : (init : Mailbox T D).Attended where
  fit _ _ h := nomatch h
  deleted _ h := nomatch h

theorem Attended.answered {s : Mailbox T D} (h : s.Attended) : s.Answered := fun t c hc d hd =>
  ⟨(h.fit t c hc).kept d hd, (h.fit t c hc).slot d hd, (h.fit t c hc).result d hd⟩

/-- What happens to the calls of other threads leaves a call fit: its slot keeps its data, no other
call comes to wait for its key. -/
theorem Fit.frame {s s' : Mailbox T D} {t : T} {c : Call D} (h : s.Fit t c)
    (hm : ∀ d, c.stage = .waiting → d ∈ c.heard → s.cmdMap c.key = some (some d) →
      s'.cmdMap c.key = some (some d))
    (hw : ∀ d u c', c.stage = .waiting → d ∈ c.heard → s'.call u = some c' → c'.key = c.key →
      c'.stage = .waiting → ∃ c'', s.call u = some c'' ∧ c''.key = c.key ∧ c''.stage = .waiting)
    (hd : ∀ d, d ∈ c.heard → d ∈ s'.deleted → d ∈ s.deleted)
    (hn : ∀ d, d ∈ s.notified.map Prod.snd → d ∈ s'.notified.map Prod.snd) : s'.Fit t c where
  early := h.early
  slot d hmem hs := hm d hs hmem (h.slot d hmem hs)
  alone d hmem hs u c' hc' hk hs' := by
    obtain ⟨c'', hc'', hk'', hs''⟩ := hw d u c' hs hmem hc' hk hs'
    exact h.alone d hmem hs u c'' hc'' hk'' hs''
  result := h.result
  kept d hmem hdel := h.kept d hmem (hd d hmem hdel)
  known d hmem := hn d (h.known d hmem)

section
variable {s : Mailbox T D} (h : s.Attended)
include h

theorem Attended.sleep {c : Call D} (hfree : ∀ d, s.cmdMap c.key ≠ some (some d)) :
    Attended { s with cmdMap := s.cmdMap.set c.key none } where
  fit u cu hcu := (h.fit u cu hcu).frame (fun d _ _ hslot => (set_none_iff hfree _ d).mpr hslot)
    (fun _ _ cv _ _ hcv hk hwv => ⟨cv, hcv, hk, hwv⟩) (fun _ _ => id) (fun _ => id)
  deleted := h.deleted

theorem Attended.other {s' : Mailbox T D} {call : AppCall} {data : Option D} {t : T} {c : Call D}
    (hcall : s'.call = (s.hearing call data).call) (hn : s'.notified = (s.hearing call data).notified)
    (hc : s.call t = some c)
    (hm : ∀ d, c.stage = .waiting → d ∈ c.heard → s.cmdMap c.key = some (some d) →
      s'.cmdMap c.key = some (some d))
    (hd : ∀ d, d ∈ c.heard → d ∈ s'.deleted → d ∈ s.deleted) : s'.Fit t c := by
  refine (h.fit t c hc).frame hm (fun d u cu _ _ hcu hk hw => ?_) hd
    (fun d hmem => by rw [hn]; exact subset_hearing hmem)
  rw [hcall] at hcu
  obtain ⟨c'', hc'', rfl⟩ := call_hearing hcu
  obtain ⟨hkey, hstage⟩ := hear_key call data c''
  exact ⟨c'', hc'', by rw [← hk, hkey], by rw [← hw, hstage]⟩

section
variable {call : AppCall} {data : Option D} (hnew : ∀ d, data = some d → d ∉ s.notified.map Prod.snd)
  (htimely : s.Timely (.notify call data))
include hnew htimely

theorem Attended.store : Attended { s.hearing call data with cmdMap := s.cmdMap.set call data } where
  fit t c' hc' := by
    obtain ⟨c, hc, rfl⟩ := call_hearing hc'
    by_cases hk : c.key = call ∧ c.stage ≠ .returned
    · cases data with
      | none =>
        rw [hear_none]
        refine h.other rfl rfl hc (fun d _ _ hslot => ?_) (fun _ _ => id)
        rw [hk.1] at hslot
        exact absurd hslot (htimely d)
      | some d =>
        obtain ⟨hsending, hsent, hwaiting⟩ := htimely t c hc hk.1
        have hw : c.stage = .waiting := by
          cases hs : c.stage with
          | sending => exact absurd hs hsending
          | sent => exact absurd hs hsent
          | waiting => rfl
          | returned => exact absurd hs hk.2
        obtain ⟨hslot, halone⟩ := hwaiting hw
        -- the slot is still null, so the call has heard nothing before
        have hnil : c.heard = [] := by
          refine List.eq_nil_iff_forall_not_mem.mpr fun d' hd' => ?_
          have hd := (h.fit t c hc).slot d' hd' hw
          rw [hk.1, hslot] at hd
          cases hd
        rw [hear_some d hk, hnil]
        have only : ∀ d', d' ∈ [d] → d' = d := fun d' hd' => List.mem_singleton.mp hd'
        refine ⟨?_, ?_, ?_, ?_, ?_, ?_⟩
        · rintro (hs | hs)
          · exact absurd hs hsending
          · exact absurd hs hsent
        · intro d' hd' _
          rw [only d' hd']
          simp only [hk.1, CmdMap.set_self]
        · intro d' _ _ u cu hcu hkey hwu
          obtain ⟨c'', hc'', rfl⟩ := call_hearing hcu
          obtain ⟨hkey', hstage'⟩ := hear_key call (some d) c''
          exact halone u c'' hc'' (by rw [← hkey', hkey]; exact hk.1) (by rw [← hstage', hwu])
        · intro d' _ hs
          exact absurd hs hk.2
        · intro d' hd' hdel
          rw [only d' hd'] at hdel
          exact hnew d rfl (h.deleted d hdel)
        · intro d' hd'
          rw [only d' hd']
          exact List.mem_cons_self ..
    · rw [hear_of_ne hk]
      refine h.other rfl rfl hc (fun d hw _ hslot => ?_) (fun _ _ => id)
      have hne : c.key ≠ call := fun hkey => hk ⟨hkey, by rw [hw]; exact fun he => nomatch he⟩
      simp only [CmdMap.set_ne _ _ hne]
      exact hslot
  deleted d hd := subset_hearing (h.deleted d hd)

theorem Attended.drop (hslot : s.cmdMap call = none) :
    Attended { s.hearing call data with deleted := data.toList ++ s.deleted } where
  fit t c' hc' := by
    obtain ⟨c, hc, rfl⟩ := call_hearing hc'
    have heq : hear call data c = c := by
      cases data with
      | none => exact hear_none c
      | some d =>
        refine hear_of_ne fun hk => ?_
        obtain ⟨hsending, hsent, hwaiting⟩ := htimely t c hc hk.1
        cases hs : c.stage with
        | sending => exact hsending hs
        | sent => exact hsent hs
        | waiting =>
          have hnull := (hwaiting hs).1
          rw [hslot] at hnull
          cases hnull
        | returned => exact hk.2 hs
    rw [heq]
    refine h.other rfl rfl hc (fun _ _ _ => id) (fun d hmem hdel => ?_)
    rcases List.mem_append.mp hdel with hdel | hdel
    · exact absurd ((h.fit t c hc).known d hmem) (hnew d (Option.mem_toList.mp hdel))
    · exact hdel
  deleted d hd := by
    rcases List.mem_append.mp hd with hd | hd
    · rw [Option.mem_toList] at hd
      subst hd
      exact List.mem_cons_self ..
    · exact subset_hearing (h.deleted d hd)

end

variable [DecidableEq T]

theorem Attended.setCall {s' : Mailbox T D} {t : T} {c : Call D} (hs : c.stage ≠ .waiting)
    (hcall : s'.call = (s.setCall t c).call) (hn : s'.notified = s.notified) (hd : s'.deleted = s.deleted)
    (hm : ∀ {u cu d}, u ≠ t → s.call u = some cu → cu.stage = .waiting → d ∈ cu.heard →
      s.cmdMap cu.key = some (some d) → s'.cmdMap cu.key = some (some d))
    (hfit : s'.Fit t c) : s'.Attended where
  fit u cu hcu := by
    rw [hcall] at hcu
    by_cases hut : u = t
    · subst hut
      rw [setCall_self] at hcu
      cases hcu
      exact hfit
    · rw [setCall_ne s c hut] at hcu
      refine (h.fit u cu hcu).frame (fun d hw hmem => hm hut hcu hw hmem) (fun d v cv _ _ hcv hk hw => ?_)
        (fun d _ hdel => by rw [hd] at hdel; exact hdel) (fun d hmem => by rw [hn]; exact hmem)
      rw [hcall] at hcv
      by_cases hvt : v = t
      · subst hvt
        rw [setCall_self] at hcv
        cases hcv
        exact absurd hw hs
      · rw [setCall_ne s c hvt] at hcv
        exact ⟨cv, hcv, hk, hw⟩
  deleted := by rw [hd, hn]; exact h.deleted

theorem Attended.register {t : T} {c : Call D} (hc : s.call t = some c) (hs : c.stage = .sent)
    (hfree : ∀ d, s.cmdMap c.key ≠ some (some d)) :
    Attended { s.setCall t { c with stage := .waiting } with cmdMap := s.cmdMap.set c.key none } where
  fit u cu hcu := by
    by_cases hut : u = t
    · subst hut
      rw [show _ = _ from setCall_self ..] at hcu
      cases hcu
      exact .of_nil ((h.fit u c hc).early (.inr hs))
    · have hcu' : s.call u = some cu := by rw [← setCall_ne s _ hut]; exact hcu
      refine (h.fit u cu hcu').frame (fun d _ _ hslot => (set_none_iff hfree _ d).mpr hslot)
        (fun d v cv hw hmem hcv hk hwv => ?_) (fun _ _ => id) (fun _ => id)
      by_cases hvt : v = t
      · subst hvt
        rw [show _ = _ from setCall_self ..] at hcv
        cases hcv
        -- the slot of the waiting call holds `d`, that of the new one does not
        have hslot := (h.fit u cu hcu').slot d hmem hw
        rw [← hk] at hslot
        exact absurd hslot (hfree d)
      · exact ⟨cv, by rw [← setCall_ne s _ hvt]; exact hcv, hk, hwv⟩
  deleted := h.deleted

theorem Attended.finish {t : T} {c : Call D} (hc : s.call t = some c) (hs : c.stage = .waiting) :
    (s.finish t c).Attended := by
  have hfit := h.fit t c hc
  refine h.setCall (t := t) (c := { c with stage := .returned, result := (s.cmdMap c.key).join })
    (fun h' => nomatch h') rfl rfl rfl (fun {u cu d} hut hcu hw hmem hslot => ?_) ?_
  · have hk : cu.key ≠ c.key := fun hk => hut ((h.fit u cu hcu).alone d hmem hw t c hc hk.symm hs).symm
    simp only [Mailbox.finish, CmdMap.erase_ne _ hk]
    exact hslot
  · refine ⟨?_, fun _ _ hw => (nomatch hw), fun _ _ hw => (nomatch hw), fun d hmem _ => ?_, hfit.kept, hfit.known⟩
    · rintro (he | he)
      · cases he
      · cases he
    · simp only [hfit.slot d hmem hs, Option.join_some]

theorem Attended.step {s' : Mailbox T D} {a : Act T D} (hs : Step s a s') (htimely : s.Timely a) :
    s'.Attended := by
  cases hs with
  | @sendPkg t key _ =>
    have hne : (⟨key, .sending, [], none⟩ : Call D).stage ≠ .waiting := fun hw => nomatch hw
    exact h.setCall hne rfl rfl rfl (fun _ _ _ _ => id) (.of_nil rfl)
  | @unlock t c hc hst =>
    have hne : { c with stage := .sent }.stage ≠ .waiting := fun hw => nomatch hw
    exact h.setCall hne rfl rfl rfl (fun _ _ _ _ => id) (.of_nil ((h.fit t c hc).early (.inl hst)))
  | register hc hst => exact h.register hc hst (htimely _ hc)
  | sleep _ _ hslot => exact h.sleep hslot
  | finish hc hst _ => exact h.finish hc hst
  | store hnew _ => exact h.store hnew htimely
  | drop hnew hslot => exact h.drop hnew htimely hslot

end

/-- **In a run whose notifications are timely, what a caller's key is notified of after the request is
what its `Wait` returns.** -/
theorem answered_of_timely [DecidableEq T] [DecidableEq D] (acts : List (Act T D))
    (h : Run.Each step (fun s a _ => Timely s a) init acts) : Run.Throughout step Answered init acts :=
  ⟨attended_init.answered, Run.each_of (I := fun s : Mailbox T D => s.Attended)
    (fun hI hs ht => ⟨(hI.step (step_cases hs) ht).answered, hI.step (step_cases hs) ht⟩) attended_init h⟩

def clockCall : AppCall := ⟨0x1000, 0x044d, 0x0c, 2, 0⟩

def answeredRun : List (Act Nat Nat) :=
  [.sendPkg 0 clockCall, .unlock 0, .register 0, .notify clockCall (some 7), .wake 0]

theorem answered_of_timely_answeredRun : Run.Throughout step Answered init answeredRun := by
  refine answered_of_timely answeredRun ?_
  refine (Run.each_cons rfl).mpr ⟨trivial, (Run.each_cons rfl).mpr ⟨trivial, (Run.each_cons rfl).mpr ⟨?_, ?_⟩⟩⟩
  · intro _ _ _ h
    cases h
  · refine (Run.each_cons rfl).mpr ⟨?_, (Run.each_cons rfl).mpr ⟨trivial, trivial⟩⟩
    -- thread 0 waits for the key, and no other thread is in a call
    intro t c hc _
    have ht : t = 0 := by
      refine Decidable.byContradiction fun hne => ?_
      simp only [setCall, hne, if_false, init, reduceCtorEq] at hc
    subst ht
    cases hc
    refine ⟨by decide, by decide, fun _ => ⟨rfl, fun u c' hc' _ _ => ?_⟩⟩
    refine Decidable.byContradiction fun hne => ?_
    simp only [setCall, hne, if_false, init, reduceCtorEq] at hc'

-- the response comes before
def hastyRun : List (Act Nat Nat) :=
  [.sendPkg 0 clockCall, .unlock 0, .notify clockCall (some 7), .register 0, .timeout 0]

theorem hastyRun_unanswered : ¬ Run.Throughout step Answered init hastyRun := by
  intro ⟨_, h⟩
  have h₁ := ((Run.each_cons rfl).mp h).2
  have h₂ := ((Run.each_cons rfl).mp h₁).2
  have h₃ := ((Run.each_cons rfl).mp h₂).1
  exact (h₃ 0 _ rfl 7 (List.mem_cons_self ..)).1 (List.mem_cons_self ..)

-- two responses come before the waiting thread wakes up
def repeatedRun : List (Act Nat Nat) :=
  [.sendPkg 0 clockCall, .unlock 0, .register 0, .notify clockCall (some 7), .notify clockCall (some 8)]

theorem repeatedRun_unconsumed : ¬ Run.Throughout step Consumed init repeatedRun := by
  intro ⟨_, h⟩
  have h₁ := ((Run.each_cons rfl).mp h).2
  have h₂ := ((Run.each_cons rfl).mp h₁).2
  have h₃ := ((Run.each_cons rfl).mp h₂).2
  have h₄ := ((Run.each_cons rfl).mp h₃).2
  have h₅ := ((Run.each_cons rfl).mp h₄).1
  -- the first unit is in no place any more
  cases h₅ clockCall 7 (List.mem_cons_of_mem _ (List.mem_cons_self ..)) with
  | stored hk _ _ _ => exact absurd ((hk clockCall).mpr rfl) (by decide)
  | returned _ hr _ => exact absurd hr (by decide)
  | deleted _ _ hd => exact absurd hd (by decide)

end Mailbox

end Afn
