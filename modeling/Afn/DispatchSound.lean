import Afn.ServerSound
import Mathlib.Data.List.Induction

/-!
# Which handler a request reaches

The handlers are kept in the order of their codes, and the loop over them ends in its first round. So a request
reaches its handler when that is the first of the map, and all others get a confirmation.
-/

namespace Afn

open Access Effect AFNPackage

/-! ## Tables of handlers -/

-- a call of `Register`; a request handler is known by its address
structure Registration (H : Type) where
  code : Int
  reqHandler : Option H
  ackHandler : Option (AFNPackage → Acc (Option AckData))

namespace PackageBuilder

section
variable {H : Type} (f : H → List PkgPtr → List PkgPtr → Srv (Int × List PkgPtr))

def handlerOf (r : Registration H) : PkgHandler := ⟨r.reqHandler.map f, r.ackHandler⟩

def table (regs : List (Registration H)) : List (Int × PkgHandler) :=
  regs.foldl (fun handlerMap r => register handlerMap r.code (handlerOf f r)) []

def lastOf (regs : List (Registration H)) (code : Int) : Option (Registration H) :=
  regs.reverse.find? fun r => r.code == code

def find (handlerMap : List (Int × PkgHandler)) (code : Int) : Option PkgHandler :=
  (handlerMap.find? fun e => e.1 == code).map (·.2)

def Ordered (handlerMap : List (Int × PkgHandler)) : Prop := handlerMap.Pairwise fun e e' => e.1 < e'.1

end

section
variable (code : Int) (h : PkgHandler)

theorem find_cons (c : Int) (h' : PkgHandler) (rest : List (Int × PkgHandler)) (k : Int) :
    find ((c, h') :: rest) k = if c = k then some h' else find rest k := by
  unfold find
  rw [List.find?_cons]
  by_cases hc : c = k
  · rw [if_pos hc, beq_iff_eq.mpr hc]
    rfl
  · rw [if_neg hc, beq_eq_false_iff_ne.mpr hc]

theorem find_register (k : Int) : ∀ handlerMap : List (Int × PkgHandler),
    find (register handlerMap code h) k = if code = k then some h else find handlerMap k := by
  intro handlerMap
  induction handlerMap with
  | nil => exact find_cons code h [] k
  | cons e rest ih =>
    obtain ⟨c, h'⟩ := e
    simp only [register]
    by_cases hlt : code < c
    · rw [if_pos hlt, find_cons]
    rw [if_neg hlt]
    by_cases heq : code = c
    · subst heq
      rw [if_pos rfl, find_cons, find_cons]
      split
      · rfl
      · rfl
    · rw [if_neg heq, find_cons, find_cons, ih]
      by_cases hk : code = k
      · rw [if_pos hk, if_neg fun hck => heq (hk.trans hck.symm), if_pos hk]
      · rw [if_neg hk, if_neg hk]

theorem mem_register {e : Int × PkgHandler} : ∀ {handlerMap : List (Int × PkgHandler)},
    e ∈ register handlerMap code h → e = (code, h) ∨ e ∈ handlerMap := by
  intro handlerMap
  induction handlerMap with
  | nil => exact fun he => .inl (List.mem_singleton.mp he)
  | cons e' rest ih =>
    intro he
    obtain ⟨c, h'⟩ := e'
    simp only [register] at he
    split at he
    · exact List.mem_cons.mp he
    split at he
    · rcases List.mem_cons.mp he with he | he
      · exact .inl he
      · exact .inr (List.mem_cons_of_mem _ he)
    · rcases List.mem_cons.mp he with he | he
      · exact .inr (he ▸ List.mem_cons_self ..)
      · exact (ih he).imp_right (List.mem_cons_of_mem _)

theorem Ordered.register : ∀ {handlerMap : List (Int × PkgHandler)}, Ordered handlerMap →
    Ordered (PackageBuilder.register handlerMap code h) := by
  intro handlerMap
  induction handlerMap with
  | nil => exact fun _ => List.pairwise_singleton _ _
  | cons e rest ih =>
    intro ho
    obtain ⟨c, h'⟩ := e
    obtain ⟨hhead, hrest⟩ := List.pairwise_cons.mp ho
    simp only [PackageBuilder.register]
    by_cases hlt : code < c
    · rw [if_pos hlt]
      refine List.pairwise_cons.mpr ⟨?_, ho⟩
      intro e he
      cases he with
      | head => exact hlt
      | tail _ he => exact Int.lt_trans hlt (hhead e he)
    rw [if_neg hlt]
    by_cases heq : code = c
    · subst heq
      rw [if_pos rfl]
      exact List.pairwise_cons.mpr ⟨hhead, hrest⟩
    · rw [if_neg heq]
      refine List.pairwise_cons.mpr ⟨?_, ih hrest⟩
      intro e he
      rcases mem_register code h he with rfl | he
      · exact Int.lt_iff_le_and_ne.mpr ⟨Int.not_lt.mp hlt, Ne.symm heq⟩
      · exact hhead e he

end

section
variable {H : Type} (f : H → List PkgPtr → List PkgPtr → Srv (Int × List PkgPtr)) (regs : List (Registration H))

theorem table_concat (r : Registration H) :
    table f (regs ++ [r]) = register (table f regs) r.code (handlerOf f r) := by
  unfold table
  rw [List.foldl_append]
  rfl

theorem lastOf_concat (r : Registration H) (k : Int) :
    lastOf (regs ++ [r]) k = if r.code = k then some r else lastOf regs k := by
  unfold lastOf
  rw [List.reverse_concat, List.find?_cons]
  by_cases hk : r.code = k
  · rw [if_pos hk, beq_iff_eq.mpr hk]
  · rw [if_neg hk, beq_eq_false_iff_ne.mpr hk]

theorem ordered_table : Ordered (table f regs) := by
  induction regs using List.reverseRecOn with
  | nil => exact List.Pairwise.nil
  | append_singleton regs r ih =>
    rw [table_concat]
    exact ih.register r.code (handlerOf f r)

theorem find_table (k : Int) : find (table f regs) k = (lastOf regs k).map (handlerOf f) := by
  induction regs using List.reverseRecOn with
  | nil => rfl
  | append_singleton regs r ih =>
    rw [table_concat, lastOf_concat, find_register, ih]
    split
    · rfl
    · rfl

theorem lastOf_of_mem {r : Registration H} (hr : r ∈ regs) : ∃ r', lastOf regs r.code = some r' := by
  apply Option.isSome_iff_exists.mp
  unfold lastOf
  rw [List.find?_isSome]
  exact ⟨r, List.mem_reverse.mpr hr, beq_self_eq_true _⟩

theorem mem_of_lastOf {r : Registration H} {k : Int} (hr : lastOf regs k = some r) : r ∈ regs ∧ r.code = k := by
  have hcode := List.find?_some hr
  exact ⟨List.mem_reverse.mp (List.mem_of_find?_eq_some hr), beq_iff_eq.mp hcode⟩

theorem table_head {code : Int} {h : PkgHandler} {rest : List (Int × PkgHandler)}
    (ht : table f regs = (code, h) :: rest) :
    (∃ r, lastOf regs code = some r ∧ h = handlerOf f r) ∧ ∀ r ∈ regs, code ≤ r.code := by
  constructor
  · have hfind := find_table f regs code
    rw [ht, find_cons, if_pos rfl] at hfind
    obtain ⟨r, hr, hh⟩ := Option.map_eq_some_iff.mp hfind.symm
    exact ⟨r, hr, hh.symm⟩
  · intro r hr
    obtain ⟨r', hr'⟩ := lastOf_of_mem regs hr
    have hfind := find_table f regs r.code
    rw [hr', ht, find_cons] at hfind
    by_cases hc : code = r.code
    · exact Int.le_of_eq hc
    rw [if_neg hc] at hfind
    obtain ⟨e, he, -⟩ := Option.map_eq_some_iff.mp hfind
    have ho := ordered_table f regs
    rw [ht] at ho
    have hlt := (List.pairwise_cons.mp ho).1 e (List.mem_of_find?_eq_some he)
    have hcode := List.find?_some he
    exact Int.le_of_lt (beq_iff_eq.mp hcode ▸ hlt)

theorem table_ne_nil (hne : regs ≠ []) : table f regs ≠ [] := by
  obtain ⟨r, hr⟩ := List.exists_mem_of_ne_nil regs hne
  obtain ⟨r', hr'⟩ := lastOf_of_mem regs hr
  have hfind := find_table f regs r.code
  intro ht
  rw [hr', ht] at hfind
  cases hfind

/-! ## Requests -/

def requestHandler (regs : List (Registration H)) (code : Int) : Option H :=
  (lastOf regs code).bind (·.reqHandler)

/-- Whatever the handlers do and whatever the replies are, a list of requests whose first one is `reqPkg` is
given to the handler last registered for its code, if there is one, and is else confirmed. -/
def Dispatches (regs : List (Registration H)) (reqPkg : PkgPtr) : Prop :=
  ∀ f createAck rest ackLst,
    PackageBuilder.doHandleRequest ⟨table f regs, createAck⟩ reqPkg (reqPkg :: rest) ackLst =
      match requestHandler regs reqPkg.pkg.getCode with
      | some reqHandler => f reqHandler (reqPkg :: rest) ackLst
      | none => do
        let ack ← createAck reqPkg none
        return (YQER_OK, ackLst ++ [ack])

variable {regs} {reqPkg : PkgPtr}

theorem dispatches_of_first (hne : regs ≠ [])
    (hfirst : requestHandler regs reqPkg.pkg.getCode = none ∨ ∀ r ∈ regs, reqPkg.pkg.getCode ≤ r.code) :
    Dispatches regs reqPkg := by
  intro f createAck rest ackLst
  unfold PackageBuilder.doHandleRequest
  cases ht : table f regs with
  | nil => exact absurd ht (table_ne_nil f regs hne)
  | cons e entries =>
    obtain ⟨code, h⟩ := e
    obtain ⟨⟨r, hr, rfl⟩, hmin⟩ := table_head f regs ht
    cases hreq : requestHandler regs reqPkg.pkg.getCode with
    | none =>
      cases hr' : r.reqHandler with
      | none => simp only [handlerOf, hr', Option.map_none]
      | some reqHandler =>
        have hcode : code ≠ reqPkg.pkg.getCode := by
          rintro rfl
          rw [requestHandler, hr, Option.bind_some, hr'] at hreq
          cases hreq
        simp only [handlerOf, hr', Option.map_some, hcode, if_false]
    | some reqHandler =>
      have hle : ∀ r ∈ regs, reqPkg.pkg.getCode ≤ r.code := by
        rcases hfirst with hnone | hle
        · rw [hreq] at hnone
          cases hnone
        · exact hle
      obtain ⟨r', hr', hhandler⟩ := Option.bind_eq_some_iff.mp hreq
      obtain ⟨hmem', hcode'⟩ := mem_of_lastOf regs hr'
      obtain ⟨hmem, hcode⟩ := mem_of_lastOf regs hr
      have heq : code = reqPkg.pkg.getCode :=
        Int.le_antisymm (hcode' ▸ hmin r' hmem') (hcode ▸ hle r hmem)
      rw [heq, hr'] at hr
      cases hr
      simp only [handlerOf, hhandler, Option.map_some, heq, if_true]

-- a handler and a way to make replies that can be told apart
def probe (_ : H) (_ _ : List PkgPtr) : Srv (Int × List PkgPtr) := pure (1, [])

def probeAck (reqPkg : PkgPtr) (_ : Option PkgAfnData) : Srv PkgPtr := pure reqPkg

theorem first_of_dispatches (h : Dispatches regs reqPkg) :
    regs ≠ [] ∧
      (requestHandler regs reqPkg.pkg.getCode = none ∨ ∀ r ∈ regs, reqPkg.pkg.getCode ≤ r.code) := by
  have hprobe := congrFun (h probe probeAck [] []) ConnectionPower.start
  constructor
  · rintro rfl
    have hcode : (-1 : Int) = YQER_OK := by
      cases hprobe
    exact absurd hcode (by decide)
  · cases hreq : requestHandler regs reqPkg.pkg.getCode with
    | none => exact .inl rfl
    | some reqHandler =>
      refine .inr ?_
      rw [hreq] at hprobe
      unfold PackageBuilder.doHandleRequest at hprobe
      cases ht : table probe regs with
      | nil =>
        simp only [ht] at hprobe
        cases hprobe
      | cons e entries =>
        obtain ⟨code, h⟩ := e
        obtain ⟨⟨r, hr, rfl⟩, hmin⟩ := table_head probe regs ht
        have hcode : code = reqPkg.pkg.getCode := by
          refine Decidable.byContradiction fun hcode => ?_
          simp only [ht] at hprobe
          cases hr' : r.reqHandler with
          | none =>
            simp only [handlerOf, hr', Option.map_none] at hprobe
            cases hprobe
          | some reqHandler' =>
            simp only [handlerOf, hr', Option.map_some, hcode, if_false] at hprobe
            cases hprobe
        exact hcode ▸ hmin

end

/-- **A request reaches the handler of its code exactly when something is registered, and the request has no
handler or the first code of the map.** -/
theorem dispatches_iff {H : Type} (regs : List (Registration H)) (reqPkg : PkgPtr) :
    Dispatches regs reqPkg ↔ regs ≠ [] ∧
      (requestHandler regs reqPkg.pkg.getCode = none ∨ ∀ r ∈ regs, reqPkg.pkg.getCode ≤ r.code) :=
  ⟨first_of_dispatches, fun h => dispatches_of_first h.1 h.2⟩

def twoHandlers : List (Registration Unit) := [⟨0x02, some (), none⟩, ⟨0x0C, some (), none⟩]

theorem twoHandlers_confirmed :
    requestHandler twoHandlers (ConnectionPower.clockPkg.pkg).getCode = some () ∧
    ¬ Dispatches twoHandlers ⟨0, ConnectionPower.clockPkg.pkg⟩ := by
  refine ⟨by decide, fun h => ?_⟩
  rcases (first_of_dispatches h).2 with hnone | hmin
  · exact absurd hnone (by decide)
  · exact absurd (hmin ⟨0x02, some (), none⟩ (List.mem_cons_self ..)) (by decide)

end PackageBuilder

/-! ## The handlers in use -/

-- the calls of `Register` in `YQLoop`
def yqLoop : List (Registration Unit) := [⟨0x02, some (), none⟩, ⟨0x0C, none, some AFN0C.handleAck⟩]

theorem handlerMap_eq_table : handlerMap = PackageBuilder.table (fun _ => AFN02.handleRequest) yqLoop := rfl

theorem yqLoop_dispatches (reqPkg : PkgPtr) : PackageBuilder.Dispatches yqLoop reqPkg := by
  refine PackageBuilder.dispatches_of_first (List.cons_ne_nil _ _) ?_
  by_cases hcode : reqPkg.pkg.getCode = 2
  · refine .inr fun r hr => ?_
    rw [hcode]
    rcases List.mem_cons.mp hr with rfl | hr
    · decide
    · rw [List.mem_singleton.mp hr]
      decide
  · refine .inl ?_
    unfold PackageBuilder.requestHandler PackageBuilder.lastOf yqLoop
    by_cases h12 : (0x0C : Int) = reqPkg.pkg.getCode
    · simp [h12.symm]
    · simp [h12, Ne.symm hcode]

end Afn
