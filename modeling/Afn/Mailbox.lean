import Afn.Run

/-!
# Waiting for a response

`AFNPackageBuilder.h` and `.cpp`: the map from pending calls to their results, the thread of a
synchronous call (`REQUEST_DATA`, `WAIT_CALL`, `Wait`) and the thread that receives responses
(`notify`), as steps that any number of threads may interleave.
-/

namespace Afn

structure AppCall where
  m_areacode : UInt16
  m_number : UInt16
  AFN : UInt8
  m_fn : UInt16
  m_pn : UInt16
  deriving DecidableEq, Repr

/-- `operator <`, by which the map is ordered. -/
def AppCall.lt (self o : AppCall) : Bool :=
  if self.m_areacode < o.m_areacode then true
  else if o.m_areacode < self.m_areacode then false
  else if self.m_number < o.m_number then true
  else if o.m_number < self.m_number then false
  else if self.AFN < o.AFN then true
  else if o.AFN < self.AFN then false
  else if self.m_fn < o.m_fn then true
  else if o.m_fn < self.m_fn then false
  else if self.m_pn < o.m_pn then true
  else false

theorem lex_false {p q : Prop} [Decidable p] [Decidable q] {r r' : Bool}
    (h : (if p then true else if q then false else r) = false)
    (h' : (if q then true else if p then false else r') = false) : ¬ p ∧ ¬ q ∧ r = false ∧ r' = false := by
  by_cases hp : p
  · simp only [hp, if_true, Bool.true_eq_false] at h
  · by_cases hq : q
    · simp only [hq, if_true, Bool.true_eq_false] at h'
    · simp only [hp, hq, if_false] at h h'
      exact ⟨hp, hq, h, h'⟩

/-- Keys the map takes for the same are equal, so the map is a function of the key. -/
theorem AppCall.eq_of_not_lt {a b : AppCall} (hab : a.lt b = false) (hba : b.lt a = false) : a = b := by
  have antisymm16 : ∀ {x y : UInt16}, ¬ x < y → ¬ y < x → x = y := fun h₁ h₂ =>
    UInt16.le_antisymm (UInt16.not_lt.mp h₂) (UInt16.not_lt.mp h₁)
  obtain ⟨h₁, h₁', hab, hba⟩ := lex_false hab hba
  obtain ⟨h₂, h₂', hab, hba⟩ := lex_false hab hba
  obtain ⟨h₃, h₃', hab, hba⟩ := lex_false hab hba
  obtain ⟨h₄, h₄', hab, hba⟩ := lex_false hab hba
  have h₅ : ¬ a.m_pn < b.m_pn := by simpa using hab
  have h₅' : ¬ b.m_pn < a.m_pn := by simpa using hba
  cases a
  cases b
  simp only [AppCall.mk.injEq]
  exact ⟨antisymm16 h₁ h₁', antisymm16 h₂ h₂', UInt8.le_antisymm (UInt8.not_lt.mp h₃') (UInt8.not_lt.mp h₃),
    antisymm16 h₄ h₄', antisymm16 h₅ h₅'⟩

/-! ## The map of pending calls -/

-- the results by key; a result is a pointer to a data unit `D`, which may be null
abbrev CmdMap (D : Type) := AppCall → Option (Option D)

namespace CmdMap

variable {D : Type}

def set (m : CmdMap D) (call : AppCall) (p : Option D) : CmdMap D := fun k => if k = call then some p else m k

def erase (m : CmdMap D) (call : AppCall) : CmdMap D := fun k => if k = call then none else m k

@[simp] theorem set_self (m : CmdMap D) (call : AppCall) (p : Option D) : m.set call p call = some p := if_pos rfl

theorem set_ne (m : CmdMap D) {call k : AppCall} (p : Option D) (h : k ≠ call) : m.set call p k = m k := if_neg h

@[simp] theorem erase_self (m : CmdMap D) (call : AppCall) : m.erase call call = none := if_pos rfl

theorem erase_ne (m : CmdMap D) {call k : AppCall} (h : k ≠ call) : m.erase call k = m k := if_neg h

end CmdMap

/-! ## Threads -/

-- `sending` holds the lock of the connection list; `waiting` is inside the loop of `Wait`
inductive Stage
  | sending
  | sent
  | waiting
  | returned
  deriving DecidableEq, Repr

/-- A synchronous call. `heard` are the data notified for its key since its request was sent, and
`result` is what `Wait` returned. -/
structure Call (D : Type) where
  key : AppCall
  stage : Stage
  heard : List D
  result : Option D

inductive Act (T D : Type)
  | sendPkg (t : T) (key : AppCall)
  | unlock (t : T)
  | register (t : T)
  | wake (t : T)
  | timeout (t : T)
  | notify (call : AppCall) (data : Option D)

/-- The map, the lock of the connection list and the calls of the threads; `notified`, `returned` and
`deleted` list the data units passed to `notify`, returned by `Wait` and deleted by `notify`. -/
structure Mailbox (T D : Type) where
  cmdMap : CmdMap D
  listLock : Option T
  call : T → Option (Call D)
  notified : List (AppCall × D)
  returned : List D
  deleted : List D

namespace Mailbox

variable {T D : Type}

def init : Mailbox T D := ⟨fun _ => none, none, fun _ => none, [], [], []⟩

section
variable [DecidableEq T]

def setCall (s : Mailbox T D) (t : T) (c : Call D) : Mailbox T D :=
  { s with call := fun u => if u = t then some c else s.call u }

theorem setCall_self (s : Mailbox T D) (t : T) (c : Call D) : (s.setCall t c).call t = some c := if_pos rfl

theorem setCall_ne (s : Mailbox T D) {t u : T} (c : Call D) (h : u ≠ t) : (s.setCall t c).call u = s.call u :=
  if_neg h

-- `p = cmdMap[call]; cmdMap.erase(call)`, and the return of `Wait`
def finish (s : Mailbox T D) (t : T) (c : Call D) : Mailbox T D :=
  let p := (s.cmdMap c.key).join
  { s.setCall t { c with stage := .returned, result := p } with
    cmdMap := s.cmdMap.erase c.key
    returned := p.toList ++ s.returned }

-- the calls on the key of a response hear of its data
def hear (call : AppCall) (data : Option D) (c : Call D) : Call D :=
  if c.key = call ∧ c.stage ≠ .returned then { c with heard := data.toList ++ c.heard } else c

/-- One step. A thread starts a call when it is in none, under the lock of the connection list; a
data unit is passed to `notify` once. Reading `cmdMap[call]` inserts a null result where there is
none, and a wake-up that finds a null result goes back to waiting. -/
def step [DecidableEq D] (s : Mailbox T D) : Act T D → Option (Mailbox T D)
  | .sendPkg t key =>
    if s.listLock = none ∧ ∀ c ∈ s.call t, c.stage = .returned then
      some { s.setCall t ⟨key, .sending, [], none⟩ with listLock := some t }
    else none
  | .unlock t =>
    match s.call t with
    | some c =>
      if c.stage = .sending then some { s.setCall t { c with stage := .sent } with listLock := none }
      else none
    | none => none
  | .register t =>
    match s.call t with
    | some c =>
      if c.stage = .sent then
        some { s.setCall t { c with stage := .waiting } with cmdMap := s.cmdMap.set c.key none }
      else none
    | none => none
  | .wake t =>
    match s.call t with
    | some c =>
      if c.stage = .waiting then
        match s.cmdMap c.key with
        | some (some _) => some (s.finish t c)
        | _ => some { s with cmdMap := s.cmdMap.set c.key none }
      else none
    | none => none
  | .timeout t =>
    match s.call t with
    | some c => if c.stage = .waiting then some (s.finish t c) else none
    | none => none
  | .notify call data =>
    if ∀ d ∈ data, d ∉ s.notified.map Prod.snd then
      let s := { s with
        call := fun t => (s.call t).map (hear call data)
        notified := (data.map fun d => (call, d)).toList ++ s.notified }
      match s.cmdMap call with
      | some _ => some { s with cmdMap := s.cmdMap.set call data }
      | none => some { s with deleted := data.toList ++ s.deleted }
    else none

end

end Mailbox

end Afn
