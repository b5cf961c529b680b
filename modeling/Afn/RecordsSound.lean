import Afn.JzqSound

/-!
# One record for each concentrator

Logins add a record for an address that has none. `LoadJzq` adds its rows whatever the list holds, and may
give one address to two rows of the table, whose columns are wider than the addresses.
-/

namespace Afn

/-! ## Addresses -/

namespace JzqList

def addresses (l : JzqList) : List (UInt16 × UInt16) := l.m_jzqList.map fun p => (p.m_areacode, p.m_number)

def Unique (l : JzqList) : Prop := l.addresses.Nodup

instance (l : JzqList) : Decidable l.Unique := inferInstanceAs (Decidable (List.Nodup _))

end JzqList

-- the addresses of the rows, as `WORD`s
def Tables.addresses (db : Tables) : List (UInt16 × UInt16) :=
  db.gc_equipmentjzq.map fun r => (UInt16.ofInt r.EquipmentCjqArea, UInt16.ofInt r.EquipmentCjqAddr)

/-- At most one row for each pair of numbers. -/
def Tables.Keyed (db : Tables) : Prop :=
  (db.gc_equipmentjzq.map fun r => (r.EquipmentCjqArea, r.EquipmentCjqAddr)).Nodup

namespace JzqList

section
variable (l : JzqList) (db : Tables) (tick : UInt32) (a n _Fn : UInt16) (_pseq : UInt8)

theorem addresses_loadJzq : (l.loadJzq db).addresses = l.addresses ++ db.addresses := by
  simp only [addresses, loadJzq, Tables.addresses, List.map_map, List.map_append]
  rfl

theorem addresses_load : (l.load db).addresses = db.addresses := addresses_loadJzq { l with m_jzqList := [] } db

theorem getJzq_eq_none : l.getJzq a n = none ↔ (a, n) ∉ l.addresses := by
  simp only [addresses, getJzq, List.find?_eq_none, List.mem_map, at?, Bool.and_eq_true, beq_iff_eq, not_exists,
    not_and, Prod.mk.injEq]

theorem addresses_modify {f : Jzq → Jzq}
    (hf : ∀ p, ((f p).m_areacode, (f p).m_number) = (p.m_areacode, p.m_number)) :
    (l.modify a n f).addresses = l.addresses := by
  simp only [addresses, modify]
  induction l.m_jzqList with
  | nil => rfl
  | cons p ps ih =>
    simp only [modifyFirst]
    split
    · simp only [List.map_cons, hf]
    · simp only [List.map_cons, ih]

end

end JzqList

theorem Jzq.address_loginState (p : Jzq) (tick : UInt32) (_Fn : UInt16) (_pseq : UInt8) :
    ((p.loginState tick _Fn _pseq).m_areacode, (p.loginState tick _Fn _pseq).m_number) =
      (p.m_areacode, p.m_number) := by
  obtain ⟨m_tag, m_heartTimer, h⟩ := loginState_eq p tick _pseq _Fn
  rw [h]

theorem JzqList.Unique.report {l : JzqList} (h : l.Unique) (tick : UInt32) (a n _Fn : UInt16) (_pseq : UInt8)
    (_add : Bool) : (l.reportLoginState tick a n _Fn _pseq _add).Unique := by
  unfold reportLoginState
  cases hg : l.getJzq a n with
  | some p =>
    unfold Unique
    rw [addresses_modify l a n fun p => p.address_loginState tick _Fn _pseq]
    exact h
  | none =>
    cases _add with
    | false => exact h
    | true =>
      have hnew : (a, n) ∉ l.addresses := (l.getJzq_eq_none a n).mp hg
      simp only [if_true, Unique, addresses, List.map_append, List.map_cons, List.map_nil, Jzq.address_loginState]
      refine List.nodup_append.mpr ⟨h, List.pairwise_singleton _ _, fun x hx y hy heq => hnew ?_⟩
      have hy : y = (a, n) := List.mem_singleton.mp hy
      rw [← hy, ← heq]
      exact hx

/-! ## Runs -/

namespace Records

inductive Act
  | load (db : Tables) (keyed : db.Keyed)
  | report (tick : UInt32) (_areacode _number _Fn : UInt16) (_pseq : UInt8) (_add : Bool)
  | freshjzq (db : Tables) (keyed : db.Keyed)

def step (s : JzqList) : Act → Option JzqList
  | .load db _ => some (s.load db)
  | .report tick a n _Fn _pseq _add => some (s.reportLoginState tick a n _Fn _pseq _add)
  | .freshjzq db _ => some (s.loadJzq db)

def start : JzqList := ⟨[], 1⟩

/-- The rows that are loaded have different addresses, and `freshjzq` finds none of them in the list. -/
def Fresh (s : JzqList) : Act → Prop
  | .load db _ => db.addresses.Nodup
  | .report .. => True
  | .freshjzq db _ => db.addresses.Nodup ∧ ∀ x ∈ s.addresses, x ∉ db.addresses

section
variable {s s' : JzqList} {act : Act}

theorem unique_of_fresh (h : s.Unique) (hs : step s act = some s') (hf : Fresh s act) : s'.Unique := by
  cases act with
  | load db keyed =>
    cases hs
    unfold JzqList.Unique
    rw [JzqList.addresses_load]
    exact hf
  | report tick a n _Fn _pseq _add =>
    cases hs
    exact h.report tick a n _Fn _pseq _add
  | freshjzq db keyed =>
    cases hs
    unfold JzqList.Unique
    rw [JzqList.addresses_loadJzq]
    refine List.nodup_append.mpr ⟨h, hf.1, fun x hx y hy heq => hf.2 x hx ?_⟩
    rw [heq]
    exact hy

theorem fresh_of_unique (hs : step s act = some s') (h : s'.Unique) : Fresh s act := by
  cases act with
  | load db keyed =>
    cases hs
    unfold JzqList.Unique at h
    rw [JzqList.addresses_load] at h
    exact h
  | report => trivial
  | freshjzq db keyed =>
    cases hs
    unfold JzqList.Unique at h
    rw [JzqList.addresses_loadJzq] at h
    obtain ⟨-, hdb, hne⟩ := List.nodup_append.mp h
    exact ⟨hdb, fun x hx hx' => hne x hx x hx' rfl⟩

end

/-- **In every state of a run each concentrator has one record exactly when every load finds its rows new**:
of different addresses, and for `freshjzq` of none in the list. -/
theorem unique_throughout (acts : List Act) :
    Run.Throughout step JzqList.Unique start acts ↔ Run.Each step (fun s act _ => Fresh s act) start acts := by
  have hstart : start.Unique := List.nodup_nil
  have hiff : Run.Each step (fun _ _ s' => s'.Unique) start acts ↔
      Run.Each step (fun s act _ => Fresh s act) start acts :=
    Run.each_iff (I := JzqList.Unique) (P := fun s act _ => Fresh s act) (Q := fun _ _ s' => s'.Unique)
      (fun hI hs hf => ⟨unique_of_fresh hI hs hf, unique_of_fresh hI hs hf⟩) (fun _ hs h => fresh_of_unique hs h)
      hstart
  exact ⟨fun h => hiff.mp h.2, fun h => ⟨hstart, hiff.mpr h⟩⟩

def oneRow : Tables := ⟨[⟨4096, 1101, "test"⟩], []⟩

theorem keyed_oneRow : oneRow.Keyed := List.pairwise_singleton _ _

/-- The rows loaded at the start are loaded once more. -/
theorem freshjzq_duplicates :
    ¬ Run.Throughout step JzqList.Unique start [.load oneRow keyed_oneRow, .freshjzq oneRow keyed_oneRow] := by
  rintro ⟨-, h⟩
  have h₁ := ((Run.each_cons rfl).mp h).2
  have h₂ := ((Run.each_cons rfl).mp h₁).1
  exact absurd h₂ (by decide)

end Records

end Afn
