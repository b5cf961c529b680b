import Afn.ServerSound
import Afn.ToDBSound

/-!
# What becomes of a list of responses

`DoHandleAck` decodes every response, links the data units, and passes the first of them to `notify` with
the key of the last response.
-/

namespace Afn

open Access Effect AFNPackage AFNPackageBuilder ConnectionPower

/-! ## Data units -/

namespace AckData

-- the data unit made of `d`
def made (Fn : UInt16) (d : PkgAfnData) : Option AckData :=
  if Fn = 2 then some (.clock (.construct d))
  else if Fn = 11 then some (.runStatus (.construct d))
  else if Fn = 33 then some (.allKwh (.construct d))
  else none

/-- What `HandleData` returns and makes of a unit. -/
def handled (u : AckData) : Int × AckData :=
  match u.handleData.out with
  | .ok r => r
  | .error _ => (0, u)

section
variable {Fn : UInt16} {d : PkgAfnData} {u : AckData}

theorem out_handleData (h : made Fn d = some u) : u.handleData.out = .ok u.handled := by
  have hend : ∃ r, u.handleData.out = .ok r := by
    unfold made at h
    split at h
    · cases h
      obtain ⟨r, hr, -⟩ := GetClock.total_handleData d
      exact ⟨(r.1, .clock r.2), out_bind hr.out _⟩
    split at h
    · cases h
      obtain ⟨r, hr, -⟩ := GetRunStatus.total_handleData d
      exact ⟨(r.1, .runStatus r.2), out_bind hr.out _⟩
    split at h
    · cases h
      obtain ⟨r, hr⟩ := AllKwh.total_handleData d
      exact ⟨(r.1, .allKwh r.2), out_bind hr.out _⟩
    · cases h
  obtain ⟨r, hr⟩ := hend
  rw [handled, hr]

end

end AckData

/-- The unit that a response is decoded to, with what `HandleData` returns. -/
def AFNPackage.unit (p : AFNPackage) : Option (Int × AckData) :=
  if p.userHeader.FUN = 8 then (p.pAfn.pAfnData.bind (AckData.made p.Fn)).map AckData.handled else none

namespace AFNPackageBuilder

structure Reading (p : AFNPackage) : Prop where
  AFN : p.pAfn.afnHeader.AFN = 0x0C
  data : p.pAfn.pAfnData.isSome

def units (lst : List PkgPtr) : List (Int × AckData) := lst.filterMap fun p => p.pkg.unit

def link (data : Option AckChain) (us : List AckData) : Option AckChain :=
  match data, us with
  | some c, us => some { c with next := c.next ++ us }
  | none, d :: ds => some ⟨d, ds⟩
  | none, [] => none

def lastKey (call : AppCall) (lst : List PkgPtr) : AppCall :=
  match lst.getLast? with
  | some p => callOf p.pkg
  | none => call

section
variable {p : AFNPackage}

theorem out_decode (h : Reading p) :
    (decode handlerMap p none).out = .ok (p.pAfn.pAfnData.bind (AckData.made p.Fn)) := by
  obtain ⟨d, hd⟩ := Option.isSome_iff_exists.mp h.data
  have hcode : p.getCode = 12 := by unfold getCode; rw [h.AFN]; rfl
  have hack : (AFN0C.handleAck p).out = .ok (AckData.made p.Fn d) := by
    unfold AFN0C.handleAck AckData.made
    rw [hd]
    split
    · rfl
    split
    · rfl
    split
    · rfl
    · rfl
  simp only [handlerMap_eq, decode, hcode, if_true]
  rw [out_bind hack, hd]
  rfl

theorem link_cons (data : Option AckChain) (d : AckData) (us : List AckData) :
    link (link data [d]) us = link data (d :: us) := by
  cases data with
  | none => rfl
  | some c => simp [link]

theorem link_nil (data : Option AckChain) : link data [] = data := by
  cases data with
  | none => rfl
  | some c => simp [link]

theorem lastKey_cons (call : AppCall) (p : PkgPtr) (lst : List PkgPtr) :
    lastKey call (p :: lst) = lastKey (callOf p.pkg) lst := by
  unfold lastKey
  rw [List.getLast?_cons]
  cases lst.getLast? with
  | none => rfl
  | some q => rfl

theorem units_cons (p : PkgPtr) (lst : List PkgPtr) : units (p :: lst) = p.pkg.unit.toList ++ units lst := by
  unfold units
  rw [List.filterMap_cons]
  cases p.pkg.unit with
  | none => rfl
  | some r => rfl

/-- The loop links the units of the responses, and keeps the key of the last one. -/
theorem out_collect : ∀ (lst : List PkgPtr) (call : AppCall) (data : Option AckChain), (∀ p ∈ lst, Reading p.pkg) →
    (collect handlerMap lst call data).out = .ok (lastKey call lst, link data ((units lst).map (·.2))) := by
  intro lst
  induction lst with
  | nil =>
    intro call data _
    exact congrArg (fun x => Except.ok (call, x)) (link_nil data).symm
  | cons p lst ih =>
    intro call data h
    have hrest := fun data => ih (callOf p.pkg) data fun q hq => h q (List.mem_cons_of_mem _ hq)
    have hdec := out_decode (h p (List.mem_cons_self ..))
    rw [units_cons, lastKey_cons]
    unfold collect AFNPackage.unit
    by_cases hFUN : p.pkg.userHeader.FUN = 8
    · simp only [hFUN, if_true]
      rw [out_bind hdec]
      cases hmade : p.pkg.pAfn.pAfnData.bind (AckData.made p.pkg.Fn) with
      | none => exact hrest data
      | some u =>
        obtain ⟨d, hd, hu⟩ := Option.bind_eq_some_iff.mp hmade
        simp only
        rw [out_bind (AckData.out_handleData hu)]
        have hlink := (hrest (link data [u.handled.2])).trans (by rw [link_cons])
        cases data with
        | none => exact hlink
        | some c => exact hlink
    · simp only [hFUN, if_false]
      exact hrest data

theorem ends_handleAcks {lst : List PkgPtr} (hne : lst ≠ []) (h : ∀ p ∈ lst, Reading p.pkg) (w : World) :
    Ends (AFNPackageBuilder.doHandleAck handlerMap lst) w YQER_OK
      (heard w (lastKey ⟨0, 0, 0, 0, 0⟩ lst) (link none ((units lst).map (·.2)))) := by
  have hlen : lst.length ≠ 0 := fun hlen => hne (List.eq_nil_of_length_eq_zero hlen)
  unfold AFNPackageBuilder.doHandleAck
  simp only [hlen, if_false]
  exact (ends_liftAcc (out_collect lst _ none h) w).bind ((ends_notify _ _ w).bind (ends_pure _ _))

theorem lastKey_eq {lst : List PkgPtr} (hne : lst ≠ []) (call : AppCall) :
    lastKey call lst = callOf (lst.getLast hne).pkg := by
  unfold lastKey
  rw [List.getLast?_eq_some_getLast hne]

theorem saved_link {lst : List PkgPtr} (hne : lst ≠ []) (h : ∀ p ∈ lst, Reading p.pkg) :
    saved (lastKey ⟨0, 0, 0, 0, 0⟩ lst) (link none ((units lst).map (·.2))) =
      ((units lst).take 1).map fun r => (callOf (lst.getLast hne).pkg, r.2) := by
  have hAFN : (callOf (lst.getLast hne).pkg).AFN = 0x0C := (h _ (List.getLast_mem hne)).AFN
  rw [lastKey_eq hne]
  cases units lst with
  | nil => rfl
  | cons r rs =>
    simp only [List.map_cons, link, saved, hAFN, if_true]
    rfl

end

end AFNPackageBuilder

/-! ## Each unit under its own key -/

namespace AFNPackageBuilder

def keyed (lst : List PkgPtr) : List (AppCall × AckData) :=
  lst.filterMap fun p => p.pkg.unit.map fun r => (callOf p.pkg, r.2)

/-- `toDB` is called once for the unit of each response, with the key of that response, and not otherwise. -/
def EachStored (w : World) (lst : List PkgPtr) : Prop :=
  ∃ ret w' new, Ends (AFNPackageBuilder.doHandleAck handlerMap lst) w ret w' ∧ w'.stored = w.stored ++ new ∧
    new.Perm (keyed lst)

def HasUnit (p : AFNPackage) : Prop := p.Fn = 2 ∨ p.Fn = 11 ∨ p.Fn = 33

section
variable {lst : List PkgPtr} {w : World}

theorem isSome_made {Fn : UInt16} {d : PkgAfnData} :
    (AckData.made Fn d).isSome ↔ Fn = 2 ∨ Fn = 11 ∨ Fn = 33 := by
  unfold AckData.made
  split
  next h => exact iff_of_true rfl (.inl h)
  split
  next h => exact iff_of_true rfl (.inr (.inl h))
  split
  next h => exact iff_of_true rfl (.inr (.inr h))
  next h2 h11 h33 => exact iff_of_false Bool.false_ne_true (by simp only [h2, h11, h33, or_self, not_false_eq_true])

theorem isSome_unit {p : AFNPackage} (hFUN : p.userHeader.FUN = 8) (h : Reading p) : p.unit.isSome ↔ HasUnit p := by
  obtain ⟨d, hd⟩ := Option.isSome_iff_exists.mp h.data
  unfold AFNPackage.unit
  rw [if_pos hFUN, hd, Option.bind_some, Option.isSome_map, isSome_made]
  rfl

theorem eachStored_eq (hne : lst ≠ []) (h : ∀ p ∈ lst, Reading p.pkg) :
    EachStored w lst ↔ (((units lst).take 1).map fun r => (callOf (lst.getLast hne).pkg, r.2)).Perm (keyed lst) := by
  have hend := ends_handleAcks hne h w
  have hstored : (heard w (lastKey ⟨0, 0, 0, 0, 0⟩ lst) (link none ((units lst).map (·.2)))).stored =
      w.stored ++ ((units lst).take 1).map fun r => (callOf (lst.getLast hne).pkg, r.2) := by
    rw [← saved_link hne h]
    rfl
  constructor
  · rintro ⟨ret, w', new, hrun, hnew, hperm⟩
    obtain ⟨-, rfl⟩ := hend.inj hrun
    rw [hstored] at hnew
    rw [List.append_cancel_left hnew]
    exact hperm
  · exact fun hperm => ⟨_, _, _, hend, hstored, hperm⟩

theorem length_keyed : (keyed lst).length = (units lst).length := by
  unfold keyed units
  induction lst with
  | nil => rfl
  | cons p lst ih =>
    rw [List.filterMap_cons, List.filterMap_cons]
    cases p.pkg.unit with
    | none => exact ih
    | some r => exact congrArg (· + 1) ih

theorem length_units_le (hne : lst ≠ []) (h : ∀ p ∈ lst, Reading p.pkg) (hs : EachStored w lst) :
    (units lst).length ≤ 1 := by
  have hlen := ((eachStored_eq hne h).mp hs).length_eq
  rw [List.length_map, List.length_take, length_keyed] at hlen
  omega

end

/-- **Each unit is stored under its own key exactly when no response before the last has one.** -/
theorem eachStored_iff (w : World) (lst : List PkgPtr) (hne : lst ≠ [])
    (h : ∀ p ∈ lst, p.pkg.userHeader.FUN = 8 ∧ Reading p.pkg) :
    EachStored w lst ↔ ∀ p ∈ lst.dropLast, ¬ HasUnit p.pkg := by
  have hreading : ∀ p ∈ lst, Reading p.pkg := fun p hp => (h p hp).2
  have hunit : ∀ p ∈ lst, (p.pkg.unit.isSome ↔ HasUnit p.pkg) := fun p hp => isSome_unit (h p hp).1 (h p hp).2
  obtain ⟨init, q, rfl⟩ : ∃ init q, lst = init ++ [q] := ⟨_, _, (List.dropLast_append_getLast hne).symm⟩
  have hshort := length_units_le (w := w) hne hreading
  rw [eachStored_eq hne hreading] at hshort ⊢
  rw [List.dropLast_concat]
  rw [List.getLast_concat] at hshort ⊢
  constructor
  · intro hperm p hp hu
    obtain ⟨r, hr⟩ := Option.isSome_iff_exists.mp ((hunit p (List.mem_append_left _ hp)).mpr hu)
    have hmem : (callOf p.pkg, r.2) ∈ keyed (init ++ [q]) :=
      List.mem_filterMap.mpr ⟨p, List.mem_append_left _ hp, by rw [hr]; rfl⟩
    obtain ⟨r', hr', hkey⟩ := List.mem_map.mp (hperm.mem_iff.mpr hmem)
    -- the last response has the same `Fn`, and so a unit of its own
    have hFn : q.pkg.Fn = p.pkg.Fn := congrArg (·.1.m_fn) hkey
    have hq : HasUnit q.pkg := by unfold HasUnit; rw [hFn]; exact hu
    have hmemq : q ∈ init ++ [q] := List.mem_append_right _ (List.mem_singleton_self q)
    obtain ⟨s, hs⟩ := Option.isSome_iff_exists.mp ((hunit q hmemq).mpr hq)
    have hinit : 0 < (units init).length := List.length_pos_of_mem (List.mem_filterMap.mpr ⟨p, hp, hr⟩)
    have hlast : units [q] = [s] := by rw [units_cons, hs]; rfl
    have hlen := hshort hperm
    rw [units, List.filterMap_append, ← units, ← units, hlast, List.length_append, List.length_singleton] at hlen
    omega
  · intro hnone
    have hnil : ∀ p ∈ init, p.pkg.unit = none := fun p hp => Option.not_isSome_iff_eq_none.mp fun hsome =>
      hnone p hp ((hunit p (List.mem_append_left _ hp)).mp hsome)
    have hunits : units init = [] := List.filterMap_eq_nil_iff.mpr hnil
    have hkeyed : keyed init = [] := List.filterMap_eq_nil_iff.mpr fun p hp => by rw [hnil p hp]; rfl
    have happend : units (init ++ [q]) = q.pkg.unit.toList := by
      rw [units, List.filterMap_append, ← units, ← units, hunits, List.nil_append, units_cons]
      exact List.append_nil _
    have hkeys : keyed (init ++ [q]) = q.pkg.unit.toList.map fun r => (callOf q.pkg, r.2) := by
      rw [keyed, List.filterMap_append, ← keyed, ← keyed, hkeyed, List.nil_append, keyed]
      cases hq : q.pkg.unit with
      | none => simp [hq]
      | some r => simp [hq]
    rw [happend, hkeys]
    cases q.pkg.unit with
    | none => exact List.Perm.refl _
    | some r => exact List.Perm.refl _

def readingFrame (SEQ DA1 DT1 DT2 : UInt8) (data : Bytes) : Bytes :=
  let body := [0x88, 0x00, 0x10, 0x4d, 0x04, 0x00, 0x0c, SEQ, DA1, 0x01, DT1, DT2] ++ data
  let L := UInt8.ofNat (4 * body.length + 2)
  [0x68, L, 0x00, L, 0x00, 0x68] ++ body ++ [Bytes.byteSum body, 0x16]

def kwhFrame (SEQ DA1 : UInt8) (data : Bytes) : Bytes := readingFrame SEQ DA1 0x01 0x04 data

def kwhData : Bytes := (AllKwh.oneTariff [0x00, 0x78, 0x56, 0x34, 0x00]).m_pData

def firstKwh : RecPkg := ⟨frameOf (kwhFrame 0x45 0x01 kwhData), zeros, kwhFrame 0x45 0x01 kwhData, 60, by decide, rfl⟩

def lastKwh : RecPkg := ⟨frameOf (kwhFrame 0x26 0x02 kwhData), zeros, kwhFrame 0x26 0x02 kwhData, 60, by decide, rfl⟩

theorem reading_firstKwh : Reading firstKwh.pkg := ⟨by decide, rfl⟩

theorem reading_lastKwh : Reading lastKwh.pkg := ⟨by decide, rfl⟩

-- a frame with `Fn` 1, for which no unit is made
def otherFrame (SEQ : UInt8) : Bytes := readingFrame SEQ 0x01 0x01 0x00 [0x2a]

def firstOther : RecPkg := ⟨frameOf (otherFrame 0x45), zeros, otherFrame 0x45, 21, by decide, rfl⟩

def middleOther : RecPkg := ⟨frameOf (otherFrame 0x05), zeros, otherFrame 0x05, 21, by decide, rfl⟩

theorem not_hasUnit_firstOther : ¬ HasUnit firstOther.pkg := by unfold HasUnit; decide

theorem not_hasUnit_middleOther : ¬ HasUnit middleOther.pkg := by unfold HasUnit; decide

theorem eachStored_lastMeter : EachStored start [⟨0, firstOther.pkg⟩, ⟨1, middleOther.pkg⟩, ⟨2, lastKwh.pkg⟩] := by
  have hlst : ∀ p ∈ [(⟨0, firstOther.pkg⟩ : PkgPtr), ⟨1, middleOther.pkg⟩, ⟨2, lastKwh.pkg⟩],
      p.pkg.userHeader.FUN = 8 ∧ Reading p.pkg := by
    refine List.forall_mem_cons.mpr ⟨⟨by decide, by decide, rfl⟩, ?_⟩
    refine List.forall_mem_cons.mpr ⟨⟨by decide, by decide, rfl⟩, ?_⟩
    exact List.forall_mem_singleton.mpr ⟨by decide, reading_lastKwh⟩
  apply (eachStored_iff start _ (List.cons_ne_nil _ _) hlst).mpr
  exact List.forall_mem_cons.mpr ⟨not_hasUnit_firstOther, List.forall_mem_singleton.mpr not_hasUnit_middleOther⟩

theorem eachStored_twoMeters :
    (callOf firstKwh.pkg).m_pn = 1 ∧ (callOf lastKwh.pkg).m_pn = 2 ∧ firstKwh.pkg.Fn = 33 ∧ lastKwh.pkg.Fn = 33 ∧
    ¬ EachStored start [⟨0, firstKwh.pkg⟩, ⟨1, lastKwh.pkg⟩] := by
  refine ⟨by decide, by decide, by decide, by decide, fun hs => ?_⟩
  have hlst : ∀ p ∈ [(⟨0, firstKwh.pkg⟩ : PkgPtr), ⟨1, lastKwh.pkg⟩], Reading p.pkg :=
    List.forall_mem_cons.mpr ⟨reading_firstKwh, List.forall_mem_singleton.mpr reading_lastKwh⟩
  exact absurd (length_units_le (List.cons_ne_nil _ _) hlst hs) (by decide)

/-! ## Malformed payloads -/

def payload (p : AFNPackage) : Bytes :=
  match p.pAfn.pAfnData with
  | some d => d.m_pData
  | none => []

structure KwhReading (p : AFNPackage) : Prop extends Reading p where
  Fn : p.Fn = 33

/-- A unit is made of the response, and its payload is malformed. -/
def Malformed (p : AFNPackage) : Prop := p.userHeader.FUN = 8 ∧ ¬ AllKwh.WellFormed (payload p)

/-- Every call of `toDB` reads only what has been set, and a unit that `HandleData` refuses is neither stored
nor passed on to a waiter. -/
def NoEffect (w : World) (lst : List PkgPtr) : Prop :=
  ∃ ret w' stored notified, Ends (AFNPackageBuilder.doHandleAck handlerMap lst) w ret w' ∧
    w'.stored = w.stored ++ stored ∧ w'.notified = w.notified ++ notified ∧
    (∀ e ∈ stored, (e.2.toDB w.jzqList e.1.m_areacode e.1.m_number e.1.m_fn e.1.m_pn).isSome) ∧
    ∀ r ∈ units lst, r.1 ≠ YQER_OK → (∀ e ∈ stored, e.2 ≠ r.2) ∧
      ∀ n ∈ notified, ∀ c, w'.cmdMap n.1 = some (some c) → r.2 ∉ c.head :: c.next

def Accepted (r : Int × AckData) : Prop :=
  r.1 = YQER_OK ∧ ∃ d, r.2 = .allKwh (AllKwh.decoded d) ∧ AllKwh.WellFormed d.m_pData

def Refused (r : Int × AckData) : Prop :=
  r.1 ≠ YQER_OK ∧ ∃ self, r.2 = .allKwh self ∧ ¬ AllKwh.WellFormed self.base.m_pData

theorem Accepted.ne_refused {r s : Int × AckData} (hr : Accepted r) (hs : Refused s) : r.2 ≠ s.2 := by
  obtain ⟨-, d, hd, hw⟩ := hr
  obtain ⟨-, self, hself, hnw⟩ := hs
  intro heq
  rw [hd, hself] at heq
  cases heq
  exact hnw hw

theorem Accepted.isSome_toDB {r : Int × AckData} (hr : Accepted r) (l : JzqList) (A1 A2 Fn pn : UInt16) :
    (r.2.toDB l A1 A2 Fn pn).isSome := by
  obtain ⟨-, d, hd, -⟩ := hr
  rw [hd]
  obtain ⟨-, hdb⟩ | ⟨-, s, hdb, -⟩ := AllKwh.toDB_decoded (d := d) l A1 A2 Fn pn
  · exact Option.isSome_iff_exists.mpr ⟨_, hdb⟩
  · exact Option.isSome_iff_exists.mpr ⟨_, hdb⟩

theorem unit_kwh {p : AFNPackage} (h : KwhReading p) (hFUN : p.userHeader.FUN = 8) : ∃ r, p.unit = some r ∧
    (AllKwh.WellFormed (payload p) ∧ Accepted r ∨ ¬ AllKwh.WellFormed (payload p) ∧ Refused r) := by
  obtain ⟨d, hd⟩ := Option.isSome_iff_exists.mp h.data
  have hmade : AckData.made p.Fn d = some (.allKwh (.construct d)) := by
    rw [h.Fn]
    rfl
  have hpayload : payload p = d.m_pData := by rw [payload, hd]
  have hunit : p.unit = some (AckData.allKwh (.construct d)).handled := by
    unfold AFNPackage.unit
    rw [if_pos hFUN, hd, Option.bind_some, hmade]
    rfl
  rw [hunit, hpayload]
  by_cases hw : AllKwh.WellFormed d.m_pData
  · have hout : (AckData.allKwh (.construct d)).handleData.out = .ok (YQER_OK, .allKwh (AllKwh.decoded d)) :=
      out_bind (AllKwh.handleData_accepts hw).out _
    refine ⟨_, rfl, .inl ⟨hw, ?_⟩⟩
    rw [AckData.handled, hout]
    exact ⟨rfl, d, rfl, hw⟩
  · obtain ⟨⟨ret, self⟩, hself, hret, hbase⟩ := AllKwh.handleData_rejects hw
    have hout : (AckData.allKwh (.construct d)).handleData.out = .ok (ret, .allKwh self) := out_bind hself.out _
    refine ⟨_, rfl, .inr ⟨hw, ?_⟩⟩
    rw [AckData.handled, hout]
    exact ⟨hret, self, rfl, hbase ▸ hw⟩

section
variable {lst : List PkgPtr} {w : World}

theorem mem_units {r : Int × AckData} (hr : r ∈ units lst) :
    ∃ p ∈ lst, p.pkg.userHeader.FUN = 8 ∧ p.pkg.unit = some r := by
  obtain ⟨p, hp, hunit⟩ := List.mem_filterMap.mp hr
  refine ⟨p, hp, Decidable.byContradiction fun hFUN => ?_, hunit⟩
  rw [AFNPackage.unit, if_neg hFUN] at hunit
  cases hunit

theorem accepted_or_refused (h : ∀ p ∈ lst, KwhReading p.pkg) {r : Int × AckData} (hr : r ∈ units lst) :
    Accepted r ∨ Refused r := by
  obtain ⟨p, hp, hFUN, hunit⟩ := mem_units hr
  obtain ⟨r', hunit', hr'⟩ := unit_kwh (h p hp) hFUN
  rw [hunit] at hunit'
  cases hunit'
  exact hr'.imp And.right And.right

theorem noEffect_eq (hne : lst ≠ []) (h : ∀ p ∈ lst, KwhReading p.pkg) :
    NoEffect w lst ↔ ∀ r ∈ units lst, r.1 ≠ YQER_OK →
      (∀ s ∈ (units lst).head?, s.1 = YQER_OK) ∧ w.cmdMap (callOf (lst.getLast hne).pkg) = none := by
  have hreading : ∀ p ∈ lst, Reading p.pkg := fun p hp => (h p hp).toReading
  have hall := fun r => accepted_or_refused h (r := r)
  have hend := ends_handleAcks hne hreading w
  have hsaved := saved_link hne hreading
  rw [lastKey_eq hne] at hend hsaved
  obtain ⟨key, hkey⟩ : ∃ key, key = callOf (lst.getLast hne).pkg := ⟨_, rfl⟩
  rw [← hkey] at hend hsaved ⊢
  unfold NoEffect
  cases hunits : units lst with
  | nil =>
    rw [hunits] at hend hsaved
    refine iff_of_true ⟨_, _, _, _, hend, rfl, rfl, ?_, ?_⟩ ?_
    · intro e he
      rw [hsaved] at he
      cases he
    · exact fun r hr => nomatch hr
    · exact fun r hr => nomatch hr
  | cons s rest =>
    have hdata : link none ((s :: rest).map (·.2)) = some ⟨s.2, rest.map (·.2)⟩ := rfl
    rw [hunits, hdata] at hend hsaved
    rw [hunits] at hall
    have hsaved : saved key (some ⟨s.2, rest.map (·.2)⟩) = [(key, s.2)] := hsaved
    constructor
    · rintro ⟨ret, w', stored, notified, hrun, hstored, hnotified, -, hno⟩ r hr hret
      obtain ⟨-, rfl⟩ := hend.inj hrun
      have hfirst : (key, s.2) ∈ stored := by
        rw [← List.append_cancel_left hstored, hsaved]
        exact List.mem_singleton_self _
      have hchain : (key, some ⟨s.2, rest.map (·.2)⟩) ∈ notified := by
        rw [← List.append_cancel_left hnotified]
        exact List.mem_singleton_self _
      constructor
      · intro s' hs'
        cases hs'
        refine Decidable.byContradiction fun hs => ?_
        exact (hno s (List.mem_cons_self ..) hs).1 _ hfirst rfl
      · cases hwait : w.cmdMap key with
        | none => rfl
        | some slot =>
          have hmem : r.2 ∈ s.2 :: rest.map (·.2) := List.mem_map_of_mem (f := (·.2)) hr
          refine absurd hmem ((hno r hr hret).2 _ hchain ⟨s.2, rest.map (·.2)⟩ ?_)
          simp only [heard, hwait, Option.isSome_some, if_true]
          exact CmdMap.set_self ..
    · intro hok
      have hs : Accepted s := by
        refine (hall s (List.mem_cons_self ..)).resolve_right fun hrefused => hrefused.1 ?_
        exact (hok s (List.mem_cons_self ..) hrefused.1).1 s rfl
      refine ⟨_, _, _, _, hend, rfl, rfl, ?_, ?_⟩
      · intro e he
        rw [hsaved, List.mem_singleton] at he
        rw [he]
        exact hs.isSome_toDB ..
      · intro r hr hret
        have hrefused : Refused r := (hall r hr).resolve_left fun hacc => hret hacc.1
        have hnone := (hok r hr hret).2
        constructor
        · intro e he
          rw [hsaved, List.mem_singleton] at he
          rw [he]
          exact hs.ne_refused hrefused
        · intro n hn c hc
          rw [List.mem_singleton.mp hn] at hc
          simp only [heard, hnone, Option.isSome_none, Bool.false_eq_true, if_false] at hc
          cases hc

theorem noEffect_nil : NoEffect w [] := by
  refine ⟨-1, w, [], [], ends_pure _ _, (List.append_nil _).symm, (List.append_nil _).symm, ?_, ?_⟩
  · exact fun _ he => nomatch he
  · exact fun _ hr => nomatch hr

theorem ok_iff {p : AFNPackage} (h : KwhReading p) {r : Int × AckData} (hr : p.unit = some r) :
    r.1 = YQER_OK ↔ ¬ Malformed p := by
  have hFUN : p.userHeader.FUN = 8 := by
    refine Decidable.byContradiction fun hFUN => ?_
    rw [AFNPackage.unit, if_neg hFUN] at hr
    cases hr
  obtain ⟨r', hr', ⟨hw, hacc⟩ | ⟨hw, hrefused⟩⟩ := unit_kwh h hFUN
  all_goals
    rw [hr] at hr'
    cases hr'
  · exact iff_of_true hacc.1 fun hm => hm.2 hw
  · exact iff_of_false hrefused.1 fun hm => hm ⟨hFUN, hw⟩

theorem units_ok_iff (h : ∀ p ∈ lst, KwhReading p.pkg) :
    (∀ r ∈ units lst, r.1 = YQER_OK) ↔ ∀ p ∈ lst, ¬ Malformed p.pkg := by
  constructor
  · intro hall p hp hm
    obtain ⟨r, hr, -⟩ := unit_kwh (h p hp) hm.1
    exact (ok_iff (h p hp) hr).mp (hall r (List.mem_filterMap.mpr ⟨p, hp, hr⟩)) hm
  · intro hall r hr
    obtain ⟨p, hp, hunit⟩ := List.mem_filterMap.mp hr
    exact (ok_iff (h p hp) hunit).mpr (hall p hp)

-- the first response a unit is made of
def firstWithUnit (lst : List PkgPtr) : Option PkgPtr := lst.find? fun p => p.pkg.userHeader.FUN == 8

theorem head_units (h : ∀ p ∈ lst, KwhReading p.pkg) :
    (units lst).head? = (firstWithUnit lst).bind fun p => p.pkg.unit := by
  unfold firstWithUnit
  induction lst with
  | nil => rfl
  | cons p lst ih =>
    rw [units_cons, List.find?_cons]
    by_cases hFUN : p.pkg.userHeader.FUN = 8
    · obtain ⟨r, hr, -⟩ := unit_kwh (h p (List.mem_cons_self ..)) hFUN
      rw [beq_iff_eq.mpr hFUN, hr]
      exact hr.symm
    · rw [beq_eq_false_iff_ne.mpr hFUN, AFNPackage.unit, if_neg hFUN]
      exact ih fun q hq => h q (List.mem_cons_of_mem _ hq)

theorem head_ok_iff (h : ∀ p ∈ lst, KwhReading p.pkg) :
    (∀ r ∈ (units lst).head?, r.1 = YQER_OK) ↔ ∀ p ∈ firstWithUnit lst, ¬ Malformed p.pkg := by
  rw [head_units h]
  cases hfirst : firstWithUnit lst with
  | none => exact iff_of_true (fun _ hr => nomatch hr) fun _ hp => nomatch hp
  | some p =>
    have hp : p ∈ lst := List.mem_of_find?_eq_some hfirst
    have hFUN := List.find?_some hfirst
    obtain ⟨r, hr, -⟩ := unit_kwh (h p hp) (beq_iff_eq.mp hFUN)
    have hok := ok_iff (h p hp) hr
    rw [Option.bind_some, hr]
    constructor
    · intro hall q hq
      cases hq
      exact hok.mp (hall r rfl)
    · intro hall s hs
      cases hs
      exact hok.mpr (hall p rfl)

end

/-- **A malformed payload has no effect exactly when there is none, or it is not that of the first unit and no
call waits for the last response.** -/
theorem noEffect_iff (w : World) (lst : List PkgPtr) (h : ∀ p ∈ lst, KwhReading p.pkg) :
    NoEffect w lst ↔ (∀ p ∈ lst, ¬ Malformed p.pkg) ∨
      ((∀ p ∈ firstWithUnit lst, ¬ Malformed p.pkg) ∧ ∀ p ∈ lst.getLast?, w.cmdMap (callOf p.pkg) = none) := by
  by_cases hne : lst = []
  · subst hne
    exact iff_of_true noEffect_nil (.inl fun _ hp => nomatch hp)
  rw [noEffect_eq hne h, ← units_ok_iff h, ← head_ok_iff h, List.getLast?_eq_some_getLast hne]
  constructor
  · intro hall
    by_cases hok : ∀ r ∈ units lst, r.1 = YQER_OK
    · exact .inl hok
    · obtain ⟨r, hr⟩ := not_forall.mp hok
      obtain ⟨hmem, hret⟩ := Classical.not_imp.mp hr
      obtain ⟨hfirst, hwait⟩ := hall r hmem hret
      refine .inr ⟨hfirst, fun p hp => ?_⟩
      cases hp
      exact hwait
  · rintro (hok | ⟨hfirst, hwait⟩) r hr hret
    · exact absurd (hok r hr) hret
    · exact ⟨hfirst, hwait _ rfl⟩

-- thirteen tariffs
def malformedData : Bytes := [0x00, 0x12, 0x01, 0x01, 0x16, 0x0d]

def malformedKwh : RecPkg :=
  ⟨frameOf (kwhFrame 0x65 0x01 malformedData), zeros, kwhFrame 0x65 0x01 malformedData, 26, by decide, rfl⟩

theorem kwhReading_malformedKwh : KwhReading malformedKwh.pkg := ⟨⟨by decide, rfl⟩, by decide⟩

theorem malformed_malformedKwh : Malformed malformedKwh.pkg := by
  refine ⟨by decide, ?_⟩
  unfold AllKwh.WellFormed
  decide

theorem kwhReading_firstKwh : KwhReading firstKwh.pkg := ⟨reading_firstKwh, by decide⟩

-- behind a response that can be decoded, and without a waiter, it has no effect
theorem noEffect_second : NoEffect start [⟨0, firstKwh.pkg⟩, ⟨1, malformedKwh.pkg⟩] := by
  have hlst : ∀ p ∈ [(⟨0, firstKwh.pkg⟩ : PkgPtr), ⟨1, malformedKwh.pkg⟩], KwhReading p.pkg :=
    List.forall_mem_cons.mpr ⟨kwhReading_firstKwh, List.forall_mem_singleton.mpr kwhReading_malformedKwh⟩
  refine (noEffect_iff start _ hlst).mpr (.inr ⟨fun p hp => ?_, fun p hp => rfl⟩)
  cases hp
  refine fun hm => hm.2 ?_
  unfold AllKwh.WellFormed
  decide

def metered : World :=
  { start with jzqList := ⟨[{ Jzq.construct "jzq" 0x1000 0x044d 1 with eleLst := [⟨7, 1⟩] }], 1⟩ }

/-- Alone it is stored, and `toDB` reads what has not been set. -/
theorem thirteenTariffs_stored :
    Malformed malformedKwh.pkg ∧ ¬ NoEffect metered [⟨0, malformedKwh.pkg⟩] ∧
    ∃ w' call u, Ends (AFNPackageBuilder.doHandleAck handlerMap [⟨0, malformedKwh.pkg⟩]) metered YQER_OK w' ∧
      w'.stored = [(call, u)] ∧
      u.toDB metered.jzqList call.m_areacode call.m_number call.m_fn call.m_pn = none := by
  have hone : ∀ p ∈ [(⟨0, malformedKwh.pkg⟩ : PkgPtr)], KwhReading p.pkg :=
    List.forall_mem_singleton.mpr kwhReading_malformedKwh
  obtain ⟨r, hr, ⟨hw, -⟩ | ⟨-, hrefused⟩⟩ := unit_kwh kwhReading_malformedKwh (by decide)
  · exact absurd hw malformed_malformedKwh.2
  have hunits : units [⟨0, malformedKwh.pkg⟩] = [r] := by
    rw [units_cons, hr]
    rfl
  refine ⟨malformed_malformedKwh, fun hno => ?_, ?_⟩
  · have hall := (noEffect_eq (List.cons_ne_nil _ _) hone).mp hno
    rw [hunits] at hall
    exact hrefused.1 ((hall r (List.mem_singleton_self r) hrefused.1).1 r rfl)
  · refine ⟨_, _, _, ends_handleAcks (List.cons_ne_nil _ _) (fun p hp => (hone p hp).toReading) metered, rfl, ?_⟩
    decide +kernel

end AFNPackageBuilder

end Afn
