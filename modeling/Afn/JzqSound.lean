import Afn.Jzq
import Afn.Run

/-!
# Who is online

A login sets the online bit but leaves the heartbeat timer as it was, so the next check of the
connections may find it expired and log the concentrator out. A run keeps the concentrators that are
alive online exactly when that timer is current at each check.
-/

namespace Afn

/-! ## The online bit -/

namespace Jzq

theorem or_bit (t : UInt8) : (t ||| ((0x1 : UInt8) <<< 1)) &&& 0x2 = 0x2 := by
  have h : ∀ x : BitVec 8, (x ||| 2#8) &&& 2#8 = 2#8 := by decide
  exact UInt8.toBitVec_inj.mp (h t.toBitVec)

theorem and_bit (t : UInt8) : (t &&& ~~~((0x1 : UInt8) <<< 1)) &&& 0x2 = 0 := by
  have h : ∀ x : BitVec 8, (x &&& ~~~2#8) &&& 2#8 = 0#8 := by decide
  exact UInt8.toBitVec_inj.mp (h t.toBitVec)

section
variable (p : Jzq) (tick : UInt32) (_pseq : UInt8)

theorem online_login : (p.loginState tick 1 _pseq).online = true := by
  have h : (p.loginState tick 1 _pseq).m_tag = p.m_tag ||| ((0x1 : UInt8) <<< 1) := rfl
  simp only [online, h, or_bit]
  decide

theorem offline_logout : (p.loginState tick 2 _pseq).online = false := by
  have h : (p.loginState tick 2 _pseq).m_tag = p.m_tag &&& ~~~((0x1 : UInt8) <<< 1) := rfl
  simp only [online, h, and_bit]
  decide

theorem online_heartbeat :
    (p.loginState tick 3 _pseq).online = true ∧ (p.loginState tick 3 _pseq).m_heartTimer = tick := by
  have h : (p.loginState tick 3 _pseq).m_tag = p.m_tag ||| ((0x1 : UInt8) <<< 1) := rfl
  refine ⟨?_, rfl⟩
  simp only [online, h, or_bit]
  decide

theorem loginState_eq (_Fn : UInt16) : ∃ m_tag m_heartTimer, p.loginState tick _Fn _pseq =
    { p with m_tag := m_tag, m_RSEQ := if _Fn = 1 then _pseq else p.m_RSEQ, m_heartTimer := m_heartTimer } := by
  unfold loginState
  by_cases h1 : _Fn = 1
  · rw [if_pos h1, if_pos h1]
    exact ⟨_, _, rfl⟩
  rw [if_neg h1, if_neg h1]
  by_cases h2 : _Fn = 2
  · rw [if_pos h2]
    exact ⟨_, _, rfl⟩
  rw [if_neg h2]
  by_cases h3 : _Fn = 3
  · rw [if_pos h3]
    exact ⟨_, _, rfl⟩
  · rw [if_neg h3]
    exact ⟨_, _, rfl⟩

theorem at_loginState (_Fn : UInt16) (a n : UInt16) :
    JzqList.at? a n (p.loginState tick _Fn _pseq) = JzqList.at? a n p := by
  obtain ⟨m_tag, m_heartTimer, h⟩ := loginState_eq p tick _pseq _Fn
  rw [h]
  rfl

theorem at_checkTimeout (a n : UInt16) : JzqList.at? a n (p.checkTimeout tick).1 = JzqList.at? a n p := by
  simp only [checkTimeout]
  split
  · exact at_loginState _ tick 0 2 a n
  · rfl

end

end Jzq

/-! ## Concentrators by address -/

namespace JzqList

section
variable (l : JzqList) (a n : UInt16) {f : Jzq → Jzq} (hf : ∀ a n p, at? a n (f p) = at? a n p)
include hf

theorem getJzq_modify_self : (l.modify a n f).getJzq a n = (l.getJzq a n).map f := by
  simp only [modify, getJzq]
  induction l.m_jzqList with
  | nil => rfl
  | cons p ps ih =>
    cases hp : at? a n p with
    | true =>
      have hp' : at? a n (f p) = true := by rw [hf, hp]
      simp only [modifyFirst, hp, if_true, List.find?_cons, hp', Option.map_some]
    | false =>
      simp only [modifyFirst, hp, Bool.false_eq_true, if_false, List.find?_cons]
      exact ih

theorem getJzq_modify_ne {a' n' : UInt16} (h : (a', n') ≠ (a, n)) :
    (l.modify a n f).getJzq a' n' = l.getJzq a' n' := by
  simp only [modify, getJzq]
  induction l.m_jzqList with
  | nil => rfl
  | cons p ps ih =>
    cases hp : at? a n p with
    | true =>
      have hne : at? a' n' p = false := by
        refine Bool.eq_false_iff.mpr fun h' => h ?_
        simp only [at?, Bool.and_eq_true, beq_iff_eq] at hp h'
        rw [← h'.1, ← h'.2, hp.1, hp.2]
      have hne' : at? a' n' (f p) = false := by rw [hf, hne]
      simp only [modifyFirst, hp, if_true, List.find?_cons, hne, hne']
    | false =>
      simp only [modifyFirst, hp, Bool.false_eq_true, if_false, List.find?_cons, ih]

theorem getJzq_map : JzqList.getJzq { l with m_jzqList := l.m_jzqList.map f } a n = (l.getJzq a n).map f := by
  simp only [getJzq]
  induction l.m_jzqList with
  | nil => rfl
  | cons p ps ih =>
    simp only [List.map_cons, List.find?_cons, hf]
    cases at? a n p with
    | true => rfl
    | false => exact ih

end

section
variable (l : JzqList) (tick : UInt32) (a n : UInt16)

theorem getJzq_report_self (_Fn : UInt16) (_pseq : UInt8) :
    ∃ _name, (l.reportLoginState tick a n _Fn _pseq true).getJzq a n =
      some (((l.getJzq a n).getD (Jzq.construct _name a n 0)).loginState tick _Fn _pseq) := by
  refine ⟨"none" ++ toString l.noneTag, ?_⟩
  unfold reportLoginState
  cases hg : l.getJzq a n with
  | some p =>
    simp only
    rw [getJzq_modify_self l a n fun a n p => p.at_loginState tick _pseq _Fn a n, hg, Option.map_some,
      Option.getD_some]
  | none =>
    have hat : at? a n ((Jzq.construct ("none" ++ toString l.noneTag) a n 0).loginState tick _Fn _pseq) = true := by
      rw [Jzq.at_loginState]
      simp only [at?, Jzq.construct, BEq.rfl, Bool.and_self]
    simp only [getJzq] at hg
    simp only [getJzq, if_true, List.find?_append, hg, Option.none_or, List.find?_cons, hat, Option.getD_none]

theorem getJzq_report (_Fn : UInt16) (_pseq : UInt8) :
    ∃ p : Jzq, (l.reportLoginState tick a n _Fn _pseq true).getJzq a n = some (p.loginState tick _Fn _pseq) := by
  obtain ⟨_name, h⟩ := getJzq_report_self l tick a n _Fn _pseq
  exact ⟨_, h⟩

theorem getJzq_report_ne (_Fn : UInt16) (_pseq : UInt8) {a' n' : UInt16} (h : (a', n') ≠ (a, n)) :
    (l.reportLoginState tick a n _Fn _pseq true).getJzq a' n' = l.getJzq a' n' := by
  unfold reportLoginState
  cases hg : l.getJzq a n with
  | some p => exact getJzq_modify_ne l a n (fun a n p => p.at_loginState tick _pseq _Fn a n) h
  | none =>
    have hat : at? a' n' ((Jzq.construct ("none" ++ toString l.noneTag) a n 0).loginState tick _Fn _pseq) =
        false := by
      rw [Jzq.at_loginState]
      refine Bool.eq_false_iff.mpr fun h' => h ?_
      simp only [at?, Jzq.construct, Bool.and_eq_true, beq_iff_eq] at h'
      rw [h'.1, h'.2]
    simp only [getJzq, if_true, List.find?_append, List.find?_cons, hat, List.find?_nil, Option.or_none]

theorem getJzq_check : (l.checkConnection tick).getJzq a n = (l.getJzq a n).map fun p => (p.checkTimeout tick).1 :=
  getJzq_map l a n fun a n p => p.at_checkTimeout tick a n

theorem getJzq_del : (l.delConnection tick a n).getJzq a n = (l.getJzq a n).map fun p => p.loginState tick 2 0 := by
  unfold delConnection
  cases hg : l.getJzq a n with
  | some p =>
    simp only
    rw [getJzq_modify_self l a n fun a n p => p.at_loginState tick 0 2 a n, hg]
  | none => exact hg

theorem getJzq_del_ne {a' n' : UInt16} (h : (a', n') ≠ (a, n)) :
    (l.delConnection tick a n).getJzq a' n' = l.getJzq a' n' := by
  unfold delConnection
  cases hg : l.getJzq a n with
  | some p => exact getJzq_modify_ne l a n (fun a n p => p.at_loginState tick 0 2 a n) h
  | none => rfl

end

end JzqList

/-! ## Runs -/

-- the last login or heartbeat of a concentrator; `gone` once a logout or a close has come after it
structure Sign where
  time : Nat
  login : Bool
  gone : Bool

/-- The list at the time `now`, in milliseconds, with the last signs of life by address. -/
structure Watch where
  list : JzqList
  now : Nat
  sign : UInt16 → UInt16 → Option Sign

namespace Watch

inductive Act
  | pass (ms : Nat)
  | login (_areacode _number : UInt16) (_pseq : UInt8)
  | logout (_areacode _number : UInt16) (_pseq : UInt8)
  | heartbeat (_areacode _number : UInt16) (_pseq : UInt8)
  | close (_areacode _number : UInt16)
  | checkConnection

def start (list : JzqList) (now : Nat) : Watch := ⟨list, now, fun _ _ => none⟩

def tick (s : Watch) : UInt32 := UInt32.ofNat s.now

def setSign (s : Watch) (a n : UInt16) (g : Option Sign) : UInt16 → UInt16 → Option Sign :=
  fun a' n' => if (a', n') = (a, n) then g else s.sign a' n'

def leave (s : Watch) (a n : UInt16) : UInt16 → UInt16 → Option Sign :=
  s.setSign a n ((s.sign a n).map fun g => { g with gone := true })

def step (s : Watch) : Act → Option Watch
  | .pass ms => some { s with now := s.now + ms }
  | .login a n pseq =>
    some { s with
      list := s.list.reportLoginState s.tick a n 1 pseq true
      sign := s.setSign a n (some ⟨s.now, true, false⟩) }
  | .logout a n pseq => some { s with list := s.list.reportLoginState s.tick a n 2 pseq true, sign := s.leave a n }
  | .heartbeat a n pseq =>
    some { s with
      list := s.list.reportLoginState s.tick a n 3 pseq true
      sign := s.setSign a n (some ⟨s.now, false, false⟩) }
  | .close a n => some { s with list := s.list.delConnection s.tick a n, sign := s.leave a n }
  | .checkConnection => some { s with list := s.list.checkConnection s.tick }

def onlineAt (s : Watch) (a n : UInt16) : Prop := ∃ p, s.list.getJzq a n = some p ∧ p.online = true

/-- After a check, every concentrator with a sign of life at most 180 s ago is online, unless it is gone
since; and none with such a sign has been logged out by the check. -/
def Kept (s : Watch) (act : Act) (s' : Watch) : Prop :=
  act = .checkConnection → ∀ a n g, s.sign a n = some g → s.now - g.time ≤ 180000 →
    (g.gone = false → s'.onlineAt a n) ∧ (s.onlineAt a n → s'.onlineAt a n)

/-- At a check, the timer of every concentrator whose last sign of life is a login at most 180 s ago has
not run for more than 180 s. -/
def Current (s : Watch) (act : Act) : Prop :=
  act = .checkConnection → ∀ a n g p, s.sign a n = some g → s.now - g.time ≤ 180000 → g.login = true →
    g.gone = false → s.list.getJzq a n = some p → timeElapse s.tick p.m_heartTimer ≤ 180000

structure Alive (s : Watch) (a n : UInt16) (g : Sign) : Prop where
  past : g.time ≤ s.now
  listed : ∃ p, s.list.getJzq a n = some p ∧ (g.gone = true → p.online = false) ∧
    (s.now - g.time ≤ 180000 → g.gone = false →
      p.online = true ∧ (g.login = false → p.m_heartTimer = UInt32.ofNat g.time))

def Tracked (s : Watch) : Prop := ∀ a n g, s.sign a n = some g → s.Alive a n g

theorem setSign_self (s : Watch) (a n : UInt16) (g : Option Sign) : s.setSign a n g a n = g := if_pos rfl

theorem setSign_ne (s : Watch) {a n a' n' : UInt16} (g : Option Sign) (h : (a', n') ≠ (a, n)) :
    s.setSign a n g a' n' = s.sign a' n' := if_neg h

theorem timeElapse_ofNat {t now : Nat} (h : t ≤ now) (h' : now - t ≤ 180000) :
    timeElapse (UInt32.ofNat now) (UInt32.ofNat t) ≤ 180000 := by
  rw [timeElapse_eq, ← UInt32.ofNat_sub h, UInt32.le_iff_toNat_le, UInt32.toNat_ofNat']
  have hmod : (now - t) % 2 ^ 32 = now - t := Nat.mod_eq_of_lt (by omega)
  rw [hmod]
  exact h'

theorem checkTimeout_of_le {p : Jzq} {tick : UInt32} (h : timeElapse tick p.m_heartTimer ≤ 180000) :
    (p.checkTimeout tick).1 = p := by
  simp only [Jzq.checkTimeout, UInt32.not_lt.mpr h, if_false]

theorem checkTimeout_of_lt {p : Jzq} {tick : UInt32} (h : 180000 < timeElapse tick p.m_heartTimer) :
    (p.checkTimeout tick).1.online = false := by
  simp only [Jzq.checkTimeout, h, if_true]
  exact Jzq.offline_logout _ tick 0

theorem checkTimeout_offline {p : Jzq} (tick : UInt32) (h : p.online = false) :
    (p.checkTimeout tick).1.online = false := by
  by_cases hlt : 180000 < timeElapse tick p.m_heartTimer
  · exact checkTimeout_of_lt hlt
  · rw [checkTimeout_of_le (UInt32.not_lt.mp hlt)]
    exact h

section
variable {s : Watch} (h : s.Tracked)
include h

theorem Tracked.update {s' : Watch} {a n : UInt16} {x : Option Sign} (hnow : s'.now = s.now)
    (hsign : s'.sign = s.setSign a n x)
    (hne : ∀ {a' n'}, (a', n') ≠ (a, n) → s'.list.getJzq a' n' = s.list.getJzq a' n')
    (hself : ∀ g, x = some g → s'.Alive a n g) : s'.Tracked := by
  intro a' n' g hg
  rw [hsign] at hg
  by_cases heq : (a', n') = (a, n)
  · cases heq
    rw [setSign_self] at hg
    exact hself g hg
  · rw [setSign_ne s x heq] at hg
    obtain ⟨hpast, hlisted⟩ := h a' n' g hg
    exact ⟨by rw [hnow]; exact hpast, by rw [hne heq, hnow]; exact hlisted⟩

theorem Tracked.leave {s' : Watch} {a n : UInt16} (hnow : s'.now = s.now) (hsign : s'.sign = s.leave a n)
    (hne : ∀ {a' n'}, (a', n') ≠ (a, n) → s'.list.getJzq a' n' = s.list.getJzq a' n')
    (hself : ∀ g, s.sign a n = some g → ∃ p, s'.list.getJzq a n = some p ∧ p.online = false) : s'.Tracked := by
  refine h.update hnow hsign hne fun g hg => ?_
  obtain ⟨g₀, hg₀, rfl⟩ := Option.map_eq_some_iff.mp hg
  obtain ⟨p, hp, hoff⟩ := hself g₀ hg₀
  refine ⟨by rw [hnow]; exact (h a n g₀ hg₀).past, p, hp, fun _ => hoff, fun _ hgone => ?_⟩
  cases hgone

theorem Tracked.timer {act : Act} (hcur : s.Current act) (hact : act = .checkConnection) {a n : UInt16} {g : Sign}
    {p : Jzq} (hg : s.sign a n = some g) (hp : s.list.getJzq a n = some p) (hrecent : s.now - g.time ≤ 180000)
    (hgone : g.gone = false) : timeElapse s.tick p.m_heartTimer ≤ 180000 := by
  obtain ⟨hpast, p', hp', -, halive⟩ := h a n g hg
  rw [hp] at hp'
  cases hp'
  cases hlogin : g.login with
  | true => exact hcur hact a n g p hg hrecent hlogin hgone hp
  | false =>
    rw [(halive hrecent hgone).2 hlogin]
    exact timeElapse_ofNat hpast hrecent

theorem Tracked.check (hcur : s.Current .checkConnection) :
    Tracked { s with list := s.list.checkConnection s.tick } := by
  intro a n g hg
  obtain ⟨hpast, p, hp, hoff, halive⟩ := h a n g hg
  refine ⟨hpast, (p.checkTimeout s.tick).1, ?_, fun hgone => checkTimeout_offline s.tick (hoff hgone), ?_⟩
  · simp only [JzqList.getJzq_check, hp, Option.map_some]
  · intro hrecent hgone
    rw [checkTimeout_of_le (h.timer hcur rfl hg hp hrecent hgone)]
    exact halive hrecent hgone

theorem Tracked.step {s' : Watch} {act : Act} (hs : Watch.step s act = some s') (hcur : s.Current act) :
    s'.Tracked := by
  cases act with
  | pass ms =>
    cases hs
    intro a n g hg
    obtain ⟨hpast, p, hp, hoff, halive⟩ := h a n g hg
    exact ⟨Nat.le_trans hpast (Nat.le_add_right ..), p, hp, hoff,
      fun hrecent => halive (Nat.le_trans (Nat.sub_le_sub_right (Nat.le_add_right ..) _) hrecent)⟩
  | login a n pseq =>
    cases hs
    refine h.update rfl rfl (fun hne => JzqList.getJzq_report_ne _ _ a n 1 pseq hne) fun g hg => ?_
    cases hg
    obtain ⟨p, hp⟩ := JzqList.getJzq_report s.list s.tick a n 1 pseq
    exact ⟨Nat.le_refl _, _, hp, fun hgone => (nomatch hgone),
      fun _ _ => ⟨p.online_login s.tick pseq, fun hlogin => nomatch hlogin⟩⟩
  | logout a n pseq =>
    cases hs
    refine h.leave rfl rfl (fun hne => JzqList.getJzq_report_ne _ _ a n 2 pseq hne) fun g hg => ?_
    obtain ⟨p, hp⟩ := JzqList.getJzq_report s.list s.tick a n 2 pseq
    exact ⟨_, hp, p.offline_logout s.tick pseq⟩
  | heartbeat a n pseq =>
    cases hs
    refine h.update rfl rfl (fun hne => JzqList.getJzq_report_ne _ _ a n 3 pseq hne) fun g hg => ?_
    cases hg
    obtain ⟨p, hp⟩ := JzqList.getJzq_report s.list s.tick a n 3 pseq
    obtain ⟨hon, htimer⟩ := p.online_heartbeat s.tick pseq
    exact ⟨Nat.le_refl _, _, hp, fun hgone => (nomatch hgone), fun _ _ => ⟨hon, fun _ => htimer⟩⟩
  | close a n =>
    cases hs
    refine h.leave rfl rfl (fun hne => JzqList.getJzq_del_ne _ _ a n hne) fun g hg => ?_
    obtain ⟨-, p, hp, -⟩ := h a n g hg
    exact ⟨_, by simp only [JzqList.getJzq_del, hp, Option.map_some], p.offline_logout s.tick 0⟩
  | checkConnection =>
    cases hs
    exact h.check hcur

theorem Tracked.kept {s' : Watch} {act : Act} (hs : Watch.step s act = some s') (hcur : s.Current act) :
    Kept s act s' := by
  intro hact a n g hg hrecent
  subst hact
  cases hs
  obtain ⟨-, p, hp, hoff, halive⟩ := h a n g hg
  have hp' : JzqList.getJzq (s.list.checkConnection s.tick) a n = some (p.checkTimeout s.tick).1 := by
    rw [JzqList.getJzq_check, hp, Option.map_some]
  have honline : g.gone = false → (p.checkTimeout s.tick).1.online = true := by
    intro hgone
    rw [checkTimeout_of_le (h.timer hcur rfl hg hp hrecent hgone)]
    exact (halive hrecent hgone).1
  refine ⟨fun hgone => ⟨_, hp', honline hgone⟩, ?_⟩
  intro ⟨p₀, hp₀, hon⟩
  rw [hp] at hp₀
  cases hp₀
  cases hgone : g.gone with
  | false => exact ⟨_, hp', honline hgone⟩
  | true =>
    rw [hoff hgone] at hon
    cases hon

omit h in
theorem current_of_kept {s' : Watch} {act : Act} (hs : Watch.step s act = some s') (hkept : Kept s act s') :
    s.Current act := by
  intro hact a n g p hg hrecent _ hgone hp
  refine UInt32.not_lt.mp fun hlt => ?_
  obtain ⟨p', hp', hon⟩ := (hkept hact a n g hg hrecent).1 hgone
  subst hact
  cases hs
  rw [JzqList.getJzq_check, hp, Option.map_some] at hp'
  cases hp'
  rw [checkTimeout_of_lt hlt] at hon
  cases hon

end

/-- **Concentrators that are alive stay online through a run exactly when every check of it finds the
timers of those that have just logged in current.** -/
theorem kept_iff (list : JzqList) (now : Nat) (acts : List Act) :
    Run.Each step Kept (start list now) acts ↔
      Run.Each step (fun s act _ => Current s act) (start list now) acts := by
  have hstart : (start list now).Tracked := by
    intro a n g hg
    cases hg
  exact Run.each_iff (I := Tracked) (P := fun s act _ => Current s act) (Q := Kept)
    (fun hI hs hcur => ⟨hI.kept hs hcur, hI.step hs hcur⟩) (fun _ hs hkept => current_of_kept hs hkept) hstart

-- a concentrator not known before logs in, and the connections are checked a second later
def freshLogin : List Act := [.login 0x1000 0x044d 0, .pass 1000, .checkConnection]

theorem freshLogin_loggedOut : ¬ Run.Each step Kept (start ⟨[], 1⟩ 200000) freshLogin := by
  intro h
  have h₁ := ((Run.each_cons rfl).mp h).2
  have h₂ := ((Run.each_cons rfl).mp h₁).2
  have h₃ := ((Run.each_cons rfl).mp h₂).1
  obtain ⟨p, hp, hon⟩ := (h₃ rfl 0x1000 0x044d _ rfl (by decide)).1 rfl
  have hp' : some ({ (Jzq.construct "none1" 0x1000 0x044d 0) with m_heartTimer := 201000 } : Jzq) = some p := hp
  cases hp'
  cases hon

end Watch

end Afn
