import Fiasco.SwitchLock.Model

/-!
# The mark of a running context

While `_running_under_lock` is not `Not_running` one CPU is responsible for the mark: it runs the
context, has just left it, dispatches it, or checks whether it needs help. A context that runs
without the mark is on its home CPU and holds no locks, so nobody starts it: its home CPU is busy with
it, and a helper finds that it holds no locks.
-/

namespace Fiasco.SwitchLock

open Function

variable {C Cpu L : Type}

def Core.Busy (k : Core C Cpu) (p : Cpu) (t : C) : Prop :=
  k.cur p = t ∨ ∃ b, k.left p = some (t, b)

def Core.Idle (k : Core C Cpu) (t : C) : Prop :=
  ∀ p, ¬ k.Busy p t

abbrev Token (C Cpu : Type) := C → Option Cpu

def Tried (k : Core C Cpu) (tok : Token C Cpu) (p : Cpu) (t : C) : Prop :=
  tok t = some p ∧ k.rul t = .trying

def Taken (k : Core C Cpu) (tok : Token C Cpu) (p : Cpu) (t : C) : Prop :=
  tok t = some p ∧ k.rul t = .running

def Standing (T : Topology C Cpu) (k : Core C Cpu) (tok : Token C Cpu) (p : Cpu) (t : C) : Prop :=
  Taken k tok p t ∨ (T.home t = p ∧ k.cnt t = 0 ∧ k.rul t ≠ .running)

def Fits (T : Topology C Cpu) (k : Core C Cpu) (tok : Token C Cpu) (p : Cpu) (x : C) :
    Pc C L → Prop
  | .helpCnt _ _ t | .helpReset _ t => Tried k tok p t
  | .helpLock _ _ t | .helpStore _ t => Tried k tok p t ∧ k.cnt t ≠ 0 ∧ k.Idle t
  | .helpReady _ t => Taken k tok p t ∧ k.cnt t ≠ 0 ∧ k.Idle t
  | .ownLoad _ | .ownCas _ | .dirtyPreempt => T.home x = p ∧ k.cnt x = 0
  | .ownLock _ fresh => if fresh then Taken k tok p x ∧ T.home x = p ∧ k.cnt x = 0 else k.cnt x ≠ 0
  | .ownReset _ | .dirtyStore => Taken k tok p x ∧ T.home x = p ∧ k.cnt x = 0
  | .inc _ => Taken k tok p x
  | .decReset o => o = x ∧ Taken k tok p x ∧ T.home x = p ∧ k.cnt x = 0
  | .dispCnt t _ | .dispLoad t _ | .dispCas t _ => t ≠ x ∧ T.home t = p
  | .dispRul t _ => t ≠ x ∧ T.home t = p ∧ k.cnt t = 0
  | .dispAgain t _ => T.home t = p ∧ Taken k tok p t ∧ k.Idle t
  | .dispReset t _ => T.home t = p ∧ Taken k tok p t ∧ k.Idle t ∧ k.cnt t = 0
  | .dispReady t taken _ =>
    T.home t = p ∧ k.Idle t ∧
      if taken then Taken k tok p t else k.cnt t = 0 ∧ k.rul t ≠ .running
  | _ => True

def Pc.leaves : Pc C L → Bool
  | .dirty | .dirtyCheck | .sched _ | .schedLoop _ | .dispCnt _ _ | .dispRul _ _ | .dispLoad _ _
  | .dispCas _ _ | .dispAgain _ _ | .dispReset _ _ | .dispReady _ _ _ => true
  | _ => false

def Pc.suspended : Pc C L → Bool
  | .run | .helped _ | .returned _ => true
  | _ => false

structure Good (T : Topology C Cpu) (k : Core C Cpu) (pc : C → Pc C L) (tok : Token C Cpu) :
    Prop where
  free : ∀ t, k.rul t = .notRunning ↔ tok t = none
  standing : ∀ p t, k.Busy p t → Standing T k tok p t
  once : ∀ p q t, k.Busy p t → k.Busy q t → p = q
  /-- Away from home a context that holds no locks is about to leave. -/
  away : ∀ p, (pc (k.cur p)).leaves = false → T.home (k.cur p) = p ∨ k.cnt (k.cur p) ≠ 0
  fits : ∀ p, Fits T k tok p (k.cur p) (pc (k.cur p))
  asleep : ∀ t, (∀ p, k.cur p ≠ t) → (pc t).suspended = true
  pending : ∀ p, k.left p ≠ none → (pc (k.cur p)).suspended = true
  left : ∀ p y b, k.left p = some (y, b) → y ≠ k.cur p ∧ (b = true → k.rul y = .running)

structure Later (T : Topology C Cpu) (k k' : Core C Cpu) (tok tok' : Token C Cpu) (p : Cpu) :
    Prop where
  cur : ∀ q, q ≠ p → k'.cur q = k.cur q
  left : ∀ q, q ≠ p → k'.left q = k.left q
  token : ∀ q, q ≠ p → ∀ t, tok t = some q → tok' t = some q ∧ k'.rul t = k.rul t
  cnt : ∀ t, k'.cnt t = k.cnt t ∨ (k.Busy p t ∧ (k.cnt t = 0 → T.home t = p))
  running : ∀ t, k'.rul t = .running →
    k.rul t = .running ∨ k.Busy p t ∨ T.home t = p ∨ k.cnt t ≠ 0
  enter : ∀ t, k'.Busy p t → k.Busy p t ∨ Taken k tok p t ∨ (T.home t = p ∧ k.cnt t = 0)

section Others

variable {T : Topology C Cpu} {k k' : Core C Cpu} {tok tok' : Token C Cpu} {pc pc' : C → Pc C L}
  {p q : Cpu} {t z : C} {l : Pc C L}

theorem fits_of_suspended (h : l.suspended = true) : Fits T k tok p z l := by
  cases l with
  | run | helped _ | returned _ => trivial
  | _ => cases h

section

variable (hl : Later T k k' tok tok' p)
include hl

theorem Later.busy (hq : q ≠ p) : k'.Busy q t ↔ k.Busy q t := by
  rw [Core.Busy, Core.Busy, hl.cur q hq, hl.left q hq]

theorem Later.tried (hq : q ≠ p) (h : Tried k tok q t) :
    Tried k' tok' q t :=
  ⟨(hl.token q hq t h.1).1, (hl.token q hq t h.1).2.trans h.2⟩

theorem Later.taken (hq : q ≠ p) (h : Taken k tok q t) :
    Taken k' tok' q t :=
  ⟨(hl.token q hq t h.1).1, (hl.token q hq t h.1).2.trans h.2⟩

theorem Later.cnt_eq (h : ¬ k.Busy p t) : k'.cnt t = k.cnt t :=
  (hl.cnt t).resolve_right fun hb => h hb.1

theorem Later.idle (h : k.Idle t) (ht : ¬ Taken k tok p t)
    (hf : ¬ (T.home t = p ∧ k.cnt t = 0)) : k'.Idle t := by
  intro q hq
  by_cases hqp : q = p
  · subst hqp
    rcases hl.enter t hq with hb | hb | hb
    · exact h q hb
    · exact ht hb
    · exact hf hb
  · exact h q ((hl.busy hqp).mp hq)

end

theorem not_taken_of_token (hq : q ≠ p) (h : tok t = some q) : ¬ Taken k tok p t := by
  intro ht
  have heq := h.symm.trans ht.1
  cases heq
  exact hq rfl

theorem Fits.later (hl : Later T k k' tok tok' p) (hq : q ≠ p) (hz : ¬ k.Busy p z)
    (h : Fits T k tok q z l) : Fits T k' tok' q z l := by
  have hcnt : k'.cnt z = k.cnt z := hl.cnt_eq hz
  have hhome {t : C} (ht : T.home t = q) (hp : T.home t = p ∧ k.cnt t = 0) : False :=
    hq (ht.symm.trans hp.1)
  cases l with
  | helpCnt _ _ t | helpReset _ t => exact hl.tried hq h
  | helpLock _ _ t | helpStore _ t =>
    obtain ⟨ht, hc, hi⟩ := h
    refine ⟨hl.tried hq ht, ?_, hl.idle hi (not_taken_of_token hq ht.1) fun hf => hc hf.2⟩
    rw [hl.cnt_eq (hi p)]
    exact hc
  | helpReady _ t =>
    obtain ⟨ht, hc, hi⟩ := h
    refine ⟨hl.taken hq ht, ?_, hl.idle hi (not_taken_of_token hq ht.1) fun hf => hc hf.2⟩
    rw [hl.cnt_eq (hi p)]
    exact hc
  | ownLoad _ | ownCas _ | dirtyPreempt => exact ⟨h.1, hcnt.trans h.2⟩
  | ownLock _ fresh =>
    cases fresh with
    | true => exact ⟨hl.taken hq h.1, h.2.1, hcnt.trans h.2.2⟩
    | false =>
      have h' : k.cnt z ≠ 0 := h
      exact (hcnt ▸ h' : k'.cnt z ≠ 0)
  | ownReset _ | dirtyStore => exact ⟨hl.taken hq h.1, h.2.1, hcnt.trans h.2.2⟩
  | inc _ => exact hl.taken hq h
  | decReset o => exact ⟨h.1, hl.taken hq h.2.1, h.2.2.1, hcnt.trans h.2.2.2⟩
  | dispCnt t _ | dispLoad t _ | dispCas t _ => exact h
  | dispRul t _ =>
    obtain ⟨hne, ht, hc⟩ := h
    refine ⟨hne, ht, ?_⟩
    -- it has no locks, so away from its home it does not take one
    rcases hl.cnt t with heq | ⟨-, hp⟩
    · exact heq.trans hc
    · exact (hq (ht.symm.trans (hp hc))).elim
  | dispAgain t _ =>
    obtain ⟨ht, htak, hi⟩ := h
    exact ⟨ht, hl.taken hq htak, hl.idle hi (not_taken_of_token hq htak.1) (hhome ht)⟩
  | dispReset t _ =>
    obtain ⟨ht, htak, hi, hc⟩ := h
    exact ⟨ht, hl.taken hq htak, hl.idle hi (not_taken_of_token hq htak.1) (hhome ht),
      (hl.cnt_eq (hi p)).trans hc⟩
  | dispReady t taken _ =>
    obtain ⟨ht, hi, htak⟩ := h
    cases taken with
    | true => exact ⟨ht, hl.idle hi (not_taken_of_token hq htak.1) (hhome ht), hl.taken hq htak⟩
    | false =>
      obtain ⟨hc, hr⟩ := htak
      refine ⟨ht, hl.idle hi (fun hp => hr hp.2) (hhome ht), (hl.cnt_eq (hi p)).trans hc, fun hrun => ?_⟩
      rcases hl.running t hrun with h | h | h | h
      · exact hr h
      · exact hi p h
      · exact hq (ht.symm.trans h)
      · exact h hc
  | _ => trivial

theorem Standing.later (hl : Later T k k' tok tok' p) (hq : q ≠ p) (hp : ¬ k.Busy p t)
    (h : Standing T k tok q t) : Standing T k' tok' q t := by
  rcases h with h | ⟨hh, hc, hr⟩
  · exact .inl (hl.taken hq h)
  · refine .inr ⟨hh, (hl.cnt_eq hp).trans hc, fun hrun => ?_⟩
    rcases hl.running t hrun with h | h | h | h
    · exact hr h
    · exact hp h
    · exact hq (hh.symm.trans h)
    · exact h hc

theorem Good.later (h : Good T k pc tok) (hl : Later T k k' tok tok' p)
    (hfree : ∀ t, k'.rul t = .notRunning ↔ tok' t = none)
    (hstanding : ∀ t, k'.Busy p t → Standing T k' tok' p t)
    (henter : ∀ t, k'.Busy p t → k.Busy p t ∨ k.Idle t) (hpc : ∀ t, t ≠ k.cur p → pc' t = pc t)
    (haway : (pc' (k'.cur p)).leaves = false → T.home (k'.cur p) = p ∨ k'.cnt (k'.cur p) ≠ 0)
    (hfits : Fits T k' tok' p (k'.cur p) (pc' (k'.cur p)))
    (hasleep : k'.cur p ≠ k.cur p → (pc' (k.cur p)).suspended = true)
    (hpending : k'.left p ≠ none → (pc' (k'.cur p)).suspended = true)
    (hleft : ∀ y b, k'.left p = some (y, b) → y ≠ k'.cur p ∧ (b = true → k'.rul y = .running)) :
    Good T k' pc' tok' := by
  have hself : k.Busy p (k.cur p) := .inl rfl
  have hother {q : Cpu} {t : C} (hq : q ≠ p) (hb : k.Busy q t) : ¬ k.Busy p t :=
    fun hp => hq (h.once q p t hb hp)
  have hcur {q : Cpu} (hq : q ≠ p) : k.cur q ≠ k.cur p := fun heq => hother hq (.inl heq) hself
  refine ⟨hfree, fun q t hb => ?_, fun q r t hbq hbr => ?_, fun q hlv => ?_, fun q => ?_,
    fun t ht => ?_, fun q hlq => ?_, fun q y b hy => ?_⟩
  · by_cases hq : q = p
    · subst hq
      exact hstanding t hb
    · have hb := (hl.busy hq).mp hb
      exact (h.standing q t hb).later hl hq (hother hq hb)
  · -- a context that `p` has started was idle
    have hone {a : Cpu} (ha : a ≠ p) (hbp : k'.Busy p t) (hba : k'.Busy a t) : False := by
      have hba := (hl.busy ha).mp hba
      rcases henter t hbp with hb | hi
      · exact hother ha hba hb
      · exact hi a hba
    by_cases hq : q = p <;> by_cases hr : r = p
    · exact hq.trans hr.symm
    · exact (hone hr (hq ▸ hbq) hbr).elim
    · exact (hone hq (hr ▸ hbr) hbq).elim
    · exact h.once q r t ((hl.busy hq).mp hbq) ((hl.busy hr).mp hbr)
  · by_cases hq : q = p
    · subst hq
      exact haway hlv
    · rw [hl.cur q hq] at hlv ⊢
      rw [hpc _ (hcur hq)] at hlv
      rw [hl.cnt_eq (hother hq (.inl rfl))]
      exact h.away q hlv
  · by_cases hq : q = p
    · subst hq
      exact hfits
    · rw [hl.cur q hq, hpc _ (hcur hq)]
      exact (h.fits q).later hl hq (hother hq (.inl rfl))
  · by_cases htp : t = k.cur p
    · subst htp
      exact hasleep (ht p)
    · rw [hpc t htp]
      refine h.asleep t fun q hq => ?_
      by_cases hqp : q = p
      · subst hqp
        exact htp hq.symm
      · exact ht q ((hl.cur q hqp).trans hq)
  · by_cases hq : q = p
    · subst hq
      exact hpending hlq
    · rw [hl.left q hq] at hlq
      rw [hl.cur q hq, hpc _ (hcur hq)]
      exact h.pending q hlq
  · by_cases hq : q = p
    · subst hq
      exact hleft y b hy
    · rw [hl.left q hq] at hy
      obtain ⟨hne, hrun⟩ := h.left q y b hy
      refine ⟨by rw [hl.cur q hq]; exact hne, fun hb => ?_⟩
      rcases h.standing q y (.inr ⟨b, hy⟩) with ht | ⟨-, -, hr⟩
      · exact (hl.taken hq ht).2
      · exact (hr (hrun hb)).elim

end Others

section Rules

variable [DecidableEq C] [DecidableEq Cpu] {T : Topology C Cpu} {k : Core C Cpu}
  {tok : Token C Cpu} {pc : C → Pc C L} {p : Cpu} {t : C} {l : Pc C L}

section

omit [DecidableEq Cpu]

theorem Good.goto (h : Good T k pc tok) (hleft : k.left p = none)
    (hfits : Fits T k tok p (k.cur p) l)
    (haway : l.leaves = false → T.home (k.cur p) = p ∨ k.cnt (k.cur p) ≠ 0) :
    Good T k (update pc (k.cur p) l) tok := by
  have hl : Later T k k tok tok p :=
    ⟨fun _ _ => rfl, fun _ _ => rfl, fun _ _ _ ht => ⟨ht, rfl⟩, fun _ => .inl rfl, fun _ => .inl,
      fun _ => .inl⟩
  refine h.later hl h.free (h.standing p) (fun _ => .inl) (fun _ ht => update_of_ne ht ..)
    ?_ ?_ (fun hne => (hne rfl).elim) (fun hne => (hne hleft).elim) fun y b hy => ?_
  · rw [update_self]
    exact haway
  · rw [update_self]
    exact hfits
  · rw [hleft] at hy
    cases hy

theorem rul_setRul_self (v : Rul) : (k.setRul t v).rul t = v :=
  update_self ..

theorem rul_setRul_of_ne {u : C} (v : Rul) (h : u ≠ t) : (k.setRul t v).rul u = k.rul u :=
  update_of_ne h ..

theorem later_setRul {v : Rul} {o : Option Cpu} (hold : tok t = none ∨ tok t = some p)
    (hrun : v = .running → k.Busy p t ∨ T.home t = p ∨ k.cnt t ≠ 0) :
    Later T k (k.setRul t v) tok (update tok t o) p := by
  refine ⟨fun _ _ => rfl, fun _ _ => rfl, fun q hq u hu => ?_, fun _ => .inl rfl, fun u hu => ?_,
    fun _ => .inl⟩
  · have hut : u ≠ t := by
      rintro rfl
      rcases hold with hn | hs
      · rw [hn] at hu
        cases hu
      · rw [hs] at hu
        cases hu
        exact hq rfl
    rw [update_of_ne hut, rul_setRul_of_ne v hut]
    exact ⟨hu, rfl⟩
  · by_cases hut : u = t
    · subst hut
      rw [rul_setRul_self] at hu
      exact .inr (hrun hu)
    · rw [rul_setRul_of_ne v hut] at hu
      exact .inl hu

end

section

variable (h : Good T k pc tok)
include h

omit [DecidableEq Cpu] in
theorem Good.setRul (hleft : k.left p = none) {v : Rul} {o : Option Cpu}
    (hold : tok t = none ∨ tok t = some p) (hnew : v = .notRunning ↔ o = none)
    (hrun : v = .running → k.Busy p t ∨ T.home t = p ∨ k.cnt t ≠ 0)
    (hself : t = k.cur p → (v = .running ∧ o = some p) ∨ (T.home t = p ∧ k.cnt t = 0 ∧ v ≠ .running))
    (hfits : Fits T (k.setRul t v) (update tok t o) p (k.cur p) l)
    (haway : l.leaves = false → T.home (k.cur p) = p ∨ k.cnt (k.cur p) ≠ 0) :
    Good T (k.setRul t v) (update pc (k.cur p) l) (update tok t o) := by
  refine h.later (later_setRul hold hrun) (fun u => ?_) (fun u hu => ?_) (fun _ => .inl)
    (fun _ ht => update_of_ne ht ..) ?_ ?_ (fun hne => (hne rfl).elim)
    (fun hne => (hne hleft).elim) fun y b hy => ?_
  · by_cases hut : u = t
    · subst hut
      rw [rul_setRul_self, update_self]
      exact hnew
    · rw [rul_setRul_of_ne v hut, update_of_ne hut]
      exact h.free u
  · by_cases hut : u = t
    · subst hut
      have hcur : u = k.cur p := by
        rcases hu with hc | ⟨b, hb⟩
        · exact hc.symm
        · rw [show k.left p = some (u, b) from hb] at hleft
          cases hleft
      refine (hself hcur).imp (fun hv => ?_) fun ⟨hh, hc, hv⟩ => ⟨hh, hc, ?_⟩
      · exact ⟨(update_self ..).trans hv.2, (rul_setRul_self v).trans hv.1⟩
      · rw [rul_setRul_self]
        exact hv
    · refine (h.standing p u hu).imp (fun ht => ?_) fun ⟨hh, hc, hr⟩ => ⟨hh, hc, ?_⟩
      · exact ⟨(update_of_ne hut ..).trans ht.1, (rul_setRul_of_ne v hut).trans ht.2⟩
      · rw [rul_setRul_of_ne v hut]
        exact hr
  · rw [show (k.setRul t v).cur p = k.cur p from rfl, update_self]
    exact haway
  · rw [show (k.setRul t v).cur p = k.cur p from rfl, update_self]
    exact hfits
  · rw [show k.left p = some (y, b) from hy] at hleft
    cases hleft

omit [DecidableEq Cpu] in
theorem Good.setCnt (hleft : k.left p = none) {n : ℕ}
    (htaken : Taken k tok p (k.cur p)) (hhome : k.cnt (k.cur p) = 0 → T.home (k.cur p) = p)
    (hfits : Fits T (k.setCnt (k.cur p) n) tok p (k.cur p) l)
    (haway : l.leaves = false → T.home (k.cur p) = p ∨ n ≠ 0) :
    Good T (k.setCnt (k.cur p) n) (update pc (k.cur p) l) tok := by
  have hl : Later T k (k.setCnt (k.cur p) n) tok tok p := by
    refine ⟨fun _ _ => rfl, fun _ _ => rfl, fun _ _ _ ht => ⟨ht, rfl⟩, fun u => ?_, fun _ => .inl,
      fun _ => .inl⟩
    by_cases hu : u = k.cur p
    · subst hu
      exact .inr ⟨.inl rfl, hhome⟩
    · exact .inl (update_of_ne hu ..)
  refine h.later hl h.free (fun u hu => ?_) (fun _ => .inl) (fun _ ht => update_of_ne ht ..)
    ?_ ?_ (fun hne => (hne rfl).elim) (fun hne => (hne hleft).elim) fun y b hy => ?_
  · rcases hu with hc | ⟨b, hb⟩
    · subst hc
      exact .inl htaken
    · rw [show k.left p = some (u, b) from hb] at hleft
      cases hleft
  · rw [show (k.setCnt (k.cur p) n).cur p = k.cur p from rfl, update_self]
    rw [show (k.setCnt (k.cur p) n).cnt (k.cur p) = n from update_self ..]
    exact haway
  · rw [show (k.setCnt (k.cur p) n).cur p = k.cur p from rfl, update_self]
    exact hfits
  · rw [show k.left p = some (y, b) from hy] at hleft
    cases hleft

theorem Good.switch (hidle : k.Idle t)
    (hstanding : Standing T k tok p t) (haway : T.home t = p ∨ k.cnt t ≠ 0)
    (hl : l.suspended = true) : Good T (k.switch p t) (update pc (k.cur p) l) tok := by
  have hne : t ≠ k.cur p := fun heq => hidle p (.inl heq.symm)
  have hcur : (k.switch p t).cur p = t := update_self ..
  have hleft {u : C} {b : Bool} (hu : (k.switch p t).left p = some (u, b)) : u = k.cur p ∧ b = false := by
    rw [show (k.switch p t).left p = some (k.cur p, false) from update_self ..] at hu
    cases hu
    exact ⟨rfl, rfl⟩
  have hbusy {u : C} (hu : (k.switch p t).Busy p u) : u = t ∨ u = k.cur p := by
    rcases hu with hc | ⟨b, hb⟩
    · exact .inl (hc.symm.trans hcur)
    · exact .inr (hleft hb).1
  have hsusp : (update pc (k.cur p) l t).suspended = true := by
    rw [update_of_ne hne]
    exact h.asleep t fun q hq => hidle q (.inl hq)
  have hlater : Later T k (k.switch p t) tok tok p := by
    refine ⟨fun _ hq => update_of_ne hq .., fun _ hq => update_of_ne hq ..,
      fun _ _ _ ht => ⟨ht, rfl⟩, fun _ => .inl rfl, fun _ => .inl, fun u hu => ?_⟩
    rcases hbusy hu with rfl | rfl
    · exact .inr (hstanding.imp id fun hs => ⟨hs.1, hs.2.1⟩)
    · exact .inl (.inl rfl)
  refine h.later hlater h.free (fun u hu => ?_) (fun u hu => ?_)
    (fun _ ht => update_of_ne ht ..) ?_ ?_ (fun _ => ?_) (fun _ => ?_) fun y b hy => ?_
  · rcases hbusy hu with rfl | rfl
    · exact hstanding
    · exact h.standing p _ (.inl rfl)
  · rcases hbusy hu with rfl | rfl
    · exact .inr hidle
    · exact .inl (.inl rfl)
  · rw [hcur]
    exact fun _ => haway
  · rw [hcur]
    exact fits_of_suspended hsusp
  · rw [update_self]
    exact hl
  · rw [hcur]
    exact hsusp
  · obtain ⟨rfl, rfl⟩ := hleft hy
    rw [hcur]
    exact ⟨hne.symm, nofun⟩

omit [DecidableEq C] in
theorem Good.leftCheck {y : C} (hy : k.left p = some (y, false)) :
    Good T (k.setLeft p (if k.rul y = .running then some (y, true) else none)) pc tok := by
  generalize ho : (if k.rul y = .running then some (y, true) else none) = o
  have hleft {u : C} {b : Bool} (hu : (k.setLeft p o).left p = some (u, b)) :
      u = y ∧ k.rul y = .running := by
    rw [show (k.setLeft p o).left p = o from update_self .., ← ho] at hu
    split_ifs at hu with hr
    cases hu
    exact ⟨rfl, hr⟩
  have hbusy {u : C} (hu : (k.setLeft p o).Busy p u) : k.Busy p u := by
    rcases hu with hc | ⟨b, hb⟩
    · exact .inl hc
    · exact .inr ⟨false, (hleft hb).1 ▸ hy⟩
  have hl : Later T k (k.setLeft p o) tok tok p :=
    ⟨fun _ _ => rfl, fun _ hq => update_of_ne hq .., fun _ _ _ ht => ⟨ht, rfl⟩,
      fun _ => .inl rfl, fun _ => .inl, fun _ hu => .inl (hbusy hu)⟩
  have hsusp := h.pending p (by rw [hy]; exact nofun)
  refine h.later hl h.free (fun u hu => h.standing p u (hbusy hu)) (fun u hu => .inl (hbusy hu))
    (fun _ _ => rfl) (h.away p) (fits_of_suspended hsusp) (fun hne => (hne rfl).elim)
    (fun _ => hsusp) fun u b hu => ?_
  obtain ⟨rfl, hr⟩ := hleft hu
  exact ⟨(h.left p u false hy).1, fun _ => hr⟩

theorem Good.leftMark {y : C} (hy : k.left p = some (y, true)) :
    Good T ((k.setRul y .notRunning).setLeft p none) pc (update tok y none) := by
  obtain ⟨hne, hrun⟩ := h.left p y true hy
  have htaken : Taken k tok p y :=
    (h.standing p y (.inr ⟨true, hy⟩)).resolve_right fun hs => hs.2.2 (hrun rfl)
  have hleft : ((k.setRul y .notRunning).setLeft p none).left p = none := update_self ..
  have hbusy {u : C} (hu : ((k.setRul y .notRunning).setLeft p none).Busy p u) : u = k.cur p := by
    rcases hu with hc | ⟨b, hb⟩
    · exact hc.symm
    · rw [hleft] at hb
      cases hb
  have hrul : Later T k (k.setRul y .notRunning) tok (update tok y none) p :=
    later_setRul (.inr htaken.1) nofun
  have hl : Later T k ((k.setRul y .notRunning).setLeft p none) tok (update tok y none) p :=
    ⟨fun _ _ => rfl, fun _ hq => update_of_ne hq .., hrul.token, hrul.cnt, hrul.running,
      fun u hu => .inl (.inl (hbusy hu).symm)⟩
  have hsusp := h.pending p (by rw [hy]; exact nofun)
  refine h.later hl (fun u => ?_) (fun u hu => ?_) (fun u hu => .inl (.inl (hbusy hu).symm))
    (fun _ _ => rfl) (h.away p) (fits_of_suspended hsusp) (fun hc => (hc rfl).elim)
    (fun hc => (hc hleft).elim) fun u b hu => ?_
  · change (k.setRul y .notRunning).rul u = .notRunning ↔ _
    by_cases huy : u = y
    · subst huy
      rw [rul_setRul_self, update_self]
      exact iff_of_true rfl rfl
    · rw [rul_setRul_of_ne _ huy, update_of_ne huy]
      exact h.free u
  · have huy : u ≠ y := hbusy hu ▸ hne.symm
    have hr : ((k.setRul y .notRunning).setLeft p none).rul u = k.rul u := rul_setRul_of_ne _ huy
    refine (h.standing p u (.inl (hbusy hu).symm)).imp (fun ht => ?_) fun ⟨hh, hc, hn⟩ => ⟨hh, hc, ?_⟩
    · exact ⟨(update_of_ne huy ..).trans ht.1, hr.trans ht.2⟩
    · rw [hr]
      exact hn
  · rw [hleft] at hu
    cases hu

end

end Rules

end Fiasco.SwitchLock
