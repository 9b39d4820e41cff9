import Fiasco.SwitchLock.Token

/-!
# The steps of a CPU and the mark of a running context

Each place of the current context relies on what `Fits` says there, and establishes it for the next
one.
-/

namespace Fiasco.SwitchLock

open Function

variable {C Cpu L : Type} [DecidableEq C] [DecidableEq Cpu] [DecidableEq L] {T : Topology C Cpu}
  {s : State C Cpu L} {p : Cpu} {tok : Token C Cpu} {x : C} {c : Choice C L} {k : Core C Cpu}
  {pc : C → Pc C L} {t : C} {l : Pc C L}

def Marked (T : Topology C Cpu) (s : State C Cpu L) : Prop :=
  ∃ tok, Good T s.toCore s.pc tok

omit [DecidableEq C] [DecidableEq Cpu] [DecidableEq L] in
theorem Good.idle (h : Good T k pc tok) (hr : k.rul t ≠ .running)
    (hb : ∀ q, T.home t = q → k.cnt t = 0 → ¬ k.Busy q t) : k.Idle t := by
  intro q hq
  rcases h.standing q t hq with ht | ⟨hh, hc, -⟩
  · exact hr ht.2
  · exact hb q hh hc hq

omit [DecidableEq C] [DecidableEq Cpu] in
theorem not_busy_home (hleft : k.left p = none) (hne : t ≠ k.cur p) (ht : T.home t = p) :
    ∀ q, T.home t = q → k.cnt t = 0 → ¬ k.Busy q t := by
  rintro q hq - (hc | ⟨b, hb⟩)
  · rw [← hq, ht] at hc
    exact hne hc.symm
  · rw [← hq, ht, hleft] at hb
    cases hb

section

variable (h : Good T s.toCore s.pc tok) (hleft : s.left p = none)
include h hleft

omit [DecidableEq Cpu] [DecidableEq L] in
theorem Good.marked_goto
    (hfits : Fits T s.toCore tok p (s.cur p) l)
    (haway : l.leaves = false → T.home (s.cur p) = p ∨ s.cnt (s.cur p) ≠ 0) :
    Marked T (s.goto (s.cur p) l) :=
  ⟨tok, h.goto hleft hfits haway⟩

omit [DecidableEq L]

omit [DecidableEq Cpu] in
theorem Good.mark {v : Rul} (hv : v ≠ .notRunning) (hold : s.rul t = .notRunning ∨ tok t = some p)
    (hrun : v = .running → s.Busy p t ∨ T.home t = p ∨ s.cnt t ≠ 0)
    (hself : t = s.cur p → v = .running ∨ (T.home t = p ∧ s.cnt t = 0))
    (hfits : Fits T (s.setRul t v) (update tok t (some p)) p (s.cur p) l)
    (haway : l.leaves = false → T.home (s.cur p) = p ∨ s.cnt (s.cur p) ≠ 0) :
    Marked T ((s.withCore (s.setRul t v)).goto (s.cur p) l) := by
  refine ⟨_, h.setRul hleft (hold.imp_left (h.free t).mp) (iff_of_false hv (Option.some_ne_none p)) hrun (fun ht => ?_)
    hfits haway⟩
  by_cases hvr : v = .running
  · exact .inl ⟨hvr, rfl⟩
  · obtain ⟨hh, hc⟩ := (hself ht).resolve_left hvr
    exact .inr ⟨hh, hc, hvr⟩

omit [DecidableEq Cpu] in
theorem Good.unmark (hold : tok t = some p) (hself : t = s.cur p → T.home t = p ∧ s.cnt t = 0)
    (hfits : Fits T (s.setRul t .notRunning) (update tok t none) p (s.cur p) l)
    (haway : l.leaves = false → T.home (s.cur p) = p ∨ s.cnt (s.cur p) ≠ 0) :
    Marked T ((s.withCore (s.setRul t .notRunning)).goto (s.cur p) l) :=
  ⟨_, h.setRul hleft (.inr hold) (iff_of_true rfl rfl) nofun
    (fun ht => .inr ⟨(hself ht).1, (hself ht).2, nofun⟩) hfits haway⟩

end

omit [DecidableEq L] in
theorem Good.marked_switch (h : Good T s.toCore s.pc tok) {g : State C Cpu L} (hidle : s.Idle t)
    (hstanding : Standing T s.toCore tok p t) (haway : T.home t = p ∨ s.cnt t ≠ 0)
    (hl : l.suspended = true) (hg : g.pc = s.pc) :
    Marked T ((g.withCore (s.switch p t)).goto (s.cur p) l) := by
  refine ⟨tok, ?_⟩
  change Good T (s.switch p t) (update g.pc (s.cur p) l) tok
  rw [hg]
  exact h.switch hidle hstanding haway hl

section

omit [DecidableEq C] [DecidableEq Cpu] [DecidableEq L]

theorem Good.unmarked (h : Good T k pc tok) (hb : k.Busy p t) (hr : k.rul t ≠ .running) :
    T.home t = p ∧ k.cnt t = 0 := by
  rcases h.standing p t hb with ht | ⟨hh, hc, -⟩
  · exact (hr ht.2).elim
  · exact ⟨hh, hc⟩

theorem Good.taken_of_cnt (h : Good T k pc tok) (hb : k.Busy p t) (hc : k.cnt t ≠ 0) :
    Taken k tok p t :=
  (h.standing p t hb).resolve_right fun hs => hc hs.2.1

end

section Places

variable (h : Good T s.toCore s.pc tok) (hleft : s.left p = none)
include h hleft

omit [DecidableEq Cpu] [DecidableEq L] in
theorem Good.ret_failed (r : Ret L) : Marked T (s.goto (s.cur p) r.failed) := by
  cases r <;> exact h.marked_goto hleft trivial nofun

/-! The context is at home, or it has a lock. -/

section Away

variable (ha : T.home (s.cur p) = p ∨ s.cnt (s.cur p) ≠ 0)
include ha

omit [DecidableEq Cpu] [DecidableEq L] in
theorem Good.here (hfits : Fits T s.toCore tok p (s.cur p) l) : Marked T (s.goto (s.cur p) l) :=
  h.marked_goto hleft hfits fun _ => ha

theorem Good.begin (op : Op C L) : Marked T (begin T s p (s.cur p) op) := by
  cases op with
  | lock l | tryLock l | waitFree l | schedule => exact h.here hleft ha trivial
  | clear l =>
    rw [SwitchLock.begin]
    split_ifs
    · exact h.here hleft ha trivial
    · exact ⟨tok, h⟩
  | invalidate l | none => exact ⟨tok, h⟩
  | switchTo t =>
    rw [SwitchLock.begin]
    split_ifs with ht hx
    · exact h.here hleft ha trivial
    · exact h.here hleft ha ⟨hx, ht⟩
    · exact ⟨tok, h⟩

section

variable (w : Want L) (v : Word C)

omit [DecidableEq Cpu] [DecidableEq L] in
theorem Good.test : Marked T (s.goto (s.cur p) (testPc w v (s.cur p))) := by
  rw [testPc]
  cases w.kind <;> dsimp only <;> split_ifs <;> exact h.here hleft ha trivial

omit [DecidableEq Cpu] [DecidableEq L] in
theorem Good.loop : Marked T (s.goto (s.cur p) (loopPc w v)) := by
  rw [loopPc]
  split_ifs
  · exact h.here hleft ha trivial
  · cases v.owner <;> exact h.here hleft ha trivial
  · cases v.owner <;> exact h.here hleft ha trivial

theorem Good.helpCas
    (t : C) : Marked T (exec T s p (s.cur p) c (.helpCas w v t)) := by
  rw [exec]
  split_ifs with hr
  · refine h.mark hleft nofun (.inl hr) nofun (fun ht => .inr ?_)
      ⟨update_self .., rul_setRul_self _⟩ fun _ => ha
    exact h.unmarked (.inl ht.symm) (by rw [hr]; exact nofun)
  · exact h.here hleft ha trivial

theorem Good.helpCnt
    (ht : Tried s.toCore tok p t) : Marked T (exec T s p (s.cur p) c (.helpCnt w v t)) := by
  rw [exec]
  split_ifs with hc
  · exact h.here hleft ha ht
  · have hi : s.Idle t := h.idle (by rw [ht.2]; exact nofun) fun _ _ h0 => (hc h0).elim
    exact h.here hleft ha ⟨ht, hc, hi⟩

theorem Good.helpStore
    (ht : Tried s.toCore tok p t) (hc : s.cnt t ≠ 0) (hi : s.Idle t) :
    Marked T (exec T s p (s.cur p) c (.helpStore w t)) :=
  h.mark hleft nofun (.inr ht.1) (fun _ => .inr (.inr hc)) (fun _ => .inl rfl)
    ⟨⟨update_self .., rul_setRul_self _⟩, hc, hi⟩ fun _ => ha

theorem Good.helpReset
    (ht : Tried s.toCore tok p t) : Marked T (exec T s p (s.cur p) c (.helpReset w t)) := by
  refine h.unmark hleft ht.1 (fun hx => ?_) trivial fun _ => ha
  exact h.unmarked (.inl hx.symm) (by rw [ht.2]; exact nofun)

theorem Good.helpReady
    (ht : Taken s.toCore tok p t) (hc : s.cnt t ≠ 0) (hi : s.Idle t) :
    Marked T (exec T s p (s.cur p) c (.helpReady w t)) := by
  rw [exec]
  split_ifs
  · exact h.marked_switch hi (.inl ht) (.inr hc) rfl rfl
  · exact h.here hleft ha trivial

theorem Good.ownLock {fresh : Bool} (hf : Fits T s.toCore tok p (s.cur p) (.ownLock w fresh)) :
    Marked T (exec T s p (s.cur p) c (.ownLock w fresh)) := by
  rw [exec]
  split_ifs with hlock hfresh
  · refine ⟨tok, h.goto hleft ?_ fun _ => ha⟩
    cases fresh with
    | true => exact hf.1
    | false => exact h.taken_of_cnt (.inl rfl) hf
  · subst hfresh
    exact h.here hleft ha hf
  · exact h.here hleft ha trivial

theorem Good.inc (ht : Taken s.toCore tok p (s.cur p)) :
    Marked T (exec T s p (s.cur p) c (.inc w)) :=
  ⟨tok, h.setCnt hleft ht (fun h0 => ha.resolve_right fun hc => hc h0) trivial
    fun _ => .inr (Nat.succ_ne_zero _)⟩

end

theorem Good.dirtyCnt : Marked T (exec T s p (s.cur p) c .dirtyCnt) := by
  rw [exec]
  split_ifs with hc
  · exact h.here hleft ha hc
  · exact h.here hleft ha trivial

theorem Good.returned (r : Ret L) : Marked T (exec T s p (s.cur p) c (.returned r)) := by
  rw [exec]
  split_ifs
  · exact h.ret_failed hleft r
  · cases r with
    | sched k => cases k <;> exact h.here hleft ha trivial
    | _ => exact h.here hleft ha trivial

end Away

theorem Good.ownCas (w : Want L) (hh : T.home (s.cur p) = p) (hc : s.cnt (s.cur p) = 0) :
    Marked T (exec T s p (s.cur p) c (.ownCas w)) := by
  rw [exec]
  split_ifs with hr
  · exact h.mark hleft nofun (.inl hr) (fun _ => .inl (.inl rfl)) (fun _ => .inl rfl)
      ⟨⟨update_self .., rul_setRul_self _⟩, hh, hc⟩ fun _ => .inl hh
  · exact h.marked_goto hleft ⟨hh, hc⟩ fun _ => .inl hh

omit [DecidableEq Cpu] [DecidableEq L] in
theorem Good.reset {l : Pc C L} (ht : Taken s.toCore tok p (s.cur p)) (hh : T.home (s.cur p) = p)
    (hc : s.cnt (s.cur p) = 0)
    (hl : Fits T (s.setRul (s.cur p) .notRunning) (update tok (s.cur p) none) p (s.cur p) l) :
    Marked T ((s.withCore (s.setRul (s.cur p) .notRunning)).goto (s.cur p) l) :=
  h.unmark hleft ht.1 (fun _ => ⟨hh, hc⟩) hl fun _ => .inl hh

theorem Good.dec (hc : s.cnt (s.cur p) ≠ 0) :
    Marked T (exec T s p (s.cur p) c (.dec (s.cur p))) := by
  have ht : Taken s.toCore tok p (s.cur p) := h.taken_of_cnt (.inl rfl) hc
  refine ⟨tok, h.setCnt hleft ht (fun h0 => (hc h0).elim) ?_ fun hl => ?_⟩
  · split_ifs with h0
    · exact ⟨rfl, ht, h0.2, (update_self ..).trans h0.1⟩
    · trivial
  · split_ifs at hl with h0
    · exact .inl h0.2
    · cases hl

theorem Good.dirty : Marked T (exec T s p (s.cur p) c .dirty) := by
  rw [exec]
  split_ifs with hx hh
  · exact h.marked_goto hleft trivial nofun
  · exact h.marked_goto hleft ⟨hx, hh⟩ nofun
  · exact h.marked_goto hleft trivial nofun

theorem Good.dirtyCheck : Marked T (exec T s p (s.cur p) c .dirtyCheck) := by
  rw [exec]
  split_ifs with hc
  · exact h.marked_goto hleft trivial nofun
  · refine h.marked_goto hleft trivial fun _ => ?_
    by_cases hh : T.home (s.cur p) = p
    · exact .inl hh
    · exact .inr fun h0 => hc ⟨h0, hh⟩

theorem Good.dirtyPreempt (hh : T.home (s.cur p) = p) (hc : s.cnt (s.cur p) = 0) :
    Marked T (exec T s p (s.cur p) c .dirtyPreempt) := by
  rw [exec]
  split_ifs with hr
  · have ht : Taken s.toCore tok p (s.cur p) :=
      (h.standing p _ (.inl rfl)).resolve_right fun hs => hs.2.2 hr
    exact h.marked_goto hleft ⟨ht, hh, hc⟩ fun _ => .inl hh
  · exact h.marked_goto hleft trivial fun _ => .inl hh

theorem Good.schedLoop (k : After L) : Marked T (exec T s p (s.cur p) c (.schedLoop k)) := by
  rw [exec]
  split_ifs with hh hn hx
  · exact h.marked_goto hleft trivial fun _ => .inl hh
  · exact h.marked_goto hleft ⟨hx, hn⟩ nofun
  · exact ⟨tok, h⟩
  · refine h.marked_goto hleft ⟨fun hx => hh ?_, T.home_kernel p⟩ nofun
    rw [← hx]
    exact T.home_kernel p

theorem Good.dispRul (r : Ret L) (hne : t ≠ s.cur p) (hh : T.home t = p) (hc : s.cnt t = 0) :
    Marked T (exec T s p (s.cur p) c (.dispRul t r)) := by
  rw [exec]
  split_ifs with hr
  · have hr : s.rul t ≠ .running := by
      rw [hr]
      exact nofun
    exact h.marked_goto hleft ⟨hh, h.idle hr (not_busy_home hleft hne hh), hc, hr⟩ nofun
  · exact h.marked_goto hleft ⟨hne, hh⟩ nofun

theorem Good.dispCas (r : Ret L) (hne : t ≠ s.cur p) (hh : T.home t = p) :
    Marked T (exec T s p (s.cur p) c (.dispCas t r)) := by
  rw [exec]
  split_ifs with hr
  · have hi : s.Idle t := h.idle (by rw [hr]; exact nofun) (not_busy_home hleft hne hh)
    exact h.mark hleft nofun (.inl hr) (fun _ => .inr (.inl hh)) (fun _ => .inl rfl)
      ⟨hh, ⟨update_self .., rul_setRul_self _⟩, hi⟩ nofun
  · exact h.ret_failed hleft r

theorem Good.dispAgain (r : Ret L) (hh : T.home t = p) (ht : Taken s.toCore tok p t) (hi : s.Idle t)
    : Marked T (exec T s p (s.cur p) c (.dispAgain t r)) := by
  rw [exec]
  split_ifs with hc
  · exact h.marked_goto hleft ⟨hh, ht, hi, hc⟩ nofun
  · exact h.marked_goto hleft ⟨hh, hi, ht⟩ nofun

theorem Good.dispReset (r : Ret L) (hh : T.home t = p) (ht : Taken s.toCore tok p t) (hi : s.Idle t)
    (hc : s.cnt t = 0) : Marked T (exec T s p (s.cur p) c (.dispReset t r)) := by
  refine h.unmark hleft ht.1 (fun _ => ⟨hh, hc⟩) ⟨hh, hi, hc, ?_⟩ nofun
  rw [rul_setRul_self]
  exact nofun

omit [DecidableEq L] h hleft in
theorem pc_dispatchHelper (t : C) (r : Ret L) : (s.dispatchHelper T p t r).pc = s.pc := by
  cases r with
  | sched k =>
    rw [State.dispatchHelper]
    split_ifs <;> rfl
  | _ => rfl

theorem Good.dispReady {taken : Bool} (r : Ret L)
    (hf : Fits T s.toCore tok p (s.cur p) (.dispReady t taken r)) :
    Marked T (exec T s p (s.cur p) c (.dispReady t taken r)) := by
  obtain ⟨hh, hi, ht⟩ := hf
  rw [exec]
  split_ifs
  · refine h.marked_switch hi ?_ (.inl hh) rfl (pc_dispatchHelper t r)
    cases taken with
    | true => exact .inl ht
    | false => exact .inr ⟨hh, ht⟩
  · exact h.ret_failed hleft r

theorem Good.exec
    (hdec : ∀ o, s.pc (s.cur p) = .dec o → o = s.cur p ∧ s.cnt (s.cur p) ≠ 0) :
    Marked T (exec T s p (s.cur p) c (s.pc (s.cur p))) := by
  have hf := h.fits p
  have ha := h.away p
  generalize s.pc (s.cur p) = l at hf ha hdec ⊢
  cases l with
  | run => exact h.begin hleft (ha rfl) c.op
  | halt => exact ⟨tok, h⟩
  | test w => exact h.test hleft (ha rfl) w _
  | loop w => exact h.loop hleft (ha rfl) w _
  | again w =>
    rw [SwitchLock.exec]
    split_ifs
    · cases c.deref <;> exact h.marked_goto hleft trivial ha
    · exact h.marked_goto hleft trivial ha
  | helpLoad w v t =>
    rw [SwitchLock.exec]
    split_ifs <;> exact h.marked_goto hleft trivial ha
  | helpCas w v t => exact h.helpCas hleft (ha rfl) w v t
  | helpCnt w v t => exact h.helpCnt hleft (ha rfl) w v hf
  | helpLock w v t =>
    rw [SwitchLock.exec]
    split_ifs
    · exact h.marked_goto hleft hf ha
    · exact h.marked_goto hleft hf.1 ha
  | helpStore w t => exact h.helpStore hleft (ha rfl) w hf.1 hf.2.1 hf.2.2
  | helpReset w t => exact h.helpReset hleft (ha rfl) w hf
  | helpReady w t => exact h.helpReady hleft (ha rfl) w hf.1 hf.2.1 hf.2.2
  | helped w => exact h.marked_goto hleft trivial ha
  | failed w =>
    rw [SwitchLock.exec]
    cases c.op <;> exact h.marked_goto hleft trivial fun _ => ha rfl
  | failedHome w =>
    rw [SwitchLock.exec]
    split_ifs
    · exact h.marked_goto hleft trivial ha
    · exact h.marked_goto hleft trivial nofun
  | ownCnt w =>
    rw [SwitchLock.exec]
    split_ifs with hc
    · have h0 : s.cnt (s.cur p) = 0 := Nat.lt_one_iff.mp hc
      exact h.marked_goto hleft ⟨(ha rfl).resolve_right fun hn => hn h0, h0⟩ ha
    · exact h.marked_goto hleft (fun h0 => hc (Nat.lt_one_iff.mpr h0)) ha
  | ownLoad w =>
    rw [SwitchLock.exec]
    split_ifs <;> exact h.marked_goto hleft hf ha
  | ownCas w => exact h.ownCas hleft w hf.1 hf.2
  | ownLock w fresh => exact h.ownLock hleft (ha rfl) w hf
  | ownReset w | dirtyStore => exact h.reset hleft hf.1 hf.2.1 hf.2.2 trivial
  | inc w => exact h.inc hleft (ha rfl) w hf
  | clear l =>
    rw [SwitchLock.exec]
    cases (s.lock l).owner <;> exact h.marked_goto hleft trivial ha
  | clearOwner l o => exact ⟨tok, h.goto hleft trivial ha⟩
  | dec o =>
    obtain ⟨rfl, hc⟩ := hdec o rfl
    exact h.dec hleft hc
  | decReset o =>
    obtain ⟨rfl, ht, hh, hc⟩ := hf
    exact h.reset hleft ht hh hc trivial
  | dirty => exact h.dirty hleft
  | dirtyCheck => exact h.dirtyCheck hleft
  | dirtyCnt => exact h.dirtyCnt hleft (ha rfl)
  | dirtyPreempt => exact h.dirtyPreempt hleft hf.1 hf.2
  | sched k => exact ⟨tok, h.goto hleft trivial nofun⟩
  | schedLoop k => exact h.schedLoop hleft k
  | dispCnt t r =>
    rw [SwitchLock.exec]
    split_ifs with hc
    · exact h.marked_goto hleft ⟨hf.1, hf.2, hc⟩ nofun
    · exact h.marked_goto hleft hf nofun
  | dispRul t r => exact h.dispRul hleft r hf.1 hf.2.1 hf.2.2
  | dispLoad t r =>
    rw [SwitchLock.exec]
    split_ifs
    · exact h.marked_goto hleft hf nofun
    · exact h.ret_failed hleft r
  | dispCas t r => exact h.dispCas hleft r hf.1 hf.2
  | dispAgain t r => exact h.dispAgain hleft r hf.1 hf.2.1 hf.2.2
  | dispReset t r => exact h.dispReset hleft r hf.1 hf.2.1 hf.2.2.1 hf.2.2.2
  | dispReady t taken r => exact h.dispReady hleft r hf
  | returned r => exact h.returned hleft (ha rfl) r

end Places

end Fiasco.SwitchLock
