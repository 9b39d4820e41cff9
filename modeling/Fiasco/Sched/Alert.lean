import Fiasco.Sched.Shape

/-!
# A pending queue that is not empty is looked at

The CPU that puts the first entry into a queue sends an interrupt to the CPU of the queue. That one
takes entries until it finds the queue empty, so it is interrupted, is still at it, or is going to be
interrupted.
-/

namespace Fiasco.Sched

open Interleaving Function

variable {Cpu M D : Type}

def From.looping : From → Bool
  | .request => true
  | .call | .deferred => false

def Ret.looping : Ret Cpu → Bool
  | .rest => false
  | .loop _ => true
  | .unlock _ f | .self f => f.looping

def Pc.looping : Pc Cpu M D → Bool
  | .startLoad s | .startCas s _ | .compare s _ | .sameDone s _ => s.origin.looping
  | .awayHome s _ | .awayDone s _ | .awayUnlock s _ => s.origin.looping
  | .awayLock f _ | .toLock f _ | .toFirst f _ | .toSecond f _ | .send _ f => f.looping
  | .irqLoop _ _ | .request _ _ | .requestAfter | .requestDrq _ _ => true
  | .drqs k | .drqsLoop k | .drqsRun _ k | .drqsClear k => k.looping
  | _ => false

def Pc.sends : Pc Cpu M D → Option Cpu
  | .send q _ => some q
  | _ => none

def Waiting (q : Cpu) (g : Shared Cpu M D) : Prop :=
  (g.queued = some q ∨ 0 < g.others q) ∧ g.ipi q = false

def Looks (q p : Cpu) (l : Pc Cpu M D) : Prop := l.sends = some q ∨ p = q ∧ l.looping = true

def Alerted (s : State Cpu M D) : Prop :=
  ∀ q, Answered (Waiting q) (fun p _ l => Looks q p l) s

def Alerts (q p : Cpu) (g : Shared Cpu M D) (l : Pc Cpu M D) (r : Shared Cpu M D × Pc Cpu M D) : Prop :=
  Waiting q r.1 → Looks q p r.2 ∨ Waiting q g ∧ ¬ Looks q p l

section Step

variable {target : M → Cpu} {p q : Cpu} {g g' : Shared Cpu M D} {l l' : Pc Cpu M D}

theorem From.looping_finish (f : From) : (f.finish : Pc Cpu M D).looping = f.looping := by
  cases f <;> rfl

theorem Alerts.of_waiting {r : Shared Cpu M D × Pc Cpu M D} (h : Waiting q r.1 → Waiting q g)
    (hsends : l.sends = none) (hl : r.2.looping = l.looping) : Alerts q p g l r := by
  intro hw
  by_cases hp : p = q ∧ l.looping = true
  · exact .inl (.inr ⟨hp.1, hl.trans hp.2⟩)
  · refine .inr ⟨h hw, ?_⟩
    rintro (hs | hl)
    · rw [hsends] at hs
      cases hs
    · exact hp hl

theorem Alerts.keep (hqueued : g'.queued = g.queued) (hothers : g'.others = g.others)
    (hipi : g'.ipi = g.ipi) (hsends : l.sends = none) (hl : l'.looping = l.looping) :
    Alerts q p g l (g', l') := by
  refine .of_waiting (fun h => ?_) hsends hl
  rwa [Waiting, hqueued, hothers, hipi] at h

variable [DecidableEq Cpu] {r : Cpu}

theorem Alerts.put {f : From} (hqueued : ∀ t, g'.queued = some t → g.queued = some t ∨ t = r)
    (hothers : ∀ t, g'.others t = g.others t ∨ t = r) (hipi : g'.ipi = g.ipi) (hsends : l.sends = none)
    (hl : f.looping = l.looping) :
    Alerts q p g l (g', if g.isEmpty r then .send r f else f.finish) := by
  have hlooping : (if g.isEmpty r then .send r f else f.finish : Pc Cpu M D).looping = l.looping := by
    split_ifs
    · exact hl
    · exact f.looping_finish.trans hl
  have hother (hq : q ≠ r) (h : Waiting q g') : Waiting q g := by
    refine ⟨?_, hipi ▸ h.2⟩
    rcases h.1 with hqq | ho
    · exact .inl ((hqueued q hqq).resolve_right hq)
    · exact .inr ((hothers q).resolve_right hq ▸ ho)
  by_cases hq : q = r
  · by_cases hempty : g.isEmpty r = true
    · intro _
      rw [if_pos hempty, hq]
      exact .inl (.inl rfl)
    · refine .of_waiting (fun h => ⟨?_, hipi ▸ h.2⟩) hsends hlooping
      rw [hq]
      by_contra hnone
      rw [not_or] at hnone
      exact hempty (decide_eq_true ⟨hnone.1, Nat.eq_zero_of_not_pos hnone.2⟩)
  · exact .of_waiting (hother hq) hsends hlooping

theorem Alerts.enqueue {f : From} (hsends : l.sends = none) (hl : f.looping = l.looping) :
    Alerts q p g l (g.enqueue r f) := by
  rw [Shared.enqueue]
  split
  · refine .put (fun t ht => .inr ?_) (fun t => .inl rfl) rfl hsends hl
    exact (Option.some.inj ht).symm
  · exact .keep rfl rfl rfl hsends (f.looping_finish.trans hl)

theorem Alerts.dequeueFirst (other curr mq : Bool) :
    Alerts q p g (.irqLoop curr mq) (dequeueFirst p g other curr mq) := by
  rw [Sched.dequeueFirst]
  split_ifs with hfree hfirst hothers
  · refine .of_waiting (fun h => ⟨.inr ?_, h.2⟩) rfl rfl
    exact h.1.resolve_left (by simp)
  · refine .of_waiting (fun h => ⟨h.1.imp_right fun ho => ?_, h.2⟩) rfl rfl
    by_cases hq : q = p
    · rw [hq]
      exact hothers
    · change 0 < update g.others p (g.others p - 1) q at ho
      rwa [update_of_ne hq] at ho
  · -- the queue is empty
    intro h
    refine .inr ⟨h, ?_⟩
    rintro (hs | ⟨rfl, -⟩)
    · cases hs
    · rcases h.1 with hqueued | ho
      · exact hfirst ⟨hqueued, .inr (Nat.eq_zero_of_not_pos hothers)⟩
      · exact hothers ho
  · exact .keep rfl rfl rfl rfl rfl

theorem Alerts.loop {r : Shared Cpu M D × Pc Cpu M D} (hl : r.2.looping = true)
    (h : q ≠ p → Waiting q r.1 → Waiting q g) : Alerts q p g .rest r := by
  intro hw
  by_cases hq : q = p
  · exact .inl (.inr ⟨hq.symm, hl⟩)
  · refine .inr ⟨h hq hw, ?_⟩
    rintro (hs | ⟨heq, -⟩)
    · cases hs
    · exact hq heq.symm

variable [DecidableEq M] [DecidableEq D]

theorem Alerts.start (curr : Bool) (op : Op Cpu M D) : Alerts q p g .rest (start p g curr op) := by
  cases op with
  | interrupt =>
    rw [Sched.start]
    split_ifs with hipi
    · apply Alerts.loop rfl
      intro hq h
      exact ⟨h.1, (update_of_ne hq ..).symm.trans h.2⟩
    · exact .keep rfl rfl rfl rfl rfl
  | takeOffline =>
    rw [Sched.start]
    split_ifs
    · exact .keep rfl rfl rfl rfl rfl
    · exact .loop rfl fun _ h => h
    · exact .keep rfl rfl rfl rfl rfl
  | enqueueOther r =>
    rw [Sched.start]
    split
    · refine .put (f := .call) (fun t ht => .inl ht) (fun t => ?_) rfl rfl rfl
      by_cases ht : t = r
      · exact .inr ht
      · exact .inl (update_of_ne ht ..)
    · exact .keep rfl rfl rfl rfl rfl
  | _ =>
    rw [Sched.start]
    split_ifs <;> exact .keep rfl rfl rfl rfl rfl

theorem Alerts.exec (target : M → Cpu) (c : Choice Cpu M D) (l : Pc Cpu M D) :
    Alerts q p g l (exec target p g c l) := by
  cases l with
  | rest => exact .start c.curr c.op
  | xcpuCheck q | drqCheck d q =>
    rw [Sched.exec]
    split_ifs
    · exact .enqueue rfl rfl
    · exact .keep rfl rfl rfl rfl rfl
    · exact .keep rfl rfl rfl rfl rfl
  | awayHome s m =>
    refine .of_waiting (fun h => ⟨h.1.imp_left fun hq => ?_, h.2⟩) rfl rfl
    change (if g.queued = some p then none else g.queued) = some q at hq
    split_ifs at hq
    exact hq
  | toSecond f t =>
    rw [Sched.exec]
    split_ifs
    · exact .keep rfl rfl rfl rfl f.looping_finish
    · exact .keep rfl rfl rfl rfl rfl
    · exact .enqueue rfl rfl
  | send r f =>
    intro h
    have hr : q ≠ r := by
      rintro rfl
      cases (update_self ..).symm.trans h.2
    by_cases hl : p = q ∧ f.looping = true
    · exact .inl (.inr ⟨hl.1, f.looping_finish.trans hl.2⟩)
    · refine .inr ⟨⟨h.1, (update_of_ne hr ..).symm.trans h.2⟩, ?_⟩
      rintro (hs | hl')
      · exact hr (Option.some.inj hs).symm
      · exact hl hl'
  | irqLoop curr mq => exact .dequeueFirst c.other curr mq
  | _ =>
    simp only [Sched.exec, Shared.spin, Source.finish, Ret.finish]
    (repeat' split) <;>
      first | exact .keep rfl rfl rfl rfl rfl | exact .keep rfl rfl rfl rfl (From.looping_finish _)

theorem Alerted.step {s : State Cpu M D} (h : Alerted s) (target : M → Cpu) (a : Cpu × Choice Cpu M D) :
    Alerted (step target s a) := by
  rw [Sched.step]
  split_ifs
  · intro q
    apply (h q).move
    intro hw hl
    have hr := (Alerts.exec target a.2 (s.loc a.1) hw).resolve_left hl
    exact ⟨hr.1, hr.2, fun _ _ hj => hj⟩
  · exact h

end Step

theorem Alerted.boot (home : Cpu) (online : Cpu → Bool) : Alerted (boot home online : State Cpu M D) := by
  rintro q ⟨h | h, -⟩
  · cases h
  · cases h

end Fiasco.Sched
