import Fiasco.Sched.Shape

/-!
# Nobody waits for a lock forever

A CPU that holds the lock of a queue is in an operation that releases it and waits for no other lock.
So a CPU that waits for a lock waits for one that has a step to take, and in a state in which no CPU
has one all are at rest.
-/

namespace Fiasco.Sched

open Function

open Interleaving

variable {Cpu M D : Type}

def Source.held : Source Cpu → Option Cpu
  | .home _ => none
  | .remote q => some q

def Ret.held : Ret Cpu → Option Cpu
  | .unlock t _ => some t
  | .rest | .loop _ | .self _ => none

def Pc.held (p : Cpu) : Pc Cpu M D → Option Cpu
  | .xcpuCheck q | .drqCheck _ q => some q
  | .startLoad s | .startCas s _ | .compare s _ | .sameDone s _ => s.held
  | .awayHome s _ | .awayDone s _ | .awayUnlock s _ => some (s.lock p)
  | .toFirst _ t | .toSecond _ t => some t
  | .deqTake _ o | .deqCheck _ o | .deqClear _ o | .deqRun _ o => o
  | .drqs k | .drqsLoop k | .drqsRun _ k | .drqsClear k => k.held
  | _ => none

def Pc.awaited (p : Cpu) : Pc Cpu M D → Option Cpu
  | .xcpuLock q | .toLock _ q | .drqLock _ q => some q
  | .awayLock _ _ | .irqLoop _ _ => some p
  | _ => none

def Locked (s : State Cpu M D) : Prop :=
  ∀ p q, s.shared.lock q = some p → (s.loc p).held p = some q

structure Locks (p : Cpu) (g : Shared Cpu M D) (r : Shared Cpu M D × Pc Cpu M D) : Prop where
  self : ∀ q, r.1.lock q = some p → r.2.held p = some q
  other : ∀ j q, j ≠ p → r.1.lock q = some j → g.lock q = some j

section Step

variable {target : M → Cpu} {p q : Cpu} {g g' : Shared Cpu M D} {l l' : Pc Cpu M D}

theorem From.held_finish (f : From) : (f.finish : Pc Cpu M D).held p = none := by
  cases f <;> rfl

variable [DecidableEq Cpu]

section

variable (h : ∀ q, g.lock q = some p → l.held p = some q)
include h

omit [DecidableEq Cpu] in
theorem Locks.keep (hlock : g'.lock = g.lock)
    (hheld : l'.held p = l.held p) : Locks p g (g', l') := by
  constructor
  · intro q hq
    rw [hlock] at hq
    exact hheld.trans (h q hq)
  · intro j q _ hq
    rw [hlock] at hq
    exact hq

theorem Locks.release
    (hlock : g'.lock = update g.lock q none) (hheld : l.held p = some q) : Locks p g (g', l') := by
  have hne {j r : Cpu} (hr : g'.lock r = some j) : r ≠ q ∧ g.lock r = some j := by
    rw [hlock] at hr
    by_cases heq : r = q
    · rw [heq, update_self] at hr
      cases hr
    · rw [update_of_ne heq] at hr
      exact ⟨heq, hr⟩
  constructor
  · intro r hr
    obtain ⟨hrq, hlr⟩ := hne hr
    have hboth := (h r hlr).symm.trans hheld
    exact (hrq (Option.some.inj hboth)).elim
  · intro j r _ hr
    exact (hne hr).2

theorem Locks.acquire (hl : l.held p = none)
    (hlock : g'.lock = update g.lock q (some p)) (hheld : l'.held p = some q) : Locks p g (g', l') := by
  constructor
  · intro r hr
    by_cases heq : r = q
    · rw [heq]
      exact hheld
    · rw [hlock, update_of_ne heq] at hr
      cases hl.symm.trans (h r hr)
  · intro j r hj hr
    rw [hlock] at hr
    by_cases heq : r = q
    · rw [heq, update_self] at hr
      exact (hj (Option.some.inj hr).symm).elim
    · rwa [update_of_ne heq] at hr

end

variable [DecidableEq M] [DecidableEq D]

theorem Locks.exec (target : M → Cpu) (c : Choice Cpu M D)
    (h : ∀ q, g.lock q = some p → l.held p = some q) : Locks p g (exec target p g c l) := by
  cases l <;> simp only [Sched.exec, start, dequeueFirst, Shared.spin, Shared.enqueue, Source.finish,
      Ret.finish] <;> (repeat' split) <;>
    first
    | exact .keep h rfl rfl
    | exact .keep h rfl (From.held_finish _)
    | exact .release h rfl rfl
    | exact .acquire h rfl rfl rfl

theorem Locked.step {s : State Cpu M D} (h : Locked s) (target : M → Cpu) (a : Cpu × Choice Cpu M D) :
    Locked (step target s a) := by
  rw [Sched.step]
  split_ifs
  · have hl : Locks a.1 s.shared (Sched.exec target a.1 s.shared a.2 (s.loc a.1)) := .exec target a.2 (h a.1)
    intro j q hq
    by_cases hj : j = a.1
    · subst hj
      rw [System.move_self]
      exact hl.self q hq
    · rw [System.move_of_ne hj]
      exact h j q (hl.other j q hj hq)
  · exact h

theorem exec_ne_self (target : M → Cpu) (hl : l ≠ .rest) (c : Choice Cpu M D)
    (h : ∀ q, l.awaited p = some q → g.lock q = none) : exec target p g c l ≠ (g, l) := by
  have hpc {r : Shared Cpu M D × Pc Cpu M D} (hne : r.2 ≠ l) : r ≠ (g, l) := by
    rintro rfl
    exact hne rfl
  cases l with
  | rest => exact (hl rfl).elim
  | xcpuLock q | awayLock f m | toLock f t | drqLock d q =>
    rw [exec, Shared.spin, if_pos (h _ rfl)]
    exact hpc (by simp)
  | irqLoop curr mq =>
    rw [exec, dequeueFirst, if_pos (h p rfl)]
    split_ifs with hfirst hothers
    · exact hpc (by simp)
    · intro heq
      have hp : update g.others p (g.others p - 1) p = g.others p :=
        congrArg (fun r => r.1.others p) heq
      rw [update_self] at hp
      omega
    · exact hpc (by simp)
  | _ =>
    simp only [exec, Shared.enqueue, Source.finish, Ret.finish, From.finish]
    (repeat' split) <;> exact hpc (by simp)

end Step

section Stuck

variable [DecidableEq Cpu] [DecidableEq M] [DecidableEq D] {target : M → Cpu} {s : State Cpu M D}

def Stuck (target : M → Cpu) (s : State Cpu M D) : Prop :=
  ∀ p, s.shared.online p = true →
    (s.loc p = .rest → s.shared.ipi p = false) ∧ (s.loc p ≠ .rest → ∀ c, step target s (p, c) = s)

theorem Stuck.awaited (h : Stuck target s) (hs : Shape target s) {p : Cpu} (hp : s.loc p ≠ .rest) :
    ∃ q, (s.loc p).awaited p = some q ∧ s.shared.lock q ≠ none := by
  by_contra hfree
  have hon : s.shared.online p = true := (hs.loc p).online hp
  let c : Choice Cpu M D := ⟨.run, false, false⟩
  have hstep : s.move p (exec target p s.shared c (s.loc p)) = s := by
    have hsame := (h p hon).2 hp c
    rwa [step, if_pos hon] at hsame
  have hshared : (exec target p s.shared c (s.loc p)).1 = s.shared :=
    congrArg (fun s : State Cpu M D => s.shared) hstep
  have hloc : (exec target p s.shared c (s.loc p)).2 = s.loc p := by
    rw [← System.move_self (s := s) (r := exec target p s.shared c (s.loc p)), hstep]
  refine exec_ne_self target hp c (fun q hq => ?_) (Prod.ext hshared hloc)
  by_contra hne
  exact hfree ⟨q, hq, hne⟩

omit [DecidableEq Cpu] [DecidableEq M] [DecidableEq D] in
theorem awaited_of_held {p q : Cpu} {l : Pc Cpu M D} (h : l.held p = some q) : l.awaited p = none := by
  cases l <;> first | rfl | cases h

theorem Stuck.rest (h : Stuck target s) (hs : Shape target s) (hl : Locked s) (p : Cpu) :
    s.loc p = .rest := by
  by_contra hp
  obtain ⟨q, -, hq⟩ := h.awaited hs hp
  obtain ⟨j, hj⟩ := Option.ne_none_iff_exists'.mp hq
  have hheld := hl j q hj
  have hrest : s.loc j ≠ .rest := by
    intro heq
    rw [heq] at hheld
    cases hheld
  obtain ⟨r, hr, -⟩ := h.awaited hs hrest
  rw [awaited_of_held hheld] at hr
  cases hr

end Stuck

end Fiasco.Sched
