import Fiasco.Sched.Alert
import Fiasco.Sched.Custody
import Fiasco.Sched.Progress

/-!
# No migration is forgotten

The CPU that stores a migration reads the home CPU and processes the migration there, or puts the
context into the queue of the home CPU. It does nothing if the context has moved to another CPU in
the meantime: who has moved it puts it into the queue of its new CPU, where the migration is found.
Nobody looks there if the new CPU is offline or is the one that has moved the context.
-/
namespace Fiasco.Sched

open Interleaving
open Machine (run)
open scoped Machine
variable {Cpu M D : Type}

def Ret.deferred : Ret Cpu → Bool
  | .loop mq => mq
  | .rest | .unlock _ _ | .self _ => false

def Attends (target : M → Cpu) (g : Shared Cpu M D) : Pc Cpu M D → Prop
  | .stale _ | .readHome | .startLoad _ | .request _ _ => True
  | .xcpuLock q | .xcpuCheck q => g.home = q
  | .startCas _ m => g.migration = some m
  | .awayDone _ m => g.home = target m
  | .awayUnlock _ t | .toLock _ t | .toFirst _ t | .toSecond _ t => g.home = t
  | .irqLoop _ mq | .requestDrq _ mq | .irqEnd _ mq => mq = true
  | .drqs k | .drqsLoop k | .drqsRun _ k | .drqsClear k => k.deferred = true
  | _ => False

def Pending (g : Shared Cpu M D) : Prop := g.migration ≠ none ∧ g.queued = none

def Attended (target : M → Cpu) (s : State Cpu M D) : Prop :=
  Answered Pending (fun _ g l => Attends target g l) s

def Pc.first : Pc Cpu M D → Option Cpu
  | .toFirst _ t => some t
  | _ => none

/-- No migration is pending when `migrate_to` has moved the context to an offline CPU or to the
current one, and does not use the queue. -/
def Heeded (s : State Cpu M D) (a : Cpu × Choice Cpu M D) : Prop :=
  (∀ t ∈ (s.loc a.1).first, s.shared.home = t → s.shared.online t = false → s.shared.migration = none) ∧
    ∀ t ∈ (s.loc a.1).second, s.shared.home = t → s.shared.online t = true ∧
      (t = a.1 → s.shared.queued = none → s.shared.migration = none)

theorem Heeded.sound {s : State Cpu M D} {a : Cpu × Choice Cpu M D} (h : Heeded s a) : Sound s a :=
  fun t ht hhome => (h.2 t ht hhome).1

def Cares (target : M → Cpu) (g : Shared Cpu M D) (l : Pc Cpu M D) (r : Shared Cpu M D × Pc Cpu M D) :
    Prop :=
  Pending r.1 → Attends target r.1 r.2 ∨
    Pending g ∧ ¬ Attends target g l ∧ r.1.home = g.home ∧ r.1.migration = g.migration

section Step

variable {target : M → Cpu} {p q : Cpu} {g g' : Shared Cpu M D} {l l' : Pc Cpu M D}
  {r : Shared Cpu M D × Pc Cpu M D}

theorem Attends.congr (hhome : g'.home = g.home) (hm : g'.migration = g.migration)
    (h : Attends target g l) : Attends target g' l := by
  cases l with
  | xcpuLock q | xcpuCheck q | awayUnlock _ t | toLock _ t | toFirst _ t | toSecond _ t
  | awayDone _ m => exact hhome.trans h
  | startCas s m => exact hm.trans h
  | _ => exact h

theorem Cares.of_queued (h : r.1.queued ≠ none) : Cares target g l r := fun hr => (h hr.2).elim

theorem Cares.of_none (h : r.1.migration = none) : Cares target g l r := fun hr => (hr.1 h).elim

theorem Cares.of_attends (h : Attends target r.1 r.2) : Cares target g l r := fun _ => .inl h

theorem Cares.keep (hhome : g'.home = g.home) (hm : g'.migration = g.migration)
    (hq : g'.queued = g.queued) (hl : Attends target g l → Attends target g l') :
    Cares target g l (g', l') := by
  intro hr
  by_cases h : Attends target g l
  · exact .inl ((hl h).congr hhome hm)
  · exact .inr ⟨⟨hm ▸ hr.1, hq ▸ hr.2⟩, h, hhome, hm⟩

theorem Cares.quiet (hl : Attends target g l → Attends target g l') : Cares target g l (g, l') :=
  .keep rfl rfl rfl hl

variable [DecidableEq Cpu]

theorem Cares.enqueue (q : Cpu) (f : From) : Cares target g l (g.enqueue q f) := by
  rw [Shared.enqueue]
  split_ifs with hnone
  · exact .of_queued (by rintro ⟨⟩)
  · exact .of_queued (by rintro ⟨⟩)
  · exact .of_queued hnone

section

variable (hhome : g'.home = g.home) (hm : g'.migration = g.migration) (hq : g'.queued = g.queued)
include hhome hm hq

theorem Cares.source {s : Source Cpu} (hl : Attends target g l → g.migration = none) :
    Cares target g l (s.finish g') := by
  intro hr
  have hmig : (s.finish g').1.migration = g.migration := by cases s <;> exact hm
  have hqueued : (s.finish g').1.queued = g.queued := by cases s <;> exact hq
  refine .inr ⟨⟨hmig ▸ hr.1, hqueued ▸ hr.2⟩, fun h => hr.1 (hmig.trans (hl h)), ?_, hmig⟩
  cases s <;> exact hhome

end

variable [DecidableEq M] [DecidableEq D]

theorem Cares.exec (c : Choice Cpu M D)
    (hfirst : ∀ t ∈ l.first, g.home = t → g.online t = false → g.migration = none)
    (hsecond : ∀ t ∈ l.second, g.home = t → t = p → g.queued = none → g.migration = none) :
    Cares target g l (exec target p g c l) := by
  cases l with
  | exchange m =>
    refine .of_attends ?_
    rw [exec]
    split <;> trivial
  | readHome =>
    rw [exec]
    split_ifs
    · exact .quiet id
    · exact .quiet fun _ => rfl
  | xcpuCheck q =>
    rw [exec]
    split_ifs with hhome hon
    · exact .enqueue q .call
    · exact .quiet fun _ => trivial
    · exact .keep rfl rfl rfl fun h => hhome h
  | startLoad s =>
    rw [exec]
    split
    next m hm => exact .quiet fun _ => hm
    next hm => exact .source rfl rfl rfl fun _ => hm
  | startCas s m =>
    rw [exec]
    split_ifs with hm
    · exact .of_none rfl
    · exact .source rfl rfl rfl fun h => (hm h).elim
  | awayHome s m => exact .of_attends rfl
  | toFirst f t =>
    rw [exec]
    split_ifs with hoff
    · exact .of_none (hfirst t rfl hoff.1 hoff.2)
    · exact .quiet id
  | toSecond f t =>
    rw [exec]
    split_ifs with hgone hself
    · rcases hgone with hhome | hq
      · exact .keep rfl rfl rfl fun h => (hhome h).elim
      · exact .of_queued hq
    · rw [not_or, not_not, not_not] at hgone
      exact .of_none (hsecond t rfl hgone.1 hself hgone.2)
    · exact .enqueue t f
  | request curr mq =>
    rw [exec]
    split_ifs with hnone hcurr
    · exact .of_none hnone
    · exact .quiet fun _ => rfl
    · exact .quiet id
  | irqEnd curr mq =>
    rw [exec]
    split_ifs with hmq
    · exact .quiet fun _ => trivial
    · exact .quiet fun h => hmq h
  | drqCheck d q =>
    rw [exec]
    split_ifs
    · exact .enqueue q .call
    · exact .quiet (by rintro ⟨⟩)
    · exact .keep rfl rfl rfl (by rintro ⟨⟩)
  | _ =>
    simp only [exec, start, dequeueFirst, Shared.spin, Source.finish, Ret.finish]
    (repeat' split) <;>
      first
      | exact .keep rfl rfl rfl id
      | exact .keep rfl rfl rfl (by rintro ⟨⟩)
      | exact .of_attends trivial

theorem Attended.step {s : State Cpu M D} (h : Attended target s) {a : Cpu × Choice Cpu M D}
    (ha : Heeded s a) : Attended target (step target s a) := by
  rw [Sched.step]
  split_ifs
  · apply Answered.move h
    intro hpending hnot
    have hcares : Cares target s.shared (s.loc a.1) (exec target a.1 s.shared a.2 (s.loc a.1)) :=
      .exec a.2 ha.1 fun t ht hhome => (ha.2 t ht hhome).2
    obtain ⟨hp, hl, hhome, hm⟩ := (hcares hpending).resolve_left hnot
    exact ⟨hp, hl, fun j _ hj => hj.congr hhome hm⟩
  · exact h

end Step

section Run

variable {target : M → Cpu} {s : State Cpu M D}

def Served (target : M → Cpu) (s : State Cpu M D) : Prop :=
  (∃ p, Attends target s.shared (s.loc p)) ∨
    s.shared.queued = some s.shared.home ∧ s.shared.online s.shared.home = true ∧
      (s.shared.ipi s.shared.home = true ∨ ∃ p, Looks s.shared.home p (s.loc p))

structure Good (target : M → Cpu) (s : State Cpu M D) : Prop where
  shape : Shape target s
  locked : Locked s
  custody : Migrations s
  alerted : Alerted s
  attended : Attended target s

theorem Good.boot (home : Cpu) (online : Cpu → Bool) : Good target (boot home online : State Cpu M D) :=
  ⟨.boot home online, nofun, .boot home online, .boot home online, fun h => (h.1 rfl).elim⟩

theorem Good.served (h : Good target s) (hm : s.shared.migration ≠ none) : Served target s := by
  cases hq : s.shared.queued with
  | none => exact .inl (h.attended ⟨hm, hq⟩)
  | some q =>
    obtain ⟨rfl, hon⟩ := h.shape.shared q hq
    refine .inr ⟨hq, hon, ?_⟩
    by_cases hipi : s.shared.ipi s.shared.home = true
    · exact .inl hipi
    · exact .inr (h.alerted _ ⟨.inl hq, Bool.eq_false_iff.mpr hipi⟩)

variable [DecidableEq Cpu] [DecidableEq M] [DecidableEq D]

theorem Good.step (h : Good target s) {a : Cpu × Choice Cpu M D} (ha : Heeded s a) :
    Good target (step target s a) :=
  ⟨h.shape.step ha.sound, h.locked.step target a, h.custody.step target a, h.alerted.step target a,
    h.attended.step ha⟩

/-- No migration is marked twice, none is pending without a CPU that will process it, and all were
marked if no CPU has a step left. -/
structure Settled (target : M → Cpu) (s : State Cpu M D) : Prop where
  once : ∀ m, s.shared.done m ≤ 1
  served : s.shared.migration ≠ none → Served target s
  finished : Stuck target s →
    s.shared.migration = none ∧ ∀ m ∈ s.shared.migrations, s.shared.done m = 1

theorem Served.not_stuck (h : Served target s) (hrest : ∀ p, s.loc p = .rest) : ¬ Stuck target s := by
  intro hstuck
  rcases h with ⟨p, hp⟩ | ⟨-, hon, hipi | ⟨p, hp⟩⟩
  · rw [hrest p] at hp
    exact hp
  · cases ((hstuck _ hon).1 (hrest _)).symm.trans hipi
  · rw [hrest p] at hp
    rcases hp with hp | ⟨-, hp⟩
    · cases hp
    · cases hp

theorem Good.settled (h : Good target s) : Settled target s := by
  refine ⟨h.custody.le_one, h.served, fun hstuck => ?_⟩
  have hrest := hstuck.rest h.shape h.locked
  have hnone : s.shared.migration = none := by
    by_contra hm
    exact (h.served hm).not_stuck hrest hstuck
  refine ⟨hnone, fun m hm => ?_⟩
  refine (h.custody.rest (fun p => ?_) hm).resolve_left ?_
  · rw [hrest p]
    rfl
  · rw [Shared.pending, hnone]
    exact List.not_mem_nil

theorem settled_of_heeded (target : M → Cpu) (home : Cpu) (online : Cpu → Bool)
    (as : List (Cpu × Choice Cpu M D)) (h : Machine.Along (step target) Heeded (boot home online) as) :
    Settled target (run (step target) (boot home online) as) := by
  have hgood : Good target (run (step target) (boot home online) as) :=
    Machine.Along.invariant (fun (s : State Cpu M D) a (hs : Good target s) ha => hs.step ha)
      (.boot home online) h
  exact hgood.settled

end Run

instance [DecidableEq Cpu] [DecidableEq M] (s : State Cpu M D) (a : Cpu × Choice Cpu M D) :
    Decidable (Heeded s a) :=
  inferInstanceAs (Decidable ((∀ _ ∈ _, _) ∧ ∀ _ ∈ _, _))

section Runs

def twoOnline : Fin 3 → Bool := ![true, true, false]

def continueOn (p : Fin 3) (n : ℕ) : List (Fin 3 × Choice (Fin 3) (Fin 2) (Fin 1)) :=
  List.replicate n (p, ⟨.run, false, false⟩)

def begins (p : Fin 3) (op : Op (Fin 3) (Fin 2) (Fin 1)) : Fin 3 × Choice (Fin 3) (Fin 2) (Fin 1) :=
  (p, ⟨op, false, false⟩)

def fetched : List (Fin 3 × Choice (Fin 3) (Fin 2) (Fin 1)) :=
  begins 0 (.migrate 0) :: continueOn 0 6 ++ begins 1 (.migrate 1) :: continueOn 1 2 ++ continueOn 0 8 ++
    continueOn 1 2

theorem not_settled_fetched :
    ¬ Settled ![0, 1] (run (step ![0, 1]) (boot 2 twoOnline) fetched) := by
  intro h
  have hrest : ∀ p, (run (step ![0, 1]) (boot 2 twoOnline) fetched).loc p = .rest := by decide
  have hstuck : Stuck ![0, 1] (run (step ![0, 1]) (boot 2 twoOnline) fetched) :=
    fun p _ => ⟨fun _ => by revert p; decide, fun hp => (hp (hrest p)).elim⟩
  have hpending : (run (step ![0, 1]) (boot 2 twoOnline) fetched).shared.migration ≠ none := by
    decide
  exact hpending (h.finished hstuck).1

def fetchedFirst : List (Fin 3 × Choice (Fin 3) (Fin 2) (Fin 1)) :=
  begins 0 (.migrate 0) :: continueOn 0 14 ++ begins 1 (.migrate 1) :: continueOn 1 5 ++
    begins 0 .interrupt :: continueOn 0 17 ++ begins 1 .interrupt :: continueOn 1 6

theorem settled_fetchedFirst :
    Machine.Along (step ![0, 1]) Heeded (boot 2 twoOnline) fetchedFirst ∧
      Settled ![0, 1] (run (step ![0, 1]) (boot 2 twoOnline) fetchedFirst) ∧
      (run (step ![0, 1]) (boot 2 twoOnline) fetchedFirst).shared.done 1 = 1 := by
  have h : Machine.Along (step ![0, 1]) Heeded (boot 2 twoOnline) fetchedFirst := by decide
  refine ⟨h, settled_of_heeded ![0, 1] 2 twoOnline fetchedFirst h, ?_⟩
  decide

end Runs

end Fiasco.Sched
