import Fiasco.Sched.Custody
import Fiasco.Sched.Shape

/-!
# No request is forgotten

The CPU that has enqueued a request reads the home CPU of the context and, on another CPU, puts the
context into the queue of the home CPU. It leaves the request to others if the context has moved, or
was in a queue before. Who has moved a context puts it into the queue of its new CPU or handles its
requests, and the home CPU handles the requests of a context it has taken from the queue or marks it
with `Thread_drq_ready`.
-/

namespace Fiasco.Sched

open Interleaving List
open Machine (run)
open scoped Machine
variable {Cpu M D : Type}

def Notes (target : M → Cpu) (d : D) (p : Cpu) (g : Shared Cpu M D) : Pc Cpu M D → Prop
  | .drqHome e | .deqTake e _ => e = d
  | .drqLock e q | .drqCheck e q => e = d ∧ g.home = q
  | .startLoad s | .startCas s _ | .compare s _ | .sameDone s _ | .awayHome s _ => s = .home .request
  | .awayLock f _ => f = .request
  | .awayDone _ m => g.home = target m
  | .awayUnlock _ t | .toLock _ t | .toFirst _ t | .toSecond _ t => g.home = t
  | .request _ _ | .requestDrq _ _ => True
  | .requestAfter => g.home = p
  | .drqs _ | .drqsLoop _ | .drqsRun _ _ => True
  | _ => False

def Pc.clears : Pc Cpu M D → Bool
  | .deqClear _ _ | .drqsClear _ => true
  | _ => false

def Ready (s : State Cpu M D) : Prop :=
  s.shared.drqReady = true ∧ ∀ p, (s.loc p).clears = false

def Noted (target : M → Cpu) (s : State Cpu M D) : Prop :=
  ∀ d ∈ s.shared.drqs, s.shared.queued ≠ none ∨ Ready s ∨ ∃ p, Notes target d p s.shared (s.loc p)

inductive Handles (target : M → Cpu) (d : D) (p : Cpu) (g : Shared Cpu M D) (l : Pc Cpu M D)
    (r : Shared Cpu M D × Pc Cpu M D) : Prop
  | gone (h : d ∉ r.1.drqs)
  | queued (h : r.1.queued ≠ none)
  | notes (h : Notes target d p r.1 r.2)
  | marks (hhome : g.home = p) (h : r.1.drqReady = true) (hl : r.2.clears = false)
  | keeps (hd : d ∈ g.drqs) (hq : g.queued = none) (hhome : r.1.home = g.home)
      (hl : ¬ Notes target d p g l)
      (hr : l.clears = false → r.1.drqReady = g.drqReady ∧ r.2.clears = false)

section Step

variable {target : M → Cpu} {d e : D} {p j q : Cpu} {g g' : Shared Cpu M D} {l l' : Pc Cpu M D}

theorem Notes.congr (hhome : g'.home = g.home) (h : Notes target d p g l) : Notes target d p g' l := by
  cases l with
  | drqLock e q | drqCheck e q => exact ⟨h.1, hhome.trans h.2⟩
  | awayDone _ m | awayUnlock _ t | toLock _ t | toFirst _ t | toSecond _ t | requestAfter =>
    exact hhome.trans h
  | _ => exact h

theorem Handles.keep (hdrqs : d ∈ g'.drqs → d ∈ g.drqs) (hqueued : g'.queued = g.queued)
    (hhome : g'.home = g.home) (hready : g'.drqReady = g.drqReady) (hc : l'.clears = false)
    (hl : Notes target d p g l → Notes target d p g l') : Handles target d p g l (g', l') := by
  by_cases hd : d ∈ g'.drqs
  · by_cases hn : Notes target d p g l
    · exact .notes ((hl hn).congr hhome)
    · by_cases hq : g'.queued = none
      · exact .keeps (hdrqs hd) (hqueued.symm.trans hq) hhome hn fun _ => ⟨hready, hc⟩
      · exact .queued hq
  · exact .gone hd

theorem Handles.quiet (hc : l'.clears = false) (hl : Notes target d p g l → Notes target d p g l') :
    Handles target d p g l (g, l') :=
  .keep id rfl rfl rfl hc hl

theorem Handles.clear {r : Shared Cpu M D × Pc Cpu M D} (hdrqs : r.1.drqs = g.drqs)
    (hqueued : r.1.queued = g.queued) (hhome : r.1.home = g.home) (hc : l.clears = true)
    (hl : ¬ Notes target d p g l) : Handles target d p g l r := by
  by_cases hd : d ∈ r.1.drqs
  · by_cases hq : r.1.queued = none
    · refine .keeps (hdrqs ▸ hd) (hqueued.symm.trans hq) hhome hl fun hf => ?_
      rw [hc] at hf
      cases hf
    · exact .queued hq
  · exact .gone hd

theorem From.clears_finish (f : From) : (f.finish : Pc Cpu M D).clears = false := by
  cases f <;> rfl

variable [DecidableEq Cpu]

theorem Handles.enqueue (q : Cpu) (f : From) : Handles target d p g l (g.enqueue q f) := by
  rw [Shared.enqueue]
  split_ifs with hnone
  · exact .queued (by rintro ⟨⟩)
  · exact .queued (by rintro ⟨⟩)
  · exact .queued hnone

theorem Handles.source {s : Source Cpu} (hs : AtSource p g s) (hdrqs : g'.drqs = g.drqs)
    (hqueued : g'.queued = g.queued) (hhome : g'.home = g.home) (hready : g'.drqReady = g.drqReady)
    (hl : Notes target d p g l → s = .home .request) : Handles target d p g l (s.finish g') := by
  cases s with
  | home f =>
    refine .keep (hdrqs ▸ id) hqueued hhome hready f.clears_finish fun hn => ?_
    cases hl hn
    exact hs
  | remote q => exact .keep (hdrqs ▸ id) hqueued hhome hready rfl fun hn => nomatch hl hn

variable [DecidableEq M] [DecidableEq D]

theorem Handles.deqTake {o : Option Cpu} (hnodup : g.drqs.Nodup) (c : Choice Cpu M D) :
    Handles target d p g (.deqTake e o) (exec target p g c (.deqTake e o)) := by
  have htake : Handles target d p g (.deqTake e o) ({ g with drqs := g.drqs.erase e }, .deqCheck e o) := by
    by_cases hde : e = d
    · refine .gone ?_
      rw [← hde]
      exact hnodup.not_mem_erase
    · exact .keep mem_of_mem_erase rfl rfl rfl rfl hde
  have hnot {g' : Shared Cpu M D} (he : e ∉ g.drqs) (hdrqs : g'.drqs = g.drqs)
      (hqueued : g'.queued = g.queued) (hhome : g'.home = g.home) (hready : g'.drqReady = g.drqReady) :
      Handles target d p g (.deqTake e o) (g', .rest) := by
    by_cases hde : e = d
    · refine .gone ?_
      rw [hdrqs, ← hde]
      exact he
    · exact .keep (hdrqs ▸ id) hqueued hhome hready rfl hde
  cases o with
  | none | some q =>
    rw [exec]
    split_ifs with he
    · exact htake
    · exact hnot he rfl rfl rfl rfl

theorem Handles.exec (hf : Fits target p g l) (hnodup : g.drqs.Nodup) (c : Choice Cpu M D) :
    Handles target d p g l (exec target p g c l) := by
  cases l with
  | xcpuCheck q =>
    rw [exec]
    split_ifs
    · exact .enqueue q .call
    · exact .quiet rfl (by rintro ⟨⟩)
    · exact .keep id rfl rfl rfl rfl (by rintro ⟨⟩)
  | startLoad s =>
    rw [exec]
    split
    · exact .quiet rfl id
    · exact .source hf rfl rfl rfl rfl id
  | startCas s m =>
    rw [exec]
    split_ifs
    · exact .keep id rfl rfl rfl rfl id
    · exact .source hf rfl rfl rfl rfl id
  | compare s m =>
    cases s with
    | home f =>
      rw [exec]
      split_ifs
      · exact .quiet rfl id
      · exact .quiet rfl Source.home.inj
    | remote q =>
      rw [exec]
      split_ifs <;> exact .quiet rfl id
  | sameDone s m =>
    rw [exec]
    apply Handles.source hf _ _ _ _ id <;> rfl
  | awayLock f m =>
    rw [exec, Shared.spin]
    split_ifs
    · exact .keep id rfl rfl rfl rfl (congrArg Source.home)
    · exact .quiet rfl id
  | toSecond f t =>
    rw [exec]
    split_ifs with hgone hself
    · rcases hgone with hhome | hq
      · exact .keep id rfl rfl rfl f.clears_finish fun h => (hhome h).elim
      · exact .queued hq
    · exact .notes trivial
    · exact .enqueue t f
  | requestAfter =>
    rw [exec]
    split_ifs with hhome
    · exact .notes trivial
    · exact .quiet rfl fun h => hhome h
  | requestDrq curr mq =>
    rw [exec]
    split_ifs with hnone hcurr
    · exact .gone (hnone ▸ not_mem_nil)
    · exact .notes trivial
    · exact .marks hf.1 rfl rfl
  | drqEnq e =>
    by_cases hde : e = d
    · exact .notes hde
    · refine .keep (fun hd => ?_) rfl rfl rfl rfl (by rintro ⟨⟩)
      exact (mem_append.mp hd).resolve_right fun h => hde (mem_singleton.mp h).symm
  | drqHome e =>
    rw [exec]
    split_ifs
    · exact .quiet rfl id
    · exact .quiet rfl fun h => ⟨h, rfl⟩
  | drqCheck e q =>
    rw [exec]
    split_ifs with hhome hon
    · exact .enqueue q .call
    · exact .quiet rfl And.left
    · exact .keep id rfl rfl rfl rfl fun h => hhome h.2
  | deqTake e o => exact .deqTake hnodup c
  | deqCheck e o =>
    rw [exec]
    split_ifs with hnone
    · exact .gone (hnone.1 ▸ not_mem_nil)
    · exact .quiet rfl (by rintro ⟨⟩)
  | deqClear e o => exact .clear rfl rfl rfl rfl id
  | drqs k =>
    rw [exec]
    split_ifs with hnone
    · refine .gone ?_
      have hdrqs : (k.finish g).1.drqs = g.drqs := by cases k <;> rfl
      rw [hdrqs, hnone]
      exact not_mem_nil
    · exact .notes trivial
  | drqsLoop k =>
    rw [exec]
    split
    · exact .notes trivial
    next hnone => exact .gone (hnone ▸ not_mem_nil)
  | drqsClear k => cases k <;> exact .clear rfl rfl rfl rfl id
  | _ =>
    simp only [exec, start, dequeueFirst, Shared.spin]
    (repeat' split) <;>
      first
      | exact .notes trivial
      | exact .notes rfl
      | exact .keep id rfl rfl rfl rfl id
      | exact .keep id rfl rfl rfl rfl (by rintro ⟨⟩)
      | exact .keep id rfl rfl rfl (From.clears_finish _) (by rintro ⟨⟩)

end Step

section Run

variable {target : M → Cpu} {s : State Cpu M D}

theorem Shape.clears_eq_false (hs : Shape target s) (hon : s.shared.online s.shared.home = true) {j : Cpu}
    (hj : j ≠ s.shared.home) : (s.loc j).clears = false := by
  have haway {q : Cpu} (h : Away j s.shared q) : False := by
    rw [h.1, h.2.1] at hon
    cases hon
  have hf := (hs.loc j).fits
  cases hl : s.loc j with
  | deqClear d o =>
    rw [hl] at hf
    cases o with
    | none => exact (hj hf.symm).elim
    | some q => exact (haway hf).elim
  | drqsClear k =>
    rw [hl] at hf
    cases k with
    | unlock t f => exact (haway hf).elim
    | rest | loop _ | self _ => exact (hj hf.symm).elim
  | _ => rfl

variable [DecidableEq Cpu]

theorem Ready.move {p : Cpu} {r : Shared Cpu M D × Pc Cpu M D} (hready : r.1.drqReady = true)
    (hself : r.2.clears = false) (hother : ∀ j, j ≠ p → (s.loc j).clears = false) :
    Ready (s.move p r) := by
  refine ⟨hready, fun j => ?_⟩
  by_cases hj : j = p
  · rw [hj, System.move_self]
    exact hself
  · rw [System.move_of_ne hj]
    exact hother j hj

variable [DecidableEq M] [DecidableEq D]

theorem Noted.step (h : Noted target s) (hs : Shape target s) (hr : Requests s)
    (a : Cpu × Choice Cpu M D) : Noted target (step target s a) := by
  rw [Sched.step]
  split_ifs with hp
  · intro d hd
    have hnodup : s.shared.drqs.Nodup := (nodup_append.mp (hr.nodup a.1)).2.1
    have hh : Handles target d a.1 s.shared (s.loc a.1) (exec target a.1 s.shared a.2 (s.loc a.1)) :=
      .exec (hs.loc a.1).fits hnodup a.2
    cases hh with
    | gone hgone => exact (hgone hd).elim
    | queued hq => exact .inl hq
    | notes hn => exact .inr (.inr ⟨a.1, by rw [System.move_self]; exact hn⟩)
    | marks hhome hready hl =>
      refine .inr (.inl (Ready.move hready hl fun j hj => ?_))
      rw [← hhome] at hp hj
      exact hs.clears_eq_false hp hj
    | keeps hold hq hhome hl hr =>
      rcases h d hold with hqueued | ⟨hready, hclears⟩ | ⟨j, hj⟩
      · exact (hqueued hq).elim
      · obtain ⟨hsame, hself⟩ := hr (hclears a.1)
        exact .inr (.inl (Ready.move (hsame.trans hready) hself fun j _ => hclears j))
      · have hne : j ≠ a.1 := by
          rintro rfl
          exact hl hj
        refine .inr (.inr ⟨j, ?_⟩)
        rw [System.move_of_ne hne]
        exact hj.congr hhome
  · exact h

/-- No enqueue of a request, migration or handling of requests is in progress. An interrupt may still
have to be sent. -/
def Pc.idle : Pc Cpu M D → Bool
  | .rest | .send _ .call => true
  | _ => false

/-- A request is executed once unless it is still in the queue or with a CPU. Requests that are in the
queue of a context nobody works on will be found. -/
structure Fulfilled (s : State Cpu M D) : Prop where
  once : ∀ d, s.shared.executed d ≤ 1
  kept : ∀ d ∈ s.shared.requests, d ∈ s.shared.drqs ∨ (∃ p, (s.loc p).drq = some d) ∨
    s.shared.executed d = 1
  found : (∀ p, (s.loc p).idle = true) → s.shared.drqs ≠ [] →
    s.shared.queued = some s.shared.home ∨ s.shared.drqReady = true

section

omit [DecidableEq Cpu] [DecidableEq M] [DecidableEq D]

theorem not_notes_of_idle {d : D} {p : Cpu} {g : Shared Cpu M D} {l : Pc Cpu M D} (h : l.idle = true) :
    ¬ Notes target d p g l := by
  cases l with
  | rest | send _ _ => exact id
  | _ => cases h

theorem Noted.fulfilled (h : Noted target s) (hs : Shape target s) (hr : Requests s) : Fulfilled s := by
  refine ⟨hr.le_one, fun d hd => ?_, fun hidle hne => ?_⟩
  · by_cases hp : Handover.Present Shared.drqs Pc.drq s d
    · exact hp.imp_right .inl
    · exact .inr (.inr (hr.gone d hd hp))
  · obtain ⟨d, hd⟩ := exists_mem_of_ne_nil _ hne
    rcases h d hd with hq | hready | ⟨p, hp⟩
    · obtain ⟨q, hq⟩ := Option.ne_none_iff_exists'.mp hq
      exact .inl (hq.trans (congrArg some (hs.shared q hq).1.symm))
    · exact .inr hready.1
    · exact (not_notes_of_idle (hidle p) hp).elim

end

theorem fulfilled_of_sound (target : M → Cpu) (home : Cpu) (online : Cpu → Bool)
    (as : List (Cpu × Choice Cpu M D)) (h : Machine.Along (step target) Sound (boot home online) as) :
    Fulfilled (run (step target) (boot home online) as) := by
  have hgood : Shape target (run (step target) (boot home online) as) ∧
      Requests (run (step target) (boot home online) as) ∧
      Noted target (run (step target) (boot home online) as) :=
    Machine.Along.invariant
      (fun (s : State Cpu M D) a (hs : Shape target s ∧ Requests s ∧ Noted target s) ha =>
        ⟨hs.1.step ha, hs.2.1.step target a, hs.2.2.step hs.1 hs.2.1 a⟩)
      ⟨.boot home online, .boot home online, nofun⟩ h
  exact hgood.2.2.fulfilled hgood.1 hgood.2.1

end Run

instance [DecidableEq Cpu] (s : State Cpu M D) (a : Cpu × Choice Cpu M D) : Decidable (Sound s a) :=
  inferInstanceAs (Decidable (∀ _ ∈ _, _))

section Runs

def goesOn (p : Fin 3) (n : ℕ) : List (Fin 3 × Choice (Fin 3) (Fin 4) (Fin 1)) :=
  replicate n (p, ⟨.run, false, false⟩)

def calls (p : Fin 3) (op : Op (Fin 3) (Fin 4) (Fin 1)) (n : ℕ) :
    List (Fin 3 × Choice (Fin 3) (Fin 4) (Fin 1)) :=
  (p, ⟨op, false, false⟩) :: goesOn p n

/-- CPU 0 moves the context to the offline CPU 2. Before it takes the lock, CPU 1 fetches the
context and moves it back there. So CPU 0 puts it into the queue of CPU 2, where it stays when CPU 0
fetches it. The request of CPU 1 is forgotten. -/
def movedTwice : List (Fin 3 × Choice (Fin 3) (Fin 4) (Fin 1)) :=
  calls 0 (.migrate 0) 9 ++ calls 1 (.migrate 1) 14 ++ goesOn 0 2 ++ calls 1 (.migrate 2) 9 ++
    goesOn 0 2 ++ goesOn 1 3 ++ calls 0 (.migrate 3) 13 ++ calls 1 (.drq 0) 5

theorem not_fulfilled_movedTwice :
    ¬ Fulfilled (run (step ![2, 1, 2, 0]) (boot 0 ![true, true, false]) movedTwice) := by
  intro h
  have hfound := h.found (by decide +kernel) (by decide +kernel)
  revert hfound
  decide +kernel

def movedOnce : List (Fin 3 × Choice (Fin 3) (Fin 4) (Fin 1)) :=
  calls 0 (.migrate 0) 12 ++ calls 1 (.drq 0) 8

theorem fulfilled_movedOnce :
    Machine.Along (step ![2, 1, 2, 0]) Sound (boot 0 ![true, true, false]) movedOnce ∧
      Fulfilled (run (step ![2, 1, 2, 0]) (boot 0 ![true, true, false]) movedOnce) ∧
      (run (step ![2, 1, 2, 0]) (boot 0 ![true, true, false]) movedOnce).shared.executed 0 = 1 := by
  have h : Machine.Along (step ![2, 1, 2, 0]) Sound (boot 0 ![true, true, false]) movedOnce := by decide
  refine ⟨h, fulfilled_of_sound ![2, 1, 2, 0] 0 ![true, true, false] movedOnce h, ?_⟩
  decide

end Runs

end Fiasco.Sched
