import Fiasco.IpcGate.Model

/-!
# Nobody stays blocked on a gate that is bound or destroyed

Once the type of the gate has changed no section begins in `block`, so after the grace period
everybody who blocks is in the queue and the second pass takes it out. Who is taken out and activated
runs again if it had stored its state before, which nothing ensures: `block` enters the queue first.
-/

namespace Fiasco.IpcGate

open StableQueue GracePeriod Interleaving List Function
open Machine (run)
open Interleaving.System
open scoped Machine PrioList

variable {T : Type}

def Pc.retypes : Pc T → Bool
  | .drain _ _ | .cancel _ _ | .activate _ _ _ | .call _ | .grace _ _ => true
  | _ => false

def Pc.holds : Pc T → Option T
  | .cancel w _ | .activate w _ _ => some w
  | _ => none

def Pc.activates : Pc T → Option T
  | .activate w _ _ => some w
  | _ => none

def Pc.compares : Pc T → Option Bind
  | .typeid b => some b
  | _ => none

def Pc.unstored : Pc T → Bool
  | .load _ | .store _ _ => true
  | _ => false

/-- After a `set_target` that has returned true and after the destructor nobody is in the queue, and
who sleeps is about to be activated by somebody. -/
def Unblocked (s : State T) : Prop :=
  s.shared.closed = true → s.shared.waiting = [] ∧
    ∀ t, s.loc t = .asleep → (s.shared.flags t).ready = false → ∃ p, (s.loc p).holds = some t

/-- A thread is activated after it has stored its state. A `set_target` finds the gate bound while
nobody is about to empty the queue. -/
def Prompt (s : State T) : Act T → Prop
  | .move p _ =>
    (∀ w ∈ (s.loc p).activates, (s.loc w).unstored = false) ∧
      ∀ b ∈ (s.loc p).compares, s.shared.gate = .bound b.kind → ∀ q, (s.loc q).retypes = false
  | _ => True

section Closing

def Shut (g : Shared T) : Prop :=
  g.gate ≠ .unbound ∧ g.sections.readers = [] ∧ g.waiting = []

def Fits (t : T) (g : Shared T) : Pc T → Prop
  | .enqueue | .load _ | .store _ _ | .timer _ => g.sections.Reading t
  | .drain _ last | .cancel _ last | .activate _ _ last =>
    g.gate ≠ .unbound ∧ (last = true → g.sections.readers = [])
  | .call _ => g.gate ≠ .unbound
  | .grace n _ => g.gate ≠ .unbound ∧ g.sections.Awaited n
  | .exchange _ => Shut g
  | _ => True

structure Later (t : T) (g g' : Shared T) : Prop where
  gate : g.gate ≠ .unbound → g'.gate ≠ .unbound
  readers : g.gate ≠ .unbound → ∀ a ∈ g'.sections.readers, a ∈ g.sections.readers
  reading : ∀ q, q ≠ t → g.sections.Reading q → g'.sections.Reading q
  shut : Shut g → Shut g'

theorem Later.same {t : T} {g g' : Shared T} (hg : g.gate ≠ .unbound → g'.gate ≠ .unbound)
    (hs : g'.sections.readers = g.sections.readers) (hw : g.waiting = [] → g'.waiting = []) :
    Later t g g' := by
  refine ⟨hg, fun _ a ha => hs ▸ ha, fun q _ => ?_, fun ⟨h, hr, hq⟩ => ⟨hg h, hs.trans hr, hw hq⟩⟩
  rw [Sections.Reading, Sections.Reading, hs]
  exact id

theorem Fits.later {t q : T} {g g' : Shared T} {l : Pc T} (h : Fits q g l) (hq : q ≠ t)
    (hl : Later t g g') : Fits q g' l := by
  have hnil (hg : g.gate ≠ .unbound) (hr : g.sections.readers = []) : g'.sections.readers = [] := by
    refine eq_nil_iff_forall_not_mem.mpr fun a ha => ?_
    have hm := hl.readers hg a ha
    rw [hr] at hm
    cases hm
  cases l with
  | enqueue | load _ | store _ _ | timer _ => exact hl.reading q hq h
  | drain _ _ | cancel _ _ | activate _ _ _ => exact ⟨hl.gate h.1, fun hlast => hnil h.1 (h.2 hlast)⟩
  | call _ => exact hl.gate h
  | grace n _ => exact ⟨hl.gate h.1, fun a ha => h.2 a (hl.readers h.1 a ha)⟩
  | exchange _ => exact hl.shut h
  | _ => trivial

variable [DecidableEq T] {t : T} {g : Shared T} {c : Choice} {l : Pc T} {s : State T}

theorem later_leave : Later t g (g.leave t) where
  gate := id
  readers := fun _ _ ha => (mem_filter.mp ha).1
  reading := fun _ hq => (Sections.reading_leave hq).mpr
  shut := by
    rintro ⟨hg, hr, hw⟩
    refine ⟨hg, ?_, hw⟩
    change g.sections.readers.filter _ = []
    rw [hr]
    rfl

theorem later_exec (h : Fits t g l) : Later t g (exec t g c l).1 := by
  cases l with
  | invoke =>
    rw [exec]
    split_ifs with hg
    · exact ⟨fun hne => (hne hg).elim, fun hne => (hne hg).elim,
        fun q _ hr => Sections.reading_enter.mpr (.inr hr), fun hne => (hne.1 hg).elim⟩
    · exact .same id rfl id
  | enqueue =>
    have hr (hs : Shut g) : False := Sections.not_reading hs.2.1 h
    rw [exec]
    split_ifs
    · exact later_leave
    · exact .same id rfl id
    · exact ⟨id, fun _ _ => id, fun _ _ => id, fun hs => (hr hs).elim⟩
  | timer finite =>
    have hl : Later t g (g.leave t) := later_leave
    exact { hl with }
  | dequeue aborted =>
    refine .same id rfl fun hw => ?_
    change g.waiting.filter _ = []
    rw [hw]
    rfl
  | retype b =>
    rw [exec]
    split_ifs
    · exact .same (fun _ => nofun) rfl id
    · exact .same id rfl id
  | destroy => exact .same (fun _ => nofun) rfl id
  | drain abort last =>
    rw [exec]
    split
    · rename_i a q hq
      refine .same id rfl fun hw => ?_
      rw [hq] at hw
      cases hw
    · split_ifs <;> exact .same id rfl id
  | _ => exact .same id rfl id

theorem fits_exec (h : Fits t g l) (hl : ∀ b, l = .typeid b → g.gate = .bound b.kind → Shut g) :
    Fits t (exec t g c l).1 (exec t g c l).2 := by
  cases l with
  | invoke =>
    rw [exec]
    split_ifs
    · exact Sections.reading_enter.mpr (.inl rfl)
    · trivial
  | typeid b =>
    rw [exec]
    split_ifs with hg
    · exact hl b rfl hg
    · trivial
  | drain abort last =>
    rw [exec]
    split
    · split_ifs <;> exact h
    · split_ifs
      · trivial
      · exact h.1
  | call abort => exact ⟨h, g.sections.stamp_le⟩
  | grace n abort =>
    rw [exec]
    split_ifs with ho
    · exact ⟨h.1, fun _ => h.2.ended ho⟩
    · exact h
  | _ =>
    simp only [exec]
    (repeat' split) <;> first | exact h | trivial | exact ⟨nofun, nofun⟩

theorem closed_exec (h : Fits t g l) (hc : (exec t g c l).1.closed = true) :
    g.closed = true ∨ Shut (exec t g c l).1 := by
  cases l with
  | exchange b => exact .inr h
  | drain abort last =>
    rw [exec] at hc ⊢
    split at hc
    · exact .inl hc
    · rename_i hw
      split_ifs at hc with hlast
      · refine .inr ?_
        rw [if_pos hlast]
        exact ⟨h.1, h.2 hlast, hw⟩
      · exact .inl hc
  | invoke | retype b | enqueue =>
    rw [exec] at hc
    split_ifs at hc <;> exact .inl hc
  | _ => exact .inl hc

theorem retypes_exec (h : Fits t g l) (hr : (exec t g c l).2.retypes = false) :
    ((exec t g c l).1.gate = g.gate ∧ l.retypes = false) ∨ Shut (exec t g c l).1 := by
  cases l with
  | drain abort last =>
    rw [exec] at hr ⊢
    split at hr
    · split_ifs at hr <;> cases hr
    · rename_i hw
      split_ifs at hr with hlast
      · rw [if_pos hlast]
        exact .inr ⟨h.1, h.2 hlast, hw⟩
      · cases hr
  | _ =>
    revert hr
    rw [exec]
    (repeat' split) <;> first | exact fun _ => .inl ⟨rfl, rfl⟩ | exact nofun

structure Closing (s : State T) : Prop where
  inv : Inv (fun g => g.closed = true → Shut g) Fits (fun _ _ => True) s
  swept : Answered (fun g => g.gate ≠ .unbound ∧ ¬ Shut g) (fun _ _ l => l.retypes = true) s

omit [DecidableEq T] in
theorem Closing.shut (h : Closing s) (hg : s.shared.gate ≠ .unbound)
    (hr : ∀ q, (s.loc q).retypes = false) : Shut s.shared := by
  by_contra hs
  obtain ⟨q, hq⟩ := h.swept ⟨hg, hs⟩
  rw [hr q] at hq
  cases hq

theorem Closing.move (h : Closing s) (hp : Prompt s (.move t c)) :
    Closing (s.move t (exec t s.shared c (s.loc t))) := by
  have hfit := h.inv.loc t
  have hlater : Later t s.shared (exec t s.shared c (s.loc t)).1 := later_exec hfit
  refine ⟨h.inv.move (fun _ _ _ => trivial) (fun hc => ?_) (fits_exec hfit fun b hb hg => ?_)
    fun j hj => ⟨(h.inv.loc j).later hj hlater, trivial⟩, h.swept.move fun hneed hr => ?_⟩
  · rcases closed_exec hfit hc with hc | hs
    · exact hlater.shut (h.inv.shared hc)
    · exact hs
  · rw [Prompt, hb] at hp
    exact h.shut (by rw [hg]; exact nofun) (hp.2 b rfl hg)
  · rcases retypes_exec hfit (Bool.eq_false_of_not_eq_true hr) with ⟨hg, hl⟩ | hs
    · exact ⟨⟨hg ▸ hneed.1, fun hs => hneed.2 (hlater.shut hs)⟩, by rw [hl]; exact nofun, fun _ _ => id⟩
    · exact (hneed.2 hs).elim

theorem Closing.modify (h : Closing s) (f : Flags → Flags) (hl : s.loc t = .asleep) :
    Closing (s.move t (s.shared.modify t f, .asleep)) := by
  have hlater : Later t s.shared (s.shared.modify t f) := .same id rfl id
  refine ⟨h.inv.move (fun _ _ _ => trivial) h.inv.shared trivial
    fun j hj => ⟨(h.inv.loc j).later hj hlater, trivial⟩, h.swept.move fun hneed _ => ⟨hneed, ?_⟩⟩
  rw [hl]
  exact ⟨nofun, fun _ _ => id⟩

theorem Closing.step (h : Closing s) {a : Act T} (ha : Prompt s a) : Closing (step s a) := by
  cases a with
  | move t c => exact h.move ha
  | timeout t =>
    rw [IpcGate.step]
    split_ifs with hc
    · exact h.modify _ hc.1
    · exact h
  | cancel t =>
    rw [IpcGate.step]
    split_ifs with hc
    · exact h.modify _ hc
    · exact h

omit [DecidableEq T] in
theorem closing_boot : Closing (boot : State T) :=
  ⟨⟨nofun, fun _ => trivial, fun _ _ _ => trivial⟩, fun h => (h.1 rfl).elim⟩

end Closing

section Waking

def Pc.unwoken (b : Flags) : Pc T → Bool
  | .load _ | .store _ _ => true
  | .timer _ | .asleep => !b.ready
  | _ => false

def Covered (s : State T) : Prop :=
  ∀ t, (s.loc t).unwoken (s.shared.flags t) = true →
    t ∈ s.shared.waiters ∨ ∃ p, (s.loc p).holds = some t

variable [DecidableEq T] {s : State T} {p t : T} {c : Choice} {r : Shared T × Pc T}

theorem flags_modify_self (g : Shared T) (f : Flags → Flags) :
    (g.modify t f).flags t = f (g.flags t) :=
  update_self ..

theorem flags_modify_of_ne (g : Shared T) (f : Flags → Flags) (h : t ≠ p) :
    (g.modify p f).flags t = g.flags t :=
  update_of_ne h ..

theorem Covered.keep (h : Covered s) (hu : (s.loc t).unwoken (s.shared.flags t) = true)
    (hw : t ∈ s.shared.waiters → t ∈ r.1.waiters ∨ r.2.holds = some t)
    (hh : (s.loc p).holds = some t → r.2.holds = some t) :
    t ∈ (s.move p r).shared.waiters ∨ ∃ q, ((s.move p r).loc q).holds = some t := by
  have hself (hr : r.2.holds = some t) : ∃ q, ((s.move p r).loc q).holds = some t :=
    ⟨p, by rw [move_self]; exact hr⟩
  rcases h t hu with hm | ⟨q, hq⟩
  · exact (hw hm).imp_right hself
  · refine .inr ?_
    by_cases hqp : q = p
    · subst hqp
      exact hself (hh hq)
    · exact ⟨q, by rw [move_of_ne hqp]; exact hq⟩

theorem Covered.quiet (h : Covered s) (hw : r.1.waiting = s.shared.waiting)
    (hl : (s.loc p).holds = none) (hf : ∀ t, t ≠ p → r.1.flags t = s.shared.flags t)
    (hself : r.2.unwoken (r.1.flags p) = true → (s.loc p).unwoken (s.shared.flags p) = true) :
    Covered (s.move p r) := by
  intro t ht
  have hwait : t ∈ s.shared.waiters → t ∈ r.1.waiters ∨ r.2.holds = some t := by
    rw [Shared.waiters, Shared.waiters, hw]
    exact .inl
  have hold : (s.loc p).holds = some t → r.2.holds = some t := by
    rw [hl]
    exact nofun
  by_cases htp : t = p
  · subst htp
    rw [move_self] at ht
    exact h.keep (hself ht) hwait hold
  · rw [move_of_ne htp] at ht
    refine h.keep ?_ hwait hold
    rw [← hf t htp]
    exact ht

omit [DecidableEq T] in
theorem mem_waiters_insert {g : Shared T} {prio : Prio} :
    t ∈ Shared.waiters { g with waiting := insertBehind (p, prio) g.waiting } ↔
      t = p ∨ t ∈ g.waiters := by
  simp only [Shared.waiters, (insertBehind_perm.map Prod.fst).mem_iff, map_cons,
    mem_cons]

section

variable (h : Covered s)
include h

theorem Covered.enqueue (hl : s.loc p = .enqueue) :
    Covered (s.move p (exec p s.shared c .enqueue)) := by
  have hnone : (s.loc p).holds = none := by
    rw [hl]
    rfl
  rw [exec]
  split_ifs with hz hm
  · exact h.quiet rfl hnone (fun _ _ => rfl) nofun
  · intro t ht
    by_cases htp : t = p
    · subst htp
      exact .inl hm
    · rw [move_of_ne htp] at ht
      exact h.keep ht .inl (by rw [hnone]; exact nofun)
  · intro t ht
    by_cases htp : t = p
    · exact .inl (mem_waiters_insert.mpr (.inl htp))
    · rw [move_of_ne htp] at ht
      exact h.keep ht (fun hw => .inl (mem_waiters_insert.mpr (.inr hw))) (by rw [hnone]; exact nofun)

theorem Covered.dequeue {aborted : Bool} (hl : s.loc p = .dequeue aborted) :
    Covered (s.move p (exec p s.shared c (.dequeue aborted))) := by
  intro t ht
  have htp : t ≠ p := by
    rintro rfl
    rw [move_self, exec] at ht
    cases aborted <;> cases ht
  rw [move_of_ne htp] at ht
  refine h.keep ht (fun hw => .inl ?_) (by rw [hl]; exact nofun)
  obtain ⟨a, ha, rfl⟩ := mem_map.mp hw
  exact mem_map.mpr ⟨a, mem_filter.mpr ⟨ha, by simpa using htp⟩, rfl⟩

theorem Covered.drain {abort last : Bool} (hl : s.loc p = .drain abort last) :
    Covered (s.move p (exec p s.shared c (.drain abort last))) := by
  have hnone : (s.loc p).holds = none := by
    rw [hl]
    rfl
  rw [exec]
  split
  · rename_i a q hq
    intro t ht
    have htp : t ≠ p := by
      rintro rfl
      rw [move_self] at ht
      cases abort <;> cases ht
    rw [move_of_ne htp] at ht
    refine h.keep ht (fun hw => ?_) (by rw [hnone]; exact nofun)
    rw [Shared.waiters, hq, map_cons, mem_cons] at hw
    rcases hw with rfl | hw
    · refine .inr ?_
      cases abort <;> rfl
    · exact .inl hw
  · split_ifs <;> exact h.quiet rfl hnone (fun _ _ => rfl) nofun

theorem Covered.cancel {w : T} {last : Bool} (hl : s.loc p = .cancel w last) :
    Covered (s.move p (exec p s.shared c (.cancel w last))) := by
  intro t ht
  have htp : t ≠ p := by
    rintro rfl
    rw [move_self] at ht
    cases ht
  rw [move_of_ne htp] at ht
  refine h.keep ?_ .inl (by rw [hl]; exact id)
  by_cases htw : t = w
  · subst htw
    simp only [exec, System.move, flags_modify_self] at ht
    exact ht
  · simp only [exec, System.move, flags_modify_of_ne _ _ htw] at ht
    exact ht

theorem Covered.activate {w : T} {abort last : Bool}
    (hl : s.loc p = .activate w abort last) (hw : (s.loc w).unstored = false) :
    Covered (s.move p (exec p s.shared c (.activate w abort last))) := by
  intro t ht
  have htp : t ≠ p := by
    rintro rfl
    rw [move_self] at ht
    cases ht
  rw [move_of_ne htp] at ht
  by_cases htw : t = w
  · subst htw
    simp only [exec, System.move, flags_modify_self] at ht
    generalize s.loc t = m at ht hw
    cases m with
    | load _ | store _ _ => cases hw
    | _ => cases ht
  · simp only [exec, System.move, flags_modify_of_ne _ _ htw] at ht
    refine h.keep ht .inl fun hh => ?_
    rw [hl] at hh
    cases hh
    exact (htw rfl).elim

theorem Covered.move (hp : Prompt s (.move p c)) :
    Covered (s.move p (exec p s.shared c (s.loc p))) := by
  cases hl : s.loc p with
  | enqueue => exact h.enqueue hl
  | dequeue aborted => exact h.dequeue hl
  | drain abort last => exact h.drain hl
  | cancel w last => exact h.cancel hl
  | activate w abort last =>
    rw [Prompt, hl] at hp
    exact h.activate hl (hp.1 w rfl)
  | idle =>
    rw [exec]
    cases c.op <;> exact h.quiet rfl (by rw [hl]; rfl) (fun _ _ => rfl) nofun
  | invoke | check b | retype b | typeid b | grace n abort =>
    rw [exec]
    split_ifs <;> exact h.quiet rfl (by rw [hl]; rfl) (fun _ _ => rfl) nofun
  | load finite => exact h.quiet rfl (by rw [hl]; rfl) (fun _ _ => rfl) fun _ => by rw [hl]; rfl
  | store finite old =>
    rw [exec]
    exact h.quiet rfl (by rw [hl]; rfl) (fun _ ht => update_of_ne ht ..)
      fun _ => by rw [hl]; rfl
  | timer finite => exact h.quiet rfl (by rw [hl]; rfl) (fun _ _ => rfl) fun ht => by rw [hl]; exact ht
  | asleep =>
    rw [exec]
    split_ifs
    · exact h.quiet rfl (by rw [hl]; rfl) (fun _ _ => rfl) nofun
    · exact h.quiet rfl (by rw [hl]; rfl) (fun _ _ => rfl) fun ht => by rw [hl]; exact ht
  | wake =>
    rw [exec]
    exact h.quiet rfl (by rw [hl]; rfl) (fun _ ht => update_of_ne ht ..) nofun
  | exchange b | destroy | call abort => exact h.quiet rfl (by rw [hl]; rfl) (fun _ _ => rfl) nofun

theorem Covered.wakeup {f : Flags → Flags} (hf : ∀ b, (f b).ready = true)
    (hl : s.loc p = .asleep) : Covered (s.move p (s.shared.modify p f, .asleep)) := by
  refine h.quiet rfl (by rw [hl]; rfl) (fun _ ht => update_of_ne ht ..) fun ht => ?_
  rw [flags_modify_self, Pc.unwoken, hf] at ht
  cases ht

theorem Covered.step {a : Act T} (ha : Prompt s a) : Covered (step s a) := by
  cases a with
  | move t c => exact h.move ha
  | timeout t =>
    rw [IpcGate.step]
    split_ifs with hc
    · exact h.wakeup (fun _ => rfl) hc.1
    · exact h
  | cancel t =>
    rw [IpcGate.step]
    split_ifs with hc
    · exact h.wakeup (fun _ => rfl) hc
    · exact h

end

end Waking

section Runs

variable [DecidableEq T]

theorem unblocked_of_prompt (as : List (Act T)) (h : Machine.Along step Prompt boot as) :
    Unblocked (run step boot as) := by
  have hstep : ∀ (s : State T) a, Closing s ∧ Covered s → Prompt s a →
      Closing (IpcGate.step s a) ∧ Covered (IpcGate.step s a) :=
    fun s a hs ha => ⟨hs.1.step ha, hs.2.step ha⟩
  obtain ⟨hclosing, hcovered⟩ := Machine.Along.invariant hstep ⟨closing_boot, nofun⟩ h
  intro hc
  obtain ⟨-, -, hw⟩ := hclosing.inv.shared hc
  refine ⟨hw, fun t hl hr => ?_⟩
  rcases hcovered t (by rw [hl, Pc.unwoken, hr]; rfl) with hm | hh
  · rw [Shared.waiters, hw] at hm
    cases hm
  · exact hh

instance [Fintype T] (s : State T) : Decidable (Unblocked s) :=
  inferInstanceAs (Decidable (_ → _ ∧ ∀ _, _ → _ → _))

instance [Fintype T] (s : State T) (a : Act T) : Decidable (Prompt s a) := by
  cases a <;> unfold Prompt <;> infer_instance

def go (t : T) (op : Op) : Act T :=
  .move t ⟨op, 0, .never⟩

def bindThread : Op :=
  .bind ⟨.thread, 1, 0⟩

/-- Thread 0 is in the queue. `op` dequeues and activates it before it stores its state, and the
second pass follows when it sleeps. -/
def earlyActivation (op : Op) (n : ℕ) : List (Act (Fin 2)) :=
  replicate 3 (go 0 .invoke) ++ replicate n (go 1 op) ++ replicate 3 (go 0 .invoke) ++
    replicate 3 (go 1 op)

/-- Thread 2 binds a gate that thread 1 has bound before it empties the queue. -/
def earlyBind : List (Act (Fin 3)) :=
  replicate 6 (go 0 .invoke) ++ replicate 3 (go 1 bindThread) ++
    replicate 4 (go 2 bindThread)

theorem not_unblocked_early :
    ¬ Unblocked (run step boot (earlyActivation bindThread 7)) ∧
      ¬ Unblocked (run step boot (earlyActivation .destroy 7)) ∧
      ¬ Unblocked (run step boot earlyBind) := by
  decide

/-- Thread 0 sleeps. Thread 2 has found the gate unbound, and enters the queue when the first pass of
`op` is over. -/
def late (op : Op) : List (Act (Fin 3)) :=
  replicate 6 (go 0 .invoke) ++ replicate 2 (go 2 .invoke) ++ replicate 7 (go 1 op) ++
    replicate 4 (go 2 .invoke)

def Emptied (op : Op) : Prop :=
  (run step boot (late op)).shared.waiters = [2] ∧
    (run step boot (late op ++ replicate 5 (go 1 op))).shared.closed = true ∧
    Unblocked (run step boot (late op ++ replicate 5 (go 1 op)))

theorem unblocked_late : Emptied bindThread ∧ Emptied .destroy :=
  ⟨⟨by decide, by decide, unblocked_of_prompt _ (by decide)⟩,
    ⟨by decide, by decide, unblocked_of_prompt _ (by decide)⟩⟩

end Runs

end Fiasco.IpcGate
