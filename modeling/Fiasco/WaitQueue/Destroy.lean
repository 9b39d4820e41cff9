import Fiasco.WaitQueue.WakeupStep

/-!
# Destruction of a wait queue

`destroy` first takes out senders until it finds none, then receivers. An operation that has looked
the queue up before does not look again whether the queue still exists when it enqueues itself,
which `Semaphore::down` does.
-/

namespace Fiasco.WaitQueue

open Interleaving List
open Machine (run)
open scoped Machine PrioList

variable {T : Type} [DecidableEq T]

def Pc.rests (b : Tcb T) : Pc T → Bool
  | .idle | .elsewhere _ => true
  | .receiverAsleep | .senderAsleep | .replyAsleep => !b.ready
  | _ => false

def Pc.inQueue : Pc T → Bool
  | .receiverAsleep | .senderAsleep => true
  | _ => false

def Clean (s : State T) : Prop :=
  s.shared.drained = true → (∀ t, (s.loc t).rests (s.shared.tcb t) = true) →
    s.shared.waitQ = [] ∧ ∀ t, (s.loc t).inQueue = true → (s.shared.tcb t).timer = true

def InTime (g : Shared T) : Pc T → Prop
  | .enqueueSender => g.hasSenders = true ∨ g.waitQ = [] → g.noSenders = false
  | .enqueueReceiver => g.hasSenders = false ∨ g.waitQ = [] → g.drained = false
  | _ => True

def Careful (s : State T) (a : Act T) : Prop :=
  Timely s a ∧ match a with
    | .move t _ => InTime s.shared (s.loc t)
    | _ => True

structure Swept (s : State T) : Prop where
  senders : s.shared.noSenders = true → ∀ a ∈ s.shared.waitQ, a.1.role = .receiver
  queue : s.shared.drained = true → s.shared.waitQ = []
  order : s.shared.drained = true → s.shared.noSenders = true
  phase : ∀ p, (s.loc p).zone = .behind → s.shared.noSenders = true

section Queue

variable (bits : ℕ) (irq : T → Bool) {g : Shared T} {p : T} {c : Choice} {l : Pc T}
  {a : Item T × Prio} {prio : Prio}

section

omit [DecidableEq T]

theorem mem_dequeueFirst (h : a ∈ g.dequeueFirst.2.waitQ) : a ∈ g.waitQ := by
  rw [Shared.dequeueFirst] at h
  cases hq : g.waitQ with
  | nil =>
    rw [hq] at h
    exact hq ▸ h
  | cons b q =>
    rw [hq] at h
    exact mem_cons_of_mem _ h

theorem mem_dequeueSender (h : a ∈ g.dequeueSender.2.waitQ) : a ∈ g.waitQ := by
  rw [Shared.dequeueSender] at h
  split_ifs at h
  · exact h
  · exact mem_dequeueFirst h

theorem mem_dequeueReceiver (h : a ∈ g.dequeueReceiver.2.waitQ) : a ∈ g.waitQ := by
  rw [Shared.dequeueReceiver] at h
  split_ifs at h
  · exact h
  · exact mem_dequeueFirst h

end

theorem mem_enqueueReceiver (h : a ∈ (g.enqueueReceiver p prio).2.waitQ) :
    a ∈ g.waitQ ∨ a.1 = ⟨p, .receiver⟩ ∧ (g.hasSenders = false ∨ g.waitQ = []) ∧
      (g.enqueueReceiver p prio).1 = none := by
  rw [Shared.enqueueReceiver] at h ⊢
  split_ifs at h ⊢ with hc
  · exact .inl (mem_dequeueFirst h)
  · refine (mem_insert h).imp_right fun ha => ⟨ha, ?_, rfl⟩
    simpa [or_iff_not_imp_left] using hc

theorem mem_enqueueSender (h : a ∈ (g.enqueueSender p prio).2.waitQ) :
    a ∈ g.waitQ ∨ a.1 = ⟨p, .sender⟩ ∧ (g.hasSenders = true ∨ g.waitQ = []) := by
  rw [Shared.enqueueSender] at h
  split_ifs at h with hc
  · exact .inl (mem_dequeueFirst h)
  · refine (mem_insert h).imp_right fun ha => ⟨ha, ?_⟩
    cases hs : g.hasSenders with
    | true => exact .inl rfl
    | false => exact .inr (by simpa [hs] using hc)

theorem mem_exec (h : a ∈ (exec bits irq p g c l).1.waitQ) :
    a ∈ g.waitQ ∨
      l = .enqueueReceiver ∧ a.1 = ⟨p, .receiver⟩ ∧ (g.hasSenders = false ∨ g.waitQ = []) ∧
        (g.enqueueReceiver p c.prio).1 = none ∨
      l = .enqueueSender ∧ a.1 = ⟨p, .sender⟩ ∧ (g.hasSenders = true ∨ g.waitQ = []) := by
  rw [(queue_exec bits irq p g c l).1] at h
  cases l with
  | dequeueSender | drainSenders => exact .inl (mem_dequeueSender h)
  | enqueueReceiver =>
    rcases mem_enqueueReceiver h with ha | ha
    · exact .inl ha
    · exact .inr (.inl ⟨rfl, ha⟩)
  | leaveReceive | abortDequeue | zeroSend | leave a => exact .inl (mem_filter.mp h).1
  | dequeueReceiver | drainReceivers | bumpDrain gen => exact .inl (mem_dequeueReceiver h)
  | enqueueSender =>
    rcases mem_enqueueSender h with ha | ha
    · exact .inl ha
    · exact .inr (.inr ⟨rfl, ha⟩)
  | _ => exact .inl h

theorem progress_exec :
    (exec bits irq p g c l).1.noSenders = g.noSenders ∧
        (exec bits irq p g c l).1.drained = g.drained ∨
      l = .drainSenders ∧ g.dequeueSender.1 = none ∧ (exec bits irq p g c l).1.noSenders = true ∧
        (exec bits irq p g c l).1.drained = g.drained ∨
      l = .drainReceivers ∧ g.dequeueReceiver.1 = none ∧
        (exec bits irq p g c l).1.noSenders = g.noSenders ∧
        (exec bits irq p g c l).1.drained = true := by
  cases hr : l.records with
  | false =>
    have h := record_exec bits irq (g := g) (p := p) (c := c) hr
    exact .inl ⟨congrArg Prod.fst h, congrArg (fun r => r.2.1) h⟩
  | true =>
    cases l with
    | drainSenders =>
      have h := (keeps_dequeueSender g).record
      rw [exec]
      split <;> rename_i heq <;> rw [heq] at h
      · exact .inl ⟨congrArg Prod.fst h, congrArg (fun r => r.2.1) h⟩
      · exact .inr (.inl ⟨rfl, by rw [heq], rfl, congrArg (fun r => r.2.1) h⟩)
    | drainReceivers =>
      have h := (keeps_dequeueReceiver g).record
      rw [exec]
      split <;> rename_i heq <;> rw [heq] at h
      · exact .inl ⟨congrArg Prod.fst h, congrArg (fun r => r.2.1) h⟩
      · exact .inr (.inr ⟨rfl, by rw [heq], congrArg Prod.fst h, rfl⟩)
    | bumpTest gen => rw [exec]; split_ifs <;> exact .inl ⟨rfl, rfl⟩
    | bumpInc | bumpRead gen => exact .inl ⟨rfl, rfl⟩
    | _ => cases hr

theorem behind_exec (h : (exec bits irq p g c l).2.zone = .behind) :
    (exec bits irq p g c l).1.noSenders = true ∨ l.zone = .behind := by
  rcases zone_exec bits irq (g := g) (p := p) (c := c) (l := l) with
    hz | hz | ⟨-, -, hz⟩ | ⟨-, hs, -⟩ | hz
  · exact absurd (hz.symm.trans h) nofun
  · exact .inr (hz.symm.trans h)
  · exact absurd (hz.symm.trans h) nofun
  · exact .inl hs
  · rw [hz] at h
    cases h

end Queue

section Runs

variable {bits : ℕ} {irq : T → Bool} {s : State T} {g : Shared T}

section

omit [DecidableEq T]

theorem OneSided.no_senders (h : OneSided g) (hn : g.dequeueSender.1 = none) :
    ∀ a ∈ g.waitQ, a.1.role = .receiver := by
  intro a ha
  rw [Shared.dequeueSender] at hn
  split_ifs at hn with hs
  · rw [h a ha, Shared.side]
    simpa using hs
  · rw [dequeueFirst_none hn] at ha
    cases ha

theorem OneSided.no_receivers (h : OneSided g) (hn : g.dequeueReceiver.1 = none)
    (hs : ∀ a ∈ g.waitQ, a.1.role = .receiver) : g.waitQ = [] := by
  rw [Shared.dequeueReceiver] at hn
  split_ifs at hn with hg
  · refine eq_nil_iff_forall_not_mem.mpr fun a ha => ?_
    have hr := (h a ha).symm.trans (hs a ha)
    rw [Shared.side, if_pos hg] at hr
    cases hr
  · exact dequeueFirst_none hn

end

theorem Swept.move (h : Swept s) (hside : OneSided s.shared) {p : T} {c : Choice}
    (hin : InTime s.shared (s.loc p)) :
    Swept (s.move p (exec bits irq p s.shared c (s.loc p))) := by
  have hphase : ∀ q, ((s.move p (exec bits irq p s.shared c (s.loc p))).loc q).zone = .behind →
      (exec bits irq p s.shared c (s.loc p)).1.noSenders = true ∨ s.shared.noSenders = true := by
    intro q hq
    by_cases hqp : q = p
    · subst hqp
      rw [System.move_self] at hq
      exact (behind_exec bits irq hq).imp_right (h.phase q)
    · rw [System.move_of_ne hqp] at hq
      exact .inr (h.phase q hq)
  have hmem := fun a => mem_exec bits irq (g := s.shared) (p := p) (c := c)
    (l := s.loc p) (a := a)
  rcases progress_exec bits irq (g := s.shared) (p := p) (c := c) (l := s.loc p)
    with ⟨hno, hdr⟩ | ⟨hl, hn, hno, hdr⟩ | ⟨hl, hn, hno, hdr⟩ <;>
    generalize exec bits irq p s.shared c (s.loc p) = r at hno hdr hphase hmem ⊢
  · refine ⟨fun hs a ha => ?_, fun hd => ?_, fun hd => ?_, fun q hq => ?_⟩
    · have hs' : s.shared.noSenders = true := hno.symm.trans hs
      rcases hmem a ha with ha | ⟨-, ha, -⟩ | ⟨hl, -, hq⟩
      · exact h.senders hs' a ha
      · rw [ha]
      · rw [hl] at hin
        exact absurd (hs'.symm.trans (hin hq)) nofun
    · have hd' : s.shared.drained = true := hdr.symm.trans hd
      refine eq_nil_iff_forall_not_mem.mpr fun a ha => ?_
      rcases hmem a ha with ha | ⟨hl, -, hq, -⟩ | ⟨hl, -, hq⟩
      · rw [h.queue hd'] at ha
        cases ha
      · rw [hl] at hin
        exact absurd (hd'.symm.trans (hin hq)) nofun
      · rw [hl] at hin
        exact absurd ((h.order hd').symm.trans (hin hq)) nofun
    · exact hno.trans (h.order (hdr.symm.trans hd))
    · exact (hphase q hq).elim id fun hs => hno.trans hs
  · have hold : ∀ a ∈ r.1.waitQ, a ∈ s.shared.waitQ := by
      intro a ha
      rcases hmem a ha with ha | ⟨hl', -⟩ | ⟨hl', -⟩
      · exact ha
      · exact absurd (hl.symm.trans hl') nofun
      · exact absurd (hl.symm.trans hl') nofun
    refine ⟨fun _ a ha => hside.no_senders hn a (hold a ha), fun hd => ?_, fun _ => hno,
      fun _ _ => hno⟩
    refine eq_nil_iff_forall_not_mem.mpr fun a ha => ?_
    have ha := hold a ha
    rw [h.queue (hdr.symm.trans hd)] at ha
    cases ha
  · have hs : s.shared.noSenders = true := h.phase p (by rw [hl]; rfl)
    have hno : r.1.noSenders = true := hno.trans hs
    have hq : r.1.waitQ = [] := by
      refine eq_nil_iff_forall_not_mem.mpr fun a ha => ?_
      rcases hmem a ha with ha | ⟨hl', -⟩ | ⟨hl', -⟩
      · rw [hside.no_receivers hn (h.senders hs)] at ha
        cases ha
      · exact absurd (hl.symm.trans hl') nofun
      · exact absurd (hl.symm.trans hl') nofun
    refine ⟨fun _ a ha => ?_, fun _ => hq, fun _ => hno, fun _ _ => hno⟩
    have ha' : a ∈ r.1.waitQ := ha
    rw [hq] at ha'
    cases ha'

theorem Swept.outside (h : Swept s) {p : T} {l : Pc T} (hq : ∀ a ∈ g.waitQ, a ∈ s.shared.waitQ)
    (hno : g.noSenders = s.shared.noSenders) (hdr : g.drained = s.shared.drained)
    (hl : l.zone = .behind → (s.loc p).zone = .behind) : Swept (s.move p (g, l)) := by
  refine ⟨fun hs a ha => h.senders (hno.symm.trans hs) a (hq a ha), fun hd => ?_,
    fun hd => hno.trans (h.order (hdr.symm.trans hd)), fun q hb => ?_⟩
  · refine eq_nil_iff_forall_not_mem.mpr fun a ha => ?_
    have ha := hq a ha
    rw [h.queue (hdr.symm.trans hd)] at ha
    cases ha
  · refine hno.trans ?_
    by_cases hqp : q = p
    · subst hqp
      rw [System.move_self] at hb
      exact h.phase q (hl hb)
    · rw [System.move_of_ne hqp] at hb
      exact h.phase q hb

theorem Swept.step (h : Swept s) (hside : OneSided s.shared) {a : Act T} (ha : Careful s a) :
    Swept (step bits irq s a) := by
  cases a with
  | move t c => exact h.move hside ha.2
  | timeout t | cancel t | reply t =>
    rw [WaitQueue.step]
    split_ifs
    · exact h.outside (fun _ => id) rfl rfl id
    · exact h
  | kill t =>
    rw [WaitQueue.step]
    split_ifs
    · exact h.outside (fun _ ha => (mem_filter.mp ha).1) rfl rfl id
    · exact h.outside (fun _ ha => (mem_filter.mp ha).1) rfl rfl (by rintro ⟨⟩)
    · exact h

section

omit [DecidableEq T]

theorem rests_names {b : Tcb T} {l : Pc T} (h : l.rests b = true) : l.names = none := by
  cases l <;> first | rfl | cases h

theorem Inv.clean (h : Inv irq s) (hw : Swept s) : Clean s := by
  intro hd hrest
  have hq : s.shared.waitQ = [] := hw.queue hd
  refine ⟨hq, fun t ht => ?_⟩
  have hhas : ∀ e, ¬ s.shared.has e := by
    rintro e ⟨a, ha, -⟩
    rw [hq] at ha
    cases ha
  have hnone : ∀ p, (s.loc p).names ≠ some t := by
    intro p
    rw [rests_names (hrest p)]
    exact nofun
  have hwake : ¬ ∃ p, (s.loc p).wakes t := fun ⟨p, hp⟩ => hnone p hp.names
  have hcomplete : ¬ ∃ p, (s.loc p).completes t := fun ⟨p, hp⟩ => hwake ⟨p, hp.wakes⟩
  have hst := (h.fine t).stands
  have hb := hrest t
  cases hl : s.loc t with
  | receiverAsleep =>
    rw [hl] at hst hb
    have hr : (s.shared.tcb t).ready = false := by simpa [Pc.rests] using hb
    rcases (hst.2 hr).2 with hc | ⟨-, hc | ⟨p, hc⟩⟩
    · exact (hwake hc).elim
    · exact (hhas _ hc).elim
    · exact (hnone p hc.names).elim
  | senderAsleep =>
    rw [hl] at hst hb
    have hr : (s.shared.tcb t).ready = false := by simpa [Pc.rests] using hb
    rcases hst.2 hr with hc | ⟨hs, ha⟩
    · exact (hcomplete hc).elim
    · rcases hst.1 hs ha with hc | hc
      · exact (hhas _ hc).elim
      · exact (hcomplete hc).elim
  | _ =>
    rw [hl] at ht
    cases ht

theorem swept_boot : Swept (boot : State T) :=
  ⟨nofun, nofun, nofun, nofun⟩

end

theorem clean_of_careful (bits : ℕ) (irq : T → Bool) (as : List (Act T))
    (h : Machine.Along (step bits irq) Careful boot as) : Clean (run (step bits irq) boot as) := by
  have hstep : ∀ s a, Inv irq s ∧ Swept s → Careful s a →
      Inv irq (WaitQueue.step bits irq s a) ∧ Swept (WaitQueue.step bits irq s a) :=
    fun s a hs ha => ⟨hs.1.step ha.1, hs.2.step hs.1.sides ha⟩
  obtain ⟨hi, hs⟩ := Machine.Along.invariant hstep ⟨inv_boot irq, swept_boot⟩ h
  exact hi.clean hs

end Runs

section Failures

instance [Fintype T] (s : State T) : Decidable (Clean s) :=
  inferInstanceAs (Decidable (_ → _ → _ ∧ _))

instance [Fintype T] (s : State T) (a : Act T) : Decidable (Timely s a) := by
  cases a <;> unfold Timely <;> infer_instance

instance (g : Shared T) (l : Pc T) : Decidable (InTime g l) := by
  induction l using Pc.casesOn <;> unfold InTime <;> infer_instance

instance [Fintype T] (s : State T) (a : Act T) : Decidable (Careful s a) := by
  cases a <;> unfold Careful <;> infer_instance

def go (t : T) (op : Op) : Act T :=
  .move t ⟨op, 0, .never, true, false⟩

def lateReceive : List (Act (Fin 2)) :=
  replicate 4 (go 0 (.receive 0)) ++ replicate 3 (go 1 .destroy) ++
    replicate 3 (go 0 (.receive 0))

def earlyWake : List (Act (Fin 2)) :=
  replicate 5 (go 0 (.receive 0)) ++ replicate 5 (go 1 .destroy) ++
    replicate 2 (go 0 (.receive 0))

/-- An interrupt that is bound to the queue hits after `destroy`. -/
def lateHit : List (Act (Fin 2)) :=
  replicate 3 (go 1 .destroy) ++ replicate 4 (go 0 .bump)

theorem not_clean_late :
    ¬ Clean (run (step 32 fun _ => false) boot lateReceive) ∧
      ¬ Clean (run (step 32 fun _ => false) boot earlyWake) ∧
      ¬ Clean (run (step 32 fun t => t = 0) boot lateHit) := by
  decide

def wokenReceive : List (Act (Fin 2)) :=
  replicate 7 (go 0 (.receive 0)) ++ replicate 5 (go 1 .destroy) ++
    replicate 4 (go 0 (.receive 0))

theorem clean_wokenReceive :
    (run (step 32 fun _ => false) boot wokenReceive).shared.drained = true ∧
      Clean (run (step 32 fun _ => false) boot wokenReceive) :=
  ⟨by decide, clean_of_careful 32 _ wokenReceive (by decide)⟩

end Failures

end Fiasco.WaitQueue
