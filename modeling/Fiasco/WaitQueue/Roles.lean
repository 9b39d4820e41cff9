import Fiasco.WaitQueue.Model

/-!
# One side at a time

Whatever the participants do, the queue holds elements of one role, and `_has_senders` says which.
Removals leave the flag as it is, and both enqueue functions change it only when the queue is empty.
-/

namespace Fiasco.WaitQueue

open StableQueue

variable {T : Type} [DecidableEq T] {g : Shared T} {s : State T}

def Shared.side (g : Shared T) : Role :=
  if g.hasSenders then .sender else .receiver

def OneSided (g : Shared T) : Prop :=
  ∀ a ∈ g.waitQ, a.1.role = g.side

open Shared

omit [DecidableEq T] in
theorem OneSided.congr {g' : Shared T} (h : OneSided g) (hq : ∀ a ∈ g'.waitQ, a ∈ g.waitQ)
    (hf : g'.hasSenders = g.hasSenders) : OneSided g' := by
  intro a ha
  rw [side, hf]
  exact h a (hq a ha)

variable {e : Item T}

omit [DecidableEq T] in
theorem OneSided.role_of_dequeueFirst (h : OneSided g) (he : g.dequeueFirst.1 = some e) :
    e.role = g.side := by
  rw [Shared.dequeueFirst] at he
  cases hq : g.waitQ with
  | nil =>
    rw [hq] at he
    cases he
  | cons a q =>
    rw [hq] at he
    cases he
    exact h a (by rw [hq]; exact List.mem_cons_self)

theorem mem_insert {prio : Prio} {a : Item T × Prio} (ha : a ∈ (g.insert e prio).waitQ) :
    a ∈ g.waitQ ∨ a.1 = e := by
  rw [Shared.insert] at ha
  split_ifs at ha
  · exact .inl ha
  · rcases mem_insertBehind.mp ha with rfl | ha
    · exact .inr rfl
    · exact .inl ha

theorem hasSenders_insert (g : Shared T) (e : Item T) (prio : Prio) :
    (g.insert e prio).hasSenders = g.hasSenders := by
  rw [Shared.insert]
  split_ifs <;> rfl

theorem OneSided.insert (h : ∀ a ∈ g.waitQ, a.1.role = e.role) (hg : g.side = e.role) (prio : Prio)
    : OneSided (g.insert e prio) := by
  intro a ha
  rw [side, hasSenders_insert]
  refine .trans ?_ hg.symm
  rcases mem_insert ha with ha | ha
  · exact h a ha
  · rw [ha]

def Shared.queued (g : Shared T) (p : T) (prio : Prio) : Pc T → Shared T
  | .dequeueSender | .drainSenders => g.dequeueSender.2
  | .enqueueReceiver => (g.enqueueReceiver p prio).2
  | .dequeueReceiver | .drainReceivers | .bumpDrain _ => g.dequeueReceiver.2
  | .enqueueSender => (g.enqueueSender p prio).2
  | .leaveReceive | .abortDequeue | .zeroSend | .leave _ => g.dequeue p
  | _ => g

theorem queue_exec (bits : ℕ) (irq : T → Bool) (p : T) (g : Shared T) (c : Choice) (l : Pc T) :
    (exec bits irq p g c l).1.waitQ = (g.queued p c.prio l).waitQ ∧
      (exec bits irq p g c l).1.hasSenders = (g.queued p c.prio l).hasSenders := by
  cases l with
  | idle =>
    rw [exec, start]
    split_ifs
    · exact ⟨rfl, rfl⟩
    · exact ⟨rfl, rfl⟩
    · exact ⟨rfl, rfl⟩
    · split <;> exact ⟨rfl, rfl⟩
  | enqueueReceiver | drainSenders | drainReceivers =>
    rw [exec, queued]
    split <;> rename_i heq <;> rw [heq] <;> exact ⟨rfl, rfl⟩
  | check | test | replyTest | abort | bumpTest | bumpWake =>
    rw [exec]; split_ifs <;> exact ⟨rfl, rfl⟩
  | armReceive | armSend => rw [exec]; split <;> exact ⟨rfl, rfl⟩
  | serve e q =>
    cases q with
    | mark => simp only [exec, serve]; split_ifs <;> exact ⟨rfl, rfl⟩
    | _ => exact ⟨rfl, rfl⟩
  | meet r q =>
    cases q with
    | swap | deliver => simp only [exec, meet]; split_ifs <;> exact ⟨rfl, rfl⟩
    | _ => exact ⟨rfl, rfl⟩
  | _ => exact ⟨rfl, rfl⟩

section

variable (h : OneSided g)
include h

theorem OneSided.dequeue (t : T) : OneSided (g.dequeue t) :=
  h.congr (fun _ ha => (List.mem_filter.mp ha).1) rfl

omit [DecidableEq T] in
theorem OneSided.dequeueFirst : OneSided g.dequeueFirst.2 := by
  rw [Shared.dequeueFirst]
  cases hq : g.waitQ with
  | nil => exact h
  | cons a q => exact h.congr (fun b hb => by rw [hq]; exact List.mem_cons_of_mem _ hb) rfl

omit [DecidableEq T] in
theorem OneSided.dequeueSender : OneSided g.dequeueSender.2 := by
  rw [Shared.dequeueSender]
  split_ifs
  · exact h
  · exact h.dequeueFirst

omit [DecidableEq T] in
theorem OneSided.dequeueReceiver : OneSided g.dequeueReceiver.2 := by
  rw [Shared.dequeueReceiver]
  split_ifs
  · exact h
  · exact h.dequeueFirst

theorem OneSided.enqueueReceiver (t : T) (prio : Prio) : OneSided (g.enqueueReceiver t prio).2 := by
  rw [Shared.enqueueReceiver]
  split_ifs with hc
  · exact h.dequeueFirst
  · refine OneSided.insert (fun a ha => ?_) rfl prio
    -- what is in the queue was there as a receiver
    have hs : g.hasSenders = false := by
      simpa [List.ne_nil_of_mem ha] using hc
    rw [h a ha, side, hs]
    rfl

theorem OneSided.enqueueSender (t : T) (prio : Prio) : OneSided (g.enqueueSender t prio).2 := by
  rw [Shared.enqueueSender]
  split_ifs with hc
  · exact h.dequeueFirst
  · refine OneSided.insert (fun a ha => ?_) rfl prio
    have hs : g.hasSenders = true := by
      simpa [List.ne_nil_of_mem ha] using hc
    rw [h a ha, side, hs]
    rfl

theorem OneSided.exec (bits : ℕ) (irq : T → Bool) (t : T) (c : Choice) (l : Pc T) :
    OneSided (exec bits irq t g c l).1 := by
  obtain ⟨hq, hs⟩ := queue_exec bits irq t g c l
  refine OneSided.congr (g := g.queued t c.prio l) ?_ (fun _ ha => hq ▸ ha) hs
  cases l with
  | dequeueSender | drainSenders => exact h.dequeueSender
  | enqueueReceiver => exact h.enqueueReceiver t c.prio
  | dequeueReceiver | drainReceivers | bumpDrain => exact h.dequeueReceiver
  | enqueueSender => exact h.enqueueSender t c.prio
  | leaveReceive | abortDequeue | zeroSend | leave => exact h.dequeue t
  | _ => exact h

end

theorem oneSided_step (h : OneSided s.shared) (bits : ℕ) (irq : T → Bool) (a : Act T) :
    OneSided (step bits irq s a).shared := by
  cases a with
  | move t c => exact h.exec bits irq t c _
  | timeout t | cancel t | reply t => rw [step]; split_ifs <;> exact h
  | kill t => rw [step]; split_ifs <;> first | exact h | exact h.dequeue t

theorem oneSided_run (bits : ℕ) (irq : T → Bool) (as : List (Act T)) :
    OneSided (Machine.run (step bits irq) boot as).shared := by
  have hstep : ∀ s a, OneSided s.shared → True → OneSided (step bits irq s a).shared :=
    fun _ a h _ => oneSided_step h bits irq a
  refine Machine.Along.invariant hstep ?_ (Machine.along_of_forall fun _ _ => trivial)
  intro a ha
  cases ha

structure Separated (g : Shared T) : Prop where
  exclusive : ∀ a ∈ g.waitQ, ∀ b ∈ g.waitQ, a.1.role = b.1.role
  flag : ∀ a ∈ g.waitQ, g.hasSenders = true ↔ a.1.role = .sender
  dequeueSender : ∀ e, g.dequeueSender.1 = some e → e.role = .sender
  dequeueReceiver : ∀ e, g.dequeueReceiver.1 = some e → e.role = .receiver
  enqueueReceiver : ∀ t prio e, (g.enqueueReceiver t prio).1 = some e → e.role = .sender
  enqueueSender : ∀ t prio e, (g.enqueueSender t prio).1 = some e → e.role = .receiver

theorem OneSided.separated (h : OneSided g) : Separated g := by
  refine ⟨fun a ha b hb => (h a ha).trans (h b hb).symm, fun a ha => ?_, fun e he => ?_,
    fun e he => ?_, fun t prio e he => ?_, fun t prio e he => ?_⟩
  · rw [h a ha, side]
    cases g.hasSenders <;> simp
  · rw [Shared.dequeueSender] at he
    split_ifs at he with hs
    rw [h.role_of_dequeueFirst he, side]
    simpa using hs
  · rw [Shared.dequeueReceiver] at he
    split_ifs at he with hs
    rw [h.role_of_dequeueFirst he, side]
    simpa using hs
  · rw [Shared.enqueueReceiver] at he
    split_ifs at he with hs
    rw [h.role_of_dequeueFirst he, side]
    simp only [Bool.and_eq_true] at hs
    rw [hs.1]
    rfl
  · rw [Shared.enqueueSender] at he
    split_ifs at he with hs
    rw [h.role_of_dequeueFirst he, side]
    simp only [Bool.and_eq_true, Bool.not_eq_eq_eq_not, Bool.not_true] at hs
    rw [hs.1]
    rfl

theorem roles_separated (bits : ℕ) (irq : T → Bool) (as : List (Act T)) :
    Separated (Machine.run (step bits irq) boot as).shared :=
  (oneSided_run bits irq as).separated

end Fiasco.WaitQueue
