import Fiasco.WaitQueue.Roles

/-!
# Who sleeps is in the queue or is about to be woken

A thread may be taken out of the queue by somebody who then wakes it up, while it gives up and
starts another operation. What is kept is that a thread that sleeps is in the queue, or somebody
will wake it. This needs that a thread is not taken out of the queue before it has set its waiting
state, which it does after it has entered the queue.
-/

namespace Fiasco.WaitQueue

open StableQueue

variable {T : Type}

def Pc.early : Pc T → Bool
  | .armReceive | .block | .senderBlock => true
  | _ => false

inductive Kind where
  | plain
  | fresh
  | posted
  | listening
  | offered
  | testing
  | sending
  | served
  | free
  | reply
  | last
deriving DecidableEq

def Pc.kind : Pc T → Kind
  | .check _ | .dequeueSender | .resetPoi | .enqueueReceiver => .fresh
  | .armReceive | .block => .posted
  | .receiverAsleep => .listening
  | .senderBlock => .offered
  | .armSend | .test => .testing
  | .senderAsleep => .sending
  | .leave aborted => if aborted then .free else .served
  | .fail => .free
  | .replyTest | .replyAsleep => .reply
  | .meet _ .activate => .last
  | _ => .plain

def Pc.completes (t : T) : Pc T → Prop
  | .serve e (.complete ok) => e = t ∧ ok = true
  | .serve e _ => e = t
  | .abort e => e = t
  | _ => False

def Pc.wakes (t : T) : Pc T → Prop
  | .meet r .deliver | .meet r .activate | .wakeReceiver r => r = t
  | l => l.completes t

def Pc.asks (p t : T) (poi : Option (Option T)) : Pc T → Prop
  | .meet r .setPartner | .meet r .swap | .bumpWake _ r => r = t
  | .meet r .check => r = t ∧ poi = some (some p)
  | _ => False

def Pc.transfers (t : T) : Pc T → Prop
  | .serve e .transfer => e = t
  | .serve e (.complete ok) => e = t ∧ ok = true
  | _ => False

def Pc.delivers (t : T) : Pc T → Prop
  | .meet r .deliver | .meet r .activate => r = t
  | _ => False

def Pc.receives : Pc T → Bool
  | .serve _ .mark | .serve _ .transfer | .serve _ (.complete _) | .delMask => true
  | _ => false

def Pc.names : Pc T → Option T
  | .serve e _ | .meet e _ | .abort e | .wakeReceiver e | .bumpWake _ e => some e
  | _ => none

/-- `inS` and `inR`: the thread is in the queue as a sender or as a receiver. `C`, `W` and `A`:
somebody completes it, wakes it, asks it. -/
def Stands (inS inR C W A : Prop) (b : Tcb T) : Kind → Prop
  | .plain => b.sendWait = false ∧ (b.receiveWait = true → b.ready = true)
  | .fresh => b.sendWait = false ∧ (b.receiveWait = true → b.ready = true) ∧ b.cancel = false
  | .posted =>
    b.sendWait = false ∧ (b.receiveWait = true → b.ready = true) ∧ b.cancel = false ∧ inR
  | .listening =>
    b.sendWait = false ∧
      (b.ready = false → b.cancel = false ∧ (W ∨ b.receiveWait = true ∧ (inR ∨ A)))
  | .offered => b.sendWait = false ∧ inS
  | .testing =>
    (b.sendWait = true → b.aborted = false → inS ∨ C) ∧ (b.sendWait = false → b.ready = true)
  | .sending =>
    (b.sendWait = true → b.aborted = false → inS ∨ C) ∧
      (b.ready = false → C ∨ b.sendWait = true ∧ b.aborted = false)
  | .served => b.sendWait = false ∧ b.ready = true
  | .free => True
  | .reply => b.sendWait = false
  | .last => b.sendWait = false ∧ (b.prepared = false → b.receiveWait = true → b.ready = true)

def Shared.has (g : Shared T) (e : Item T) : Prop :=
  ∃ a ∈ g.waitQ, a.1 = e

def Stood (s : State T) (t : T) (g : Shared T) (b : Tcb T) (k : Kind) : Prop :=
  Stands (g.has ⟨t, .sender⟩) (g.has ⟨t, .receiver⟩) (∃ q, (s.loc q).completes t)
    (∃ q, (s.loc q).wakes t) (∃ q, (s.loc q).asks q t b.poi) b k

structure Fine (irq : T → Bool) (s : State T) (t : T) : Prop where
  stands : Stands (s.shared.has ⟨t, .sender⟩) (s.shared.has ⟨t, .receiver⟩)
    (∃ p, (s.loc p).completes t) (∃ p, (s.loc p).wakes t)
    (∃ p, (s.loc p).asks p t (s.shared.tcb t).poi) (s.shared.tcb t) (s.loc t).kind
  sends : (s.shared.tcb t).sendInProgress = true → ∃ p, (s.loc p).transfers t
  receives : (s.shared.tcb t).receiveInProgress = true →
    (∃ p, (s.loc p).delivers t) ∨ (s.loc t).receives = true
  irq : irq t = true →
    ((s.loc t).kind = .plain ∨ (s.loc t).kind = .last) ∧ (s.shared.tcb t).prepared = false

structure Inv (irq : T → Bool) (s : State T) : Prop where
  sides : OneSided s.shared
  fine : ∀ t, Fine irq s t

section Places

variable {t p : T} {l : Pc T} {poi : Option (Option T)}

theorem Pc.completes.wakes (h : l.completes t) : l.wakes t := by
  cases l with
  | serve e q | abort e => exact h
  | _ => cases h

theorem Pc.transfers.completes (h : l.transfers t) : l.completes t := by
  cases l with
  | serve e q => cases q <;> first | exact h | cases h
  | _ => cases h

theorem Pc.delivers.wakes (h : l.delivers t) : l.wakes t := by
  cases l with
  | meet r q => cases q <;> exact h
  | _ => cases h

theorem Pc.wakes.names (h : l.wakes t) : l.names = some t := by
  cases l with
  | serve e q => cases q <;> first | exact congrArg some h | exact congrArg some h.1
  | meet r q => cases q <;> first | exact congrArg some h | cases h
  | abort e | wakeReceiver e => exact congrArg some h
  | _ => cases h

theorem Pc.asks.names (h : l.asks p t poi) : l.names = some t := by
  cases l with
  | meet r q => cases q <;> first | exact congrArg some h | exact congrArg some h.1 | cases h
  | bumpWake g r => exact congrArg some h
  | _ => cases h

end Places

section Rules

variable {inS inR C W A inS' inR' C' W' A' : Prop} {b b' : Tcb T} {k : Kind}

section

variable (h : Stands inS inR C W A b k)
include h

theorem Stands.mono (hS : inS → inS' ∨ C' ∧ k ≠ .offered)
    (hR : inR → inR' ∨ (W' ∨ A') ∧ k ≠ .posted) (hC : C → C') (hW : W → W')
    (hA : k = .listening → b.ready = false → A → A' ∨ W') : Stands inS' inR' C' W' A' b k := by
  cases k with
  | plain | fresh | served | reply | last => exact h
  | posted => exact ⟨h.1, h.2.1, h.2.2.1, (hR h.2.2.2).resolve_right fun hc => hc.2 rfl⟩
  | listening =>
    refine ⟨h.1, fun hr => ⟨(h.2 hr).1, ?_⟩⟩
    rcases (h.2 hr).2 with hw | ⟨hw, hq | ha⟩
    · exact .inl (hW hw)
    · rcases hR hq with hq | ⟨hw' | ha, -⟩
      · exact .inr ⟨hw, .inl hq⟩
      · exact .inl hw'
      · exact .inr ⟨hw, .inr ha⟩
    · rcases hA rfl hr ha with ha | hw'
      · exact .inr ⟨hw, .inr ha⟩
      · exact .inl hw'
  | offered => exact ⟨h.1, (hS h.2).resolve_right fun hc => hc.2 rfl⟩
  | testing =>
    refine ⟨fun h1 h2 => ?_, h.2⟩
    rcases h.1 h1 h2 with hs | hc
    · exact (hS hs).imp_right And.left
    · exact .inr (hC hc)
  | sending =>
    refine ⟨fun h1 h2 => ?_, fun hr => (h.2 hr).imp_left hC⟩
    rcases h.1 h1 h2 with hs | hc
    · exact (hS hs).imp_right And.left
    · exact .inr (hC hc)
  | free => trivial

theorem Stands.woken (hC : C → C') (hW : W') :
    Stands inS inR C' W' A' b k :=
  h.mono .inl .inl hC (fun _ => hW) fun _ _ _ => .inr hW

theorem Stands.ready (hready : b'.ready = true)
    (hwait : b'.sendWait = true → b.sendWait = true ∧ (b'.aborted = false → b.aborted = false))
    (hcancel : b'.cancel = true → b.cancel = true)
    (hC : b'.sendWait = true → C → C') : Stands inS inR C' W' A' b' k := by
  have hs : b.sendWait = false → b'.sendWait = false := by
    intro hb
    cases hb' : b'.sendWait with
    | false => rfl
    | true => exact absurd (hwait hb').1 (by simp [hb])
  have hc : b.cancel = false → b'.cancel = false := by
    intro hb
    cases hb' : b'.cancel with
    | false => rfl
    | true => exact absurd (hcancel hb') (by simp [hb])
  have hn : b'.ready = false → False := by
    rw [hready]
    exact Bool.noConfusion
  cases k with
  | plain => exact ⟨hs h.1, fun _ => hready⟩
  | fresh => exact ⟨hs h.1, fun _ => hready, hc h.2.2⟩
  | posted => exact ⟨hs h.1, fun _ => hready, hc h.2.2.1, h.2.2.2⟩
  | listening => exact ⟨hs h.1, fun hr => (hn hr).elim⟩
  | offered => exact ⟨hs h.1, h.2⟩
  | testing =>
    refine ⟨fun h1 h2 => ?_, fun _ => hready⟩
    obtain ⟨h3, h4⟩ := hwait h1
    exact (h.1 h3 (h4 h2)).imp_right (hC h1)
  | sending =>
    refine ⟨fun h1 h2 => ?_, fun hr => (hn hr).elim⟩
    obtain ⟨h3, h4⟩ := hwait h1
    exact (h.1 h3 (h4 h2)).imp_right (hC h1)
  | served => exact ⟨hs h.1, hready⟩
  | free => trivial
  | reply => exact hs h
  | last => exact ⟨hs h.1, fun _ _ => hready⟩

theorem Stands.unwait (hw : W) :
    Stands inS inR C W A { b with receiveWait := false, receiveInProgress := true } k := by
  cases k with
  | plain => exact ⟨h.1, nofun⟩
  | fresh | posted => exact ⟨h.1, nofun, h.2.2⟩
  | listening => exact ⟨h.1, fun hr => ⟨(h.2 hr).1, .inl hw⟩⟩
  | last => exact ⟨h.1, fun _ => nofun⟩
  | _ => exact h

theorem Stands.cancel (hrecv : b.receiveWait = true) (hr : b.ready = false) :
    Stands inS inR C' W' A' { b with receiveWait := false, ready := true, cancel := true } k := by
  have hn : (b.receiveWait = true → b.ready = true) → False := by
    intro hc
    rw [hc hrecv] at hr
    cases hr
  have habort : ∀ b' : Tcb T, { b' with cancel := true }.aborted = false → False := by
    intro b'
    simp [Tcb.aborted]
  cases k with
  | plain | listening => exact ⟨h.1, nofun⟩
  | fresh | posted => exact (hn h.2.1).elim
  | offered | reply => exact h
  | testing => exact ⟨fun _ ha => (habort _ ha).elim, fun _ => rfl⟩
  | sending => exact ⟨fun _ ha => (habort _ ha).elim, nofun⟩
  | served => exact ⟨h.1, rfl⟩
  | free => trivial
  | last => exact ⟨h.1, fun _ => nofun⟩

end

end Rules

variable [DecidableEq T]

def taken (g : Shared T) (t : T) (c : Choice) : Pc T → Option (Item T)
  | .dequeueSender | .drainSenders => g.dequeueSender.1
  | .enqueueReceiver => (g.enqueueReceiver t c.prio).1
  | .dequeueReceiver | .drainReceivers | .bumpDrain _ => g.dequeueReceiver.1
  | .enqueueSender => (g.enqueueSender t c.prio).1
  | _ => none

/-- Nobody is taken out of the queue before it has set its waiting state, and the transfer of a
message from the queue succeeds. -/
def Timely (s : State T) : Act T → Prop
  | .move t c =>
    (∀ e, taken s.shared t c (s.loc t) = some e → (s.loc e.who).early = false) ∧
      ∀ e, s.loc t = .serve e .transfer → c.ok = true
  | _ => True

section Queue

variable {g g' : Shared T} {e x : Item T} {t : T} {c : Choice} {l : Pc T} {prio : Prio}

theorem has_dequeue (h : g.has e) (ht : e.who ≠ t) : (g.dequeue t).has e := by
  obtain ⟨a, ha, rfl⟩ := h
  exact ⟨a, List.mem_filter.mpr ⟨ha, by simpa using ht⟩, rfl⟩

theorem has_insert_self (h : OneSided (g.insert x prio)) (hx : g.side = x.role) :
    (g.insert x prio).has x := by
  have hside : (g.insert x prio).side = x.role := by
    rw [Shared.side, hasSenders_insert]
    exact hx
  rw [Shared.insert] at h hside ⊢
  split_ifs at h hside ⊢ with hc
  · obtain ⟨a, ha, hw⟩ := List.any_eq_true.mp hc
    refine ⟨a, ha, ?_⟩
    exact Item.ext (by simpa using hw) ((h a ha).trans hside)
  · exact ⟨_, mem_insertBehind.mpr (.inl rfl), rfl⟩

omit [DecidableEq T] in
theorem dequeueFirst_none (h : g.dequeueFirst.1 = none) : g.waitQ = [] := by
  rw [Shared.dequeueFirst] at h
  split at h
  · assumption
  · cases h

theorem OneSided.enqueueReceiver_self (h : OneSided g) (t : T) (prio : Prio)
    (hn : (g.enqueueReceiver t prio).1 = none) :
    (g.enqueueReceiver t prio).2.has ⟨t, .receiver⟩ := by
  have hs := h.enqueueReceiver t prio
  rw [Shared.enqueueReceiver] at hn hs ⊢
  split_ifs at hn hs ⊢ with hc
  · simp [dequeueFirst_none hn] at hc
  · exact has_insert_self hs rfl

theorem OneSided.enqueueSender_self (h : OneSided g) (t : T) (prio : Prio)
    (hn : (g.enqueueSender t prio).1 = none) : (g.enqueueSender t prio).2.has ⟨t, .sender⟩ := by
  have hs := h.enqueueSender t prio
  rw [Shared.enqueueSender] at hn hs ⊢
  split_ifs at hn hs ⊢ with hc
  · simp [dequeueFirst_none hn] at hc
  · exact has_insert_self hs rfl

/-! The functions of the queue leave everything else alone, and return whom they take out of it. -/

section

variable (g : Shared T) (t : T)

def Shared.record : Bool × Bool × ℕ × List ℕ :=
  (g.noSenders, g.drained, g.generation, g.returned)

structure Shared.Keeps (g : Shared T) (r : Option (Item T) × Shared T) : Prop where
  tcb : r.2.tcb = g.tcb
  record : r.2.record = g.record
  has : ∀ {e}, g.has e → r.2.has e ∨ r.1 = some e

section

omit [DecidableEq T]

theorem keeps_same : g.Keeps (none, g) := ⟨rfl, rfl, .inl⟩

theorem keeps_dequeueFirst : g.Keeps g.dequeueFirst := by
  rw [Shared.dequeueFirst]
  cases hq : g.waitQ with
  | nil => exact keeps_same g
  | cons b q =>
    refine ⟨rfl, rfl, ?_⟩
    rintro _ ⟨a, ha, rfl⟩
    rw [hq] at ha
    rcases List.mem_cons.mp ha with rfl | ha
    · exact .inr rfl
    · exact .inl ⟨a, ha, rfl⟩

end

theorem keeps_insert (x : Item T) (prio : Prio) (senders : Bool) :
    g.Keeps (none, { g with hasSenders := senders }.insert x prio) := by
  rw [Shared.insert]
  split_ifs
  · exact ⟨rfl, rfl, .inl⟩
  · refine ⟨rfl, rfl, ?_⟩
    rintro _ ⟨a, ha, rfl⟩
    exact .inl ⟨a, mem_insertBehind.mpr (.inr ha), rfl⟩

omit [DecidableEq T] in
theorem keeps_dequeueSender : g.Keeps g.dequeueSender := by
  rw [Shared.dequeueSender]
  split_ifs
  · exact keeps_same g
  · exact keeps_dequeueFirst g

omit [DecidableEq T] in
theorem keeps_dequeueReceiver : g.Keeps g.dequeueReceiver := by
  rw [Shared.dequeueReceiver]
  split_ifs
  · exact keeps_same g
  · exact keeps_dequeueFirst g

theorem keeps_enqueueReceiver (prio : Prio) : g.Keeps (g.enqueueReceiver t prio) := by
  rw [Shared.enqueueReceiver]
  split_ifs
  · exact keeps_dequeueFirst g
  · exact keeps_insert g _ _ _

theorem keeps_enqueueSender (prio : Prio) : g.Keeps (g.enqueueSender t prio) := by
  rw [Shared.enqueueSender]
  split_ifs
  · exact keeps_dequeueFirst g
  · exact keeps_insert g _ _ _

end

end Queue

section Effects

variable (bits : ℕ) (irq : T → Bool) {g : Shared T} {p t : T} {c : Choice} {l : Pc T} {e : Item T}

theorem tcb_modify (g : Shared T) (p t : T) (f : Tcb T → Tcb T) :
    (g.modify p f).tcb t = if t = p then f (g.tcb p) else g.tcb t :=
  Function.update_apply ..

theorem tcb_modify_self (g : Shared T) (t : T) (f : Tcb T → Tcb T) :
    (g.modify t f).tcb t = f (g.tcb t) :=
  Function.update_self ..

theorem tcb_modify_of_ne (h : t ≠ p) (f : Tcb T → Tcb T) : (g.modify p f).tcb t = g.tcb t :=
  Function.update_of_ne h ..

/-! What a step leaves alone; the cases are those of the program. -/

@[grind =] theorem tcb_dequeue (g : Shared T) (t : T) : (g.dequeue t).tcb = g.tcb := rfl

omit [DecidableEq T] in
@[grind =] theorem tcb_dequeueSender (g : Shared T) : g.dequeueSender.2.tcb = g.tcb :=
  (keeps_dequeueSender g).tcb

omit [DecidableEq T] in
@[grind =] theorem tcb_dequeueReceiver (g : Shared T) : g.dequeueReceiver.2.tcb = g.tcb :=
  (keeps_dequeueReceiver g).tcb

@[grind =] theorem tcb_enqueueReceiver (g : Shared T) (t : T) (prio : Prio) :
    (g.enqueueReceiver t prio).2.tcb = g.tcb :=
  (keeps_enqueueReceiver g t prio).tcb

@[grind =] theorem tcb_enqueueSender (g : Shared T) (t : T) (prio : Prio) :
    (g.enqueueSender t prio).2.tcb = g.tcb :=
  (keeps_enqueueSender g t prio).tcb

theorem tcb_exec (h : t ≠ p) (hn : l.names ≠ some t) :
    (exec bits irq p g c l).1.tcb t = g.tcb t := by
  cases l with
  | serve e q => cases q <;> grind [exec, serve, tcb_modify, Pc.names]
  | meet e q => cases q <;> grind [exec, meet, tcb_modify, Pc.names]
  | _ => grind [exec, start, proceed, tcb_modify, Pc.names]

theorem has_exec (h : g.has e) (ht : e.who ≠ p) :
    (exec bits irq p g c l).1.has e ∨ taken g p c l = some e := by
  rw [Shared.has, (queue_exec bits irq p g c l).1]
  cases l with
  | dequeueSender | drainSenders => exact (keeps_dequeueSender g).has h
  | enqueueReceiver => exact (keeps_enqueueReceiver g p c.prio).has h
  | dequeueReceiver | drainReceivers | bumpDrain gen => exact (keeps_dequeueReceiver g).has h
  | enqueueSender => exact (keeps_enqueueSender g p c.prio).has h
  | leaveReceive | abortDequeue | zeroSend | leave a => exact .inl (has_dequeue h ht)
  | _ => exact .inl h

theorem taken_spec (hg : OneSided g) (h : taken g p c l = some e) :
    e.role = .sender ∧ (exec bits irq p g c l).2.completes e.who ∨
      e.role = .receiver ∧ ((exec bits irq p g c l).2.wakes e.who ∨
        ∀ poi, (exec bits irq p g c l).2.asks p e.who poi) := by
  have hs := hg.separated
  cases l with
  | dequeueSender =>
    refine .inl ⟨hs.dequeueSender e h, ?_⟩
    simp only [taken] at h
    simp only [exec, proceed, h]
    rfl
  | enqueueReceiver =>
    refine .inl ⟨hs.enqueueReceiver p c.prio e h, ?_⟩
    simp only [taken] at h
    rw [exec]
    split <;> rename_i heq <;> rw [heq] at h <;> cases h
    rfl
  | dequeueReceiver | bumpDrain gen =>
    refine .inr ⟨hs.dequeueReceiver e h, .inr fun poi => ?_⟩
    simp only [taken] at h
    simp only [exec, proceed, h]
    rfl
  | enqueueSender =>
    refine .inr ⟨hs.enqueueSender p c.prio e h, .inr fun poi => ?_⟩
    simp only [taken] at h
    simp only [exec, proceed, h]
    rfl
  | drainSenders =>
    refine .inl ⟨hs.dequeueSender e h, ?_⟩
    simp only [taken] at h
    rw [exec]
    split <;> rename_i heq <;> rw [heq] at h <;> cases h
    rfl
  | drainReceivers =>
    refine .inr ⟨hs.dequeueReceiver e h, .inl ?_⟩
    simp only [taken] at h
    rw [exec]
    split <;> rename_i heq <;> rw [heq] at h <;> cases h
    rfl
  | _ => cases h

def Pc.records : Pc T → Bool
  | .drainSenders | .drainReceivers | .bumpInc | .bumpTest _ | .bumpRead _ => true
  | _ => false

theorem record_exec (h : l.records = false) : (exec bits irq p g c l).1.record = g.record := by
  have h1 := (keeps_dequeueSender g).record
  have h2 := (keeps_dequeueReceiver g).record
  have h3 := (keeps_enqueueReceiver g p c.prio).record
  have h4 := (keeps_enqueueSender g p c.prio).record
  cases l with
  | serve e q => cases q <;> grind [exec, serve, Shared.record, Shared.modify]
  | meet e q => cases q <;> grind [exec, meet, Shared.record, Shared.modify]
  | _ => grind [exec, start, proceed, Shared.record, Shared.modify, Shared.dequeue, Pc.records]

/-- The parts of the program that are entered at one place only: the wait of a receiver, the second
loop of `destroy`, and `sys_bump_generation` behind the increment. -/
inductive Zone where
  | outside
  | waiting
  | behind
  | bumping
deriving DecidableEq

def Pc.zone : Pc T → Zone
  | .armReceive | .block | .receiverAsleep => .waiting
  | .drainReceivers | .wakeReceiver _ => .behind
  | .bumpTest _ | .bumpDrain _ | .bumpWake _ _ | .bumpRead _ => .bumping
  | _ => .outside

theorem zone_exec : (exec bits irq p g c l).2.zone = .outside ∨
    (exec bits irq p g c l).2.zone = l.zone ∨
    l = .enqueueReceiver ∧ (g.enqueueReceiver p c.prio).1 = none ∧
      (exec bits irq p g c l).2.zone = .waiting ∨
    l = .drainSenders ∧ (exec bits irq p g c l).1.noSenders = true ∧
      (exec bits irq p g c l).2.zone = .behind ∨
    l = .bumpInc := by
  cases l with
  | serve e q => cases q <;> grind [exec, serve, Pc.zone]
  | meet e q => cases q <;> grind [exec, meet, Pc.zone]
  | _ => grind [exec, start, proceed, Pc.zone]

end Effects

end Fiasco.WaitQueue
