import Fiasco.Lib.Interleaving
import Fiasco.Lib.StableQueue
import Fiasco.PrioList.Shape

/-!
# Wait queues with timeouts, cancellation, generations and destruction

`do_receive`, `do_send_ipc`, interrupts that are bound to the queue, `sys_bump_generation` and
`destroy` on one `Wait_queue`. Each section under the lock of the queue and each access to the state
of another thread is a step of its own. A thread runs with its CPU locked, so its timeout and a
cancellation reach it only while it sleeps.

The handshake of a sender with a receiver that it has taken out of the queue is modelled as far as
it concerns the receiver; a sender that is refused enters the list of the receiver and is then
`elsewhere`. The reply to a sender with a receive phase is one step.
-/
namespace Fiasco.WaitQueue

open StableQueue

variable {T : Type}

inductive Role where
  | sender
  | receiver
deriving DecidableEq

/-- An element of `_wait_q`. The code does not store the role; it is the one of the function that has
enqueued the element. -/
@[ext] structure Item (T : Type) where
  who : T
  role : Role
deriving DecidableEq

/-- The state of a thread; its partner is `some none` for the wait queue, and for an interrupt
`queued` tells whether `_queued` is not 0. `seen` and `entered` are the generations at its last
`check_generation` and `enqueue_receiver`. -/
structure Tcb (T : Type) where
  ready : Bool
  sendWait : Bool
  sendInProgress : Bool
  receiveWait : Bool
  receiveInProgress : Bool
  transferFailed : Bool
  cancel : Bool
  timeout : Bool
  timer : Bool
  prepared : Bool
  poi : Option (Option T)
  queued : Bool
  seen : ℕ
  entered : ℕ

def Tcb.delIpc (b : Tcb T) : Tcb T :=
  { b with sendWait := false, sendInProgress := false, receiveWait := false,
           receiveInProgress := false }

def Tcb.delFull (b : Tcb T) : Tcb T :=
  { b.delIpc with transferFailed := false, cancel := false, timeout := false }

def Tcb.aborted (b : Tcb T) : Bool :=
  b.transferFailed || b.cancel || b.timeout

inductive Serve where
  | prepare
  | addProgress
  | mark
  | transfer
  | complete (ok : Bool)
deriving DecidableEq

inductive Meet where
  | setPartner
  | check
  | swap
  | deliver
  | activate
deriving DecidableEq

inductive Pc (T : Type) where
  | idle
  | check (generation : ℕ)
  | dequeueSender
  | resetPoi
  | enqueueReceiver
  | armReceive
  | leaveReceive
  | block
  | receiverAsleep
  | wake (aborted : Bool)
  | abortReceive
  | abortDequeue
  | serve (e : T) (p : Serve)
  | delMask
  | dequeueReceiver
  | prepareSend
  | enqueueSender
  | senderBlock
  | armSend
  | zeroSend
  | test
  | senderAsleep
  | leave (aborted : Bool)
  | fail
  | replyTest
  | replyAsleep
  | meet (r : T) (p : Meet)
  | elsewhere (r : T)
  | drainSenders
  | abort (e : T)
  | drainReceivers
  | wakeReceiver (r : T)
  | bumpInc
  | bumpTest (gen : ℕ)
  | bumpDrain (gen : ℕ)
  | bumpWake (gen : ℕ) (r : T)
  | bumpRead (gen : ℕ)
deriving DecidableEq

/-- The queue and the threads, how far `destroy` is (it has begun, has found no more senders, no
more receivers), and the generations that `sys_bump_generation` has returned. -/
structure Shared (T : Type) where
  waitQ : List (Item T × Prio)
  hasSenders : Bool
  generation : ℕ
  tcb : T → Tcb T
  gone : Bool
  noSenders : Bool
  drained : Bool
  returned : List ℕ

variable [DecidableEq T]

section

variable (g : Shared T) (t : T)

def Shared.modify (f : Tcb T → Tcb T) : Shared T :=
  { g with tcb := Function.update g.tcb t (f (g.tcb t)) }

def Shared.contains : Bool :=
  g.waitQ.any fun a => a.1.who = t

def Shared.insert (e : Item T) (prio : Prio) : Shared T :=
  if g.contains e.who then g else { g with waitQ := insertBehind (e, prio) g.waitQ }

def Shared.dequeue : Shared T :=
  { g with waitQ := g.waitQ.filter fun a => a.1.who ≠ t }

def Shared.dequeueFirst : Option (Item T) × Shared T :=
  match g.waitQ with
  | [] => (none, g)
  | a :: q => (some a.1, { g with waitQ := q })

def Shared.dequeueSender : Option (Item T) × Shared T :=
  if !g.hasSenders then (none, g) else g.dequeueFirst

def Shared.dequeueReceiver : Option (Item T) × Shared T :=
  if g.hasSenders then (none, g) else g.dequeueFirst

def Shared.enqueueReceiver (prio : Prio) : Option (Item T) × Shared T :=
  if g.hasSenders && !g.waitQ.isEmpty then g.dequeueFirst
  else (none, { g with hasSenders := false }.insert ⟨t, .receiver⟩ prio)

def Shared.enqueueSender (prio : Prio) : Option (Item T) × Shared T :=
  if !g.hasSenders && !g.waitQ.isEmpty then g.dequeueFirst
  else (none, { g with hasSenders := true }.insert ⟨t, .sender⟩ prio)

end

inductive Op where
  | receive (generation : ℕ)
  | send (haveRecv : Bool)
  | destroy
  | bump
deriving DecidableEq

inductive Timeout where
  | zero
  | finite
  | never
deriving DecidableEq

structure Choice where
  op : Op
  prio : Prio
  timeout : Timeout
  ok : Bool
  again : Bool

def proceed (found : T → Pc T) (nobody : Pc T) (r : Option (Item T) × Shared T) :
    Shared T × Pc T :=
  (r.2, match r.1 with
    | some e => found e.who
    | none => nobody)

def serve (irq : T → Bool) (t e : T) (g : Shared T) (c : Choice) : Serve → Shared T × Pc T
  | .prepare => (g.modify t fun b => { b with poi := some (some e) }, .serve e .addProgress)
  | .addProgress => (g.modify t fun b => { b with receiveInProgress := true }, .serve e .mark)
  | .mark =>
    -- an interrupt is consumed and has nothing to wait for
    if irq e then (g.modify e fun b => { b with queued := false }, .delMask)
    else
      (g.modify e fun b =>
        { b with sendInProgress := true, poi := if b.poi.isSome then some (some t) else none },
        .serve e .transfer)
  | .transfer => (g, .serve e (.complete c.ok))
  | .complete ok =>
    (g.modify e fun b =>
      if ok then { b.delIpc with ready := true, receiveWait := b.prepared }
      else { b with transferFailed := true, ready := true }, .delMask)

def Tcb.accepts (b : Tcb T) (t : T) : Bool :=
  b.receiveWait && !(b.receiveInProgress || b.sendWait || b.sendInProgress) &&
    (b.poi = some (some t))

def meet (irq : T → Bool) (t r : T) (g : Shared T) : Meet → Shared T × Pc T
  | .setPartner => (g.modify r fun b => { b with poi := some (some t) }, .meet r .check)
  | .check => (g, if (g.tcb r).accepts t then .meet r .swap else .elsewhere r)
  | .swap =>
    if (g.tcb r).receiveWait then
      (g.modify r fun b => { b with receiveWait := false, receiveInProgress := true },
        .meet r .deliver)
    else (g, .elsewhere r)
  | .deliver =>
    if irq t then (g.modify t fun b => { b with queued := false }, .meet r .activate)
    else
      ((g.modify r fun b => { b with receiveInProgress := false }).modify t fun b =>
        { b.delIpc with receiveWait := b.prepared }, .meet r .activate)
  | .activate =>
    (g.modify r fun b => { (if irq t then b.delIpc else b) with
        receiveInProgress := false, ready := true },
      if (g.tcb t).prepared then .replyTest else .idle)

/-- The system call clears `Thread_cancel`. Nobody finds the queue any more after its destruction
has begun, but interrupts stay bound to it. A hit of an interrupt that is still to be delivered only
counts. -/
def start (irq : T → Bool) (t : T) (g : Shared T) (c : Choice) : Shared T × Pc T :=
  if irq t then
    if (g.tcb t).queued then (g, .idle)
    else (g.modify t fun b => { b with queued := true, prepared := false }, .dequeueReceiver)
  else if g.gone then (g, .idle)
  else
    match c.op with
    | .receive generation => (g.modify t fun b => { b with cancel := false }, .check generation)
    | .send haveRecv =>
      (g.modify t fun b => { b with cancel := false, prepared := haveRecv }, .dequeueReceiver)
    | .destroy => ({ g with gone := true }, .drainSenders)
    | .bump => (g, .bumpInc)

def exec (bits : ℕ) (irq : T → Bool) (t : T) (g : Shared T) (c : Choice) : Pc T → Shared T × Pc T
  | .idle => start irq t g c
  | .check d =>
    if g.generation % 2 ^ bits = d then
      (g.modify t fun b => { b with seen := g.generation }, .dequeueSender)
    else (g, .idle)
  | .dequeueSender => proceed (.serve · .prepare) .resetPoi g.dequeueSender
  | .resetPoi =>
    (g.modify t fun b => { b with poi := some none, prepared := true }, .enqueueReceiver)
  | .enqueueReceiver =>
    match g.enqueueReceiver t c.prio with
    | (some e, g) => (g, .serve e.who .prepare)
    | (none, g) => (g.modify t fun b => { b with entered := g.generation }, .armReceive)
  | .serve e p => serve irq t e g c p
  | .delMask => (g.modify t Tcb.delIpc, .idle)
  | .armReceive =>
    match c.timeout with
    | .zero => (g, .leaveReceive)
    | .finite => (g.modify t fun b => { b with timer := true }, .block)
    | .never => (g, .block)
  | .leaveReceive => ((g.dequeue t).modify t fun b => { b with poi := none }, .idle)
  | .block => (g.modify t fun b => { b with ready := false, receiveWait := true }, .receiverAsleep)
  | .receiverAsleep =>
    let b := g.tcb t
    (g, if b.ready then .wake (b.cancel || b.timeout || b.receiveWait) else .receiverAsleep)
  | .wake aborted =>
    (g.modify t fun b => { b with poi := none, timer := false },
      if aborted then .abortReceive else .idle)
  | .abortReceive => (g.modify t Tcb.delFull, .abortDequeue)
  | .abortDequeue => (g.dequeue t, .idle)
  | .dequeueReceiver => proceed (.meet · .setPartner) .prepareSend g.dequeueReceiver
  | .prepareSend =>
    (g.modify t fun b => if b.prepared then { b with poi := some none } else b, .enqueueSender)
  | .enqueueSender =>
    proceed (.meet · .setPartner) (if irq t then .idle else .senderBlock) (g.enqueueSender t c.prio)
  | .meet r p => meet irq t r g p
  | .elsewhere r => (g, if c.again then .meet r .check else .idle)
  | .senderBlock => (g.modify t fun b => { b with ready := false, sendWait := true }, .armSend)
  | .armSend =>
    match c.timeout with
    | .zero => (g.modify t Tcb.delFull, .zeroSend)
    | .finite => (g.modify t fun b => { b with timer := true }, .test)
    | .never => (g, .test)
  | .zeroSend => (g.dequeue t, .idle)
  | .test =>
    let b := g.tcb t
    if b.sendWait && !b.aborted || b.sendInProgress then
      (g.modify t fun b => { b with ready := false }, .senderAsleep)
    else (g.modify t fun b => { b with timer := false }, .leave (b.sendWait || b.aborted))
  | .senderAsleep => (g, if (g.tcb t).ready then .test else .senderAsleep)
  | .leave aborted =>
    (g.dequeue t,
      if aborted then .fail
      else if (g.tcb t).prepared && ((g.tcb t).receiveWait || (g.tcb t).receiveInProgress) then
        .replyTest
      else .idle)
  | .fail => (g.modify t Tcb.delFull, .idle)
  | .replyTest =>
    let b := g.tcb t
    if b.aborted then (g, .fail)
    else if b.receiveWait || b.receiveInProgress then
      (g.modify t fun b => { b with ready := false }, .replyAsleep)
    else (g, .idle)
  | .replyAsleep => (g, if (g.tcb t).ready then .idle else .replyAsleep)
  | .drainSenders =>
    match g.dequeueSender with
    | (some e, g) => (g, .abort e.who)
    | (none, g) => ({ g with noSenders := true }, .drainReceivers)
  | .abort e =>
    -- `ipc_receiver_aborted`; there is nothing to stop for an interrupt
    (if irq e then g
      else g.modify e fun b => { b with sendWait := false, transferFailed := true, ready := true },
      .drainSenders)
  | .drainReceivers =>
    match g.dequeueReceiver with
    | (some r, g) => (g, .wakeReceiver r.who)
    | (none, g) => ({ g with drained := true }, .idle)
  | .wakeReceiver r => (g.modify r fun b => { b with ready := true }, .drainReceivers)
  | .bumpInc => ({ g with generation := g.generation + 1 }, .bumpTest (g.generation + 1))
  | .bumpTest gen =>
    if g.waitQ.isEmpty || g.hasSenders then ({ g with returned := gen :: g.returned }, .idle)
    else (g, .bumpDrain gen)
  | .bumpDrain gen => proceed (.bumpWake gen ·) (.bumpRead gen) g.dequeueReceiver
  | .bumpWake gen r =>
    -- `change_safely`
    (if (g.tcb r).receiveWait && !(g.tcb r).ready && !(g.tcb r).cancel then
        g.modify r fun b => { b with receiveWait := false, ready := true, cancel := true }
      else g, .bumpDrain gen)
  | .bumpRead _ => ({ g with returned := g.generation :: g.returned }, .idle)

abbrev State (T : Type) := Interleaving.System T (Shared T) (Pc T)

def Pc.asleep : Pc T → Bool
  | .receiverAsleep | .senderAsleep | .replyAsleep => true
  | _ => false

def Pc.sends : Pc T → Bool
  | .meet _ _ | .senderBlock | .armSend | .test | .senderAsleep | .leave _ | .replyTest
  | .replyAsleep => true
  | _ => false

inductive Act (T : Type) where
  | move (t : T) (c : Choice)
  | timeout (t : T)
  | cancel (t : T)
  | reply (t : T)
  | kill (t : T)

def step (bits : ℕ) (irq : T → Bool) (s : State T) : Act T → State T
  | .move t c => s.move t (exec bits irq t s.shared c (s.loc t))
  | .timeout t =>
    if (s.loc t).asleep && (s.shared.tcb t).timer then
      s.move t (s.shared.modify t fun b => { b with timer := false, timeout := true, ready := true },
        s.loc t)
    else s
  | .cancel t =>
    if (s.loc t).asleep then
      s.move t (s.shared.modify t fun b => { b with cancel := true, ready := true }, s.loc t)
    else s
  | .reply t =>
    if !irq t && (s.loc t).sends && (s.shared.tcb t).receiveWait then
      s.move t (s.shared.modify t fun b => { b with receiveWait := false, ready := true }, s.loc t)
    else s
  | .kill t =>
    if irq t then s.move t (s.shared.dequeue t, s.loc t)
    else if (s.loc t).asleep then s.move t ((s.shared.dequeue t).modify t Tcb.delFull, .idle)
    else s

def boot : State T where
  shared :=
    { waitQ := []
      hasSenders := false
      generation := 0
      tcb := fun _ => ⟨true, false, false, false, false, false, false, false, false, false, none, false,
        0, 0⟩
      gone := false
      noSenders := false
      drained := false
      returned := [] }
  loc := fun _ => .idle

end Fiasco.WaitQueue
