import Fiasco.Ipc.SenderList
import Fiasco.Lib.Interleaving

/-!
# Wait queues

A `Wait_queue` holds blocked senders or blocked receivers. A thread that finds nobody of the other
side enters the queue under its lock, and sets its blocking state in a later step. All participants
run on different CPUs; there are no timeouts and no cancels. An interrupt that is hit again before
its last message is completed counts as another sender.
-/
namespace Fiasco.Ipc.WaitQueue

variable {T : Type*}

/-- The state of a thread, whether it has a receive phase, and its list of senders, whose element of
interest is a sender or (`none`) the wait queue. For an interrupt, `queued` tells whether `_queued`
is not 0. `transferred` is about the message of the last send. -/
structure Tcb (T : Type*) where
  ready : Bool
  sendWait : Bool
  sendInProgress : Bool
  receiveWait : Bool
  receiveInProgress : Bool
  transferFailed : Bool
  prepared : Bool
  list : SenderList (Option T)
  queued : Bool
  transferred : Bool

def Tcb.delIpc (b : Tcb T) : Tcb T :=
  { b with sendWait := false, sendInProgress := false, receiveWait := false,
           receiveInProgress := false }

def Tcb.delFull (b : Tcb T) : Tcb T := { b.delIpc with transferFailed := false }

inductive Serve where
  | prepare
  | addProgress
  | mark
  | transfer
  | complete (ok : Bool)
deriving DecidableEq

/-- A sender that has taken a receiver out of the queue; `again` after it has entered the list of
the receiver. -/
inductive Meet where
  | setPartner
  | state (again : Bool)
  | poi (again : Bool)
  | empty (again : Bool)
  | head (again : Bool)
  | swap (again : Bool)
  | addWait
  | insert
  | remove
  | delWait
  | deliver
  | delProgress (ok : Bool)
  | change (ok : Bool)
  | activate (ok : Bool)
  | finish
deriving DecidableEq

inductive Pc (T : Type*) where
  | idle
  | failed
  | dequeueSender
  | resetPoi
  | enqueueReceiver
  | serve (e : T) (p : Serve)
  | delMask
  | receiverQueued
  | receiverAsleep
  | wake (waiting : Bool)
  | abortReceive
  | abortDequeue
  | dequeueReceiver
  | prepareSend
  | enqueueSender
  | meet (r : T) (p : Meet)
  | sendWait (r : T)
  | sendAsleep (r : T)
  | senderQueued
  | test
  | senderAsleep
  | dequeue (wait failed : Bool)
  | fail
  | replyTest
  | replyAsleep
deriving DecidableEq

structure Shared (T : Type*) where
  waitQ : SenderList T
  hasSenders : Bool
  tcb : T → Tcb T

variable [DecidableEq T]

section

variable (irq : T → Bool) (t : T) (g : Shared T)

def Shared.modify (t : T) (f : Tcb T → Tcb T) : Shared T :=
  { g with tcb := Function.update g.tcb t (f (g.tcb t)) }

def Shared.dequeueFirst : Option T × Shared T :=
  match g.waitQ.elems with
  | [] => (none, g)
  | e :: _ => (some e, { g with waitQ := g.waitQ.unlink e })

def Shared.dequeueSender : Option T × Shared T :=
  if !g.hasSenders then (none, g) else g.dequeueFirst

def Shared.dequeueReceiver : Option T × Shared T :=
  if g.hasSenders then (none, g) else g.dequeueFirst

def Shared.enqueueReceiver (t : T) (prio : ℕ) : Option T × Shared T :=
  if g.hasSenders && !g.waitQ.elems.isEmpty then g.dequeueFirst
  else (none, { g with hasSenders := false, waitQ := g.waitQ.link t prio })

def Shared.enqueueSender (t : T) (prio : ℕ) : Option T × Shared T :=
  if !g.hasSenders && !g.waitQ.elems.isEmpty then g.dequeueFirst
  else (none, { g with hasSenders := true, waitQ := g.waitQ.link t prio })

structure Choice where
  send : Bool
  haveRecv : Bool
  prio : ℕ
  ok : Bool

def proceed (found : T → Pc T) (nobody : Pc T) (r : Option T × Shared T) : Shared T × Pc T :=
  (r.2, match r.1 with
    | some e => found e
    | none => nobody)

def serve (t e : T) (g : Shared T) (c : Choice) : Serve → Shared T × Pc T
  | .prepare =>
    (g.modify t fun b => { b with list := { b.list with poi := some (some e, .clear) } },
      .serve e .addProgress)
  | .addProgress => (g.modify t fun b => { b with receiveInProgress := true }, .serve e .mark)
  | .mark =>
    -- an interrupt is consumed and has nothing to wait for
    if irq e then (g.modify e fun b => { b with queued := false, transferred := true }, .delMask)
    else (g.modify e fun b => { b with sendInProgress := true }, .serve e .transfer)
  | .transfer => (g.modify e fun b => { b with transferred := c.ok }, .serve e (.complete c.ok))
  | .complete ok =>
    (g.modify e fun b =>
      if ok then { b.delIpc with ready := true, receiveWait := b.prepared }
      else { b with transferFailed := true, ready := true }, .delMask)

def Meet.ok (again : Bool) : Meet := if again then .remove else .swap false

def Meet.enter (irq : Bool) : Meet := if irq then .insert else .addWait

def Pc.queued (irq : Bool) (r : T) : Pc T := if irq then .idle else .sendWait r

def Pc.no (irq : Bool) (r : T) (again : Bool) : Pc T :=
  if again then .queued irq r else .meet r (.enter irq)

/-- A step of a sender that has taken `r` out of the queue. Nobody else looks at the partner of `r`
while it is set. -/
def meet (t r : T) (g : Shared T) (c : Choice) : Meet → Shared T × Pc T
  | .setPartner =>
    (g.modify r fun b =>
      { b with list := { b.list with
          poi := some (some t, if some t ∈ b.list.elems then .queued else .clear) } },
      .meet r (.state false))
  | .state again =>
    let b := g.tcb r
    (g, if b.receiveWait && !(b.receiveInProgress || b.sendWait || b.sendInProgress) then
        .meet r (.poi again)
      else .no (irq t) r again)
  | .poi again =>
    (g, match (g.tcb r).list.ptr with
      | none => .meet r (.empty again)
      | some e => if e = some t then .meet r (.ok again) else .no (irq t) r again)
  | .empty again =>
    (g, if (g.tcb r).list.elems = [] then .meet r (.ok again) else .meet r (.head again))
  | .head again =>
    (g, if (g.tcb r).list.elems.head? = some (some t) then .meet r (.ok again)
      else .no (irq t) r again)
  | .swap again =>
    if (g.tcb r).receiveWait then
      (g.modify r fun b => { b with receiveWait := false, receiveInProgress := true },
        .meet r (if again && !irq t then .delWait else .deliver))
    else (g, .meet r (.enter (irq t)))
  | .addWait => (g.modify t fun b => { b with sendWait := true }, .meet r .insert)
  | .insert =>
    match (g.tcb r).list.insert (some t) c.prio with
    | some l => (g.modify r fun b => { b with list := l }, .meet r (.state true))
    | none => (g, if irq t then .idle else .failed)
  | .remove =>
    match (g.tcb r).list.dequeue (some t) with
    | some l => (g.modify r fun b => { b with list := l }, .meet r (.swap true))
    | none => (g, .queued (irq t) r)
  | .delWait => (g.modify t fun b => { b with sendWait := false }, .meet r .deliver)
  | .deliver =>
    if irq t then (g.modify t fun b => { b with queued := false, transferred := true }, .meet r .finish)
    else (g.modify t fun b => { b with transferred := c.ok }, .meet r (.delProgress c.ok))
  | .delProgress ok => (g.modify r fun b => { b with receiveInProgress := false }, .meet r (.change ok))
  | .change ok =>
    (g.modify t fun b => { b.delIpc with receiveWait := ok && b.prepared }, .meet r (.activate ok))
  | .activate ok =>
    (g.modify r fun b => { b with receiveInProgress := false, ready := true },
      if !ok then .failed else if (g.tcb t).prepared then .replyTest else .idle)
  | .finish => (g.modify r fun b => { b.delIpc with ready := true }, .idle)

/-- The start of an operation. A hit of an interrupt that is still to be delivered only counts. -/
def start (c : Choice) (l : Pc T) : Shared T × Pc T :=
  if irq t then
    if (g.tcb t).queued then (g, l)
    else (g.modify t fun b => { b with queued := true, transferred := false }, .dequeueReceiver)
  else if c.send then
    (g.modify t fun b => { b with prepared := c.haveRecv, transferred := false }, .dequeueReceiver)
  else (g, .dequeueSender)

def exec (c : Choice) : Pc T → Shared T × Pc T
  | .idle => start irq t g c .idle
  | .failed => start irq t g c .failed
  | .dequeueSender => proceed (.serve · .prepare) .resetPoi g.dequeueSender
  | .resetPoi =>
    (g.modify t fun b => { b with list := { b.list with poi := some (none, .clear) } },
      .enqueueReceiver)
  | .enqueueReceiver => proceed (.serve · .prepare) .receiverQueued (g.enqueueReceiver t c.prio)
  | .serve e p => serve irq t e g c p
  | .delMask => (g.modify t Tcb.delIpc, .idle)
  | .receiverQueued =>
    (g.modify t fun b => { b with ready := false, receiveWait := true }, .receiverAsleep)
  | .receiverAsleep =>
    (g, if (g.tcb t).ready then .wake (g.tcb t).receiveWait else .receiverAsleep)
  | .wake waiting =>
    (g.modify t fun b => { b with list := { b.list with poi := none } },
      if waiting then .abortReceive else .idle)
  | .abortReceive => (g.modify t Tcb.delFull, .abortDequeue)
  | .abortDequeue => ({ g with waitQ := (g.waitQ.dequeue t).getD g.waitQ }, .idle)
  | .dequeueReceiver => proceed (.meet · .setPartner) .prepareSend g.dequeueReceiver
  | .prepareSend =>
    (g.modify t fun b =>
      if b.prepared then { b with list := { b.list with poi := some (none, .clear) } } else b,
      .enqueueSender)
  | .enqueueSender =>
    proceed (.meet · .setPartner) (if irq t then .idle else .senderQueued) (g.enqueueSender t c.prio)
  | .meet r p => meet irq t r g c p
  | .sendWait r =>
    let b := g.tcb t
    if b.sendWait && !b.transferFailed then
      (g.modify t fun b => { b with ready := false }, .sendAsleep r)
    else (g, if b.transferFailed then .fail else if b.prepared then .replyTest else .idle)
  | .sendAsleep r => (g, if (g.tcb t).ready then .sendWait r else .sendAsleep r)
  | .senderQueued =>
    (g.modify t fun b => { b with ready := false, sendWait := true }, .test)
  | .test =>
    let b := g.tcb t
    if b.sendWait && !b.transferFailed || b.sendInProgress then
      (g.modify t fun b => { b with ready := false }, .senderAsleep)
    else (g, .dequeue b.sendWait b.transferFailed)
  | .senderAsleep => (g, if (g.tcb t).ready then .test else .senderAsleep)
  | .dequeue wait failed =>
    ({ g with waitQ := (g.waitQ.dequeue t).getD g.waitQ },
      if wait || failed then .fail
      else if (g.tcb t).prepared && ((g.tcb t).receiveWait || (g.tcb t).receiveInProgress) then
        .replyTest
      else .idle)
  | .fail => (g.modify t Tcb.delFull, .failed)
  | .replyTest =>
    let b := g.tcb t
    if b.transferFailed then (g, .fail)
    else if b.receiveWait || b.receiveInProgress then
      (g.modify t fun b => { b with ready := false }, .replyAsleep)
    else (g, .idle)
  | .replyAsleep => (g, if (g.tcb t).ready then .idle else .replyAsleep)

abbrev State (T : Type*) := Interleaving.System T (Shared T) (Pc T)

def Pc.sends : Pc T → Bool
  | .meet _ _ | .senderQueued | .test | .senderAsleep | .dequeue _ _ | .replyTest | .replyAsleep => true
  | _ => false

def reply (l : Pc T) : Shared T × Pc T :=
  (if !irq t && l.sends && (g.tcb t).receiveWait then
    g.modify t fun b => { b with receiveWait := false, ready := true }
  else g, l)

end

inductive Act (T : Type*) where
  | move (t : T) (c : Choice)
  | reply (t : T)

def step (irq : T → Bool) (s : State T) : Act T → State T
  | .move t c => s.move t (exec irq t s.shared c (s.loc t))
  | .reply t => s.move t (reply irq t s.shared (s.loc t))

def boot : State T where
  shared := ⟨.empty, false, fun _ =>
    ⟨true, false, false, false, false, false, false, .empty, false, false⟩⟩
  loc := fun _ => .idle

end Fiasco.Ipc.WaitQueue
