import Fiasco.Lib.Interleaving
import Fiasco.Lib.StableQueue
import Fiasco.PrioList.Shape

/-!
# Semaphores

A hit of a `Semaphore` is an up: it takes the first waiter out of the queue or increments the
counter, and then, outside the lock, acknowledges or masks the interrupt and activates the waiter. A
down decrements the counter or waits. The sections under the lock of the queue, the accesses to the
chip and each access to the state of another thread are steps of their own. A thread runs with its
CPU locked, so its timeout and a cancellation reach it only while it sleeps.
-/
namespace Fiasco.Semaphore

open StableQueue

variable {T : Type}

def longMax : ℕ := 2 ^ 63 - 1

structure Tcb where
  ready : Bool
  receiveWait : Bool
  cancel : Bool
  timeout : Bool
  timer : Bool
  error : Bool
deriving DecidableEq

def Tcb.aborted (b : Tcb) : Bool :=
  b.cancel || b.timeout

/-- The semaphore and the threads; `masked` is the state of the interrupt. `ups` counts the ups that
were not dropped, `downs` the downs that have returned without an error. -/
structure Shared (T : Type) where
  queued : ℕ
  waiting : List (T × Prio)
  valid : Bool
  masked : Bool
  tcb : T → Tcb
  ups : ℕ
  downs : ℕ

inductive Pc (T : Type) where
  | idle
  | maskLevel
  | count
  | ack (wakeup : Option T)
  | mask (wakeup : Option T)
  | activate (w : T)
  | down
  | unmask
  | timer
  | asleep
  | leave
  | dequeue
  | finish
  | drain
  | setError (w : T)
  | wake (w : T)
deriving DecidableEq

inductive Op where
  | up
  | down
  | destroy
deriving DecidableEq

inductive Timeout where
  | zero
  | finite
  | never
deriving DecidableEq

structure Choice where
  op : Op
  prio : Prio
  timeout : Timeout

variable [DecidableEq T]

def Shared.modify (g : Shared T) (t : T) (f : Tcb → Tcb) : Shared T :=
  { g with tcb := Function.update g.tcb t (f (g.tcb t)) }

def Shared.waiters (g : Shared T) : List T :=
  g.waiting.map Prod.fst

def Shared.insert (g : Shared T) (t : T) (prio : Prio) : Shared T :=
  if t ∈ g.waiters then g else { g with waiting := insertBehind (t, prio) g.waiting }

def Pc.wakeup : Option T → Pc T
  | some w => .activate w
  | none => .idle

def Pc.counted (edge : Bool) (old : ℕ) (w : Option T) : Pc T :=
  if edge then (if old = 0 then .ack w else .mask w) else .wakeup w

/-- Nobody finds the semaphore any more after its destruction has begun. The system call clears
`Thread_cancel` and the error. -/
def start (edge : Bool) (t : T) (g : Shared T) (c : Choice) : Shared T × Pc T :=
  if !g.valid then (g, .idle)
  else
    match c.op with
    | .up => (g, if edge then .count else .maskLevel)
    | .down => (g.modify t fun b => { b with error := false, cancel := false }, .down)
    | .destroy => ({ g with valid := false }, .drain)

def exec (edge : Bool) (t : T) (g : Shared T) (c : Choice) : Pc T → Shared T × Pc T
  | .idle => start edge t g c
  | .maskLevel => ({ g with masked := true }, .count)
  | .count =>
    match g.waiting with
    | a :: q => ({ g with waiting := q, ups := g.ups + 1 }, .counted edge g.queued (some a.1))
    | [] =>
      (if g.queued < longMax then { g with queued := g.queued + 1, ups := g.ups + 1 } else g,
        .counted edge g.queued none)
  | .ack w => (g, .wakeup w)
  | .mask w => ({ g with masked := true }, .wakeup w)
  | .activate w => (g.modify w fun b => { b with ready := true }, .idle)
  | .down =>
    if g.queued = 0 then
      if !g.valid then (g, .timer)
      else
        ((g.modify t fun b => { b with ready := false, receiveWait := true }).insert t c.prio,
          .timer)
    else ({ g with queued := g.queued - 1 }, if g.queued - 1 = 1 && edge then .unmask else .timer)
  | .unmask => ({ g with masked := false }, .timer)
  | .timer =>
    if (g.tcb t).ready then (g, .leave)
    else
      match c.timeout with
      | .zero => (g.modify t fun b => { b with ready := true, timeout := true }, .leave)
      | .finite => (g.modify t fun b => { b with timer := true }, .asleep)
      | .never => (g, .asleep)
  | .asleep => (g, if (g.tcb t).ready then .leave else .asleep)
  | .leave =>
    (g.modify t fun b =>
        { b with timer := false, cancel := false, timeout := false, receiveWait := false },
      if (g.tcb t).aborted then .dequeue else .finish)
  | .dequeue =>
    if t ∈ g.waiters then ({ g with waiting := g.waiting.filter fun a => a.1 ≠ t }, .idle)
    else (g, .finish)
  | .finish => (if (g.tcb t).error then g else { g with downs := g.downs + 1 }, .idle)
  | .drain =>
    match g.waiting with
    | a :: q => ({ g with waiting := q }, .setError a.1)
    | [] => (g, .idle)
  | .setError w => (g.modify w fun b => { b with error := true }, .wake w)
  | .wake w => (g.modify w fun b => { b with ready := true }, .drain)

abbrev State (T : Type) := Interleaving.System T (Shared T) (Pc T)

inductive Act (T : Type) where
  | move (t : T) (c : Choice)
  | timeout (t : T)
  | cancel (t : T)

def step (edge : Bool) (s : State T) : Act T → State T
  | .move t c => s.move t (exec edge t s.shared c (s.loc t))
  | .timeout t =>
    if s.loc t = .asleep ∧ (s.shared.tcb t).timer = true then
      s.move t (s.shared.modify t fun b => { b with timer := false, timeout := true, ready := true },
        .asleep)
    else s
  | .cancel t =>
    if s.loc t = .asleep then
      s.move t (s.shared.modify t fun b => { b with cancel := true, ready := true }, .asleep)
    else s

def boot : State T where
  shared :=
    { queued := 0
      waiting := []
      valid := true
      masked := false
      tcb := fun _ => ⟨true, false, false, false, false, false⟩
      ups := 0
      downs := 0 }
  loc := fun _ => .idle

end Fiasco.Semaphore
