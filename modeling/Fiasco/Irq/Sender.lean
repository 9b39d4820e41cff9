import Fiasco.Lib.Interleaving

/-!
# Interrupts that are sent as messages

An `Irq_sender` has a target, a thread or a wait queue, and a function for the hits that is made for
the kind of the target and for the trigger mode of the interrupt. A hit counts itself in `_queued`;
the first one since the last message sends.

Every access to a variable of the object, and every operation under the lock of a queue, is a
step of its own. Whether a thread accepts a message, and whether a wait queue has a waiting
receiver, is up to the threads and comes with the step.
-/
namespace Fiasco.Irq

variable {E : Type*}

inductive Target (E : Type*) where
  | null
  | detaching
  | ep (t : E)
deriving DecidableEq

structure HitFunc where
  edge : Bool
  wq : Bool
deriving DecidableEq

/-- The object; `queue` is the `_queue` of its list item, given by the owner of the receive
queue, and `masked` is the state of the pin. -/
structure Sender (E : Type*) where
  queued : ℕ
  target : Target E
  irqId : ℕ
  hitFunc : HitFunc
  masked : Bool
  queue : Option E

def Sender.new : Sender E := ⟨0, .null, 2 ^ 64 - 1, ⟨false, false⟩, true, none⟩

inductive Result where
  | ok
  | busy
  | noent
deriving DecidableEq

/-- Where an operation is. `r` is what it returns when the message is sent. -/
inductive Pc (E : Type*) where
  | rest (r : Option Result)
  | hit
  | handler (f : HitFunc)
  | count (f : HitFunc) (t : E)
  | check (t : E) (r : Option Result)
  | enqueue (t : E) (r : Option Result)
  | recheck (t : E) (r : Option Result)
  | dequeue (t : E) (r : Option Result)
  | swap (t : E) (r : Option Result)
  /-- `Wait_queue::receive_msg_from`, `dequeue_receiver` and then `enqueue_sender` -/
  | dequeueReceiver (w : E) (r : Option Result)
  | enqueueSender (w : E) (r : Option Result)
  | consume (r : Option Result)
  | consumeLoop (old : ℕ) (r : Option Result)
  /-- a receiver that takes the sender out of the receive queue of `t`, and a thread that puts it back,
  as in `try_receive` when its own state has changed -/
  | fetch (t : E)
  | putBack (t : E)
  | bind (tgt : E) (id : ℕ)
  | bindLoop (tgt : E) (id : ℕ) (old : Target E)
  | bindId (tgt : E) (id : ℕ) (old : Target E)
  | bindEdge (tgt : E) (old : Target E)
  | bindFunc (tgt : E) (old : Target E) (edge : Bool)
  | bindMove (tgt old : E)
  | switchMode (edge : Bool)
  | switchStore (edge wqBound : Bool)
  /-- `detach_irq_thread`, called by `sys_detach` or by `destroy` -/
  | detach (sys : Bool)
  | detachLoop (sys : Bool) (old : Target E)
  | detachMask (sys : Bool) (old : E)
  | detachDequeue (sys : Bool) (old : E)
  | detachStore (sys : Bool)
  | resetId (r : Option Result)
deriving DecidableEq

inductive Op (E : Type*) where
  | hit
  | receive (t : E)
  | bind (tgt : E) (id : ℕ)
  | switchMode (edge : Bool)
  | detach
  | destroy

def Op.entry : Op E → Pc E
  | .hit => .hit
  | .receive t => .fetch t
  | .bind tgt id => .bind tgt id
  | .switchMode edge => .switchMode edge
  | .detach => .detach true
  | .destroy => .detach false

structure Choice (wq : E → Bool) where
  accept : Bool
  receiver : Option {t : E // wq t = false}

def Pc.send (wq : E → Bool) (t : E) (r : Option Result) : Pc E :=
  if wq t then .dequeueReceiver t r else .check t r

def Pc.detached (sys : Bool) (r : Result) : Pc E := if sys then .resetId (some r) else .rest none

def Sender.unmaskIf (g : Sender E) (c : Bool) : Sender E :=
  if c && g.hitFunc.edge then { g with masked := false } else g

variable [DecidableEq E]

/-- One step of an operation. The accesses to the chip go with the step before or after. -/
def go (wq : E → Bool) (g : Sender E) (c : Choice wq) : Pc E → Sender E × Pc E
  | .rest r => (g, .rest r)
  | .hit => ({ g with masked := g.masked || !g.hitFunc.edge }, .handler g.hitFunc)
  | .handler f =>
    match g.target with
    | .ep t => (g, .count f t)
    | _ => ({ g with masked := g.masked || f.edge }, .rest none)
  | .count f t =>
    if g.queued = 0 then ({ g with queued := 1 },
      if f.wq then .dequeueReceiver t none else .check t none)
    else ({ g with queued := g.queued + 1, masked := g.masked || f.edge }, .rest none)
  | .check t r => (g, if c.accept then .consume r else .enqueue t r)
  | .enqueue t r =>
    ({ g with queue := if g.queue = none then some t else g.queue }, .recheck t r)
  | .recheck t r => (g, if c.accept then .dequeue t r else .rest r)
  | .dequeue t r =>
    if g.queue = some t then ({ g with queue := none }, .swap t r) else (g, .rest r)
  | .swap t r => (g, if c.accept then .consume r else .enqueue t r)
  | .dequeueReceiver w r =>
    match c.receiver with
    | some t => (g, .check t r)
    | none => (g, .enqueueSender w r)
  | .enqueueSender w r =>
    match c.receiver with
    | some t => (g, .check t r)
    | none => ({ g with queue := if g.queue = none then some w else g.queue }, .rest r)
  | .consume r => (g, .consumeLoop g.queued r)
  | .consumeLoop old r =>
    if g.queued = old then ({ g with queued := 0 }.unmaskIf (2 ≤ old), .rest r)
    else (g, .consumeLoop g.queued r)
  | .fetch t =>
    if g.queue = some t then
      ({ g with queue := none }, if wq t || c.accept then .consume none else .putBack t)
    else (g, .rest none)
  | .putBack t => ({ g with queue := if g.queue = none then some t else g.queue }, .rest none)
  | .bind tgt id => (g, .bindLoop tgt id g.target)
  | .bindLoop tgt id old =>
    if old = .ep tgt then (g, .bindId tgt id old)
    else if old = .detaching then (g, .rest (some .busy))
    else if g.target = old then ({ g with target := .ep tgt }, .bindId tgt id old)
    else (g, .bindLoop tgt id g.target)
  | .bindId tgt id old =>
    ({ g with irqId := id }, if old = .ep tgt then .rest (some .ok) else .bindEdge tgt old)
  | .bindEdge tgt old => (g, .bindFunc tgt old g.hitFunc.edge)
  | .bindFunc tgt old edge =>
    ({ g with hitFunc := ⟨edge, wq tgt⟩ },
      match old with
      | .ep o => .bindMove tgt o
      | _ => .rest (some .ok))
  | .bindMove tgt old =>
    if g.queue = some old then ({ g with queue := none }, .send wq tgt (some .ok))
    else (g, .rest (some .ok))
  | .switchMode edge => (g, .switchStore edge g.hitFunc.wq)
  | .switchStore edge wqBound => ({ g with hitFunc := ⟨edge, wqBound⟩ }, .rest none)
  | .detach sys => (g, .detachLoop sys g.target)
  | .detachLoop sys old =>
    match old with
    | .detaching => (g, .detached sys .busy)
    | .null => (g, .detached sys .noent)
    | .ep o =>
      if g.target = old then ({ g with target := .detaching }, .detachMask sys o)
      else (g, .detachLoop sys g.target)
  | .detachMask sys old => ({ g with masked := true }, .detachDequeue sys old)
  | .detachDequeue sys old =>
    ({ g with queue := if g.queue = some old then none else g.queue }, .detachStore sys)
  | .detachStore sys => ({ g with target := .null }, .detached sys .ok)
  | .resetId r => ({ g with irqId := 2 ^ 64 - 1 }, .rest r)

inductive Act (wq : E → Bool) where
  | start (op : Op E)
  | go (c : Choice wq)

def Act.goes {wq : E → Bool} : Act wq → Bool
  | .start _ => false
  | .go _ => true

def exec (wq : E → Bool) (g : Sender E) (l : Pc E) : Act wq → Sender E × Pc E
  | .start op =>
    match l with
    | .rest _ => (g, op.entry)
    | _ => (g, l)
  | .go c => go wq g c l

theorem exec_start (wq : E → Bool) (g : Sender E) (l : Pc E) (op : Op E) :
    exec wq g l (.start op) = (g, op.entry) ∨ exec wq g l (.start op) = (g, l) := by
  cases l with
  | rest r => exact .inl rfl
  | _ => exact .inr rfl

abbrev State (P E : Type*) := Interleaving.System P (Sender E) (Pc E)

def boot {P : Type*} : State P E := ⟨.new, fun _ => .rest none⟩

variable {P : Type*} [DecidableEq P]

def step (wq : E → Bool) (s : State P E) (a : P × Act wq) : State P E :=
  s.move a.1 (exec wq s.shared (s.loc a.1) a.2)

end Fiasco.Irq
