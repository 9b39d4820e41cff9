import Fiasco.Lib.GracePeriod
import Fiasco.Lib.Interleaving
import Fiasco.Lib.StableQueue
import Fiasco.PrioList.Shape

/-!
# Threads blocked on an unbound IPC gate

An invocation of an unbound gate blocks the thread in the gate's wait queue. `set_target` and
`destroy` change the type of the gate under the lock of the queue and then empty the queue, a second
time after a grace period. The invocation reads the type without the lock. From there until the
thread sleeps it runs with its CPU locked, which is a section the grace period waits for. The
sections under the lock and each access to the state of a thread are steps of their own. The
`change_dirty` of `block` is atomic, and here a load and a store: that adds runs and removes none.
-/
namespace Fiasco.IpcGate

open StableQueue GracePeriod

inductive Kind where
  | thread
  | waitQueue
deriving DecidableEq

inductive Gate where
  | unbound
  | bound (k : Kind)
  | destruct
deriving DecidableEq

structure Bind where
  kind : Kind
  tgt : ℕ
  id : ℕ
deriving DecidableEq

structure Flags where
  ready : Bool
  sendWait : Bool
  cancel : Bool
  timeout : Bool
deriving DecidableEq

variable {T : Type}

/-- The gate and the threads. `closed` is set when a `set_target` returns true and when the
destructor returns. -/
structure Shared (T : Type) where
  gate : Gate
  tgt : Option ℕ
  id : ℕ
  waiting : List (T × Prio)
  sections : Sections T
  flags : T → Flags
  timer : T → Bool
  closed : Bool

inductive Pc (T : Type) where
  | idle
  | invoke
  | enqueue
  | load (finite : Bool)
  | store (finite : Bool) (old : Flags)
  | timer (finite : Bool)
  | asleep
  | wake
  | dequeue (aborted : Bool)
  /-- `set_target`, before `can_retype` without and with the lock, before `dyn_typeid` and before
  the exchange of the target -/
  | check (b : Bind)
  | retype (b : Bind)
  | typeid (b : Bind)
  | exchange (b : Bind)
  | destroy
  | drain (abort last : Bool)
  | cancel (w : T) (last : Bool)
  | activate (w : T) (abort last : Bool)
  | call (abort : Bool)
  | grace (n : ℕ) (abort : Bool)
deriving DecidableEq

inductive Op where
  | invoke
  | bind (b : Bind)
  | destroy

inductive Timeout where
  | zero
  | finite
  | never
deriving DecidableEq

structure Choice where
  op : Op
  prio : Prio
  timeout : Timeout

def Gate.canRetype : Gate → Bool
  | .unbound => true
  | .bound _ | .destruct => false

variable [DecidableEq T]

def Shared.modify (g : Shared T) (t : T) (f : Flags → Flags) : Shared T :=
  { g with flags := Function.update g.flags t (f (g.flags t)) }

def Shared.waiters (g : Shared T) : List T :=
  g.waiting.map Prod.fst

def Shared.leave (g : Shared T) (t : T) : Shared T :=
  { g with sections := g.sections.leave t }

def exec (t : T) (g : Shared T) (c : Choice) : Pc T → Shared T × Pc T
  | .idle =>
    (g, match c.op with
      | .invoke => .invoke
      | .bind b => .check b
      | .destroy => .destroy)
  | .invoke =>
    if g.gate = .unbound then ({ g with sections := g.sections.enter t }, .enqueue) else (g, .idle)
  | .enqueue =>
    if c.timeout = .zero then (g.leave t, .idle)
    else
      -- `insert` refuses a thread that is in a list
      (if t ∈ g.waiters then g else { g with waiting := insertBehind (t, c.prio) g.waiting },
        .load (c.timeout = .finite))
  | .load finite => (g, .store finite (g.flags t))
  | .store finite old => (g.modify t fun _ => { old with ready := false, sendWait := true }, .timer finite)
  | .timer finite => ({ g.leave t with timer := Function.update g.timer t finite }, .asleep)
  | .asleep => (g, if (g.flags t).ready then .wake else .asleep)
  | .wake =>
    ({ g.modify t fun _ => ⟨true, false, false, false⟩ with timer := Function.update g.timer t false },
      .dequeue ((g.flags t).timeout || (g.flags t).cancel))
  | .dequeue aborted =>
    -- without an error the system call is entered again
    ({ g with waiting := g.waiting.filter fun a => a.1 ≠ t }, if aborted then .idle else .invoke)
  | .check b => (g, if g.gate.canRetype then .retype b else .typeid b)
  | .retype b =>
    if g.gate.canRetype then
      ({ g with gate := .bound b.kind, tgt := some b.tgt, id := b.id }, .drain false false)
    else (g, .typeid b)
  | .typeid b => (g, if g.gate = .bound b.kind then .exchange b else .idle)
  | .exchange b => ({ g with tgt := some b.tgt, id := b.id, closed := true }, .idle)
  | .destroy => ({ g with gate := .destruct, tgt := none }, .drain true false)
  | .drain abort last =>
    match g.waiting with
    | a :: q => ({ g with waiting := q }, if abort then .cancel a.1 last else .activate a.1 abort last)
    | [] => if last then ({ g with closed := true }, .idle) else (g, .call abort)
  | .cancel w last =>
    (g.modify w fun b => { b with sendWait := false, cancel := true }, .activate w true last)
  | .activate w abort last => (g.modify w fun b => { b with ready := true }, .drain abort last)
  | .call abort => ({ g with sections := g.sections.call }, .grace g.sections.clock abort)
  | .grace n abort => (g, if g.sections.Over n then .drain abort true else .grace n abort)

abbrev State (T : Type) := Interleaving.System T (Shared T) (Pc T)

inductive Act (T : Type) where
  | move (t : T) (c : Choice)
  | timeout (t : T)
  | cancel (t : T)

def step (s : State T) : Act T → State T
  | .move t c => s.move t (exec t s.shared c (s.loc t))
  | .timeout t =>
    if s.loc t = .asleep ∧ s.shared.timer t = true ∧ (s.shared.flags t).sendWait = true then
      s.move t (s.shared.modify t fun b => { b with ready := true, timeout := true }, .asleep)
    else s
  | .cancel t =>
    if s.loc t = .asleep then
      s.move t (s.shared.modify t fun b => { b with ready := true, cancel := true }, .asleep)
    else s

def boot : State T where
  shared :=
    { gate := .unbound
      tgt := none
      id := 0
      waiting := []
      sections := .empty
      flags := fun _ => ⟨true, false, false, false⟩
      timer := fun _ => false
      closed := false }
  loc := fun _ => .idle

end Fiasco.IpcGate
