import Fiasco.Lib.Interleaving

/-!
# Migration of a context and its deferred requests

A context is moved to another CPU by `migrate`, and gets deferred requests (DRQs) from any CPU. Both
are carried out on its home CPU. A foreign CPU puts the context into the pending queue of the home
CPU and sends it an interrupt; on an offline CPU it does the work itself and holds the lock of the
queue. The home CPU is read without the lock and checked again with it.

The model is about one context; its state is shared by the CPUs. `others` are the entries of other
contexts in the pending queues. A CPU runs these operations with interrupts off, so it is in one of
them at a time. A section under the lock of a pending queue is one step, as the home CPU changes
under that lock, but for `migrate_to`, which looks at it twice.
-/
namespace Fiasco.Sched

open Function

variable {Cpu M D : Type}

/-- `done` and `executed` count how often a migration was marked and a request was executed;
`migrations` and `requests` are those that were passed to `migrate` and `enqueue_drq`. -/
structure Shared (Cpu M D : Type) where
  home : Cpu
  migration : Option M
  queued : Option Cpu
  others : Cpu → ℕ
  online : Cpu → Bool
  lock : Cpu → Option Cpu
  ipi : Cpu → Bool
  drqs : List D
  drqReady : Bool
  done : M → ℕ
  executed : D → ℕ
  migrations : List M
  requests : List D

/-- Where a migration on the home CPU was begun: in `migrate`, for a request from the queue, and
after all requests for the current context. -/
inductive From where
  | call
  | request
  | deferred
deriving DecidableEq

inductive Source (Cpu : Type) where
  | home (f : From)
  | remote (q : Cpu)
deriving DecidableEq

/-- Where `handle_drq` returns to: the interrupted code, the loop over the requests, or the end of
`migrate_to` on a CPU that is offline or the current one. -/
inductive Ret (Cpu : Type) where
  | rest
  | loop (mq : Bool)
  | unlock (t : Cpu) (f : From)
  | self (f : From)
deriving DecidableEq

inductive Pc (Cpu M D : Type) where
  | rest
  | exchange (m : M)
  | stale (old : M)
  | readHome
  | xcpuLock (q : Cpu)
  | xcpuCheck (q : Cpu)
  | startLoad (s : Source Cpu)
  | startCas (s : Source Cpu) (m : M)
  | compare (s : Source Cpu) (m : M)
  | sameDone (s : Source Cpu) (m : M)
  | awayLock (f : From) (m : M)
  | awayHome (s : Source Cpu) (m : M)
  | awayDone (s : Source Cpu) (m : M)
  | awayUnlock (s : Source Cpu) (t : Cpu)
  | toLock (f : From) (t : Cpu)
  | toFirst (f : From) (t : Cpu)
  | toSecond (f : From) (t : Cpu)
  | send (q : Cpu) (f : From)
  | irqLoop (curr mq : Bool)
  | request (curr mq : Bool)
  | requestAfter
  | requestDrq (curr mq : Bool)
  | irqEnd (curr mq : Bool)
  | irqFinal (curr : Bool)
  | drqFirst (d : D)
  | drqRun (d : D)
  | drqEnq (d : D)
  | drqHome (d : D)
  | drqLock (d : D) (q : Cpu)
  | drqCheck (d : D) (q : Cpu)
  | deqTake (d : D) (o : Option Cpu)
  | deqCheck (d : D) (o : Option Cpu)
  | deqClear (d : D) (o : Option Cpu)
  | deqRun (d : D) (o : Option Cpu)
  | drqs (k : Ret Cpu)
  | drqsLoop (k : Ret Cpu)
  | drqsRun (d : D) (k : Ret Cpu)
  | drqsClear (k : Ret Cpu)
deriving DecidableEq

inductive Op (Cpu M D : Type) where
  | migrate (m : M)
  | drq (d : D)
  | run
  | interrupt
  | takeOffline
  | enqueueOther (q : Cpu)

structure Choice (Cpu M D : Type) where
  op : Op Cpu M D
  curr : Bool
  other : Bool

def Source.origin : Source Cpu → From
  | .home f => f
  | .remote _ => .call

def Source.lock (p : Cpu) : Source Cpu → Cpu
  | .home _ => p
  | .remote q => q

def From.finish : From → Pc Cpu M D
  | .call => .rest
  | .request => .requestAfter
  | .deferred => .irqFinal true

variable [DecidableEq Cpu] [DecidableEq M] [DecidableEq D]

section

variable (g : Shared Cpu M D)

def Shared.acquire (p q : Cpu) : Shared Cpu M D :=
  { g with lock := update g.lock q (some p) }

def Shared.release (q : Cpu) : Shared Cpu M D :=
  { g with lock := update g.lock q none }

def Shared.spin (p q : Cpu) (here there : Pc Cpu M D) :
    Shared Cpu M D × Pc Cpu M D :=
  if g.lock q = none then (g.acquire p q, there) else (g, here)

def Shared.setDone (m : M) : Shared Cpu M D :=
  { g with done := update g.done m (g.done m + 1) }

def Shared.execute (d : D) : Shared Cpu M D :=
  { g with executed := update g.executed d (g.executed d + 1) }

def Shared.isEmpty (q : Cpu) : Bool :=
  g.queued ≠ some q ∧ g.others q = 0

def Shared.enqueue (q : Cpu) (f : From) : Shared Cpu M D × Pc Cpu M D :=
  if g.queued = none then
    (({ g with queued := some q }).release q, if g.isEmpty q then .send q f else f.finish)
  else (g.release q, f.finish)

def Source.finish : Source Cpu → Shared Cpu M D × Pc Cpu M D
  | .home f => (g, f.finish)
  | .remote q => (g.release q, .rest)

def Ret.finish : Ret Cpu → Shared Cpu M D × Pc Cpu M D
  | .rest => (g, .rest)
  | .loop mq => (g, .irqLoop true mq)
  | .unlock t f => (g.release t, f.finish)
  | .self f => (g, f.finish)

end

def start (p : Cpu) (g : Shared Cpu M D) (curr : Bool) : Op Cpu M D → Shared Cpu M D × Pc Cpu M D
  | .migrate m =>
    if m ∈ g.migrations then (g, .rest)
    else ({ g with migrations := m :: g.migrations }, .exchange m)
  | .drq d =>
    if d ∈ g.requests then (g, .rest) else ({ g with requests := d :: g.requests }, .drqFirst d)
  | .run => (g, if g.home = p then .drqs .rest else .rest)
  | .interrupt =>
    if g.ipi p then ({ g with ipi := update g.ipi p false }, .irqLoop curr false)
    else (g, .rest)
  | .takeOffline =>
    if g.lock p = none then
      if g.isEmpty p then ({ g with online := update g.online p false }, .rest)
      else (g, .irqLoop false false)
    else (g, .rest)
  | .enqueueOther q =>
    if g.lock q = none ∧ g.online q = true then
      ({ g with others := update g.others q (g.others q + 1) },
        if g.isEmpty q then .send q .call else .rest)
    else (g, .rest)

def dequeueFirst (p : Cpu) (g : Shared Cpu M D) (other curr mq : Bool) :
    Shared Cpu M D × Pc Cpu M D :=
  if g.lock p = none then
    if g.queued = some p ∧ (other = false ∨ g.others p = 0) then
      ({ g with queued := none }, .request curr mq)
    else if 0 < g.others p then
      ({ g with others := update g.others p (g.others p - 1) }, .irqLoop curr mq)
    else (g, .irqEnd curr mq)
  else (g, .irqLoop curr mq)

def exec (target : M → Cpu) (p : Cpu) (g : Shared Cpu M D) (c : Choice Cpu M D) :
    Pc Cpu M D → Shared Cpu M D × Pc Cpu M D
  | .rest => start p g c.curr c.op
  | .exchange m =>
    ({ g with migration := some m },
      match g.migration with
      | some old => .stale old
      | none => .readHome)
  | .stale old => (g.setDone old, .readHome)
  | .readHome => (g, if g.home = p then .startLoad (.home .call) else .xcpuLock g.home)
  | .xcpuLock q => g.spin p q (.xcpuLock q) (.xcpuCheck q)
  | .xcpuCheck q =>
    if g.home = q then
      if g.online q then g.enqueue q .call else (g, .startLoad (.remote q))
    else (g.release q, .rest)
  | .startLoad s =>
    match g.migration with
    | some m => (g, .startCas s m)
    | none => s.finish g
  | .startCas s m =>
    if g.migration = some m then ({ g with migration := none }, .compare s m) else s.finish g
  | .compare s m =>
    (g, if target m = g.home then .sameDone s m
      else
        match s with
        | .home f => .awayLock f m
        | .remote _ => .awayHome s m)
  | .sameDone s m => s.finish (g.setDone m)
  | .awayLock f m => g.spin p p (.awayLock f m) (.awayHome (.home f) m)
  | .awayHome s m =>
    -- the queue of the executing CPU
    ({ g with home := target m, queued := if g.queued = some p then none else g.queued },
      .awayDone s m)
  | .awayDone s m => (g.setDone m, .awayUnlock s (target m))
  | .awayUnlock s t => (g.release (s.lock p), .toLock s.origin t)
  | .toLock f t => g.spin p t (.toLock f t) (.toFirst f t)
  | .toFirst f t => (g, if g.home = t ∧ g.online t = false then .drqs (.unlock t f) else .toSecond f t)
  | .toSecond f t =>
    if g.home ≠ t ∨ g.queued ≠ none then (g.release t, f.finish)
    else if t = p then (g.release t, .drqs (.self f))
    else g.enqueue t f
  | .send q f => ({ g with ipi := update g.ipi q true }, f.finish)
  | .irqLoop curr mq => dequeueFirst p g c.other curr mq
  | .request curr mq =>
    (g, if g.migration = none then .requestDrq curr mq
      else if curr then .requestDrq curr true
      else .startLoad (.home .request))
  | .requestAfter => (g, if g.home = p then .requestDrq false false else .irqLoop false false)
  | .requestDrq curr mq =>
    if g.drqs = [] then (g, .irqLoop curr mq)
    else if curr then (g, .drqs (.loop mq))
    else ({ g with drqReady := true }, .irqLoop curr mq)
  | .irqEnd curr mq => (g, if mq then .startLoad (.home .deferred) else .irqFinal curr)
  | .irqFinal curr => (g, if curr ∧ g.home = p then .drqs .rest else .rest)
  | .drqFirst d => (g, if g.home = p then .drqRun d else .drqEnq d)
  | .drqRun d => (g.execute d, .rest)
  | .drqEnq d => ({ g with drqs := g.drqs ++ [d] }, .drqHome d)
  | .drqHome d => (g, if g.home = p then .deqTake d none else .drqLock d g.home)
  | .drqLock d q => g.spin p q (.drqLock d q) (.drqCheck d q)
  | .drqCheck d q =>
    if g.home = q then
      if g.online q then g.enqueue q .call else (g, .deqTake d (some q))
    else (g.release q, .rest)
  | .deqTake d o =>
    if d ∈ g.drqs then ({ g with drqs := g.drqs.erase d }, .deqCheck d o)
    else
      match o with
      | some q => (g.release q, .rest)
      | none => (g, .rest)
  | .deqCheck d o => (g, if g.drqs = [] ∧ g.drqReady = true then .deqClear d o else .deqRun d o)
  | .deqClear d o => ({ g with drqReady := false }, .deqRun d o)
  | .deqRun d o =>
    match o with
    | some q => ((g.execute d).release q, .rest)
    | none => (g.execute d, .rest)
  | .drqs k => if g.drqs = [] then k.finish g else (g, .drqsLoop k)
  | .drqsLoop k =>
    match g.drqs with
    | d :: ds => ({ g with drqs := ds }, .drqsRun d k)
    | [] => (g, .drqsClear k)
  | .drqsRun d k => (g.execute d, .drqsLoop k)
  | .drqsClear k => k.finish { g with drqReady := false }

abbrev State (Cpu M D : Type) := Interleaving.System Cpu (Shared Cpu M D) (Pc Cpu M D)

def step (target : M → Cpu) (s : State Cpu M D) (a : Cpu × Choice Cpu M D) : State Cpu M D :=
  if s.shared.online a.1 then s.move a.1 (exec target a.1 s.shared a.2 (s.loc a.1)) else s

def boot (home : Cpu) (online : Cpu → Bool) : State Cpu M D where
  shared :=
    { home := home
      migration := none
      queued := none
      others := fun _ => 0
      online := online
      lock := fun _ => none
      ipi := fun _ => false
      drqs := []
      drqReady := false
      done := fun _ => 0
      executed := fun _ => 0
      migrations := []
      requests := [] }
  loc := fun _ => .rest

end Fiasco.Sched
