import Fiasco.Lib.Machine

/-!
# Switch locks and helping

Who waits for a switch lock lends its CPU to the owner, which then runs away from its home.
`_running_under_lock` and `_lock_cnt` are to ensure that it runs on one CPU at a time.

Each CPU executes the kernel code of its current context, with the CPU locked inside of the lock
operations and of `schedule`; a context is preempted between them and at the preemption point of
`help`. Every access to `_running_under_lock`, to `_lock_cnt` and to the owner of a lock is a step
of its own. A switch continues where the target was left; the CPU then marks the context it has left
as not running. What the scheduler selects and which contexts are ready is free. The home CPUs are
fixed. `_lock_cnt` is a natural number: it is decremented by who holds a lock.
-/
namespace Fiasco.SwitchLock

open Function

structure Topology (C Cpu : Type) where
  home : C → Cpu
  kernel : Cpu → C
  home_kernel : ∀ p, home (kernel p) = p

inductive Rul where
  | notRunning
  | trying
  | running
deriving DecidableEq

structure Word (C : Type) where
  owner : Option C
  invalid : Bool
deriving DecidableEq

inductive Kind where
  | lock
  | tryLock
  | waitFree
deriving DecidableEq

structure Want (L : Type) where
  kind : Kind
  lock : L
deriving DecidableEq

inductive After (L : Type) where
  | run
  | point (w : Want L)
  | loop (w : Want L)
  | dirty
deriving DecidableEq

inductive Ret (L : Type) where
  | run
  | sched (k : After L)
  | dirty
deriving DecidableEq

inductive Pc (C L : Type) where
  | run
  | halt
  | test (w : Want L)
  | loop (w : Want L)
  | again (w : Want L)
  /-- `help` with `need_help`; `v` is the word that was read, `t` its owner -/
  | helpLoad (w : Want L) (v : Word C) (t : C)
  | helpCas (w : Want L) (v : Word C) (t : C)
  | helpCnt (w : Want L) (v : Word C) (t : C)
  | helpLock (w : Want L) (v : Word C) (t : C)
  | helpStore (w : Want L) (t : C)
  | helpReset (w : Want L) (t : C)
  | helpReady (w : Want L) (t : C)
  | helped (w : Want L)
  | failed (w : Want L)
  | failedHome (w : Want L)
  /-- `set_lock_owner` and `inc_lock_cnt`; `fresh` if there were no locks -/
  | ownCnt (w : Want L)
  | ownLoad (w : Want L)
  | ownCas (w : Want L)
  | ownLock (w : Want L) (fresh : Bool)
  | ownReset (w : Want L)
  | inc (w : Want L)
  | clear (l : L)
  | clearOwner (l : L) (o : C)
  | dec (o : C)
  | decReset (o : C)
  | dirty
  | dirtyCheck
  | dirtyCnt
  | dirtyPreempt
  | dirtyStore
  | sched (k : After L)
  | schedLoop (k : After L)
  /-- `switch_exec_locked` with `running_on_different_cpu`; `taken` if the target is marked -/
  | dispCnt (t : C) (r : Ret L)
  | dispRul (t : C) (r : Ret L)
  | dispLoad (t : C) (r : Ret L)
  | dispCas (t : C) (r : Ret L)
  | dispAgain (t : C) (r : Ret L)
  | dispReset (t : C) (r : Ret L)
  | dispReady (t : C) (taken : Bool) (r : Ret L)
  | returned (r : Ret L)
deriving DecidableEq

/-- What the dispatching of contexts rests on. `left` is the context a CPU has switched away from,
and whether it has been found running. -/
structure Core (C Cpu : Type) where
  rul : C → Rul
  cnt : C → ℕ
  cur : Cpu → C
  left : Cpu → Option (C × Bool)

structure State (C Cpu L : Type) extends Core C Cpu where
  lock : L → Word C
  helper : C → C
  held : C → List L
  pc : C → Pc C L

inductive Op (C L : Type) where
  | lock (l : L)
  | tryLock (l : L)
  | waitFree (l : L)
  | clear (l : L)
  | invalidate (l : L)
  | switchTo (t : C)
  | schedule
  | none

structure Choice (C L : Type) where
  op : Op C L
  next : C
  deref : Option L
  ready : Bool
  resched : Bool

variable {C Cpu L : Type} [DecidableEq C] [DecidableEq Cpu] [DecidableEq L]

def Core.setRul (k : Core C Cpu) (t : C) (v : Rul) : Core C Cpu :=
  { k with rul := update k.rul t v }

def Core.setCnt (k : Core C Cpu) (t : C) (n : ℕ) : Core C Cpu :=
  { k with cnt := update k.cnt t n }

def Core.setLeft (k : Core C Cpu) (p : Cpu) (o : Option (C × Bool)) : Core C Cpu :=
  { k with left := update k.left p o }

def Core.switch (k : Core C Cpu) (p : Cpu) (t : C) : Core C Cpu :=
  { k with
    cur := update k.cur p t
    left := update k.left p (some (k.cur p, false)) }

section

variable (T : Topology C Cpu) (s : State C Cpu L) (p : Cpu)

def State.setLock (l : L) (v : Word C) : State C Cpu L :=
  { s with lock := update s.lock l v }

def State.setHelper (t h : C) : State C Cpu L :=
  { s with helper := update s.helper t h }

def State.setHeld (x : C) (ls : List L) : State C Cpu L :=
  { s with held := update s.held x ls }

def State.goto (x : C) (l : Pc C L) : State C Cpu L :=
  { s with pc := update s.pc x l }

def State.withCore (k : Core C Cpu) : State C Cpu L :=
  { s with toCore := k }

def After.pc : After L → Pc C L
  | .run => .run
  | .point w => .failedHome w
  | .loop w => .again w
  | .dirty => .dirtyCnt

def Ret.failed : Ret L → Pc C L
  | .run => .sched .run
  | .sched k => .schedLoop k
  | .dirty => .sched .dirty

def Ret.ok : Ret L → Pc C L
  | .run => .run
  | .sched k => k.pc
  | .dirty => .dirtyCheck

def State.dispatchHelper (t : C) :
    Ret L → State C Cpu L
  | .run => s.setHelper t t
  | .sched _ => if T.home (s.cur p) = p then s.setHelper t t else s
  | .dirty => s

def begin (x : C) : Op C L → State C Cpu L
  | .lock l => s.goto x (.test ⟨.lock, l⟩)
  | .tryLock l => s.goto x (.test ⟨.tryLock, l⟩)
  | .waitFree l => s.goto x (.test ⟨.waitFree, l⟩)
  | .clear l =>
    if l ∈ s.held x then (s.setHeld x ((s.held x).erase l)).goto x (.clear l) else s
  | .invalidate l => s.setLock l { s.lock l with invalid := true }
  | .switchTo t =>
    if T.home t = p then s.goto x (if t = x then .returned .run else .dispCnt t .run) else s
  | .schedule => s.goto x (.sched .run)
  | .none => s

def loopPc (w : Want L) (v : Word C) : Pc C L :=
  if w.kind ≠ .waitFree ∧ v.invalid = true then .run
  else
    match v.owner with
    | some t => .helpLoad w v t
    | none => if w.kind = .waitFree then .run else .ownCnt w

def testPc (w : Want L) (v : Word C) (x : C) : Pc C L :=
  match w.kind with
  | .lock => if v.invalid = true ∨ v.owner = some x then .run else .loop w
  | .tryLock => if v.invalid = true then .run else .loop w
  | .waitFree => if v.owner = some x then .halt else .loop w

def exec (x : C) (c : Choice C L) :
    Pc C L → State C Cpu L
  | .run => begin T s p x c.op
  | .halt => s
  | .test w => s.goto x (testPc w (s.lock w.lock) x)
  | .loop w => s.goto x (loopPc w (s.lock w.lock))
  | .again w =>
    s.goto x
      (if w.kind = .tryLock then
        match c.deref with
        | some l => .loop ⟨.tryLock, l⟩
        | none => .run
      else .loop w)
  | .helpLoad w v t => s.goto x (if s.rul t = .notRunning then .helpCas w v t else .failed w)
  | .helpCas w v t =>
    if s.rul t = .notRunning then (s.withCore (s.setRul t .trying)).goto x (.helpCnt w v t)
    else s.goto x (.failed w)
  | .helpCnt w v t => s.goto x (if s.cnt t = 0 then .helpReset w t else .helpLock w v t)
  | .helpLock w v t => s.goto x (if s.lock w.lock = v then .helpStore w t else .helpReset w t)
  | .helpStore w t => (s.withCore (s.setRul t .running)).goto x (.helpReady w t)
  | .helpReset w t => (s.withCore (s.setRul t .notRunning)).goto x (.failed w)
  | .helpReady w t =>
    if c.ready then ((s.setHelper t x).withCore (s.switch p t)).goto x (.helped w)
    else s.goto x (.failed w)
  | .helped w => s.goto x (.again w)
  | .failed w =>
    s.goto x
      (match c.op with
      | .schedule => .sched (.point w)
      | _ => .failedHome w)
  | .failedHome w => s.goto x (if T.home x = p then .again w else .sched (.loop w))
  | .ownCnt w => s.goto x (if s.cnt x < 1 then .ownLoad w else .ownLock w false)
  | .ownLoad w => s.goto x (if s.rul x = .notRunning then .ownCas w else .ownLoad w)
  | .ownCas w =>
    if s.rul x = .notRunning then (s.withCore (s.setRul x .running)).goto x (.ownLock w true)
    else s.goto x (.ownLoad w)
  | .ownLock w fresh =>
    if s.lock w.lock = ⟨none, false⟩ then (s.setLock w.lock ⟨some x, false⟩).goto x (.inc w)
    else s.goto x (if fresh then .ownReset w else .loop w)
  | .ownReset w => (s.withCore (s.setRul x .notRunning)).goto x (.loop w)
  | .inc w =>
    ((s.setHeld x (w.lock :: s.held x)).withCore (s.setCnt x (s.cnt x + 1))).goto x .run
  | .clear l =>
    s.goto x
      (match (s.lock l).owner with
      | some o => .clearOwner l o
      | none => .halt)
  | .clearOwner l o => (s.setLock l { s.lock l with owner := none }).goto x (.dec o)
  | .dec o =>
    (s.withCore (s.setCnt o (s.cnt o - 1))).goto x
      (if s.cnt o - 1 = 0 ∧ T.home o = p then .decReset o else .dirty)
  | .decReset o => (s.withCore (s.setRul o .notRunning)).goto x .dirty
  | .dirty =>
    s.goto x
      (if s.helper x = x then .dirtyCheck
      else if T.home (s.helper x) = p then .dispCnt (s.helper x) .dirty
      else .sched .dirty)
  | .dirtyCheck => s.goto x (if s.cnt x = 0 ∧ T.home x ≠ p then .sched .dirty else .run)
  | .dirtyCnt => s.goto x (if T.home x = p ∧ s.cnt x = 0 then .dirtyPreempt else .run)
  | .dirtyPreempt => s.goto x (if s.rul x = .running then .dirtyStore else .run)
  | .dirtyStore => (s.withCore (s.setRul x .notRunning)).goto x .run
  | .sched k => (s.setHelper x x).goto x (.schedLoop k)
  | .schedLoop k =>
    if T.home x = p then
      if T.home c.next = p then
        s.goto x (if c.next = x then .returned (.sched k) else .dispCnt c.next (.sched k))
      else s
    else s.goto x (.dispCnt (T.kernel p) (.sched k))
  | .dispCnt t r => s.goto x (if s.cnt t = 0 then .dispRul t r else .dispLoad t r)
  | .dispRul t r => s.goto x (if s.rul t = .notRunning then .dispReady t false r else .dispLoad t r)
  | .dispLoad t r => s.goto x (if s.rul t = .notRunning then .dispCas t r else r.failed)
  | .dispCas t r =>
    if s.rul t = .notRunning then (s.withCore (s.setRul t .running)).goto x (.dispAgain t r)
    else s.goto x r.failed
  | .dispAgain t r => s.goto x (if s.cnt t = 0 then .dispReset t r else .dispReady t true r)
  | .dispReset t r => (s.withCore (s.setRul t .notRunning)).goto x (.dispReady t false r)
  | .dispReady t _ r =>
    if c.ready then ((s.dispatchHelper T p t r).withCore (s.switch p t)).goto x (.returned r)
    else s.goto x r.failed
  | .returned r => s.goto x (if T.home x = p ∧ c.resched = true then r.failed else r.ok)

/-- `handle_lock_holder_preemption` for the context that was left comes first. -/
def step (a : Cpu × Choice C L) : State C Cpu L :=
  match s.left a.1 with
  | some (y, false) =>
    s.withCore (s.setLeft a.1 (if s.rul y = .running then some (y, true) else none))
  | some (y, true) => s.withCore ((s.setRul y .notRunning).setLeft a.1 none)
  | none => exec T s a.1 (s.cur a.1) a.2 (s.pc (s.cur a.1))

def boot : State C Cpu L where
  rul := fun _ => .notRunning
  cnt := fun _ => 0
  cur := T.kernel
  left := fun _ => none
  lock := fun _ => ⟨none, false⟩
  helper := id
  held := fun _ => []
  pc := fun _ => .run

end

end Fiasco.SwitchLock
