import Fiasco.Kmem
import Fiasco.Lib.Machine

/-!
# The eager FPU

Every thread has a save area from its creation on, and a context switch saves the registers to that
of one thread and loads those of the other. Nobody looks at the result of the allocation in the
constructor, or of that for a message that changes the type of the save area. A message also reads
and writes the save areas of threads that may run on another CPU, where the registers hold the
contents. On a CPU without `fxsave` the registers are saved by `fnsave`, which initialises them, and
only a context switch loads them again.

The switch that hides the FPU from the user mode of a vCPU is left out, and threads are not
deleted here.
-/

namespace Fiasco.FpuEager

open Function
open scoped Machine

/-- The prices of a thread and of a save area of each type; without `CONFIG_FPU_ALLOC_TYPED` the
types are not compared. `fnsave` stands for `Variant_fpu`. -/
structure Config (K : Type) where
  threadSize : ℕ
  stateSize : K → ℕ
  default : K
  typed : Bool
  fnsave : Bool

structure FpuState (K R Q : Type) where
  type : K
  quota : Q
  regs : R
deriving DecidableEq, Repr

structure State (C T K R Q : Type) where
  quota : Q → RamQuota
  owner : T → Option Q
  fpuState : T → Option (FpuState K R Q)
  regs : C → R
  current : C → T
  /-- A null pointer has been used as a save area. -/
  fault : Bool
  /-- What the thread had in the registers last, or what it got by a message after that. This is
  not part of the kernel. -/
  last : T → R

inductive Op (C T R Q : Type)
  /-- The flags tell whether there is memory for the thread and for its save area. -/
  | create (q : Q) (t : T) (mem fpuMem : Bool)
  | switch (c : C) (t : T)
  | exec (c : C) (r : R)
  | spill (c : C)
  | transfer (c : C) (snd rcv : T) (mem : Bool)
deriving DecidableEq, Repr

variable {C T K R Q : Type} [DecidableEq C] [DecidableEq T] [DecidableEq K] [DecidableEq Q]

def qAlloc (quota : Q → RamQuota) (q : Q) (bytes : ℕ) (mem : Bool) : (Q → RamQuota) × Bool :=
  match (quota q).alloc bytes with
  | none => (quota, false)
  | some r =>
    if mem then (update quota q r, true)
    else (update quota q (r.free bytes), false)

namespace State

section

variable (cfg : Config K) (init : R) (s : State C T K R Q)

def allocState (q : Q) (t : T) (k : K)
    (mem : Bool) : State C T K R Q :=
  let p := qAlloc s.quota q (cfg.stateSize k) mem
  { s with
    quota := p.1
    fpuState := if p.2 then update s.fpuState t (some ⟨k, q, init⟩) else s.fpuState }

def freeState (t : T) : State C T K R Q :=
  match s.fpuState t with
  | none => s
  | some st =>
    { s with
      quota := update s.quota st.quota ((s.quota st.quota).free (cfg.stateSize st.type))
      fpuState := update s.fpuState t none }

/-- `thread_factory`: the constructor drops the result of `alloc_eager_fpu_state`. -/
def create (q : Q) (t : T) (mem fpuMem : Bool) :
    State C T K R Q :=
  let p := qAlloc s.quota q cfg.threadSize mem
  let s := { s with quota := p.1 }
  if p.2 then
    { s with
      owner := update s.owner t (some q)
      fpuState := update s.fpuState t none
      last := update s.last t init }.allocState cfg init q t cfg.default fpuMem
  else s

def saveState (c : C) (t : T) : State C T K R Q :=
  match s.fpuState t with
  | none => { s with fault := true }
  | some st =>
    { s with
      fpuState := update s.fpuState t (some { st with regs := s.regs c })
      regs := if cfg.fnsave then update s.regs c init else s.regs }

def restoreState (c : C) (t : T) : State C T K R Q :=
  match s.fpuState t with
  | none => { s with fault := true }
  | some st => { s with regs := update s.regs c st.regs }

def copyState (dst src : T) : State C T K R Q :=
  match s.fpuState dst, s.fpuState src with
  | some a, some b => { s with fpuState := update s.fpuState dst (some { a with regs := b.regs }) }
  | _, _ => { s with fault := true }

def ensureCompatibleState (q : Q) (dst src : T)
    (mem : Bool) : State C T K R Q :=
  if cfg.typed then
    match s.fpuState dst, s.fpuState src with
    | some a, some b =>
      if a.type = b.type then s else (s.freeState cfg dst).allocState cfg init q dst b.type mem
    | _, _ => { s with fault := true }
  else s

def switchFpu (c : C) (t : T) : State C T K R Q :=
  (s.saveState cfg init c (s.current c)).restoreState c t

def transferFpu (c : C) (snd rcv : T) (q : Q)
    (mem : Bool) : State C T K R Q :=
  let s := s.ensureCompatibleState cfg init q rcv snd mem
  if snd = s.current c then s.saveState cfg init c rcv
  else if s.current c = rcv then s.restoreState c snd
  else s.copyState rcv snd

end

end State

open State

variable {cfg : Config K} {init : R} {s : State C T K R Q} {c : C} {t : T} {mem : Bool}
  {q : Q}

def step [Fintype C] (cfg : Config K) (init : R) (s : State C T K R Q) : Op C T R Q → State C T K R Q
  | .create q t mem fpuMem => if s.owner t = none then s.create cfg init q t mem fpuMem else s
  | .switch c t =>
    if s.owner t ≠ none ∧ ∀ c', s.current c' ≠ t then
      { s.switchFpu cfg init c t with current := update s.current c t }
    else s
  | .exec c r =>
    { s with regs := update s.regs c r, last := update s.last (s.current c) r }
  | .spill c => s.saveState cfg init c (s.current c)
  | .transfer c snd rcv mem =>
    match s.owner snd, s.owner rcv with
    | some _, some q =>
      if snd = rcv then s
      else { s.transferFpu cfg init c snd rcv q mem with
        last := update s.last rcv (s.last snd) }
    | _, _ => s

def boot [Fintype C] (cfg : Config K) (init : R) (quota : Q → RamQuota) (root : Q) (current : C → T) :
    State C T K R Q where
  quota := quota
  owner := fun t => if ∃ c, current c = t then some root else none
  fpuState := fun t => if ∃ c, current c = t then some ⟨cfg.default, root, init⟩ else none
  regs := fun _ => init
  current := current
  fault := false
  last := fun _ => init

def Created (s s' : State C T K R Q) : Op C T R Q → Prop
  | .create _ t _ _ => s.owner t = none →
      (s'.owner t = none ∧ s'.quota = s.quota) ∨ (s'.owner t ≠ none ∧ (s'.fpuState t).isSome)
  | _ => True

/-- No null pointer is used, and every thread that runs has its own contents in the registers. -/
structure Right [Fintype C] (cfg : Config K) (init : R) (s : State C T K R Q) (op : Op C T R Q) : Prop where
  fault : (step cfg init s op).fault = false
  own : ∀ c, (step cfg init s op).regs c = (step cfg init s op).last ((step cfg init s op).current c)
  created : Created s (step cfg init s op) op

def Room (quota : Q → RamQuota) (q : Q) (bytes : ℕ) (mem : Bool) : Prop :=
  mem = true ∧ (quota q).alloc bytes ≠ none

/-- There is room for the save area of each thread there is room for, and for each save area whose
type a message changes; the partner of a message does not run on another CPU; and no registers are
saved by `fnsave` that are used again, unless they are as it leaves them. -/
def Careful (cfg : Config K) (init : R) (s : State C T K R Q) : Op C T R Q → Prop
  | .create q t mem fpuMem =>
    s.owner t = none → Room s.quota q cfg.threadSize mem →
      Room (qAlloc s.quota q cfg.threadSize mem).1 q (cfg.stateSize cfg.default) fpuMem
  | .transfer c snd rcv mem =>
    (∀ c', c' ≠ c → s.current c' ≠ snd ∧ s.current c' ≠ rcv) ∧
      (cfg.fnsave = true → s.current c = snd → s.regs c = init) ∧
      ∀ a ∈ s.fpuState rcv, ∀ b ∈ s.fpuState snd, ∀ q ∈ s.owner rcv, cfg.typed = true →
        a.type ≠ b.type → Room (s.freeState cfg rcv).quota q (cfg.stateSize b.type) mem
  | .spill c => cfg.fnsave = true → s.regs c = init
  | _ => True

structure Inv (s : State C T K R Q) : Prop where
  fault : s.fault = false
  state : ∀ t, s.owner t ≠ none → s.fpuState t ≠ none
  current : ∀ c, s.owner (s.current c) ≠ none
  inj : ∀ c c', s.current c = s.current c' → c = c'
  own : ∀ c, s.regs c = s.last (s.current c)
  saved : ∀ t st, (∀ c, s.current c ≠ t) → s.owner t ≠ none → s.fpuState t = some st →
    st.regs = s.last t

theorem qAlloc_of_room {quota : Q → RamQuota} {bytes : ℕ} (h : Room quota q bytes mem) :
    (qAlloc quota q bytes mem).2 = true := by
  obtain ⟨rfl, h⟩ := h
  obtain ⟨r, hr⟩ := Option.ne_none_iff_exists'.mp h
  simp only [qAlloc, hr, if_true]

theorem qAlloc_cases (quota : Q → RamQuota) (q : Q) (bytes : ℕ) (mem : Bool) :
    Room quota q bytes mem ∧ (qAlloc quota q bytes mem).2 = true ∨
      qAlloc quota q bytes mem = (quota, false) := by
  cases ha : (quota q).alloc bytes with
  | none => exact .inr (by simp only [qAlloc, ha])
  | some r =>
    cases mem with
    | true => exact .inl ⟨⟨rfl, by simp [ha]⟩, by simp only [qAlloc, ha, if_true]⟩
    | false =>
      have hfree := (RamQuota.alloc_eq_some ha).2
      exact .inr (by simp [qAlloc, ha, hfree])

omit [DecidableEq C] [DecidableEq K] in
theorem allocState_of_room {k : K} (h : Room s.quota q (cfg.stateSize k) mem) :
    s.allocState cfg init q t k mem = { s with
      quota := (qAlloc s.quota q (cfg.stateSize k) mem).1
      fpuState := update s.fpuState t (some ⟨k, q, init⟩) } := by
  rw [allocState]
  simp only [qAlloc_of_room h, if_true]

variable {snd rcv : T} {q : Q} {mem : Bool}

omit [DecidableEq C] in
theorem ensureCompatibleState_eq {a b : FpuState K R Q} (ha : s.fpuState rcv = some a)
    (hb : s.fpuState snd = some b)
    (hr : cfg.typed = true → a.type ≠ b.type →
      Room (s.freeState cfg rcv).quota q (cfg.stateSize b.type) mem) :
    ∃ quota a', s.ensureCompatibleState cfg init q rcv snd mem =
      { s with quota := quota, fpuState := update s.fpuState rcv (some a') } := by
  have hself : s = { s with quota := s.quota, fpuState := update s.fpuState rcv (some a) } := by
    rw [← ha, update_eq_self]
  rw [ensureCompatibleState]
  split_ifs with hty
  · simp only [ha, hb]
    split_ifs with hk
    · exact ⟨_, _, hself⟩
    · rw [allocState_of_room (hr hty hk)]
      simp only [freeState, ha, update_idem]
      exact ⟨_, _, rfl⟩
  · exact ⟨_, _, hself⟩

omit [DecidableEq T] [DecidableEq K] [DecidableEq Q] in
theorem update_regs (h : cfg.fnsave = true → s.regs c = init) :
    (if cfg.fnsave = true then update s.regs c init else s.regs) = s.regs := by
  split_ifs with hf
  · rw [← h hf, update_eq_self]
  · rfl

section

variable (h : Inv s)
include h

omit [DecidableEq C] [DecidableEq K] in
theorem Inv.create {fpuMem : Bool} (ht : s.owner t = none)
    (hr : Careful cfg init s (.create q t mem fpuMem)) : Inv (s.create cfg init q t mem fpuMem) ∧
      Created s (s.create cfg init q t mem fpuMem) (.create q t mem fpuMem) := by
  obtain ⟨hroom, hok⟩ | hno := qAlloc_cases s.quota q cfg.threadSize mem
  · rw [State.create]
    simp only [hok, if_true]
    rw [allocState_of_room (hr ht hroom)]
    obtain ⟨h1, h2, h3, h4, h5, h6⟩ := h
    refine ⟨⟨h1, ?_, ?_, h4, ?_, ?_⟩, fun _ => .inr ?_⟩ <;>
      simp only [update_apply] <;> grind
  · rw [State.create, hno]
    exact ⟨{ h with }, fun _ => .inl ⟨ht, rfl⟩⟩

omit [DecidableEq C] [DecidableEq T] [DecidableEq K] [DecidableEq Q] in
theorem Inv.area (ht : s.owner t ≠ none) : ∃ st, s.fpuState t = some st :=
  Option.ne_none_iff_exists'.mp (h.state t ht)

omit [DecidableEq K] in
theorem Inv.saveState (hr : Careful cfg init s (.spill c)) :
    Inv (s.saveState cfg init c (s.current c)) := by
  obtain ⟨st, hst⟩ := h.area (h.current c)
  simp only [State.saveState, hst, update_regs hr]
  obtain ⟨h1, h2, h3, h4, h5, h6⟩ := h
  refine ⟨h1, ?_, h3, h4, h5, ?_⟩ <;> simp only [update_apply] <;> grind

section

omit [DecidableEq K] [DecidableEq Q]

theorem Inv.switch (ht : s.owner t ≠ none) (hc : ∀ c', s.current c' ≠ t) :
    Inv { s.switchFpu cfg init c t with current := update s.current c t } := by
  obtain ⟨a, ha⟩ := h.area (h.current c)
  obtain ⟨b, hb⟩ := h.area ht
  have hne : t ≠ s.current c := fun he => hc c he.symm
  have hregs (r : R) : update (if cfg.fnsave = true then update s.regs c init else s.regs) c r =
      update s.regs c r := by
    split_ifs
    · exact update_idem ..
    · rfl
  simp only [switchFpu, State.saveState, ha, restoreState, update_of_ne hne, hb, hregs]
  obtain ⟨h1, h2, h3, h4, h5, h6⟩ := h
  refine ⟨h1, ?_, ?_, ?_, ?_, ?_⟩ <;> simp only [update_apply] <;> grind

theorem Inv.exec (r : R) :
    Inv { s with
      regs := update s.regs c r, last := update s.last (s.current c) r } := by
  obtain ⟨h1, h2, h3, h4, h5, h6⟩ := h
  refine ⟨h1, h2, h3, h4, ?_, ?_⟩ <;> simp only [update_apply] <;> grind

end

theorem Inv.transfer (hs : s.owner snd ≠ none) (hq : s.owner rcv = some q)
    (hne : snd ≠ rcv) (hr : Careful cfg init s (.transfer c snd rcv mem)) :
    Inv { s.transferFpu cfg init c snd rcv q mem with
      last := update s.last rcv (s.last snd) } := by
  obtain ⟨a, ha⟩ := h.area (t := rcv) (by simp [hq])
  obtain ⟨b, hb⟩ := h.area hs
  obtain ⟨quota, a', he⟩ := ensureCompatibleState_eq (R := R) ha hb (hr.2.2 a ha b hb q hq)
  have hcpu := hr.1
  rw [transferFpu, he]
  obtain ⟨h1, h2, h3, h4, h5, h6⟩ := h
  simp only
  split_ifs with hsnd hrcv
  · simp only [State.saveState, update_self, update_idem, update_regs fun hf => hr.2.1 hf hsnd.symm]
    refine ⟨h1, ?_, h3, h4, ?_, ?_⟩ <;> simp only [update_apply] <;> grind
  · simp only [restoreState, update_of_ne hne, hb]
    refine ⟨h1, ?_, h3, h4, ?_, ?_⟩ <;> simp only [update_apply] <;> grind
  · simp only [copyState, update_self, update_of_ne hne, hb, update_idem]
    refine ⟨h1, ?_, h3, h4, ?_, ?_⟩ <;> simp only [update_apply] <;> grind

theorem Inv.step [Fintype C] {op : Op C T R Q} (hr : Careful cfg init s op) :
    Inv (step cfg init s op) ∧ Created s (FpuEager.step cfg init s op) op := by
  cases op with
  | create q t mem fpuMem =>
    rw [FpuEager.step]
    split_ifs with ht
    · exact h.create ht hr
    · exact ⟨h, fun ht' => absurd ht' ht⟩
  | switch c t =>
    rw [FpuEager.step]
    split_ifs with ht
    · exact ⟨h.switch ht.1 ht.2, trivial⟩
    · exact ⟨h, trivial⟩
  | exec c r => exact ⟨h.exec r, trivial⟩
  | spill c => exact ⟨h.saveState hr, trivial⟩
  | transfer c snd rcv mem =>
    refine ⟨?_, trivial⟩
    rw [FpuEager.step]
    cases hs : s.owner snd with
    | none => exact h
    | some p =>
      cases hq : s.owner rcv with
      | none => exact h
      | some q =>
        simp only
        split_ifs with hne
        · exact h
        · exact h.transfer (by simp [hs]) hq hne hr

end

omit [DecidableEq C] [DecidableEq K] [DecidableEq Q] in
theorem Inv.boot [Fintype C] (quota : Q → RamQuota) (root : Q) {current : C → T}
    (h : Injective current) : Inv (boot cfg init quota root current) := by
  have hc (c : C) : ∃ c', current c' = current c := ⟨c, rfl⟩
  refine ⟨rfl, ?_, ?_, fun c c' hcc => h hcc, fun c => rfl, ?_⟩
  · intro t ht
    simp only [FpuEager.boot] at ht ⊢
    split_ifs at ht ⊢
    · exact Option.some_ne_none _
    · exact absurd rfl ht
  · intro c
    simp only [FpuEager.boot, if_pos (hc c)]
    exact Option.some_ne_none _
  · intro t st hcur ho hst
    simp only [FpuEager.boot] at hst
    split_ifs at hst with hex
    obtain ⟨c, hct⟩ := hex
    exact absurd hct (hcur c)

theorem right_of_careful [Fintype C] (quota : Q → RamQuota) (root : Q) {current : C → T}
    (hinj : Injective current) {ops : List (Op C T R Q)}
    (h : Machine.Along (step cfg init) (Careful cfg init) (boot cfg init quota root current) ops) :
    Machine.Along (step cfg init) (Right cfg init) (boot cfg init quota root current) ops := by
  apply Machine.Along.imp (I := Inv) _ _ (Inv.boot quota root hinj) h
  · intro s op hi hc
    exact (hi.step hc).1
  · intro s op hi hc
    obtain ⟨hi', hcr⟩ := hi.step hc
    exact ⟨hi'.fault, hi'.own, hcr⟩

def small (fnsave : Bool) : Config Unit := ⟨4096, fun _ => 512, (), false, fnsave⟩

def start (max : ℕ) : State (Fin 1) (Fin 2) Unit ℕ Unit :=
  boot (small false) 0 (fun _ => ⟨0, max⟩) () fun _ => 0

def handOff : List (Op (Fin 1) (Fin 2) ℕ Unit) :=
  [.create () 1 true true, .exec 0 7, .transfer 0 0 1 true, .switch 0 1]

def sendLater : List (Op (Fin 1) (Fin 2) ℕ Unit) :=
  [.create () 1 true true, .switch 0 1, .exec 0 7, .switch 0 0, .transfer 0 1 0 true, .switch 0 1]

theorem right_handOff :
    Machine.Along (step (small false) 0) (Right (small false) 0) (start 8192) handOff ∧
      Machine.Along (step (small true) 0) (Right (small true) 0) (start 8192) sendLater := by
  constructor
  · apply right_of_careful (fun _ => ⟨0, 8192⟩) ()
      (fun c c' _ => Subsingleton.elim c c')
    refine ⟨fun _ _ => ⟨rfl, by decide⟩, trivial,
      ⟨fun c' hc => absurd (Subsingleton.elim c' 0) hc, nofun, ?_⟩, trivial, trivial⟩
    intro a _ b _ q _ hty
    cases hty
  · apply right_of_careful (fun _ => ⟨0, 8192⟩) ()
      (fun c c' _ => Subsingleton.elim c c')
    refine ⟨fun _ _ => ⟨rfl, by decide⟩, trivial, trivial, trivial,
      ⟨fun c' hc => absurd (Subsingleton.elim c' 0) hc, fun _ hc => absurd hc (by decide), ?_⟩,
      trivial, trivial⟩
    intro a _ b _ q _ hty
    cases hty

/-- The quota has room for the thread and not for its save area. The receiver runs on another CPU.
The registers of a sender that goes on are saved by `fnsave`. -/
theorem not_right_careless :
    ¬Machine.Along (step (small false) 0) (Right (small false) 0) (start 4400) handOff ∧
    ¬Machine.Along (step (small false) 0) (Right (small false) 0)
      (boot (small false) 0 (fun _ => ⟨0, 8192⟩) () id : State (Fin 2) (Fin 2) Unit ℕ Unit)
      [.exec 0 7, .transfer 0 0 1 true] ∧
    ¬Machine.Along (step (small true) 0) (Right (small true) 0) (start 8192) handOff := by
  refine ⟨fun h => ?_, fun h => ?_, fun h => ?_⟩
  · exact absurd h.2.2.1.fault (by decide)
  · exact absurd (h.2.1.own 1) (by decide)
  · exact absurd (h.2.2.1.own 0) (by decide)

end Fiasco.FpuEager
