import Fiasco.Lib.Machine

/-!
# The lazy FPU

The registers of the FPU of a CPU belong to one thread, the owner; the contents for all other
threads are in their save areas. Another thread traps when it uses the FPU, and becomes the owner
then. A message can hand the save area of the sender over to the receiver, and with it the
ownership.

The switch that hides the FPU from the user mode of a vCPU is left out. The operations of one CPU
run with interrupts off, and those of other CPUs on the same thread are excluded by the state of
its IPC, so a history is a sequence of whole operations.
-/

namespace Fiasco.Fpu

open Function Bool

structure State (C T R : Type) where
  owner : C → Option T
  enabled : C → Bool
  regs : C → R
  current : C → T
  home : T → C
  fpuOwner : T → Bool
  fpuState : T → Option R
  dead : T → Bool
  failed : Bool
  /-- What the thread had in the registers last. This is not part of the kernel. -/
  last : T → R
  /-- The thread has given its contents away. This is not part of the kernel. -/
  gone : T → Bool

inductive Op (C T R : Type)
  | switch (c : C) (t : T)
  | fpuTrap (c : C) (alloc : Bool)
  | exec (c : C) (r : R)
  | spill (t : T)
  | spillCpu (c : C)
  | migrate (t : T) (c : C)
  | kill (c : C)
  /-- The running thread sends its contents to one that waits. -/
  | send (c : C) (rcv : T)
  /-- The running thread receives the contents of one in its queue. -/
  | receive (c : C) (snd : T)
deriving DecidableEq, Repr

variable {C T R : Type} [DecidableEq C] [DecidableEq T]

namespace State

section

variable (s : State C T R) (c : C) (t : T)

def assert (p : Bool) : State C T R := if p then s else { s with failed := true }

def spillFpu : State C T R :=
  let s := s.assert (s.owner c == some t && s.fpuOwner t && (s.fpuState t).isSome)
  { s with
    fpuState := update s.fpuState t (some (s.regs c))
    fpuOwner := update s.fpuOwner t false }

def disown : State C T R :=
  { s with
    owner := update s.owner c none
    enabled := update s.enabled c false }

def spillFpuIfOwner : State C T R :=
  if s.fpuOwner t then (s.spillFpu c t).disown c else s

def spillCurrentFpu : State C T R :=
  match s.owner c with
  | some o => (s.spillFpu c o).disown c
  | none => s

def releaseFpuIfOwner : State C T R :=
  if s.owner c = some t then s.disown c else s

def switchFpu : State C T R :=
  if s.owner c = some (s.current c) then { s with enabled := update s.enabled c false }
  else if s.owner c = some t then { s with enabled := update s.enabled c true }
  else s

def takeFpu (r : R) : State C T R :=
  { s with
    regs := update s.regs c r
    fpuOwner := update s.fpuOwner t true
    owner := update s.owner c (some t)
    enabled := update s.enabled c true }

def switchinFpu (init : R) (s : State C T R) (c : C) (t : T) (alloc : Bool) : State C T R :=
  let s := s.assert (s.owner c != some t)
  if (s.fpuState t).isNone && !alloc then s
  else
    let r := (s.fpuState t).getD init
    let s := { s with fpuState := update s.fpuState t (some r) }
    let s :=
      match s.owner c with
      | some o => s.spillFpu c o
      | none => s
    s.takeFpu c t r

def moveState (snd rcv : T) : State C T R :=
  let fpuState := update s.fpuState rcv none
  { s with fpuState := update (update fpuState snd none) rcv (fpuState snd) }

def transferFpu (snd rcv : T) : State C T R :=
  let s := s.moveState snd rcv
  if s.home snd ≠ s.home rcv then s.assert (!s.fpuOwner rcv && !s.fpuOwner snd)
  else
    let s := s.assert (s.current c == snd || s.current c == rcv)
    let s := { s with enabled := update s.enabled c false }
    if s.owner c = some rcv then
      let s := s.assert (s.fpuOwner rcv)
      { s with
        owner := update s.owner c none
        fpuOwner := update s.fpuOwner rcv false }
    else if s.owner c = some snd then
      let s := s.assert (s.fpuOwner snd)
      { s with
        fpuOwner := update (update s.fpuOwner snd false) rcv true
        owner := update s.owner c (some rcv)
        enabled := update s.enabled c (s.current c == rcv) }
    else s

def handOver (snd rcv : T) : State C T R :=
  { s with
    last := update s.last rcv (s.last snd)
    gone := update (update s.gone rcv (s.gone snd)) snd true }

def lives : Bool := decide (s.home t = c) && !s.dead t

def migrate (c : C) : State C T R :=
  if s.current (s.home t) = t then s
  else
    let s := s.spillFpuIfOwner (s.home t) t
    { s with home := update s.home t c }

def kill : State C T R :=
  let s := s.releaseFpuIfOwner c t
  { s with dead := update s.dead t true }

def exec (r : R) : State C T R :=
  { s with
    regs := update s.regs c r
    last := update s.last t r
    gone := update s.gone t false }

/-- `ipc_send_msg`: the receiver gives up the FPU if the sender is from another CPU. -/
def receive (snd rcv : T) : State C T R :=
  let s := if s.home snd ≠ s.home rcv then s.spillFpuIfOwner c rcv else s
  s.transferFpu c snd rcv

end

end State

open State

section

variable (init : R) (s : State C T R)

def step : Op C T R → State C T R
  | .switch c t =>
    if s.current c = t then s
    else { s.switchFpu c t with current := update s.current c t }
  | .fpuTrap c alloc =>
    if s.lives c (s.current c) && !s.enabled c then s.switchinFpu init c (s.current c) alloc else s
  | .exec c r => if s.lives c (s.current c) && s.enabled c then s.exec c (s.current c) r else s
  | .spill t => s.spillFpuIfOwner (s.home t) t
  | .spillCpu c => s.spillCurrentFpu c
  | .migrate t c => s.migrate t c
  | .kill c => if s.lives c (s.current c) then s.kill c (s.current c) else s
  | .send c rcv =>
    if s.lives c (s.current c) && !s.dead rcv then
      (s.transferFpu c (s.current c) rcv).handOver (s.current c) rcv
    else s
  | .receive c snd =>
    if s.lives c (s.current c) && !s.dead snd then
      (s.receive c snd (s.current c)).handOver snd (s.current c)
    else s

def boot (regs : C → R) (current : C → T) (home : T → C) : State C T R where
  owner := fun _ => none
  enabled := fun _ => false
  regs := regs
  current := current
  home := home
  fpuOwner := fun _ => false
  fpuState := fun _ => none
  dead := fun _ => false
  failed := false
  last := fun _ => init
  gone := fun _ => false

structure Sound (s : State C T R) : Prop where
  failed : s.failed = false
  marked : ∀ t, s.fpuOwner t = true → s.owner (s.home t) = some t
  enabled : ∀ c, s.enabled c = true → s.owner c = some (s.current c)

def Sees : Op C T R → Prop
  | .exec c _ =>
    s.lives c (s.current c) = true → s.enabled c = true → s.regs c = s.last (s.current c)
  | _ => True

def Holds (op : Op C T R) : Prop := Sound (step init s op) ∧ Sees s op

def Unowned : Op C T R → Prop
  | .kill c => s.lives c (s.current c) = true → s.fpuOwner (s.current c) = false
  | .send c rcv =>
    s.lives c (s.current c) = true → s.dead rcv = false → s.home rcv ≠ c →
      s.fpuOwner (s.current c) = false ∧ s.fpuOwner rcv = false
  | .receive c snd =>
    s.lives c (s.current c) = true → s.dead snd = false → s.home snd ≠ c → s.fpuOwner snd = false
  | _ => True

def Spared : Op C T R → Prop
  | .exec c _ =>
    s.lives c (s.current c) = true → s.enabled c = true → s.gone (s.current c) = true →
      s.last (s.current c) = init
  | _ => True

def Guarded (op : Op C T R) : Prop := Unowned s op ∧ Spared init s op

def State.content (t : T) : R :=
  if s.fpuOwner t then s.regs (s.home t) else (s.fpuState t).getD init

end

structure Inv (init : R) (s : State C T R) : Prop where
  sound : Sound s
  owner : ∀ c t, s.owner c = some t →
    s.home t = c ∧ s.fpuOwner t = true ∧ (s.fpuState t).isSome = true
  running : ∀ c, s.owner c = some (s.current c) → s.enabled c = true
  content : ∀ t, s.content init t = if s.gone t then init else s.last t

variable {init : R} {s : State C T R} {c : C} {t : T} {snd rcv : T}

omit [DecidableEq C] [DecidableEq T] in
theorem assert_true {p : Bool} (h : p = true) : s.assert p = s := if_pos h

section

variable (h : Inv init s)
include h

omit [DecidableEq C] in
theorem spillFpu_eq (ho : s.owner c = some t) :
    s.spillFpu c t = { s with
      fpuState := update s.fpuState t (some (s.regs c))
      fpuOwner := update s.fpuOwner t false } := by
  obtain ⟨-, hf, hs⟩ := h.owner c t ho
  rw [spillFpu, assert_true (by simp [ho, hf, hs])]

theorem spill_disown_inv (ho : s.owner c = some t) : Inv init ((s.spillFpu c t).disown c) := by
  rw [spillFpu_eq h ho, disown]
  obtain ⟨⟨h1, h2, h3⟩, h4, h5, h6⟩ := h
  refine ⟨⟨h1, ?_, ?_⟩, ?_, ?_, ?_⟩ <;> simp only [State.content, update_apply] at h6 ⊢ <;> grind

theorem spillFpuIfOwner_inv (t : T) : Inv init (s.spillFpuIfOwner (s.home t) t) := by
  rw [spillFpuIfOwner]
  split_ifs with hf
  · exact spill_disown_inv h (h.sound.marked t hf)
  · exact h

theorem spillCurrentFpu_inv (c : C) : Inv init (s.spillCurrentFpu c) := by
  rw [spillCurrentFpu]
  split
  · next o ho => exact spill_disown_inv h ho
  · exact h

theorem not_owner_of_spill (t : T) : (s.spillFpuIfOwner (s.home t) t).fpuOwner t = false := by
  rw [spillFpuIfOwner]
  split_ifs with hf
  · rw [spillFpu_eq h (h.sound.marked t hf)]
    exact update_self t false s.fpuOwner
  · simpa using hf

theorem takeFpu_inv (ho : s.owner c = none) (hc : s.current c = t)
    (hh : s.home t = c) (hf : s.fpuOwner t = false) {r : R} (hs : s.fpuState t = some r) :
    Inv init (s.takeFpu c t r) := by
  rw [takeFpu]
  obtain ⟨⟨h1, h2, h3⟩, h4, h5, h6⟩ := h
  refine ⟨⟨h1, ?_, ?_⟩, ?_, ?_, ?_⟩ <;> simp only [State.content, update_apply] at h6 ⊢ <;>
    grind

omit [DecidableEq C] in
theorem allocState_inv (t : T) :
    Inv init { s with fpuState := update s.fpuState t (some ((s.fpuState t).getD init)) } := by
  obtain ⟨⟨h1, h2, h3⟩, h4, h5, h6⟩ := h
  refine ⟨⟨h1, h2, h3⟩, ?_, h5, ?_⟩ <;> simp only [State.content, update_apply] at h6 ⊢ <;>
    grind

end

theorem takeFpu_disown (s : State C T R) (c : C) (t : T) (r : R) :
    (s.disown c).takeFpu c t r = s.takeFpu c t r := by
  simp only [takeFpu, disown, update_idem]

section

variable (h : Inv init s)
include h

theorem switchinFpu_inv (hc : s.current c = t) (hh : s.home t = c)
    (he : s.enabled c = false) (alloc : Bool) : Inv init (s.switchinFpu init c t alloc) := by
  have ho : s.owner c ≠ some t := by
    intro ho
    have := h.running c (hc ▸ ho)
    simp [he] at this
  have hf : s.fpuOwner t = false := by
    by_contra hf
    exact ho (hh ▸ h.sound.marked t (by simpa using hf))
  rw [switchinFpu, assert_true (by simpa using ho)]
  split_ifs with ha
  · exact h
  · have h' := allocState_inv h t
    generalize hr : (s.fpuState t).getD init = r at h' ⊢
    have hs : (update s.fpuState t (some r)) t = some r := update_self _ _ _
    cases hown : s.owner c with
    | none =>
      simp only [hown]
      exact takeFpu_inv h' hown hc hh hf hs
    | some o =>
      simp only [hown]
      rw [← takeFpu_disown]
      have hot : t ≠ o := fun hto => ho (hto ▸ hown)
      refine takeFpu_inv (spill_disown_inv h' hown) (update_self _ _ _) ?_ ?_ ?_ ?_
      · rw [spillFpu_eq h' hown]
        exact hc
      · rw [spillFpu_eq h' hown]
        exact hh
      · rw [spillFpu_eq h' hown]
        exact (update_of_ne hot _ _).trans hf
      · rw [spillFpu_eq h' hown]
        exact (update_of_ne hot _ _).trans hs

theorem switchFpu_inv (hc : s.current c ≠ t) :
    Inv init { s.switchFpu c t with current := update s.current c t } := by
  rw [switchFpu]
  obtain ⟨⟨h1, h2, h3⟩, h4, h5, h6⟩ := h
  split_ifs with ho ho' <;> refine ⟨⟨h1, h2, ?_⟩, h4, ?_, h6⟩ <;>
    simp only [update_apply] <;> grind

theorem migrate_inv (t : T) (c : C) : Inv init (s.migrate t c) := by
  rw [State.migrate]
  split_ifs with hc
  · exact h
  · have h' := spillFpuIfOwner_inv h t
    have hf := not_owner_of_spill h t
    generalize s.spillFpuIfOwner (s.home t) t = s' at h' hf
    obtain ⟨⟨h1, h2, h3⟩, h4, h5, h6⟩ := h'
    refine ⟨⟨h1, ?_, h3⟩, ?_, h5, ?_⟩ <;> simp only [State.content, update_apply] at h6 ⊢ <;>
      grind

omit [DecidableEq C] [DecidableEq T] in
theorem regs_of_enabled (hh : s.home (s.current c) = c) (he : s.enabled c = true) :
    s.regs c = if s.gone (s.current c) then init else s.last (s.current c) := by
  have ho := h.sound.enabled c he
  have hf := (h.owner c _ ho).2.1
  rw [← h.content, State.content, if_pos hf, hh]

theorem exec_inv (hh : s.home t = c) (hf : s.fpuOwner t = true) (r : R) :
    Inv init (s.exec c t r) := by
  rw [State.exec]
  obtain ⟨⟨h1, h2, h3⟩, h4, h5, h6⟩ := h
  refine ⟨⟨h1, h2, h3⟩, h4, h5, ?_⟩
  simp only [State.content, update_apply] at h6 ⊢
  grind

theorem kill_inv (hf : s.fpuOwner t = false) : Inv init (s.kill c t) := by
  have ho : s.owner c ≠ some t := fun ho => by simp [(h.owner c t ho).2.1] at hf
  rw [State.kill, releaseFpuIfOwner, if_neg ho]
  exact ⟨⟨h.sound.failed, h.sound.marked, h.sound.enabled⟩, h.owner, h.running, h.content⟩

theorem kill_not_sound (hh : s.home t = c) (hf : s.fpuOwner t = true) : ¬Sound (s.kill c t) := by
  have ho : s.owner c = some t := hh ▸ h.sound.marked t hf
  rw [State.kill, releaseFpuIfOwner, if_pos ho]
  intro hs
  have hm := hs.marked t hf
  simp only [disown, hh, update_self] at hm
  cases hm

theorem transfer_remote_inv (hh : s.home snd ≠ s.home rcv)
    (hs : s.fpuOwner snd = false) (hr : s.fpuOwner rcv = false) :
    Inv init ((s.transferFpu c snd rcv).handOver snd rcv) := by
  rw [transferFpu, moveState]
  simp only [if_pos hh]
  rw [assert_true (by simp [hs, hr]), handOver]
  obtain ⟨⟨h1, h2, h3⟩, h4, h5, h6⟩ := h
  refine ⟨⟨h1, h2, h3⟩, ?_, h5, ?_⟩ <;> simp only [State.content, update_apply] at h6 ⊢ <;>
    grind

end

theorem transfer_remote_not_sound (hh : s.home snd ≠ s.home rcv)
    (hf : ¬(s.fpuOwner snd = false ∧ s.fpuOwner rcv = false)) :
    ¬Sound ((s.transferFpu c snd rcv).handOver snd rcv) := by
  intro hs
  have hfail := hs.failed
  rw [transferFpu, moveState] at hfail
  simp only [if_pos hh, handOver, State.assert] at hfail
  grind

theorem spillFpuIfOwner_home (s : State C T R) (c : C) (t u : T) :
    (s.spillFpuIfOwner c t).home u = s.home u ∧ (s.spillFpuIfOwner c t).current = s.current := by
  rw [spillFpuIfOwner, spillFpu, State.assert]
  split_ifs <;> exact ⟨rfl, rfl⟩

open Machine (Keeps run)

omit [DecidableEq C] [DecidableEq T] in
theorem keeps_of_inv {t : State C T R} {P : Prop} (hP : P) (h : Inv init t) :
    Keeps Sound (Inv init) P t :=
  .of_inv hP h.sound h

omit [DecidableEq T] in
theorem lives_home (h : s.lives c t = true) : s.home t = c := by
  simp only [lives, and_eq_true, decide_eq_true_eq] at h
  exact h.1

section

variable (h : Inv init s)
include h

theorem transfer_local_inv (hs : s.home snd = c) (hr : s.home rcv = c)
    (hc : s.current c = snd ∨ s.current c = rcv) :
    Inv init ((s.transferFpu c snd rcv).handOver snd rcv) := by
  rw [transferFpu, moveState]
  simp only [hs, hr, ne_eq, not_true_eq_false, if_false]
  rw [assert_true (by simpa using hc)]
  by_cases ho : s.owner c = some rcv
  · have hf := (h.owner c rcv ho).2.1
    simp only [if_pos ho]
    rw [assert_true hf, handOver]
    obtain ⟨⟨h1, h2, h3⟩, h4, h5, h6⟩ := h
    refine ⟨⟨h1, ?_, ?_⟩, ?_, ?_, ?_⟩ <;> simp only [State.content, update_apply] at h6 ⊢ <;>
      grind
  · by_cases ho' : s.owner c = some snd
    · have hf := (h.owner c snd ho').2.1
      simp only [if_neg ho, if_pos ho']
      rw [assert_true hf, handOver]
      obtain ⟨⟨h1, h2, h3⟩, h4, h5, h6⟩ := h
      refine ⟨⟨h1, ?_, ?_⟩, ?_, ?_, ?_⟩ <;> simp only [State.content, update_apply] at h6 ⊢ <;>
        grind
    · simp only [if_neg ho, if_neg ho']
      rw [handOver]
      obtain ⟨⟨h1, h2, h3⟩, h4, h5, h6⟩ := h
      refine ⟨⟨h1, ?_, ?_⟩, ?_, ?_, ?_⟩ <;> simp only [State.content, update_apply] at h6 ⊢ <;>
        grind

theorem spillFpuIfOwner_other {u : T} (hu : u ≠ t) :
    (s.spillFpuIfOwner (s.home t) t).fpuOwner u = s.fpuOwner u := by
  rw [spillFpuIfOwner]
  split_ifs with hf
  · rw [spillFpu_eq h (h.sound.marked t hf)]
    exact update_of_ne hu _ _
  · rfl

theorem kill_keeps (hh : s.home t = c) :
    Keeps Sound (Inv init) (s.fpuOwner t = false) (s.kill c t) := by
  cases hf : s.fpuOwner t with
  | false => exact keeps_of_inv rfl (kill_inv h hf)
  | true => exact Keeps.of_not (by simp) (kill_not_sound h hh hf)

theorem send_keeps (hc : s.current c = snd) (hh : s.home snd = c) :
    Keeps Sound (Inv init) (s.home rcv ≠ c → s.fpuOwner snd = false ∧ s.fpuOwner rcv = false)
      ((s.transferFpu c snd rcv).handOver snd rcv) := by
  by_cases hr : s.home rcv = c
  · exact keeps_of_inv (fun hn => absurd hr hn) (transfer_local_inv h hh hr (.inl hc))
  · have hne : s.home snd ≠ s.home rcv := fun he => hr (he ▸ hh)
    by_cases hf : s.fpuOwner snd = false ∧ s.fpuOwner rcv = false
    · exact keeps_of_inv (fun _ => hf) (transfer_remote_inv h hne hf.1 hf.2)
    · exact Keeps.of_not (fun hp => hf (hp hr)) (transfer_remote_not_sound hne hf)

theorem receive_keeps (hc : s.current c = rcv) (hh : s.home rcv = c) :
    Keeps Sound (Inv init) (s.home snd ≠ c → s.fpuOwner snd = false)
      ((s.receive c snd rcv).handOver snd rcv) := by
  rw [State.receive]
  by_cases hs : s.home snd = c
  · rw [if_neg (not_not_intro (hs.trans hh.symm))]
    exact keeps_of_inv (fun hn => absurd hs hn) (transfer_local_inv h hs hh (.inr hc))
  · -- The receiver has given up its FPU, so only the sender can be in the way.
    have hne : s.home snd ≠ s.home rcv := fun he => hs (he.trans hh)
    have hne' : snd ≠ rcv := fun he => hne (congrArg s.home he)
    rw [if_pos hne, ← hh]
    have hhome := fun u => (spillFpuIfOwner_home s (s.home rcv) rcv u).1
    have hinv := spillFpuIfOwner_inv h rcv
    have hrcv := not_owner_of_spill h rcv
    have hsnd := spillFpuIfOwner_other h hne'
    cases hf : s.fpuOwner snd with
    | false =>
      refine keeps_of_inv (fun _ => rfl) (transfer_remote_inv hinv ?_ (hsnd.trans hf) hrcv)
      rw [hhome, hhome]
      exact hne
    | true =>
      refine Keeps.of_not (fun hp => ?_) (transfer_remote_not_sound ?_ fun hn => ?_)
      · exact absurd (hp hne) (by simp)
      · rw [hhome, hhome]
        exact hne
      · rw [hsnd, hf] at hn
        exact absurd hn.1 (by simp)

theorem step_keeps (op : Op C T R) : Keeps Sound (Inv init) (Unowned s op) (step init s op) := by
  cases op with
  | switch c t =>
    rw [step]
    split_ifs with hc
    · exact keeps_of_inv trivial h
    · exact keeps_of_inv trivial (switchFpu_inv h hc)
  | fpuTrap c alloc =>
    rw [step]
    split_ifs with hl
    · simp only [and_eq_true, not_eq_true'] at hl
      exact keeps_of_inv trivial (switchinFpu_inv h rfl (lives_home hl.1) hl.2 alloc)
    · exact keeps_of_inv trivial h
  | exec c r =>
    rw [step]
    split_ifs with hl
    · rw [and_eq_true] at hl
      have ho := h.sound.enabled c hl.2
      exact keeps_of_inv trivial (exec_inv h (lives_home hl.1) (h.owner c _ ho).2.1 r)
    · exact keeps_of_inv trivial h
  | spill t => exact keeps_of_inv trivial (spillFpuIfOwner_inv h t)
  | spillCpu c => exact keeps_of_inv trivial (spillCurrentFpu_inv h c)
  | migrate t c => exact keeps_of_inv trivial (migrate_inv h t c)
  | kill c =>
    rw [step]
    split_ifs with hl
    · have hk := kill_keeps h (lives_home hl)
      exact hk.congr ⟨fun hp _ => hp, fun hp => hp hl⟩
    · exact keeps_of_inv (fun hn => absurd hn hl) h
  | send c rcv =>
    rw [step]
    split_ifs with hl
    · simp only [and_eq_true, not_eq_true'] at hl
      have hk : Keeps Sound (Inv init) _ ((s.transferFpu c (s.current c) rcv).handOver (s.current c) rcv) :=
        send_keeps h rfl (lives_home hl.1)
      exact hk.congr ⟨fun hp _ _ => hp, fun hp => hp hl.1 hl.2⟩
    · refine keeps_of_inv (fun h1 h2 => ?_) h
      simp [h1, h2] at hl
  | receive c snd =>
    rw [step]
    split_ifs with hl
    · simp only [and_eq_true, not_eq_true'] at hl
      have hk : Keeps Sound (Inv init) _ ((s.receive c snd (s.current c)).handOver snd (s.current c)) :=
        receive_keeps h rfl (lives_home hl.1)
      exact hk.congr ⟨fun hp _ _ => hp, fun hp => hp hl.1 hl.2⟩
    · refine keeps_of_inv (fun h1 h2 => ?_) h
      simp [h1, h2] at hl

end

omit [DecidableEq T] in
theorem sees_iff (h : Inv init s) (op : Op C T R) : Sees s op ↔ Spared init s op := by
  cases op with
  | exec c r =>
    refine forall_congr' fun hl => forall_congr' fun he => ?_
    rw [regs_of_enabled h (lives_home hl) he]
    cases s.gone (s.current c) with
    | false => simp
    | true => simp [eq_comm]
  | _ => exact .rfl

omit [DecidableEq C] [DecidableEq T] in
theorem boot_inv (init : R) (regs : C → R) (current : C → T) (home : T → C) :
    Inv init (boot init regs current home) where
  sound := ⟨rfl, fun _ h => absurd h (by simp [boot]), fun _ h => absurd h (by simp [boot])⟩
  owner := fun _ _ h => absurd h (by simp [boot])
  running := fun _ h => absurd h (by simp [boot])
  content := fun _ => rfl

theorem fpu_holds_iff (init : R) (regs : C → R) (current : C → T) (home : T → C)
    (ops : List (Op C T R)) :
    Machine.Along (step init) (Holds init) (boot init regs current home) ops ↔
      Machine.Along (step init) (Guarded init) (boot init regs current home) ops :=
  Machine.along_congr (fun _ op h hs => (step_keeps h op).inv hs.1)
    (fun _ op h => and_congr (step_keeps h op).good_iff (sees_iff h op))
    (boot_inv init regs current home)

def pair : State Bool Bool ℕ := boot 0 (fun _ => 0) id id

/-- A thread that has used the FPU sends its contents to one that waits on another CPU, and
`transfer_fpu` finds the sender marked. A thread that is killed keeps its mark, but not the FPU. -/
theorem owner_sends_and_dies :
    (run (step 0) pair [.fpuTrap false true, .exec false 7, .send false true]).failed =
        true ∧
      (run (step 0) pair [.fpuTrap false true, .kill false]).fpuOwner false = true ∧
      (run (step 0) pair [.fpuTrap false true, .kill false]).owner false = none := by
  decide

end Fiasco.Fpu
