import Fiasco.Lib.Machine

/-!
# Continuations of the amd64 return frame

A thread that is in the kernel has a return frame at the top of its kernel stack. An exception that
is forced on it, a vCPU upcall and its end all divert the frame to a function of the kernel:
`Continuation::activate` keeps the user's values and `restore` puts them back. Whether a
continuation is active is read off the saved instruction pointer.
-/
namespace Fiasco.Ia32.Continuation

abbrev Mword := BitVec 64

structure Frame where
  ip : Mword
  cs : Mword
  flags : Mword
  sp : Mword
  ss : Mword
deriving DecidableEq, Repr

/-- `Continuation`; the constructor sets `_ip` only. -/
structure Cont where
  ip : Mword
  flags : Mword
  sp : Mword
  ss : BitVec 16
  cs : BitVec 16
deriving DecidableEq, Repr

structure Layout where
  leaveByTriggerException : Mword
  leaveByVcpuUpcall : Mword
  leaveAndKillMyself : Mword
  frameEnd : Mword

structure State where
  regs : Frame
  cont : Cont
  user : Option Frame
  inException : Bool
  dying : Bool
  dead : Bool

def noIp : Mword := BitVec.allOnes 64

def codeKernel : Mword := 0x08

def dataKernel : Mword := 0x10

def codeUser : Mword := 0x2b

def dataUser : Mword := 0x23

def eflagsTf : Mword := 0x100

def eflagsIf : Mword := 0x200

def eflagsIopl : Mword := 0x3000

def eflagsNt : Mword := 0x4000

def sanitizeUserFlags (flags : Mword) : Mword := flags &&& ~~~(eflagsIopl ||| eflagsNt) ||| eflagsIf

def rpl {w : ℕ} (cs : BitVec w) : BitVec 2 := cs.setWidth 2

def Unprivileged (flags : Mword) : Prop :=
  flags.getLsbD 9 = true ∧ flags.getLsbD 12 = false ∧ flags.getLsbD 13 = false
deriving Decidable

def NotNested (flags : Mword) : Prop := flags.getLsbD 14 = false
deriving Decidable

def Sanitised (flags : Mword) : Prop := Unprivileged flags ∧ NotNested flags
deriving Decidable

def Cont.valid (c : Cont) : Prop := c.ip ≠ noIp

instance (c : Cont) : Decidable c.valid := inferInstanceAs (Decidable (_ ≠ _))

/-- `Return_frame::ip`. Bit 7 of the selector marks an entry by `syscall`; the frame is then
left by `iret` instead. -/
def Frame.setIp (r : Frame) (ip : Mword) : Frame := { r with ip := ip, cs := r.cs &&& ~~~0x80 }

def Cont.save (r : Frame) : Cont where
  ip := r.ip
  flags := r.flags
  sp := r.sp
  ss := r.ss.setWidth 16
  cs := (r.cs &&& ~~~0x80).setWidth 16

section

variable (L : Layout) (s : State)

def Frame.divert (r : Frame) (func : Mword) : Frame where
  ip := func
  cs := codeKernel
  flags := r.flags &&& ~~~(eflagsTf ||| eflagsIf)
  sp := L.frameEnd
  ss := dataKernel

def State.activate (func : Mword) : State :=
  { s with regs := s.regs.divert L func, cont := Cont.save s.regs }

def Cont.frame (c : Cont) : Frame := ⟨c.ip, c.cs.setWidth 64, c.flags, c.sp, c.ss.setWidth 64⟩

def State.restore : State :=
  { s with regs := s.cont.frame, cont := { s.cont with ip := noIp } }

def State.set (src : Frame) : State :=
  { s with
    regs := { s.regs with sp := src.sp }
    cont := { s.cont with ip := src.ip, flags := src.flags } }

def State.triggerException (func : Mword) : State :=
  if s.cont.valid then s else s.activate L func

def State.userIp (ip : Mword) : State :=
  if s.cont.valid then { s with cont := { s.cont with ip := ip } }
  else { s with regs := s.regs.setIp ip }

def State.userSp (sp : Mword) : State :=
  if s.cont.valid then { s with cont := { s.cont with sp := sp } }
  else { s with regs := { s.regs with sp := sp } }

def State.setUser (ip sp : Mword) : State :=
  let s := if ip ≠ noIp then s.userIp ip else s
  if sp ≠ noIp then s.userSp sp else s

def exrCancel (ops : Mword) : Bool := ops.getLsbD 16

def exrTriggerException (ops : Mword) : Bool := ops.getLsbD 17

def State.resurrect : State := { s with dead := false }

def State.exRegs (ip sp ops : Mword) : State :=
  if !exrCancel ops && s.inException then s
  else
    let s := s.resurrect
    let s := if exrTriggerException ops then s.triggerException L L.leaveByTriggerException else s
    s.setUser ip sp

def trexWords : ℕ := 26

def State.copyUtcbToTs (words : ℕ) (src : Frame) : State :=
  if words < trexWords then s
  else if s.cont.valid then s.set { src with flags := sanitizeUserFlags src.flags }
  else
    { s with regs :=
      { src with flags := sanitizeUserFlags src.flags, cs := s.regs.cs &&& ~~~0x80 } }

def State.prepareKill : State :=
  if s.dying || s.dead then s
  else ({ s with dying := true } : State).restore.triggerException L L.leaveAndKillMyself

def vcpuEntry (ip sp : Mword) : Frame := ⟨ip, codeUser, eflagsIf, sp, dataUser⟩

/-- The thread leaves the kernel: its frame is loaded. With the kernel's selector this runs the
code at `ip`; `vip` and `vsp` are the entry of the vCPU. -/
def State.leave (vip vsp : Mword) : State :=
  if s.regs.cs ≠ codeKernel then { s with user := some s.regs }
  else if s.regs.ip = L.leaveByTriggerException then s.restore
  else if s.regs.ip = L.leaveByVcpuUpcall then
    { s.restore with user := some (vcpuEntry vip vsp) }
  else if s.regs.ip = L.leaveAndKillMyself then { s with dead := true }
  else s

inductive Call
  | exRegs (ip sp ops : Mword)
  | sendException
  | reply (words : ℕ) (src : Frame)
  | exceptionDone
  | upcall
  | exceptionUpcall (ip sp : Mword)
  | kill
  | leave (vip vsp : Mword)
deriving DecidableEq, Repr

inductive Op
  | trap (r : Frame)
  | call (c : Call)
deriving DecidableEq, Repr

def State.call : Call → State
  | .exRegs ip sp ops => s.exRegs L ip sp ops
  | .sendException => { s with inException := true }
  | .reply words src => if s.inException then s.copyUtcbToTs words src else s
  | .exceptionDone => { s with inException := false }
  | .upcall => if s.inException || s.dead then s else s.activate L L.leaveByVcpuUpcall
  | .exceptionUpcall ip sp =>
    if s.inException || s.dead then s
    else if s.cont.valid then s
    else { s with user := some (vcpuEntry ip sp) }
  | .kill => s.prepareKill L
  | .leave vip vsp => if s.inException || s.dead then s else s.leave L vip vsp

/-- The hardware saves a selector of user mode. `popf` and `iret` in user mode change all flags
but the privileged ones. -/
def Frame.saved (now r : Frame) : Frame :=
  { r with
    cs := r.cs ||| 3
    flags := r.flags &&& ~~~(eflagsIopl ||| eflagsIf) ||| now.flags &&& (eflagsIopl ||| eflagsIf) }

def step : Op → State
  | .trap r =>
    match s.user with
    | some now => { s with regs := now.saved r, user := none }
    | none => s
  | .call c => if s.user.isSome then s else s.call L c

/-- A new thread (`init_regs`). All but `_ip` of the continuation is what the memory held. -/
def fresh (c : Cont) : State where
  regs := ⟨0, codeUser, eflagsIf ||| 2, 0, dataUser⟩
  cont := { c with ip := noIp }
  user := none
  inException := false
  dying := false
  dead := true

def Layout.entries : List Mword :=
  [L.leaveByTriggerException, L.leaveByVcpuUpcall, L.leaveAndKillMyself]

structure Sound (L : Layout) (s : State) : Prop where
  entry : s.regs.cs = codeKernel → s.regs.ip ∈ L.entries ∧ s.regs.sp = L.frameEnd
  triggered : s.cont.valid ↔ s.regs.cs = codeKernel
  restored : s.cont.valid → rpl s.cont.frame.cs = 3 ∧ Sanitised s.cont.frame.flags

structure Frame.Plain (r : Frame) : Prop where
  cs : rpl r.cs = 3
  flags : Unprivileged r.flags

def Frame.Placed (r : Frame) : Prop := r.cs = codeKernel ∨ r.Plain

structure Inv (L : Layout) (s : State) : Prop where
  sound : Sound L s
  regs : s.regs.Placed
  user : ∀ r, s.user = some r → r.Plain ∧ s.regs.cs ≠ codeKernel

def State.Divertible : Prop :=
  ¬s.cont.valid ∧ s.regs.ip ≠ noIp ∧ NotNested s.regs.flags

instance (s : State) : Decidable s.Divertible := inferInstanceAs (Decidable (_ ∧ _))

def Guarded : Op → Prop
  | .trap _ => True
  | .call c => s.user = none →
    match c with
    | .exRegs _ _ ops =>
      exrTriggerException ops = true → (exrCancel ops = false → s.inException = false) →
        s.cont.valid ∨ s.Divertible
    | .reply words src =>
      s.inException = true → trexWords ≤ words → s.cont.valid →
        src.ip ≠ noIp ∧ src.sp = L.frameEnd
    | .upcall => s.inException = false → s.dead = false → s.Divertible
    | .kill => s.dying = false → s.dead = false → s.cont.valid
    | _ => True

end

variable {L : Layout} {s : State} {r : Frame} {func ip sp : Mword} {t : State}

theorem rpl_codeKernel : rpl codeKernel ≠ 3 := by decide

theorem Frame.Plain.ne_codeKernel (h : r.Plain) : r.cs ≠ codeKernel :=
  fun hk => rpl_codeKernel (hk ▸ h.cs)

theorem rpl_clear (cs : Mword) : rpl (cs &&& ~~~0x80) = rpl cs := by
  have h : BitVec.setWidth 2 (~~~0x80 : Mword) = BitVec.allOnes 2 := by decide
  rw [rpl, BitVec.setWidth_and, h, BitVec.and_allOnes, rpl]

theorem rpl_user (cs : Mword) : rpl (cs ||| 3) = 3 := by
  have h : BitVec.setWidth 2 (3 : Mword) = BitVec.allOnes 2 := by decide
  rw [rpl, BitVec.setWidth_or, h, BitVec.or_allOnes]
  rfl

theorem rpl_save (r : Frame) : rpl (Cont.save r).frame.cs = rpl r.cs := by
  rw [← rpl_clear r.cs]
  simp only [rpl, Cont.save, Cont.frame]
  rw [BitVec.setWidth_setWidth_of_le _ (by decide), BitVec.setWidth_setWidth_of_le _ (by decide)]

theorem unprivileged_sanitize (flags : Mword) : Unprivileged (sanitizeUserFlags flags) := by
  simp [Unprivileged, sanitizeUserFlags, eflagsIopl, eflagsNt, eflagsIf]

theorem sanitised_sanitize (flags : Mword) : Sanitised (sanitizeUserFlags flags) :=
  ⟨unprivileged_sanitize flags, by
    simp [NotNested, sanitizeUserFlags, eflagsIopl, eflagsNt, eflagsIf]⟩

theorem saved_plain {now : Frame} (h : now.Plain) (r : Frame) : (now.saved r).Plain where
  cs := rpl_user r.cs
  flags := by
    have := h.flags
    simpa [Unprivileged, Frame.saved, eflagsIopl, eflagsIf] using this

theorem vcpuEntry_plain (ip sp : Mword) : (vcpuEntry ip sp).Plain where
  cs := by
    show rpl codeUser = 3
    decide
  flags := by
    show Unprivileged eflagsIf
    decide

theorem sound_idle (hv : ¬s.cont.valid) (hk : s.regs.cs ≠ codeKernel) : Sound L s :=
  ⟨fun h => absurd h hk, iff_of_false hv hk, fun h => absurd h hv⟩

theorem inv_of_sound (h : Sound L s) (hr : s.regs.Placed)
    (hu : s.user = none) : Inv L s :=
  ⟨h, hr, fun r hr => absurd (hu.symm.trans hr) (by simp)⟩

theorem activate_sound (hf : func ∈ L.entries) :
    Sound L (s.activate L func) ↔
      s.regs.ip ≠ noIp ∧ rpl s.regs.cs = 3 ∧ Sanitised s.regs.flags := by
  rw [← rpl_save s.regs]
  constructor
  · intro h
    have hv : s.regs.ip ≠ noIp := h.triggered.mpr rfl
    exact ⟨hv, h.restored hv⟩
  · intro h
    exact ⟨fun _ => ⟨hf, rfl⟩, ⟨fun _ => rfl, fun _ => h.1⟩, fun _ => h.2⟩

open State

section

variable (h : Inv L s)
include h

theorem Inv.plain (hv : ¬s.cont.valid) : s.regs.Plain :=
  h.regs.resolve_left fun hk => hv (h.sound.triggered.mpr hk)

theorem Inv.not_plain (hv : s.cont.valid) : rpl s.regs.cs ≠ 3 := by
  rw [h.sound.triggered.mp hv]
  exact rpl_codeKernel

theorem Inv.cont_plain (hv : s.cont.valid) : s.cont.frame.Plain :=
  ⟨(h.sound.restored hv).1, (h.sound.restored hv).2.1⟩

theorem Inv.congr (hr : t.regs = s.regs) (hc : t.cont = s.cont) (hu : t.user = s.user)
    : Inv L t := by
  refine ⟨⟨?_, ?_, ?_⟩, ?_, ?_⟩
  · rw [hr]
    exact h.sound.entry
  · rw [hr, hc]
    exact h.sound.triggered
  · rw [hc]
    exact h.sound.restored
  · rw [hr]
    exact h.regs
  · rw [hr, hu]
    exact h.user

theorem activate_sound_iff (hf : func ∈ L.entries) :
    Sound L (s.activate L func) ↔ s.Divertible := by
  rw [activate_sound hf, Divertible]
  by_cases hv : s.cont.valid
  · exact iff_of_false (fun hs => h.not_plain hv hs.2.1) fun hs => hs.1 hv
  · have hp := h.plain hv
    exact ⟨fun hs => ⟨hv, hs.1, hs.2.2.2⟩, fun hs => ⟨hs.2.1, hp.cs, hp.flags, hs.2.2⟩⟩

theorem triggerException_sound_iff (hf : func ∈ L.entries) :
    Sound L (s.triggerException L func) ↔ s.cont.valid ∨ s.Divertible := by
  by_cases hv : s.cont.valid
  · rw [triggerException, if_pos hv]
    exact iff_of_true h.sound (.inl hv)
  · rw [triggerException, if_neg hv, activate_sound_iff h hf, or_iff_right hv]

theorem triggerException_placed (func : Mword) : (s.triggerException L func).regs.Placed := by
  by_cases hv : s.cont.valid
  · rw [triggerException, if_pos hv]
    exact h.regs
  · rw [triggerException, if_neg hv]
    exact .inl rfl

end

theorem clear_codeKernel : codeKernel &&& ~~~0x80 = codeKernel := by decide

theorem setIp_placed (hr : r.Placed) (ip : Mword) :
    ((r.setIp ip).cs = codeKernel ↔ r.cs = codeKernel) ∧ (r.setIp ip).Placed := by
  rcases hr with hk | hp
  · have hk' : (r.setIp ip).cs = codeKernel := by
      rw [Frame.setIp, hk]
      exact clear_codeKernel
    exact ⟨iff_of_true hk' hk, .inl hk'⟩
  · have hp' : (r.setIp ip).Plain := ⟨(rpl_clear r.cs).trans hp.cs, hp.flags⟩
    exact ⟨iff_of_false hp'.ne_codeKernel hp.ne_codeKernel, .inr hp'⟩

theorem sound_congr (hs : ¬s.cont.valid) (ht : ¬t.cont.valid)
    (hcs : t.regs.cs = codeKernel ↔ s.regs.cs = codeKernel) : Sound L t ↔ Sound L s := by
  by_cases hk : s.regs.cs = codeKernel
  · exact iff_of_false (fun h => ht (h.triggered.mpr (hcs.mpr hk)))
      fun h => hs (h.triggered.mpr hk)
  · exact iff_of_true (sound_idle ht (hk ∘ hcs.mp)) (sound_idle hs hk)

theorem userSp_sound_iff (sp : Mword) : Sound L (s.userSp sp) ↔ Sound L s := by
  by_cases hv : s.cont.valid
  · rw [userSp, if_pos hv]
    exact ⟨fun h => { h with }, fun h => { h with }⟩
  · rw [userSp, if_neg hv]
    exact sound_congr hv hv .rfl

section

variable (hr : s.regs.Placed)
include hr

theorem userIp_sound_iff (hip : ip ≠ noIp) : Sound L (s.userIp ip) ↔ Sound L s := by
  by_cases hv : s.cont.valid
  · rw [userIp, if_pos hv]
    have hi : ip ≠ noIp ↔ s.cont.valid := iff_of_true hip hv
    constructor
    · intro h
      exact ⟨h.entry, hi.symm.trans h.triggered, fun _ => h.restored hip⟩
    · intro h
      exact ⟨h.entry, hi.trans h.triggered, fun _ => h.restored hv⟩
  · rw [userIp, if_neg hv]
    exact sound_congr hv hv (setIp_placed hr ip).1

theorem userIp_placed (ip : Mword) : (s.userIp ip).regs.Placed := by
  by_cases hv : s.cont.valid
  · rw [userIp, if_pos hv]
    exact hr
  · rw [userIp, if_neg hv]
    exact (setIp_placed hr ip).2

theorem userSp_placed (sp : Mword) : (s.userSp sp).regs.Placed := by
  by_cases hv : s.cont.valid
  · rw [userSp, if_pos hv]
    exact hr
  · rw [userSp, if_neg hv]
    exact hr.imp id fun hp => ⟨hp.cs, hp.flags⟩

theorem setUser_sound_iff (ip sp : Mword) : Sound L (s.setUser ip sp) ↔ Sound L s := by
  simp only [setUser]
  split_ifs with hsp hip hip
  · rw [userSp_sound_iff, userIp_sound_iff hr hip]
  · exact userSp_sound_iff sp
  · exact userIp_sound_iff hr hip
  · exact .rfl

theorem setUser_placed (ip sp : Mword) : (s.setUser ip sp).regs.Placed := by
  simp only [setUser]
  split_ifs with hsp hip hip
  · exact userSp_placed (userIp_placed hr ip) sp
  · exact userSp_placed hr sp
  · exact userIp_placed hr ip
  · exact hr

end

theorem setUser_user (s : State) (ip sp : Mword) : (s.setUser ip sp).user = s.user := by
  simp only [setUser, userIp, userSp]
  split_ifs <;> rfl

theorem triggerException_user (s : State) (func : Mword) :
    (s.triggerException L func).user = s.user := by
  rw [triggerException]
  split_ifs <;> rfl

open Machine (Keeps)

theorem keeps_of_inv {P : Prop} (hP : P) (h : Inv L t) : Keeps (Sound L) (Inv L) P t :=
  .of_inv hP h.sound h

section

variable (h : Inv L s) (hu : s.user = none)
include h hu

theorem exRegs_keeps (ip sp ops : Mword) :
    Keeps (Sound L) (Inv L) (exrTriggerException ops = true → (exrCancel ops = false → s.inException = false) →
      s.cont.valid ∨ s.Divertible) (s.exRegs L ip sp ops) := by
  have h0 : Inv L s.resurrect := h.congr rfl rfl rfl
  have hr := triggerException_placed h0 L.leaveByTriggerException
  simp only [exRegs]
  split_ifs with hc ht
  · refine keeps_of_inv (fun _ hn => ?_) h
    simp only [Bool.and_eq_true, Bool.not_eq_true'] at hc
    exact absurd (hn hc.1) (by simp [hc.2])
  · constructor
    · rw [setUser_sound_iff hr, triggerException_sound_iff h0 (by simp [Layout.entries])]
      refine ⟨fun hd _ _ => hd, fun hd => hd ht fun hcan => ?_⟩
      simpa [hcan] using hc
    · intro hs
      refine inv_of_sound hs (setUser_placed hr ip sp) ?_
      rw [setUser_user, triggerException_user]
      exact hu
  · refine keeps_of_inv (fun hn => absurd hn ht) (inv_of_sound ?_ (setUser_placed h0.regs ip sp) ?_)
    · exact (setUser_sound_iff h0.regs ip sp).mpr h0.sound
    · exact (setUser_user s.resurrect ip sp).trans hu

theorem copyUtcbToTs_keeps (words : ℕ) (src : Frame) :
    Keeps (Sound L) (Inv L) (trexWords ≤ words → s.cont.valid → src.ip ≠ noIp ∧ src.sp = L.frameEnd)
      (s.copyUtcbToTs words src) := by
  rw [copyUtcbToTs]
  split_ifs with hw hv
  · exact keeps_of_inv (fun hn => absurd hw (Nat.not_lt.mpr hn)) h
  · have hk := h.sound.triggered.mp hv
    have hs : Sound L (s.set { src with flags := sanitizeUserFlags src.flags }) ↔
        src.ip ≠ noIp ∧ src.sp = L.frameEnd := by
      constructor
      · intro hs
        exact ⟨hs.triggered.mpr hk, (hs.entry hk).2⟩
      · intro hd
        exact ⟨fun _ => ⟨(h.sound.entry hk).1, hd.2⟩, iff_of_true hd.1 hk,
          fun _ => ⟨(h.sound.restored hv).1, sanitised_sanitize src.flags⟩⟩
    refine ⟨hs.trans ⟨fun hd _ _ => hd, fun hd => hd (Nat.not_lt.mp hw) hv⟩, fun hs => ?_⟩
    exact inv_of_sound hs (.inl hk) hu
  · have hp : ({ src with
        flags := sanitizeUserFlags src.flags, cs := s.regs.cs &&& ~~~0x80 } : Frame).Plain :=
      ⟨(rpl_clear s.regs.cs).trans (h.plain hv).cs, unprivileged_sanitize src.flags⟩
    refine keeps_of_inv (fun _ hn => absurd hn hv) (inv_of_sound ?_ (.inr hp) hu)
    exact sound_idle hv hp.ne_codeKernel

theorem upcall_keeps :
    Keeps (Sound L) (Inv L) s.Divertible (s.activate L L.leaveByVcpuUpcall) :=
  ⟨activate_sound_iff h (by simp [Layout.entries]), fun hs => inv_of_sound hs (.inl rfl) hu⟩

theorem prepareKill_keeps :
    Keeps (Sound L) (Inv L) (s.dying = false → s.dead = false → s.cont.valid) (s.prepareKill L) := by
  rw [prepareKill]
  split_ifs with hd
  · refine keeps_of_inv (fun h1 h2 => ?_) h
    simp [h1, h2] at hd
  · have hn : ¬({ s with dying := true } : State).restore.cont.valid := fun hn => hn rfl
    rw [triggerException, if_neg hn]
    have hs : Sound L (({ s with dying := true } : State).restore.activate L L.leaveAndKillMyself) ↔
        _ := activate_sound (by simp [Layout.entries])
    simp only [Bool.or_eq_true, not_or, Bool.not_eq_true] at hd
    refine ⟨hs.trans ⟨fun hv _ _ => hv.1, fun hv => ?_⟩, fun hs => inv_of_sound hs (.inl rfl) hu⟩
    have hv := hv hd.1 hd.2
    exact ⟨hv, h.sound.restored hv⟩

end

theorem restore_inv (h : Inv L s) (hv : s.cont.valid) (hu : s.user = none) : Inv L s.restore := by
  have hp := h.cont_plain hv
  have hn : ¬s.restore.cont.valid := fun hn => hn rfl
  exact inv_of_sound (sound_idle hn hp.ne_codeKernel) (.inr hp) hu

theorem enter_inv (h : Inv L s) (hk : s.regs.cs ≠ codeKernel) (hr : r.Plain) :
    Inv L { s with user := some r } := by
  refine ⟨⟨h.sound.entry, h.sound.triggered, h.sound.restored⟩, h.regs, fun r' hr' => ?_⟩
  obtain rfl := Option.some.inj hr'
  exact ⟨hr, hk⟩

theorem leave_inv (h : Inv L s) (hu : s.user = none) (vip vsp : Mword) :
    Inv L (s.leave L vip vsp) := by
  rw [leave]
  by_cases hk : s.regs.cs = codeKernel
  · rw [if_neg (not_not_intro hk)]
    have hv := h.sound.triggered.mpr hk
    have hrest := restore_inv h hv hu
    split_ifs
    · exact hrest
    · exact enter_inv hrest (h.cont_plain hv).ne_codeKernel (vcpuEntry_plain vip vsp)
    · exact h.congr rfl rfl rfl
    · exact h
  · rw [if_pos hk]
    exact enter_inv h hk (h.regs.resolve_left hk)

theorem step_keeps (h : Inv L s) (op : Op) : Keeps (Sound L) (Inv L) (Guarded L s op) (step L s op) := by
  cases op with
  | trap r =>
    rw [step]
    cases hu : s.user with
    | none => exact keeps_of_inv trivial h
    | some now =>
      have hn := h.user now hu
      have hp := saved_plain hn.1 r
      refine keeps_of_inv trivial (inv_of_sound (sound_idle ?_ hp.ne_codeKernel) (.inr hp) rfl)
      exact fun hv => hn.2 (h.sound.triggered.mp hv)
  | call c =>
    cases hu : s.user with
    | some now =>
      rw [step, hu]
      exact keeps_of_inv (fun hn => absurd (hu.symm.trans hn) (by simp)) h
    | none =>
      have hcall : step L s (.call c) = s.call L c := by rw [step, hu]; rfl
      rw [hcall]
      suffices hs : Keeps (Sound L) (Inv L) _ (s.call L c) from
        hs.congr ⟨fun hg _ => hg, fun hg => hg hu⟩
      cases c with
      | exRegs ip sp ops => exact exRegs_keeps h hu ip sp ops
      | sendException | exceptionDone =>
        exact keeps_of_inv trivial (h.congr rfl rfl rfl)
      | reply words src =>
        rw [call]
        split_ifs with he
        · have hk := copyUtcbToTs_keeps h hu words src
          exact hk.congr ⟨fun hg _ => hg, fun hg => hg he⟩
        · exact keeps_of_inv (fun hn => absurd hn he) h
      | upcall =>
        rw [call]
        split_ifs with he
        · refine keeps_of_inv (fun h1 h2 => ?_) h
          simp [h1, h2] at he
        · simp only [Bool.or_eq_true, not_or, Bool.not_eq_true] at he
          have hk := upcall_keeps h hu
          exact hk.congr ⟨fun hg _ _ => hg, fun hg => hg he.1 he.2⟩
      | exceptionUpcall ip sp =>
        rw [call]
        split_ifs with he hv
        · exact keeps_of_inv trivial h
        · exact keeps_of_inv trivial h
        · have hp := h.plain hv
          exact keeps_of_inv trivial (enter_inv h hp.ne_codeKernel (vcpuEntry_plain ip sp))
      | kill => exact prepareKill_keeps h hu
      | leave vip vsp =>
        rw [call]
        split_ifs with he
        · exact keeps_of_inv trivial h
        · exact keeps_of_inv trivial (leave_inv h hu vip vsp)

theorem fresh_inv (c : Cont) : Inv L (fresh c) := by
  have hp : (fresh c).regs.Plain := by
    constructor
    · show rpl codeUser = 3
      decide
    · show Unprivileged (eflagsIf ||| 2)
      decide
  exact inv_of_sound (sound_idle (fun hv => hv rfl) hp.ne_codeKernel) (.inr hp) rfl

theorem continuation_sound_iff (L : Layout) (c : Cont) (ops : List Op) :
    Machine.Along (step L) (fun s op => Sound L (step L s op)) (fresh c) ops ↔
      Machine.Along (step L) (Guarded L) (fresh c) ops :=
  Machine.along_good_iff (fun _ op h => step_keeps h op) (fresh_inv c)

/-- A thread jumps to the last address, and the kernel is asked to raise an exception for it and to
set its pointers. The saved instruction pointer then reads as none, and the pointers go to the frame
with the kernel's selector. -/
theorem user_ip_in_kernel_mode :
    let L : Layout := ⟨0xffffffff80001000, 0xffffffff80002000, 0xffffffff80003000,
      0xffffffff90001000⟩
    let s := Machine.run (step L) (fresh ⟨0, 0, 0, 0, 0⟩)
      [.call (.exRegs 0x1000 0x8000 0), .call (.leave 0 0),
        .trap ⟨noIp, codeUser, eflagsIf, 0x8000, dataUser⟩,
        .call (.exRegs 0x1234 0x5678 0x20000)]
    s.regs.cs = codeKernel ∧ s.regs.ip = 0x1234 ∧ s.regs.sp = 0x5678 ∧ s.regs.ip ∉ L.entries ∧
      ¬s.cont.valid := by
  decide

end Fiasco.Ia32.Continuation
