import Fiasco.Lib.Machine

/-!
# The vCPU state of a thread

`sys_vcpu_control` puts the vCPU state of a thread into the kernel-user memory of its space, which
must hold a `Vcpu_state`, or a page for an extended vCPU. For an extended vCPU it sets
`Thread_vcpu_enabled` in `add_state` twice and `Thread_ext_vcpu_enabled` not at all.

The contents of the area are left out.
-/

namespace Fiasco.Vcpu

abbrev Mword := BitVec 64

def threadVcpuEnabled : Mword := 0x400000
def threadExtVcpuEnabled : Mword := 0x2000000
def vcpuCtlExtendedVcpu : Mword := 0x10000

inductive Err
  | eInval | eNosys | eNomem | eExists
deriving DecidableEq, Repr

inductive Arch
  | generic | arm
deriving DecidableEq, Repr

structure Config where
  arch : Arch
  pageShift : ℕ
  vcpuSize : Mword
  userMax : Mword
  pos : 0 < vcpuSize

def Config.extVcpuSize (cfg : Config) : Mword := 1#64 <<< cfg.pageShift

structure KuMem where
  uAddr : Mword
  kAddr : Mword
  size : Mword
  pos : 0 < size
deriving DecidableEq

def KuMem.kernAddr (f : KuMem) (pa : Mword) : Mword := f.kAddr + (pa - f.uAddr)

structure State where
  state : Mword
  vcpuState : Option (Mword × Mword)
  kuMem : List KuMem
  /-- The area in use has been asked for as an extended one. This is not part of the kernel. -/
  extended : Bool

structure Call where
  words : ℕ
  ctl : Mword
  vcpu : Mword
  available : Bool
  current : Bool

inductive Op
  | control (c : Call)
  | allocKuMem (order : ℕ) (addr : Mword) (chunk : Except Err Mword)

variable {cfg : Config} {s : State} {m : List KuMem} {f : KuMem} {pa size : Mword}

def findKuMem (m : List KuMem) (pa size : Mword) : Option KuMem :=
  if pa &&& 7 ≠ 0 then none
  else if pa + size - 1 < pa then none
  else m.find? fun f => f.uAddr ≤ pa ∧ f.uAddr + f.size - 1 ≥ pa + size - 1

/-- Only ARM, with `CONFIG_CPU_VIRT`, has a check of its own. -/
def preCheck (arch : Arch) (ext current : Bool) : Option Err :=
  match arch with
  | .generic => none
  | .arm => if ext && !current then some .eInval else none

def State.enable (s : State) (addState vcpu : Mword) (f : KuMem) (ext : Bool) : State :=
  { s with
    state := s.state &&& ~~~0 ||| addState
    vcpuState := some (vcpu, f.kernAddr vcpu)
    extended := ext }

def Call.ext (c : Call) : Bool := c.ctl &&& vcpuCtlExtendedVcpu != 0

def sysVcpuControl (cfg : Config) (s : State) (c : Call) : Option Err × State :=
  let vcpu := if 2 ≤ c.words then c.vcpu else 0
  if vcpu = 0 then (some .eInval, s)
  else if c.ext && !c.available then (some .eNosys, s)
  else
    let size := if c.ext then cfg.extVcpuSize else cfg.vcpuSize
    -- `add_state.vcpu_enabled()`, where `add_state.vcpu_ext_enabled()` is meant
    let addState := if c.ext then threadVcpuEnabled else 0
    match findKuMem s.kuMem vcpu size with
    | none => (some .eInval, s)
    | some f =>
      match preCheck cfg.arch (addState &&& threadVcpuEnabled != 0) c.current with
      | some e => (some e, s)
      | none => (none, s.enable (addState ||| threadVcpuEnabled) vcpu f c.ext)

theorem shiftLeft_pos {order : ℕ} (h : ¬ (order < cfg.pageShift ∨ 17 < order)) : 0 < 1#64 <<< order := by
  have hlt : 2 ^ order ≤ 2 ^ 17 := Nat.pow_le_pow_right (by decide) (by omega)
  have hpos : 0 < 2 ^ order := Nat.two_pow_pos order
  rw [BitVec.lt_def, BitVec.toNat_shiftLeft, Nat.shiftLeft_eq, BitVec.toNat_ofNat,
    Nat.mod_eq_of_lt (a := _ * _) (by omega)]
  change 0 < _
  omega

def allocKuMem (cfg : Config) (s : State) (order : ℕ) (addr : Mword) (chunk : Except Err Mword) :
    Option Err × State :=
  if h : order < cfg.pageShift ∨ 17 < order then (some .eInval, s)
  else if addr > cfg.userMax - 1#64 <<< order + 1 then (some .eInval, s)
  else
    match chunk with
    | .error e => (some e, s)
    | .ok p => (none, { s with kuMem := ⟨addr, p, 1#64 <<< order, shiftLeft_pos h⟩ :: s.kuMem })

def exec (cfg : Config) (s : State) : Op → Option Err × State
  | .control c => sysVcpuControl cfg s c
  | .allocKuMem order addr chunk => allocKuMem cfg s order addr chunk

def step (cfg : Config) (s : State) (a : Op) : State := (exec cfg s a).2

def KuMem.Holds (f : KuMem) (pa size : Mword) : Prop :=
  f.uAddr.toNat ≤ pa.toNat ∧ pa.toNat + size.toNat ≤ f.uAddr.toNat + f.size.toNat

def State.ext (s : State) : Bool := s.state &&& threadExtVcpuEnabled != 0

def Right (cfg : Config) (s : State) : Prop :=
  ∀ a ∈ s.vcpuState, (s.ext = true ↔ s.extended = true) ∧
    ∃ f ∈ s.kuMem, f.Holds a.1 (if s.ext then cfg.extVcpuSize else cfg.vcpuSize)

/-- A call for an extended vCPU is refused: without an address or without support, or because no
chunk holds the page, or, on ARM, for a thread of another CPU. -/
def Refused (cfg : Config) (s : State) : Op → Prop
  | .control c => c.ext = true → c.words < 2 ∨ c.vcpu = 0 ∨ c.available = false ∨
      findKuMem s.kuMem c.vcpu cfg.extVcpuSize = none ∨ cfg.arch = .arm ∧ c.current = false
  | .allocKuMem .. => True

theorem findKuMem_holds (h : findKuMem m pa size = some f) (hs : 0 < size) : f ∈ m ∧ f.Holds pa size := by
  unfold findKuMem at h
  split_ifs at h with ha hw
  have hf := List.find?_some h
  have hpos := f.pos
  simp only [decide_eq_true_eq, ge_iff_le] at hf
  refine ⟨List.mem_of_find?_eq_some h, ?_⟩
  -- neither sum wraps, as the last byte is not below the first
  unfold KuMem.Holds
  bv_omega

structure Inv (cfg : Config) (s : State) : Prop where
  ext : s.ext = false
  plain : s.extended = false
  holds : ∀ a ∈ s.vcpuState, ∃ f ∈ s.kuMem, f.Holds a.1 cfg.vcpuSize

theorem Inv.right (h : Inv cfg s) : Right cfg s := by
  intro a ha
  rw [h.ext, h.plain]
  exact ⟨.rfl, h.holds a ha⟩

theorem ext_enable {add vcpu : Mword} {ext : Bool} (h : s.ext = false)
    (ha : add &&& threadExtVcpuEnabled = 0) : (s.enable add vcpu f ext).ext = false := by
  have hs : s.state &&& threadExtVcpuEnabled = 0 := by simpa [State.ext] using h
  rw [State.ext, State.enable, show s.state &&& ~~~0 = s.state from BitVec.and_allOnes,
    BitVec.and_or_distrib_right, hs, ha]
  rfl

theorem preCheck_plain (arch : Arch) (current : Bool) : preCheck arch false current = none := by
  cases arch <;> rfl

theorem preCheck_cases (arch : Arch) (current : Bool) :
    preCheck arch true current = some .eInval ∧ arch = .arm ∧ current = false ∨
      preCheck arch true current = none ∧ ¬ (arch = .arm ∧ current = false) := by
  cases arch <;> cases current <;> decide

theorem control_spec (cfg : Config) (s : State) (c : Call) :
    (∃ e, sysVcpuControl cfg s c = (some e, s)) ∧ Refused cfg s (.control c) ∨
      ∃ f add, findKuMem s.kuMem c.vcpu (if c.ext then cfg.extVcpuSize else cfg.vcpuSize) = some f ∧
        add &&& threadExtVcpuEnabled = 0 ∧ (c.ext = true → ¬ Refused cfg s (.control c)) ∧
        sysVcpuControl cfg s c = (none, s.enable add c.vcpu f c.ext) := by
  unfold sysVcpuControl Refused
  by_cases hw : c.words < 2
  · exact .inl ⟨⟨.eInval, by simp [Nat.not_le.mpr hw]⟩, fun _ => .inl hw⟩
  · by_cases hv : c.vcpu = 0
    · exact .inl ⟨⟨.eInval, by simp [hv]⟩, fun _ => .inr (.inl hv)⟩
    · simp only [if_pos (Nat.le_of_not_lt hw), if_neg hv]
      by_cases hc : c.ext = true
      · cases ha : c.available with
        | false => exact .inl ⟨⟨.eNosys, by simp [hc]⟩, fun _ => .inr (.inr (.inl rfl))⟩
        | true =>
          simp only [hc, if_true, Bool.not_true, Bool.and_false, Bool.false_eq_true, if_false]
          cases hf : findKuMem s.kuMem c.vcpu cfg.extVcpuSize with
          | none => exact .inl ⟨⟨.eInval, rfl⟩, fun _ => .inr (.inr (.inr (.inl rfl)))⟩
          | some f =>
            have hext : (threadVcpuEnabled &&& threadVcpuEnabled != 0) = true := rfl
            simp only [hext]
            rcases preCheck_cases cfg.arch c.current with ⟨hp, hu⟩ | ⟨hp, hu⟩ <;> simp only [hp]
            · exact .inl ⟨⟨.eInval, rfl⟩, fun _ => .inr (.inr (.inr (.inr hu)))⟩
            · refine .inr ⟨f, _, rfl, rfl, fun _ hn => ?_, rfl⟩
              exact hv (by simpa [hw, hu] using hn)
      · simp only [Bool.eq_false_iff.mpr hc, Bool.false_and, Bool.false_eq_true, if_false]
        cases hf : findKuMem s.kuMem c.vcpu cfg.vcpuSize with
        | none => exact .inl ⟨⟨.eInval, rfl⟩, nofun⟩
        | some f =>
          have hext : ((0 : Mword) &&& threadVcpuEnabled != 0) = false := rfl
          simp only [hext, preCheck_plain]
          exact .inr ⟨f, _, rfl, rfl, nofun, rfl⟩

theorem Inv.exec (h : Inv cfg s) (a : Op) :
    (((exec cfg s a).1 = none → Right cfg (step cfg s a)) ↔ Refused cfg s a) ∧
      (Refused cfg s a → Inv cfg (step cfg s a)) := by
  cases a with
  | control c =>
    rw [step, Vcpu.exec]
    rcases control_spec cfg s c with ⟨⟨e, he⟩, hr⟩ | ⟨f, add, hf, hadd, hr, he⟩ <;> rw [he]
    · exact ⟨iff_of_true nofun hr, fun _ => h⟩
    · have hext : (s.enable add c.vcpu f c.ext).ext = false := ext_enable h.ext hadd
      by_cases hc : c.ext = true
      · refine ⟨iff_of_false (fun hright => ?_) (hr hc), fun hn => (hr hc hn).elim⟩
        exact absurd (hext.symm.trans ((hright rfl _ rfl).1.mpr hc)) nofun
      · rw [if_neg hc] at hf
        obtain ⟨hm, hh⟩ := findKuMem_holds hf cfg.pos
        have hinv : Inv cfg (s.enable add c.vcpu f c.ext) := by
          refine ⟨hext, Bool.not_eq_true _ ▸ hc, ?_⟩
          rintro _ ⟨⟩
          exact ⟨f, hm, hh⟩
        exact ⟨iff_of_true (fun _ => hinv.right) fun hn => (hc hn).elim, fun _ => hinv⟩
  | allocKuMem order addr chunk =>
    have hinv : Inv cfg (step cfg s (.allocKuMem order addr chunk)) := by
      rw [step, Vcpu.exec, allocKuMem]
      split_ifs
      · exact h
      · exact h
      · cases chunk with
        | error e => exact h
        | ok p =>
          refine ⟨h.ext, h.plain, fun a ha => ?_⟩
          obtain ⟨f, hm, hf⟩ := h.holds a ha
          exact ⟨f, .tail _ hm, hf⟩
    exact ⟨iff_of_true (fun _ => hinv.right) trivial, fun _ => hinv⟩

theorem vcpu_right_iff (cfg : Config) (s : State) (as : List Op) (hnone : s.vcpuState = none)
    (hext : s.ext = false) (hplain : s.extended = false) :
    Machine.Along (step cfg) (fun s a => (exec cfg s a).1 = none → Right cfg (step cfg s a)) s as ↔
      Machine.Along (step cfg) (Refused cfg) s as := by
  refine Machine.along_congr (I := Inv cfg) (fun s a h hp => ?_) (fun s a h => (h.exec a).1)
    ⟨hext, hplain, by simp [hnone]⟩
  exact (h.exec a).2 ((h.exec a).1.mp hp)

def small (arch : Arch) : Config := ⟨arch, 12, 512, 0x7fffffffffff, by decide⟩

def fresh : State := ⟨0, none, [], false⟩

def page : Op := .allocKuMem 12 0x1000 (.ok 0x8000)

theorem vcpu_right_plain : fresh.vcpuState = none ∧ fresh.ext = false ∧ fresh.extended = false ∧
    Machine.Along (step (small .arm))
      (fun s a => (exec (small .arm) s a).1 = none → Right (small .arm) (step (small .arm) s a)) fresh
      [page, .control ⟨2, 0, 0x1000, true, true⟩,
        .control ⟨2, vcpuCtlExtendedVcpu, 0x1000, true, false⟩] := by
  refine ⟨rfl, rfl, rfl, (vcpu_right_iff (small .arm) fresh _ rfl rfl rfl).mpr
    ⟨trivial, fun h => ?_, fun _ => ?_, trivial⟩⟩
  · exact absurd h (by decide)
  · exact .inr (.inr (.inr (.inr ⟨rfl, rfl⟩)))

/-- The generic check does not look at the CPU of the thread. -/
def extend (current : Bool) : List Op :=
  [page, .control ⟨2, vcpuCtlExtendedVcpu, 0x1000, true, current⟩]

theorem not_vcpu_right_extended :
    (¬ Machine.Along (step (small .generic)) (fun s a => (exec (small .generic) s a).1 = none →
      Right (small .generic) (step (small .generic) s a)) fresh (extend true)) ∧
    ¬ Machine.Along (step (small .generic)) (fun s a => (exec (small .generic) s a).1 = none →
      Right (small .generic) (step (small .generic) s a)) fresh (extend false) := by
  constructor <;> intro h <;> exact absurd ((h.2.1 rfl _ rfl).1.mpr rfl) (by decide)

end Fiasco.Vcpu
