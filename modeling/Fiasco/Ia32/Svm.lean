import Fiasco.Lib.Machine

/-!
# Guest entries with SVM

Each CPU has one VMCB of the kernel. `do_resume_vcpu` fills it from the VMCB of the user and enters
the guest. Groups of fields whose clean bit is set are not copied again; the clean bits are those of
the user if the same VMCB was used last, and none otherwise. If the bit is set at the entry, the
hardware may go on using what it has loaded before.

A call gets the contents of the user's VMCB as they are when they are read. The registers that
are copied to the kernel's VMCB and back without a test are one component, of any type.
-/
namespace Fiasco.Ia32.Svm

abbrev Mword := BitVec 64

structure Vmcb (G : Type) where
  interceptRdCr : BitVec 16
  interceptWrCr : BitVec 16
  interceptRdDr : BitVec 16
  interceptWrDr : BitVec 16
  interceptExceptions : BitVec 32
  interceptInstruction0 : BitVec 32
  interceptInstruction1 : BitVec 32
  pauseFilterThreshold : BitVec 16
  pauseFilterCount : BitVec 16
  iopmBasePa : Mword
  msrpmBasePa : Mword
  tscOffset : Mword
  guestAsid : BitVec 32
  tlbCtl : BitVec 32
  intTprIrq : BitVec 16
  intCtl : BitVec 16
  intVector : BitVec 8
  interruptShadow : BitVec 8
  npEnable : Mword
  eventinj : Mword
  nCr3 : Mword
  lbrVirtualizationEnable : Mword
  cleanBits : Mword
  efer : Mword
  cr4 : Mword
  cr3 : Mword
  cr0 : Mword
  dr7 : Mword
  dr6 : Mword
  gPat : Mword
  xcr0 : Mword
  guest : G

structure Config where
  is64bit : Bool
  svmEnabled : Bool
  hasNpt : Bool
  iopmBasePa : Mword
  msrpmBasePa : Mword
  hostCr4 : Mword

/-- The page directory of a VM, and what its first entry refers to after the attempt to allocate
a table there (0 if there is none). -/
structure Vm where
  physDir : Mword
  nextLevel : Mword

structure Exit (G : Type) where
  cr0 : Mword
  cr3 : Mword
  cr4 : Mword
  dr6 : Mword
  dr7 : Mword
  intTprIrq : BitVec 16
  interruptShadow : BitVec 8
  eventinj : Mword
  guest : G

/-- A call of `do_resume_vcpu`: the address of the user's VMCB and its contents, the VM, whether
the FPU can be switched to, which groups the hardware keeps if it may, and the exit. -/
structure Call (G : Type) where
  addr : ℕ
  vmcb : Vmcb G
  vm : Vm
  fpu : Bool
  keep : Mword
  exit : Exit G

structure State (G : Type) where
  kernelVmcb : Vmcb G
  lastUserVmcb : Option ℕ
  /-- What the hardware has loaded at the last entry. -/
  loaded : Vmcb G

variable {G : Type}

def cleanI : ℕ := 0

def cleanIopm : ℕ := 1

def cleanAsid : ℕ := 2

def cleanTpr : ℕ := 3

def cleanNp : ℕ := 4

def cleanCrx : ℕ := 5

def cleanDrx : ℕ := 6

def cleanLbr : ℕ := 10

def cr0Pe : Mword := 0x1

def cr0Pg : Mword := 0x80000000

def cr4Pse : Mword := 0x10

def cr4Pae : Mword := 0x20

def cr4Mce : Mword := 0x40

def eferLme : Mword := 0x100

def eferLma : Mword := 0x400

def eferSvme : Mword := 0x1000

def Covers {w : ℕ} (mask x : BitVec w) : Prop := mask &&& x = mask
deriving Decidable

theorem covers_or {w : ℕ} (x mask : BitVec w) : Covers mask (x ||| mask) := by
  rw [Covers]
  ext i hi
  simp only [BitVec.getElem_and, BitVec.getElem_or]
  cases mask[i] <;> simp

def Vmcb.npEnabled (v : Vmcb G) : Prop := v.npEnable.getLsbD 0 = true

instance (v : Vmcb G) : Decidable v.npEnabled := inferInstanceAs (Decidable (_ = _))

section

variable (cfg : Config) (st : State G) (c : Call G)

def State.cleanBits : Mword :=
  if st.lastUserVmcb = some c.addr then c.vmcb.cleanBits else 0

def copyIntercepts (clean : Mword) (d s : Vmcb G) : Vmcb G :=
  if clean.getLsbD cleanI then d
  else { d with
    interceptRdCr := s.interceptRdCr
    interceptWrCr := s.interceptWrCr
    interceptRdDr := s.interceptRdDr
    interceptWrDr := s.interceptWrDr
    interceptExceptions := s.interceptExceptions
    interceptInstruction0 := s.interceptInstruction0
    interceptInstruction1 := s.interceptInstruction1
    pauseFilterThreshold := s.pauseFilterThreshold
    pauseFilterCount := s.pauseFilterCount
    tscOffset := s.tscOffset }

def copyTpr (clean : Mword) (d s : Vmcb G) : Vmcb G :=
  if clean.getLsbD cleanTpr then d
  else { d with
    intTprIrq := s.intTprIrq &&& 0x1ff
    intCtl := s.intCtl &&& ~~~0xfee0 ||| 0x0100
    intVector := s.intVector }

def copyLbr (clean : Mword) (d s : Vmcb G) : Vmcb G :=
  if clean.getLsbD cleanLbr then d
  else { d with lbrVirtualizationEnable := s.lbrVirtualizationEnable }

def copyControlArea (d s : Vmcb G) : Vmcb G :=
  let clean := d.cleanBits
  let d := { d with
    interruptShadow := s.interruptShadow &&& 1
    eventinj := s.eventinj }
  copyLbr clean (copyTpr clean (copyIntercepts clean d s) s) s

section

variable (clean : Mword) (d s : Vmcb G)

def copyStateSaveArea : Vmcb G := { d with guest := s.guest }

def copyNp : Vmcb G :=
  if clean.getLsbD cleanNp then d else { d with gPat := s.gPat, npEnable := s.npEnable }

def copyEfer : Vmcb G :=
  if clean.getLsbD cleanCrx then d else { d with efer := s.efer }

def copyDrx : Vmcb G :=
  if clean.getLsbD cleanDrx then d else { d with dr7 := s.dr7, dr6 := s.dr6 }

def copyGroups : Vmcb G :=
  copyDrx clean (copyEfer clean (copyNp clean d s) s) s

def State.takeOver : Vmcb G :=
  let v := { st.kernelVmcb with cleanBits := st.cleanBits c }
  copyGroups (st.cleanBits c) (copyStateSaveArea (copyControlArea v c.vmcb) c.vmcb) c.vmcb

def getVmCr3 (vm : Vm) (v : Vmcb G) : Mword :=
  if cfg.is64bit = false then vm.physDir
  else if v.npEnabled then vm.physDir
  else if v.efer &&& eferLme ≠ 0 ∧ v.cr0 &&& cr0Pg ≠ 0 then vm.physDir
  else if vm.nextLevel.toNat ≥ 2 ^ 32 then 0
  else vm.nextLevel

def eInval : ℤ := 22

def eNomem : ℤ := 12

def reject (vm : Vm) (v : Vmcb G) : Option ℤ :=
  if clean.getLsbD cleanNp = false ∧ v.npEnabled ∧ cfg.hasNpt = false then some (-eInval)
  else if cfg.is64bit = true ∧ getVmCr3 cfg vm v = 0 then some (-eNomem)
  else if cfg.is64bit = false ∧ v.efer &&& (eferLme ||| eferLma) ≠ 0 then some (-eInval)
  else if v.efer &&& eferSvme = 0 then some (-eInval)
  else none

def mandatoryDr : BitVec 16 := 0xff3f

def mandatoryInstruction0 : BitVec 32 :=
  0x18000000 ||| 1 <<< 30 ||| 0xf ||| 1 <<< 15 ||| 1 <<< 22 ||| 1 <<< 24 ||| 1 <<< 29 ||| 1 <<< 31

def mandatoryInstruction1 : BitVec 32 := 1 <<< 10 ||| 1 <<< 11 ||| 1 <<< 13 ||| 0xff

def mandatoryExceptions : BitVec 32 := 1 <<< 1 ||| 1 <<< 17

def enforce (v s : Vmcb G) : Vmcb G :=
  { v with
    xcr0 := s.xcr0
    interceptRdDr := v.interceptRdDr ||| mandatoryDr
    interceptWrDr := v.interceptWrDr ||| mandatoryDr
    interceptInstruction0 := v.interceptInstruction0 ||| mandatoryInstruction0
    interceptInstruction1 := v.interceptInstruction1 ||| mandatoryInstruction1
    interceptExceptions := v.interceptExceptions ||| mandatoryExceptions
    iopmBasePa := cfg.iopmBasePa
    msrpmBasePa := cfg.msrpmBasePa
    guestAsid := 1
    tlbCtl := v.tlbCtl ||| 1 }

def copyCr (v s : Vmcb G) : Vmcb G :=
  if clean.getLsbD cleanCrx then v else { v with cr0 := s.cr0, cr3 := s.cr3, cr4 := s.cr4 }

def setNested (clean vmCr3 : Mword) (v s : Vmcb G) : Vmcb G :=
  { copyCr clean v s with nCr3 := vmCr3 }

def setCr (v s : Vmcb G) : Vmcb G :=
  if clean.getLsbD cleanCrx = false ∨ clean.getLsbD cleanNp = false then
    { v with
      cr0 := s.cr0 ||| (cr0Pg ||| cr0Pe)
      cr4 := (if cfg.is64bit then s.cr4 ||| cr4Pae else s.cr4 &&& ~~~cr4Pae) ||| cr4Pse }
  else v

def setInterceptCr (v : Vmcb G) : Vmcb G :=
  if clean.getLsbD cleanI then v
  else { v with interceptRdCr := 0xfff9, interceptWrCr := 0xfff9 }

def setShadow (clean vmCr3 : Mword) (v s : Vmcb G) : Vmcb G :=
  setInterceptCr clean { setCr cfg clean v s with cr3 := vmCr3 }

def setPaging (clean vmCr3 : Mword) (v s : Vmcb G) : Vmcb G :=
  if v.npEnabled then setNested clean vmCr3 v s else setShadow cfg clean vmCr3 v s

def fill (vm : Vm) (v s : Vmcb G) : Vmcb G :=
  let v := setPaging cfg clean (getVmCr3 cfg vm v) (enforce cfg v s) s
  { v with cr4 := v.cr4 ||| cfg.hostCr4 &&& cr4Mce, cleanBits := 0 }

end

def Vmcb.load (v old : Vmcb G) (keep : Mword) : Vmcb G :=
  let kept := fun b => (v.cleanBits &&& keep).getLsbD b
  { v with
    interceptRdCr := if kept cleanI then old.interceptRdCr else v.interceptRdCr
    interceptWrCr := if kept cleanI then old.interceptWrCr else v.interceptWrCr
    interceptRdDr := if kept cleanI then old.interceptRdDr else v.interceptRdDr
    interceptWrDr := if kept cleanI then old.interceptWrDr else v.interceptWrDr
    interceptExceptions :=
      if kept cleanI then old.interceptExceptions else v.interceptExceptions
    interceptInstruction0 :=
      if kept cleanI then old.interceptInstruction0 else v.interceptInstruction0
    interceptInstruction1 :=
      if kept cleanI then old.interceptInstruction1 else v.interceptInstruction1
    pauseFilterThreshold :=
      if kept cleanI then old.pauseFilterThreshold else v.pauseFilterThreshold
    pauseFilterCount := if kept cleanI then old.pauseFilterCount else v.pauseFilterCount
    tscOffset := if kept cleanI then old.tscOffset else v.tscOffset
    iopmBasePa := if kept cleanIopm then old.iopmBasePa else v.iopmBasePa
    msrpmBasePa := if kept cleanIopm then old.msrpmBasePa else v.msrpmBasePa
    guestAsid := if kept cleanAsid then old.guestAsid else v.guestAsid
    intTprIrq := if kept cleanTpr then old.intTprIrq else v.intTprIrq
    intCtl := if kept cleanTpr then old.intCtl else v.intCtl
    intVector := if kept cleanTpr then old.intVector else v.intVector
    npEnable := if kept cleanNp then old.npEnable else v.npEnable
    nCr3 := if kept cleanNp then old.nCr3 else v.nCr3
    gPat := if kept cleanNp then old.gPat else v.gPat
    efer := if kept cleanCrx then old.efer else v.efer
    cr0 := if kept cleanCrx then old.cr0 else v.cr0
    cr3 := if kept cleanCrx then old.cr3 else v.cr3
    cr4 := if kept cleanCrx then old.cr4 else v.cr4
    dr6 := if kept cleanDrx then old.dr6 else v.dr6
    dr7 := if kept cleanDrx then old.dr7 else v.dr7
    lbrVirtualizationEnable :=
      if kept cleanLbr then old.lbrVirtualizationEnable else v.lbrVirtualizationEnable }

/-- The kernel's VMCB after the exit of a guest that ran with `hw`. A control register changes if
its writes are not intercepted; writes to EFER always are. -/
def Vmcb.exit (v hw : Vmcb G) (e : Exit G) : Vmcb G :=
  { v with
    cr0 := if hw.interceptWrCr.getLsbD 0 then hw.cr0 else e.cr0
    cr3 := if hw.interceptWrCr.getLsbD 3 then hw.cr3 else e.cr3
    cr4 := if hw.interceptWrCr.getLsbD 4 then hw.cr4 else e.cr4
    dr6 := e.dr6
    dr7 := e.dr7
    intTprIrq := e.intTprIrq
    interruptShadow := e.interruptShadow
    eventinj := e.eventinj
    guest := e.guest }

def doResumeVcpu : State G × Except ℤ (Vmcb G) :=
  if cfg.svmEnabled = false then (st, .error (-eInval))
  else if c.fpu = false then (st, .error (-eInval))
  else
    let clean := st.cleanBits c
    let v := st.takeOver c
    match reject cfg clean c.vm v with
    | some err => (⟨v, some c.addr, st.loaded⟩, .error err)
    | none =>
      let v := fill cfg clean c.vm v c.vmcb
      let hw := v.load st.loaded c.keep
      (⟨v.exit hw c.exit, some c.addr, hw⟩, .ok hw)

def step : State G := (doResumeVcpu cfg st c).1

def entry : Option (Vmcb G) :=
  (doResumeVcpu cfg st c).2.toOption

def Vm.Owns (vm : Vm) (root : Mword) : Prop := root = vm.physDir ∨ root = vm.nextLevel

def pagingCr : BitVec 16 := 0x19

structure Enforced (cfg : Config) (v : Vmcb G) : Prop where
  rdDr : Covers mandatoryDr v.interceptRdDr
  wrDr : Covers mandatoryDr v.interceptWrDr
  instruction0 : Covers mandatoryInstruction0 v.interceptInstruction0
  instruction1 : Covers mandatoryInstruction1 v.interceptInstruction1
  exceptions : Covers mandatoryExceptions v.interceptExceptions
  iopm : v.iopmBasePa = cfg.iopmBasePa
  msrpm : v.msrpmBasePa = cfg.msrpmBasePa

structure Shadowed (v : Vmcb G) : Prop where
  cr0 : Covers (cr0Pg ||| cr0Pe) v.cr0
  rdCr : Covers pagingCr v.interceptRdCr
  wrCr : Covers pagingCr v.interceptWrCr

structure Confined (cfg : Config) (vm : Vm) (v : Vmcb G) : Prop where
  nested : v.npEnabled → cfg.hasNpt = true ∧ v.nCr3 = vm.physDir
  shadow : ¬v.npEnabled → vm.Owns v.cr3 ∧ Shadowed v
  enforced : Enforced cfg v

def State.npEnable : Mword :=
  if (st.cleanBits c).getLsbD cleanNp then st.kernelVmcb.npEnable else c.vmcb.npEnable

def Guarded : Prop :=
  let clean := st.cleanBits c
  if (st.npEnable c).getLsbD 0 then clean.getLsbD cleanNp = true → cfg.hasNpt = true
  else
    (clean.getLsbD cleanI = true →
      Covers pagingCr st.kernelVmcb.interceptRdCr ∧
        Covers pagingCr st.kernelVmcb.interceptWrCr) ∧
    (clean.getLsbD cleanNp = true → clean.getLsbD cleanCrx = true →
      Covers (cr0Pg ||| cr0Pe) st.kernelVmcb.cr0)

end

variable {cfg : Config} {st : State G} {c : Call G} {clean vmCr3 : Mword} {vm : Vm} {v s : Vmcb G}

open Vmcb

theorem copyControlArea_npEnable : (copyControlArea v s).npEnable = v.npEnable := by
  simp only [copyControlArea, copyLbr, apply_ite npEnable, copyTpr, copyIntercepts, ite_self]

theorem copyControlArea_cr0 : (copyControlArea v s).cr0 = v.cr0 := by
  simp only [copyControlArea, copyLbr, apply_ite cr0, copyTpr, copyIntercepts, ite_self]

theorem copyControlArea_interceptCr (h : v.cleanBits.getLsbD cleanI = true) :
    (copyControlArea v s).interceptRdCr = v.interceptRdCr ∧
      (copyControlArea v s).interceptWrCr = v.interceptWrCr := by
  simp only [copyControlArea, copyLbr, apply_ite interceptRdCr, apply_ite interceptWrCr,
    copyTpr, copyIntercepts, if_pos h, ite_self, and_self]

theorem copyGroups_npEnable : (copyGroups clean v s).npEnable =
    if clean.getLsbD cleanNp then v.npEnable else s.npEnable := by
  simp only [copyGroups, copyDrx, copyEfer, copyNp, apply_ite npEnable, ite_self]

theorem copyGroups_cr0 : (copyGroups clean v s).cr0 = v.cr0 := by
  simp only [copyGroups, copyDrx, copyEfer, copyNp, apply_ite cr0, ite_self]

theorem copyGroups_interceptCr : (copyGroups clean v s).interceptRdCr = v.interceptRdCr ∧
    (copyGroups clean v s).interceptWrCr = v.interceptWrCr := by
  simp only [copyGroups, copyDrx, copyEfer, copyNp, apply_ite interceptRdCr,
    apply_ite interceptWrCr, ite_self, and_self]

theorem takeOver_npEnable : (st.takeOver c).npEnable = st.npEnable c := by
  rw [State.takeOver, copyGroups_npEnable, copyStateSaveArea, copyControlArea_npEnable]
  rfl

theorem takeOver_cr0 : (st.takeOver c).cr0 = st.kernelVmcb.cr0 := by
  rw [State.takeOver, copyGroups_cr0, copyStateSaveArea, copyControlArea_cr0]

theorem takeOver_interceptCr (h : (st.cleanBits c).getLsbD cleanI = true) :
    (st.takeOver c).interceptRdCr = st.kernelVmcb.interceptRdCr ∧
      (st.takeOver c).interceptWrCr = st.kernelVmcb.interceptWrCr := by
  rw [State.takeOver, copyGroups_interceptCr.1, copyGroups_interceptCr.2]
  exact copyControlArea_interceptCr (v := { st.kernelVmcb with cleanBits := st.cleanBits c }) h

theorem setPaging_npEnable : (setPaging cfg clean vmCr3 v s).npEnable = v.npEnable := by
  simp only [setPaging, setNested, setShadow, setInterceptCr, setCr, copyCr,
    apply_ite npEnable, ite_self]

theorem fill_npEnabled : (fill cfg clean vm v s).npEnabled ↔ v.npEnabled := by
  show (setPaging cfg clean _ (enforce cfg v s) s).npEnable.getLsbD 0 = true ↔ _
  rw [setPaging_npEnable]
  exact .rfl

theorem Enforced.congr {v' : Vmcb G} (h : Enforced cfg v)
    (hd : v'.interceptRdDr = v.interceptRdDr ∧ v'.interceptWrDr = v.interceptWrDr)
    (hi : v'.interceptInstruction0 = v.interceptInstruction0 ∧
      v'.interceptInstruction1 = v.interceptInstruction1)
    (he : v'.interceptExceptions = v.interceptExceptions)
    (hp : v'.iopmBasePa = v.iopmBasePa ∧ v'.msrpmBasePa = v.msrpmBasePa) : Enforced cfg v' :=
  ⟨hd.1 ▸ h.rdDr, hd.2 ▸ h.wrDr, hi.1 ▸ h.instruction0, hi.2 ▸ h.instruction1, he ▸ h.exceptions,
    hp.1.trans h.iopm, hp.2.trans h.msrpm⟩

theorem setPaging_enforced (h : Enforced cfg v) : Enforced cfg (setPaging cfg clean vmCr3 v s) := by
  have hcopy : Enforced cfg (copyCr clean v s) := by
    rw [copyCr]
    split_ifs
    · exact h
    · exact h.congr ⟨rfl, rfl⟩ ⟨rfl, rfl⟩ rfl ⟨rfl, rfl⟩
  have hset : Enforced cfg { setCr cfg clean v s with cr3 := vmCr3 } := by
    rw [setCr]
    split_ifs <;> exact h.congr ⟨rfl, rfl⟩ ⟨rfl, rfl⟩ rfl ⟨rfl, rfl⟩
  rw [setPaging]
  split_ifs
  · exact hcopy.congr ⟨rfl, rfl⟩ ⟨rfl, rfl⟩ rfl ⟨rfl, rfl⟩
  · rw [setShadow, setInterceptCr]
    split_ifs
    · exact hset
    · exact hset.congr ⟨rfl, rfl⟩ ⟨rfl, rfl⟩ rfl ⟨rfl, rfl⟩

theorem fill_enforced : Enforced cfg (fill cfg clean vm v s) := by
  have he : Enforced cfg (enforce cfg v s) :=
    ⟨covers_or _ _, covers_or _ _, covers_or _ _, covers_or _ _, covers_or _ _, rfl, rfl⟩
  have h : Enforced cfg (setPaging cfg clean (getVmCr3 cfg vm v) (enforce cfg v s) s) :=
    setPaging_enforced he
  exact h.congr ⟨rfl, rfl⟩ ⟨rfl, rfl⟩ rfl ⟨rfl, rfl⟩

theorem fill_nested (h : v.npEnabled) : (fill cfg clean vm v s).nCr3 = vm.physDir := by
  have hcr : getVmCr3 cfg vm v = vm.physDir := by
    rw [getVmCr3, if_pos h, ite_self]
  simp only [fill, setPaging]
  rw [if_pos (show (enforce cfg v s).npEnabled from h), hcr]
  rfl

theorem getVmCr3_owns (h : cfg.is64bit = true → getVmCr3 cfg vm v ≠ 0) :
    vm.Owns (getVmCr3 cfg vm v) := by
  rw [getVmCr3] at h ⊢
  split_ifs at h ⊢ with h64
  · exact .inl rfl
  · exact .inl rfl
  · exact .inl rfl
  · exact absurd rfl (h (by simpa using h64))
  · exact .inr rfl

variable (cfg clean vm s) in
theorem fill_shadow (h : ¬v.npEnabled) :
    (fill cfg clean vm v s).cr3 = getVmCr3 cfg vm v ∧
    (fill cfg clean vm v s).cr0 =
      (if clean.getLsbD cleanCrx = false ∨ clean.getLsbD cleanNp = false then
        s.cr0 ||| (cr0Pg ||| cr0Pe) else v.cr0) ∧
    (fill cfg clean vm v s).interceptRdCr =
      (if clean.getLsbD cleanI then v.interceptRdCr else 0xfff9) ∧
    (fill cfg clean vm v s).interceptWrCr =
      (if clean.getLsbD cleanI then v.interceptWrCr else 0xfff9) := by
  rw [fill, setPaging, if_neg (show ¬(enforce cfg v s).npEnabled from h), setShadow]
  simp only [setInterceptCr, setCr, apply_ite cr3, apply_ite cr0,
    apply_ite interceptRdCr, apply_ite interceptWrCr, ite_self]
  exact ⟨trivial, rfl, rfl, rfl⟩

theorem load_fill (old : Vmcb G) (keep : Mword) :
    (fill cfg clean vm v s).load old keep = fill cfg clean vm v s := by
  have h (b : ℕ) : ((fill cfg clean vm v s).cleanBits &&& keep).getLsbD b = false := by
    show ((0 : Mword) &&& keep).getLsbD b = false
    simp
  simp only [load, h, Bool.false_eq_true, if_false]

variable {hw : Vmcb G}

theorem entry_eq_some (h : entry cfg st c = some hw) :
    reject cfg (st.cleanBits c) c.vm (st.takeOver c) = none ∧
      hw = fill cfg (st.cleanBits c) c.vm (st.takeOver c) c.vmcb := by
  rw [entry, doResumeVcpu] at h
  split_ifs at h with h1 h2
  · cases h
  · cases h
  · cases hr : reject cfg (st.cleanBits c) c.vm (st.takeOver c) with
    | some err =>
      simp only [hr] at h
      cases h
    | none =>
      simp only [hr, load_fill] at h
      exact ⟨rfl, (Option.some.inj h).symm⟩

theorem reject_eq_none (h : reject cfg clean vm v = none) :
    (v.npEnabled → clean.getLsbD cleanNp = true ∨ cfg.hasNpt = true) ∧
      (cfg.is64bit = true → getVmCr3 cfg vm v ≠ 0) := by
  rw [reject] at h
  split_ifs at h with h1 h2
  refine ⟨fun hn => ?_, fun h64 h0 => h2 ⟨h64, h0⟩⟩
  by_contra hc
  rw [not_or, Bool.not_eq_true, Bool.not_eq_true] at hc
  exact h1 ⟨hc.1, hn, hc.2⟩

theorem covers_pagingCr : Covers pagingCr 0xfff9 := by decide

theorem nested_iff (hr : reject cfg clean vm v = none) (h : v.npEnabled) :
    Confined cfg vm (fill cfg clean vm v s) ↔ (clean.getLsbD cleanNp = true → cfg.hasNpt = true) := by
  have hn : (fill cfg clean vm v s).npEnabled := fill_npEnabled.mpr h
  constructor
  · intro hc _
    exact (hc.nested hn).1
  · intro hg
    refine ⟨fun _ => ⟨?_, fill_nested h⟩, fun hs => absurd hn hs, fill_enforced⟩
    exact ((reject_eq_none hr).1 h).elim hg id

theorem shadow_iff (hr : reject cfg clean vm v = none) (h : ¬v.npEnabled) :
    Confined cfg vm (fill cfg clean vm v s) ↔
      (clean.getLsbD cleanI = true →
        Covers pagingCr v.interceptRdCr ∧ Covers pagingCr v.interceptWrCr) ∧
      (clean.getLsbD cleanNp = true → clean.getLsbD cleanCrx = true →
        Covers (cr0Pg ||| cr0Pe) v.cr0) := by
  have hn : ¬(fill cfg clean vm v s).npEnabled := mt fill_npEnabled.mp h
  obtain ⟨hcr3, hcr0, hrd, hwr⟩ := fill_shadow cfg clean vm s h
  constructor
  · intro hc
    obtain ⟨-, hs⟩ := hc.shadow hn
    refine ⟨fun hi => ⟨?_, ?_⟩, fun hnp hcrx => ?_⟩
    · simpa only [hrd, hi, if_true] using hs.rdCr
    · simpa only [hwr, hi, if_true] using hs.wrCr
    · simpa only [hcr0, hnp, hcrx, Bool.true_eq_false, or_self, if_false] using hs.cr0
  · intro hg
    refine ⟨fun hc => absurd hc hn, fun _ => ⟨?_, ?_, ?_, ?_⟩, fill_enforced⟩
    · rw [hcr3]
      exact getVmCr3_owns (reject_eq_none hr).2
    · rw [hcr0]
      split_ifs with hcl
      · exact covers_or _ _
      · rw [not_or, Bool.not_eq_false, Bool.not_eq_false] at hcl
        exact hg.2 hcl.2 hcl.1
    · rw [hrd]
      split_ifs with hi
      · exact (hg.1 hi).1
      · exact covers_pagingCr
    · rw [hwr]
      split_ifs with hi
      · exact (hg.1 hi).2
      · exact covers_pagingCr

theorem confined_iff (h : entry cfg st c = some hw) : Confined cfg c.vm hw ↔ Guarded cfg st c := by
  obtain ⟨hr, rfl⟩ := entry_eq_some h
  have hnp : (st.takeOver c).npEnabled ↔ (st.npEnable c).getLsbD 0 = true := by
    rw [npEnabled, takeOver_npEnable]
  rw [Guarded]
  split_ifs with hn
  · exact nested_iff hr (hnp.mpr hn)
  · rw [shadow_iff hr (mt hnp.mp hn), takeOver_cr0]
    refine and_congr_left fun _ => forall_congr' fun hi => ?_
    rw [(takeOver_interceptCr hi).1, (takeOver_interceptCr hi).2]

section

variable (cfg : Config) (st : State G)

def Isolated (c : Call G) : Prop :=
  ∀ hw, entry cfg st c = some hw → Confined cfg c.vm hw

def Fit (c : Call G) : Prop :=
  entry cfg st c ≠ none → Guarded cfg st c

theorem guests_confined_iff (cs : List (Call G)) :
    Machine.Along (step cfg) (Isolated cfg) st cs ↔ Machine.Along (step cfg) (Fit cfg) st cs := by
  refine Machine.along_congr (I := fun _ => True) (fun _ _ _ _ => trivial) (fun st c _ => ?_) trivial
  cases he : entry cfg st c with
  | none =>
    exact iff_of_true (fun hw h => absurd (he.symm.trans h) (by simp)) fun h => absurd he h
  | some hw =>
    rw [Isolated, Fit]
    constructor
    · intro h _
      exact (confined_iff he).mp (h hw he)
    · intro h hw' he'
      exact (confined_iff he').mpr (h (by simp [he]))

def Coherent (c : Call G) : Prop :=
  entry cfg st c ≠ none ∧
    ((st.cleanBits c).getLsbD cleanI = true → (st.cleanBits c).getLsbD cleanNp = true)

def Kept : Prop :=
  st.lastUserVmcb ≠ none →
    (st.kernelVmcb.npEnabled → cfg.hasNpt = true) ∧ (¬st.kernelVmcb.npEnabled → Shadowed st.kernelVmcb)

end

theorem guarded_of_coherent (hk : Kept cfg st) (hc : Coherent cfg st c) : Guarded cfg st c := by
  by_cases hl : st.lastUserVmcb = some c.addr
  · have hk := hk (by simp [hl])
    have hnp : (st.cleanBits c).getLsbD cleanNp = true → st.npEnable c = st.kernelVmcb.npEnable :=
      fun h => if_pos h
    rw [Guarded]
    split_ifs with hn
    · intro h
      rw [hnp h] at hn
      exact hk.1 hn
    · refine ⟨fun hi => ?_, fun h _ => ?_⟩
      · rw [hnp (hc.2 hi)] at hn
        exact ⟨(hk.2 hn).rdCr, (hk.2 hn).wrCr⟩
      · rw [hnp h] at hn
        exact (hk.2 hn).cr0
  · have h0 (b : ℕ) : (st.cleanBits c).getLsbD b = false := by
      rw [State.cleanBits, if_neg hl]
      exact BitVec.getLsbD_zero
    rw [Guarded]
    simp only [h0]
    split_ifs <;> simp

theorem getLsbD_of_covers (h : Covers pagingCr s.interceptWrCr) :
    s.interceptWrCr.getLsbD 0 = true := by
  have := congrArg (fun x => x.getLsbD 0) h
  simpa [pagingCr] using this

theorem exit_kept (h : Confined cfg vm hw) (e : Exit G) (loaded : Vmcb G) (addr : Option ℕ) :
    Kept cfg ⟨hw.exit hw e, addr, loaded⟩ := by
  intro _
  refine ⟨fun hn => (h.nested hn).1, fun hn => ?_⟩
  have hs := (h.shadow hn).2
  refine ⟨?_, hs.rdCr, hs.wrCr⟩
  show Covers _ (if hw.interceptWrCr.getLsbD 0 then hw.cr0 else e.cr0)
  rw [if_pos (getLsbD_of_covers hs.wrCr)]
  exact hs.cr0

theorem step_of_entry (h : entry cfg st c = some hw) :
    step cfg st c = ⟨hw.exit hw c.exit, some c.addr, hw⟩ := by
  obtain ⟨hr, rfl⟩ := entry_eq_some h
  rw [entry, doResumeVcpu] at h
  rw [step, doResumeVcpu]
  split_ifs at h ⊢
  · cases h
  · cases h
  · simp only [hr, load_fill]

theorem step_kept (hk : Kept cfg st) (hc : Coherent cfg st c) : Kept cfg (step cfg st c) := by
  obtain ⟨hw, he⟩ := Option.ne_none_iff_exists'.mp hc.1
  rw [step_of_entry he]
  exact exit_kept ((confined_iff he).mpr (guarded_of_coherent hk hc)) _ _ _

theorem confined_of_coherent {cs : List (Call G)} (h0 : st.lastUserVmcb = none)
    (h : Machine.Along (step cfg) (Coherent cfg) st cs) :
    Machine.Along (step cfg) (Isolated cfg) st cs := by
  refine h.imp (fun _ _ => step_kept) (fun st c hk hc hw he => ?_) fun hn => absurd h0 hn
  exact (confined_iff he).mpr (guarded_of_coherent hk hc)

def bare (npEnable cleanBits : Mword) : Vmcb Unit :=
  ⟨0, 0, 0, 0, 0, 0, 0, 0, 0, 0, 0, 0, 0, 0, 0, 0, 0, 0, npEnable, 0, 0, 0, cleanBits,
    eferSvme ||| eferLme, 0, 0, cr0Pg ||| cr0Pe, 0, 0, 0, 0, ()⟩

def boot : State Unit := ⟨bare 0 0, none, bare 0 0⟩

def enter (npEnable cleanBits : Mword) : Call Unit :=
  ⟨0x7000, bare npEnable cleanBits, ⟨0x4000, 0x5000⟩, true, 0,
    ⟨cr0Pg ||| cr0Pe, 0x6000, 0, 0, 0, 0, 0, 0, ()⟩⟩

def host : Config := ⟨true, true, true, 0x1000, 0x2000, 0⟩

theorem confined_clean : Machine.Along (step host) (Isolated host) boot
    [enter 0 0, enter 0 0x31, enter 1 0x20, enter 1 0x11] :=
  confined_of_coherent rfl ⟨⟨by decide, by decide⟩, ⟨by decide, by decide⟩, ⟨by decide, by decide⟩,
    ⟨by decide, by decide⟩, trivial⟩

/-- A guest with nested paging runs without intercepts for its control registers. Then nested
paging is switched off, with the intercepts marked clean. The second guest runs on the shadow page
table and can load CR3. -/
theorem guest_loads_cr3 :
    (entry host (Machine.run (step host) boot [enter 1 0]) (enter 0 1)).map
      (fun v => (v.npEnable, v.cr3, v.interceptWrCr)) = some (0, 0x4000, 0) ∧
    ¬Covers pagingCr (0 : BitVec 16) := by
  decide

end Fiasco.Ia32.Svm
