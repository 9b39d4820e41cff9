import Fiasco.Lib.Machine

/-!
# The local descriptor table of a task

`Task::invoke_arch` with the opcode `Ldt_set_x86` copies descriptors from the UTCB to the task's
LDT, which is one page that the first call allocates. The entry number is an `unsigned` that the
caller chooses, and the size of the table is computed in `unsigned` arithmetic, modulo `2 ^ 32`; the
address of the first descriptor is computed by pointer arithmetic, modulo `2 ^ bits`.
-/
namespace Fiasco.Ia32

open List Nat Function

inductive Arch where
  | ia32
  | amd64
deriving DecidableEq, Repr

namespace Arch

def mword : Arch → ℕ
  | .ia32 => 4
  | .amd64 => 8

def bits (a : Arch) : ℕ := 8 * a.mword

end Arch

namespace Ldt

def pageSize : ℕ := 4096

def entrySize : ℕ := 8

def opLdtSet : ℕ := 0x11

def eInval : ℤ := 22

def present (desc : ℕ) : Bool := desc / 2 ^ 47 % 2 = 1

def dpl (desc : ℕ) : ℕ := desc / 2 ^ 45 % 4

def system (desc : ℕ) : Bool := desc / 2 ^ 44 % 2 = 0

def isUnsafe (desc : ℕ) : Bool := present desc && (dpl desc != 3 || system desc)

structure Page (arch : Arch) where
  addr : ℕ
  pos : 0 < addr
  fits : addr + pageSize ≤ 2 ^ arch.bits

structure State where
  addr : ℕ
  size : ℕ
  mem : ℕ → ℕ
  /-- Address and size of the LDT the CPU has loaded for this task. -/
  loaded : ℕ × ℕ

structure Call (arch : Arch) where
  tag : ℕ
  values : ℕ → ℕ
  /-- What the allocator answers, if it is asked. -/
  page : Option (Page arch)
  current : Bool

variable {arch : Arch}

namespace Call

section

variable (c : Call arch)

def words : ℕ := c.tag % 64

def entryNumber : ℕ := c.values 1 % 2 ^ 32

def size : ℕ := (c.words - 2) * arch.mword

def desc (i : ℕ) : ℕ :=
  match arch with
  | .ia32 => c.values (2 + 2 * i) % 2 ^ 32 + 2 ^ 32 * (c.values (3 + 2 * i) % 2 ^ 32)
  | .amd64 => c.values (2 + i) % 2 ^ 64

def descs : List ℕ := (range (c.size / entrySize)).map c.desc

def tagOk : Bool := !(c.words < 3 || c.words % (entrySize / arch.mword) != 0)

def ldtSize : ℕ := (c.entryNumber * entrySize + c.size) % 2 ^ 32

end

end Call

/-- What a call does: the state, the addresses written to, and the result; no result if the
call is not for this function. -/
structure Effect where
  state : State
  writes : List ℕ
  result : Option ℤ

def alloc (s : State) (page : Option (Page arch)) : State × List ℕ :=
  let addr := match page with
    | some p => p.addr
    | none => 0
  ({ s with
      addr := addr
      mem := fun a => if addr ≤ a ∧ a < addr + pageSize then 0 else s.mem a },
    (range (pageSize / entrySize)).map fun i => addr + entrySize * i)

def copy (arch : Arch) : ℕ → List ℕ → (ℕ → ℕ) → (ℕ → ℕ) × List ℕ × Bool
  | _, [], mem => (mem, [], true)
  | ldtp, desc :: descs, mem =>
    if isUnsafe desc then (mem, [], false)
    else
      let r := copy arch ((ldtp + entrySize) % 2 ^ arch.bits) descs (update mem ldtp desc)
      (r.1, ldtp :: r.2.1, r.2.2)

def setDescs (s : State) (c : Call arch) : Effect :=
  if pageSize < c.ldtSize then ⟨s, [], some (-eInval)⟩
  else
    let s := { s with size := c.ldtSize }
    let r := copy arch ((s.addr + c.entryNumber * entrySize) % 2 ^ arch.bits) c.descs s.mem
    let s := { s with mem := r.1 }
    if r.2.2 = false then ⟨s, r.2.1, some (-eInval)⟩
    else
      let s := if c.current then { s with loaded := (s.addr, s.size) } else s
      ⟨s, r.2.1, some 0⟩

def invokeArch (s : State) (c : Call arch) : Effect :=
  if c.values 0 ≠ opLdtSet then ⟨s, [], none⟩
  else if c.tagOk = false then ⟨s, [], some (-eInval)⟩
  else
    let (s, cleared) := if s.addr = 0 then alloc s c.page else (s, [])
    let e := setDescs s c
    ⟨e.state, cleared ++ e.writes, e.result⟩

inductive Op (arch : Arch) where
  | invoke (c : Call arch)
  | switchIn

def effect (s : State) : Op arch → Effect
  | .invoke c => invokeArch s c
  | .switchIn => ⟨{ s with loaded := (s.addr, s.size) }, [], none⟩

def step (s : State) (op : Op arch) : State := (effect s op).state

def fresh (mem : ℕ → ℕ) : State := ⟨0, 0, mem, (0, 0)⟩

/-- A call has written to the page of the LDT only, and the LDT holds no descriptor of the
kernel, neither as the task has it nor as the CPU has loaded it. -/
structure Confined (e : Effect) : Prop where
  writes : ∀ a ∈ e.writes, e.state.addr ≠ 0 ∧ e.state.addr ≤ a ∧ a < e.state.addr + pageSize
  limit : e.state.size ≤ pageSize
  descs : ∀ i, entrySize * (i + 1) ≤ e.state.size →
    isUnsafe (e.state.mem (e.state.addr + entrySize * i)) = false
  loadedLimit : e.state.loaded.2 ≤ pageSize
  loadedDescs : ∀ i, entrySize * (i + 1) ≤ e.state.loaded.2 →
    isUnsafe (e.state.mem (e.state.loaded.1 + entrySize * i)) = false

def Call.offset (c : Call arch) : ℕ := c.entryNumber * entrySize % 2 ^ arch.bits

/-- The end of the descriptors is moved to the start of the page by the overflow of an
`unsigned`, and the first descriptor is a good one. -/
def Call.Overflows (c : Call arch) : Prop :=
  2 ^ 32 ≤ c.offset + c.size ∧ c.ldtSize ≤ pageSize ∧ isUnsafe (c.desc 0) = false

def Sound (s : State) : Op arch → Prop
  | .invoke c => c.values 0 = opLdtSet → c.tagOk = true →
      (s.addr ≠ 0 ∨ c.page.isSome = true) ∧ ¬ c.Overflows
  | .switchIn => True

structure Inv (arch : Arch) (s : State) : Prop where
  fits : s.addr + pageSize ≤ 2 ^ arch.bits
  limit : s.size ≤ pageSize
  none : s.addr = 0 → s.size = 0
  descs : s.addr ≠ 0 → ∀ i, entrySize * (i + 1) ≤ pageSize →
    isUnsafe (s.mem (s.addr + entrySize * i)) = false
  loadedLimit : s.loaded.2 ≤ pageSize
  loaded : s.loaded.2 ≠ 0 → s.loaded.1 = s.addr ∧ s.addr ≠ 0

variable {s : State} {ldtp : ℕ} {descs : List ℕ} {mem : ℕ → ℕ} {desc : ℕ}

theorem Inv.confined (h : Inv arch s) {writes : List ℕ} {result : Option ℤ}
    (hw : ∀ a ∈ writes, s.addr ≠ 0 ∧ s.addr ≤ a ∧ a < s.addr + pageSize) :
    Confined ⟨s, writes, result⟩ where
  writes := hw
  limit := h.limit
  descs i hi := by
    have hs : s.addr ≠ 0 := by
      intro h₀
      have := h.none h₀
      simp only [entrySize] at hi
      omega
    exact h.descs hs i (hi.trans h.limit)
  loadedLimit := h.loadedLimit
  loadedDescs i hi := by
    have hl : s.loaded.2 ≠ 0 := by
      intro h₀
      simp only [entrySize] at hi
      omega
    obtain ⟨he, hs⟩ := h.loaded hl
    simp only [he]
    exact h.descs hs i (hi.trans h.loadedLimit)

theorem fresh_inv (mem : ℕ → ℕ) : Inv arch (fresh mem) where
  fits := by
    have h : 0 + pageSize ≤ 2 ^ arch.bits := by cases arch <;> decide
    exact h
  limit := zero_le _
  none _ := rfl
  descs h := absurd rfl h
  loadedLimit := zero_le _
  loaded h := absurd rfl h

theorem isUnsafe_zero : isUnsafe 0 = false := by decide

theorem alloc_inv (h : Inv arch s) (hs : s.addr = 0) (p : Page arch) :
    Inv arch (alloc s (some p)).1 where
  fits := p.fits
  limit := h.limit
  none hp := absurd hp (ne_of_gt p.pos)
  descs _ i hi := by
    have hin : p.addr ≤ p.addr + entrySize * i ∧ p.addr + entrySize * i < p.addr + pageSize := by
      simp only [entrySize, pageSize] at hi ⊢
      omega
    simp only [alloc, hin, and_self, if_true]
    exact isUnsafe_zero
  loadedLimit := h.loadedLimit
  loaded hl := absurd hs (h.loaded hl).2

theorem alloc_writes {page : Option (Page arch)} {a : ℕ} (ha : a ∈ (alloc s page).2) :
    (alloc s page).1.addr ≤ a ∧
      a < (alloc s page).1.addr + pageSize := by
  simp only [alloc, mem_map, mem_range] at ha ⊢
  obtain ⟨i, hi, rfl⟩ := ha
  simp only [pageSize, entrySize] at hi ⊢
  omega

theorem alloc_start (s : State) (page : Option (Page arch)) :
    (alloc s page).1.addr ∈ (alloc s page).2 := by
  simp only [alloc, mem_map, mem_range]
  exact ⟨0, by decide, by rw [mul_zero, add_zero]⟩

theorem copy_mod (h : ldtp + entrySize * descs.length ≤ 2 ^ arch.bits) :
    copy arch (ldtp % 2 ^ arch.bits) descs mem = copy arch ldtp descs mem := by
  cases descs with
  | nil => rfl
  | cons desc descs =>
    rw [mod_eq_of_lt]
    simp only [entrySize, length_cons] at h
    omega

theorem copy_spec (h : ldtp + entrySize * descs.length ≤ 2 ^ arch.bits) :
    (∀ a ∈ (copy arch ldtp descs mem).2.1, ldtp ≤ a ∧ a < ldtp + entrySize * descs.length) ∧
      ∀ a, (copy arch ldtp descs mem).1 a = mem a ∨
        isUnsafe ((copy arch ldtp descs mem).1 a) = false := by
  induction descs generalizing ldtp mem with
  | nil => exact ⟨fun a ha => (by cases ha), fun a => .inl rfl⟩
  | cons desc descs ih =>
    rw [copy]
    split
    · exact ⟨fun a ha => (by cases ha), fun a => .inl rfl⟩
    · next hsafe =>
      have hnext : ldtp + entrySize + entrySize * descs.length ≤ 2 ^ arch.bits := by
        simp only [entrySize, length_cons] at h ⊢
        omega
      rw [copy_mod hnext]
      obtain ⟨hw, hm⟩ := @ih (ldtp + entrySize) (update mem ldtp desc) hnext
      refine ⟨fun a ha => ?_, fun a => ?_⟩
      · simp only [entrySize, length_cons] at hw ⊢
        rcases mem_cons.mp ha with rfl | ha
        · omega
        · have := hw a ha
          omega
      · rcases hm a with he | he
        · by_cases hal : a = ldtp
          · rw [hal, update_self] at he
            rw [hal, he]
            exact .inr (by simpa using hsafe)
          · rw [update_of_ne hal] at he
            exact .inl he
        · exact .inr he

theorem copy_head (hd : isUnsafe desc = false) :
    ldtp ∈ (copy arch ldtp (desc :: descs) mem).2.1 := by
  rw [copy, if_neg (by simp [hd])]
  exact mem_cons_self

theorem copy_unsafe (hd : isUnsafe desc = true) :
    copy arch ldtp (desc :: descs) mem = (mem, [], false) := by
  rw [copy, if_pos hd]

namespace Call

variable {c : Call arch}

theorem size_bounds (h : c.tagOk = true) : entrySize ≤ c.size ∧ c.size ≤ 488 := by
  have hw : c.words < 64 := mod_lt _ (by decide)
  cases arch with
  | ia32 =>
    have h' : ¬ (c.words < 3) ∧ c.words % 2 = 0 := by
      simpa [tagOk, entrySize, Arch.mword] using h
    simp only [size, entrySize, Arch.mword]
    omega
  | amd64 =>
    have h' : ¬ (c.words < 3) := by
      have := h
      simp [tagOk, entrySize, Arch.mword, mod_one] at this
      omega
    simp only [size, entrySize, Arch.mword]
    omega

theorem descs_cons (h : c.tagOk = true) : ∃ rest, c.descs = c.desc 0 :: rest := by
  have hb := (size_bounds h).1
  have hn : c.size / entrySize = (c.size / entrySize - 1) + 1 := by
    simp only [entrySize] at hb ⊢
    omega
  rw [descs, hn, range_succ_eq_map]
  exact ⟨_, rfl⟩

theorem descs_length : entrySize * c.descs.length ≤ c.size := by
  rw [descs, length_map, length_range]
  exact mul_div_le _ _

theorem ldtSize_eq (h : c.offset + c.size < 2 ^ 32) : c.ldtSize = c.offset + c.size := by
  have he : c.entryNumber < 2 ^ 32 := Nat.mod_lt _ (Nat.two_pow_pos 32)
  cases arch with
  | ia32 =>
    simp only [offset, ldtSize, Arch.bits, Arch.mword] at h ⊢
    rw [← mod_add_mod, mod_eq_of_lt h]
  | amd64 =>
    have ho : c.offset = c.entryNumber * entrySize := by
      refine mod_eq_of_lt ?_
      simp only [entrySize, Arch.bits, Arch.mword]
      omega
    rw [ho] at h ⊢
    exact mod_eq_of_lt h

theorem first_eq (addr : ℕ) : (addr + c.entryNumber * entrySize) % 2 ^ arch.bits =
    (addr + c.offset) % 2 ^ arch.bits := by
  rw [offset, add_mod_mod]

end Call

theorem setDescs_addr (s : State) (c : Call arch) : (setDescs s c).state.addr = s.addr := by
  unfold setDescs
  split
  · rfl
  · dsimp only
    split
    · rfl
    · split <;> rfl

variable {c : Call arch} {op : Op arch}

theorem copy_inv (h : Inv arch s) (ht : c.tagOk = true) (hc : c.ldtSize ≤ pageSize)
    (hno : ¬ c.Overflows) :
    let r := copy arch ((s.addr + c.entryNumber * entrySize) % 2 ^ arch.bits) c.descs s.mem
    (∀ a ∈ r.2.1, s.addr ≤ a ∧ a < s.addr + pageSize) ∧
      ∀ a, r.1 a = s.mem a ∨ isUnsafe (r.1 a) = false := by
  intro r
  have hlen := c.descs_length
  by_cases hfirst : isUnsafe (c.desc 0) = true
  · obtain ⟨rest, hrest⟩ := Call.descs_cons ht
    have hr : r = (s.mem, [], false) := by
      simp only [r, hrest]
      exact copy_unsafe hfirst
    rw [hr]
    exact ⟨fun a ha => (by cases ha), fun a => .inl rfl⟩
  · have hlt : c.offset + c.size < 2 ^ 32 := by
      by_contra hge
      exact hno ⟨not_lt.mp hge, hc, by simpa using hfirst⟩
    rw [Call.ldtSize_eq hlt] at hc
    have hfits := h.fits
    have hend : s.addr + c.offset + entrySize * c.descs.length ≤ 2 ^ arch.bits := by omega
    have hr : r = copy arch (s.addr + c.offset) c.descs s.mem := by
      simp only [r, Call.first_eq]
      exact copy_mod hend
    obtain ⟨hw, hm⟩ := @copy_spec arch _ _ s.mem hend
    rw [hr]
    refine ⟨fun a ha => ?_, hm⟩
    have := hw a ha
    omega

theorem setDescs_inv (h : Inv arch s) (hs : s.addr ≠ 0) (ht : c.tagOk = true) (hno : ¬ c.Overflows)
    : Inv arch (setDescs s c).state ∧
      ∀ a ∈ (setDescs s c).writes, s.addr ≤ a ∧ a < s.addr + pageSize := by
  unfold setDescs
  split
  · exact ⟨h, fun a ha => (by cases ha)⟩
  · next hc =>
    have hc : c.ldtSize ≤ pageSize := not_lt.mp hc
    obtain ⟨hw, hm⟩ := copy_inv h ht hc hno
    have hdescs : ∀ i, entrySize * (i + 1) ≤ pageSize → isUnsafe ((copy arch ((s.addr +
        c.entryNumber * entrySize) % 2 ^ arch.bits) c.descs s.mem).1 (s.addr + entrySize * i)) =
          false := by
      intro i hi
      rcases hm (s.addr + entrySize * i) with he | he
      · rw [he]
        exact h.descs hs i hi
      · exact he
    dsimp only
    split
    · exact ⟨⟨h.fits, hc, fun h₀ => absurd h₀ hs, fun _ => hdescs, h.loadedLimit, h.loaded⟩, hw⟩
    · refine ⟨?_, hw⟩
      split
      · exact ⟨h.fits, hc, fun h₀ => absurd h₀ hs, fun _ => hdescs, hc, fun _ => ⟨rfl, hs⟩⟩
      · exact ⟨h.fits, hc, fun h₀ => absurd h₀ hs, fun _ => hdescs, h.loadedLimit, h.loaded⟩

theorem setDescs_overflows (hfits : s.addr + pageSize ≤ 2 ^ arch.bits) (ht : c.tagOk = true)
    (ho : c.Overflows) : ∃ a ∈ (setDescs s c).writes, ¬ (s.addr ≤ a ∧ a < s.addr + pageSize) := by
  obtain ⟨hge, hc, hfirst⟩ := ho
  obtain ⟨rest, hrest⟩ := Call.descs_cons ht
  refine ⟨(s.addr + c.entryNumber * entrySize) % 2 ^ arch.bits, ?_, ?_⟩
  · have hmem := @copy_head arch ((s.addr + c.entryNumber * entrySize) % 2 ^ arch.bits) rest s.mem
      _ hfirst
    rw [← hrest] at hmem
    unfold setDescs
    rw [if_neg (not_lt.mpr hc)]
    dsimp only
    split <;> exact hmem
  · have hsize := (Call.size_bounds ht).2
    have hoff : c.offset < 2 ^ arch.bits := Nat.mod_lt _ (Nat.two_pow_pos _)
    rw [Call.first_eq]
    simp only [pageSize] at hfits ⊢
    by_cases hlt : s.addr + c.offset < 2 ^ arch.bits
    · rw [mod_eq_of_lt hlt]
      omega
    · have hsub : (s.addr + c.offset) % 2 ^ arch.bits = s.addr + c.offset - 2 ^ arch.bits := by
        rw [mod_eq_sub_mod (not_lt.mp hlt), mod_eq_of_lt (by omega)]
      rw [hsub]
      omega

theorem invokeArch_eq (h₀ : c.values 0 = opLdtSet) (ht : c.tagOk = true) : invokeArch s c =
      let a := if s.addr = 0 then alloc s c.page else (s, [])
      ⟨(setDescs a.1 c).state, a.2 ++ (setDescs a.1 c).writes, (setDescs a.1 c).result⟩ := by
  rw [invokeArch, if_neg (not_not.mpr h₀), if_neg (by rw [ht]; decide)]

theorem invoke_other (h : ¬ (c.values 0 = opLdtSet ∧ c.tagOk = true)) :
    ∃ result, invokeArch s c = ⟨s, [], result⟩ := by
  unfold invokeArch
  split
  · exact ⟨_, rfl⟩
  · next h₀ =>
    have ht : c.tagOk = false := by
      by_contra ht
      exact h ⟨not_not.mp h₀, by simpa using ht⟩
    rw [if_pos ht]
    exact ⟨_, rfl⟩

theorem effect_sound (h : Inv arch s) (hop : Sound s op) :
    Inv arch (step s op) ∧ Confined (effect s op) := by
  cases op with
  | switchIn =>
    have h' : Inv arch (step s (.switchIn : Op arch)) :=
      ⟨h.fits, h.limit, h.none, h.descs, h.limit, fun hl => ⟨rfl, fun h₀ => hl (h.none h₀)⟩⟩
    exact ⟨h', h'.confined fun a ha => (by cases ha)⟩
  | invoke c =>
    by_cases hfor : c.values 0 = opLdtSet ∧ c.tagOk = true
    · obtain ⟨hpage, hno⟩ := hop hfor.1 hfor.2
      simp only [step, effect, invokeArch_eq hfor.1 hfor.2]
      -- the state behind the allocation
      obtain ⟨a, ha, hinv, haddr, hcl⟩ : ∃ a, (if s.addr = 0 then alloc s c.page else (s, [])) = a ∧
          Inv arch a.1 ∧ a.1.addr ≠ 0 ∧ ∀ x ∈ a.2, a.1.addr ≤ x ∧ x < a.1.addr + pageSize := by
        refine ⟨_, rfl, ?_⟩
        by_cases hs : s.addr = 0
        · obtain ⟨p, hp⟩ := Option.isSome_iff_exists.mp (hpage.resolve_left (not_not.mpr hs))
          rw [if_pos hs, hp]
          exact ⟨alloc_inv h hs p, ne_of_gt p.pos, fun x hx => alloc_writes hx⟩
        · rw [if_neg hs]
          exact ⟨h, hs, fun x hx => (by cases hx)⟩
      rw [ha]
      obtain ⟨hinv', hw⟩ := setDescs_inv hinv haddr hfor.2 hno
      refine ⟨hinv', hinv'.confined fun x hx => ?_⟩
      rw [setDescs_addr]
      rcases mem_append.mp hx with hx | hx
      · exact ⟨haddr, hcl x hx⟩
      · exact ⟨haddr, hw x hx⟩
    · obtain ⟨result, he⟩ := invoke_other (s := s) hfor
      simp only [step, effect, he]
      exact ⟨h, h.confined fun a ha => (by cases ha)⟩

theorem sound_of_confined (h : Inv arch s) (hc : Confined (effect s op)) : Sound s op := by
  cases op with
  | switchIn => trivial
  | invoke c =>
    intro h₀ ht
    have hw := hc.writes
    simp only [effect, invokeArch_eq h₀ ht, setDescs_addr] at hw
    have hpage : s.addr ≠ 0 ∨ c.page.isSome = true := by
      by_contra hno
      obtain ⟨hs, hp⟩ := not_or.mp hno
      have hs : s.addr = 0 := not_not.mp hs
      have hp : c.page = none := by simpa using hp
      rw [if_pos hs, hp] at hw
      -- the null page is cleared
      exact (hw _ (mem_append_left _ (alloc_start s none))).1 rfl
    refine ⟨hpage, fun ho => ?_⟩
    have hfits : (if s.addr = 0 then alloc s c.page else (s, [])).1.addr + pageSize ≤
        2 ^ arch.bits := by
      split
      · cases c.page with
        | none => exact (@fresh_inv arch s.mem).fits
        | some p => exact p.fits
      · exact h.fits
    obtain ⟨a, ha, hout⟩ := setDescs_overflows hfits ht ho
    exact hout (hw a (mem_append_right _ ha)).2

theorem ldt_confined_iff (arch : Arch) (mem : ℕ → ℕ) (ops : List (Op arch)) :
    Machine.Along step (fun s op => Confined (effect s op)) (fresh mem) ops ↔
      Machine.Along step Sound (fresh mem) ops :=
  Machine.along_congr (I := Inv arch)
    (fun _ _ h hc => (effect_sound h (sound_of_confined h hc)).1)
    (fun _ _ h => ⟨sound_of_confined h, fun hop => (effect_sound h hop).2⟩) (fresh_inv mem)

def farEntry (page : Option (Page .amd64)) : Call .amd64 where
  tag := 3
  values i := if i = 0 then opLdtSet else if i = 1 then 2 ^ 29 else 0x00cffa000000ffff
  page := page
  current := true

def lowPage : Page .amd64 := ⟨0x1000, by decide, by decide⟩

def farEffect (page : Option (Page .amd64)) : Effect :=
  effect (fresh fun _ => 0) (.invoke (farEntry page))

/-- The descriptor is written 4 GiB behind the page, and the call succeeds; without a page the
null page is cleared and used. -/
theorem ldt_writes_outside :
    ((farEffect (some lowPage)).result = some 0 ∧ (farEffect (some lowPage)).state.addr = 0x1000 ∧
      0x100001000 ∈ (farEffect (some lowPage)).writes) ∧
    (farEffect none).result = some 0 ∧ (farEffect none).state.addr = 0 ∧
      0 ∈ (farEffect none).writes := by
  decide +kernel

end Ldt

end Fiasco.Ia32
