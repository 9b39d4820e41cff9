import Fiasco.Lib.Machine

/-!
# The flexible interrupt manager

`Irq_mgr_flex` gives each interrupt chip a range of global interrupt numbers. `add_chip` is meant to
keep its array of chips sorted, and `chip` takes the first one that ends behind the number it looks
for.
-/
namespace Fiasco.IrqMgrFlex

open List Machine Function

variable {C : Type}

structure Config (C : Type) where
  maxChips : ℕ
  nrIrqs : C → ℕ
  w : ℕ
  wide : 16 ≤ w

structure Chip (C : Type) where
  start : ℕ
  stop : ℕ
  chip : C
deriving DecidableEq

/-- `chips` is the memory from the beginning of the array on, as far as it may be. -/
structure Manager (C : Type) where
  used : ℕ
  maxIrq : ℕ
  chips : ℕ → Chip C

structure Call (C : Type) where
  pos : ℤ
  chip : C
  pins : ℤ

inductive Error
  | tooManyChips
  | zeroPins
  | irqsInUse
deriving DecidableEq

def Call.count (c : Config C) (a : Call C) : ℕ := if 0 ≤ a.pins then a.pins.toNat else c.nrIrqs a.chip

namespace Manager

def boot (chips : ℕ → Chip C) : Manager C := ⟨0, 0, chips⟩

def base (m : Manager C) (a : Call C) : ℕ := if a.pos < 0 then m.maxIrq else a.pos.toNat

def findSpot (chips : ℕ → Chip C) (pos n : ℕ) : List ℕ → ℕ → Option ℕ
  | [], spot => some spot
  | x :: xs, _ =>
    if (chips x).stop ≤ pos then findSpot chips pos n xs x
    else if (chips x).start ≤ pos + n then none
    else findSpot chips pos n xs x

def shift (spot : ℕ) : ℕ → (ℕ → Chip C) → ℕ → Chip C
  | 0, chips => if spot = 0 then update chips 1 (chips 0) else chips
  | x + 1, chips =>
    if spot ≤ x + 1 then shift spot x (update chips (x + 2) (chips (x + 1))) else chips

/-- The ends of a range are of type `unsigned short`. -/
def entry (pos n : ℕ) (chip : C) : Chip C := ⟨pos % 2 ^ 16, (pos + n) % 2 ^ 16, chip⟩

def addChip (c : Config C) (m : Manager C) (a : Call C) : Manager C × Option Error :=
  let n := a.count c
  let pos := m.base a
  if c.maxChips ≤ m.used then (m, some .tooManyChips)
  else if n = 0 then (m, some .zeroPins)
  else if m.maxIrq ≤ pos then
    (⟨m.used + 1, (pos + n) % 2 ^ 32, update m.chips m.used (entry pos n a.chip)⟩, none)
  else
    match findSpot m.chips pos n (range m.used) 0 with
    | none => (m, some .irqsInUse)
    | some spot =>
      (⟨m.used + 1, if m.maxIrq < pos + n then pos + n else m.maxIrq,
        update (shift spot m.used m.chips) spot (entry pos n a.chip)⟩, none)

def lookup (c : Config C) (m : Manager C) (irqnum : ℕ) : Option (C × ℕ) :=
  ((range m.used).find? fun i => irqnum < (m.chips i).stop).map fun i =>
    ((m.chips i).chip, (irqnum + 2 ^ c.w - (m.chips i).start) % 2 ^ c.w)

def registered (m : Manager C) : List (Chip C) := (range m.used).map m.chips

end Manager

open Manager

section

variable (c : Config C) (m : Manager C) (a : Call C)

def step : Manager C := (m.addChip c a).1

def Overlaps : Prop :=
  ∃ i < m.used, m.base a < (m.chips i).stop ∧ (m.chips i).start < m.base a + a.count c

structure Right (c : Config C) (m : Manager C) (a : Call C) : Prop where
  sorted : ∀ i j, i < j → j < (step c m a).used → ((step c m a).chips i).stop ≤ ((step c m a).chips j).start
  kept : (step c m a).registered.Perm (match (m.addChip c a).2 with
    | none => ⟨m.base a, m.base a + a.count c, a.chip⟩ :: m.registered
    | some _ => m.registered)
  inside : ∀ i, c.maxChips ≤ i → (step c m a).chips i = m.chips i
  fails : (m.addChip c a).2 ≠ none ↔ c.maxChips ≤ m.used ∨ a.count c = 0 ∨ Overlaps c m a
  lookup : ∀ k < 2 ^ c.w, ∀ d p, (step c m a).lookup c k = some (d, p) ↔ ∃ i < (step c m a).used,
    ((step c m a).chips i).start ≤ k ∧ k < ((step c m a).chips i).stop ∧
      ((step c m a).chips i).chip = d ∧ p = k - ((step c m a).chips i).start

def Fits : Prop := m.base a + a.count c < 2 ^ 16
deriving Decidable

def NoGap : Prop :=
  c.maxChips ≤ m.used ∨ a.count c = 0 ∨ m.base a ≤ m.maxIrq
deriving Decidable

end

section Dense

variable {c : Config C} {m : Manager C} {a : Call C} {i : ℕ} {pos n : ℕ} {d : C} {k : ℕ}

def edge (m : Manager C) : ℕ → ℕ
  | 0 => 0
  | i + 1 => (m.chips i).stop

structure Dense (c : Config C) (m : Manager C) : Prop where
  fits : m.used ≤ c.maxChips
  start : ∀ i < m.used, (m.chips i).start = edge m i
  stop : ∀ i < m.used, edge m i < (m.chips i).stop
  maxIrq : m.maxIrq = edge m m.used
  small : m.maxIrq < 2 ^ 16

section

variable (h : Dense c m)
include h

theorem Dense.edge_mono {j : ℕ} (hij : i ≤ j) (hj : j ≤ m.used) : edge m i ≤ edge m j := by
  induction j with
  | zero => rw [Nat.le_zero.mp hij]
  | succ j ih =>
    rcases lt_or_eq_of_le hij with hlt | rfl
    · exact (ih (Nat.le_of_lt_succ hlt) (by omega)).trans (h.stop j hj).le
    · exact le_rfl

theorem Dense.sorted {j : ℕ} (hij : i < j) (hj : j < m.used) :
    (m.chips i).stop ≤ (m.chips j).start := by
  rw [h.start j hj]
  exact h.edge_mono (i := i + 1) hij hj.le

theorem Dense.exists_mem (hk : k < m.maxIrq) :
    ∃ i < m.used, (m.chips i).start ≤ k ∧ k < (m.chips i).stop := by
  rw [h.maxIrq] at hk
  have hall : ∀ j ≤ m.used, k < edge m j → ∃ i < m.used, (m.chips i).start ≤ k ∧ k < (m.chips i).stop := by
    intro j
    induction j with
    | zero => exact fun _ hlt => absurd hlt (Nat.not_lt_zero k)
    | succ j ih =>
      intro hj hlt
      by_cases hkj : k < edge m j
      · exact ih (by omega) hkj
      · exact ⟨j, hj, by rw [h.start j hj]; omega, hlt⟩
  exact hall m.used le_rfl hk

theorem Dense.find_iff :
    (range m.used).find? (fun i => k < (m.chips i).stop) = some i ↔
      i < m.used ∧ (m.chips i).start ≤ k ∧ k < (m.chips i).stop := by
  rw [find?_range_eq_some]
  simp only [decide_eq_true_eq, mem_range, Bool.not_eq_true', decide_eq_false_iff_not, not_lt]
  constructor
  · rintro ⟨hk, hi, hbefore⟩
    refine ⟨hi, ?_, hk⟩
    rw [h.start i hi]
    cases i with
    | zero => exact Nat.zero_le k
    | succ i => exact hbefore i (Nat.lt_succ_self i)
  · rintro ⟨hi, hs, hk⟩
    exact ⟨hk, hi, fun j hj => (h.sorted hj hi).trans hs⟩

theorem Dense.lookup_iff (hk : k < 2 ^ c.w) (d : C) (p : ℕ) :
    m.lookup c k = some (d, p) ↔ ∃ i < m.used, (m.chips i).start ≤ k ∧ k < (m.chips i).stop ∧
      (m.chips i).chip = d ∧ p = k - (m.chips i).start := by
  rw [Manager.lookup, Option.map_eq_some_iff]
  refine exists_congr fun i => ?_
  rw [h.find_iff, and_assoc, and_assoc]
  refine and_congr_right fun _ => and_congr_right fun hs => and_congr_right fun _ => ?_
  have hpin : (k + 2 ^ c.w - (m.chips i).start) % 2 ^ c.w = k - (m.chips i).start := by
    rw [Nat.sub_add_comm hs, Nat.add_mod_right]
    exact Nat.mod_eq_of_lt (by omega)
  rw [Prod.mk.injEq, hpin, eq_comm (a := p)]

end

theorem dense_boot (c : Config C) (chips : ℕ → Chip C) : Dense c (.boot chips) where
  fits := Nat.zero_le _
  start := nofun
  stop := nofun
  maxIrq := rfl
  small := Nat.two_pow_pos 16

theorem Dense.right_of_failed (h : Dense c m) {e : Error} (he : m.addChip c a = (m, some e))
    (hf : c.maxChips ≤ m.used ∨ a.count c = 0 ∨ Overlaps c m a) : Right c m a := by
  have hs : step c m a = m := congrArg Prod.fst he
  constructor
  · rw [hs]
    exact fun i j hij hj => h.sorted hij hj
  · rw [hs, he]
  · rw [hs]
    exact fun _ _ => rfl
  · rw [he]
    exact iff_of_true nofun hf
  · rw [hs]
    exact fun k hk d p => h.lookup_iff hk d p

def append (m : Manager C) (pos n : ℕ) (d : C) : Manager C :=
  ⟨m.used + 1, pos + n, update m.chips m.used ⟨pos, pos + n, d⟩⟩

theorem append_chips_of_lt (hi : i < m.used) :
    (append m pos n d).chips i = m.chips i := Function.update_of_ne hi.ne ..

theorem append_chips_self :
    (append m pos n d).chips m.used = ⟨pos, pos + n, d⟩ := Function.update_self ..

theorem addChip_append (hroom : ¬c.maxChips ≤ m.used) (hn : a.count c ≠ 0) (hpos : m.maxIrq ≤ m.base a)
    (hfits : Fits c m a) : m.addChip c a = (append m (m.base a) (a.count c) a.chip, none) := by
  rw [Fits] at hfits
  have hstart : m.base a % 2 ^ 16 = m.base a := Nat.mod_eq_of_lt (by omega)
  have hstop : (m.base a + a.count c) % 2 ^ 16 = m.base a + a.count c := Nat.mod_eq_of_lt hfits
  have hmax : (m.base a + a.count c) % 2 ^ 32 = m.base a + a.count c := Nat.mod_eq_of_lt (by omega)
  simp only [addChip, if_neg hroom, if_neg hn, if_pos hpos, entry, hstart, hstop, hmax]
  rfl

theorem registered_append :
    (append m pos n d).registered = m.registered ++ [⟨pos, pos + n, d⟩] := by
  have hmap : (range m.used).map (append m pos n d).chips = (range m.used).map m.chips :=
    map_congr_left fun i hi => append_chips_of_lt (mem_range.mp hi)
  change (range (m.used + 1)).map (append m pos n d).chips = _
  rw [range_succ, map_append, hmap, map_singleton, append_chips_self]
  rfl

variable (h : Dense c m)
include h

theorem Dense.append (hroom : ¬c.maxChips ≤ m.used) (hn : n ≠ 0)
    (hsmall : m.maxIrq + n < 2 ^ 16) : Dense c (append m m.maxIrq n d) := by
  have hedge : ∀ i ≤ m.used, edge (IrqMgrFlex.append m m.maxIrq n d) i = edge m i := by
    intro i hi
    cases i with
    | zero => rfl
    | succ i => exact congrArg Chip.stop (append_chips_of_lt hi)
  have hlast : (IrqMgrFlex.append m m.maxIrq n d).chips m.used = ⟨m.maxIrq, m.maxIrq + n, d⟩ :=
    append_chips_self
  refine ⟨Nat.lt_of_not_le hroom, fun i hi => ?_, fun i hi => ?_, ?_, hsmall⟩
  · rw [hedge i (Nat.le_of_lt_succ hi)]
    rcases Nat.lt_succ_iff_lt_or_eq.mp hi with hi | rfl
    · rw [append_chips_of_lt hi, h.start i hi]
    · rw [hlast]
      exact h.maxIrq
  · rw [hedge i (Nat.le_of_lt_succ hi)]
    rcases Nat.lt_succ_iff_lt_or_eq.mp hi with hi | rfl
    · rw [append_chips_of_lt hi]
      exact h.stop i hi
    · rw [hlast, ← h.maxIrq]
      exact Nat.lt_add_of_pos_right (Nat.pos_of_ne_zero hn)
  · exact (congrArg Chip.stop hlast).symm

theorem Dense.findSpot_eq_none (hpos : pos < m.maxIrq) (spot : ℕ) :
    findSpot m.chips pos n (range m.used) spot = none := by
  obtain ⟨i, hi, hs, hk⟩ := h.exists_mem hpos
  have hall : ∀ (xs : List ℕ) (spot : ℕ), i ∈ xs → findSpot m.chips pos n xs spot = none := by
    intro xs
    induction xs with
    | nil => exact fun _ hmem => absurd hmem not_mem_nil
    | cons x xs ih =>
      intro spot hmem
      rw [findSpot]
      rcases mem_cons.mp hmem with rfl | hmem
      · rw [if_neg (by omega), if_pos (by omega)]
      · rw [ih x hmem]
        split_ifs <;> rfl
  exact hall _ spot (mem_range.mpr hi)

theorem Dense.not_right (hroom : ¬c.maxChips ≤ m.used) (hn : a.count c ≠ 0)
    (hpos : m.maxIrq < m.base a) (hfits : Fits c m a) : ¬Right c m a := by
  intro hright
  have hadd := addChip_append hroom hn hpos.le hfits
  have hstep : step c m a = IrqMgrFlex.append m (m.base a) (a.count c) a.chip := congrArg Prod.fst hadd
  have hbig : m.maxIrq < 2 ^ c.w := lt_of_lt_of_le h.small (Nat.pow_le_pow_right (by decide) c.wide)
  have hnone : ∀ i < m.used, (m.chips i).stop ≤ m.maxIrq := by
    intro i hi
    rw [h.maxIrq]
    exact h.edge_mono (i := i + 1) hi le_rfl
  have hlook := hright.lookup m.maxIrq hbig
  rw [hstep] at hlook
  have hfound : (range (m.used + 1)).find? (fun i =>
      m.maxIrq < ((IrqMgrFlex.append m (m.base a) (a.count c) a.chip).chips i).stop) = some m.used := by
    rw [find?_range_eq_some]
    simp only [decide_eq_true_eq, mem_range, Bool.not_eq_true', decide_eq_false_iff_not, not_lt,
      append_chips_self]
    refine ⟨by omega, Nat.lt_succ_self _, fun i hi => ?_⟩
    rw [append_chips_of_lt hi]
    exact hnone i hi
  obtain ⟨i, hi, hs, hk, -⟩ := (hlook _ _).mp
    (Option.map_eq_some_iff.mpr ⟨m.used, hfound, rfl⟩)
  rcases Nat.lt_succ_iff_lt_or_eq.mp hi with hi | rfl
  · rw [append_chips_of_lt hi] at hk
    exact absurd (hnone i hi) (by omega)
  · rw [append_chips_self] at hs
    exact absurd hs (Nat.not_le_of_lt hpos)

theorem Dense.right (hfits : Fits c m a) (hgap : NoGap c m a) :
    Right c m a ∧ Dense c (step c m a) := by
  by_cases hroom : c.maxChips ≤ m.used
  · have he : m.addChip c a = (m, some .tooManyChips) := by simp only [addChip, if_pos hroom]
    exact ⟨h.right_of_failed he (.inl hroom), by rw [step, he]; exact h⟩
  by_cases hn : a.count c = 0
  · have he : m.addChip c a = (m, some .zeroPins) := by simp only [addChip, if_neg hroom, if_pos hn]
    exact ⟨h.right_of_failed he (.inr (.inl hn)), by rw [step, he]; exact h⟩
  have hle : m.base a ≤ m.maxIrq := (hgap.resolve_left hroom).resolve_left hn
  by_cases hpos : m.maxIrq ≤ m.base a
  · have hbase : m.base a = m.maxIrq := le_antisymm hle hpos
    have hadd := addChip_append hroom hn hpos hfits
    have hstep : step c m a = IrqMgrFlex.append m (m.base a) (a.count c) a.chip := congrArg Prod.fst hadd
    rw [Fits, hbase] at hfits
    have hdense := h.append (d := a.chip) hroom hn hfits
    rw [← hbase, ← hstep] at hdense
    refine ⟨⟨fun i j => hdense.sorted, ?_, fun i hi => ?_, ?_, fun k hk => hdense.lookup_iff hk⟩, hdense⟩
    · rw [hstep, hadd, registered_append]
      exact perm_append_singleton ..
    · rw [hstep]
      exact Function.update_of_ne (by omega) ..
    · rw [hadd]
      refine iff_of_false (fun hc => hc rfl) ?_
      rintro (hc | hc | ⟨i, hi, hlt, -⟩)
      · exact hroom hc
      · exact hn hc
      · have hend := h.edge_mono (i := i + 1) hi le_rfl
        rw [← h.maxIrq] at hend
        exact absurd (hlt.trans_le hend) (by omega)
  · have hlt := Nat.lt_of_not_le hpos
    have he : m.addChip c a = (m, some .irqsInUse) := by
      simp only [addChip, if_neg hroom, if_neg hn, if_neg hpos, h.findSpot_eq_none hlt]
    obtain ⟨i, hi, hs, hk⟩ := h.exists_mem hlt
    refine ⟨h.right_of_failed he (.inr (.inr ⟨i, hi, hk, by omega⟩)), ?_⟩
    rw [step, he]
    exact h

theorem Dense.right_iff (hfits : Fits c m a) : Right c m a ↔ NoGap c m a := by
  refine ⟨fun hright => ?_, fun hgap => (h.right hfits hgap).1⟩
  by_contra hgap
  obtain ⟨hroom, hn, hpos⟩ := not_or.mp hgap |>.imp_right not_or.mp
  exact h.not_right hroom hn (Nat.lt_of_not_le hpos) hfits hright

end Dense

theorem right_iff_noGap (c : Config C) (chips : ℕ → Chip C) (as : List (Call C))
    (hfits : Along (step c) (Fits c) (.boot chips) as) :
    Along (step c) (Right c) (.boot chips) as ↔ Along (step c) (NoGap c) (.boot chips) as := by
  have hcongr : Along (step c) (fun m a => Fits c m a ∧ Right c m a) (.boot chips) as ↔
      Along (step c) (fun m a => Fits c m a ∧ NoGap c m a) (.boot chips) as :=
    along_congr (I := Dense c) (fun m a h hr => (h.right hr.1 ((h.right_iff hr.1).mp hr.2)).2)
      (fun m a h => and_congr_right h.right_iff) (dense_boot c chips)
  rw [along_and, along_and, and_iff_right hfits, and_iff_right hfits] at hcongr
  exact hcongr

def four : Config ℕ := ⟨4, id, 32, by decide⟩

def blank : ℕ → Chip ℕ := fun _ => ⟨0, 0, 0⟩

theorem right_behind :
    Along (step four) (Right four) (.boot blank) [⟨-1, 24, -1⟩, ⟨24, 8, 4⟩, ⟨3, 5, 0⟩, ⟨10, 5, -1⟩] :=
  (right_iff_noGap four blank _ (by decide)).mpr (by decide)

/-- Interrupt 0 is in front of the only chip. A chip for a gap is put in front of the last chip, and
the place behind the array is written. A chip that ends where the next one begins is refused. -/
theorem not_right_gap :
    let m := run (step four) (.boot blank) [⟨5, 2, -1⟩, ⟨20, 2, -1⟩, ⟨30, 2, -1⟩]
    ¬Right four (.boot blank) ⟨5, 2, -1⟩ ∧
      ¬Right four { m with chips := update m.chips 3 ⟨1, 1, 1⟩ } ⟨10, 2, -1⟩ ∧
      ¬Right four m ⟨10, 2, -1⟩ ∧ ¬Right four m ⟨3, 2, -1⟩ := by
  refine ⟨fun h => ?_, fun h => ?_, fun h => ?_, fun h => ?_⟩
  · have hfront := (h.lookup 0 (by decide) 2 (2 ^ 32 - 5)).mp (by decide)
    revert hfront
    decide
  · have hbehind := h.inside 4 le_rfl
    revert hbehind
    decide
  · have hsorted := h.sorted 1 2 (by decide) (by decide)
    revert hsorted
    decide
  · have hfails := h.fails.mp (by decide)
    revert hfails
    unfold Overlaps
    decide

end Fiasco.IrqMgrFlex
