import Fiasco.Lib.Machine
import Fiasco.ReadyQueue.Bitmap

/-!
# The page directory of a CPU

With `CONFIG_CPU_LOCAL_MAP` a CPU has one page directory for all spaces, with a bit for each slot
that may be in use. A slot is filled by the page fault that needs it. The switch to a space goes
through the bits and copies the slots of the space.
-/
namespace Fiasco.Ia32.LocalMap

open Nat Function List
open ReadyQueueFp (getLsbD_clearBit getLsbD_setBit)

abbrev Mword := BitVec 64

abbrev Bitmap := ℕ → Mword

def nrElems : ℕ := (260 + 63) / 64

def ffsl (v : Mword) : ℕ :=
  match (range 64).find? (v.getLsbD ·) with
  | some k => k + 1
  | none => 0

namespace Bitmap

variable (m : Bitmap)

def setBit (bit : ℕ) : Bitmap := update m (bit / 64) (m (bit / 64) ||| 1#64 <<< (bit % 64))

def clearBit (bit : ℕ) : Bitmap := update m (bit / 64) (m (bit / 64) &&& ~~~(1#64 <<< (bit % 64)))

def get (bit : ℕ) : Bool := (m (bit / 64)).getLsbD (bit % 64)

def ffsLoop : ℕ → ℕ → ℕ → ℕ
  | 0, _, _ => 0
  | n + 1, i, b =>
    let r := ffsl (m i >>> b)
    if 0 < r then r + i * 64 + b else ffsLoop n (i + 1) 0

def ffs (bit : ℕ) : ℕ := ffsLoop m (nrElems - bit / 64) (bit / 64) (bit % 64)

end Bitmap

/-- `dirs` are the root tables of the spaces, and `failed` is an assertion that failed. -/
structure State (S : Type) where
  pd : ℕ → Mword
  map : Bitmap
  dirs : S → ℕ → Mword
  active : S
  failed : Bool

def valid (e : Mword) : Bool := e.getLsbD 0

def prepareLoop (d : ℕ → Mword) : ℕ → ℕ → (ℕ → Mword) × Bitmap → Option ((ℕ → Mword) × Bitmap)
  | 0, _, _ => none
  | fuel + 1, bit, (pd, m) =>
    match m.ffs bit with
    | 0 => some (pd, m)
    | i + 1 => prepareLoop d fuel (i + 1) (update pd i (d i), if d i = 0 then m.clearBit i else m)

def User (idx : ℕ) : Prop := idx ≤ 255 ∨ idx = 259

namespace State

variable {S : Type} (s : State S)

/-- `make_current`; the loop has looked at all bits after as many rounds. -/
def preparePtSwitch (sp : S) : Option (State S) :=
  (prepareLoop (s.dirs sp) (64 * nrElems + 1) 0 (s.pd, s.map)).map fun r =>
    { s with pd := r.1, map := r.2, active := sp }

def updateLocalMap (pfa : Mword) : State S × Bool :=
  let idx := (pfa >>> 39 &&& 0x1ff).toNat
  if 255 < idx ∧ idx ≠ 259 then (s, false)
  else if s.map.get idx then (s, false)
  else
    let s := { s with failed := s.failed || valid (s.pd idx) }
    let r := s.dirs s.active idx
    if valid r then ({ s with map := s.map.setBit idx, pd := update s.pd idx r }, true) else (s, false)

variable [DecidableEq S]

def addEntry (sp : S) (idx : ℕ) (e : Mword) : State S :=
  if s.dirs sp idx = 0 then { s with dirs := update s.dirs sp (update (s.dirs sp) idx e) } else s

end State

inductive Op (S : Type)
  | prepare (sp : S)
  | fault (pfa : Mword)
  | add (sp : S) (idx : ℕ) (e : Mword)

def exec {S : Type} [DecidableEq S] (s : State S) : Op S → Option (State S)
  | .prepare sp => s.preparePtSwitch sp
  | .fault pfa => some (s.updateLocalMap pfa).1
  | .add sp idx e => some (s.addEntry sp idx e)

/-- `init_cpu` sets the bits of the slots in use in `kdir`. This is the page directory of the CPU, or,
with `CONFIG_KERNEL_ISOLATION`, the one of the kernel. -/
def syncMap (kdir : ℕ → Mword) : Bitmap :=
  (range 256).foldl (fun m i => if valid (kdir i) then m.setBit i else m) fun _ => 0

def boot {S : Type} (kdir udir : ℕ → Mword) (dirs : S → ℕ → Mword) (sp : S) : State S :=
  ⟨udir, syncMap kdir, dirs, sp, false⟩

structure Right {S : Type} (s : State S) : Prop where
  slot : ∀ i, User i → s.pd i = 0 ∨ s.pd i = s.dirs s.active i
  clear : ∀ i, User i → s.map.get i = false → s.pd i = 0
  asserted : s.failed = false

section Bits

variable {m : Bitmap} {i j k n b bit : ℕ}

theorem get_setBit : (m.setBit i).get j = (m.get j || decide (j = i)) := by
  unfold Bitmap.get Bitmap.setBit
  by_cases hw : j / 64 = i / 64
  · rw [hw, update_self, getLsbD_setBit (mod_lt _ (by decide))]
    congr 2
    rw [eq_iff_iff]
    omega
  · rw [update_of_ne hw, decide_eq_false (by rintro rfl; exact hw rfl), Bool.or_false]

theorem get_clearBit : (m.clearBit i).get j = (m.get j && !decide (j = i)) := by
  unfold Bitmap.get Bitmap.clearBit
  by_cases hw : j / 64 = i / 64
  · rw [hw, update_self, getLsbD_clearBit (mod_lt _ (by decide))]
    congr 3
    rw [eq_iff_iff]
    omega
  · rw [update_of_ne hw, decide_eq_false (by rintro rfl; exact hw rfl), Bool.not_false, Bool.and_true]

def First (m : Bitmap) (lo hi : ℕ) : ℕ → Prop
  | 0 => ∀ j, lo ≤ j → j < hi → m.get j = false
  | k + 1 => lo ≤ k ∧ k < hi ∧ m.get k = true ∧ ∀ j, lo ≤ j → j < k → m.get j = false

theorem ffsl_cases (v : Mword) : (ffsl v = 0 ∧ ∀ k < 64, v.getLsbD k = false) ∨
    ∃ k < 64, ffsl v = k + 1 ∧ v.getLsbD k = true ∧ ∀ j < k, v.getLsbD j = false := by
  unfold ffsl
  cases hf : (range 64).find? (v.getLsbD ·) with
  | none => exact .inl ⟨rfl, by simpa using hf⟩
  | some k =>
    rw [find?_range_eq_some] at hf
    exact .inr ⟨k, mem_range.mp hf.2.1, rfl, hf.1, by simpa using hf.2.2⟩

theorem get_word (hb : b + k < 64) : m.get (i * 64 + b + k) = (m i >>> b).getLsbD k := by
  rw [BitVec.getLsbD_ushiftRight, Bitmap.get, show (i * 64 + b + k) / 64 = i by omega,
    show (i * 64 + b + k) % 64 = b + k by omega]

theorem ffsLoop_first (hb : b < 64) : First m (i * 64 + b) ((i + n) * 64) (m.ffsLoop n i b) := by
  induction n generalizing i b with
  | zero => exact fun j hlo hhi => by omega
  | succ n ih =>
    have hword {j : ℕ} (hlo : i * 64 + b ≤ j) (hhi : j < (i + 1) * 64) :
        m.get j = (m i >>> b).getLsbD (j - (i * 64 + b)) := by
      rw [← get_word (by omega), Nat.add_sub_cancel' hlo]
    rw [Bitmap.ffsLoop]
    rcases ffsl_cases (m i >>> b) with ⟨h0, hnone⟩ | ⟨k, hk, hr, hbit, hfirst⟩
    · simp only [h0, lt_irrefl, if_false]
      have hrest := ih (i := i + 1) (b := 0) (by decide)
      have hnot (j : ℕ) (hlo : i * 64 + b ≤ j) (hhi : j < (i + 1) * 64) : m.get j = false := by
        rw [hword hlo hhi]
        exact hnone _ (by omega)
      cases hres : m.ffsLoop n (i + 1) 0 with
      | zero =>
        rw [hres] at hrest
        intro j hlo hhi
        by_cases hj : j < (i + 1) * 64
        · exact hnot j hlo hj
        · exact hrest j (by omega) (by omega)
      | succ r =>
        rw [hres] at hrest
        obtain ⟨hlo, hhi, hget, hbefore⟩ := hrest
        refine ⟨by omega, by omega, hget, fun j hj hjr => ?_⟩
        by_cases hji : j < (i + 1) * 64
        · exact hnot j hj hji
        · exact hbefore j (by omega) hjr
    · have hlt : b + k < 64 := by
        by_contra hge
        rw [BitVec.getLsbD_ushiftRight, BitVec.getLsbD_of_ge _ _ (by omega)] at hbit
        cases hbit
      simp only [hr, succ_pos, if_true]
      rw [show k + 1 + i * 64 + b = i * 64 + b + k + 1 by omega]
      refine ⟨by omega, by omega, by rw [get_word hlt, hbit], fun j hj hjk => ?_⟩
      rw [hword hj (by omega)]
      exact hfirst _ (by omega)

theorem ffs_first (hbit : bit ≤ 64 * nrElems) : First m bit (64 * nrElems) (m.ffs bit) := by
  have h := ffsLoop_first (m := m) (i := bit / 64) (n := nrElems - bit / 64) (Nat.mod_lt bit (by decide))
  rwa [Nat.div_add_mod', Nat.add_sub_cancel' (by omega), Nat.mul_comm] at h

variable {d : ℕ → Mword}

theorem prepareLoop_spec (pd : ℕ → Mword) (m : Bitmap) {fuel : ℕ} (hbit : bit ≤ 64 * nrElems)
    (hfuel : 64 * nrElems < bit + fuel) :
    ∃ pd' m', prepareLoop d fuel bit (pd, m) = some (pd', m') ∧ ∀ i < 64 * nrElems,
      pd' i = (if bit ≤ i ∧ m.get i = true then d i else pd i) ∧
      m'.get i = (m.get i && (decide (i < bit) || decide (d i ≠ 0))) := by
  induction fuel generalizing bit pd m with
  | zero => omega
  | succ fuel ih =>
    have hfirst := ffs_first (m := m) hbit
    rw [prepareLoop]
    cases hf : m.ffs bit with
    | zero =>
      rw [hf] at hfirst
      refine ⟨pd, m, rfl, fun i hi => ?_⟩
      by_cases hlt : i < bit
      · simp [hlt]
      · simp [hfirst i (by omega) hi]
    | succ k =>
      rw [hf] at hfirst
      obtain ⟨hlo, hhi, hget, hbefore⟩ := hfirst
      obtain ⟨pd', m', hrun, hspec⟩ := ih (update pd k (d k)) (if d k = 0 then m.clearBit k else m)
        (show k + 1 ≤ _ from hhi) (by omega)
      refine ⟨pd', m', hrun, fun i hi => ?_⟩
      obtain ⟨hpd, hm⟩ := hspec i hi
      rw [hpd, hm]
      have hmap : (if d k = 0 then m.clearBit k else m).get i =
          (m.get i && !(decide (i = k) && decide (d k = 0))) := by
        split_ifs with h0 <;> simp only [get_clearBit, h0, decide_true, decide_false, Bool.and_true,
          Bool.and_false, Bool.not_false]
      rw [hmap]
      rcases lt_trichotomy i k with hik | rfl | hik
      · rw [update_of_ne hik.ne]
        have hnot : bit ≤ i → m.get i = false := fun h => hbefore i h hik
        by_cases hb : bit ≤ i
        · simp [hnot hb]
        · simp [hb, lt_succ_of_lt hik, not_le.mp hb, hik.ne, not_le.mpr (lt_succ_of_lt hik)]
      · simp [hlo, hget, not_lt.mpr hlo]
      · rw [update_of_ne hik.ne']
        simp [hik.ne', show k + 1 ≤ i from hik, hlo.trans hik.le, not_lt.mpr (hlo.trans hik.le),
          not_lt.mpr (show k + 1 ≤ i from hik)]

end Bits

section Run

variable {S : Type} {s : State S}

structure Inv (s : State S) : Prop where
  slot : ∀ i, User i → s.pd i = if s.map.get i then s.dirs s.active i else 0
  used : ∀ i, User i → s.map.get i = true → s.dirs s.active i ≠ 0
  asserted : s.failed = false

theorem Inv.right (h : Inv s) : Right s := by
  refine ⟨fun i hi => ?_, fun i hi hclear => ?_, h.asserted⟩
  · rw [h.slot i hi]
    split_ifs
    · exact .inr rfl
    · exact .inl rfl
  · rw [h.slot i hi, hclear]
    rfl

theorem User.lt {i : ℕ} (h : User i) : i < 64 * nrElems := by
  simp only [User, nrElems] at h ⊢
  omega

theorem inv_prepare (hclear : ∀ i, User i → s.map.get i = false → s.pd i = 0) (hfail : s.failed = false)
    (sp : S) : ∃ s', s.preparePtSwitch sp = some s' ∧ Inv s' := by
  obtain ⟨pd, m, hrun, hspec⟩ := prepareLoop_spec (d := s.dirs sp) s.pd s.map (zero_le _)
    (show 64 * nrElems < 0 + (64 * nrElems + 1) by omega)
  refine ⟨{ s with pd := pd, map := m, active := sp }, by rw [State.preparePtSwitch, hrun]; rfl, ?_⟩
  refine ⟨fun i hi => ?_, fun i hi hget => ?_, hfail⟩
  · obtain ⟨hpd, hm⟩ := hspec i hi.lt
    change pd i = if m.get i then s.dirs sp i else 0
    rw [hpd, hm]
    cases hget : s.map.get i with
    | false => simpa [hget] using hclear i hi hget
    | true => by_cases h0 : s.dirs sp i = 0 <;> simp [h0]
  · have hm := (hspec i hi.lt).2
    rw [show m.get i = true from hget] at hm
    simpa using (Bool.and_eq_true_iff.mp hm.symm).2

theorem Inv.updateLocalMap (h : Inv s) (pfa : Mword) : Inv (s.updateLocalMap pfa).1 := by
  unfold State.updateLocalMap
  generalize (pfa >>> 39 &&& 0x1ff).toNat = idx
  dsimp only
  split_ifs with hkernel hget hvalid
  · exact h
  · exact h
  all_goals
    have hempty : s.pd idx = 0 := by rw [h.slot idx (by unfold User; omega), if_neg hget]
    have hfail : (s.failed || valid (s.pd idx)) = false := by rw [h.asserted, hempty]; rfl
  · refine ⟨fun i hi => ?_, fun i hi hbit => ?_, hfail⟩
    · by_cases hne : i = idx
      · subst hne
        simp [get_setBit]
      · simpa [get_setBit, hne] using h.slot i hi
    · by_cases hne : i = idx
      · subst hne
        intro h0
        rw [h0] at hvalid
        cases hvalid
      · exact h.used i hi (by simpa [get_setBit, hne] using hbit)
  · exact ⟨h.slot, h.used, hfail⟩

variable [DecidableEq S]

theorem Inv.addEntry (h : Inv s) (sp : S) (idx : ℕ) (e : Mword) : Inv (s.addEntry sp idx e) := by
  unfold State.addEntry
  split_ifs with hzero
  · -- an entry that is in use is not replaced
    have hkeep {i : ℕ} (hi : User i) (hbit : s.map.get i = true) :
        update s.dirs sp (update (s.dirs sp) idx e) s.active i = s.dirs s.active i := by
      by_cases hsp : s.active = sp
      · subst hsp
        rw [update_self, update_of_ne]
        rintro rfl
        exact h.used i hi hbit hzero
      · rw [update_of_ne hsp]
    refine ⟨fun i hi => ?_, fun i hi hbit => ?_, h.asserted⟩
    · rw [h.slot i hi]
      split_ifs with hbit
      · exact (hkeep hi hbit).symm
      · rfl
    · exact (hkeep hi hbit).trans_ne (h.used i hi hbit)
  · exact h

theorem Inv.exec (h : Inv s) (op : Op S) : ∃ s', exec s op = some s' ∧ Inv s' := by
  cases op with
  | prepare sp => exact inv_prepare h.right.clear h.asserted sp
  | fault pfa => exact ⟨_, rfl, h.updateLocalMap pfa⟩
  | add sp idx e => exact ⟨_, rfl, h.addEntry sp idx e⟩

omit [DecidableEq S] in
theorem get_syncMap {kdir : ℕ → Mword} {i : ℕ} (hi : i < 256) (hv : valid (kdir i) = true) :
    (syncMap kdir).get i = true := by
  have hfold : ∀ (is : List ℕ) (m : Bitmap), (i ∈ is ∨ m.get i = true) →
      (is.foldl (fun m i => if valid (kdir i) then m.setBit i else m) m).get i = true := by
    intro is
    induction is with
    | nil => exact fun m h => h.resolve_left not_mem_nil
    | cons j is ih =>
      intro m h
      refine ih _ ?_
      rcases h with h | h
      · rcases mem_cons.mp h with rfl | h
        · exact .inr (by simp [hv, get_setBit])
        · exact .inl h
      · right
        dsimp only
        split_ifs
        · simp [get_setBit, h]
        · exact h
  exact hfold _ _ (.inl (mem_range.mpr hi))

theorem Inv.tryRun (h : Inv s) (as : List (Op S)) :
    ∃ t, Machine.tryRun LocalMap.exec s as = some t ∧ Inv t := by
  induction as generalizing s with
  | nil => exact ⟨s, rfl, h⟩
  | cons a as ih =>
    obtain ⟨s', hs', h'⟩ := h.exec a
    rw [Machine.tryRun_cons, hs']
    exact ih h'

theorem localMap_right {kdir udir : ℕ → Mword} (dirs : S → ℕ → Mword) (sp sp' : S) (as : List (Op S))
    (hboot : ∀ i, User i → udir i ≠ 0 → i < 256 ∧ valid (kdir i) = true) :
    ∃ t, Machine.tryRun exec (boot kdir udir dirs sp) (.prepare sp' :: as) = some t ∧ Right t := by
  have hclear (i : ℕ) (hi : User i) (hbit : (boot kdir udir dirs sp).map.get i = false) :
      (boot kdir udir dirs sp).pd i = 0 := by
    by_contra hne
    obtain ⟨hlt, hv⟩ := hboot i hi hne
    simp [boot, get_syncMap hlt hv] at hbit
  obtain ⟨s, hs, hinv⟩ := inv_prepare hclear rfl sp'
  obtain ⟨t, ht, hinv'⟩ := hinv.tryRun as
  refine ⟨t, ?_, hinv'.right⟩
  rw [Machine.tryRun_cons, LocalMap.exec, hs]
  exact ht

theorem localMap_right_switch :
    let empty : ℕ → Mword := fun _ => 0
    (∀ i, User i → empty i ≠ 0 → i < 256 ∧ valid (empty i) = true) ∧
    ∃ t, Machine.tryRun exec (boot empty empty (fun (sp : Bool) i =>
      if i = 1 then if sp then 0x1001 else 0x2001 else if i = 2 ∧ sp then 0x3001 else 0) true)
      [.prepare true, .fault (1#64 <<< 39), .fault (2#64 <<< 39), .prepare false] = some t ∧ Right t := by
  intro empty
  have hempty : ∀ i, User i → empty i ≠ 0 → i < 256 ∧ valid (empty i) = true :=
    fun _ _ h => absurd rfl h
  exact ⟨hempty, localMap_right _ true true _ hempty⟩

end Run

end Fiasco.Ia32.LocalMap
