import Fiasco.Lib.Machine
import Fiasco.Ptab.Frame

/-!
# Kernel mappings of device memory

`Kmem_mmio::map` looks for an extent of the window that has the requested memory already, and takes
the first extent of free pages otherwise. Nobody counts how often an extent has been handed out, and
`unmap` clears its pages. Addresses are those of the window without the bits above the root table,
which are the same for all of it.
-/
namespace Fiasco.KmemMmio

open Ptab Nat Option List

/-- The page table and the window. Before the allocator is ready, mappings are made of pages
of `Super_level`, which has `super` levels above it. -/
structure Layout where
  iter : Bool
  root : Ldesc
  below : List Ldesc
  super : ℕ
  base : ℕ
  word : ℕ
  start : ℕ
  stop : ℕ
  tiled : Tiled (root :: below)
  leaf_shift : pageShift below.length (root :: below) = 0
  super_le : super ≤ below.length
  start_dvd : 2 ^ (pageShift super (root :: below) + base) ∣ start
  stop_dvd : 2 ^ (pageShift super (root :: below) + base) ∣ stop
  start_le : start ≤ stop
  stop_le : stop ≤ root.span * 2 ^ base
  stop_word : stop + 2 ^ (pageShift super (root :: below) + base) ≤ 2 ^ word

namespace Layout

def walker (L : Layout) : Walker := if L.iter then iterative else recursive

def levels (L : Layout) (ready : Bool) : ℕ := if ready then L.below.length else L.super

def pageSize (L : Layout) (levels : ℕ) : ℕ := 2 ^ (pageShift levels (L.root :: L.below) + L.base)

def ceil (L : Layout) (p x : ℕ) : ℕ := (x + (p - 1)) % 2 ^ L.word / p * p

def fuel (L : Layout) : ℕ := ((L.root :: L.below).map fun d => 2 * d.length).sum

end Layout

structure Page (A : Type) where
  phys : ℕ
  attr : A
deriving DecidableEq

structure Request (A : Type) where
  phys : ℕ
  size : ℕ
  attr : A

structure Mapping (A : Type) extends Request A where
  ptr : ℕ

/-- `stopped` if a call has left the page table or does not end. -/
structure State (A : Type) where
  table : Table (Page A)
  current : ℕ
  ready : Bool
  live : List (Mapping A)
  stopped : Bool

/-- The loop of `find_mapped_extent` and `find_unmapped_extent`: an extent of pages that pass the
test, which is given the address of the page and its offset in the extent. -/
def findExtent (test : ℕ → ℕ → Bool) (sizeAdj step stop : ℕ) :
    ℕ → ℕ → ℕ → Option ℕ → Option ℕ
  | 0, _, _, _ => none
  | n + 1, virt, sizeCur, candidate =>
    if virt < stop then
      if test virt sizeCur then
        let candidate := if sizeCur = 0 then some virt else candidate
        if sizeAdj ≤ sizeCur + step then candidate
        else findExtent test sizeAdj step stop n (virt + step) (sizeCur + step) candidate
      else findExtent test sizeAdj step stop n (virt + step) 0 none
    else none

variable {A : Type}

section

variable (L : Layout) (compatible : A → A → Bool) (s : State A)

section

variable (ready : Bool) (t : Table (Page A))

def Layout.pte (virt : ℕ) :
    Except Stop (Entry (Page A) × ℕ) :=
  walk L.walker (L.levels ready) (L.root :: L.below) t (virt / 2 ^ L.base)

def Layout.free (virt : ℕ) : Bool :=
  match L.pte ready t virt with
  | .ok (.invalid, _) => true
  | _ => false

def Layout.maps
    (attr : A) (phys virt : ℕ) : Bool :=
  match L.pte ready t virt with
  | .ok (.leaf p, 0) => p.phys = phys && compatible p.attr attr
  | _ => false

def findUnmapped (sizeAdj step start stop : ℕ) : Option ℕ :=
  findExtent (fun virt _ => L.free s.ready s.table virt) sizeAdj step stop (stop - start + 1) start 0 none

def findMapped (attr : A)
    (physAdj sizeAdj step start stop : ℕ) : Option ℕ :=
  findExtent (fun virt cur => L.maps compatible s.ready s.table attr (physAdj + cur) virt) sizeAdj step
    stop (stop - start + 1) start 0 none

def mapExtent (attr : A) (physAdj virt sizeAdj : ℕ) (al : Alloc) :
    Except Stop (Mapped (Page A)) :=
  let al := if s.ready then al else ⟨false, []⟩
  let v := virt / 2 ^ L.base
  let e := v + sizeAdj / 2 ^ L.base - 1
  if L.iter then
    iterMap L.base (fun pa => ⟨pa, attr⟩) (L.levels s.ready) (L.root :: L.below) s.table al physAdj v e
  else recMap L.base (fun pa => ⟨pa, attr⟩) (L.levels s.ready) (L.root :: L.below) s.table al physAdj v e

structure Extent where
  step : ℕ
  physAdj : ℕ
  offset : ℕ
  sizeAdj : ℕ

def Layout.extent (q : Request A) : Extent :=
  let p := L.pageSize (L.levels ready)
  let offset := q.phys % p
  ⟨p, q.phys / p * p, offset, L.ceil p ((offset + q.size) % 2 ^ L.word)⟩

end

def State.enter (q : Request A) (ptr : ℕ) : State A :=
  { s with live := ⟨q, ptr⟩ :: s.live }

def map (q : Request A) (al : Alloc) :
    State A :=
  let x := L.extent s.ready q
  let start := L.ceil x.step L.start
  let stop := L.stop / x.step * x.step
  let next := L.ceil x.step s.current
  match findMapped L compatible s q.attr x.physAdj x.sizeAdj x.step start stop with
  | some virt => s.enter q (virt + x.offset)
  | none =>
    match (findUnmapped L s x.sizeAdj x.step next stop).or
        (findUnmapped L s x.sizeAdj x.step start next) with
    | none => s
    | some virt =>
      match mapExtent L s q.attr x.physAdj virt x.sizeAdj al with
      | .error _ => { s with stopped := true }
      | .ok r =>
        if r.size = 0 then { s with table := r.table }
        else State.enter { s with table := r.table, current := virt + x.sizeAdj } q (virt + x.offset)

def unmap (k : ℕ) : State A :=
  match s.live[k]? with
  | none => s
  | some m =>
    let p := 2 ^ L.base
    let virtAdj := m.ptr / p * p
    let sizeAdj := L.ceil p (m.ptr % p + m.size)
    let s := { s with live := s.live.eraseIdx k }
    if virtAdj < L.start ∨ L.stop < virtAdj + sizeAdj then s
    else
      let v := virtAdj / p
      let e := v + sizeAdj / p - 1
      match if L.iter then iterUnmap L.fuel L.below.length (L.root :: L.below) s.table v e
        else recUnmap L.fuel L.below.length (L.root :: L.below) s.table v e with
      | .error _ => { s with stopped := true }
      | .ok t => { s with table := t }

inductive Act (A : Type) where
  | map (q : Request A) (al : Alloc)
  | unmap (k : ℕ)
  | ready

def step : Act A → State A
  | .map q al => map L compatible s q al
  | .unmap k => unmap L s k
  | .ready => { s with ready := true }

def boot (t : Table (Page A)) (ready : Bool) : State A := ⟨t, L.start, ready, [], false⟩

def Holds (t : Table (Page A)) (m : Mapping A) : Prop :=
  ∀ a < m.size, ∃ p level,
    translate (L.root :: L.below) t ((m.ptr + a) / 2 ^ L.base) = some (p, level) ∧
    p.phys + (m.ptr + a) % L.pageSize (L.below.length - level) = m.phys + a ∧
    (p.attr = m.attr ∨ compatible p.attr m.attr = true)

structure Good (L : Layout) (compatible : A → A → Bool) (s : State A) : Prop where
  holds : ∀ m ∈ s.live, Holds L compatible s.table m
  running : s.stopped = false

def Run (free : ℕ → Bool) (sizeAdj step stop c : ℕ) : Prop :=
  ∀ j, j * step < sizeAdj → c + j * step < stop ∧ free (c + j * step) = true

structure First (free : ℕ → Bool) (sizeAdj step start stop c : ℕ) : Prop where
  le : start ≤ c
  dvd : step ∣ c
  run : Run free sizeAdj step stop c
  first : ∀ c', start ≤ c' → step ∣ c' → c' < c → ¬Run free sizeAdj step stop c'

def Mapped (test : ℕ → ℕ → Bool) (sizeAdj step start stop j : ℕ) : Prop :=
  ∀ m, m * step < sizeAdj →
    start + (j + m) * step < stop ∧ test (start + (j + m) * step) (m * step) = true

/-- An attempt from an earlier page, itself not taken, has got to the page and takes it, whether it
continues the attempt or ends it. -/
def Taken (test : ℕ → ℕ → Bool) (step start i : ℕ) : Prop :=
  ∃ j : Fin i, ¬Taken test step start j ∧
    ∀ m, j + m < i → test (start + (j + m) * step) (m * step) = true
termination_by i
decreasing_by exact j.isLt

def Searched (test : ℕ → ℕ → Bool) (sizeAdj step start stop : ℕ) : Option ℕ → Prop
  | some c => ∃ j, c = start + j * step ∧ ¬Taken test step start j ∧
      Mapped test sizeAdj step start stop j ∧
      ∀ i < j, ¬Taken test step start i → ¬Mapped test sizeAdj step start stop i
  | none => ∀ j, ¬Taken test step start j → ¬Mapped test sizeAdj step start stop j

/-- The extent at `c` is the first free one from `_current_virt` on, or, if there is none, the first
one before it. -/
def Chosen (q : Request A) (c : ℕ) : Prop :=
  let x := L.extent s.ready q
  let free := L.free s.ready s.table
  First free x.sizeAdj x.step s.current L.stop c ∨
    (∀ c', s.current ≤ c' → x.step ∣ c' → ¬Run free x.sizeAdj x.step L.stop c') ∧
      First free x.sizeAdj x.step L.start s.current c

/-- A request fits in the address space, and its extent can be mapped; and a mapping is unmapped
only if it is made of pages of the leaf level that no other mapping has. -/
def Careful : Act A → Prop
  | .map q _ => 0 < q.size ∧ q.phys + q.size + L.pageSize (L.levels s.ready) ≤ 2 ^ L.word ∧
      ∀ c, Chosen L s q c → Fits (L.levels s.ready) (L.root :: L.below) (c / 2 ^ L.base)
        (c / 2 ^ L.base + (L.extent s.ready q).sizeAdj / 2 ^ L.base - 1)
  | .unmap k => ∀ m, s.live[k]? = some m →
      (∀ a < m.size, ∃ p,
        translate (L.root :: L.below) s.table ((m.ptr + a) / 2 ^ L.base) = some (p, 0)) ∧
      ∀ j m', j ≠ k → s.live[j]? = some m' → ∀ a < m.size, ∀ a' < m'.size,
        (m.ptr + a) / 2 ^ L.base ≠ (m'.ptr + a') / 2 ^ L.base
  | .ready => True

end

section Search

variable {test : ℕ → ℕ → Bool} {free : ℕ → Bool} {sizeAdj step start stop n k i p : ℕ}
  {candidate : Option ℕ}

theorem taken_of_lt (hlt : p < i) (hp : ¬Taken test step start p)
    (h : ∀ m, p + m < i → test (start + (p + m) * step) (m * step) = true) :
    Taken test step start i := by
  rw [Taken]
  exact ⟨⟨p, hlt⟩, hp, h⟩

theorem not_taken_zero : ¬Taken test step start 0 := by
  rw [Taken]
  exact fun ⟨j, _⟩ => not_lt_zero _ j.isLt

/-- An attempt has begun at page `p`, which is not taken, and has got `k` pages far. -/
theorem findExtent_spec (hstep : 0 < step) (hn : stop - (start + (p + k) * step) < n)
    (hcur : k * step < sizeAdj) (hc : k ≠ 0 → candidate = some (start + p * step))
    (hpre : ∀ m < k, start + (p + m) * step < stop ∧ test (start + (p + m) * step) (m * step) = true)
    (hp : ¬Taken test step start p)
    (hno : ∀ j < p, ¬Taken test step start j → ¬Mapped test sizeAdj step start stop j) :
    Searched test sizeAdj step start stop
      (findExtent test sizeAdj step stop n (start + (p + k) * step) (k * step) candidate) := by
  induction n generalizing p k candidate with
  | zero => omega
  | succ n ih =>
    have hsucc : (k + 1) * step = k * step + step := succ_mul k step
    have hvirt : start + (p + (k + 1)) * step = start + (p + k) * step + step := by ring
    -- the pages of the attempt are taken
    have hle {j} (hj : ¬Taken test step start j) (hk : j ≤ p + k) : j ≤ p := by
      by_contra hlt
      exact hj (taken_of_lt (by omega) hp fun m hm => (hpre m (by omega)).2)
    have hfst {j} (hj : ¬Taken test step start j) (hm : Mapped test sizeAdj step start stop j)
        (hk : j ≤ p + k) : j = p := by
      have := hle hj hk
      by_contra hne
      exact hno j (by omega) hj hm
    rw [findExtent]
    by_cases hlt : start + (p + k) * step < stop
    · rw [if_pos hlt]
      by_cases htest : test (start + (p + k) * step) (k * step) = true
      · rw [if_pos htest]
        have hcand : (if k * step = 0 then some (start + (p + k) * step) else candidate) =
            some (start + p * step) := by
          by_cases hk : k = 0
          · simp [hk]
          · rw [if_neg (mul_ne_zero hk hstep.ne'), hc hk]
        have hnew : ∀ m < k + 1,
            start + (p + m) * step < stop ∧ test (start + (p + m) * step) (m * step) = true := by
          intro m hm
          by_cases hmk : m = k
          · rw [hmk]
            exact ⟨hlt, htest⟩
          · exact hpre m (by omega)
        simp only [hcand]
        by_cases hret : sizeAdj ≤ k * step + step
        · rw [if_pos hret]
          refine ⟨p, rfl, hp, fun m hm => hnew m ?_, hno⟩
          exact Nat.lt_of_mul_lt_mul_right (a := step) (by omega)
        · rw [if_neg hret, ← hsucc, ← hvirt]
          exact ih (by omega) (by omega) (fun _ => rfl) hnew hp hno
      · rw [if_neg htest, ← zero_mul step, ← hvirt]
        refine ih (p := p + (k + 1)) (k := 0) (by rw [add_zero]; omega) (by omega)
          (fun h => absurd rfl h) (fun m hm => absurd hm (not_lt_zero m)) ?_ fun j hj hj' hm => ?_
        · intro ht
          rw [Taken] at ht
          obtain ⟨⟨j, hj⟩, hj', hall⟩ := ht
          simp only at hj' hall
          rcases lt_or_eq_of_le (hle hj' (by omega)) with hjp | rfl
          · exact hp (taken_of_lt hjp hj' fun m hm => hall m (by omega))
          · exact htest (hall k (by omega))
        · obtain rfl := hfst hj' hm (by omega)
          exact htest (hm k hcur).2
    · rw [if_neg hlt]
      intro j hj hm
      have hjk : j < p + k := by
        refine Nat.lt_of_mul_lt_mul_right (a := step) ?_
        have := (hm 0 (by omega)).1
        rw [add_zero] at this
        omega
      obtain rfl := hfst hj hm (by omega)
      exact hlt (hm k hcur).1

theorem findExtent_start (test : ℕ → ℕ → Bool) (start stop : ℕ) (hstep : 0 < step)
    (hsize : 0 < sizeAdj) :
    Searched test sizeAdj step start stop
      (findExtent test sizeAdj step stop (stop - start + 1) start 0 none) := by
  have h := @findExtent_spec test sizeAdj step start stop (stop - start + 1) 0 0 none hstep (by simp)
    (by simpa using hsize) (fun h => absurd rfl h) (fun m hm => absurd hm (not_lt_zero m))
    not_taken_zero fun j hj => absurd hj (not_lt_zero j)
  simpa only [zero_mul, add_zero] using h

theorem mapped_iff_run : Mapped (fun v _ => free v) sizeAdj step start stop i ↔
    Run free sizeAdj step stop (start + i * step) := by
  simp only [Mapped, Run, add_mul, add_assoc]

theorem exists_not_taken (h : Mapped (fun v _ => free v) sizeAdj step start stop i) :
    ∃ j ≤ i, ¬Taken (fun v _ => free v) step start j ∧ Mapped (fun v _ => free v) sizeAdj step start stop j := by
  by_cases hi : Taken (fun v _ => free v) step start i
  · rw [Taken] at hi
    obtain ⟨⟨j, hj⟩, hj', hall⟩ := hi
    refine ⟨j, hj.le, hj', fun m hm => ?_⟩
    have hlt (m : ℕ) (hm : m * step < sizeAdj) := (h m hm).1
    by_cases hmi : j + m < i
    · refine ⟨?_, hall m hmi⟩
      have hle : (j + m) * step ≤ i * step := mul_le_mul_right step hmi.le
      have := hlt 0 (by omega)
      rw [add_zero] at this
      omega
    · have hle : (j + m - i) * step ≤ m * step := mul_le_mul_right step (by omega)
      have := h (j + m - i) (by omega)
      rwa [Nat.add_sub_cancel' (by omega)] at this
  · exact ⟨i, le_refl i, hi, h⟩

end Search

theorem findUnmapped_first (L : Layout) (s : State A) {sizeAdj step start : ℕ} (hstep : 0 < step)
    (hsize : 0 < sizeAdj) (hd : step ∣ start) (stop : ℕ) :
    (∀ c, findUnmapped L s sizeAdj step start stop = some c →
      First (L.free s.ready s.table) sizeAdj step start stop c) ∧
    (findUnmapped L s sizeAdj step start stop = none →
      ∀ c', start ≤ c' → step ∣ c' → ¬Run (L.free s.ready s.table) sizeAdj step stop c') := by
  have h : Searched (fun virt _ => L.free s.ready s.table virt) sizeAdj step start stop
      (findUnmapped L s sizeAdj step start stop) := findExtent_start _ start stop hstep hsize
  have hpage {c : ℕ} (hle : start ≤ c) (hc : step ∣ c) : ∃ j, c = start + j * step := by
    obtain ⟨j, hj⟩ := dvd_sub hc hd
    exact ⟨j, by rw [Nat.mul_comm, ← hj, Nat.add_sub_cancel' hle]⟩
  refine ⟨fun c hc => ?_, fun hc c' hle hc' hr => ?_⟩
  · rw [hc] at h
    obtain ⟨j, rfl, -, hm, hfirst⟩ := h
    refine ⟨Nat.le_add_right .., Nat.dvd_add hd (Nat.dvd_mul_left ..), mapped_iff_run.mp hm,
      fun c' hle hc' hlt hr => ?_⟩
    obtain ⟨j', rfl⟩ := hpage hle hc'
    obtain ⟨i, hi, hi', hmi⟩ := exists_not_taken (mapped_iff_run.mpr hr)
    have hj : j' < j := Nat.lt_of_mul_lt_mul_right (a := step) (by omega)
    exact hfirst i (by omega) hi' hmi
  · rw [hc] at h
    obtain ⟨j', rfl⟩ := hpage hle hc'
    obtain ⟨i, -, hi', hmi⟩ := exists_not_taken (mapped_iff_run.mpr hr)
    exact h i hi' hmi

theorem findMapped_sound {L : Layout} {compatible : A → A → Bool} {s : State A} {attr : A}
    {physAdj sizeAdj step start stop c : ℕ} (hstep : 0 < step) (hsize : 0 < sizeAdj) (hd : step ∣ start)
    (h : findMapped L compatible s attr physAdj sizeAdj step start stop = some c) :
    start ≤ c ∧ step ∣ c ∧ ∀ j, j * step < sizeAdj → c + j * step < stop ∧
      L.maps compatible s.ready s.table attr (physAdj + j * step) (c + j * step) = true := by
  have hspec : Searched _ sizeAdj step start stop
      (findMapped L compatible s attr physAdj sizeAdj step start stop) :=
    findExtent_start _ start stop hstep hsize
  rw [h] at hspec
  obtain ⟨j, rfl, -, hm, -⟩ := hspec
  refine ⟨Nat.le_add_right .., Nat.dvd_add hd (Nat.dvd_mul_left ..), fun m hlt => ?_⟩
  rw [add_assoc, ← add_mul]
  exact hm m hlt

/-- The search finds an extent whenever there is one if and only if one of them begins at a page that
no earlier attempt takes. What it finds is always such an extent. -/
theorem findMapped_complete_iff (L : Layout) (compatible : A → A → Bool) (s : State A) (attr : A)
    {physAdj sizeAdj step start stop : ℕ} (hstep : 0 < step) (hsize : 0 < sizeAdj) :
    let test := fun virt cur => L.maps compatible s.ready s.table attr (physAdj + cur) virt
    let found := findMapped L compatible s attr physAdj sizeAdj step start stop
    ((∀ c, found = some c → ∃ j, c = start + j * step ∧ Mapped test sizeAdj step start stop j) ∧
        ((∃ j, Mapped test sizeAdj step start stop j) → found ≠ none)) ↔
      ((∃ j, Mapped test sizeAdj step start stop j) →
        ∃ j, Mapped test sizeAdj step start stop j ∧ ¬Taken test step start j) := by
  intro test found
  have h : Searched test sizeAdj step start stop found := findExtent_start test start stop hstep hsize
  cases hf : found with
  | none =>
    rw [hf] at h
    simp only [reduceCtorEq, false_implies, implies_true, ne_eq, not_true_eq_false, true_and]
    exact imp_congr_right fun _ => ⟨False.elim, fun ⟨j, hm, hj⟩ => h j hj hm⟩
  | some c =>
    rw [hf] at h
    obtain ⟨j, hc, hj, hm, -⟩ := h
    exact ⟨fun _ _ => ⟨j, hm, hj⟩, fun _ => ⟨fun c' hc' => ⟨j, by rw [← some.inj hc', hc], hm⟩,
      fun _ => some_ne_none c⟩⟩

variable {L : Layout}

section Sizes

variable {lv x p : ℕ}

namespace Layout

section

variable (L : Layout) (ready : Bool)

theorem pageSize_pos (lv : ℕ) : 0 < L.pageSize lv := Nat.two_pow_pos _

theorem base_dvd (lv : ℕ) : 2 ^ L.base ∣ L.pageSize lv :=
  pow_dvd_pow 2 (le_add_left _ _)

theorem levels_le : L.levels ready ≤ L.below.length := by
  unfold levels
  split
  · exact le_refl _
  · exact L.super_le

theorem pageSize_ready : L.pageSize (L.levels true) = 2 ^ L.base := by
  simp [pageSize, levels, L.leaf_shift]

theorem pageSize_dvd :
    L.pageSize (L.levels ready) ∣ 2 ^ (pageShift L.super (L.root :: L.below) + L.base) := by
  cases ready with
  | true =>
    rw [pageSize_ready]
    exact pow_dvd_pow 2 (le_add_left _ _)
  | false => exact dvd_refl _

theorem pageSize_stop : L.pageSize (L.levels ready) ∣ L.stop :=
  (L.pageSize_dvd ready).trans L.stop_dvd

theorem pageSize_start : L.pageSize (L.levels ready) ∣ L.start :=
  (L.pageSize_dvd ready).trans L.start_dvd

theorem pageSize_word :
    L.stop + L.pageSize (L.levels ready) ≤ 2 ^ L.word :=
  (Nat.add_le_add_left (Nat.le_of_dvd (Nat.two_pow_pos _) (L.pageSize_dvd ready)) _).trans L.stop_word

end

theorem ceil_spec (hp : 0 < p) (hx : x + p ≤ 2 ^ L.word) :
    p ∣ L.ceil p x ∧ x ≤ L.ceil p x ∧ L.ceil p x < x + p := by
  have hmod : (x + (p - 1)) % 2 ^ L.word = x + (p - 1) := mod_eq_of_lt (by omega)
  refine ⟨dvd_mul_left _ _, ?_⟩
  rw [ceil, hmod]
  have hdm := div_add_mod' (x + (p - 1)) p
  have hlt := mod_lt (x + (p - 1)) hp
  omega

theorem ceil_of_dvd (hp : 0 < p) (hx : x + p ≤ 2 ^ L.word) (hd : p ∣ x) : L.ceil p x = x := by
  obtain ⟨hd', hle, hlt⟩ := ceil_spec hp hx
  have hsub : p ∣ L.ceil p x - x := dvd_sub hd' hd
  have hzero := eq_zero_of_dvd_of_lt hsub (by omega)
  omega

theorem div_pageSize (L : Layout) (lv x : ℕ) :
    x / 2 ^ L.base / 2 ^ pageShift lv (L.root :: L.below) = x / L.pageSize lv := by
  rw [Nat.div_div_eq_div_mul, ← pow_add, Nat.add_comm]
  rfl

theorem le_fuel (L : Layout) (d : Ldesc) (hd : d ∈ L.root :: L.below) : 2 * d.length ≤ L.fuel :=
  le_sum_of_mem (mem_map_of_mem hd)

end Layout

theorem extent_spec {q : Request A} {ready : Bool}
    (hw : q.phys + q.size + L.pageSize (L.levels ready) ≤ 2 ^ L.word) :
    (L.extent ready q).step ∣ (L.extent ready q).sizeAdj ∧
      (L.extent ready q).offset + q.size ≤ (L.extent ready q).sizeAdj ∧
      (L.extent ready q).physAdj + (L.extent ready q).offset = q.phys := by
  have hp := L.pageSize_pos (L.levels ready)
  have hoff : q.phys % L.pageSize (L.levels ready) ≤ q.phys := mod_le _ _
  have hsum : (q.phys % L.pageSize (L.levels ready) + q.size) % 2 ^ L.word =
      q.phys % L.pageSize (L.levels ready) + q.size := mod_eq_of_lt (by omega)
  obtain ⟨hd, hle, -⟩ := Layout.ceil_spec (L := L) hp
    (show q.phys % L.pageSize (L.levels ready) + q.size + L.pageSize (L.levels ready) ≤ 2 ^ L.word by omega)
  simp only [Layout.extent, hsum]
  exact ⟨hd, hle, div_add_mod' _ _⟩

end Sizes

variable {compatible : A → A → Bool} {t t' : Table (Page A)} {m : Mapping A} {q : Request A}
  {s : State A}

section Pages

variable {ready : Bool} {virt sizeAdj stop : ℕ} {c v n : ℕ}

theorem pte_page {o : ℕ} (hv : L.pageSize (L.levels ready) ∣ virt) :
    walk L.walker (L.levels ready) (L.root :: L.below) t ((virt + o) / 2 ^ L.base) =
      L.pte ready t (virt + o / L.pageSize (L.levels ready) * L.pageSize (L.levels ready)) := by
  refine walk_page L.tiled ?_
  have hp := L.pageSize_pos (L.levels ready)
  obtain ⟨c, rfl⟩ := hv
  rw [L.div_pageSize, L.div_pageSize, Nat.mul_add_div hp, Nat.mul_add_div hp, Nat.mul_div_cancel _ hp]

theorem holds_of_pages (hv : L.pageSize (L.levels ready) ∣ virt)
    (hw : q.phys + q.size + L.pageSize (L.levels ready) ≤ 2 ^ L.word)
    (h : ∀ j, j * (L.extent ready q).step < (L.extent ready q).sizeAdj → ∃ p : Page A,
      L.pte ready t (virt + j * (L.extent ready q).step) = .ok (.leaf p, 0) ∧
        p.phys = (L.extent ready q).physAdj + j * (L.extent ready q).step ∧
        (p.attr = q.attr ∨ compatible p.attr q.attr = true)) :
    Holds L compatible t ⟨q, virt + (L.extent ready q).offset⟩ := by
  intro a ha
  obtain ⟨-, hsize, hphys⟩ := extent_spec hw
  set x := L.extent ready q
  have hstep : x.step = L.pageSize (L.levels ready) := rfl
  have hdm := div_add_mod' (x.offset + a) x.step
  obtain ⟨p, hp, hpa, hattr⟩ := h ((x.offset + a) / x.step) (by
    change a < q.size at ha
    omega)
  have hwalk := (pte_page (t := t) (o := x.offset + a) hv).trans hp
  refine ⟨p, L.below.length - L.levels ready, ?_, ?_, hattr⟩
  · rw [add_assoc]
    exact (translate_of_walk (L.levels_le ready) hwalk).1 p rfl rfl
  · have hlv : L.below.length - (L.below.length - L.levels ready) = L.levels ready := by
      have := L.levels_le ready
      omega
    change p.phys + (virt + x.offset + a) % _ = q.phys + a
    have hmod : (virt + (x.offset + a)) % x.step = (x.offset + a) % x.step := by
      obtain ⟨c, rfl⟩ := hv
      exact mul_add_mod ..
    rw [hlv, ← hstep, add_assoc virt, hmod, hpa]
    omega

structure Span (L : Layout) (lv c sizeAdj v n : ℕ) : Prop where
  start : c = v * 2 ^ L.base
  size : sizeAdj = n * 2 ^ L.base
  pos : 0 < n
  aligned : Aligned lv (L.root :: L.below) v
  alignedEnd : Aligned lv (L.root :: L.below) (v + n - 1 + 1)
  lt : v + n - 1 < L.root.span

theorem span_of_dvd {lv c : ℕ} (hc : L.pageSize lv ∣ c) (hs : L.pageSize lv ∣ sizeAdj)
    (hpos : 0 < sizeAdj) (hle : c + sizeAdj ≤ L.stop) :
    Span L lv c sizeAdj (c / 2 ^ L.base) (sizeAdj / 2 ^ L.base) := by
  have hb := Nat.two_pow_pos L.base
  have hpage : L.pageSize lv = 2 ^ pageShift lv (L.root :: L.below) * 2 ^ L.base := pow_add ..
  have hdvd : ∀ {x}, L.pageSize lv ∣ x → 2 ^ pageShift lv (L.root :: L.below) ∣ x / 2 ^ L.base := by
    intro x hx
    rw [hpage] at hx
    exact Nat.dvd_div_of_mul_dvd (by rwa [Nat.mul_comm])
  have hc' : c / 2 ^ L.base * 2 ^ L.base = c := Nat.div_mul_cancel ((L.base_dvd lv).trans hc)
  have hs' : sizeAdj / 2 ^ L.base * 2 ^ L.base = sizeAdj := Nat.div_mul_cancel ((L.base_dvd lv).trans hs)
  have hn : 0 < sizeAdj / 2 ^ L.base := by
    refine pos_of_ne_zero fun h => ?_
    rw [h] at hs'
    omega
  have hsum : 0 < c / 2 ^ L.base + sizeAdj / 2 ^ L.base := Nat.add_pos_right _ hn
  have hend : c / 2 ^ L.base + sizeAdj / 2 ^ L.base - 1 + 1 = c / 2 ^ L.base + sizeAdj / 2 ^ L.base :=
    Nat.sub_add_cancel hsum
  refine ⟨hc'.symm, hs'.symm, hn, hdvd hc, ?_, ?_⟩
  · rw [hend]
    exact Nat.dvd_add (hdvd hc) (hdvd hs)
  · have : (c / 2 ^ L.base + sizeAdj / 2 ^ L.base) * 2 ^ L.base ≤ L.root.span * 2 ^ L.base := by
      rw [Nat.add_mul, hc', hs']
      exact hle.trans L.stop_le
    exact sub_one_lt_of_le hsum (le_of_mul_le_mul_right this hb)

section Extents

variable {lv c v n : ℕ}

theorem Span.ordered (h : Span L lv c sizeAdj v n) :
    v % L.root.span ≤ (v + n - 1) % L.root.span := by
  have := h.pos
  rw [mod_eq_of_lt h.lt, mod_eq_of_lt (by have := h.lt; omega)]
  omega

theorem Span.in_iff (h : Span L lv c sizeAdj v n) {u : ℕ} (hu : u < L.root.span) :
    L.root.In v (v + n - 1) u ↔ v ≤ u ∧ u < v + n := by
  have := h.pos
  have := h.lt
  rw [Ldesc.In, mod_eq_of_lt h.lt, mod_eq_of_lt (show v < _ by omega), mod_eq_of_lt hu]
  omega

end Extents

theorem invalid_of_run (hc : L.pageSize (L.levels ready) ∣ c)
    (hsp : Span L (L.levels ready) c sizeAdj v n)
    (h : Run (L.free ready t) sizeAdj (L.pageSize (L.levels ready)) stop c) {u : ℕ} (hu : v ≤ u)
    (hlt : u < v + n) : ∃ k, walk L.walker (L.levels ready) (L.root :: L.below) t u = .ok (.invalid, k) := by
  have hb := Nat.two_pow_pos L.base
  have hu' : (c + (u - v) * 2 ^ L.base) / 2 ^ L.base = u := by
    rw [hsp.start, ← Nat.add_mul, Nat.mul_div_cancel _ hb]
    omega
  have hpage := pte_page (t := t) (o := (u - v) * 2 ^ L.base) hc
  rw [hu'] at hpage
  have hin : (u - v) * 2 ^ L.base < sizeAdj := by
    rw [hsp.size]
    exact mul_lt_mul_of_pos_right (by omega) hb
  have hfree := (h ((u - v) * 2 ^ L.base / L.pageSize (L.levels ready))
    (lt_of_le_of_lt (div_mul_le_self _ _) hin)).2
  rw [Layout.free, ← hpage] at hfree
  split at hfree
  · next k hk => exact ⟨k, hk⟩
  · simp at hfree

theorem mapExtent_eq (attr : A) (physAdj : ℕ) (al : Alloc)
    (hsp : Span L (L.levels s.ready) c sizeAdj v n) :
    ∃ al', mapExtent L s attr physAdj c sizeAdj al = mapLevels L.walker L.base
      (fun pa => ⟨pa, attr⟩) (L.levels s.ready) (L.root :: L.below) s.table al' physAdj v (v + n - 1) := by
  have hb := Nat.two_pow_pos L.base
  have hv : c / 2 ^ L.base = v := by rw [hsp.start, Nat.mul_div_cancel _ hb]
  have hn : sizeAdj / 2 ^ L.base = n := by rw [hsp.size, Nat.mul_div_cancel _ hb]
  have hroot : ¬(L.root.shift + L.root.size < 64 ∧ v / L.root.span ≠ (v + n - 1) / L.root.span) := by
    have := hsp.lt
    have := hsp.pos
    rw [div_eq_of_lt hsp.lt, div_eq_of_lt (by omega)]
    simp
  simp only [mapExtent, hv, hn, Layout.walker]
  cases L.iter with
  | true =>
    simp only [if_true, iterMap, if_neg hroot]
    exact ⟨_, rfl⟩
  | false => exact ⟨_, rfl⟩

theorem mapExtent_spec (attr : A) (physAdj : ℕ) (al : Alloc)
    (hc : L.pageSize (L.levels s.ready) ∣ c) (hsp : Span L (L.levels s.ready) c sizeAdj v n)
    (hrun : Run (L.free s.ready s.table) sizeAdj (L.pageSize (L.levels s.ready)) stop c) :
    ∃ r, mapExtent L s attr physAdj c sizeAdj al = .ok r ∧
      (∀ u, u < L.root.span → ¬(v ≤ u ∧ u < v + n) →
        translate (L.root :: L.below) r.table u = translate (L.root :: L.below) s.table u) ∧
      (r.size ≠ 0 → Fits (L.levels s.ready) (L.root :: L.below) v (v + n - 1) →
        ∀ j, j * L.pageSize (L.levels s.ready) < sizeAdj →
          L.pte s.ready r.table (c + j * L.pageSize (L.levels s.ready)) =
            .ok (.leaf ⟨physAdj + j * L.pageSize (L.levels s.ready), attr⟩, 0)) := by
  have hlen := L.levels_le s.ready
  have hinv : ∀ u, L.root.In v (v + n - 1) u →
      ∃ k, walk L.walker (L.levels s.ready) (L.root :: L.below) s.table u = .ok (.invalid, k) := by
    intro u hu
    have hmod : u % L.root.span < L.root.span := Nat.mod_lt _ (Nat.two_pow_pos _)
    have hu' : L.root.In v (v + n - 1) (u % L.root.span) := by
      rwa [Ldesc.In, mod_mod]
    obtain ⟨h₀, h₁⟩ := (hsp.in_iff hmod).mp hu'
    obtain ⟨k, hk⟩ := invalid_of_run hc hsp hrun h₀ h₁
    exact ⟨k, by rw [← hk, walk_congr L.tiled (mod_mod _ _)]⟩
  have hnopage := noPage_of_invalid L.tiled hlen hsp.ordered hinv
  obtain ⟨al', heq⟩ := mapExtent_eq attr physAdj al hsp
  obtain ⟨r, hr⟩ : ∃ r, mapLevels L.walker L.base (fun pa => (⟨pa, attr⟩ : Page A)) (L.levels s.ready)
      (L.root :: L.below) s.table al' physAdj v (v + n - 1) = .ok r :=
    mapLevels_ok L.tiled hlen hsp.ordered (hnopage.mono fun _ _ => rfl)
  refine ⟨r, heq.trans hr, fun u hu hout => ?_, fun hsize hfits j hj => ?_⟩
  · exact translate_mapLevels L.tiled hlen hsp.aligned hsp.alignedEnd hsp.ordered hr
      (by rwa [hsp.in_iff hu])
  · have hpos := hsp.pos
    have hb := Nat.two_pow_pos L.base
    have hinj : Function.Injective fun pa => (⟨pa, attr⟩ : Page A) := fun a b hab => congrArg Page.phys hab
    have hmaps := (mapsRange_iff hinj L.tiled hlen hsp.aligned hsp.alignedEnd
      (show v ≤ v + n - 1 by omega) hsp.lt hr hsize).mpr hfits
    have hpage : L.pageSize (L.levels s.ready) =
        2 ^ pageShift (L.levels s.ready) (L.root :: L.below) * 2 ^ L.base := pow_add ..
    generalize hk : 2 ^ pageShift (L.levels s.ready) (L.root :: L.below) = k at hpage
    rw [hpage, ← mul_assoc] at hj ⊢
    have hjn : j * k < n := by
      rw [hsp.size] at hj
      exact Nat.lt_of_mul_lt_mul_right hj
    have hu : (c + j * k * 2 ^ L.base) / 2 ^ L.base = v + j * k := by
      rw [hsp.start, ← Nat.add_mul, Nat.mul_div_cancel _ hb]
    have halign : (v + j * k) % k = 0 := by
      have : k ∣ v := hk ▸ hsp.aligned
      exact mod_eq_zero_of_dvd (dvd_add this (dvd_mul_left k j))
    have hin := hmaps.inside (v + j * k) (by omega) (by omega)
    rw [hk, halign, Nat.sub_zero, Nat.add_sub_cancel_left] at hin
    rw [Layout.pte, hu, hin]

end Pages

section Calls

variable {al : Alloc} {c sizeAdj : ℕ}

structure Inv (L : Layout) (compatible : A → A → Bool) (s : State A) : Prop where
  good : Good L compatible s
  window : ∀ m ∈ s.live, 0 < m.size ∧ L.start ≤ m.ptr ∧ m.ptr + m.size ≤ L.stop
  start_le : L.start ≤ s.current
  le_stop : s.current ≤ L.stop
  dvd : L.pageSize (L.levels s.ready) ∣ s.current

theorem Holds.frame (h : Holds L compatible t m)
    (hframe : ∀ a < m.size, translate (L.root :: L.below) t' ((m.ptr + a) / 2 ^ L.base) =
      translate (L.root :: L.below) t ((m.ptr + a) / 2 ^ L.base)) : Holds L compatible t' m := by
  intro a ha
  obtain ⟨p, level, hp, hrest⟩ := h a ha
  exact ⟨p, level, (hframe a ha).trans hp, hrest⟩

theorem vpn_lt (hw : m.ptr + m.size ≤ L.stop) {a : ℕ} (ha : a < m.size) :
    (m.ptr + a) / 2 ^ L.base < L.root.span := by
  have := L.stop_le
  exact Nat.div_lt_of_lt_mul (by rw [Nat.mul_comm]; omega)

theorem run_le {step stop : ℕ} (hstep : 0 < step) (hc : step ∣ c) (hstop : step ∣ stop)
    (hs : step ∣ sizeAdj) (hpos : 0 < sizeAdj) (h : ∀ j, j * step < sizeAdj → c + j * step < stop) :
    c + sizeAdj ≤ stop := by
  obtain ⟨n, rfl⟩ := hs
  obtain ⟨a, rfl⟩ := hc
  obtain ⟨b, rfl⟩ := hstop
  obtain ⟨n, rfl⟩ : ∃ n', n = n' + 1 := ⟨n - 1, by have := Nat.pos_of_mul_pos_left hpos; omega⟩
  have hlast := h n (by rw [mul_comm]; exact mul_lt_mul_of_pos_left (lt_succ_self n) hstep)
  rw [mul_comm n, ← mul_add] at hlast
  rw [← mul_add]
  exact Nat.mul_le_mul_left step (Nat.lt_of_mul_lt_mul_left hlast)

section

variable (h : Inv L compatible s)
include h

theorem Inv.enter (hpos : 0 < q.size)
    (hw : q.phys + q.size + L.pageSize (L.levels s.ready) ≤ 2 ^ L.word) (hstart : L.start ≤ c)
    (hend : c + (L.extent s.ready q).sizeAdj ≤ L.stop)
    (hq : Holds L compatible s.table ⟨q, c + (L.extent s.ready q).offset⟩) :
    Inv L compatible (s.enter q (c + (L.extent s.ready q).offset)) := by
  obtain ⟨-, hsize, -⟩ := extent_spec hw
  refine ⟨⟨fun m hm => ?_, h.good.running⟩, fun m hm => ?_, h.start_le, h.le_stop, h.dvd⟩
  · rcases mem_cons.mp hm with rfl | hm
    · exact hq
    · exact h.good.holds m hm
  · rcases mem_cons.mp hm with rfl | hm
    · refine ⟨hpos, le_add_right_of_le hstart, ?_⟩
      change c + _ + q.size ≤ L.stop
      omega
    · exact h.window m hm

theorem Inv.table
    (ht : ∀ u, u < L.root.span → translate (L.root :: L.below) s.table u ≠ none →
      translate (L.root :: L.below) t u = translate (L.root :: L.below) s.table u) :
    Inv L compatible { s with table := t } := by
  refine ⟨⟨fun m hm => (h.good.holds m hm).frame fun a ha => ?_, h.good.running⟩, h.window, h.start_le,
    h.le_stop, h.dvd⟩
  obtain ⟨p, level, hp, -⟩ := h.good.holds m hm a ha
  exact ht _ (vpn_lt (h.window m hm).2.2 ha) (by simp [hp])

theorem Inv.chosen (hsize : 0 < (L.extent s.ready q).sizeAdj)
    (hc : (findUnmapped L s (L.extent s.ready q).sizeAdj (L.extent s.ready q).step s.current L.stop).or
      (findUnmapped L s (L.extent s.ready q).sizeAdj (L.extent s.ready q).step L.start s.current) =
        some c) : Chosen L s q c := by
  have hstep : 0 < (L.extent s.ready q).step := L.pageSize_pos _
  have hfirst := findUnmapped_first L s hstep hsize h.dvd L.stop
  rcases or_eq_some_iff.mp hc with hc | ⟨hnone, hc⟩
  · exact .inl (hfirst.1 c hc)
  · exact .inr ⟨hfirst.2 hnone,
      (findUnmapped_first L s hstep hsize (L.pageSize_start s.ready) s.current).1 c hc⟩

theorem Inv.place (hpos : 0 < q.size)
    (hw : q.phys + q.size + L.pageSize (L.levels s.ready) ≤ 2 ^ L.word)
    {stop : ℕ} (hstop : L.pageSize (L.levels s.ready) ∣ stop) (hle : stop ≤ L.stop) (hstart : L.start ≤ c)
    (hdvd : L.pageSize (L.levels s.ready) ∣ c)
    (hrun : Run (L.free s.ready s.table) (L.extent s.ready q).sizeAdj (L.pageSize (L.levels s.ready)) stop c)
    (hfits : Fits (L.levels s.ready) (L.root :: L.below) (c / 2 ^ L.base)
      (c / 2 ^ L.base + (L.extent s.ready q).sizeAdj / 2 ^ L.base - 1)) :
    ∃ r, mapExtent L s q.attr (L.extent s.ready q).physAdj c (L.extent s.ready q).sizeAdj al = .ok r ∧
      Inv L compatible { s with table := r.table } ∧ (r.size ≠ 0 → Inv L compatible
        (State.enter { s with table := r.table, current := c + (L.extent s.ready q).sizeAdj } q
          (c + (L.extent s.ready q).offset))) := by
  obtain ⟨hsize, hoff, -⟩ := extent_spec hw
  have hspos : 0 < (L.extent s.ready q).sizeAdj := by omega
  have hend := run_le (L.pageSize_pos _) hdvd hstop hsize hspos fun j hj => (hrun j hj).1
  have hsp := span_of_dvd hdvd hsize hspos (hend.trans hle)
  obtain ⟨r, hr, hframe, hpages⟩ :=
    mapExtent_spec q.attr (L.extent s.ready q).physAdj al hdvd hsp hrun
  have hinv : Inv L compatible { s with table := r.table } := by
    refine h.table fun u hu hsome => hframe u hu fun hin => hsome ?_
    obtain ⟨k, hk⟩ := invalid_of_run hdvd hsp hrun hin.1 hin.2
    exact (translate_of_walk (L.levels_le s.ready) hk).2 rfl
  refine ⟨r, hr, hinv, fun hsz => ?_⟩
  have hcur : Inv L compatible
      { s with table := r.table, current := c + (L.extent s.ready q).sizeAdj } :=
    ⟨⟨hinv.good.holds, hinv.good.running⟩, hinv.window, le_add_right_of_le hstart, hend.trans hle,
      dvd_add hdvd hsize⟩
  refine hcur.enter hpos hw hstart (hend.trans hle) (holds_of_pages hdvd hw fun j hj => ?_)
  exact ⟨_, hpages hsz hfits j hj, rfl, .inl rfl⟩

theorem Inv.map (hc : Careful L s (.map q al)) : Inv L compatible (map L compatible s q al) := by
  obtain ⟨hpos, hw, hfits⟩ := hc
  have hp := L.pageSize_pos (L.levels s.ready)
  have hword := L.pageSize_word s.ready
  have hstart : L.ceil (L.extent s.ready q).step L.start = L.start :=
    Layout.ceil_of_dvd hp ((Nat.add_le_add_right L.start_le _).trans hword) (L.pageSize_start s.ready)
  have hnext : L.ceil (L.extent s.ready q).step s.current = s.current :=
    Layout.ceil_of_dvd hp ((Nat.add_le_add_right h.le_stop _).trans hword) h.dvd
  have hstop : L.stop / (L.extent s.ready q).step * (L.extent s.ready q).step = L.stop :=
    Nat.div_mul_cancel (L.pageSize_stop s.ready)
  obtain ⟨hsize, hoff, -⟩ := extent_spec hw
  have hspos : 0 < (L.extent s.ready q).sizeAdj := by omega
  simp only [KmemMmio.map, hstart, hnext, hstop]
  split
  · next c hfound =>
    obtain ⟨hle, hdvd, hpages⟩ := findMapped_sound hp hspos (L.pageSize_start s.ready) hfound
    have hend := run_le hp hdvd (L.pageSize_stop s.ready) hsize hspos fun j hj => (hpages j hj).1
    refine h.enter hpos hw hle hend (holds_of_pages hdvd hw fun j hj => ?_)
    have hmaps := (hpages j hj).2
    rw [Layout.maps] at hmaps
    split at hmaps
    · next p hp =>
      simp only [Bool.and_eq_true, decide_eq_true_eq] at hmaps
      exact ⟨p, hp, hmaps.1, .inr hmaps.2⟩
    · simp at hmaps
  · split
    · exact h
    · next c hfound =>
      have hchosen := h.chosen hspos hfound
      obtain ⟨r, hr, hinv, hnew⟩ : ∃ r, mapExtent L s q.attr (L.extent s.ready q).physAdj c
          (L.extent s.ready q).sizeAdj al = .ok r ∧ Inv L compatible { s with table := r.table } ∧
          (r.size ≠ 0 → Inv L compatible
            (State.enter { s with table := r.table, current := c + (L.extent s.ready q).sizeAdj } q
              (c + (L.extent s.ready q).offset))) := by
        have hfit := hfits c hchosen
        rcases hchosen with hfirst | ⟨-, hfirst⟩
        · exact h.place hpos hw (L.pageSize_stop s.ready) (le_refl _) (h.start_le.trans hfirst.le)
            hfirst.dvd hfirst.run hfit
        · exact h.place hpos hw h.dvd h.le_stop hfirst.le hfirst.dvd hfirst.run hfit
      simp only [hr]
      split
      · exact hinv
      · next hsz => exact hnew hsz

end

theorem exists_offset {p ptr size n u : ℕ} (hp : 0 < p) (hpos : 0 < size)
    (hn : n * p < ptr % p + size + p) (hle : ptr / p ≤ u) (hlt : u < ptr / p + n) :
    ∃ a < size, (ptr + a) / p = u := by
  by_cases hu : u = ptr / p
  · exact ⟨0, hpos, hu.symm⟩
  · have hdm := div_add_mod' ptr p
    have hmod := mod_lt ptr hp
    have hlow : (ptr / p + 1) * p ≤ u * p := mul_le_mul_right p (by omega)
    have hhigh : (u + 1) * p ≤ (ptr / p + n) * p := mul_le_mul_right p (by omega)
    rw [add_mul] at hlow
    rw [add_mul, add_mul] at hhigh
    refine ⟨u * p - ptr, by omega, ?_⟩
    rw [Nat.add_sub_cancel' (by omega), Nat.mul_div_cancel _ hp]

theorem unmap_range (hpos : 0 < m.size) (hstart : L.start ≤ m.ptr) (hend : m.ptr + m.size ≤ L.stop) :
    L.start ≤ m.ptr / 2 ^ L.base * 2 ^ L.base ∧
      m.ptr / 2 ^ L.base * 2 ^ L.base + L.ceil (2 ^ L.base) (m.ptr % 2 ^ L.base + m.size) ≤ L.stop ∧
      ∃ n, Span L L.below.length (m.ptr / 2 ^ L.base * 2 ^ L.base)
          (L.ceil (2 ^ L.base) (m.ptr % 2 ^ L.base + m.size)) (m.ptr / 2 ^ L.base) n ∧
        ∀ u, m.ptr / 2 ^ L.base ≤ u → u < m.ptr / 2 ^ L.base + n →
          ∃ a < m.size, (m.ptr + a) / 2 ^ L.base = u := by
  have hp := Nat.two_pow_pos L.base
  have hps : L.pageSize L.below.length = 2 ^ L.base := L.pageSize_ready
  have hword := L.pageSize_word true
  have hdvd := L.pageSize_stop true
  have hdvd₀ := L.pageSize_start true
  have hspan {x : ℕ} : 2 ^ L.base ∣ x → 0 < x → m.ptr / 2 ^ L.base * 2 ^ L.base + x ≤ L.stop →
      Span L L.below.length (m.ptr / 2 ^ L.base * 2 ^ L.base) x (m.ptr / 2 ^ L.base) (x / 2 ^ L.base) := by
    intro hx h₀ h₁
    have := span_of_dvd (L := L) (by rw [hps]; exact Nat.dvd_mul_left ..) (by rwa [hps]) h₀ h₁
    rwa [Nat.mul_div_cancel _ hp] at this
  rw [L.pageSize_ready] at hword hdvd hdvd₀
  generalize 2 ^ L.base = p at *
  have hdm := div_add_mod' m.ptr p
  obtain ⟨hsd, hsize, hlt⟩ := Layout.ceil_spec (L := L) hp (x := m.ptr % p + m.size) (by omega)
  have hle : m.ptr / p * p + L.ceil p (m.ptr % p + m.size) ≤ L.stop :=
    le_of_lt_add_of_dvd (by omega) (Nat.dvd_add (Nat.dvd_mul_left ..) hsd) hdvd
  refine ⟨?_, hle, _, hspan hsd (by omega) hle, fun u hu hu' => exists_offset hp hpos ?_ hu hu'⟩
  · rw [← Nat.div_mul_cancel hdvd₀]
    exact Nat.mul_le_mul_right p (Nat.div_le_div_right hstart)
  · rwa [Nat.div_mul_cancel hsd]

theorem Inv.unmap {k : ℕ} (h : Inv L compatible s) (hc : Careful L s (.unmap k)) :
    Inv L compatible (unmap L s k) := by
  rw [KmemMmio.unmap]
  split
  · exact h
  · next m hm =>
    obtain ⟨hpages, hother⟩ := hc m hm
    obtain ⟨hpos, hstart, hend⟩ := h.window m (mem_of_getElem? hm)
    obtain ⟨hge, hle, n, hsp, hoff⟩ := unmap_range hpos hstart hend
    have hp := Nat.two_pow_pos L.base
    have hn : L.ceil (2 ^ L.base) (m.ptr % 2 ^ L.base + m.size) / 2 ^ L.base = n := by
      rw [hsp.size, Nat.mul_div_cancel _ hp]
    have hroot : m.ptr / 2 ^ L.base / L.root.span =
        (m.ptr / 2 ^ L.base + n - 1) / L.root.span := by
      have := hsp.lt
      have := hsp.pos
      rw [div_eq_of_lt hsp.lt, div_eq_of_lt (by omega)]
    obtain ⟨t', ht', hframe⟩ := translate_unmap L.iter L.tiled L.le_fuel hsp.ordered hroot hsp.aligned
      hsp.alignedEnd (t := s.table) fun u hu => by
        have hmod : u % L.root.span < L.root.span := Nat.mod_lt u (Nat.two_pow_pos _)
        obtain ⟨h₀, h₁⟩ := (hsp.in_iff hmod).mp (by rwa [Ldesc.In, mod_mod])
        obtain ⟨a, ha, hau⟩ := hoff _ h₀ h₁
        obtain ⟨p, hp⟩ := hpages a ha
        exact ⟨p, by rw [← hp, hau, translate_congr L.tiled (mod_mod u _)]⟩
    simp only [Nat.mul_div_cancel _ hp, hn]
    rw [if_neg (by simp only [not_or, not_lt]; exact ⟨hge, hle⟩), ht']
    refine ⟨⟨fun m' hm' => ?_, h.good.running⟩,
      fun m' hm' => h.window m' (mem_of_mem_eraseIdx hm'), h.start_le, h.le_stop, h.dvd⟩
    obtain ⟨j, hj, hjm⟩ := mem_eraseIdx_iff_getElem?.mp hm'
    have hmem := mem_of_getElem? hjm
    refine (h.good.holds m' hmem).frame fun a' ha' => hframe _ fun hin => ?_
    obtain ⟨h₀, h₁⟩ := (hsp.in_iff (vpn_lt (h.window m' hmem).2.2 ha')).mp hin
    obtain ⟨a, ha, hau⟩ := hoff _ h₀ h₁
    exact hother j m' hj hjm a ha a' ha' hau

theorem Inv.ready (h : Inv L compatible s) : Inv L compatible { s with ready := true } := by
  refine ⟨⟨h.good.holds, h.good.running⟩, h.window, h.start_le, h.le_stop, ?_⟩
  rw [L.pageSize_ready]
  exact (L.base_dvd _).trans h.dvd

theorem Inv.step {a : Act A} (h : Inv L compatible s) (hc : Careful L s a) :
    Inv L compatible (step L compatible s a) := by
  cases a with
  | map q al => exact h.map hc
  | unmap k => exact h.unmap hc
  | ready => exact h.ready

theorem inv_boot (ready : Bool) : Inv L compatible (boot L t ready) where
  good := ⟨fun _ hm => (by cases hm), rfl⟩
  window _ hm := by cases hm
  start_le := le_refl _
  le_stop := L.start_le
  dvd := L.pageSize_start ready

theorem holds_of_careful {as : List (Act A)} {ready : Bool}
    (h : Machine.Along (step L compatible) (Careful L) (boot L t ready) as) :
    Machine.Along (step L compatible) (fun s a => Good L compatible (step L compatible s a))
      (boot L t ready) as :=
  h.imp (fun _ _ => Inv.step) (fun _ _ hs hc => (hs.step hc).good) (inv_boot ready)

end Calls

def small : Layout where
  iter := false
  root := ⟨1, 1, true⟩
  below := [⟨0, 1, false⟩]
  super := 0
  base := 2
  word := 8
  start := 0
  stop := 16
  tiled := by simp [Tiled]
  leaf_shift := rfl
  super_le := zero_le _
  start_dvd := by decide
  stop_dvd := by decide
  start_le := by decide
  stop_le := by decide
  stop_word := by decide

theorem careful_small {s : State Bool} {q : Request Bool} {al : Alloc} (hq : 0 < q.size)
    (hw : q.phys + q.size + small.pageSize (small.levels s.ready) ≤ 2 ^ small.word) (hr : s.ready = true) :
    Careful small s (.map q al) := by
  refine ⟨hq, hw, fun c _ => ?_⟩
  rw [hr]
  exact ⟨fun _ _ _ => trivial, fun _ _ _ => trivial⟩

theorem holds_two_requests : Machine.Along (step small (· == ·))
    (fun s a => Good small (· == ·) (step small (· == ·) s a)) (boot small empty true)
    [.map ⟨100, 3, false⟩ ⟨true, [true]⟩, .map ⟨109, 6, false⟩ ⟨true, [true]⟩, .unmap 0] := by
  refine holds_of_careful ⟨careful_small (by decide) (by decide) rfl,
    careful_small (by decide) (by decide) rfl, fun m hm => ?_, trivial⟩
  obtain rfl : ⟨⟨109, 6, false⟩, 5⟩ = m := some.inj hm
  refine ⟨fun a ha => ?_, fun j m' hj hm' a ha a' ha' => ?_⟩
  · change a < 6 at ha
    change ∃ p, Ptab.translate _ _ ((5 + a) / 2 ^ 2) = some (p, 0)
    rcases (by omega : (5 + a) / 2 ^ 2 = 1 ∨ (5 + a) / 2 ^ 2 = 2) with h | h
    · exact ⟨⟨108, false⟩, by rw [h]; rfl⟩
    · exact ⟨⟨112, false⟩, by rw [h]; rfl⟩
  · match j, hj, hm' with
    | 1, _, hm' =>
      obtain rfl : ⟨⟨100, 3, false⟩, 0⟩ = m' := some.inj hm'
      -- the first mapping is in page 0
      change a' < 3 at ha'
      change (5 + a) / 2 ^ 2 ≠ (0 + a') / 2 ^ 2
      omega

theorem not_holds_shared : ¬Machine.Along (step small (· == ·))
    (fun s a => Good small (· == ·) (step small (· == ·) s a)) (boot small empty true)
    [.map ⟨100, 3, false⟩ ⟨true, [true]⟩, .map ⟨100, 3, false⟩ ⟨true, [true]⟩, .unmap 0] := by
  intro h
  obtain ⟨p, level, hp, -⟩ := h.2.2.1.holds ⟨⟨100, 3, false⟩, 0⟩ (.head _) 0 (by decide)
  cases hp

theorem complete_mapped : (0 < 4 ∧ 0 < 8) ∧
    findMapped small (· == ·) (Machine.run (step small (· == ·)) (boot small empty true)
      [.map ⟨100, 6, false⟩ ⟨true, [true]⟩, .map ⟨104, 3, true⟩ ⟨true, [true]⟩]) false 100 8 4 0 16 ≠
      none := by
  refine ⟨by decide, ((findMapped_complete_iff small (· == ·) _ false (by decide) (by decide)).mpr
    fun h => ?_).2 ⟨0, fun m hm => ?_⟩⟩
  · refine ⟨0, fun m hm => ?_, not_taken_zero⟩
    rcases (by omega : m = 0 ∨ m = 1) with rfl | rfl <;> decide +kernel
  · rcases (by omega : m = 0 ∨ m = 1) with rfl | rfl <;> decide +kernel

/-- The first page of the memory is mapped alone, and right after it all of the memory. -/
theorem not_complete_partial :
    let s := Machine.run (step small (· == ·)) (boot small empty true)
      [.map ⟨100, 3, false⟩ ⟨true, [true]⟩, .map ⟨100, 6, false⟩ ⟨true, [true]⟩]
    ¬((∃ j, Mapped (fun virt cur => small.maps (· == ·) s.ready s.table false (100 + cur) virt) 8 4 0 16
        j) → findMapped small (· == ·) s false 100 8 4 0 16 ≠ none) := by
  intro s h
  refine h ⟨1, fun m hm => ?_⟩ (by decide +kernel)
  rcases (by omega : m = 0 ∨ m = 1) with rfl | rfl <;> decide +kernel

end Fiasco.KmemMmio
