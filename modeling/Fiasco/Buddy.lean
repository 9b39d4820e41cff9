import Fiasco.Lib.Machine
import Fiasco.Lib.Tiling

/-!
# The buddy allocator

Memory is managed in blocks whose sizes are `Num_sizes` powers of two. The free blocks of a size are
in a list, and a bitmap has a bit for every block of the least size. A block that is freed is merged
with its buddy if the bit at the start of the buddy is set and the size that is stored there is that
of the block.
-/
namespace Fiasco.Buddy

open List Nat Function

open Tiling

structure Config where
  minLog2 : ℕ
  numSizes : ℕ
  minAddr : ℕ
  pos : 0 < numSizes
  word : minLog2 + numSizes ≤ 64

namespace Config

variable (c : Config)

def size (index : ℕ) : ℕ := 2 ^ (c.minLog2 + index)

def minSize : ℕ := c.size 0

def maxSize : ℕ := c.size (c.numSizes - 1)

def base : ℕ := c.minAddr / c.maxSize * c.maxSize

def bit (a : ℕ) : ℕ := (a - c.base) / c.minSize

def sizeIndex (size : ℕ) : Option ℕ := (range 64).find? fun i => ¬ c.size i % 2 ^ 64 < size

def block (a index : ℕ) : Block := ⟨a, c.minLog2 + index⟩

end Config

/-- The lists of the free blocks (`_free`), the free map, and what is in memory where a block has its
size index. -/
structure Alloc where
  lists : ℕ → List ℕ
  freeMap : ℕ → Bool
  index : ℕ → ℕ

namespace Alloc

variable (c : Config)

def boot (index : ℕ → ℕ) : Alloc := ⟨fun _ => [], fun _ => false, index⟩

def link (s : Alloc) (b idx : ℕ) : Alloc :=
  { s with
    lists := update s.lists idx (b :: s.lists idx)
    index := update s.index b idx }

def setBit (s : Alloc) (a : ℕ) (v : Bool) : Alloc :=
  { s with freeMap := update s.freeMap (c.bit a) v }

def remove (s : Alloc) (b : ℕ) : Alloc := { s with lists := fun i => (s.lists i).erase b }

def buddy (s : Alloc) (block index : ℕ) : Option (ℕ × ℕ) :=
  if index + 1 ≥ c.numSizes then none
  else
    let size := c.size index
    let newBlock := block / (size * 2) * (size * 2)
    let b := if newBlock = block then newBlock + size else newBlock
    if s.freeMap (c.bit b) ∧ s.index b = index then some (b, newBlock) else none

def coalesce : ℕ → Alloc → ℕ → ℕ → Alloc × ℕ × ℕ
  | 0, s, block, index => (s, block, index)
  | n + 1, s, block, index =>
    match s.buddy c block index with
    | some (b, newBlock) => coalesce n (s.remove b) newBlock (index + 1)
    | none => (s, block, index)

def freeBlock (s : Alloc) (block index : ℕ) : Option Alloc :=
  if block < c.base ∨ s.freeMap (c.bit block) then none
  else
    let r := coalesce c (c.numSizes - (index + 1)) s block index
    some ((r.1.link r.2.1 r.2.2).setBit c r.2.1 true)

def free (s : Alloc) (block size : ℕ) : Option Alloc :=
  (c.sizeIndex size).bind fun index => s.freeBlock c block index

def addBlocks : ℕ → ℕ → Alloc → Option Alloc
  | 0, _, s => some s
  | n + 1, a, s => (s.free c a c.minSize).bind (addBlocks n (a + c.minSize))

def alStart (b : ℕ) : ℕ := (b + c.minSize - 1) / c.minSize * c.minSize

def whole (b size : ℕ) : ℕ := (size - (alStart c b - b)) / c.minSize

def addMem (s : Alloc) (b size : ℕ) : Option Alloc :=
  if size ≤ alStart c b - b then some s else addBlocks c (whole c b size) (alStart c b) s

def split (s : Alloc) (b : ℕ) : ℕ → ℕ → Alloc
  | _, 0 => s
  | index, n + 1 =>
    split ((s.link (b + c.size index) index).setBit c (b + c.size index) true) b (index + 1) n

def allocFrom (s : Alloc) (index : ℕ) : ℕ → ℕ → Alloc × Option ℕ
  | 0, _ => (s, none)
  | n + 1, i =>
    match s.lists i with
    | [] => allocFrom s index n (i + 1)
    | f :: _ => ((((s.remove f).split c f index (i - index))).setBit c f false, some f)

/-- `none` is a call that does not return. -/
def alloc (s : Alloc) (size : ℕ) : Option (Alloc × Option ℕ) :=
  (c.sizeIndex size).map fun index => s.allocFrom c index (c.numSizes - index) index

def avail (s : Alloc) : ℕ :=
  (range c.numSizes).foldl (fun a i => (s.lists i).foldl (fun a _ => a + c.size i) a) 0

end Alloc

def freeBlocks (c : Config) (lists : ℕ → List ℕ) : ℕ → List Block
  | 0 => []
  | n + 1 => (lists n).map (c.block · n) ++ freeBlocks c lists n

section Lists

variable {c : Config} {lists lists' : ℕ → List ℕ} {n i a : ℕ}

theorem mem_freeBlocks {b : Block} :
    b ∈ freeBlocks c lists n ↔ ∃ i < n, ∃ a ∈ lists i, b = c.block a i := by
  induction n with
  | zero => simp [freeBlocks]
  | succ n ih =>
    rw [freeBlocks, mem_append, mem_map, ih]
    constructor
    · rintro (⟨a, ha, rfl⟩ | ⟨i, hi, a, ha, rfl⟩)
      · exact ⟨n, by omega, a, ha, rfl⟩
      · exact ⟨i, by omega, a, ha, rfl⟩
    · rintro ⟨i, hi, a, ha, rfl⟩
      rcases Nat.lt_succ_iff_lt_or_eq.mp hi with hi | rfl
      · exact .inr ⟨i, hi, a, ha, rfl⟩
      · exact .inl ⟨a, ha, rfl⟩

theorem freeBlocks_congr (h : ∀ j < n, lists j = lists' j) :
    freeBlocks c lists n = freeBlocks c lists' n := by
  induction n with
  | zero => rfl
  | succ n ih =>
    rw [freeBlocks, freeBlocks, h n (lt_succ_self n), ih fun j hj => h j (by omega)]

theorem freeBlocks_perm {xs : List ℕ} (hi : i < n) (h : (lists i).Perm (a :: xs)) :
    (freeBlocks c lists n).Perm (c.block a i :: freeBlocks c (update lists i xs) n) := by
  induction n with
  | zero => omega
  | succ n ih =>
    rw [freeBlocks, freeBlocks]
    rcases Nat.lt_succ_iff_lt_or_eq.mp hi with hlt | rfl
    · rw [update_of_ne (by omega)]
      exact ((ih hlt).append_left _).trans perm_middle
    · have hrest : freeBlocks c (update lists i xs) i = freeBlocks c lists i :=
        freeBlocks_congr fun j hj => update_of_ne (Nat.ne_of_lt hj) ..
      rw [update_self, hrest]
      exact (h.map _).append_right _

theorem avail_eq (c : Config) (s : Alloc) :
    s.avail c = bytes (freeBlocks c s.lists c.numSizes) := by
  have hlist : ∀ (i : ℕ) (xs : List ℕ) (z : ℕ),
      xs.foldl (fun z _ => z + c.size i) z = z + bytes (xs.map (c.block · i)) := by
    intro i xs
    induction xs with
    | nil => exact fun z => rfl
    | cons x xs ih =>
      intro z
      rw [foldl_cons, ih, map_cons, bytes_cons, ← add_assoc]
      rfl
  rw [Alloc.avail]
  induction c.numSizes with
  | zero => rfl
  | succ n ih =>
    rw [range_succ, foldl_append, foldl_cons, foldl_nil, ih, hlist, freeBlocks,
      bytes_append, add_comm]

end Lists

namespace Config

variable (c : Config)

theorem minSize_pos : 0 < c.minSize := Nat.two_pow_pos _

theorem minSize_dvd_base : c.minSize ∣ c.base :=
  (pow_dvd_pow 2 (by omega)).trans (dvd_mul_left _ _)

variable {c}

theorem bit_inj {a b : ℕ} (ha : c.base ≤ a) (hb : c.base ≤ b) (hda : c.minSize ∣ a)
    (hdb : c.minSize ∣ b) (h : c.bit a = c.bit b) : a = b := by
  obtain ⟨x, hx⟩ := dvd_sub hda c.minSize_dvd_base
  obtain ⟨y, hy⟩ := dvd_sub hdb c.minSize_dvd_base
  rw [bit, bit, hx, hy, Nat.mul_div_cancel_left _ c.minSize_pos,
    Nat.mul_div_cancel_left _ c.minSize_pos] at h
  rw [h] at hx
  omega

end Config

def Alloc.blocks (c : Config) (s : Alloc) : List Block := freeBlocks c s.lists c.numSizes

structure Inv (c : Config) (s : Alloc) (P R : List Block) (M : ℕ → Prop) (total : ℕ) : Prop where
  tiled : Tiled (P ++ (R ++ s.blocks c))
  covers : ∀ x, Covers (P ++ (R ++ s.blocks c)) x ↔ M x
  bytes : bytes (P ++ (R ++ s.blocks c)) = total
  least : ∀ b ∈ P ++ (R ++ s.blocks c), c.base ≤ b.start ∧ c.minLog2 ≤ b.order
  marked : ∀ i < c.numSizes, ∀ a ∈ s.lists i, s.freeMap (c.bit a) = true ∧ s.index a = i
  clear : ∀ b ∈ R, s.freeMap (c.bit b.start) = false
  fresh : ∀ x, c.base ≤ x → c.minSize ∣ x → ¬ M x → s.freeMap (c.bit x) = false
  single : ∀ i, i + 1 < c.numSizes → ∀ a ∈ s.lists i, (c.block a i).buddy ∉ s.lists i

section Inv

variable {c : Config} {s : Alloc} {P R : List Block} {M : ℕ → Prop} {total : ℕ} {a i : ℕ}
  {b : Block} {n : ℕ} {d : Block}

theorem mem_blocks : b ∈ s.blocks c ↔ ∃ i < c.numSizes, ∃ a ∈ s.lists i, b = c.block a i :=
  mem_freeBlocks

theorem block_mem_blocks (hi : i < c.numSizes) (ha : a ∈ s.lists i) : c.block a i ∈ s.blocks c :=
  mem_blocks.mpr ⟨i, hi, a, ha, rfl⟩

theorem Inv.dvd (h : Inv c s P R M total) (hb : b ∈ P ++ (R ++ s.blocks c)) : c.minSize ∣ b.start :=
  (pow_dvd_pow 2 (h.least b hb).2).trans (h.tiled.aligned b hb)

theorem Inv.start_ne (h : Inv c s (b :: P) R M total) (hd : d ∈ P ++ (R ++ s.blocks c)) :
    d.start ≠ b.start := by
  intro heq
  obtain ⟨-, -, hx⟩ := tiled_cons.mp h.tiled
  refine hx b.start b.has_start ⟨d, hd, ?_⟩
  rw [← heq]
  exact d.has_start

theorem Inv.bit_ne (h : Inv c s (b :: P) R M total) (hd : d ∈ P ++ (R ++ s.blocks c)) :
    c.bit d.start ≠ c.bit b.start := by
  intro heq
  have hd' : d ∈ b :: P ++ (R ++ s.blocks c) := mem_cons_of_mem _ hd
  have hb' : b ∈ b :: P ++ (R ++ s.blocks c) := mem_cons_self
  exact h.start_ne hd (Config.bit_inj (h.least d hd').1 (h.least b hb').1 (h.dvd hd') (h.dvd hb') heq)

theorem Inv.retile (h : Inv c s P R M total) {s' : Alloc} {P' R' : List Block}
    (hr : Retiled (P ++ (R ++ s.blocks c)) (P' ++ (R' ++ s'.blocks c)))
    (hleast : ∀ b ∈ P' ++ (R' ++ s'.blocks c), c.base ≤ b.start ∧ c.minLog2 ≤ b.order)
    (hmarked : ∀ i < c.numSizes, ∀ a ∈ s'.lists i, s'.freeMap (c.bit a) = true ∧ s'.index a = i)
    (hclear : ∀ b ∈ R', s'.freeMap (c.bit b.start) = false)
    (hfresh : ∀ x, c.base ≤ x → c.minSize ∣ x → ¬ M x → s'.freeMap (c.bit x) = false)
    (hsingle : ∀ i, i + 1 < c.numSizes → ∀ a ∈ s'.lists i, (c.block a i).buddy ∉ s'.lists i) :
    Inv c s' P' R' M total where
  tiled := hr.tiled.mp h.tiled
  covers x := (hr.covers x).symm.trans (h.covers x)
  bytes := hr.bytes.symm.trans h.bytes
  least := hleast
  marked := hmarked
  clear := hclear
  fresh := hfresh
  single := hsingle

theorem perm_front (b : Block) (P R F : List Block) :
    (P ++ (R ++ b :: F)).Perm (b :: P ++ (R ++ F)) :=
  (perm_middle.append_left P).trans perm_middle

theorem Inv.freeMap_update (h : Inv c s (b :: P) R M total) (v : Bool) :
    (∀ i < c.numSizes, ∀ a ∈ s.lists i, update s.freeMap (c.bit b.start) v (c.bit a) = true) ∧
    (∀ d ∈ R, update s.freeMap (c.bit b.start) v (c.bit d.start) = false) ∧
    ∀ x, c.base ≤ x → c.minSize ∣ x → ¬ M x →
      update s.freeMap (c.bit b.start) v (c.bit x) = false := by
  refine ⟨fun i hi a ha => ?_, fun d hd => ?_, fun x hx hdvd hM => ?_⟩
  · have hmem : c.block a i ∈ P ++ (R ++ s.blocks c) :=
      mem_append_right _ (mem_append_right _ (block_mem_blocks hi ha))
    have hne : c.bit a ≠ c.bit b.start := h.bit_ne hmem
    rw [update_of_ne hne]
    exact (h.marked i hi a ha).1
  · have hmem : d ∈ P ++ (R ++ s.blocks c) := mem_append_right _ (mem_append_left _ hd)
    rw [update_of_ne (h.bit_ne hmem)]
    exact h.clear d hd
  · have hb : b ∈ b :: P ++ (R ++ s.blocks c) := mem_cons_self
    rw [update_of_ne]
    · exact h.fresh x hx hdvd hM
    · intro heq
      have hxb := Config.bit_inj hx (h.least b hb).1 hdvd (h.dvd hb) heq
      apply hM
      rw [← h.covers, hxb]
      exact ⟨b, hb, b.has_start⟩

open Alloc

theorem blocks_link (hi : i < c.numSizes) :
    (((s.link a i).setBit c a true).blocks c).Perm (c.block a i :: s.blocks c) := by
  have hlist : (s.link a i).lists i = a :: s.lists i := update_self ..
  have hp := freeBlocks_perm (c := c) hi (Perm.of_eq hlist)
  rwa [link, update_idem, update_eq_self] at hp

theorem Inv.link (h : Inv c s (c.block a i :: P) R M total) (hi : i < c.numSizes)
    (hbud : i + 1 < c.numSizes → (c.block a i).buddy ∉ s.lists i) :
    Inv c ((s.link a i).setBit c a true) P R M total := by
  have hperm : (P ++ (R ++ ((s.link a i).setBit c a true).blocks c)).Perm
      (c.block a i :: P ++ (R ++ s.blocks c)) :=
    (((blocks_link hi).append_left R).append_left P).trans (perm_front _ P R _)
  obtain ⟨hmarked, hclear, hfresh⟩ := h.freeMap_update true
  have hmem : ∀ j, ∀ x ∈ (s.link a i).lists j, (j = i ∧ x = a) ∨ x ∈ s.lists j := by
    intro j x hx
    by_cases hj : j = i
    · subst hj
      change x ∈ update s.lists j (a :: s.lists j) j at hx
      rw [update_self] at hx
      exact (mem_cons.mp hx).imp_left fun hxa => ⟨rfl, hxa⟩
    · change x ∈ update s.lists i (a :: s.lists i) j at hx
      rw [update_of_ne hj] at hx
      exact .inr hx
  refine h.retile (Retiled.of_perm hperm.symm) (fun b hb => h.least b (hperm.mem_iff.mp hb))
    (fun j hj x hx => ?_) hclear hfresh (fun j hj x hx hc => ?_)
  · rcases hmem j x hx with ⟨rfl, rfl⟩ | hx
    · exact ⟨update_self .., update_self ..⟩
    · refine ⟨hmarked j hj x hx, ?_⟩
      change update s.index a i x = j
      have hne : x ≠ a := h.start_ne
        (mem_append_right _ (mem_append_right _ (block_mem_blocks hj hx)))
      rw [update_of_ne hne]
      exact (h.marked j hj x hx).2
  · have halign : (c.block a i).size ∣ (c.block a i).start :=
      h.tiled.aligned _ mem_cons_self
    rcases hmem j x hx with ⟨rfl, rfl⟩ | hx'
    · rcases hmem j _ hc with ⟨-, hself⟩ | hc'
      · -- a block is not its own buddy
        have hpos := (c.block x j).size_pos
        rcases lower_cases halign with ⟨hs, hb⟩ | ⟨hs, hb⟩
        · rw [hb, ← hs] at hself
          change x + (c.block x j).size = x at hself
          omega
        · change x = _ at hs
          rw [hb] at hself
          omega
      · exact hbud hj hc'
    · rcases hmem j _ hc with ⟨rfl, hself⟩ | hc'
      · have hxb : Block.buddy ⟨(c.block x j).buddy, c.minLog2 + j⟩ = x := by
          apply buddy_buddy (b := c.block x j)
          apply h.tiled.aligned
          exact mem_cons_of_mem _ (mem_append_right _ (mem_append_right _
            (block_mem_blocks (by omega) hx')))
        rw [hself] at hxb
        exact hbud hj (by rw [Config.block, hxb]; exact hx')
      · exact h.single j hj x hx' hc'

theorem Inv.blocks_remove (h : Inv c s P R M total) (hi : i < c.numSizes) (ha : a ∈ s.lists i) :
    (s.blocks c).Perm (c.block a i :: (s.remove a).blocks c) := by
  have hrest : (s.remove a).blocks c =
      freeBlocks c (update s.lists i ((s.lists i).erase a)) c.numSizes := by
    refine freeBlocks_congr fun j hj => ?_
    by_cases hji : j = i
    · rw [hji, update_self]
      rfl
    · rw [update_of_ne hji]
      refine erase_of_not_mem fun hc => hji ?_
      have heq := h.tiled.eq_of_start
        (mem_append_right _ (mem_append_right _ (block_mem_blocks hj hc)))
        (mem_append_right _ (mem_append_right _ (block_mem_blocks hi ha))) rfl
      have hord := congrArg Block.order heq
      exact add_left_cancel hord
  rw [hrest]
  exact freeBlocks_perm hi (perm_cons_erase ha)

theorem Inv.take (h : Inv c s P R M total) (hi : i < c.numSizes) (ha : a ∈ s.lists i) :
    Inv c (s.remove a) (c.block a i :: P) R M total := by
  have hperm : (P ++ (R ++ s.blocks c)).Perm (c.block a i :: P ++ (R ++ (s.remove a).blocks c)) :=
    (((h.blocks_remove hi ha).append_left R).append_left P).trans (perm_front _ P R _)
  exact h.retile (Retiled.of_perm hperm) (fun b hb => h.least b (hperm.mem_iff.mpr hb))
    (fun j hj x hx => h.marked j hj x (mem_of_mem_erase hx)) h.clear h.fresh
    (fun j hj x hx hc => h.single j hj x (mem_of_mem_erase hx) (mem_of_mem_erase hc))

theorem Inv.settle (h : Inv c s (b :: P) R M total) :
    Inv c (s.setBit c b.start false) P (b :: R) M total := by
  have hperm : (b :: P ++ (R ++ s.blocks c)).Perm (P ++ (b :: R ++ s.blocks c)) :=
    perm_middle.symm
  obtain ⟨hmarked, hclear, hfresh⟩ := h.freeMap_update false
  refine h.retile (Retiled.of_perm hperm) (fun d hd => h.least d (hperm.mem_iff.mpr hd))
    (fun j hj x hx => ⟨hmarked j hj x hx, (h.marked j hj x hx).2⟩) ?_ hfresh h.single
  exact forall_mem_cons.mpr ⟨update_self .., hclear⟩

theorem Inv.unsettle (h : Inv c s P (b :: R) M total) : Inv c s (b :: P) R M total := by
  have hperm : (P ++ (b :: R ++ s.blocks c)).Perm (b :: P ++ (R ++ s.blocks c)) := perm_middle
  exact h.retile (Retiled.of_perm hperm) (fun d hd => h.least d (hperm.mem_iff.mpr hd)) h.marked
    (fun d hd => h.clear d (mem_cons_of_mem _ hd)) h.fresh h.single

theorem Inv.perm (h : Inv c s P R M total) {R' : List Block} (hp : R.Perm R') :
    Inv c s P R' M total := by
  have hperm := (hp.append_right (s.blocks c)).append_left P
  exact h.retile (Retiled.of_perm hperm) (fun d hd => h.least d (hperm.mem_iff.mpr hd)) h.marked
    (fun d hd => h.clear d (hp.mem_iff.mpr hd)) h.fresh h.single

theorem Inv.grow (h : Inv c s [] R M total) (ha : c.base ≤ a) (hdvd : c.minSize ∣ a)
    (hM : ∀ x, (c.block a 0).Has x → ¬ M x) :
    Inv c s [c.block a 0] R (fun x => M x ∨ (c.block a 0).Has x) (total + c.minSize) where
  tiled := tiled_cons.mpr ⟨hdvd, h.tiled, fun x hx hc => hM x hx ((h.covers x).mp hc)⟩
  covers x := by
    rw [singleton_append, covers_cons, or_comm]
    exact or_congr_left (h.covers x)
  bytes := by
    rw [singleton_append, bytes_cons, add_comm]
    exact congrArg (· + c.minSize) h.bytes
  least := forall_mem_cons.mpr ⟨⟨ha, le_add_right _ _⟩, h.least⟩
  marked := h.marked
  clear := h.clear
  fresh x hx hd hout := h.fresh x hx hd fun hc => hout (.inl hc)
  single := h.single

theorem Inv.congr (h : Inv c s P R M total) {M' : ℕ → Prop} {total' : ℕ} (hM : ∀ x, M x ↔ M' x)
    (ht : total = total') : Inv c s P R M' total' := by
  obtain rfl : M = M' := funext fun x => propext (hM x)
  rwa [← ht]

theorem base_le_lower (hi : i + 1 < c.numSizes) (ha : c.base ≤ a) :
    c.base ≤ (c.block a i).lower := by
  have hdvd : 2 ^ (c.minLog2 + i + 1) ∣ c.base :=
    (pow_dvd_pow 2 (by omega)).trans (dvd_mul_left c.maxSize _)
  obtain ⟨q, hq⟩ := hdvd
  rw [hq] at ha ⊢
  have hle : q ≤ a / 2 ^ (c.minLog2 + i + 1) := by
    rw [Nat.le_div_iff_mul_le (Nat.two_pow_pos _), Nat.mul_comm]
    exact ha
  rw [mul_comm]
  exact mul_le_mul_right _ hle

theorem Inv.merge (h : Inv c s (c.block a i :: P) R M total) (hi : i + 1 < c.numSizes)
    (hbud : (c.block a i).buddy ∈ s.lists i) :
    Inv c (s.remove (c.block a i).buddy) (c.block (c.block a i).lower (i + 1) :: P) R M total := by
  have ht := h.take (by omega) hbud
  have halign := h.tiled.aligned (c.block a i) mem_cons_self
  refine ht.retile ?_ (fun b hb => ?_) ht.marked ht.clear ht.fresh ht.single
  · exact (Retiled.of_perm (.swap ..)).trans (Retiled.merge halign _)
  · rcases mem_cons.mp hb with rfl | hb
    · exact ⟨base_le_lower hi (h.least _ mem_cons_self).1, le_add_right _ _⟩
    · exact ht.least b (mem_cons_of_mem _ (mem_cons_of_mem _ hb))

theorem buddy_eq (c : Config) (s : Alloc) (a i : ℕ) :
    s.buddy c a i = if i + 1 ≥ c.numSizes then none
      else if s.freeMap (c.bit (c.block a i).buddy) ∧ s.index (c.block a i).buddy = i then
        some ((c.block a i).buddy, (c.block a i).lower) else none := rfl

section

variable (h : Inv c s [c.block a i] R M total)
include h

theorem Inv.buddy_mem (hi : i + 1 < c.numSizes)
    (hbit : s.freeMap (c.bit (c.block a i).buddy) = true)
    (hindex : s.index (c.block a i).buddy = i) : (c.block a i).buddy ∈ s.lists i := by
  have halign := h.tiled.aligned (c.block a i) mem_cons_self
  have hbase : c.base ≤ (c.block a i).lower := base_le_lower hi (h.least _ mem_cons_self).1
  have hdvd : c.minSize ∣ (c.block a i).buddy :=
    (pow_dvd_pow 2 (le_add_right _ _)).trans (dvd_buddy halign)
  have hM : M (c.block a i).buddy := by
    by_contra hM
    rw [h.fresh _ (hbase.trans (lower_le_buddy halign)) hdvd hM] at hbit
    cases hbit
  obtain ⟨d, hd, hx⟩ := (h.covers _).mpr hM
  rw [singleton_append] at hd
  rcases mem_cons.mp hd with rfl | hd
  · exact (not_has_buddy halign hx).elim
  · obtain ⟨hstart, -⟩ := Tiled.start_eq_buddy h.tiled hd hx
    rcases mem_append.mp hd with hd | hd
    · rw [← hstart, h.clear d hd] at hbit
      cases hbit
    · obtain ⟨j, hj, x, hmem, rfl⟩ := mem_blocks.mp hd
      change x = _ at hstart
      have hji := (h.marked j hj x hmem).2
      rw [hstart, hindex] at hji
      rw [← hstart, hji]
      exact hmem

theorem Inv.coalesce (hi : i < c.numSizes) (hn : n = c.numSizes - (i + 1)) :
    ∃ s' a' i', coalesce c n s a i = (s', a', i') ∧ i' < c.numSizes ∧
      Inv c s' [c.block a' i'] R M total ∧
      (i' + 1 < c.numSizes → (c.block a' i').buddy ∉ s'.lists i') := by
  induction n generalizing s a i with
  | zero => exact ⟨s, a, i, rfl, hi, h, fun hc => by omega⟩
  | succ n ih =>
    have hnext : i + 1 < c.numSizes := by omega
    rw [coalesce, buddy_eq, if_neg (by omega)]
    split_ifs with hbud
    · exact ih (h.merge hnext (h.buddy_mem hnext hbud.1 hbud.2)) hnext (by omega)
    · refine ⟨s, a, i, rfl, hi, h, fun _ hc => hbud ?_⟩
      exact h.marked i hi _ hc

theorem Inv.freeBlock (hi : i < c.numSizes) (hbit : s.freeMap (c.bit a) = false) :
    ∃ s', s.freeBlock c a i = some s' ∧ Inv c s' [] R M total := by
  obtain ⟨s', a', i', heq, hi', h', hbud⟩ := h.coalesce hi rfl
  have hbase : ¬ a < c.base := not_lt.mpr (h.least (c.block a i) mem_cons_self).1
  have hassert : ¬ (a < c.base ∨ s.freeMap (c.bit a) = true) := by
    rw [hbit]
    simp [hbase]
  refine ⟨_, ?_, h'.link hi' hbud⟩
  rw [Alloc.freeBlock, if_neg hassert, heq]

end

theorem Inv.not_mem_lists (h : Inv c s P R M total) (hb : b ∈ P) (hi : i < c.numSizes)
    (ha : b.Has a) : a ∉ s.lists i := by
  intro hmem
  have hfree : c.block a i ∈ R ++ s.blocks c := mem_append_right _ (block_mem_blocks hi hmem)
  have hapart := (pairwise_append.mp h.tiled.apart).2.2 b hb _ hfree
  exact apart_iff.mp hapart a ha (c.block a i).has_start

theorem Inv.split {f o : ℕ}
    (h : Inv c s (c.block f o :: (halves f (c.minLog2 + i) n ++ P)) R M total)
    (hi : i + n < c.numSizes) (hdvd : 2 ^ (c.minLog2 + i + n) ∣ f) :
    Inv c (s.split c f i n) (c.block f o :: P) R M total := by
  induction n generalizing s i with
  | zero => exact h
  | succ n ih =>
    rw [split]
    have hnext : c.minLog2 + i + (n + 1) = c.minLog2 + (i + 1) + n := by omega
    rw [hnext] at hdvd
    have hlow : 2 ^ (c.minLog2 + i + 1) ∣ f := (pow_dvd_pow 2 (by omega)).trans hdvd
    have hbuddy : (c.block (f + c.size i) i).buddy = f := by
      have hlower : (c.block (f + c.size i) i).lower = f := by
        refine lower_of_add hlow ?_
        rw [Config.size, pow_succ]
        omega
      have hpos : 0 < c.size i := Nat.two_pow_pos _
      rw [Block.buddy, hlower, if_neg]
      change f ≠ f + c.size i
      omega
    refine ih (Inv.link (?_ : Inv c s (c.block (f + c.size i) i :: _) R M total) (by omega) fun _ => ?_)
      (by omega) hdvd
    · have hperm : (c.block f o :: (halves f (c.minLog2 + i) (n + 1) ++ P) ++ (R ++ s.blocks c)).Perm
          (c.block (f + c.size i) i :: c.block f o :: (halves f (c.minLog2 + (i + 1)) n ++ P) ++
            (R ++ s.blocks c)) := .swap ..
      exact h.retile (.of_perm hperm) (fun b hb => h.least b (hperm.mem_iff.mpr hb)) h.marked h.clear
        h.fresh h.single
    · rw [hbuddy]
      exact h.not_mem_lists mem_cons_self (by omega) (c.block f o).has_start

theorem Inv.allocFrom (h : Inv c s [] R M total) (hi : i ≤ a) (hn : n = c.numSizes - a) :
    (s.allocFrom c i n a = (s, none) ∧ ∀ j, a ≤ j → j < c.numSizes → s.lists j = []) ∨
      ∃ s' f, s.allocFrom c i n a = (s', some f) ∧ i < c.numSizes ∧
        Inv c s' [] (c.block f i :: R) M total := by
  induction n generalizing a with
  | zero => exact .inl ⟨rfl, fun j hj hlt => by omega⟩
  | succ n ih =>
    rw [allocFrom]
    cases hlist : s.lists a with
    | nil =>
      rcases ih (a := a + 1) (by omega) (by omega) with ⟨heq, hnone⟩ | hsome
      · refine .inl ⟨heq, fun j hj hlt => ?_⟩
        rcases eq_or_lt_of_le hj with rfl | hj
        · exact hlist
        · exact hnone j hj hlt
      · exact .inr hsome
    | cons f fs =>
      have ha : a < c.numSizes := by omega
      have ht := h.take ha (a := f) (by rw [hlist]; exact mem_cons_self)
      have hdvd : 2 ^ (c.minLog2 + i + (a - i)) ∣ f := by
        rw [show c.minLog2 + i + (a - i) = c.minLog2 + a by omega]
        exact ht.tiled.aligned (c.block f a) mem_cons_self
      have hblock : c.block f a = ⟨f, c.minLog2 + i + (a - i)⟩ := by
        rw [Config.block, show c.minLog2 + i + (a - i) = c.minLog2 + a by omega]
      have hretile := Retiled.halves hdvd (R ++ (s.remove f).blocks c)
      rw [← hblock] at hretile
      have hsplit : Inv c (s.remove f) (c.block f i :: (halves f (c.minLog2 + i) (a - i) ++ [])) R M
          total := by
        rw [append_nil]
        refine ht.retile hretile (fun b hb => ?_) ht.marked ht.clear ht.fresh ht.single
        have hf := ht.least _ mem_cons_self
        rcases mem_cons.mp hb with rfl | hb
        · exact ⟨hf.1, le_add_right _ _⟩
        · rcases mem_append.mp hb with hb | hb
          · obtain ⟨k, hk, rfl⟩ := mem_halves.mp hb
            exact ⟨hf.1.trans (le_add_right _ _), by change _ ≤ c.minLog2 + i + k; omega⟩
          · exact ht.least b (mem_cons_of_mem _ hb)
      exact .inr ⟨_, f, rfl, by omega, (hsplit.split (by omega) hdvd).settle⟩

theorem sizeIndex_minSize (c : Config) : c.sizeIndex c.minSize = some 0 := by
  have hlt : c.size 0 < 2 ^ 64 := Nat.pow_lt_pow_right (by decide) (by have := c.pos; have := c.word; omega)
  rw [Config.sizeIndex, range_succ_eq_map, find?_cons_of_pos]
  rw [mod_eq_of_lt hlt, Config.minSize]
  simp

theorem Inv.addBlocks (h : Inv c s [] R M total) (ha : c.base ≤ a) (hdvd : c.minSize ∣ a)
    (hM : ∀ x, a ≤ x → x < a + n * c.minSize → ¬ M x) : ∃ s', addBlocks c n a s = some s' ∧
      Inv c s' [] R (fun x => M x ∨ (a ≤ x ∧ x < a + n * c.minSize)) (total + n * c.minSize) := by
  induction n generalizing s a M total with
  | zero =>
    refine ⟨s, rfl, h.congr (fun x => ?_) (by omega)⟩
    rw [or_iff_left]
    omega
  | succ n ih =>
    have hsucc : (n + 1) * c.minSize = c.minSize + n * c.minSize := by
      rw [succ_mul, add_comm]
    rw [hsucc] at hM ⊢
    have hhas : ∀ x, (c.block a 0).Has x ↔ a ≤ x ∧ x < a + c.minSize := fun _ => .rfl
    have hbit : s.freeMap (c.bit a) = false := by
      have hpos := c.minSize_pos
      exact h.fresh a ha hdvd (hM a le_rfl (by omega))
    have hgrow := h.grow ha hdvd fun x hx => by
      rw [hhas] at hx
      exact hM x hx.1 (by omega)
    obtain ⟨s₁, hs₁, h₁⟩ := hgrow.freeBlock c.pos hbit
    obtain ⟨s₂, hs₂, h₂⟩ := ih h₁ (a := a + c.minSize) (by omega) (Nat.dvd_add hdvd (Nat.dvd_refl _))
      fun x hx hlt hc => by
        rw [hhas] at hc
        rcases hc with hc | hc
        · exact hM x (by omega) (by omega) hc
        · omega
    refine ⟨s₂, ?_, h₂.congr (fun x => ?_) (by omega)⟩
    · rw [addBlocks, free, sizeIndex_minSize, Option.bind_some, hs₁, Option.bind_some, hs₂]
    · rw [hhas, or_assoc]
      refine or_congr_right ?_
      omega

theorem Inv.write (h : Inv c s P R M total) {v : ℕ} (ha : ∀ b ∈ s.blocks c, ¬ b.Has a) :
    Inv c { s with index := update s.index a v } P R M total := by
  refine ⟨h.tiled, h.covers, h.bytes, h.least, fun i hi x hx => ⟨(h.marked i hi x hx).1, ?_⟩, h.clear,
    h.fresh, h.single⟩
  change update s.index a v x = i
  rw [update_of_ne]
  · exact (h.marked i hi x hx).2
  · rintro rfl
    exact ha _ (block_mem_blocks hi hx) (c.block x i).has_start

end Inv

structure Sys where
  mem : Alloc
  live : List (ℕ × ℕ)
  regions : List (ℕ × ℕ)

/-- `write` is what the owner of a block, or of other memory, does with it. -/
inductive Op
  | addMem (b size : ℕ)
  | alloc (size : ℕ)
  | free (block size : ℕ)
  | write (a value : ℕ)

namespace Sys

variable (c : Config)

def boot (index : ℕ → ℕ) : Sys := ⟨.boot index, [], []⟩

def exec (s : Sys) : Op → Option Sys
  | .addMem b size => (s.mem.addMem c b size).map fun mem => { s with mem, regions := (b, size) :: s.regions }
  | .alloc size =>
    match s.mem.alloc c size with
    | none => some s
    | some (mem, none) => some { s with mem }
    | some (mem, some f) => some { s with mem, live := (f, size) :: s.live }
  | .free a size => (s.mem.free c a size).map fun mem => { s with mem, live := s.live.erase (a, size) }
  | .write a v => some { s with mem := { s.mem with index := update s.mem.index a v } }

def run (index : ℕ → ℕ) (ops : List Op) : Option Sys := Machine.tryRun (exec c) (boot index) ops

def blockOf (r : ℕ × ℕ) : Block := c.block r.1 ((c.sizeIndex r.2).getD 0)

def liveBlocks (s : Sys) : List Block := s.live.map (blockOf c)

def Managed (regions : List (ℕ × ℕ)) (x : ℕ) : Prop :=
  ∃ r ∈ regions, Alloc.alStart c r.1 ≤ x ∧ x < Alloc.alStart c r.1 + Alloc.whole c r.1 r.2 * c.minSize

def managedBytes (regions : List (ℕ × ℕ)) : ℕ :=
  (regions.map fun r => Alloc.whole c r.1 r.2 * c.minSize).sum

def Allowed (s : Sys) : Op → Prop
  | .addMem b size => c.base ≤ b ∧ ∀ r ∈ s.regions, b + size ≤ r.1 ∨ r.1 + r.2 ≤ b
  | .alloc _ => True
  | .free a size => (a, size) ∈ s.live
  | .write a _ => ∀ b ∈ s.mem.blocks c, ¬ b.Has a

instance (b : Block) (x : ℕ) : Decidable (b.Has x) := inferInstanceAs (Decidable (_ ∧ _))

instance (s : Sys) (op : Op) : Decidable (s.Allowed c op) := by
  cases op <;> unfold Sys.Allowed <;> infer_instance

def Admissible (index : ℕ → ℕ) (ops : List Op) : Prop :=
  Machine.TryAlong (exec c) (Allowed c) (boot index) ops
deriving Decidable

/-- The blocks in use and the free blocks are a tiling of the managed memory. -/
structure Sound (s : Sys) : Prop where
  disjoint : (s.liveBlocks c ++ s.mem.blocks c).Pairwise Apart
  exact : ∀ x, Covers (s.liveBlocks c ++ s.mem.blocks c) x ↔ Managed c s.regions x
  aligned : ∀ b ∈ s.liveBlocks c ++ s.mem.blocks c, b.size ∣ b.start
  free_bit : ∀ b ∈ s.mem.blocks c, s.mem.freeMap (c.bit b.start) = true
  live_bit : ∀ b ∈ s.liveBlocks c, s.mem.freeMap (c.bit b.start) = false
  buddies : ∀ b ∈ s.mem.blocks c, b.size < c.maxSize → ⟨b.buddy, b.order⟩ ∉ s.mem.blocks c
  avail : s.mem.avail c + bytes (s.liveBlocks c) = managedBytes c s.regions
  enough : ∀ r ∈ s.live, r.2 ≤ (blockOf c r).size

end Sys

section Sys

variable {c : Config} {s : Sys} {size : ℕ}

open Sys

structure SysInv (c : Config) (s : Sys) : Prop where
  mem : Inv c s.mem [] (s.liveBlocks c) (Managed c s.regions) (managedBytes c s.regions)
  index : ∀ r ∈ s.live, ∃ i < c.numSizes, c.sizeIndex r.2 = some i

theorem le_size_of_sizeIndex {i : ℕ} (h : c.sizeIndex size = some i) : size ≤ c.size i := by
  have hi := find?_some h
  simp only [decide_eq_true_eq, not_lt] at hi
  exact hi.trans (mod_le _ _)

theorem sysInv_boot (c : Config) (index : ℕ → ℕ) : SysInv c (boot index) := by
  have hnone : (Alloc.boot index).blocks c = [] := by
    refine eq_nil_iff_forall_not_mem.mpr fun b hb => ?_
    obtain ⟨i, -, a, ha, -⟩ := mem_blocks.mp hb
    cases ha
  refine ⟨⟨?_, fun x => ?_, ?_, ?_, nofun, nofun, fun _ _ _ _ => rfl, nofun⟩, nofun⟩
  · change Tiled ((Alloc.boot index).blocks c)
    rw [hnone]
    exact tiled_nil
  · change Covers ((Alloc.boot index).blocks c) x ↔ _
    rw [hnone]
    exact iff_of_false nofun nofun
  · change bytes ((Alloc.boot index).blocks c) = _
    rw [hnone]
    rfl
  · change ∀ b ∈ (Alloc.boot index).blocks c, _
    rw [hnone]
    exact nofun

theorem whole_bounds (c : Config) (b size : ℕ) :
    b ≤ Alloc.alStart c b ∧ c.minSize ∣ Alloc.alStart c b ∧
      (0 < Alloc.whole c b size →
        Alloc.alStart c b + Alloc.whole c b size * c.minSize ≤ b + size) := by
  have hpos := c.minSize_pos
  have hle : b ≤ Alloc.alStart c b := by
    have hmod := div_add_mod (b + c.minSize - 1) c.minSize
    have hlt := mod_lt (b + c.minSize - 1) hpos
    rw [Alloc.alStart, mul_comm]
    omega
  refine ⟨hle, dvd_mul_left _ _, fun hw => ?_⟩
  have hmul := div_mul_le_self (size - (Alloc.alStart c b - b)) c.minSize
  have hge : c.minSize ≤ size - (Alloc.alStart c b - b) := by
    by_contra hlt
    rw [Alloc.whole, div_eq_of_lt (not_le.mp hlt)] at hw
    omega
  change _ + (size - (Alloc.alStart c b - b)) / c.minSize * c.minSize ≤ _
  omega

section

variable (h : SysInv c s)
include h

theorem SysInv.sound : s.Sound c where
  disjoint := h.mem.tiled.apart
  exact := h.mem.covers
  aligned := h.mem.tiled.aligned
  free_bit b hb := by
    obtain ⟨i, hi, a, ha, rfl⟩ := mem_blocks.mp hb
    exact (h.mem.marked i hi a ha).1
  live_bit := h.mem.clear
  buddies b hb hsize hc := by
    obtain ⟨i, hi, a, ha, rfl⟩ := mem_blocks.mp hb
    obtain ⟨j, hj, x, hx, heq⟩ := mem_blocks.mp hc
    have hord := congrArg Block.order heq
    have hji : j = i := (add_left_cancel hord).symm
    have hlt : c.minLog2 + i < c.minLog2 + (c.numSizes - 1) :=
      (Nat.pow_lt_pow_iff_right (by decide)).mp hsize
    refine h.mem.single i (by omega) a ha ?_
    have hstart := congrArg Block.start heq
    rw [hji] at hx
    change _ = x at hstart
    rwa [← hstart] at hx
  avail := by
    rw [avail_eq, add_comm, ← bytes_append]
    exact h.mem.bytes
  enough r hr := by
    obtain ⟨i, -, hi⟩ := h.index r hr
    have hle := le_size_of_sizeIndex hi
    rwa [blockOf, hi]

theorem SysInv.addMem {b : ℕ} (hb : c.base ≤ b)
    (hout : ∀ r ∈ s.regions, b + size ≤ r.1 ∨ r.1 + r.2 ≤ b) :
    ∃ s', s.exec c (.addMem b size) = some s' ∧ SysInv c s' := by
  obtain ⟨hstart, hdvd, hend⟩ := whole_bounds c b size
  have hM : ∀ x, Alloc.alStart c b ≤ x → x < Alloc.alStart c b + Alloc.whole c b size * c.minSize →
      ¬ Managed c s.regions x := by
    rintro x hx hlt ⟨r, hr, hx', hlt'⟩
    obtain ⟨hstart', -, hend'⟩ := whole_bounds c r.1 r.2
    have hw : 0 < Alloc.whole c b size := pos_of_ne_zero fun hz => by rw [hz] at hlt; omega
    have hw' : 0 < Alloc.whole c r.1 r.2 := pos_of_ne_zero fun hz => by rw [hz] at hlt'; omega
    rcases hout r hr with hr | hr <;> omega
  obtain ⟨mem, hmem, hinv⟩ := h.mem.addBlocks (hb.trans hstart) hdvd hM
  have hadd : s.mem.addMem c b size = some mem := by
    rw [Alloc.addMem]
    split_ifs with hsmall
    · have hz : Alloc.whole c b size = 0 := by
        rw [Alloc.whole, Nat.sub_eq_zero_of_le hsmall, Nat.zero_div]
      rwa [hz] at hmem
    · exact hmem
  have hexec : s.exec c (.addMem b size) = some { s with mem, regions := (b, size) :: s.regions } := by
    rw [exec, hadd]
    rfl
  refine ⟨_, hexec, hinv.congr (fun x => ?_) ?_, h.index⟩
  · simp only [Managed, mem_cons, exists_eq_or_imp]
    exact or_comm
  · rw [add_comm]
    rfl

theorem SysInv.alloc (size : ℕ) : ∃ s', s.exec c (.alloc size) = some s' ∧ SysInv c s' := by
  rw [exec, Alloc.alloc]
  cases hi : c.sizeIndex size with
  | none => exact ⟨s, rfl, h⟩
  | some i =>
    rcases h.mem.allocFrom (i := i) le_rfl rfl with ⟨heq, -⟩ | ⟨mem, f, heq, hlt, hinv⟩
    · rw [Option.map_some, heq]
      exact ⟨s, rfl, h⟩
    · rw [Option.map_some, heq]
      refine ⟨_, rfl, ?_, forall_mem_cons.mpr ⟨⟨i, hlt, hi⟩, h.index⟩⟩
      change Inv c mem [] (blockOf c (f, size) :: s.liveBlocks c) _ _
      rwa [blockOf, hi]

theorem SysInv.free {a : ℕ} (ha : (a, size) ∈ s.live) :
    ∃ s', s.exec c (.free a size) = some s' ∧ SysInv c s' := by
  obtain ⟨i, hlt, hi⟩ := h.index _ ha
  have hblock : blockOf c (a, size) = c.block a i := by
    rw [blockOf, hi]
    rfl
  have hperm : (s.liveBlocks c).Perm (c.block a i :: (s.live.erase (a, size)).map (blockOf c)) := by
    rw [← hblock]
    exact (perm_cons_erase ha).map _
  have hinv := h.mem.perm hperm
  have hbit : s.mem.freeMap (c.bit a) = false := hinv.clear _ mem_cons_self
  obtain ⟨mem, hmem, hinv'⟩ := hinv.unsettle.freeBlock hlt hbit
  have hexec : s.exec c (.free a size) = some { s with mem, live := s.live.erase (a, size) } := by
    rw [exec, Alloc.free, hi, Option.bind_some, hmem]
    rfl
  exact ⟨_, hexec, hinv', fun r hr => h.index r (mem_of_mem_erase hr)⟩

theorem SysInv.exec {op : Op} (ha : s.Allowed c op) :
    ∃ s', s.exec c op = some s' ∧ SysInv c s' := by
  cases op with
  | addMem b size => exact h.addMem ha.1 ha.2
  | alloc size => exact h.alloc size
  | free a size => exact h.free ha
  | write a v => exact ⟨_, rfl, h.mem.write ha, h.index⟩

end

theorem sound_run (c : Config) (index : ℕ → ℕ) (ops : List Op) (ha : Admissible c index ops) :
    ∃ s, run c index ops = some s ∧ s.Sound c := by
  obtain ⟨s, hs, hinv⟩ := ha.invariant (fun _ _ h hop => SysInv.exec h hop) (sysInv_boot c index)
  exact ⟨s, hs, hinv.sound⟩

end Sys

def kernel : Config := ⟨10, 10, 5120, by decide, by decide⟩

/-- Two regions are added, a block of 2 KB is filled with what looks like the index of a free
block, and its neighbour is freed. -/
def used : List Op :=
  [.addMem 5120 3840, .addMem 8960 7680, .alloc 1152, .alloc 1024, .write 10240 0, .write 11264 1,
    .free 9216 1024, .alloc 4224]

theorem sound_used :
    Sys.Admissible kernel (fun _ => 0) used ∧
      ∃ s, Sys.run kernel (fun _ => 0) used = some s ∧ s.Sound kernel := by
  have ha : Sys.Admissible kernel (fun _ => 0) used := by decide +kernel
  exact ⟨ha, sound_run kernel _ used ha⟩

end Fiasco.Buddy
