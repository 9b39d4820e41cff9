import Fiasco.Lib.Interleaving

/-!
# The slab allocator

A cache has a list of the slabs that are full, one of those that are partly used, and one of those
that are empty, which has at most two slabs. `alloc` gives up the lock while it gets a block for a
new slab, and blocks are given back without the lock.
-/
namespace Fiasco.SlabCache

open List Function
open Option (some)

structure Config where
  slabLog2 : ℕ
  entrySize : ℕ
  header : ℕ
  entry_pos : 0 < entrySize

namespace Config

variable (c : Config)

def slabSize : ℕ := 2 ^ c.slabLog2

def elemNum : ℕ := (c.slabSize - c.header) / c.entrySize

def elem (b i : ℕ) : ℕ := b * c.slabSize + i * c.entrySize

end Config

/-- The head of a slab; the two counters are of type `unsigned short`. -/
structure Slab where
  free : List ℕ
  elems : ℕ
  inUse : ℕ

namespace Slab

def new (c : Config) (b : ℕ) : Slab :=
  ⟨(range c.elemNum).foldl (fun free i => c.elem b i :: free) [], c.elemNum % 2 ^ 16, 0⟩

def alloc (s : Slab) : Slab × Option ℕ :=
  match s.free with
  | [] => (s, none)
  | e :: free => ({ s with free, inUse := (s.inUse + 1) % 2 ^ 16 }, some e)

def release (s : Slab) (e : ℕ) : Slab :=
  { s with free := e :: s.free, inUse := (s.inUse + (2 ^ 16 - 1)) % 2 ^ 16 }

def isFull (s : Slab) : Prop := s.inUse = s.elems

def isEmpty (s : Slab) : Prop := s.inUse = 0

instance (s : Slab) : Decidable s.isFull := inferInstanceAs (Decidable (_ = _))

instance (s : Slab) : Decidable s.isEmpty := inferInstanceAs (Decidable (_ = _))

end Slab

inductive Kind
  | full
  | partly
  | empty
deriving DecidableEq

/-- The cache, the blocks it has from the block allocator, and the objects in use. A slab is named by
the number of its block. `failed` is an assertion that failed. -/
structure Cache where
  lists : Kind → List ℕ
  numEmpty : ℕ
  slab : ℕ → Slab
  held : List ℕ
  live : List ℕ
  failed : Bool

namespace Cache

variable (c : Config)

def boot (slab : ℕ → Slab) : Cache := ⟨fun _ => [], 0, slab, [], [], false⟩

def remove (g : Cache) (b : ℕ) : Cache := { g with lists := fun k => (g.lists k).erase b }

def add (g : Cache) (k : Kind) (b : ℕ) : Cache :=
  { g with lists := update g.lists k (b :: g.lists k) }

def getAvailableLocked (g : Cache) : Cache × Option ℕ :=
  match g.lists .partly with
  | b :: _ => (g, some b)
  | [] =>
    match g.lists .empty with
    | b :: _ =>
      (({ g with numEmpty := (g.numEmpty + (2 ^ 32 - 1)) % 2 ^ 32 }.remove b).add .partly b, some b)
    | [] => (g, none)

def take (g : Cache) (b : ℕ) : Cache :=
  match (g.slab b).alloc with
  | (_, none) => { g with failed := true }
  | (s, some e) =>
    let g := { g with slab := update g.slab b s, live := e :: g.live }
    if s.isFull then (g.remove b).add .full b else g

end Cache

/-- Where a CPU is: `alloc` found no slab, or has the result of `block_alloc`; a block is to be given
back by `alloc`, `free` or `reap`; or `reap` looks for another slab. -/
inductive Pc
  | idle
  | miss
  | retry (m : Option ℕ)
  | unused (b : ℕ)
  | surplus (b : ℕ)
  | reaped (b : ℕ)
  | reaping
deriving DecidableEq

/-- The block that a call in progress has: it is not in a list yet, or not any more. -/
def pending : Pc → Option ℕ
  | .retry m => m
  | .unused b => some b
  | .surplus b => some b
  | .reaped b => some b
  | _ => none

inductive Op
  | alloc
  | free (p : ℕ)
  | reap
  | next (m : Option ℕ)

namespace Cache

variable (c : Config)

section

variable (g : Cache)

def allocFirst : Cache × Pc :=
  match g.getAvailableLocked with
  | (g, some b) => (g.take b, .idle)
  | (g, none) => (g, .miss)

def blockAlloc (m : Option ℕ) : Cache × Pc :=
  match m with
  | none => (g, .retry none)
  | some b =>
    if b ∈ g.held then (g, .miss)
    else ({ g with held := b :: g.held, slab := update g.slab b (.new c b) }, .retry (some b))

def allocAgain (m : Option ℕ) : Cache × Pc :=
  match g.getAvailableLocked, m with
  | (g, some b), some m => (g.take b, .unused m)
  | (g, some b), none => (g.take b, .idle)
  | (g, none), some m => ((g.add .partly m).take m, .idle)
  | (g, none), none => (g, .idle)

def freeLocked (p : ℕ) : Cache × Pc :=
  let b := p / c.slabSize
  let wasFull := (g.slab b).isFull
  let s := (g.slab b).release p
  let g := { g with
    slab := update g.slab b s
    live := g.live.erase p
    failed := g.failed || decide ((g.slab b).inUse = 0) }
  if wasFull then ((g.remove b).add .partly b, .idle)
  else if s.isEmpty then
    if g.numEmpty < 2 then
      ({ (g.remove b).add .empty b with numEmpty := (g.numEmpty + 1) % 2 ^ 32 }, .idle)
    else (g.remove b, .surplus b)
  else (g, .idle)

def reapLocked : Cache × Pc :=
  match g.lists .empty with
  | [] => (g, .idle)
  | b :: _ => (g.remove b, .reaped b)

def blockFree (b : ℕ) : Cache := { g with held := g.held.erase b }

def exec : Pc → Op → Cache × Pc
  | .idle, .alloc => g.allocFirst
  | .idle, .free p => if p ∈ g.live then g.freeLocked c p else (g, .idle)
  | .idle, .reap => g.reapLocked
  | .miss, .next m => g.blockAlloc c m
  | .retry m, .next _ => g.allocAgain m
  | .unused b, .next _ => (g.blockFree b, .idle)
  | .surplus b, .next _ => (g.blockFree b, .idle)
  | .reaped b, .next _ => (g.blockFree b, .reaping)
  | .reaping, .next _ => g.reapLocked
  | pc, _ => (g, pc)

end

end Cache

variable {P : Type} [DecidableEq P]

abbrev State (P : Type) := Interleaving.System P Cache Pc

section

variable (c : Config) (s : State P)

def step (a : P × Op) : State P :=
  s.move a.1 (s.shared.exec c (s.loc a.1) a.2)

def boot (slab : ℕ → Slab) : State P := ⟨.boot slab, fun _ => .idle⟩

def used (live : List ℕ) (b : ℕ) : List ℕ := live.filter fun p => p / c.slabSize = b

def kindOf (n : ℕ) : Kind :=
  if n = c.elemNum then .full else if n = 0 then .empty else .partly

/-- The objects are disjoint parts of slabs that are not freed, a slab that is in a list is in one, once,
which is that for its `in_use` count, and at most two are empty. -/
structure Right (c : Config) (g : Cache) : Prop where
  disjoint : g.live.Pairwise fun p q => p + c.entrySize ≤ q ∨ q + c.entrySize ≤ p
  inside : ∀ p ∈ g.live, ∃ k, ∃ b ∈ g.lists k, b ∈ g.held ∧ b * c.slabSize ≤ p ∧
    p + c.entrySize ≤ b * c.slabSize + (c.slabSize - c.header)
  held : ∀ k, ∀ b ∈ g.lists k, b ∈ g.held
  once : ∀ k, (g.lists k).Nodup
  unique : ∀ b k k', b ∈ g.lists k → b ∈ g.lists k' → k = k'
  count : ∀ k, ∀ b ∈ g.lists k, (g.slab b).inUse = (used c g.live b).length
  kind : ∀ k, ∀ b ∈ g.lists k, k = kindOf c (g.slab b).inUse
  numEmpty : g.numEmpty = (g.lists .empty).length
  retained : (g.lists .empty).length ≤ 2
  asserted : g.failed = false

def Fails (g : Cache) (pc : Pc) : Op → Prop
  | .next _ => pc = .retry none ∧ g.getAvailableLocked.2 = none
  | _ => False

def InHand (b : ℕ) : Prop := ∃ p, pending (s.loc p) = some b

/-- Each block that the cache has is in a list or in the hands of a call, and not in both. -/
def Accounted : Prop := ∀ b ∈ s.shared.held, (∃ k, b ∈ s.shared.lists k) ↔ ¬ InHand s b

def Exhausted : Prop := ∀ b ∈ s.shared.held, ¬ InHand s b → (s.shared.slab b).free = []

/-- The cache is right after the step, and a failed allocation is justified. The block allocator failed
if `alloc` is at `retry none`. -/
def Good (a : P × Op) : Prop :=
  Right c (step c s a).shared ∧ Accounted (step c s a) ∧
    (Fails s.shared (s.loc a.1) a.2 → Exhausted s)

/-- The condition on a step: an object is freed only if the slabs have more than one element, a new slab
has an element at all, and `reap` finds no empty slab. -/
def Safe (g : Cache) : Pc → Op → Prop
  | .idle, .free p => p ∈ g.live → 2 ≤ c.elemNum
  | .idle, .reap => g.lists .empty = []
  | .retry (some _), .next _ => g.getAvailableLocked.2 = none → 0 < c.elemNum
  | .reaping, .next _ => g.lists .empty = []
  | _, _ => True

instance (c : Config) (g : Cache) (pc : Pc) (op : Op) : Decidable (Safe c g pc op) := by
  unfold Safe
  split <;> infer_instance

def Careful (a : P × Op) : Prop := Safe c s.shared (s.loc a.1) a.2
deriving Decidable

end

variable {c : Config} {g : Cache}

section Elements

variable {b i p : ℕ}

theorem mul_add_le {m n : ℕ} (k : ℕ) (h : m < n) : m * k + k ≤ n * k := by
  rw [← Nat.succ_mul]
  exact Nat.mul_le_mul_right k h

theorem elem_le (hi : i < c.elemNum) : i * c.entrySize + c.entrySize ≤ c.slabSize - c.header :=
  (mul_add_le _ hi).trans (Nat.div_mul_le_self ..)

theorem elem_div (hi : i < c.elemNum) : c.elem b i / c.slabSize = b := by
  have hle := elem_le hi
  have hpos := c.entry_pos
  have hsize : 0 < c.slabSize := Nat.two_pow_pos _
  rw [Config.elem, Nat.mul_comm, Nat.mul_add_div hsize, Nat.div_eq_of_lt (by omega), Nat.add_zero]

theorem elem_apart {b' i' : ℕ} (hi : i < c.elemNum) (hi' : i' < c.elemNum)
    (hne : c.elem b i ≠ c.elem b' i') :
    c.elem b i + c.entrySize ≤ c.elem b' i' ∨ c.elem b' i' + c.entrySize ≤ c.elem b i := by
  have hle := elem_le hi
  have hle' := elem_le hi'
  simp only [Config.elem] at hne ⊢
  rcases lt_trichotomy b b' with hb | rfl | hb
  · have hmul := mul_add_le c.slabSize hb
    omega
  · rcases lt_trichotomy i i' with hii | rfl | hii
    · have hmul := mul_add_le c.entrySize hii
      omega
    · exact (hne rfl).elim
    · have hmul := mul_add_le c.entrySize hii
      omega
  · have hmul := mul_add_le c.slabSize hb
    omega

def elements (c : Config) (b : ℕ) : List ℕ := (range c.elemNum).map (c.elem b)

theorem mem_elements : p ∈ elements c b ↔ ∃ i < c.elemNum, p = c.elem b i := by
  simp only [elements, mem_map, mem_range, eq_comm]

theorem nodup_elements (c : Config) (b : ℕ) : (elements c b).Nodup := by
  refine Nodup.map_on (fun i _ j _ heq => ?_) nodup_range
  have hmul : i * c.entrySize = j * c.entrySize := Nat.add_left_cancel heq
  exact Nat.eq_of_mul_eq_mul_right c.entry_pos hmul

theorem new_free (c : Config) (b : ℕ) : (Slab.new c b).free.Perm (elements c b) := by
  have hfold : ∀ (is : List ℕ) (xs : List ℕ),
      (is.foldl (fun free i => c.elem b i :: free) xs).Perm (is.map (c.elem b) ++ xs) := by
    intro is
    induction is with
    | nil => exact fun xs => .refl _
    | cons i is ih => exact fun xs => (ih _).trans perm_middle
  have h := hfold (range c.elemNum) []
  rwa [append_nil] at h

structure SlabOk (c : Config) (g : Cache) (b : ℕ) : Prop where
  elems : (g.slab b).elems = c.elemNum
  perm : ((g.slab b).free ++ used c g.live b).Perm (elements c b)
  inUse : (g.slab b).inUse = (used c g.live b).length

theorem SlabOk.congr {g' : Cache} (h : SlabOk c g b) (hs : g'.slab b = g.slab b)
    (hu : (used c g'.live b).Perm (used c g.live b)) : SlabOk c g' b :=
  ⟨hs ▸ h.elems, hs ▸ (hu.append_left _).trans h.perm, hs ▸ h.inUse.trans hu.length_eq.symm⟩

theorem mem_used {live : List ℕ} : p ∈ used c live b ↔ p ∈ live ∧ p / c.slabSize = b := by
  simp only [used, mem_filter, decide_eq_true_eq]

theorem SlabOk.length (h : SlabOk c g b) : (g.slab b).free.length + (g.slab b).inUse = c.elemNum := by
  have hl := h.perm.length_eq
  rw [length_append, ← h.inUse, elements, length_map, length_range] at hl
  exact hl

end Elements

structure Core (c : Config) (g : Cache) (x : Option ℕ) : Prop where
  nodup : ∀ k, (g.lists k).Nodup
  unique : ∀ b k k', b ∈ g.lists k → b ∈ g.lists k' → k = k'
  kind : ∀ k, ∀ b ∈ g.lists k, x ≠ some b → k = kindOf c (g.slab b).inUse
  slab : ∀ k, ∀ b ∈ g.lists k, SlabOk c g b
  held : ∀ k, ∀ b ∈ g.lists k, b ∈ g.held
  owned : g.held.Nodup
  live : ∀ p ∈ g.live, ∃ k, p / c.slabSize ∈ g.lists k
  asserted : g.failed = false

section Core

variable {x : Option ℕ} {b b' p : ℕ} {k k' : Kind} {live : List ℕ}

theorem mem_add : b' ∈ (g.add k b).lists k' ↔ (k' = k ∧ b' = b) ∨ b' ∈ g.lists k' := by
  change b' ∈ update g.lists k (b :: g.lists k) k' ↔ _
  by_cases hk : k' = k
  · rw [hk, update_self, mem_cons, and_iff_right rfl]
  · rw [update_of_ne hk, or_iff_right fun hc => hk hc.1]

theorem add_of_ne (h : k' ≠ k) : (g.add k b).lists k' = g.lists k' := update_of_ne h ..

theorem add_self : (g.add k b).lists k = b :: g.lists k := update_self ..

theorem Core.mem_remove (h : Core c g x) :
    b' ∈ (g.remove b).lists k ↔ b' ≠ b ∧ b' ∈ g.lists k := (h.nodup k).mem_erase_iff

theorem Core.setNum (h : Core c g x) (n : ℕ) : Core c { g with numEmpty := n } x :=
  { h with slab := fun k b hb => (h.slab k b hb).congr rfl (.refl _) }

theorem Core.reshape (h : Core c g x) (hx : ∀ y, x = some y → y = b) (k' : Kind) {L : Kind → List ℕ}
    (hn : ∀ k, (L k).Nodup) (hL : ∀ k d, d ≠ b → (d ∈ L k ↔ d ∈ g.lists k))
    (hb : (∀ k, b ∈ L k → k = k') ∧ ((∃ k, b ∈ L k) → b ∈ g.held ∧ SlabOk c g b))
    (hlive : b ∈ L k' ∨ used c g.live b = []) : Core c { g with lists := L } (some b) where
  nodup := hn
  unique d k₁ k₂ h₁ h₂ := by
    by_cases hd : d = b
    · subst hd
      rw [hb.1 k₁ h₁, hb.1 k₂ h₂]
    · exact h.unique d k₁ k₂ ((hL k₁ d hd).mp h₁) ((hL k₂ d hd).mp h₂)
  kind k d hd hne := by
    have hdb : d ≠ b := fun hc => hne (congrArg some hc.symm)
    exact h.kind k d ((hL k d hdb).mp hd) fun hc => hdb (hx d hc)
  slab k d hd := by
    by_cases hdb : d = b
    · subst hdb
      exact (hb.2 ⟨k, hd⟩).2.congr rfl (.refl _)
    · exact (h.slab k d ((hL k d hdb).mp hd)).congr rfl (.refl _)
  held k d hd := by
    by_cases hdb : d = b
    · subst hdb
      exact (hb.2 ⟨k, hd⟩).1
    · exact h.held k d ((hL k d hdb).mp hd)
  owned := h.owned
  live p hp := by
    by_cases hpb : p / c.slabSize = b
    · rcases hlive with hin | hused
      · exact ⟨k', hpb ▸ hin⟩
      · have hmem : p ∈ used c g.live b := mem_used.mpr ⟨hp, hpb⟩
        rw [hused] at hmem
        cases hmem
    · obtain ⟨k, hk⟩ := h.live p hp
      exact ⟨k, (hL k _ hpb).mpr hk⟩
  asserted := h.asserted

theorem nodup_add (h : ∀ k, (g.lists k).Nodup) (hb : b ∉ g.lists k) (k₁ : Kind) :
    ((g.add k b).lists k₁).Nodup := by
  by_cases hk : k₁ = k
  · rw [hk, add_self]
    exact nodup_cons.mpr ⟨hb, h k⟩
  · rw [add_of_ne hk]
    exact h k₁

theorem mem_add_of_ne (h : b' ≠ b) : b' ∈ (g.add k b).lists k' ↔ b' ∈ g.lists k' := by
  rw [mem_add, or_iff_right fun hc => h hc.2]

theorem eq_of_mem_add (h : ∀ k, b ∉ g.lists k) (hb : b ∈ (g.add k b).lists k') : k' = k :=
  (mem_add.mp hb).elim And.left fun hb => (h k' hb).elim

section

variable (h : Core c g x)
include h

theorem Core.enlist (hb : ∀ k, b ∉ g.lists k) (hx : ∀ y, x = some y → y = b)
    (hheld : b ∈ g.held) (hok : SlabOk c g b) (k : Kind) : Core c (g.add k b) (some b) :=
  h.reshape hx k (nodup_add h.nodup (hb k)) (fun _ _ => mem_add_of_ne)
    ⟨fun _ => eq_of_mem_add hb, fun _ => ⟨hheld, hok⟩⟩ (.inl (mem_add.mpr (.inl ⟨rfl, rfl⟩)))

theorem Core.not_mem_remove (k : Kind) : b ∉ (g.remove b).lists k :=
  (h.nodup k).not_mem_erase

theorem Core.mem_remove_of_ne (hb : b' ≠ b) : b' ∈ (g.remove b).lists k ↔ b' ∈ g.lists k := by
  rw [h.mem_remove, and_iff_right hb]

theorem Core.unlist (hx : ∀ y, x = some y → y = b) (hused : used c g.live b = []) :
    Core c (g.remove b) none := by
  have hcore : Core c (g.remove b) (some b) :=
    h.reshape hx .empty (fun k => (h.nodup k).erase b) (fun _ _ => h.mem_remove_of_ne)
      ⟨fun k hk => (h.not_mem_remove k hk).elim, fun ⟨k, hk⟩ => (h.not_mem_remove k hk).elim⟩ (.inr hused)
  exact { hcore with
    kind := fun k d hd _ => hcore.kind k d hd fun hc => h.not_mem_remove k (some.inj hc ▸ hd) }

theorem Core.relist (hx : ∀ y, x = some y → y = b) (hb : b ∈ g.lists k') (k : Kind) :
    Core c ((g.remove b).add k b) (some b) :=
  h.reshape hx k (nodup_add (fun k => (h.nodup k).erase b) (h.not_mem_remove k))
    (fun _ _ hd => (mem_add_of_ne hd).trans (h.mem_remove_of_ne hd))
    ⟨fun _ => eq_of_mem_add h.not_mem_remove, fun _ => ⟨h.held k' b hb, h.slab k' b hb⟩⟩
    (.inl (mem_add.mpr (.inl ⟨rfl, rfl⟩)))

end

theorem Core.settle (h : Core c g (some b)) (hb : b ∈ g.lists k) (hk : k = kindOf c (g.slab b).inUse) :
    Core c g none := by
  refine { h with kind := fun k' d hd _ => ?_ }
  by_cases hdb : d = b
  · rw [hdb] at hd ⊢
    rw [h.unique b k' k hd hb, hk]
  · exact h.kind k' d hd fun hc => hdb (some.inj hc).symm

theorem Core.write (h : Core c g x) (hx : ∀ y, x = some y → y = b) {s : Slab}
    {failed : Bool} (helems : s.elems = c.elemNum) (hperm : (s.free ++ used c live b).Perm (elements c b))
    (hinUse : s.inUse = (used c live b).length)
    (hother : ∀ d, d ≠ b → (used c live d).Perm (used c g.live d))
    (hlive : ∀ p ∈ live, ∃ k, p / c.slabSize ∈ g.lists k) (hfailed : failed = false) :
    Core c { g with slab := update g.slab b s, live, failed } (some b) := by
  have hslab : ∀ d, d ≠ b → update g.slab b s d = g.slab d := fun d hd =>
    update_of_ne hd ..
  refine ⟨h.nodup, h.unique, fun k' d hd hne => ?_, fun k' d hd => ?_, h.held, h.owned, hlive, hfailed⟩
  · have hdb : d ≠ b := fun hc => hne (congrArg some hc.symm)
    change k' = kindOf c (update g.slab b s d).inUse
    rw [hslab d hdb]
    exact h.kind k' d hd fun hc => hdb (hx d hc)
  · by_cases hdb : d = b
    · subst hdb
      constructor <;> simpa only [update_self]
    · exact (h.slab k' d hd).congr (hslab d hdb) (hother d hdb)

theorem used_cons_self (hp : p / c.slabSize = b) :
    used c (p :: live) b = p :: used c live b := filter_cons_of_pos (decide_eq_true hp)

theorem used_cons_of_ne (live : List ℕ) (hp : p / c.slabSize ≠ b) :
    used c (p :: live) b = used c live b := filter_cons_of_neg (by simpa using hp)

theorem Core.take (h : Core c g x) (hx : ∀ y, x = some y → y = b) (hb : b ∈ g.lists k) {free : List ℕ}
    (hfree : (g.slab b).free = p :: free) (hsmall : c.elemNum < 2 ^ 16) :
    Core c { g with
      slab := update g.slab b ⟨free, (g.slab b).elems, ((g.slab b).inUse + 1) % 2 ^ 16⟩
      live := p :: g.live } (some b) := by
  have hok := h.slab k b hb
  have hperm := hok.perm
  rw [hfree] at hperm
  have hdiv : p / c.slabSize = b := by
    have hpe : p ∈ elements c b := hperm.mem_iff.mp (mem_append_left _ mem_cons_self)
    obtain ⟨i, hi, rfl⟩ := mem_elements.mp hpe
    exact elem_div hi
  have hlen := hok.length
  rw [hfree, length_cons] at hlen
  refine h.write hx hok.elems ?_ ?_ (fun d hd => ?_) (fun q hq => ?_) h.asserted
  · rw [used_cons_self hdiv]
    exact perm_middle.trans hperm
  · rw [used_cons_self hdiv, length_cons, ← hok.inUse]
    exact Nat.mod_eq_of_lt (by omega)
  · rw [used_cons_of_ne _ fun hc => hd (by rw [← hc, hdiv])]
  · rcases mem_cons.mp hq with rfl | hq
    · exact ⟨k, by rwa [hdiv]⟩
    · exact h.live q hq

theorem Core.release (h : Core c g x) (hx : ∀ y, x = some y → y = b) (hb : b ∈ g.lists k)
    (hp : p ∈ g.live) (hdiv : p / c.slabSize = b) (hsmall : c.elemNum < 2 ^ 16) :
    0 < (g.slab b).inUse ∧ ((g.slab b).release p).inUse = (g.slab b).inUse - 1 ∧
      Core c { g with
        slab := update g.slab b ((g.slab b).release p)
        live := g.live.erase p
        failed := g.failed || decide ((g.slab b).inUse = 0) } (some b) := by
  have hok := h.slab k b hb
  have hlive := perm_cons_erase hp
  have hself : (used c g.live b).Perm (p :: used c (g.live.erase p) b) := by
    rw [← used_cons_self hdiv]
    exact hlive.filter _
  have hcount := hself.length_eq
  rw [← hok.inUse, length_cons] at hcount
  have hlen := hok.length
  have hrelease : ((g.slab b).release p).inUse = (g.slab b).inUse - 1 := by
    change ((g.slab b).inUse + (2 ^ 16 - 1)) % 2 ^ 16 = _
    omega
  refine ⟨by omega, hrelease, h.write hx hok.elems ?_ ?_ (fun d hd => ?_) (fun q hq => ?_) ?_⟩
  · exact (perm_middle.symm.trans (hself.symm.append_left _)).trans hok.perm
  · rw [hrelease, hcount]
    rfl
  · rw [← used_cons_of_ne (p := p) (g.live.erase p) fun hc => hd (by rw [← hc, hdiv])]
    exact (hlive.filter _).symm
  · exact h.live q (mem_of_mem_erase hq)
  · rw [h.asserted, Bool.false_or]
    exact decide_eq_false (by omega)

end Core

structure Inv (c : Config) (g : Cache) : Prop where
  core : Core c g none
  numEmpty : g.numEmpty = (g.lists .empty).length
  retained : (g.lists .empty).length ≤ 2

def Owned (g : Cache) (b : ℕ) : Prop := b ∈ g.held ∧ ∀ k, b ∉ g.lists k

def Local (c : Config) (g : Cache) (pc : Pc) : Prop :=
  ∀ b, pending pc = some b → Owned g b ∧ (pc = .retry (some b) → g.slab b = .new c b)

def Frame (g : Cache) (pc : Pc) (r : Cache × Pc) : Prop :=
  ∀ b, Owned g b → pending pc ≠ some b →
    Owned r.1 b ∧ r.1.slab b = g.slab b ∧ pending r.2 ≠ some b

structure Step (c : Config) (g : Cache) (pc : Pc) (r : Cache × Pc) : Prop where
  inv : Inv c r.1
  loc : Local c r.1 r.2
  frame : Frame g pc r
  back : Frame r.1 r.2 (g, pc)

section Steps

variable {g g' : Cache} {pc : Pc} {b p : ℕ} {k : Kind} {pc' : Pc} {k' : Kind} {n : ℕ}

def Touches (b : ℕ) (g g' : Cache) : Prop :=
  g'.held = g.held ∧ ∀ d, d ≠ b → (∀ k, d ∈ g'.lists k ↔ d ∈ g.lists k) ∧ g'.slab d = g.slab d

theorem Touches.trans {g'' : Cache} (h : Touches b g g') (h' : Touches b g' g'') : Touches b g g'' :=
  ⟨h'.1.trans h.1, fun d hd => ⟨fun k => ((h'.2 d hd).1 k).trans ((h.2 d hd).1 k),
    (h'.2 d hd).2.trans (h.2 d hd).2⟩⟩

theorem Touches.symm (h : Touches b g g') : Touches b g' g :=
  ⟨h.1.symm, fun d hd => ⟨fun k => ((h.2 d hd).1 k).symm, (h.2 d hd).2.symm⟩⟩

theorem Touches.owned (h : Touches b g g') {d : ℕ} (hd : Owned g d) (hne : d ≠ b) :
    Owned g' d ∧ g'.slab d = g.slab d :=
  ⟨⟨h.1 ▸ hd.1, fun k hk => hd.2 k (((h.2 d hne).1 k).mp hk)⟩, (h.2 d hne).2⟩

theorem touches_relist (g : Cache) (k : Kind) (b : ℕ) : Touches b g ((g.remove b).add k b) := by
  refine ⟨rfl, fun d hd => ⟨fun k' => ?_, rfl⟩⟩
  exact (mem_add_of_ne hd).trans (mem_erase_of_ne hd)

theorem Touches.frame (h : Touches b g g') (hb : (∃ k, b ∈ g.lists k) ∨ pending pc = some b)
    (hpc : ∀ d, pending pc' = some d → d = b ∨ pending pc = some d) : Frame g pc (g', pc') := by
  intro d hd hne
  have hdb : d ≠ b := by
    rintro rfl
    rcases hb with ⟨k, hb⟩ | hb
    · exact hd.2 k hb
    · exact hne hb
  obtain ⟨howned, hslab⟩ := h.owned hd hdb
  refine ⟨howned, hslab, fun hc => ?_⟩
  rcases hpc d hc with hc | hc
  · exact hdb hc
  · exact hne hc

theorem Touches.step (h : Touches b g g') (hinv : Inv c g') (hloc : Local c g' pc')
    (hb : (∃ k, b ∈ g.lists k) ∨ pending pc = some b)
    (hb' : (∃ k, b ∈ g'.lists k) ∨ pending pc' = some b)
    (hpc : ∀ d, d ≠ b → (pending pc' = some d ↔ pending pc = some d)) : Step c g pc (g', pc') where
  inv := hinv
  loc := hloc
  frame := h.frame hb fun d hd => or_iff_not_imp_left.mpr fun hne => (hpc d hne).mp hd
  back := h.symm.frame hb' fun d hd => or_iff_not_imp_left.mpr fun hne => (hpc d hne).mpr hd

theorem kindOf_eq_partly : kindOf c n = .partly ↔ n ≠ c.elemNum ∧ n ≠ 0 := by
  rw [kindOf]
  split_ifs with h₁ h₂
  · exact iff_of_false nofun fun hc => hc.1 h₁
  · exact iff_of_false nofun fun hc => hc.2 h₂
  · exact iff_of_true rfl ⟨h₁, h₂⟩

theorem kindOf_eq_empty : kindOf c n = .empty ↔ n ≠ c.elemNum ∧ n = 0 := by
  rw [kindOf]
  split_ifs with h₁ h₂
  · exact iff_of_false nofun fun hc => hc.1 h₁
  · exact iff_of_true rfl ⟨h₁, h₂⟩
  · exact iff_of_false nofun fun hc => h₂ hc.2

theorem kindOf_eq_full : kindOf c n = .full ↔ n = c.elemNum := by
  rw [kindOf]
  split_ifs with h₁ h₂
  · exact iff_of_true rfl h₁
  · exact iff_of_false nofun h₁
  · exact iff_of_false nofun h₁

theorem Core.relist_empty {x : Option ℕ} (h : Core c g x) (hb : b ∈ g.lists k) (hk : k ≠ .empty)
    (hk' : k' ≠ .empty) : ((g.remove b).add k' b).lists .empty = g.lists .empty := by
  rw [add_of_ne (Ne.symm hk')]
  exact erase_of_not_mem fun hc => hk (h.unique b k .empty hb hc)

theorem Core.relist_inv (h : Core c g (some b)) (hb : b ∈ g.lists k) (hk : k ≠ .empty)
    (hk' : k' ≠ .empty) (hkind : k' = kindOf c (g.slab b).inUse)
    (hnum : g.numEmpty = (g.lists .empty).length) (hret : (g.lists .empty).length ≤ 2) :
    Inv c ((g.remove b).add k' b) := by
  have hempty := h.relist_empty hb hk hk'
  refine ⟨(h.relist (fun y hy => (some.inj hy).symm) hb k').settle
    (mem_add.mpr (.inl ⟨rfl, rfl⟩)) hkind, ?_, ?_⟩
  · rw [hempty]
    exact hnum
  · rw [hempty]
    exact hret

theorem take_inv (h : Core c g (some b)) (hb : b ∈ g.lists .partly) (hlt : (g.slab b).inUse < c.elemNum)
    (hsmall : c.elemNum < 2 ^ 16) (hnum : g.numEmpty = (g.lists .empty).length)
    (hret : (g.lists .empty).length ≤ 2) :
    Inv c (g.take b) ∧ Touches b g (g.take b) ∧ ∃ k, b ∈ (g.take b).lists k := by
  have hok := h.slab .partly b hb
  have hlen := hok.length
  cases hfree : (g.slab b).free with
  | nil =>
    rw [hfree, length_nil] at hlen
    omega
  | cons p free =>
    have hcore := h.take (fun y hy => (some.inj hy).symm) hb hfree hsmall
    have htouch : Touches b g { g with
        slab := update g.slab b ⟨free, (g.slab b).elems, ((g.slab b).inUse + 1) % 2 ^ 16⟩
        live := p :: g.live } :=
      ⟨rfl, fun d hd => ⟨fun _ => .rfl, update_of_ne hd ..⟩⟩
    simp only [Cache.take, Slab.alloc, hfree]
    split_ifs with hfull
    · refine ⟨hcore.relist_inv hb (by decide) (by decide) (kindOf_eq_full.mpr ?_).symm hnum hret,
        htouch.trans (touches_relist _ _ _), .full, mem_add.mpr (.inl ⟨rfl, rfl⟩)⟩
      change (update g.slab b _ b).inUse = _
      rw [update_self, ← hok.elems]
      exact hfull
    · refine ⟨⟨hcore.settle hb (kindOf_eq_partly.mpr ?_).symm, hnum, hret⟩, htouch, .partly, hb⟩
      change (update g.slab b _ b).inUse ≠ _ ∧ (update g.slab b _ b).inUse ≠ 0
      rw [update_self, ← hok.elems]
      refine ⟨hfull, ?_⟩
      change ((g.slab b).inUse + 1) % 2 ^ 16 ≠ 0
      omega

section

variable (h : Inv c g)
include h

theorem Step.stay (hpc : pending pc = none) (hpc' : pending pc' = none) : Step c g pc (g, pc') :=
  ⟨h, fun _ hb => (nomatch hpc'.symm.trans hb),
    fun _ hb _ => ⟨hb, rfl, fun hc => nomatch hpc'.symm.trans hc⟩,
    fun _ hb _ => ⟨hb, rfl, fun hc => nomatch hpc.symm.trans hc⟩⟩

theorem blockAlloc_step (m : Option ℕ) : Step c g .miss (g.blockAlloc c m) := by
  cases m with
  | none => exact .stay h rfl rfl
  | some b =>
    rw [Cache.blockAlloc]
    split_ifs with hb
    · exact .stay h rfl rfl
    · have hne : ∀ d ∈ g.held, d ≠ b := fun d hd hc => hb (by rwa [← hc])
      have hslab : ∀ d ∈ g.held, update g.slab b (Slab.new c b) d = g.slab d := fun d hd =>
        update_of_ne (hne d hd) ..
      refine ⟨⟨⟨h.core.nodup, h.core.unique, fun k d hd hx => ?_, fun k d hd => ?_, fun k d hd => ?_,
        nodup_cons.mpr ⟨hb, h.core.owned⟩, h.core.live, h.core.asserted⟩, h.numEmpty, h.retained⟩,
        fun d hd => ?_, fun d hd _ => ?_, fun d hd hn => ?_⟩
      · change k = kindOf c (update g.slab b _ d).inUse
        rw [hslab d (h.core.held k d hd)]
        exact h.core.kind k d hd hx
      · exact (h.core.slab k d hd).congr (hslab d (h.core.held k d hd)) (.refl _)
      · exact mem_cons_of_mem _ (h.core.held k d hd)
      · obtain rfl := some.inj hd
        exact ⟨⟨mem_cons_self, fun k hk => hb (h.core.held k _ hk)⟩, fun _ => update_self ..⟩
      · refine ⟨⟨mem_cons_of_mem _ hd.1, hd.2⟩, hslab d hd.1, fun hc => ?_⟩
        exact hne d hd.1 (some.inj hc).symm
      · have hdb : d ≠ b := fun hc => hn (congrArg some hc.symm)
        have hheld : d ∈ g.held := (mem_cons.mp hd.1).resolve_left hdb
        exact ⟨⟨hheld, hd.2⟩, (hslab d hheld).symm, nofun⟩

theorem blockFree_step (hb : Owned g b) (hpc : pending pc = some b)
    (hpc' : pending pc' = none) : Step c g pc (g.blockFree b, pc') := by
  have hne : ∀ d, Owned g d → d ≠ b → Owned (g.blockFree b) d := fun d hd hdb =>
    ⟨(mem_erase_of_ne hdb).mpr hd.1, hd.2⟩
  refine ⟨⟨⟨h.core.nodup, h.core.unique, h.core.kind, fun k d hd => ?_, fun k d hd => ?_,
    h.core.owned.erase b, h.core.live, h.core.asserted⟩, h.numEmpty, h.retained⟩,
    fun d hd => (nomatch hpc'.symm.trans hd), fun d hd hn => ?_, fun d hd _ => ?_⟩
  · exact (h.core.slab k d hd).congr rfl (.refl _)
  · refine (mem_erase_of_ne ?_).mpr (h.core.held k d hd)
    rintro rfl
    exact hb.2 k hd
  · refine ⟨hne d hd fun hc => hn (by rw [hpc, hc]), rfl, fun hc => nomatch hpc'.symm.trans hc⟩
  · obtain ⟨hdb, hheld⟩ := h.core.owned.mem_erase_iff.mp hd.1
    exact ⟨⟨hheld, hd.2⟩, rfl, fun hc => hdb (some.inj (hc.symm.trans hpc))⟩

variable (hsmall : c.elemNum < 2 ^ 16)
include hsmall

theorem Inv.getAvailable :
    (∃ g' b k, g.getAvailableLocked = (g', some b) ∧ b ∈ g.lists k ∧ Inv c (g'.take b) ∧
      Touches b g (g'.take b) ∧ ∃ k, b ∈ (g'.take b).lists k) ∨
    (g.getAvailableLocked = (g, none) ∧ g.lists .partly = [] ∧ g.lists .empty = []) := by
  rw [Cache.getAvailableLocked]
  cases hp : g.lists .partly with
  | cons b bs =>
    have hb : b ∈ g.lists .partly := by
      rw [hp]
      exact mem_cons_self
    have hkind := kindOf_eq_partly.mp (h.core.kind .partly b hb nofun).symm
    have hlen := (h.core.slab .partly b hb).length
    exact .inl ⟨g, b, .partly, rfl, hb,
      take_inv { h.core with kind := fun k d hd _ => h.core.kind k d hd nofun } hb (by omega) hsmall
        h.numEmpty h.retained⟩
  | nil =>
    cases he : g.lists .empty with
    | nil => exact .inr ⟨rfl, rfl, rfl⟩
    | cons b bs =>
      have hb : b ∈ g.lists .empty := by
        rw [he]
        exact mem_cons_self
      have hkind := kindOf_eq_empty.mp (h.core.kind .empty b hb nofun).symm
      have hnum := h.numEmpty
      have hret := h.retained
      rw [he, length_cons] at hnum hret
      have hless : (g.numEmpty + (2 ^ 32 - 1)) % 2 ^ 32 = bs.length := by omega
      rw [hless]
      have hempty : ((Cache.remove { g with numEmpty := bs.length } b).add .partly b).lists .empty =
          bs := by
        rw [add_of_ne (by decide)]
        change (g.lists .empty).erase b = bs
        rw [he, erase_cons_head]
      have hlt : (g.slab b).inUse < c.elemNum := by omega
      obtain ⟨hinv, htouch, hin⟩ := take_inv ((h.core.setNum bs.length).relist nofun hb .partly)
        (mem_add.mpr (.inl ⟨rfl, rfl⟩)) hlt hsmall (by rw [hempty]; rfl) (by rw [hempty]; omega)
      exact .inl ⟨_, b, .empty, rfl, hb, hinv, (touches_relist _ _ _).trans htouch, hin⟩

theorem allocFirst_step : Step c g .idle g.allocFirst := by
  rw [Cache.allocFirst]
  rcases h.getAvailable hsmall with ⟨g', b, k, heq, hb, hinv, htouch, hin⟩ | ⟨heq, -, -⟩
  · rw [heq]
    exact htouch.step hinv nofun (.inl ⟨_, hb⟩) (.inl hin) fun _ _ => .rfl
  · rw [heq]
    exact .stay h rfl rfl

theorem slabOk_new (hb : Owned g b) (hnew : g.slab b = .new c b) : SlabOk c g b := by
  have hused : used c g.live b = [] := by
    refine eq_nil_iff_forall_not_mem.mpr fun p hp => ?_
    obtain ⟨hlive, hdiv⟩ := mem_used.mp hp
    obtain ⟨k, hk⟩ := h.core.live p hlive
    rw [hdiv] at hk
    exact hb.2 k hk
  refine ⟨?_, ?_, ?_⟩
  · rw [hnew]
    exact Nat.mod_eq_of_lt hsmall
  · rw [hused, append_nil, hnew]
    exact new_free c b
  · rw [hused, hnew]
    rfl

theorem allocAgain_step {m : Option ℕ} (hm : Local c g (.retry m))
    (hpos : ∀ b, m = some b → g.getAvailableLocked.2 = none → 0 < c.elemNum) :
    Step c g (.retry m) (g.allocAgain m) := by
  rcases h.getAvailable hsmall with ⟨g', b, k, heq, hb, hinv, ht, hin⟩ | ⟨heq, -, -⟩
  · cases m with
    | none =>
      have hres : g.allocAgain none = (g'.take b, .idle) := by simp only [Cache.allocAgain, heq]
      rw [hres]
      exact ht.step hinv nofun (.inl ⟨_, hb⟩) (.inl hin) fun _ _ => .rfl
    | some m =>
      have hres : g.allocAgain (some m) = (g'.take b, .unused m) := by simp only [Cache.allocAgain, heq]
      rw [hres]
      obtain ⟨hown, -⟩ := hm m rfl
      have hne : m ≠ b := by
        rintro rfl
        exact hown.2 k hb
      refine ht.step hinv (fun d hd => ⟨?_, nofun⟩) (.inl ⟨_, hb⟩) (.inl hin) fun _ _ => .rfl
      obtain rfl := some.inj hd
      exact (ht.owned hown hne).1
  · cases m with
    | none =>
      have hres : g.allocAgain none = (g, .idle) := by simp only [Cache.allocAgain, heq]
      rw [hres]
      exact .stay h rfl rfl
    | some m =>
      have hres : g.allocAgain (some m) = ((g.add .partly m).take m, .idle) := by
        simp only [Cache.allocAgain, heq]
      rw [hres]
      obtain ⟨hown, hnew⟩ := hm m rfl
      have hok := slabOk_new h hsmall hown (hnew rfl)
      have hcore := h.core.enlist hown.2 nofun hown.1 hok .partly
      have hempty : (g.add .partly m).lists .empty = g.lists .empty := add_of_ne (by decide)
      have hlt : ((g.add .partly m).slab m).inUse < c.elemNum := by
        change (g.slab m).inUse < _
        rw [hnew rfl]
        exact hpos m rfl (by rw [heq])
      obtain ⟨hinv, htouch, hin⟩ := take_inv hcore (mem_add.mpr (.inl ⟨rfl, rfl⟩)) hlt hsmall
        (by rw [hempty]; exact h.numEmpty) (by rw [hempty]; exact h.retained)
      have hadd : Touches m g (g.add .partly m) := ⟨rfl, fun d hd => ⟨fun k => mem_add_of_ne hd, rfl⟩⟩
      exact (hadd.trans htouch).step hinv nofun (.inr rfl) (.inl hin) fun d hd =>
        iff_of_false nofun fun hc => hd (some.inj hc).symm

theorem freeLocked_step (hp : p ∈ g.live) (hmany : 2 ≤ c.elemNum) : Step c g .idle (g.freeLocked c p) := by
  obtain ⟨k, hb⟩ := h.core.live p hp
  obtain ⟨hpos, hcount, hcore⟩ := h.core.release nofun hb hp rfl hsmall
  have hkind := h.core.kind k _ hb nofun
  have helems := (h.core.slab k _ hb).elems
  have hlen := (h.core.slab k _ hb).length
  have hheld := h.core.held k _ hb
  rw [Cache.freeLocked]
  generalize p / c.slabSize = b at *
  generalize hg₁ : { g with
    slab := update g.slab b ((g.slab b).release p)
    live := g.live.erase p
    failed := g.failed || decide ((g.slab b).inUse = 0) } = g₁ at *
  have hslab : (g₁.slab b).inUse = (g.slab b).inUse - 1 := by
    rw [← hg₁, ← hcount]
    change (update g.slab b _ b).inUse = _
    rw [update_self]
  have hlists : g₁.lists = g.lists := by rw [← hg₁]
  have htouch : Touches b g g₁ := by
    rw [← hg₁]
    exact ⟨rfl, fun d hd => ⟨fun _ => .rfl, update_of_ne hd ..⟩⟩
  have hnum : g₁.numEmpty = (g₁.lists .empty).length := by
    rw [hlists, ← hg₁]
    exact h.numEmpty
  have hret : (g₁.lists .empty).length ≤ 2 := by
    rw [hlists]
    exact h.retained
  have hb₁ : b ∈ g₁.lists k := by rwa [hlists]
  have hx : ∀ y, some b = some y → y = b := fun y hy => (some.inj hy).symm
  simp only [Slab.isFull, Slab.isEmpty, hcount, helems]
  by_cases hfull : (g.slab b).inUse = c.elemNum
  · -- a full slab with at least two elements is partly used afterwards
    rw [if_pos hfull]
    have hk : k = .full := hkind.trans (kindOf_eq_full.mpr hfull)
    have hkind' := kindOf_eq_partly.mpr (show (g₁.slab b).inUse ≠ c.elemNum ∧ (g₁.slab b).inUse ≠ 0 by omega)
    exact (htouch.trans (touches_relist g₁ .partly b)).step
      (hcore.relist_inv hb₁ (by rw [hk]; decide) (by decide) hkind'.symm hnum hret) nofun
      (.inl ⟨_, hb⟩) (.inl ⟨_, mem_add.mpr (.inl ⟨rfl, rfl⟩)⟩) fun _ _ => .rfl
  · rw [if_neg hfull]
    have hk : k = .partly := hkind.trans (kindOf_eq_partly.mpr ⟨hfull, by omega⟩)
    rw [hk] at hb hb₁
    have hout : b ∉ g₁.lists .empty := fun hc => nomatch hcore.unique b .partly .empty hb₁ hc
    by_cases hlast : (g.slab b).inUse - 1 = 0
    · rw [if_pos hlast]
      by_cases hroom : g₁.numEmpty < 2
      · rw [if_pos hroom]
        have hempty : ((g₁.remove b).add .empty b).lists .empty = b :: g₁.lists .empty := by
          rw [add_self]
          exact congrArg (b :: ·) (erase_of_not_mem hout)
        have hmore : (g₁.numEmpty + 1) % 2 ^ 32 = (b :: g₁.lists .empty).length := by
          rw [length_cons]
          omega
        rw [hmore]
        have hcore' := (hcore.relist hx hb₁ .empty).settle (mem_add.mpr (.inl ⟨rfl, rfl⟩))
          (kindOf_eq_empty.mpr (show (g₁.slab b).inUse ≠ _ ∧ (g₁.slab b).inUse = 0 by omega)).symm
        have htouch' := htouch.trans (touches_relist g₁ .empty b)
        have hin : b ∈ ((g₁.remove b).add .empty b).lists .empty := mem_add.mpr (.inl ⟨rfl, rfl⟩)
        refine Touches.step htouch' ⟨hcore'.setNum _, ?_, ?_⟩ nofun (.inl ⟨_, hb⟩) (.inl ⟨.empty, hin⟩)
          fun _ _ => .rfl
        · exact congrArg length hempty.symm
        · rw [hempty, length_cons]
          omega
      · rw [if_neg hroom]
        have hused : used c g₁.live b = [] := by
          refine eq_nil_of_length_eq_zero ?_
          rw [← (hcore.slab .partly b hb₁).inUse, hslab, hlast]
        have hempty : (g₁.remove b).lists .empty = g₁.lists .empty := erase_of_not_mem hout
        have hremove : Touches b g₁ (g₁.remove b) :=
          ⟨rfl, fun d hd => ⟨fun _ => mem_erase_of_ne hd, rfl⟩⟩
        refine (htouch.trans hremove).step ⟨hcore.unlist hx hused, ?_, ?_⟩ (fun d hd => ⟨?_, nofun⟩)
          (.inl ⟨_, hb⟩) (.inr rfl) fun d hd => iff_of_false (fun hc => hd (some.inj hc).symm) nofun
        · rw [hempty]
          exact hnum
        · rw [hempty]
          exact hret
        · obtain rfl := some.inj hd
          exact ⟨htouch.1 ▸ hheld, fun k' hk' => (hcore.mem_remove.mp hk').1 rfl⟩
    · rw [if_neg hlast]
      refine htouch.step ⟨hcore.settle hb₁ (kindOf_eq_partly.mpr ?_).symm, hnum, hret⟩ nofun
        (.inl ⟨_, hb⟩) (.inl ⟨_, hb₁⟩) fun _ _ => .rfl
      omega

theorem exec_step (hloc : Local c g pc) {op : Op}
    (hsafe : Safe c g pc op) : Step c g pc (g.exec c pc op) := by
  have hsame : Step c g pc (g, pc) :=
    ⟨h, hloc, fun b hb hn => ⟨hb, rfl, hn⟩, fun b hb hn => ⟨hb, rfl, hn⟩⟩
  have hreap : g.lists .empty = [] → pending pc = none → Step c g pc g.reapLocked := by
    intro hnone hpc
    rw [Cache.reapLocked, hnone]
    exact .stay h hpc rfl
  cases pc with
  | idle =>
    cases op with
    | alloc => exact allocFirst_step h hsmall
    | free p =>
      rw [Cache.exec]
      split_ifs with hp
      · exact freeLocked_step h hsmall hp (hsafe hp)
      · exact hsame
    | reap => exact hreap hsafe rfl
    | next m => exact hsame
  | miss =>
    cases op with
    | next m => exact blockAlloc_step h m
    | _ => exact hsame
  | retry m =>
    cases op with
    | next m' =>
      refine allocAgain_step h hsmall hloc fun b hb hnone => ?_
      subst hb
      exact hsafe hnone
    | _ => exact hsame
  | unused b | surplus b | reaped b =>
    cases op with
    | next m => exact blockFree_step h (hloc b rfl).1 rfl rfl
    | _ => exact hsame
  | reaping =>
    cases op with
    | next m => exact hreap hsafe rfl
    | _ => exact hsame

end

theorem nodup_of_used {live : List ℕ} (h : ∀ b, (used c live b).Nodup) : live.Nodup := by
  induction live with
  | nil => exact .nil
  | cons p live ih =>
    refine nodup_cons.mpr ⟨fun hp => ?_, ih fun b => ?_⟩
    · have hself := h (p / c.slabSize)
      rw [used_cons_self rfl] at hself
      exact (nodup_cons.mp hself).1 (mem_used.mpr ⟨hp, rfl⟩)
    · exact (h b).sublist ((sublist_cons_self p live).filter _)

section

variable (h : Inv c g)
include h

theorem Inv.live_elem (hp : p ∈ g.live) :
    ∃ k, ∃ b ∈ g.lists k, ∃ i < c.elemNum, p = c.elem b i := by
  obtain ⟨k, hk⟩ := h.core.live p hp
  have hmem : p ∈ elements c (p / c.slabSize) :=
    (h.core.slab k _ hk).perm.mem_iff.mp (mem_append_right _ (mem_used.mpr ⟨hp, rfl⟩))
  exact ⟨k, _, hk, mem_elements.mp hmem⟩

theorem Inv.nodup_live : g.live.Nodup := by
  refine nodup_of_used (c := c) fun b => ?_
  by_cases hb : ∃ k, b ∈ g.lists k
  · obtain ⟨k, hk⟩ := hb
    exact (nodup_append.mp ((h.core.slab k b hk).perm.nodup_iff.mpr (nodup_elements c b))).2.1
  · have hnone : used c g.live b = [] := by
      refine eq_nil_iff_forall_not_mem.mpr fun p hp => hb ?_
      obtain ⟨hlive, rfl⟩ := mem_used.mp hp
      exact h.core.live p hlive
    rw [hnone]
    exact .nil

theorem Inv.right : Right c g where
  disjoint := by
    refine h.nodup_live.pairwise_of_forall_ne fun p hp q hq hne => ?_
    obtain ⟨-, b, -, i, hi, rfl⟩ := h.live_elem hp
    obtain ⟨-, b', -, i', hi', rfl⟩ := h.live_elem hq
    exact elem_apart hi hi' hne
  inside p hp := by
    obtain ⟨k, b, hb, i, hi, rfl⟩ := h.live_elem hp
    have hle := elem_le hi
    refine ⟨k, b, hb, h.core.held k b hb, Nat.le_add_right _ _, ?_⟩
    rw [Config.elem]
    omega
  held := h.core.held
  once := h.core.nodup
  unique := h.core.unique
  count k b hb := (h.core.slab k b hb).inUse
  kind k b hb := h.core.kind k b hb nofun
  numEmpty := h.numEmpty
  retained := h.retained
  asserted := h.core.asserted

theorem not_right_reapLocked (hsome : g.lists .empty ≠ []) : ¬ Right c g.reapLocked.1 := by
  intro hright
  rw [Cache.reapLocked] at hright
  cases he : g.lists .empty with
  | nil => exact hsome he
  | cons b bs =>
    rw [he] at hright
    have hnum := hright.numEmpty
    change g.numEmpty = ((g.lists .empty).erase b).length at hnum
    rw [h.numEmpty, he, erase_cons_head, length_cons] at hnum
    omega

variable (hsmall : c.elemNum < 2 ^ 16)
include hsmall

theorem Inv.exhausted (hnone : g.getAvailableLocked.2 = none) (hb : b ∈ g.lists k) :
    (g.slab b).free = [] := by
  rcases h.getAvailable hsmall with ⟨g', b, k, heq, -⟩ | ⟨-, hpartly, hempty⟩
  · rw [heq] at hnone
    cases hnone
  · cases k with
    | full =>
      have hfull := kindOf_eq_full.mp (h.core.kind .full b hb nofun).symm
      have hlen := (h.core.slab .full b hb).length
      exact eq_nil_of_length_eq_zero (by omega)
    | partly =>
      rw [hpartly] at hb
      cases hb
    | empty =>
      rw [hempty] at hb
      cases hb

theorem not_right_freeLocked (hp : p ∈ g.live) (hone : ¬ 2 ≤ c.elemNum) : ¬ Right c (g.freeLocked c p).1 := by
  obtain ⟨k, hb⟩ := h.core.live p hp
  obtain ⟨hpos, hcount, -⟩ := h.core.release nofun hb hp rfl hsmall
  have hok := h.core.slab k _ hb
  have hlen := hok.length
  have hfull : (g.slab (p / c.slabSize)).inUse = (g.slab (p / c.slabSize)).elems := by
    rw [hok.elems]
    omega
  intro hright
  rw [Cache.freeLocked] at hright
  simp only [Slab.isFull, if_pos hfull] at hright
  have hkind := hright.kind .partly (p / c.slabSize) (mem_add.mpr (.inl ⟨rfl, rfl⟩))
  have hzero := (kindOf_eq_partly.mp hkind.symm).2
  change (update g.slab _ _ _).inUse ≠ 0 at hzero
  rw [update_self, hcount] at hzero
  omega

theorem not_right_allocAgain {m : ℕ} (hm : Local c g (.retry (some m)))
    (hnone : g.getAvailableLocked.2 = none) (hzero : ¬ 0 < c.elemNum) :
    ¬ Right c (g.allocAgain (some m)).1 := by
  rcases h.getAvailable hsmall with ⟨g', b, k, heq, -⟩ | ⟨heq, -, -⟩
  · rw [heq] at hnone
    cases hnone
  · intro hright
    have hfree : ((g.add .partly m).slab m).free = [] := by
      change (g.slab m).free = []
      rw [(hm m rfl).2 rfl, Slab.new, Nat.eq_zero_of_not_pos hzero]
      rfl
    have hfail : ((g.add .partly m).take m).failed = true := by
      rw [Cache.take, Slab.alloc, hfree]
    have hres : g.allocAgain (some m) = ((g.add .partly m).take m, .idle) := by
      simp only [Cache.allocAgain, heq]
    rw [hres] at hright
    exact nomatch hfail.symm.trans hright.asserted

theorem right_exec_iff (hloc : Local c g pc) {op : Op} :
    Right c (g.exec c pc op).1 ↔ Safe c g pc op := by
  constructor
  · intro hright
    by_contra hunsafe
    cases pc with
    | idle =>
      cases op with
      | free p =>
        obtain ⟨hp, hone⟩ := not_forall.mp hunsafe
        rw [Cache.exec, if_pos hp] at hright
        exact not_right_freeLocked h hsmall hp hone hright
      | reap => exact not_right_reapLocked h hunsafe hright
      | _ => exact hunsafe trivial
    | retry m =>
      cases op with
      | next m' =>
        cases m with
        | none => exact hunsafe trivial
        | some m =>
          obtain ⟨hnone, hzero⟩ := not_forall.mp hunsafe
          exact not_right_allocAgain h hsmall hloc hnone hzero hright
      | _ => cases m <;> exact hunsafe trivial
    | reaping =>
      cases op with
      | next m => exact not_right_reapLocked h hunsafe hright
      | _ => exact hunsafe trivial
    | _ => cases op <;> exact hunsafe trivial
  · intro hsafe
    exact (exec_step h hsmall hloc hsafe).inv.right

end

end Steps

section Run

variable {s : State P} {a : P × Op}

structure SysInv (c : Config) (s : State P) : Prop extends
    Interleaving.Inv (Inv c) (fun _ => Local c)
      (fun l m => ∀ b, pending l = some b → pending m ≠ some b) s where
  answered : ∀ b, Interleaving.Answered (Owned · b) (fun _ _ l => pending l = some b) s

omit [DecidableEq P] in
theorem SysInv.accounted (h : SysInv c s) : Accounted s := by
  intro b hb
  constructor
  · rintro ⟨k, hk⟩ ⟨p, hp⟩
    exact (h.loc p b hp).1.2 k hk
  · intro hfree
    by_contra hnone
    exact hfree (h.answered b ⟨hb, fun k hk => hnone ⟨k, hk⟩⟩)

theorem SysInv.step (h : SysInv c s) (hsmall : c.elemNum < 2 ^ 16) (hcareful : Careful c s a) :
    SysInv c (step c s a) := by
  have hstep := exec_step h.shared hsmall (h.loc a.1) hcareful
  refine ⟨h.toInv.move (fun l m hlm b hm hl => hlm b hl hm) hstep.inv hstep.loc fun j hj => ?_,
    fun b => (h.answered b).move fun hown hpc => ?_⟩
  · have hother : ∀ b, pending (s.loc j) = some b → pending (s.loc a.1) ≠ some b := h.pair j a.1 hj
    refine ⟨fun b hb => ?_, fun b hr hb => ?_⟩
    · obtain ⟨hown, hnew⟩ := h.loc j b hb
      obtain ⟨hown', hslab, -⟩ := hstep.frame b hown (hother b hb)
      exact ⟨hown', fun hpc => hslab.trans (hnew hpc)⟩
    · exact (hstep.frame b (h.loc j b hb).1 (hother b hb)).2.2 hr
  · obtain ⟨hown', -, hpc'⟩ := hstep.back b hown hpc
    exact ⟨hown', hpc', fun _ _ => id⟩

theorem SysInv.good_iff (h : SysInv c s) (hsmall : c.elemNum < 2 ^ 16) :
    Good c s a ↔ Careful c s a := by
  have hright : Right c (SlabCache.step c s a).shared ↔ Careful c s a :=
    right_exec_iff h.shared hsmall (h.loc a.1)
  refine ⟨fun hgood => hright.mp hgood.1, fun hcareful => ⟨hright.mpr hcareful,
    (h.step hsmall hcareful).accounted, fun hfails b hb hfree => ?_⟩⟩
  obtain ⟨p, op⟩ := a
  cases op with
  | next m =>
    obtain ⟨k, hk⟩ := (h.accounted b hb).mpr hfree
    exact h.shared.exhausted hsmall hfails.2 hk
  | _ => exact hfails.elim

omit [DecidableEq P] in
theorem sysInv_boot (c : Config) (slab : ℕ → Slab) : SysInv c (boot slab : State P) :=
  ⟨⟨⟨⟨fun _ => .nil, nofun, nofun, nofun, nofun, .nil, nofun, rfl⟩, rfl, Nat.zero_le _⟩, nofun, nofun⟩,
    fun _ hown => nomatch hown.1⟩

theorem good_iff_careful (c : Config) (hsmall : c.elemNum < 2 ^ 16) (slab : ℕ → Slab)
    (as : List (P × Op)) :
    Machine.Along (step c) (Good c) (boot slab) as ↔
      Machine.Along (step c) (Careful c) (boot slab) as :=
  Machine.along_congr (fun _ _ h hgood => SysInv.step h hsmall ((h.good_iff hsmall).mp hgood))
    (fun _ _ h => h.good_iff hsmall) (sysInv_boot c slab)

end Run

def pairs : Config := ⟨4, 8, 0, by decide⟩

def singles : Config := ⟨4, 8, 8, by decide⟩

def blank : ℕ → Slab := fun _ => ⟨[], 0, 0⟩

def bothMiss : List (Bool × Op) :=
  [(true, .alloc), (false, .alloc), (true, .next (some 5)), (false, .next (some 7)), (false, .next none),
    (true, .next none), (true, .next none), (false, .free 112), (true, .free 120)]

theorem good_bothMiss :
    Machine.Along (step pairs) (Good pairs) (boot blank) bothMiss :=
  (good_iff_careful pairs (by decide) blank _).mpr (by decide)

def once : List (Unit × Op) :=
  [((), .alloc), ((), .next (some 0)), ((), .next none), ((), .free 8)]

/-- `reap` takes the empty slab, which is still counted. A slab with one element stays in the list of
the slabs that are partly used. -/
theorem not_good_reaped :
    ¬ Machine.Along (step pairs) (Good pairs) (boot blank) (once ++ [((), .reap)]) ∧
    ¬ Machine.Along (step singles) (Good singles) (boot blank)
      [((), .alloc), ((), .next (some 0)), ((), .next none), ((), .free 0)] := by
  constructor
  · intro h
    exact absurd h.2.2.2.2.1.1.numEmpty (by decide)
  · intro h
    exact absurd (h.2.2.2.1.1.kind .partly 0 (by decide)) (by decide)

end Fiasco.SlabCache
