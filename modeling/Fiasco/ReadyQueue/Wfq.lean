import Fiasco.Lib.BinaryHeap
import Fiasco.Lib.Machine

/-!
# The weighted-fair ready queue

Scheduling contexts that are ready are in a heap, the one with the least deadline first. Each of
them points to its slot of the heap, and the idle context to the member `idle` of the queue.

Indices are of the type `unsigned`. The index of the idle context is the one of a slot before the
heap.
-/

namespace Fiasco.ReadyQueueWfq

open Option Function Machine Finset

open BinaryHeap

variable {E : Type}

inductive Link where
  | idle
  | slot (n : ℕ)
deriving DecidableEq

def Link.index : Link → ℕ
  | .idle => 2 ^ 32 - 3
  | .slot n => n

structure Queue (E : Type) where
  idle : E
  current : Option E
  cnt : ℕ
  heap : ℕ → E
  link : E → Option Link
  dl : E → ℕ

def heapSize : ℕ := 1024

namespace Queue

variable [DecidableEq E]

def swap (q : Queue E) (a b : ℕ) : Queue E :=
  { q with
    link := update (update q.link (q.heap a) (some (.slot b))) (q.heap b) (some (.slot a))
    heap := update (update q.heap a (q.heap b)) b (q.heap a) }

def heapUp : ℕ → Queue E → ℕ → Queue E
  | 0, q, _ => q
  | k + 1, q, a =>
    if a = 0 then q
    else if q.dl (q.heap ((a - 1) / 2)) < q.dl (q.heap a) then q
    else heapUp k (q.swap ((a - 1) / 2) a) ((a - 1) / 2)

def child (q : Queue E) (a : ℕ) : ℕ :=
  if (2 * a + 2) % 2 ^ 32 < q.cnt ∧
      q.dl (q.heap ((2 * a + 2) % 2 ^ 32)) ≤ q.dl (q.heap ((2 * a + 1) % 2 ^ 32)) then
    (2 * a + 2) % 2 ^ 32
  else (2 * a + 1) % 2 ^ 32

def heapDown : ℕ → Queue E → ℕ → Queue E
  | 0, q, _ => q
  | k + 1, q, a =>
    if q.cnt ≤ (2 * a + 1) % 2 ^ 32 then q
    else if q.dl (q.heap a) ≤ q.dl (q.heap (q.child a)) then q
    else heapDown k (q.swap (q.child a) a) (q.child a)

section

variable (q : Queue E) (i : E)

/-- There is no next state if the kernel panics. -/
def enqueue : Option (Queue E) :=
  if q.link i ≠ none then some q
  else if heapSize ≤ q.cnt then none
  else
    some (heapUp q.cnt
      { q with
        cnt := q.cnt + 1
        heap := update q.heap q.cnt i
        link := update q.link i (some (.slot q.cnt)) } q.cnt)

def unlink : Queue E := { q with link := update q.link i none }

def dequeue : Queue E :=
  match q.link i with
  | none => q
  | some l =>
    if i = q.idle then q
    else if l.index = q.cnt - 1 then ({ q with cnt := q.cnt - 1 }).unlink i
    else (heapDown q.cnt (({ q with cnt := q.cnt - 1 }).swap l.index (q.cnt - 1)) l.index).unlink i

def requeue : Option (Queue E) :=
  (if q.link i = none then q.enqueue i else some q).map fun q =>
    match q.link i with
    | some l => heapDown q.cnt q l.index
    | none => q

/-- `next_to_run` gives the idle context the deadline of the current one. -/
def nextToRun : E × Queue E :=
  if 0 < q.cnt then (q.heap 0, q)
  else
    (q.idle,
      match q.current with
      | some c => { q with dl := update q.dl q.idle (q.dl c) }
      | none => q)

end

end Queue

/-- `requeue i d` increases the deadline by `d` before. The deadline of a context that is not queued
may be set to any value. -/
inductive Op (E : Type) where
  | enqueue (i : E)
  | dequeue (i : E)
  | requeue (i : E) (d : ℕ)
  | setDeadline (i : E) (dl : ℕ)
  | activate (i : Option E)
  | nextToRun

section Model

variable [DecidableEq E]

def Queue.exec (q : Queue E) : Op E → Option (Queue E)
  | .enqueue i => q.enqueue i
  | .dequeue i => some (q.dequeue i)
  | .requeue i d => ({ q with dl := update q.dl i (q.dl i + d) }).requeue i
  | .setDeadline i dl =>
    some (if q.link i = none then { q with dl := update q.dl i dl } else q)
  | .activate i => some { q with current := i }
  | .nextToRun => some q.nextToRun.2

def members (idle : E) (s : Finset E) : Op E → Finset E
  | .enqueue i | .requeue i _ => if i = idle then s else insert i s
  | .dequeue i => s.erase i
  | .setDeadline _ _ | .activate _ | .nextToRun => s

abbrev State (E : Type) := Option (Queue E × Finset E)

def step (s : State E) (o : Op E) : State E :=
  s.bind fun s => (s.1.exec o).map fun q => (q, members s.1.idle s.2 o)

def boot (idle : E) (dl : E → ℕ) : State E :=
  some ({ idle := idle
          current := none
          cnt := 0
          heap := fun _ => idle
          link := update (fun _ => none) idle (some .idle)
          dl := dl }, ∅)

end Model

structure Right [DecidableEq E] (q : Queue E) (s : Finset E) : Prop where
  ordered : Ordered (q.dl ∘ q.heap) q.cnt
  own : ∀ k < q.cnt, q.link (q.heap k) = some (.slot k)
  null : ∀ e ∉ s, e ≠ q.idle → q.link e = none
  mem : ∀ e, e ∈ s ↔ ∃ k < q.cnt, q.heap k = e
  least : s.Nonempty → q.nextToRun.1 ∈ s ∧ ∀ e ∈ s, q.dl q.nextToRun.1 ≤ q.dl e
  empty : s = ∅ → q.nextToRun.1 = q.idle

def Placed (q : Queue E) (i : E) : Prop :=
  match q.link i with
  | some (.slot x) =>
    0 < x → x < q.cnt - 1 → q.dl (q.heap (parent x)) ≤ q.dl (q.heap (q.cnt - 1))
  | _ => True

def Slots (q : Queue E) (n : ℕ) : Prop := ∀ e k, q.link e = some (.slot k) ↔ k < n ∧ q.heap k = e

structure Moved (m : ℕ) (q q' : Queue E) : Prop where
  idle : q'.idle = q.idle
  current : q'.current = q.current
  cnt : q'.cnt = q.cnt
  dl : q'.dl = q.dl
  above : ∀ k, m ≤ k → q'.heap k = q.heap k
  slots : ∀ n, m ≤ n → Slots q n → Slots q' n
  other : ∀ e, (∀ k < m, q.heap k ≠ e) → q'.link e = q.link e
  range : ∀ e, (∃ k < m, q'.heap k = e) ↔ ∃ k < m, q.heap k = e

section Moved

variable {q q' q'' : Queue E} {m n a b : ℕ}

theorem Slots.inj (h : Slots q n) (ha : a < n) (hb : b < n) (heq : q.heap a = q.heap b) : a = b := by
  have h₁ := (h (q.heap a) a).mpr ⟨ha, rfl⟩
  have h₂ := (h (q.heap a) b).mpr ⟨hb, heq.symm⟩
  exact Link.slot.inj (some.inj (h₁.symm.trans h₂))

theorem Moved.refl : Moved m q q :=
  ⟨rfl, rfl, rfl, rfl, fun _ _ => rfl, fun _ _ h => h, fun _ _ => rfl, fun _ => .rfl⟩

theorem Moved.trans (h : Moved m q q') (h' : Moved m q' q'') : Moved m q q'' := by
  refine ⟨h'.idle.trans h.idle, h'.current.trans h.current, h'.cnt.trans h.cnt, h'.dl.trans h.dl,
    fun k hk => (h'.above k hk).trans (h.above k hk), fun n hn hs => h'.slots n hn (h.slots n hn hs),
    fun e he => ?_, fun e => (h'.range e).trans (h.range e)⟩
  refine (h'.other e fun k hk heq => ?_).trans (h.other e he)
  obtain ⟨j, hj, hje⟩ := (h.range e).mp ⟨k, hk, heq⟩
  exact he j hj hje

theorem Moved.mono (h : Moved m q q') (hmn : m ≤ n) : Moved n q q' := by
  have hbetween {k : ℕ} (hk : m ≤ k) : q'.heap k = q.heap k := h.above k hk
  refine ⟨h.idle, h.current, h.cnt, h.dl, fun k hk => hbetween (hmn.trans hk),
    fun j hj => h.slots j (hmn.trans hj), fun e he => h.other e fun k hk => he k (hk.trans_le hmn),
    fun e => ⟨?_, ?_⟩⟩
  · rintro ⟨k, hk, hke⟩
    by_cases hkm : k < m
    · obtain ⟨j, hj, hje⟩ := (h.range e).mp ⟨k, hkm, hke⟩
      exact ⟨j, hj.trans_le hmn, hje⟩
    · exact ⟨k, hk, (hbetween (not_lt.mp hkm)).symm.trans hke⟩
  · rintro ⟨k, hk, hke⟩
    by_cases hkm : k < m
    · obtain ⟨j, hj, hje⟩ := (h.range e).mpr ⟨k, hkm, hke⟩
      exact ⟨j, hj.trans_le hmn, hje⟩
    · exact ⟨k, hk, (hbetween (not_lt.mp hkm)).trans hke⟩

variable [DecidableEq E]

theorem heap_swap (q : Queue E) (a b : ℕ) : (q.swap a b).heap = q.heap ∘ Equiv.swap a b := by
  funext k
  change update (update q.heap a (q.heap b)) b (q.heap a) k = _
  by_cases hb : k = b
  · rw [hb, update_self, comp_swap_right]
  · rw [update_of_ne hb]
    by_cases ha : k = a
    · rw [ha, update_self, comp_swap_left]
    · rw [update_of_ne ha, comp_swap_of_ne ha hb]

theorem link_swap_right (q : Queue E) (a b : ℕ) : (q.swap a b).link (q.heap b) = some (.slot a) :=
  update_self ..

theorem link_swap_left (q : Queue E) (h : q.heap a ≠ q.heap b) :
    (q.swap a b).link (q.heap a) = some (.slot b) := by
  change update _ _ _ _ = _
  rw [update_of_ne h, update_self]

theorem link_swap_of_ne (q : Queue E) {e : E} (ha : e ≠ q.heap a) (hb : e ≠ q.heap b) :
    (q.swap a b).link e = q.link e := by
  change update _ _ _ _ = _
  rw [update_of_ne hb, update_of_ne ha]

theorem Slots.swap (h : Slots q n) (ha : a < n) (hb : b < n) : Slots (q.swap a b) n := by
  have hlt {k : ℕ} : Equiv.swap a b k < n ↔ k < n := by
    rw [Equiv.swap_apply_def]
    split_ifs <;> omega
  have hkey {k : ℕ} (hk : k < n) : (q.swap a b).link (q.heap k) = some (.slot (Equiv.swap a b k)) := by
    by_cases hkb : k = b
    · rw [hkb, link_swap_right, Equiv.swap_apply_right]
    · have hneb : q.heap k ≠ q.heap b := fun heq => hkb (h.inj hk hb heq)
      by_cases hka : k = a
      · rw [hka] at hneb ⊢
        rw [link_swap_left q hneb, Equiv.swap_apply_left]
      · have hnea : q.heap k ≠ q.heap a := fun heq => hka (h.inj hk ha heq)
        rw [link_swap_of_ne q hnea hneb, Equiv.swap_apply_of_ne_of_ne hka hkb]
        exact (h _ k).mpr ⟨hk, rfl⟩
  intro e k
  constructor
  · intro hl
    by_cases he : ∃ j < n, q.heap j = e
    · obtain ⟨j, hj, rfl⟩ := he
      rw [hkey hj] at hl
      obtain rfl := Link.slot.inj (some.inj hl)
      refine ⟨hlt.mpr hj, ?_⟩
      rw [heap_swap, comp_apply, Equiv.swap_apply_self]
    · have hne {j : ℕ} (hj : j < n) : e ≠ q.heap j := fun heq => he ⟨j, hj, heq.symm⟩
      rw [link_swap_of_ne q (hne ha) (hne hb)] at hl
      exact (he ⟨k, (h e k).mp hl⟩).elim
  · rintro ⟨hk, rfl⟩
    rw [heap_swap, comp_apply, hkey (hlt.mpr hk), Equiv.swap_apply_self]

theorem Moved.swap (ha : a < m) (hb : b < m) : Moved m q (q.swap a b) := by
  refine ⟨rfl, rfl, rfl, rfl, fun k hk => ?_, fun n hn h => h.swap (ha.trans_le hn) (hb.trans_le hn),
    fun e he => link_swap_of_ne q (he a ha).symm (he b hb).symm, fun e => ?_⟩
  · rw [heap_swap]
    exact comp_swap_of_ne (by omega) (by omega)
  · rw [heap_swap]
    have hlt {k : ℕ} (hk : k < m) : Equiv.swap a b k < m := by
      rw [Equiv.swap_apply_def]
      split_ifs <;> omega
    constructor
    · rintro ⟨k, hk, rfl⟩
      exact ⟨_, hlt hk, rfl⟩
    · rintro ⟨k, hk, rfl⟩
      refine ⟨Equiv.swap a b k, hlt hk, ?_⟩
      rw [comp_apply, Equiv.swap_apply_self]

end Moved

section Sift

variable [DecidableEq E] {q : Queue E} {k a : ℕ}

theorem moved_heapUp (ha : a < q.cnt) : Moved q.cnt q (q.heapUp k a) := by
  induction k generalizing q a with
  | zero => exact .refl
  | succ k ih =>
    rw [Queue.heapUp]
    split_ifs with h0 hlt
    · exact .refl
    · exact .refl
    · have hp : (a - 1) / 2 < q.cnt := by omega
      exact (Moved.swap hp ha).trans (ih (q := q.swap ((a - 1) / 2) a) hp)

theorem ordered_heapUp (h : UpOrdered (q.dl ∘ q.heap) q.cnt a) (ha : a < q.cnt) (hk : a ≤ k) :
    Ordered ((q.heapUp k a).dl ∘ (q.heapUp k a).heap) q.cnt := by
  induction k generalizing q a with
  | zero => exact h.ordered fun hpos => by omega
  | succ k ih =>
    rw [Queue.heapUp]
    split_ifs with h0 hlt
    · exact h.ordered fun hpos => by omega
    · exact h.ordered fun _ => hlt.le
    · have hpos : 0 < a := by omega
      have hle : (q.dl ∘ q.heap) a ≤ (q.dl ∘ q.heap) (parent a) := not_lt.mp hlt
      have hswap := h.swap hpos ha hle
      apply ih (q := q.swap ((a - 1) / 2) a)
      · rw [heap_swap]
        exact hswap
      · exact (parent_lt hpos).trans ha
      · have hlt := parent_lt hpos
        omega

structure Least (q : Queue E) (a c : ℕ) : Prop where
  pos : 0 < c
  lt : c < q.cnt
  parent : parent c = a
  le : ∀ i, 0 < i → i < q.cnt → BinaryHeap.parent i = a → q.dl (q.heap c) ≤ q.dl (q.heap i)

omit [DecidableEq E] in
theorem least_child (hcnt : q.cnt ≤ heapSize) (h : 2 * a + 1 < q.cnt) : Least q a (q.child a) := by
  have hsize : q.cnt ≤ 1024 := hcnt
  have h₁ : (2 * a + 1) % 2 ^ 32 = 2 * a + 1 := Nat.mod_eq_of_lt (by omega)
  have h₂ : (2 * a + 2) % 2 ^ 32 = 2 * a + 2 := Nat.mod_eq_of_lt (by omega)
  rw [Queue.child, h₁, h₂]
  split_ifs with hc
  · refine ⟨by omega, hc.1, (parent_eq_iff (by omega)).mpr (.inr rfl), fun i hpos hi hp => ?_⟩
    rcases (parent_eq_iff hpos).mp hp with rfl | rfl
    · exact hc.2
    · exact le_rfl
  · refine ⟨by omega, h, (parent_eq_iff (by omega)).mpr (.inl rfl), fun i hpos hi hp => ?_⟩
    rcases (parent_eq_iff hpos).mp hp with rfl | rfl
    · exact le_rfl
    · exact le_of_not_ge fun hle => hc ⟨hi, hle⟩

theorem moved_heapDown (hcnt : q.cnt ≤ heapSize) (ha : a < q.cnt) :
    Moved q.cnt q (q.heapDown k a) := by
  induction k generalizing q a with
  | zero => exact .refl
  | succ k ih =>
    have hsize : q.cnt ≤ 1024 := hcnt
    rw [Queue.heapDown]
    split_ifs with hleaf hle
    · exact .refl
    · exact .refl
    · have hlt : 2 * a + 1 < q.cnt := by
        rwa [Nat.mod_eq_of_lt (by omega), not_le] at hleaf
      have hc := (least_child hcnt hlt).lt
      exact (Moved.swap hc ha).trans (ih (q := q.swap (q.child a) a) hcnt hc)

theorem ordered_heapDown (h : DownOrdered (q.dl ∘ q.heap) q.cnt a) (hcnt : q.cnt ≤ heapSize)
    (ha : a < q.cnt) (hk : q.cnt ≤ a + k) :
    Ordered ((q.heapDown k a).dl ∘ (q.heapDown k a).heap) q.cnt := by
  induction k generalizing q a with
  | zero => omega
  | succ k ih =>
    have hsize : q.cnt ≤ 1024 := hcnt
    rw [Queue.heapDown]
    split_ifs with hleaf hle
    · rw [Nat.mod_eq_of_lt (by omega)] at hleaf
      apply h.ordered
      intro i hpos hi hp
      rcases (parent_eq_iff hpos).mp hp with rfl | rfl <;> omega
    · by_cases hlt : 2 * a + 1 < q.cnt
      · apply h.ordered
        intro i hpos hi hp
        exact hle.trans ((least_child hcnt hlt).le i hpos hi hp)
      · rw [Nat.mod_eq_of_lt (by omega)] at hleaf
        omega
    · have hlt : 2 * a + 1 < q.cnt := by
        rwa [Nat.mod_eq_of_lt (by omega), not_le] at hleaf
      obtain ⟨hpos, hc, hp, hleast⟩ := least_child hcnt hlt
      have hac : a < q.child a := by
        have hlt := parent_lt hpos
        rwa [hp] at hlt
      apply ih (q := q.swap (q.child a) a)
      · rw [heap_swap]
        exact h.swap hpos hc hp (le_of_not_ge hle) hleast
      · exact hcnt
      · exact hc
      · change q.cnt ≤ q.child a + k
        omega

theorem heapDown_eq_self (hcnt : q.cnt ≤ heapSize) (ha : a < q.cnt)
    (h : ∀ i, 0 < i → i < q.cnt → parent i = a → q.dl (q.heap a) ≤ q.dl (q.heap i)) :
    q.heapDown k a = q := by
  cases k with
  | zero => rfl
  | succ k =>
    have hsize : q.cnt ≤ 1024 := hcnt
    rw [Queue.heapDown]
    split_ifs with hleaf hle
    · rfl
    · rfl
    · rw [Nat.mod_eq_of_lt (by omega), not_le] at hleaf
      have hc := least_child hcnt hleaf
      exact (hle (h _ hc.pos hc.lt hc.parent)).elim

end Sift

structure Linked (q : Queue E) (s : Finset E) : Prop where
  bound : q.cnt ≤ heapSize
  slots : Slots q q.cnt
  idle : ∀ e, q.link e = some .idle ↔ e = q.idle
  mem : ∀ e, e ∈ s ↔ ∃ k < q.cnt, q.heap k = e

section Linked

variable {q q' : Queue E} {s : Finset E} {i : E} {m : ℕ} {n : ℕ}

theorem Linked.link_heap (h : Linked q s) {k : ℕ} (hk : k < q.cnt) :
    q.link (q.heap k) = some (.slot k) :=
  (h.slots _ k).mpr ⟨hk, rfl⟩

theorem Linked.link_eq_none (h : Linked q s) (hi : i ∉ s) (hne : i ≠ q.idle) : q.link i = none := by
  cases hl : q.link i with
  | none => rfl
  | some l =>
    cases l with
    | idle => exact (hne ((h.idle i).mp hl)).elim
    | slot k => exact (hi ((h.mem i).mpr ⟨k, (h.slots i k).mp hl⟩)).elim

theorem idle_moved (hslots : Slots q n) (hidle : ∀ e, q.link e = some .idle ↔ e = q.idle)
    (hm : Moved m q q') (hmn : m ≤ n) (e : E) : q'.link e = some .idle ↔ e = q'.idle := by
  rw [hm.idle]
  by_cases he : ∃ k < m, q.heap k = e
  · obtain ⟨k, hk, hke⟩ := he
    obtain ⟨j, hj, hje⟩ := (hm.range e).mpr ⟨k, hk, hke⟩
    rw [(hm.slots n hmn hslots e j).mpr ⟨hj.trans_le hmn, hje⟩, ← hidle e,
      (hslots e k).mpr ⟨hk.trans_le hmn, hke⟩]
    exact iff_of_false nofun nofun
  · rw [hm.other e fun k hk heq => he ⟨k, hk, heq⟩]
    exact hidle e

theorem Linked.moved (h : Linked q s) (hm : Moved m q q') (hmc : m = q.cnt) : Linked q' s := by
  subst hmc
  refine ⟨hm.cnt.trans_le h.bound, hm.cnt ▸ hm.slots q.cnt le_rfl h.slots,
    idle_moved h.slots h.idle hm le_rfl, fun e => ?_⟩
  rw [hm.cnt, hm.range e]
  exact h.mem e

variable [DecidableEq E] {x : ℕ} {p : Queue E}

theorem Linked.right_iff (h : Linked q s) : Right q s ↔ Ordered (q.dl ∘ q.heap) q.cnt := by
  refine ⟨Right.ordered, fun ho => ⟨ho, fun k hk => h.link_heap hk, fun e he hne => h.link_eq_none he hne,
    h.mem, fun hs => ?_, fun hs => ?_⟩⟩
  · obtain ⟨e, he⟩ := hs
    obtain ⟨k, hk, -⟩ := (h.mem e).mp he
    have hpos : 0 < q.cnt := by omega
    rw [Queue.nextToRun, if_pos hpos]
    refine ⟨(h.mem _).mpr ⟨0, hpos, rfl⟩, fun e he => ?_⟩
    obtain ⟨k, hk, rfl⟩ := (h.mem e).mp he
    exact ho.root_le hk
  · have hzero : ¬ 0 < q.cnt := by
      intro hpos
      have hm := (h.mem _).mpr ⟨0, hpos, rfl⟩
      rw [hs] at hm
      exact notMem_empty _ hm
    rw [Queue.nextToRun, if_neg hzero]

structure Kept (q : Queue E) (s : Finset E) : Prop where
  linked : Linked q s
  ordered : Ordered (q.dl ∘ q.heap) q.cnt

theorem Linked.unlink_last (hslots : Slots q (n + 1)) (hbound : n ≤ heapSize) (hcnt : q.cnt = n)
    (hlast : q.heap n = i) (hidle : ∀ e, q.link e = some .idle ↔ e = q.idle)
    (hmem : ∀ e, e ∈ s ↔ ∃ k < n + 1, q.heap k = e) : Linked (q.unlink i) (s.erase i) := by
  have hlink : q.link i = some (.slot n) := (hslots i n).mpr ⟨by omega, hlast⟩
  have hne {k : ℕ} (hk : k < n) : q.heap k ≠ i := by
    intro heq
    have hkn := hslots.inj (by omega) (by omega) (heq.trans hlast.symm)
    omega
  refine ⟨hcnt.trans_le hbound, fun e k => ?_, fun e => ?_, fun e => ?_⟩
  · change update q.link i none e = _ ↔ k < q.cnt ∧ q.heap k = e
    rw [hcnt]
    by_cases he : e = i
    · rw [he, update_self]
      refine iff_of_false nofun ?_
      rintro ⟨hk, hki⟩
      exact hne hk hki
    · rw [update_of_ne he, hslots e k]
      constructor
      · rintro ⟨hk, hke⟩
        refine ⟨?_, hke⟩
        by_contra hge
        have hkn : k = n := by omega
        rw [hkn, hlast] at hke
        exact he hke.symm
      · rintro ⟨hk, hke⟩
        exact ⟨by omega, hke⟩
  · change update q.link i none e = _ ↔ e = q.idle
    by_cases he : e = i
    · rw [he, update_self]
      refine iff_of_false nofun ?_
      intro heq
      rw [(hidle i).mpr heq] at hlink
      cases hlink
    · rw [update_of_ne he]
      exact hidle e
  · rw [mem_erase, hmem e]
    change _ ↔ ∃ k < q.cnt, q.heap k = e
    rw [hcnt]
    constructor
    · rintro ⟨hne', k, hk, hke⟩
      refine ⟨k, ?_, hke⟩
      by_contra hge
      have hkn : k = n := by omega
      rw [hkn, hlast] at hke
      exact hne' hke.symm
    · rintro ⟨k, hk, hke⟩
      refine ⟨?_, k, by omega, hke⟩
      rintro rfl
      exact hne hk hke

omit [DecidableEq E] in
theorem Linked.notMem_of_link (h : Linked q s) (hi : ∀ x, q.link i ≠ some (.slot x)) : i ∉ s := by
  intro hm
  obtain ⟨k, hk, rfl⟩ := (h.mem i).mp hm
  exact hi k (h.link_heap hk)

theorem dequeue_idle (hl : q.link i = some .idle) (hi : i = q.idle) : q.dequeue i = q := by
  rw [Queue.dequeue, hl]
  exact if_pos hi

theorem dequeue_slot (hl : q.link i = some (.slot x)) (hi : i ≠ q.idle) (hn : q.cnt = n + 1) :
    q.dequeue i =
      if x = n then ({ q with cnt := n } : Queue E).unlink i
      else (Queue.heapDown q.cnt (({ q with cnt := n } : Queue E).swap x n) x).unlink i := by
  have hpred : q.cnt - 1 = n := by omega
  rw [Queue.dequeue, hl, ← hpred]
  exact if_neg hi

theorem heapDown_idle (h : q.cnt ≤ heapSize) (k : ℕ) : q.heapDown k Link.idle.index = q := by
  cases k with
  | zero => rfl
  | succ k =>
    rw [Queue.heapDown]
    exact if_pos (h.trans (by decide))

theorem requeue_some {l : Link} (hl : q.link i = some l) :
    q.requeue i = some (q.heapDown q.cnt l.index) := by
  rw [Queue.requeue, if_neg (hl ▸ some_ne_none l), map_some, hl]

variable (h : Kept q s)
include h

theorem Kept.right : Right q s := h.linked.right_iff.mpr h.ordered

theorem Kept.setDl (hi : i ∉ s) (d : ℕ) : Kept { q with dl := update q.dl i d } s := by
  refine ⟨⟨h.linked.bound, h.linked.slots, h.linked.idle, h.linked.mem⟩, fun k hpos hk => ?_⟩
  have hne {j : ℕ} (hj : j < q.cnt) : q.heap j ≠ i :=
    fun heq => hi ((h.linked.mem i).mpr ⟨j, hj, heq⟩)
  change update q.dl i d _ ≤ update q.dl i d _
  rw [update_of_ne (hne hk), update_of_ne (hne ((parent_lt hpos).trans hk))]
  exact h.ordered k hpos hk

theorem Kept.push (hi : q.link i = none) (hroom : q.cnt < heapSize) :
    Kept (Queue.heapUp q.cnt
      { q with
        cnt := q.cnt + 1
        heap := update q.heap q.cnt i
        link := update q.link i (some (.slot q.cnt)) } q.cnt) (insert i s) := by
  generalize hp : ({ q with
    cnt := q.cnt + 1
    heap := update q.heap q.cnt i
    link := update q.link i (some (.slot q.cnt)) } : Queue E) = p
  have hcnt : p.cnt = q.cnt + 1 := by rw [← hp]
  have hheap : p.heap = update q.heap q.cnt i := by rw [← hp]
  have hlink : p.link = update q.link i (some (.slot q.cnt)) := by rw [← hp]
  have hdl : p.dl = q.dl := by rw [← hp]
  have hidle : p.idle = q.idle := by rw [← hp]
  have hbelow {k : ℕ} (hk : k < q.cnt) : p.heap k = q.heap k := by
    rw [hheap, update_of_ne hk.ne]
  have hlast : p.heap q.cnt = i := by rw [hheap, update_self]
  have hlinked : Linked p (insert i s) := by
    refine ⟨by omega, fun e k => ?_, fun e => ?_, fun e => ?_⟩
    · rw [hlink, hcnt]
      by_cases he : e = i
      · rw [he, update_self]
        constructor
        · intro hk
          obtain rfl := Link.slot.inj (some.inj hk)
          exact ⟨by omega, hlast⟩
        · rintro ⟨hk, hki⟩
          by_cases hkc : k = q.cnt
          · rw [hkc]
          · have hlt : k < q.cnt := by omega
            rw [hbelow hlt] at hki
            have hl := h.linked.link_heap hlt
            rw [hki, hi] at hl
            cases hl
      · rw [update_of_ne he, h.linked.slots e k]
        constructor
        · rintro ⟨hk, hke⟩
          exact ⟨by omega, (hbelow hk).trans hke⟩
        · rintro ⟨hk, hke⟩
          have hlt : k < q.cnt := by
            by_contra hge
            have hkc : k = q.cnt := by omega
            rw [hkc, hlast] at hke
            exact he hke.symm
          exact ⟨hlt, (hbelow hlt).symm.trans hke⟩
    · rw [hlink, hidle]
      by_cases he : e = i
      · rw [he, update_self]
        refine iff_of_false nofun ?_
        rintro rfl
        rw [(h.linked.idle _).mpr rfl] at hi
        cases hi
      · rw [update_of_ne he]
        exact h.linked.idle e
    · rw [mem_insert, h.linked.mem e, hcnt]
      constructor
      · rintro (rfl | ⟨k, hk, hke⟩)
        · exact ⟨q.cnt, by omega, hlast⟩
        · exact ⟨k, by omega, (hbelow hk).trans hke⟩
      · rintro ⟨k, hk, hke⟩
        by_cases hkc : k = q.cnt
        · rw [hkc, hlast] at hke
          exact .inl hke.symm
        · have hlt : k < q.cnt := by omega
          exact .inr ⟨k, hlt, (hbelow hlt).symm.trans hke⟩
  have hlt : q.cnt < p.cnt := by omega
  have hmoved : Moved p.cnt p (p.heapUp q.cnt q.cnt) := moved_heapUp hlt
  refine ⟨hlinked.moved hmoved rfl, ?_⟩
  rw [hmoved.cnt]
  refine ordered_heapUp ?_ hlt le_rfl
  rw [hcnt]
  apply Ordered.upOrdered_last
  intro k hpos hk
  change p.dl _ ≤ p.dl _
  rw [hdl, hbelow hk, hbelow ((parent_lt hpos).trans hk)]
  exact h.ordered k hpos hk

theorem Kept.sink {d : ℕ} (hx : q.link i = some (.slot x)) :
    Kept (Queue.heapDown q.cnt { q with dl := update q.dl i (q.dl i + d) } x) s := by
  obtain ⟨hxc, hxi⟩ := (h.linked.slots i x).mp hx
  have hne {j : ℕ} (hj : j < q.cnt) (hjx : j ≠ x) : q.heap j ≠ i :=
    fun heq => hjx (h.linked.slots.inj hj hxc (heq.trans hxi.symm))
  generalize hp : ({ q with dl := update q.dl i (q.dl i + d) } : Queue E) = p
  have hcnt : p.cnt = q.cnt := by rw [← hp]
  have hheap : p.heap = q.heap := by rw [← hp]
  have hdl : p.dl = update q.dl i (q.dl i + d) := by rw [← hp]
  have hlinked : Linked p s := by
    rw [← hp]
    exact ⟨h.linked.bound, h.linked.slots, h.linked.idle, h.linked.mem⟩
  have hlt : x < p.cnt := by omega
  have hmoved : Moved p.cnt p (p.heapDown q.cnt x) := moved_heapDown hlinked.bound hlt
  refine ⟨hlinked.moved hmoved rfl, ?_⟩
  rw [hmoved.cnt]
  refine ordered_heapDown ?_ hlinked.bound hlt (by omega)
  rw [hcnt]
  refine h.ordered.downOrdered le_rfl (fun hpos => ?_) hxc fun j hj hjx => ?_
  · have hup := h.ordered x hpos hxc
    change q.dl (q.heap x) ≥ _ at hup
    change _ ≤ p.dl (p.heap x)
    rw [hdl, hheap, hxi, update_self]
    rw [hxi] at hup
    exact hup.trans (Nat.le_add_right _ d)
  · change p.dl (p.heap j) = q.dl (q.heap j)
    rw [hdl, hheap, update_of_ne (hne hj hjx)]

theorem Kept.replace (hx : q.link i = some (.slot x)) (hn : q.cnt = n + 1) (hxn : x < n) :
    Linked ((Queue.heapDown q.cnt (({ q with cnt := n } : Queue E).swap x n) x).unlink i) (s.erase i) ∧
      (Ordered (((Queue.heapDown q.cnt (({ q with cnt := n } : Queue E).swap x n) x).unlink i).dl ∘
        ((Queue.heapDown q.cnt (({ q with cnt := n } : Queue E).swap x n) x).unlink i).heap) n ↔
        (0 < x → q.dl (q.heap (parent x)) ≤ q.dl (q.heap n))) := by
  obtain ⟨hxc, hxi⟩ := (h.linked.slots i x).mp hx
  have hslots : Slots ({ q with cnt := n } : Queue E) (n + 1) := hn ▸ h.linked.slots
  have hbound : n ≤ heapSize := by
    have hb := h.linked.bound
    omega
  have hput : Moved (n + 1) ({ q with cnt := n } : Queue E) (({ q with cnt := n } : Queue E).swap x n) :=
    .swap (by omega) (by omega)
  have hpheap : (({ q with cnt := n } : Queue E).swap x n).heap = q.heap ∘ Equiv.swap x n := heap_swap _ x n
  generalize ({ q with cnt := n } : Queue E).swap x n = p at hput hpheap ⊢
  have hpdl : p.dl = q.dl := hput.dl
  have hpcnt : p.cnt = n := hput.cnt
  have hpbound : p.cnt ≤ heapSize := hpcnt ▸ hbound
  have hpx : x < p.cnt := hpcnt ▸ hxn
  have hdown : Moved p.cnt p (p.heapDown q.cnt x) := moved_heapDown hpbound hpx
  rw [hpcnt] at hdown
  have hoff {j : ℕ} (hj : j < n) (hjx : j ≠ x) : p.heap j = q.heap j := by
    rw [hpheap]
    exact comp_swap_of_ne hjx hj.ne
  have hlast : p.heap x = q.heap n := by rw [hpheap, comp_swap_left]
  constructor
  · refine Linked.unlink_last (hdown.slots _ (by omega) (hput.slots _ le_rfl hslots)) hbound
      (hdown.cnt.trans hpcnt) ?_ (idle_moved (hput.slots _ le_rfl hslots)
        (idle_moved hslots h.linked.idle hput le_rfl) hdown (by omega)) fun e => ?_
    · rw [hdown.above n le_rfl, hpheap, comp_swap_right]
      exact hxi
    · have hall : (∃ k < n + 1, (p.heapDown q.cnt x).heap k = e) ↔ ∃ k < n + 1, q.heap k = e :=
        ((hdown.mono (Nat.le_succ n)).range e).trans (hput.range e)
      rw [hall, ← hn]
      exact h.linked.mem e
  · constructor
    · intro ho hpos
      by_contra hlt
      have hself : p.heapDown q.cnt x = p := by
        apply heapDown_eq_self hpbound hpx
        intro j hjpos hj hjp
        have hxj : x < j := hjp ▸ parent_lt hjpos
        rw [hpdl, hlast, hoff (hpcnt ▸ hj) hxj.ne']
        have h₁ := h.ordered x hpos hxc
        have h₂ := h.ordered j hjpos (by omega)
        rw [hjp] at h₂
        exact (not_le.mp hlt).le.trans (h₁.trans h₂)
      rw [hself] at ho
      have hbad := ho x hpos hxn
      have hp := parent_lt hpos
      change p.dl (p.heap (parent x)) ≤ p.dl (p.heap x) at hbad
      rw [hpdl, hlast, hoff (by omega) hp.ne] at hbad
      exact hlt hbad
    · intro hplaced
      rw [← hpcnt]
      refine ordered_heapDown ?_ hpbound hpx (by omega)
      rw [hpcnt]
      refine h.ordered.downOrdered (by omega) (fun hpos => ?_) hxn fun j hj hjx => ?_
      · change _ ≤ p.dl (p.heap x)
        rw [hpdl, hlast]
        exact hplaced hpos
      · change p.dl (p.heap j) = q.dl (q.heap j)
        rw [hpdl, hoff hj hjx]

theorem Kept.dequeue (i : E) :
    Linked (q.dequeue i) (s.erase i) ∧ (Right (q.dequeue i) (s.erase i) ↔ Placed q i) := by
  have hsame (hi : i ∉ s) (heq : q.dequeue i = q) (hp : Placed q i) :
      Linked (q.dequeue i) (s.erase i) ∧ (Right (q.dequeue i) (s.erase i) ↔ Placed q i) := by
    rw [heq, erase_eq_of_notMem hi]
    exact ⟨h.linked, iff_of_true h.right hp⟩
  cases hl : q.link i with
  | none =>
    apply hsame
    · exact h.linked.notMem_of_link fun x hx => nomatch hl.symm.trans hx
    · rw [Queue.dequeue, hl]
    · rw [Placed, hl]
      trivial
  | some l =>
    cases l with
    | idle =>
      apply hsame
      · exact h.linked.notMem_of_link fun x hx => nomatch hl.symm.trans hx
      · exact dequeue_idle hl ((h.linked.idle i).mp hl)
      · rw [Placed, hl]
        trivial
    | slot x =>
      obtain ⟨hxc, hxi⟩ := (h.linked.slots i x).mp hl
      have hne : i ≠ q.idle := fun heq => nomatch hl.symm.trans ((h.linked.idle i).mpr heq)
      obtain ⟨n, hn⟩ : ∃ n, q.cnt = n + 1 := Nat.exists_eq_succ_of_ne_zero (by omega)
      have hbound : n ≤ heapSize := by
        have hb := h.linked.bound
        omega
      have hplaced : Placed q i ↔ (0 < x → x < n → q.dl (q.heap (parent x)) ≤ q.dl (q.heap n)) := by
        have hpred : q.cnt - 1 = n := by omega
        rw [Placed, hl, ← hpred]
      rw [dequeue_slot hl hne hn, hplaced]
      split_ifs with hx
      · have hlinked : Linked (({ q with cnt := n } : Queue E).unlink i) (s.erase i) := by
          refine .unlink_last (hn ▸ h.linked.slots) hbound rfl (hx ▸ hxi) h.linked.idle fun e => ?_
          rw [← hn]
          exact h.linked.mem e
        refine ⟨hlinked, iff_of_true (hlinked.right_iff.mpr (h.ordered.mono ?_)) fun _ hlt => by omega⟩
        change n ≤ q.cnt
        omega
      · have hlt : x < n := by omega
        obtain ⟨hlinked, hiff⟩ := h.replace hl hn hlt
        refine ⟨hlinked, hlinked.right_iff.trans ?_⟩
        have hdown : Moved n (({ q with cnt := n } : Queue E).swap x n)
            (Queue.heapDown q.cnt (({ q with cnt := n } : Queue E).swap x n) x) :=
          moved_heapDown (q := ({ q with cnt := n } : Queue E).swap x n) hbound hlt
        have hcnt : ((Queue.heapDown q.cnt (({ q with cnt := n } : Queue E).swap x n) x).unlink i).cnt = n :=
          hdown.cnt
        rw [hcnt, hiff]
        exact ⟨fun hp hpos _ => hp hpos, fun hp hpos => hp hpos hlt⟩

theorem Kept.enqueue (hp : q.enqueue i = some p) :
    Kept p (if i = q.idle then s else insert i s) := by
  rw [Queue.enqueue] at hp
  split_ifs at hp with hl hfull
  · obtain rfl := some.inj hp
    split_ifs with hi
    · exact h
    · by_cases hm : i ∈ s
      · rw [insert_eq_of_mem hm]
        exact h
      · exact (hl (h.linked.link_eq_none hm hi)).elim
  · obtain rfl := some.inj hp
    rw [not_not] at hl
    rw [if_neg fun hi => nomatch hl.symm.trans ((h.linked.idle i).mpr hi)]
    exact h.push hl (not_le.mp hfull)

theorem Kept.sink_same (hx : q.link i = some (.slot x)) : Kept (q.heapDown q.cnt x) s := by
  have hsink := h.sink (d := 0) hx
  rw [Nat.add_zero, update_eq_self] at hsink
  exact hsink

theorem Kept.requeue {d : ℕ}
    (hp : Queue.requeue { q with dl := update q.dl i (q.dl i + d) } i = some p) :
    Kept p (if i = q.idle then s else insert i s) := by
  cases hl : q.link i with
  | none =>
    rw [Queue.requeue, if_pos hl, map_eq_some_iff] at hp
    obtain ⟨r, hr, rfl⟩ := hp
    have hi : i ∉ s := h.linked.notMem_of_link fun x hx => nomatch hl.symm.trans hx
    have hne : i ≠ q.idle := fun heq => nomatch hl.symm.trans ((h.linked.idle i).mpr heq)
    have hkept := (h.setDl hi (q.dl i + d)).enqueue hr
    rw [if_neg hne] at hkept ⊢
    obtain ⟨x, hx⟩ := (hkept.linked.mem i).mp (mem_insert_self i s)
    have hslot := (hkept.linked.slots i x).mpr hx
    rw [hslot]
    exact hkept.sink_same hslot
  | some l =>
    rw [requeue_some (q := { q with dl := update q.dl i (q.dl i + d) }) hl] at hp
    obtain rfl := some.inj hp
    cases l with
    | idle =>
      have hi : i = q.idle := (h.linked.idle i).mp hl
      have hm : i ∉ s := h.linked.notMem_of_link fun x hx => nomatch hl.symm.trans hx
      have hkept := h.setDl hm (q.dl i + d)
      rw [if_pos hi, heapDown_idle hkept.linked.bound]
      exact hkept
    | slot x =>
      have hne : i ≠ q.idle := fun heq => nomatch hl.symm.trans ((h.linked.idle i).mpr heq)
      have hm : i ∈ s := (h.linked.mem i).mpr ⟨x, (h.linked.slots i x).mp hl⟩
      rw [if_neg hne, insert_eq_of_mem hm]
      exact h.sink hl

end Linked

section Run

variable [DecidableEq E]

def Holds (P : Queue E → Finset E → Prop) (s : State E) : Prop := ∀ t ∈ s, P t.1 t.2

/-- What is dequeued can be replaced by the last context. -/
def Careful (s : State E) (o : Op E) : Prop :=
  match s, o with
  | some (q, _), .dequeue i => Placed q i
  | _, _ => True

theorem kept_boot (idle : E) (dl : E → ℕ) : Holds Kept (boot idle dl) := by
  intro t ht
  obtain rfl := some.inj ht
  refine ⟨⟨Nat.zero_le _, fun e k => ?_, fun e => ?_, fun e => ?_⟩, nofun⟩
  · refine iff_of_false ?_ (fun h => nomatch h.1)
    change update (fun _ => none) idle (some Link.idle) e ≠ some (.slot k)
    by_cases he : e = idle
    · rw [he, update_self]
      exact nofun
    · rw [update_of_ne he]
      exact nofun
  · change update (fun _ => none) idle (some Link.idle) e = some .idle ↔ e = idle
    by_cases he : e = idle
    · rw [he, update_self]
      exact iff_of_true rfl rfl
    · rw [update_of_ne he]
      exact iff_of_false nofun he
  · refine iff_of_false (notMem_empty e) ?_
    rintro ⟨k, hk, -⟩
    cases hk

theorem Kept.exec {q : Queue E} {s : Finset E} (h : Kept q s) {o : Op E} (ho : ∀ i, o ≠ .dequeue i)
    {p : Queue E} (hp : q.exec o = some p) : Kept p (members q.idle s o) := by
  cases o with
  | enqueue i => exact h.enqueue hp
  | dequeue i => exact (ho i rfl).elim
  | requeue i d => exact h.requeue hp
  | setDeadline i dl =>
    obtain rfl := some.inj hp
    split_ifs with hl
    · exact h.setDl (h.linked.notMem_of_link fun x hx => nomatch hl.symm.trans hx) dl
    · exact h
  | activate i =>
    obtain rfl := some.inj hp
    exact ⟨⟨h.linked.bound, h.linked.slots, h.linked.idle, h.linked.mem⟩, h.ordered⟩
  | nextToRun =>
    obtain rfl := some.inj hp
    rw [Queue.nextToRun]
    split_ifs
    · exact h
    · have hidle : q.idle ∉ s :=
        h.linked.notMem_of_link fun x hx => nomatch ((h.linked.idle _).mpr rfl).symm.trans hx
      split
      · exact h.setDl hidle _
      · exact h

theorem keeps_step (s : State E) (o : Op E) (h : Holds Kept s) :
    Keeps (Holds Right) (Holds Kept) (Careful s o) (step s o) := by
  cases s with
  | none => exact .of_inv (by cases o <;> trivial) nofun nofun
  | some t =>
    obtain ⟨q, s⟩ := t
    have hq : Kept q s := h _ rfl
    by_cases ho : ∃ i, o = .dequeue i
    · obtain ⟨i, rfl⟩ := ho
      obtain ⟨hlinked, hiff⟩ := hq.dequeue i
      have hholds (P : Queue E → Finset E → Prop) :
          Holds P (step (some (q, s)) (.dequeue i)) ↔ P (q.dequeue i) (s.erase i) := by
        constructor
        · intro hP
          exact hP _ rfl
        · rintro hP t ht
          obtain rfl := some.inj ht
          exact hP
      refine ⟨(hholds Right).trans hiff, fun hg => (hholds Kept).mpr ⟨hlinked, ?_⟩⟩
      exact ((hholds Right).mp hg).ordered
    · have hcareful : Careful (some (q, s)) o := by
        cases o with
        | dequeue i => exact (ho ⟨i, rfl⟩).elim
        | _ => trivial
      have hkept : Holds Kept (step (some (q, s)) o) := by
        intro t ht
        obtain ⟨p, hp, rfl⟩ := map_eq_some_iff.mp ht
        exact hq.exec (fun i hi => ho ⟨i, hi⟩) hp
      exact .of_inv hcareful (fun t ht => (hkept t ht).right) hkept

theorem right_iff_careful (idle : E) (dl : E → ℕ) (os : List (Op E)) :
    Along step (fun s o => Holds Right (step s o)) (boot idle dl) os ↔
      Along step Careful (boot idle dl) os :=
  along_good_iff keeps_step (kept_boot idle dl)

end Run

section Runs

def deadlines : Fin 7 → ℕ := ![1, 10, 2, 11, 12, 3, 0]

def replaced : List (Op (Fin 7)) :=
  [.enqueue 0, .enqueue 1, .enqueue 2, .enqueue 3, .enqueue 4, .enqueue 5, .dequeue 3]

theorem not_right_replaced : ¬ Holds Right (run step (boot 6 deadlines) replaced) := by
  intro h
  have hbad : ∀ t ∈ run step (boot 6 deadlines) replaced,
      3 < t.1.cnt ∧ ¬ t.1.dl (t.1.heap (parent 3)) ≤ t.1.dl (t.1.heap 3) := by decide
  obtain ⟨t, ht⟩ : ∃ t, run step (boot 6 deadlines) replaced = some t :=
    isSome_iff_exists.mp (by decide)
  exact (hbad t ht).2 ((h t ht).ordered 3 (by decide) (hbad t ht).1)

end Runs

end Fiasco.ReadyQueueWfq
