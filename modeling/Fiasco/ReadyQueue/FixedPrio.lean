import Fiasco.Lib.Intrusive
import Fiasco.Lib.Machine
import Fiasco.ReadyQueue.Bitmap

/-!
# The fixed-priority ready queue

The contexts of a priority are in a ring with a pointer to the first one. The bitmap has the
priorities whose ring is not empty, and `prio_highest` is the highest of them. A context keeps its
priority while it is in a ring.
-/
namespace Fiasco.ReadyQueueFp

open List Function

open Intrusive

variable {E : Type} {w : Mword}

section List

variable [DecidableEq E]

def push (l : Links E) (head : Option E) (e : E) (front : Bool) : Option (Links E × Option E) :=
  match head with
  | none => some (l.selfInsert e, some e)
  | some h => (l.insertBefore e h).map fun l => (l, some (if front then e else h))

def remove (l : Links E) (head : Option E) (e : E) : Option (Links E × Option E) :=
  if l.next e = some e then some (l.setNext e none, none)
  else (l.remove e).map fun l' => (l', if head = some e then l.next e else head)

end List

def IsList (l : Links E) : Option E → List E → Prop
  | none, xs => xs = []
  | some h, xs => ∃ t, xs = h :: t ∧ l.Ring h t

section List

variable {l l' : Links E} {head : Option E} {xs ys : List E} {e : E}

theorem IsList.head_eq (h : IsList l head xs) : head = xs.head? := by
  cases head with
  | none =>
    obtain rfl := h
    rfl
  | some a =>
    obtain ⟨t, rfl, -⟩ := h
    rfl

theorem IsList.congr (h : IsList l head xs)
    (hs : ∀ x ∈ xs, l'.next x = l.next x ∧ l'.prev x = l.prev x) : IsList l' head xs := by
  cases head with
  | none => exact h
  | some a =>
    obtain ⟨t, rfl, hr⟩ := h
    exact ⟨t, rfl, hr.congr hs⟩

theorem IsList.rotate (h : IsList l head (xs ++ e :: ys)) : l.Ring e (ys ++ xs) := by
  cases head with
  | none => exact (append_ne_nil_of_right_ne_nil xs (cons_ne_nil e ys) h).elim
  | some a =>
    obtain ⟨t, ht, hr⟩ := h
    cases xs with
    | nil =>
      cases ht
      rwa [append_nil]
    | cons x xs =>
      cases ht
      exact (Links.ring_rotate xs ys a e).mp hr

theorem isList_of_ring (h : l.Ring e (ys ++ xs)) :
    IsList l (xs ++ e :: ys).head? (xs ++ e :: ys) := by
  cases xs with
  | nil =>
    rw [append_nil] at h
    exact ⟨ys, rfl, h⟩
  | cons x xs => exact ⟨xs ++ e :: ys, rfl, (Links.ring_rotate xs ys x e).mpr h⟩

theorem IsList.next (h : IsList l head (xs ++ e :: ys)) : l.next e = (ys ++ xs ++ [e]).head? := by
  rw [h.rotate.next (nil_append _).symm]
  cases ys <;> cases xs <;> rfl

theorem IsList.next_ne_none (h : IsList l head xs) (he : e ∈ xs) : l.next e ≠ none := by
  obtain ⟨as, bs, rfl⟩ := append_of_mem he
  rw [h.next]
  simp

theorem IsList.rotateTo (h : IsList l head (xs ++ e :: ys)) :
    IsList l (l.next e) (ys ++ xs ++ [e]) := by
  rw [h.next]
  exact isList_of_ring h.rotate

variable [DecidableEq E]

theorem push_isList (h : IsList l head xs) (hd : xs.Nodup) (he : e ∉ xs) (front : Bool) :
    ∃ l' head', push l head e front = some (l', head') ∧
      IsList l' head' (if front then e :: xs else xs ++ [e]) ∧
      ∀ x, x ≠ e → x ∉ xs → l'.next x = l.next x ∧ l'.prev x = l.prev x := by
  cases head with
  | none =>
    obtain rfl := h
    refine ⟨_, _, rfl, ?_, fun x hx _ => Links.selfInsert_of_ne hx⟩
    cases front <;> exact ⟨[], rfl, Links.ring_selfInsert l e⟩
  | some a =>
    obtain ⟨t, rfl, hr⟩ := h
    obtain ⟨l', hl', hr', hframe⟩ := Links.insertBefore_ring hr hd he
    refine ⟨l', _, by rw [push, hl']; rfl, ?_, hframe⟩
    cases front with
    | false => exact ⟨t ++ [e], rfl, hr'⟩
    | true => exact ⟨a :: t, rfl, (Links.ring_rotate t [] a e).mp hr'⟩

theorem remove_isList (h : IsList l head (xs ++ e :: ys)) (hd : (xs ++ e :: ys).Nodup) :
    ∃ l' head', remove l head e = some (l', head') ∧ IsList l' head' (xs ++ ys) ∧ l'.next e = none ∧
      ∀ x, x ∉ xs ++ e :: ys → l'.next x = l.next x ∧ l'.prev x = l.prev x := by
  have hperm : (xs ++ e :: ys).Perm (e :: (ys ++ xs)) :=
    perm_append_comm
  have hd' : (e :: (ys ++ xs)).Nodup := hperm.nodup_iff.mp hd
  by_cases hself : l.next e = some e
  · -- the only element
    have hnil : ys ++ xs = [] := by
      by_contra hne
      obtain ⟨y, t, hyt⟩ := exists_cons_of_ne_nil hne
      have hn := h.next
      rw [hself, hyt] at hn
      obtain rfl := Option.some.inj hn
      rw [hyt] at hd'
      exact (nodup_cons.mp hd').1 mem_cons_self
    obtain ⟨rfl, rfl⟩ := append_eq_nil_iff.mp hnil
    refine ⟨_, _, if_pos hself, rfl, update_self .., fun x hx => ⟨?_, rfl⟩⟩
    exact update_of_ne (fun hc => hx (by rw [hc]; exact mem_cons_self)) ..
  · obtain ⟨l', hl', hnone, hrest, hframe⟩ := Links.remove_ring h.rotate hd'
    refine ⟨l', _, by rw [remove, if_neg hself, hl']; rfl, ?_, hnone, fun x hx => ?_⟩
    · have hhead : (if head = some e then l.next e else head) = (xs ++ ys).head? := by
        have hh := h.head_eq
        cases xs with
        | nil =>
          rw [if_pos (show head = some e from hh), h.next]
          cases ys with
          | nil =>
            rw [h.next] at hself
            exact (hself rfl).elim
          | cons y ys => rfl
        | cons x xs =>
          have hne : head ≠ some e := by
            rw [hh]
            intro heq
            obtain rfl := Option.some.inj heq
            exact (nodup_cons.mp hd).1 (by simp)
          rw [if_neg hne, hh]
          rfl
      rw [hhead]
      cases ys with
      | nil =>
        rw [append_nil]
        cases xs with
        | nil => rfl
        | cons x xs => exact ⟨xs, rfl, hrest x xs rfl⟩
      | cons y ys => exact isList_of_ring (hrest y (ys ++ xs) rfl)
    · exact hframe x fun hc => hx (hperm.mem_iff.mpr hc)

end List

structure Queue (E : Type) (w : Mword) where
  highest : ℕ
  bmap : HierarchicalBitmap w
  first : ℕ → Option E
  links : Links E
  prio : E → Fin 256

/-- `setPrio` is `Sched_context::set`, which a context gets after a `dequeue`. -/
inductive Op (E : Type)
  | enqueue (i : E) (isCurrentSched : Bool)
  | dequeue (i : E)
  | requeue (i : E)
  | setPrio (i : E) (p : ℕ)

section Queue

variable [DecidableEq E]

namespace Queue

def boot (prio : E → Fin 256) : Queue E w :=
  ⟨0, .empty, fun _ => none, ⟨fun _ => none, fun _ => none⟩, prio⟩

section

variable (q : Queue E w) (i : E) {head : Option E} {l : Links E}

def inReadyList : Prop := q.links.next i ≠ none
deriving Decidable

def nextToRun : Option E := q.first q.highest

def enqueue (isCurrentSched : Bool) : Option (Queue E w) :=
  if q.inReadyList i then some q
  else
    let p := (q.prio i).val
    (push q.links (q.first p) i isCurrentSched).map fun r =>
      { q with
        highest := if q.highest < p then p else q.highest
        links := r.1
        first := update q.first p r.2
        bmap := q.bmap.set p }

def dequeue : Option (Queue E w) :=
  if q.inReadyList i then
    let p := (q.prio i).val
    (remove q.links (q.first p) i).map fun r =>
      let bmap := if r.2 = none then q.bmap.clear p else q.bmap
      { q with
        links := r.1
        first := update q.first p r.2
        bmap := bmap
        highest := if r.2 = none then bmap.findHighestBit else q.highest }
  else some q

def requeue : Option (Queue E w) :=
  if q.inReadyList i then
    some { q with first := update q.first (q.prio i).val (q.links.next i) }
  else q.enqueue i false

theorem enqueue_of_push {q : Queue E w} {i : E} {b : Bool}
    (hi : ¬ q.inReadyList i) (h : push q.links (q.first (q.prio i).val) i b = some (l, head)) :
    q.enqueue i b = some
      ⟨if q.highest < (q.prio i).val then (q.prio i).val else q.highest, q.bmap.set (q.prio i).val,
        update q.first (q.prio i).val head, l, q.prio⟩ := by
  simp only [enqueue, if_neg hi, h, Option.map_some]

theorem dequeue_of_remove {q : Queue E w} {i : E}
    {bmap : HierarchicalBitmap w} (hi : q.inReadyList i)
    (h : remove q.links (q.first (q.prio i).val) i = some (l, head))
    (hb : bmap = if head = none then q.bmap.clear (q.prio i).val else q.bmap) :
    q.dequeue i = some
      ⟨if head = none then bmap.findHighestBit else q.highest, bmap,
        update q.first (q.prio i).val head, l, q.prio⟩ := by
  simp only [dequeue, if_pos hi, h, hb, Option.map_some]

def setPrio (p : ℕ) : Queue E w :=
  if q.inReadyList i then q
  else { q with prio := update q.prio i ⟨min p 255, by omega⟩ }

end

/-- `none` is an access through a null pointer. -/
def exec (q : Queue E w) : Op E → Option (Queue E w)
  | .enqueue i b => q.enqueue i b
  | .dequeue i => q.dequeue i
  | .requeue i => q.requeue i
  | .setPrio i p => some (q.setPrio i p)

def run (prio : E → Fin 256) (ops : List (Op E)) : Option (Queue E w) :=
  Machine.tryRun exec (boot prio) ops

end Queue

end Queue

structure Lists (E : Type) where
  ready : ℕ → List E
  prio : E → Fin 256

namespace Lists

def boot (prio : E → Fin 256) : Lists E := ⟨fun _ => [], prio⟩

def list (s : Lists E) (i : E) : List E := s.ready (s.prio i).val

def setList (s : Lists E) (i : E) (xs : List E) : Lists E :=
  { s with ready := update s.ready (s.prio i).val xs }

theorem setList_self (s : Lists E) (i : E) (xs : List E) :
    (s.setList i xs).ready (s.prio i).val = xs := update_self ..

theorem setList_of_ne (s : Lists E) (i : E) (xs : List E) {p : ℕ} (hp : p ≠ (s.prio i).val) :
    (s.setList i xs).ready p = s.ready p := update_of_ne hp ..

theorem sublist_setList {s : Lists E} {i : E} {xs zs : List E} {p : ℕ}
    (hz : zs.Sublist (s.ready p)) (hset : zs.Sublist (s.list i) → zs.Sublist xs) :
    zs.Sublist ((s.setList i xs).ready p) := by
  by_cases hp : p = (s.prio i).val
  · rw [hp, setList_self]
    apply hset
    rwa [hp] at hz
  · rwa [s.setList_of_ne i xs hp]

theorem mem_setList (s : Lists E) (i e : E) (xs : List E) :
    e ∈ (s.setList i xs).list e ↔ if (s.prio e).val = (s.prio i).val then e ∈ xs else e ∈ s.list e := by
  change e ∈ (s.setList i xs).ready (s.prio e).val ↔ _
  split_ifs with hp
  · rw [hp, setList_self]
  · rw [s.setList_of_ne i xs hp, list]

theorem mem_setList_insert {s : Lists E} {i e : E} {xs : List E}
    (hxs : ∀ x, x ∈ xs ↔ x ∈ s.list i ∨ i = x) :
    e ∈ (s.setList i xs).list e ↔ e ∈ s.list e ∨ i = e := by
  rw [mem_setList]
  split_ifs with hp
  · rw [hxs, list, list, hp]
  · refine (or_iff_left ?_).symm
    rintro rfl
    exact hp rfl

theorem dropWhile_takeWhile (p : E → Bool) (i : E) (xs ys : List E) (hi : p i = false)
    (hx : ∀ x ∈ xs, p x = true) :
    (xs ++ i :: ys).dropWhile p = i :: ys ∧ (xs ++ i :: ys).takeWhile p = xs := by
  rw [dropWhile_append_of_pos hx, takeWhile_append_of_pos hx, dropWhile_cons, takeWhile_cons, hi]
  simp

variable [DecidableEq E]

def rotate (i : E) (xs : List E) : List E :=
  (xs.dropWhile (· ≠ i)).tail ++ xs.takeWhile (· ≠ i) ++ [i]

def exec (s : Lists E) : Op E → Lists E
  | .enqueue i b =>
    if i ∈ s.list i then s
    else s.setList i (if b then i :: s.list i else s.list i ++ [i])
  | .dequeue i => if i ∈ s.list i then s.setList i ((s.list i).erase i) else s
  | .requeue i =>
    s.setList i (if i ∈ s.list i then rotate i (s.list i) else s.list i ++ [i])
  | .setPrio i p =>
    if i ∈ s.list i then s
    else { s with prio := update s.prio i ⟨min p 255, by omega⟩ }

def run (prio : E → Fin 256) (ops : List (Op E)) : Lists E := Machine.run exec (boot prio) ops

theorem rotate_split {i : E} {xs ys : List E} (hi : i ∉ xs) :
    rotate i (xs ++ i :: ys) = ys ++ xs ++ [i] := by
  have h := dropWhile_takeWhile (fun x => decide (x ≠ i)) i xs ys (by simp) fun x hx => by
    have hne : x ≠ i := fun hc => hi (by rwa [← hc])
    simpa using hne
  rw [rotate, h.1, h.2, tail_cons]

end Lists

def IsHighest (n : ℕ) (S : ℕ → Prop) : Prop :=
  (∀ m, S m → m ≤ n) ∧ ((∃ m, S m) → S n) ∧ ((¬ ∃ m, S m) → n = 0)

structure Refines (q : Queue E w) (s : Lists E) : Prop where
  prio : q.prio = s.prio
  lists : ∀ p, IsList q.links (q.first p) (s.ready p)
  nodup : ∀ p, (s.ready p).Nodup
  own : ∀ p, ∀ e ∈ s.ready p, (s.prio e).val = p
  queued : ∀ e, q.inReadyList e ↔ e ∈ s.list e
  bits : Represents q.bmap fun p => s.ready p ≠ []
  top : IsHighest q.highest fun p => s.ready p ≠ []

section Refines

variable {q : Queue E w} {s : Lists E} {i : E} {xs : List E}

theorem Refines.prio_lt (h : Refines q s) {p : ℕ} (hp : s.ready p ≠ []) : p < 256 := by
  obtain ⟨e, t, het⟩ := exists_cons_of_ne_nil hp
  rw [← h.own p e (by rw [het]; exact mem_cons_self)]
  exact (s.prio e).isLt

open ReadyQueueFp.Lists

theorem Refines.not_mem_ready (h : Refines q s) (hi : i ∉ s.list i) (p : ℕ) : i ∉ s.ready p := by
  intro hc
  have hp := h.own p i hc
  rw [list, hp] at hi
  exact hi hc

theorem Refines.split (h : Refines q s) (hi : i ∈ s.list i) : ∃ xs ys, s.list i = xs ++ i :: ys ∧
    IsList q.links (q.first (s.prio i).val) (xs ++ i :: ys) ∧ (xs ++ i :: ys).Nodup ∧
    i ∉ xs ++ ys ∧ (xs ++ ys).Nodup := by
  obtain ⟨xs, ys, hsplit⟩ := append_of_mem hi
  have hd := h.nodup (s.prio i).val
  change (s.list i).Nodup at hd
  rw [hsplit] at hd
  exact ⟨xs, ys, hsplit, hsplit ▸ h.lists (s.prio i).val, hd, nodup_cons.mp (nodup_middle.mp hd)⟩

theorem Refines.first_eq (h : Refines q s) (p : ℕ) : q.first p = (s.ready p).head? :=
  (h.lists p).head_eq

theorem setList_ne_nil (s : Lists E) (i : E) (xs : List E) (p : ℕ) :
    (s.setList i xs).ready p ≠ [] ↔
      if p = (s.prio i).val then xs ≠ [] else s.ready p ≠ [] := by
  split_ifs with hp
  · rw [hp, setList_self]
  · rw [s.setList_of_ne i xs hp]

theorem setList_nonempty (hxs : xs ≠ []) (s : Lists E) (i : E) :
    (fun p => (s.setList i xs).ready p ≠ []) = fun p => s.ready p ≠ [] ∨ p = (s.prio i).val := by
  funext p
  rw [setList_ne_nil]
  split_ifs with hp
  · exact propext (iff_of_true hxs (.inr hp))
  · rw [or_iff_left hp]

theorem setList_empty (hxs : xs = []) : (fun p => (s.setList i xs).ready p ≠ []) =
      fun p => s.ready p ≠ [] ∧ p ≠ (s.prio i).val := by
  funext p
  rw [setList_ne_nil]
  split_ifs with hp
  · exact propext (iff_of_false (not_not.mpr hxs) fun hc => hc.2 hp)
  · rw [and_iff_left hp]

theorem setList_same (hxs : xs ≠ []) (hi : i ∈ s.list i) :
    (fun p => (s.setList i xs).ready p ≠ []) = fun p => s.ready p ≠ [] := by
  rw [setList_nonempty hxs]
  funext p
  refine propext (or_iff_left_of_imp ?_)
  rintro rfl
  exact ne_nil_of_mem hi

theorem IsHighest.insert {n : ℕ} {S : ℕ → Prop} (h : IsHighest n S) (p : ℕ) :
    IsHighest (if n < p then p else n) fun m => S m ∨ m = p := by
  obtain ⟨hle, hmem, hzero⟩ := h
  have hn : ∀ m, S m → m ≤ if n < p then p else n := by
    intro m hm
    have := hle m hm
    split_ifs <;> omega
  refine ⟨?_, fun _ => ?_, fun hnone => (hnone ⟨p, .inr rfl⟩).elim⟩
  · rintro m (hm | rfl)
    · exact hn m hm
    · split_ifs <;> omega
  · split_ifs with hp
    · exact .inr rfl
    · by_cases hS : ∃ m, S m
      · exact .inl (hmem hS)
      · have hz := hzero hS
        exact .inr (by omega)

theorem refines_boot (prio : E → Fin 256) :
    Refines (Queue.boot prio : Queue E w) (boot prio) where
  prio := rfl
  lists _ := rfl
  nodup _ := nodup_nil
  own _ _ he := nomatch he
  queued _ := iff_of_false (fun h => h rfl) not_mem_nil
  bits := by
    have hnone : (fun p => (boot prio).ready p ≠ []) = fun _ => False :=
      funext fun _ => propext (iff_of_false (fun h => h rfl) id)
    rw [hnone]
    exact represents_empty
  top := ⟨fun _ h => (h rfl).elim, fun ⟨_, h⟩ => (h rfl).elim, fun _ => rfl⟩

variable [DecidableEq E]

section

variable (h : Refines q s)
include h

theorem Refines.replace {l : Links E} {head : Option E} {bmap : HierarchicalBitmap w} {top : ℕ}
    (hframe : ∀ x, x ≠ i → x ∉ s.list i → l.next x = q.links.next x ∧ l.prev x = q.links.prev x)
    (hlist : IsList l head xs) (hnodup : xs.Nodup) (hsub : ∀ x ∈ xs, x = i ∨ x ∈ s.list i)
    (hout : ∀ x, x = i ∨ x ∈ s.list i → x ∉ xs → l.next x = none)
    (hbits : Represents bmap fun p => (s.setList i xs).ready p ≠ [])
    (htop : IsHighest top fun p => (s.setList i xs).ready p ≠ []) :
    Refines ⟨top, bmap, update q.first (q.prio i).val head, l, q.prio⟩
      (s.setList i xs) := by
  have hown : ∀ x, x = i ∨ x ∈ s.list i → (s.prio x).val = (s.prio i).val := by
    rintro x (rfl | hx)
    · rfl
    · exact h.own _ x hx
  have hother {p : ℕ} (hp : p ≠ (s.prio i).val) {x : E} (hx : (s.prio x).val = p) :
      l.next x = q.links.next x ∧ l.prev x = q.links.prev x := by
    apply hframe
    · exact fun hc => hp (by rw [← hx, hc])
    · exact fun hc => hp (by rw [← hx, hown x (.inr hc)])
  refine ⟨h.prio, fun p => ?_, fun p => ?_, fun p e he => ?_, fun e => ?_, hbits, htop⟩
  · rw [h.prio]
    by_cases hp : p = (s.prio i).val
    · rw [hp, setList_self]
      change IsList l (update q.first _ head _) xs
      rwa [update_self]
    · rw [s.setList_of_ne i xs hp]
      change IsList l (update q.first _ head p) _
      rw [update_of_ne hp]
      exact (h.lists p).congr fun x hx => hother hp (h.own p x hx)
  · by_cases hp : p = (s.prio i).val
    · rwa [hp, setList_self]
    · rw [s.setList_of_ne i xs hp]
      exact h.nodup p
  · by_cases hp : p = (s.prio i).val
    · rw [hp, setList_self] at he
      rw [hp]
      exact hown e (hsub e he)
    · rw [s.setList_of_ne i xs hp] at he
      exact h.own p e he
  · change l.next e ≠ none ↔ e ∈ (s.setList i xs).ready (s.prio e).val
    by_cases hp : (s.prio e).val = (s.prio i).val
    · rw [hp, setList_self]
      constructor
      · intro hn
        by_contra he
        by_cases hold : e = i ∨ e ∈ s.list i
        · exact hn (hout e hold he)
        · obtain ⟨hi, hli⟩ := not_or.mp hold
          rw [(hframe e hi hli).1] at hn
          have hq := (h.queued e).mp hn
          rw [list, hp] at hq
          exact hli hq
      · exact hlist.next_ne_none
    · rw [s.setList_of_ne i xs hp, (hother hp rfl).1]
      exact h.queued e

theorem Refines.enqueue (i : E) (b : Bool) :
    ∃ q', q.enqueue i b = some q' ∧ Refines q' (s.exec (.enqueue i b)) := by
  by_cases hi : i ∈ s.list i
  · exact ⟨q, if_pos ((h.queued i).mpr hi), by rw [exec, if_pos hi]; exact h⟩
  · have hlist := h.lists (s.prio i).val
    obtain ⟨l, head, hpush, hl, hframe⟩ := push_isList hlist (h.nodup _) hi b
    rw [← h.prio] at hpush
    refine ⟨_, Queue.enqueue_of_push ((h.queued i).not.mpr hi) hpush, ?_⟩
    rw [exec, if_neg hi]
    change IsList l head (if b then i :: s.list i else s.list i ++ [i]) at hl
    generalize hxs : (if b then i :: s.list i else s.list i ++ [i]) = xs at hl ⊢
    have hmem : ∀ x, x ∈ xs ↔ x = i ∨ x ∈ s.list i := by
      intro x
      rw [← hxs]
      cases b
      · simp [or_comm]
      · simp
    have hne : xs ≠ [] := ne_nil_of_mem ((hmem i).mpr (.inl rfl))
    have hnodup : xs.Nodup := by
      have hcons : (i :: s.list i).Nodup := nodup_cons.mpr ⟨hi, h.nodup _⟩
      rw [← hxs]
      cases b
      · exact nodup_append_comm.mp hcons
      · exact hcons
    refine h.replace hframe hl hnodup (fun x => (hmem x).mp)
      (fun x hx hc => (hc ((hmem x).mpr hx)).elim) ?_ ?_
    · rw [setList_nonempty hne, h.prio]
      exact h.bits.set _
    · rw [setList_nonempty hne, h.prio]
      exact h.top.insert _

theorem Refines.dequeue (i : E) :
    ∃ q', q.dequeue i = some q' ∧ Refines q' (s.exec (.dequeue i)) := by
  by_cases hi : i ∈ s.list i
  · obtain ⟨xs, ys, hsplit, hlist, hd, hixs, hnodup⟩ := h.split hi
    obtain ⟨l, head, hremove, hl, hnone, hframe⟩ := remove_isList hlist hd
    have herase : (s.list i).erase i = xs ++ ys := by
      rw [hsplit, erase_append_right _ fun hc => hixs (mem_append_left _ hc),
        erase_cons_head]
    have hhead : head = none ↔ xs ++ ys = [] := by
      rw [hl.head_eq, head?_eq_none_iff]
    rw [← h.prio] at hremove
    have hbits : Represents (if head = none then q.bmap.clear (q.prio i).val else q.bmap)
        fun p => (s.setList i (xs ++ ys)).ready p ≠ [] := by
      rw [h.prio]
      split_ifs with hempty
      · rw [setList_empty (hhead.mp hempty)]
        exact h.bits.clear _
      · rw [setList_same (fun hc => hempty (hhead.mpr hc)) hi]
        exact h.bits
    generalize hb : (if head = none then q.bmap.clear (q.prio i).val else q.bmap) = bmap at hbits
    refine ⟨_, Queue.dequeue_of_remove ((h.queued i).mpr hi) hremove hb.symm, ?_⟩
    rw [exec, if_pos hi, herase]
    have hsub : ∀ x, x ≠ i → (x ∈ s.list i ↔ x ∈ xs ++ ys) := by
      intro x hx
      rw [hsplit]
      simp [hx]
    refine h.replace (fun x hx hl => hframe x ?_) hl hnodup (fun x hx => ?_) (fun x hx hc => ?_)
      hbits ?_
    · rwa [← hsplit]
    · exact .inr ((hsub x fun hc => hixs (by rwa [← hc])).mpr hx)
    · by_cases hxi : x = i
      · rw [hxi]
        exact hnone
      · exact (hc ((hsub x hxi).mp (hx.resolve_left hxi))).elim
    · split_ifs with hempty
      · rw [setList_empty (hhead.mp hempty)] at hbits ⊢
        exact hbits.findHighestBit fun p hp => h.prio_lt hp.1
      · rw [setList_same (fun hc => hempty (hhead.mpr hc)) hi]
        exact h.top
  · exact ⟨q, if_neg ((h.queued i).not.mpr hi), by rw [exec, if_neg hi]; exact h⟩

theorem Refines.requeue (i : E) :
    ∃ q', q.requeue i = some q' ∧ Refines q' (s.exec (.requeue i)) := by
  by_cases hi : i ∈ s.list i
  · refine ⟨_, if_pos ((h.queued i).mpr hi), ?_⟩
    obtain ⟨xs, ys, hsplit, hlist, -, hixs, -⟩ := h.split hi
    rw [exec, if_pos hi, hsplit, rotate_split fun hc => hixs (mem_append_left _ hc)]
    have hperm : (ys ++ xs ++ [i]).Perm (s.list i) := by
      rw [hsplit, append_assoc]
      exact (perm_append_comm).trans (by simp)
    have hne : ys ++ xs ++ [i] ≠ [] := by simp
    refine h.replace (fun x _ _ => ⟨rfl, rfl⟩) hlist.rotateTo (hperm.nodup_iff.mpr (h.nodup _))
      (fun x hx => .inr (hperm.mem_iff.mp hx)) (fun x hx hc => ?_) ?_ ?_
    · exact (hc (hperm.mem_iff.mpr (hx.elim (fun he => he ▸ hi) id))).elim
    · rw [setList_same hne hi]
      exact h.bits
    · rw [setList_same hne hi]
      exact h.top
  · obtain ⟨q', hq', href⟩ := h.enqueue i false
    refine ⟨q', ?_, ?_⟩
    · rw [Queue.requeue, if_neg ((h.queued i).not.mpr hi), hq']
    · rw [exec, if_neg hi] at href
      rw [exec, if_neg hi]
      exact href

theorem Refines.setPrio (i : E) (p : ℕ) : Refines (q.setPrio i p) (s.exec (.setPrio i p)) := by
  by_cases hi : i ∈ s.list i
  · rw [Queue.setPrio, if_pos ((h.queued i).mpr hi), exec, if_pos hi]
    exact h
  · rw [Queue.setPrio, if_neg ((h.queued i).not.mpr hi), exec, if_neg hi]
    have hout := h.not_mem_ready hi
    refine ⟨?_, h.lists, h.nodup, fun r e he => ?_, fun e => ?_, h.bits, h.top⟩
    · rw [h.prio]
    · change (update s.prio i _ e).val = r
      rw [update_of_ne fun hc => hout r (by rwa [← hc])]
      exact h.own r e he
    · by_cases hei : e = i
      · rw [hei]
        exact iff_of_false ((h.queued i).not.mpr hi) (hout _)
      · change q.inReadyList e ↔ e ∈ s.ready (update s.prio i _ e).val
        rw [update_of_ne hei]
        exact h.queued e

theorem Refines.exec (op : Op E) : ∃ q', q.exec op = some q' ∧ Refines q' (s.exec op) := by
  cases op with
  | enqueue i b => exact h.enqueue i b
  | dequeue i => exact h.dequeue i
  | requeue i => exact h.requeue i
  | setPrio i p => exact ⟨_, rfl, h.setPrio i p⟩

end

theorem Refines.tryRun (ops : List (Op E)) (h : Refines q s) :
    ∃ q', Machine.tryRun Queue.exec q ops = some q' ∧ Refines q' (Machine.run Lists.exec s ops) := by
  induction ops generalizing q s with
  | nil => exact ⟨q, rfl, h⟩
  | cons op ops ih =>
    obtain ⟨q', hq', href⟩ := h.exec op
    obtain ⟨r, hr, hlast⟩ := ih href
    refine ⟨r, ?_, hlast⟩
    rw [Machine.tryRun_cons, hq']
    exact hr

end Refines

section Order

variable [DecidableEq E] {s : Lists E}

def Op.After (e : E) (b : Prop) : Op E → Prop
  | .enqueue i _ => b ∨ i = e
  | .requeue i => b ∨ i = e
  | .dequeue i => b ∧ i ≠ e
  | .setPrio _ _ => b

def Queued (e : E) (ops : List (Op E)) : Prop := ops.foldl (fun b op => op.After e b) False

namespace Lists

theorem run_concat (prio : E → Fin 256) (ops : List (Op E)) (op : Op E) :
    run prio (ops ++ [op]) = (run prio ops).exec op := by
  rw [run, Machine.run, foldl_append]
  rfl

def Front (s : Lists E) (i : E) : Prop := (s.list i).head? = some i ∨ i ∉ s.list i

def Passes (s : Lists E) (x y : E) : Op E → Prop
  | .enqueue _ _ => True
  | .dequeue i => i ≠ x ∧ i ≠ y
  | .requeue i => s.Front i ∧ i ≠ x
  | .setPrio _ _ => True

theorem rotate_front (i : E) (t : List E) : rotate i (i :: t) = t ++ [i] := by
  rw [show i :: t = [] ++ i :: t from rfl, rotate_split not_mem_nil, append_nil]

theorem Passes.sublist {s : Lists E} {x y : E} {op : Op E} {p : ℕ} (h : s.Passes x y op)
    (hxy : [x, y].Sublist (s.ready p)) : [x, y].Sublist ((s.exec op).ready p) := by
  cases op with
  | enqueue i b =>
    rw [exec]
    split
    · exact hxy
    · apply sublist_setList hxy
      intro hl
      cases b
      · exact hl.trans (sublist_append_left _ _)
      · exact hl.trans (sublist_cons_self _ _)
  | dequeue i =>
    rw [exec]
    split
    · apply sublist_setList hxy
      intro hl
      have herase := hl.erase i
      rwa [erase_of_not_mem (by simp [h.1, h.2])] at herase
    · exact hxy
  | requeue i =>
    rw [exec]
    apply sublist_setList hxy
    intro hl
    split_ifs with hi
    · obtain ⟨t, ht⟩ : ∃ t, s.list i = i :: t := by
        have hhead := h.1.resolve_right (not_not.mpr hi)
        exact ⟨_, eq_cons_of_mem_head? hhead⟩
      rw [ht] at hl ⊢
      rw [rotate_front]
      exact (hl.of_cons_of_ne (Ne.symm h.2)).trans (sublist_append_left _ _)
    · exact hl.trans (sublist_append_left _ _)
  | setPrio i q =>
    rw [exec]
    split <;> exact hxy

end Lists

theorem Refines.mem_exec {q : Queue E w} (h : Refines q s) (e : E) (op : Op E) :
    e ∈ (s.exec op).list e ↔ op.After e (e ∈ s.list e) := by
  cases op with
  | enqueue i b =>
    rw [Lists.exec, Op.After]
    by_cases hi : i ∈ s.list i
    · rw [if_pos hi]
      refine (or_iff_left_of_imp ?_).symm
      rintro rfl
      exact hi
    · rw [if_neg hi]
      apply Lists.mem_setList_insert
      intro x
      cases b
      · simp [eq_comm]
      · simp [eq_comm, or_comm]
  | dequeue i =>
    rw [Lists.exec, Op.After]
    split_ifs with hi
    · rw [Lists.mem_setList]
      split_ifs with hp
      · rw [Lists.list, Lists.list, hp, (h.nodup _).mem_erase_iff, and_comm, ne_comm]
      · refine (and_iff_left ?_).symm
        rintro rfl
        exact hp rfl
    · refine (and_iff_left_of_imp ?_).symm
      rintro he rfl
      exact hi he
  | requeue i =>
    rw [Lists.exec, Op.After]
    apply Lists.mem_setList_insert
    intro x
    split_ifs with hi
    · obtain ⟨xs, ys, hsplit⟩ := append_of_mem hi
      have hd := h.nodup (s.prio i).val
      change (s.list i).Nodup at hd
      rw [hsplit] at hd ⊢
      have hixs := (nodup_cons.mp (nodup_middle.mp hd)).1
      rw [Lists.rotate_split fun hc => hixs (mem_append_left _ hc)]
      simp only [mem_append, mem_cons, not_mem_nil, or_false]
      tauto
    · simp [eq_comm]
  | setPrio i p =>
    rw [Lists.exec, Op.After]
    split_ifs with hi
    · exact .rfl
    · by_cases hei : e = i
      · rw [hei]
        exact iff_of_false (h.not_mem_ready hi _) hi
      · change e ∈ s.ready (update s.prio i _ e).val ↔ _
        rw [update_of_ne hei, Lists.list]

section

variable (prio : E → Fin 256) (ops : List (Op E))

theorem run_refines :
    ∃ q : Queue E w, Queue.run prio ops = some q ∧ Refines q (Lists.run prio ops) :=
  (refines_boot prio).tryRun ops

theorem mem_run_iff (e : E) : e ∈ (Lists.run prio ops).list e ↔ Queued e ops := by
  induction ops using reverseRecOn with
  | nil => exact iff_of_false not_mem_nil id
  | append_singleton ops op ih =>
    obtain ⟨q, -, href⟩ := run_refines (w := ⟨64, by decide⟩) prio ops
    rw [Lists.run_concat, href.mem_exec, ih, Queued, Queued, foldl_append]
    rfl

/-- The queue is a representation of the lists after every sequence of operations. -/
theorem run_refines_lists :
    ∃ q : Queue E w, Queue.run prio ops = some q ∧ Refines q (Lists.run prio ops) ∧
      q.nextToRun = ((Lists.run prio ops).ready q.highest).head? ∧
      (∀ e, e ∈ (Lists.run prio ops).list e ↔ Queued e ops) ∧
      (∀ i t, (Lists.run prio ops).list i = i :: t →
        (Lists.run prio (ops ++ [.requeue i])).list i = t ++ [i]) ∧
      ∀ p x y op, (Lists.run prio ops).Passes x y op →
        [x, y].Sublist ((Lists.run prio ops).ready p) →
        [x, y].Sublist ((Lists.run prio (ops ++ [op])).ready p) := by
  obtain ⟨q, hq, href⟩ := run_refines (w := w) prio ops
  refine ⟨q, hq, href, href.first_eq _, mem_run_iff prio ops, fun i t ht => ?_,
    fun p x y op hpass hxy => ?_⟩
  · rw [Lists.run_concat, Lists.exec, ht, if_pos mem_cons_self, Lists.rotate_front]
    exact Lists.setList_self ..
  · rw [Lists.run_concat]
    exact hpass.sublist hxy

end

end Order

/-- A context that is enqueued as the current one runs before those that were there, and so does the
one behind a context that is requeued from the middle. -/
theorem nextToRun_overtakes :
    (Queue.run (fun _ => 0) [.enqueue 0 false, .enqueue 1 true] :
      Option (Queue ℕ ⟨64, by decide⟩)).bind Queue.nextToRun = some 1 ∧
    (Queue.run (fun _ => 0) [.enqueue 0 false, .enqueue 1 false, .enqueue 2 false, .requeue 1] :
      Option (Queue ℕ ⟨64, by decide⟩)).bind Queue.nextToRun = some 2 := by
  decide

end Fiasco.ReadyQueueFp
