import Fiasco.Lib.Intrusive
import Fiasco.Lib.Machine

/-!
# The priority sorted list

`Prio_list` keeps the elements of one priority in a ring and the first element of each ring in a list
of heads. `Shape` says that the pointers form given rings; `Shape.link` and `Shape.unlink` say what
becomes of them.
-/
namespace Fiasco

open Intrusive List Prod Links Option
open scoped Machine

abbrev Prio := Fin (2 ^ 16)

namespace PrioList

scoped instance neZero_prio : NeZero (2 ^ 16) := ⟨by decide⟩

structure Poi (E : Type) where
  elem : Option E
  tag : Fin 4
  deriving DecidableEq

end PrioList

/-- The fields of the elements and of the list; `queue` is the list that an element is in. -/
structure PrioList (E Q : Type) where
  ring : Links E
  heads : Heads E
  queue : E → Option Q
  prio : E → Prio
  cursor : Option E
  poi : PrioList.Poi E

namespace PrioList

variable {E Q : Type}

def first (s : PrioList E Q) : Option E :=
  s.heads.first

def next (s : PrioList E Q) (e : E) : Option (Option E) := do
  let i ← s.ring.next e
  if (s.heads.pn i).isSome then s.heads.following i else pure (some i)

section Operations

variable [DecidableEq E] [DecidableEq Q]

def Poi.enqueued (p : Poi E) (e : E) : Poi E :=
  if p = ⟨some e, 0⟩ then ⟨some e, 1⟩ else p

def Poi.dequeued (p : Poi E) (e : E) : Poi E :=
  if p = ⟨some e, 1⟩ then ⟨some e, 0⟩ else p

def seek (s : PrioList E Q) (prio : Prio) : ℕ → Ref E → Option (Ref E)
  | 0, _ => none
  | n + 1, pos =>
    match s.heads.get pos with
    | none => some pos
    | some e => if prio < s.prio e then seek s prio n (.after e) else some pos

def selfInsert (s : PrioList E Q) (e : E) (pos : Ref E) : PrioList E Q :=
  { s with ring := s.ring.selfInsert e, heads := s.heads.insertBefore e pos }

-- There are at most as many heads as priorities, so the loop ends in time.
def link (s : PrioList E Q) (e : E) (prio : Prio) : Option (PrioList E Q) := do
  let pos ← s.seek prio (2 ^ 16 + 1) .first
  match s.heads.get pos with
  | some h =>
    if s.prio h = prio then do
      let ring ← s.ring.insertBefore e h
      pure { s with ring := ring }
    else pure (s.selfInsert e pos)
  | none => pure (s.selfInsert e pos)

def insertDirty (this : Q) (s : PrioList E Q) (e : E) (prio : Prio) :
    Option (PrioList E Q × Bool) :=
  match s.queue e with
  | some _ => some (s, false)
  | none => do
    let s ← link { s with
      queue := Function.update s.queue e (some this)
      prio := Function.update s.prio e prio
      poi := s.poi.enqueued e } e prio
    pure (s, true)

def unlink (s : PrioList E Q) (e : E) (next : Bool) : Option (PrioList E Q) := do
  let s ←
    if (s.heads.pn e).isSome then
      if s.ring.hasSibling e then do
        let x ← s.ring.next e
        let heads ← s.heads.replace e x
        let c ← s.ring.next e
        pure { s with heads := heads, cursor := if next then some c else s.cursor }
      else do
        let c ← if next then s.heads.following e else pure s.cursor
        pure { s with heads := s.heads.remove e, cursor := c }
    else do
      let c ← if next then s.next e else pure s.cursor
      pure { s with cursor := c }
  let ring ← s.ring.remove e
  pure { s with ring := ring }

def takeOut (s : PrioList E Q) (e : E) : Option (PrioList E Q) :=
  unlink { s with queue := Function.update s.queue e none, poi := s.poi.dequeued e } e
    (s.cursor = some e)

def dequeue (this : Q) (s : PrioList E Q) (e : E) : Option (PrioList E Q × Bool) :=
  if s.queue e = some this then do
    let s ← s.takeOut e
    pure (s, true)
  else some (s, false)

def dequeueFirstDirty (this : Q) (s : PrioList E Q) : Option (PrioList E Q × Option E) :=
  match s.first with
  | none => some (s, none)
  | some f =>
    if s.queue f = some this then do
      let s ← s.takeOut f
      pure (s, some f)
    else some (s, none)

end Operations

def elems (rs : List (E × List E)) : List E :=
  rs.flatMap fun r => r.1 :: r.2

structure Shape (s : PrioList E Q) (rs : List (E × List E)) : Prop where
  heads : s.heads.Chain .first (rs.map fst)
  rings : ∀ r ∈ rs, s.ring.Ring r.1 r.2
  tails : ∀ r ∈ rs, ∀ x ∈ r.2, s.heads.pn x = none
  prios : ∀ r ∈ rs, ∀ x ∈ r.2, s.prio x = s.prio r.1
  falling : rs.Pairwise fun a b => s.prio b.1 < s.prio a.1
  nodup : (elems rs).Nodup

variable {rs as bs : List (E × List E)} {s : PrioList E Q} {t u v : List E}

section Reading

variable {e h : E}

theorem Shape.first (hs : Shape s rs) : s.first = (elems rs).head? := by
  have h := hs.heads.get
  cases rs with
  | nil | cons r rs => exact h

theorem head_elems (rs : List (E × List E)) : (elems rs).head? = (rs.map fst).head? := by
  cases rs <;> rfl

variable {r : E × List E}

@[simp] theorem elems_append (as bs : List (E × List E)) :
    elems (as ++ bs) = elems as ++ elems bs :=
  flatMap_append

@[simp] theorem elems_cons (r : E × List E) (bs : List (E × List E)) :
    elems (r :: bs) = r.1 :: r.2 ++ elems bs :=
  flatMap_cons

@[simp] theorem elems_nil : elems ([] : List (E × List E)) = [] := rfl

theorem fst_mem_elems (hr : r ∈ rs) : r.1 ∈ elems rs :=
  mem_flatMap.mpr ⟨r, hr, by simp⟩

theorem snd_mem_elems {x : E} (hr : r ∈ rs) (hx : x ∈ r.2) : x ∈ elems rs :=
  mem_flatMap.mpr ⟨r, hr, mem_cons_of_mem _ hx⟩

theorem Shape.next_ring (hs : Shape s (as ++ (h, t) :: bs)) (ht : h :: t = u ++ e :: v) :
    s.next e = some (v ++ elems bs).head? := by
  have hr := (hs.rings (h, t) (by simp)).next ht
  have hh : s.heads.following h = some (bs.map fst).head? := by
    have hc := hs.heads
    rw [map_append, map_cons] at hc
    exact hc.following
  have hp : (s.heads.pn h).isSome := hs.heads.pn_isSome (mem_map_of_mem (by simp : (h, t) ∈ _))
  cases v with
  | nil =>
    simp only [head?_nil, getD_none] at hr
    rw [next, hr, bind_eq_bind, bind_some, if_pos hp, hh, nil_append, head_elems]
  | cons y v =>
    have hy : y ∈ t := by
      cases u with
      | nil | cons x u => cases ht; simp
    have hn : ¬ (s.heads.pn y).isSome := by
      rw [hs.tails (h, t) (by simp) y hy]
      simp
    simp only [head?_cons, getD_some] at hr
    rw [next, hr, bind_eq_bind, bind_some, if_neg hn]
    rfl

theorem Shape.not_head (hs : Shape s rs) {x : E} (hr : r ∈ rs) (hx : x ∈ r.2) : x ∉ rs.map fst := by
  intro hc
  have hp := hs.heads.pn_isSome hc
  rw [hs.tails r hr x hx] at hp
  cases hp

theorem heads_sublist (rs : List (E × List E)) : (rs.map fst).Sublist (elems rs) := by
  induction rs with
  | nil => exact Sublist.slnil
  | cons r rs ih =>
    rw [map_cons, elems_cons, cons_append]
    exact (ih.trans (sublist_append_right ..)).cons_cons _

theorem outside_first (xs : List E) : Heads.Outside .first xs := by
  intro x _
  simp

theorem Shape.splice {s' : PrioList E Q} {old mid : List (E × List E)}
    (hs : Shape s (as ++ old ++ bs)) (hprio : s'.prio = s.prio)
    (hheads : s'.heads.Chain .first ((as ++ mid ++ bs).map fst))
    (hmid : ∀ r ∈ mid, s'.ring.Ring r.1 r.2 ∧
      ∀ x ∈ r.2, s'.heads.pn x = none ∧ s.prio x = s.prio r.1)
    (hring : ∀ x ∈ elems (as ++ bs),
      s'.ring.next x = s.ring.next x ∧ s'.ring.prev x = s.ring.prev x)
    (hpn : ∀ r ∈ as ++ bs, ∀ x ∈ r.2, s'.heads.pn x = s.heads.pn x)
    (hfall : (as ++ mid ++ bs).Pairwise fun a b => s.prio b.1 < s.prio a.1)
    (hnodup : (elems (as ++ mid ++ bs)).Nodup) : Shape s' (as ++ mid ++ bs) := by
  have hcases : ∀ r ∈ as ++ mid ++ bs, r ∈ mid ∨ r ∈ as ++ bs ∧ r ∈ as ++ old ++ bs := by
    intro r hr
    simp only [mem_append] at hr ⊢
    tauto
  refine ⟨hheads, fun r hr => ?_, fun r hr x hx => ?_, fun r hr x hx => ?_, ?_, hnodup⟩
  · rcases hcases r hr with hr | ⟨hr, ho⟩
    · exact (hmid r hr).1
    · apply (hs.rings r ho).congr
      intro x hx
      exact hring x (mem_flatMap.mpr ⟨r, hr, hx⟩)
  · rcases hcases r hr with hr | ⟨hr, ho⟩
    · exact ((hmid r hr).2 x hx).1
    · rw [hpn r hr x hx]
      exact hs.tails r ho x hx
  · rw [hprio]
    rcases hcases r hr with hr | ⟨-, ho⟩
    · exact ((hmid r hr).2 x hx).2
    · exact hs.prios r ho x hx
  · rwa [hprio]

end Reading

variable {e h x : E}

section Unlink

structure Unlinked (s s' : PrioList E Q) (e : E) (next : Bool) (rest : List E) : Prop where
  queue : s'.queue = s.queue
  prio : s'.prio = s.prio
  poi : s'.poi = s.poi
  cursor : s'.cursor = if next then rest.head? else s.cursor
  ring : s'.ring.next e = none
  pn : s'.heads.pn e = none

theorem ring_apart {r : E × List E} (hnd : (elems (as ++ [r] ++ bs)).Nodup) :
    (r.1 :: r.2).Nodup ∧ ∀ y ∈ elems (as ++ bs), y ∉ r.1 :: r.2 := by
  simp only [elems_append, elems_cons, elems_nil, append_nil] at hnd ⊢
  obtain ⟨hl, -, hlr⟩ := nodup_append.mp hnd
  obtain ⟨-, hr, hll⟩ := nodup_append.mp hl
  refine ⟨hr, fun y hy hc => ?_⟩
  rcases mem_append.mp hy with hy | hy
  · exact hll y hy y hc rfl
  · exact hlr y (mem_append_right _ hc) y hy rfl

section

variable (hs : Shape s (as ++ [(h, t)] ++ bs))
include hs

theorem Shape.tail_not_mem (hx : x ∈ t) : x ∉ as.map fst ++ h :: bs.map fst := by
  have hn := hs.not_head (by simp : (h, t) ∈ _) hx
  simpa using hn

theorem Shape.heads_nodup : (as.map fst ++ h :: bs.map fst).Nodup := by
  have hn := hs.nodup.sublist (heads_sublist _)
  simpa using hn

theorem Shape.chain : s.heads.Chain .first (as.map fst ++ h :: bs.map fst) := by
  have hn := hs.heads
  simpa using hn

end

def Unmoved (s s' : PrioList E Q) (y : E) : Prop :=
  s'.ring.next y = s.ring.next y ∧ s'.heads.pn y = s.heads.pn y

variable [DecidableEq E]

theorem unlink_head (hs : Shape s (as ++ [(e, x :: t)] ++ bs)) (next : Bool) :
    ∃ s', s.unlink e next = some s' ∧ Shape s' (as ++ [(x, t)] ++ bs) ∧
      Unlinked s s' e next (x :: t ++ elems bs) ∧
      ∀ y, y ∉ elems (as ++ [(e, x :: t)] ++ bs) → Unmoved s s' y := by
  have hmem : (e, x :: t) ∈ as ++ [(e, x :: t)] ++ bs := by simp
  obtain ⟨hd, hapart⟩ := ring_apart hs.nodup
  have hxe : x ≠ e := by
    rintro rfl
    simp at hd
  have hring := hs.rings _ hmem
  have hnext : s.ring.next e = some x := hring.1.1
  obtain ⟨heads, hrep, hchain, hpe, hpn⟩ := Heads.replace_chain hs.chain hs.heads_nodup
    (hs.tail_not_mem (by simp : x ∈ x :: t)) (outside_first _) (by simp)
  obtain ⟨ring, hrem, hne, hrest, hframe⟩ := remove_ring hring hd
  have hisHead : (s.heads.pn e).isSome := hs.heads.pn_isSome (mem_map_of_mem hmem)
  have htail : ∀ r ∈ as ++ [(e, x :: t)] ++ bs, ∀ y ∈ r.2, y ≠ x → heads.pn y = s.heads.pn y := by
    intro r hr y hy hyx
    have hn := hs.not_head hr hy
    apply hpn y hyx
    simp only [map_append, map_cons, mem_append, mem_cons] at hn ⊢
    tauto
  refine ⟨{ s with heads := heads, ring := ring, cursor := if next then some x else s.cursor },
    ?_, ?_, ⟨rfl, rfl, rfl, rfl, hne, hpe⟩, fun y hy => ⟨?_, ?_⟩⟩
  · simp [unlink, hisHead, hasSibling, hnext, hxe, hrep, hrem]
  · apply hs.splice
    · rfl
    · simpa using hchain
    · intro r hr
      cases mem_singleton.mp hr
      refine ⟨hrest x t rfl, fun y hy => ⟨?_, ?_⟩⟩
      · have hyx : y ≠ x := by
          rintro rfl
          exact (nodup_cons.mp (nodup_cons.mp hd).2).1 hy
        rw [htail _ hmem y (mem_cons_of_mem _ hy) hyx]
        exact hs.tails _ hmem y (mem_cons_of_mem _ hy)
      · rw [hs.prios _ hmem y (mem_cons_of_mem _ hy), hs.prios _ hmem x (by simp)]
    · intro y hy
      exact hframe y (hapart y hy)
    · intro r hr y hy
      have hr' : r ∈ as ++ [(e, x :: t)] ++ bs := by
        simp only [mem_append] at hr ⊢
        tauto
      apply htail r hr' y hy
      rintro rfl
      exact hapart y (snd_mem_elems hr hy) (by simp)
    · have hf := hs.falling
      simp only [append_assoc, singleton_append, pairwise_append,
        pairwise_cons, mem_cons, forall_eq_or_imp] at hf ⊢
      have hp := hs.prios _ hmem x (by simp)
      simpa only [hp] using hf
    · refine Nodup.sublist ?_ hs.nodup
      simp only [elems_append, elems_cons, elems_nil, append_nil]
      exact ((Sublist.refl _).append (sublist_cons_self ..)).append (Sublist.refl _)
  · exact (hframe y fun hc => hy (by simp at hc ⊢; tauto)).1
  · apply hpn
    · rintro rfl
      exact hy (by simp)
    · intro hc
      apply hy
      rw [elems_append, elems_append]
      rcases mem_cons.mp hc with rfl | hc
      · simp
      · exact mem_append_right _ ((heads_sublist bs).subset hc)

theorem unlink_single (hs : Shape s (as ++ [(e, [])] ++ bs)) (next : Bool) :
    ∃ s', s.unlink e next = some s' ∧ Shape s' (as ++ [] ++ bs) ∧
      Unlinked s s' e next (elems bs) ∧
      ∀ y, y ∉ elems (as ++ [(e, [])] ++ bs) → Unmoved s s' y := by
  have hmem : (e, []) ∈ as ++ [(e, [])] ++ bs := by simp
  obtain ⟨hd, hapart⟩ := ring_apart hs.nodup
  have hring := hs.rings _ hmem
  have hnext : s.ring.next e = some e := hring.1
  obtain ⟨hchain, hpe, hpn⟩ := Heads.remove_chain hs.chain hs.heads_nodup (outside_first _)
  obtain ⟨ring, hrem, hne, -, hframe⟩ := remove_ring hring hd
  have hisHead : (s.heads.pn e).isSome := hs.heads.pn_isSome (mem_map_of_mem hmem)
  have hfollow : s.heads.following e = some (elems bs).head? := by
    rw [hs.chain.following, head_elems]
  refine ⟨{ s with
      heads := s.heads.remove e, ring := ring
      cursor := if next then (elems bs).head? else s.cursor },
    ?_, ?_, ⟨rfl, rfl, rfl, rfl, hne, hpe⟩, fun y hy => ⟨?_, ?_⟩⟩
  · cases next <;> simp [unlink, hisHead, hasSibling, hnext, hfollow, hrem]
  · apply hs.splice
    · rfl
    · simpa using hchain
    · simp
    · intro y hy
      exact hframe y (hapart y hy)
    · intro r hr y hy
      have hr' : r ∈ as ++ [(e, [])] ++ bs := by
        simp only [mem_append] at hr ⊢
        tauto
      have hn := hs.not_head hr' hy
      apply hpn y
      simp only [map_append, map_cons, mem_append, mem_cons] at hn ⊢
      tauto
    · refine Pairwise.sublist ?_ hs.falling
      exact ((Sublist.refl _).append (nil_sublist _)).append (Sublist.refl _)
    · refine Nodup.sublist ?_ hs.nodup
      simp only [elems_append, elems_cons, elems_nil, append_nil]
      exact (sublist_append_left ..).append (Sublist.refl _)
  · exact (hframe y fun hc => hy (by simp at hc ⊢; tauto)).1
  · apply hpn
    intro hc
    apply hy
    rw [elems_append, elems_append]
    rcases mem_cons.mp hc with rfl | hc
    · simp
    · exact mem_append_right _ ((heads_sublist bs).subset hc)

theorem unlink_tail (hs : Shape s (as ++ [(h, u ++ e :: v)] ++ bs)) (next : Bool) :
    ∃ s', s.unlink e next = some s' ∧ Shape s' (as ++ [(h, u ++ v)] ++ bs) ∧
      Unlinked s s' e next (v ++ elems bs) ∧
      ∀ y, y ∉ elems (as ++ [(h, u ++ e :: v)] ++ bs) → Unmoved s s' y := by
  have hmem : (h, u ++ e :: v) ∈ as ++ [(h, u ++ e :: v)] ++ bs := by simp
  have hpe : s.heads.pn e = none := hs.tails _ hmem e (by simp)
  obtain ⟨hd, hapart⟩ := ring_apart hs.nodup
  -- The ring is read from `e` on, which is then its first element.
  have hring := (ring_rotate u v h e).mp (hs.rings _ hmem)
  have hperm : (e :: (v ++ h :: u)).Perm (h :: (u ++ e :: v)) := by
    rw [← cons_append, ← cons_append]
    exact perm_append_comm
  obtain ⟨ring, hrem, hne, hrest, hframe⟩ := remove_ring hring (hperm.nodup_iff.mpr hd)
  have hnew : ring.Ring h (u ++ v) := by
    cases v with
    | nil => simpa using hrest h u rfl
    | cons y v => exact (ring_rotate u v h y).mpr (hrest y (v ++ h :: u) rfl)
  have hnext : s.next e = some (v ++ elems bs).head? := by
    have hs' : Shape s (as ++ (h, u ++ e :: v) :: bs) := by simpa using hs
    have ht : h :: (u ++ e :: v) = (h :: u) ++ e :: v := rfl
    exact hs'.next_ring ht
  refine ⟨{ s with ring := ring, cursor := if next then (v ++ elems bs).head? else s.cursor },
    ?_, ?_, ⟨rfl, rfl, rfl, rfl, hne, hpe⟩, fun y hy => ⟨?_, rfl⟩⟩
  · cases next <;> simp [unlink, hpe, hnext, hrem]
  · apply hs.splice
    · rfl
    · simpa using hs.heads
    · intro r hr
      cases mem_singleton.mp hr
      refine ⟨hnew, fun y hy => ?_⟩
      have hy' : y ∈ u ++ e :: v := by
        simp only [mem_append, mem_cons] at hy ⊢
        tauto
      exact ⟨hs.tails _ hmem y hy', hs.prios _ hmem y hy'⟩
    · intro y hy
      exact hframe y fun hc => hapart y hy (hperm.mem_iff.mp hc)
    · intros
      rfl
    · have hf := hs.falling
      simp only [append_assoc, singleton_append, pairwise_append,
        pairwise_cons, mem_cons, forall_eq_or_imp] at hf ⊢
      exact hf
    · refine Nodup.sublist ?_ hs.nodup
      simp only [elems_append, elems_cons, elems_nil, append_nil]
      exact ((Sublist.refl _).append (((Sublist.refl _).append
        (sublist_cons_self ..)).cons_cons _)).append (Sublist.refl _)
  · apply (hframe y fun hc => hy ?_).1
    rw [elems_append, elems_append]
    simp only [elems_cons, elems_nil, append_nil]
    exact mem_append_left _ (mem_append_right _ (hperm.mem_iff.mp hc))

theorem Shape.unlink (hs : Shape s rs) (he : e ∈ elems rs) (next : Bool) :
    ∃ s' rs' u v, s.unlink e next = some s' ∧ Shape s' rs' ∧ elems rs = u ++ e :: v ∧
      elems rs' = u ++ v ∧ Unlinked s s' e next v ∧
      ∀ y, y ∉ elems rs → Unmoved s s' y := by
  obtain ⟨⟨h, t⟩, hr, hring⟩ := mem_flatMap.mp he
  obtain ⟨as, bs, rfl⟩ := append_of_mem hr
  rw [← singleton_append, ← append_assoc] at hs ⊢
  rcases mem_cons.mp hring with rfl | hring
  · cases t with
    | nil =>
      obtain ⟨s', h1, h2, h3, h4⟩ := unlink_single hs next
      exact ⟨s', _, elems as, elems bs, h1, h2, by simp, by simp, h3, h4⟩
    | cons x t =>
      obtain ⟨s', h1, h2, h3, h4⟩ := unlink_head hs next
      exact ⟨s', _, elems as, x :: t ++ elems bs, h1, h2, by simp, by simp, h3, h4⟩
  · obtain ⟨u, v, rfl⟩ := append_of_mem hring
    obtain ⟨s', h1, h2, h3, h4⟩ := unlink_tail hs next
    exact ⟨s', _, elems as ++ h :: u, v ++ elems bs, h1, h2, by simp, by simp, h3, h4⟩

end Unlink

section Link

variable {p : Prio}

theorem seek_eq {hs : List E} {n : ℕ} {r : Ref E} (hc : s.heads.Chain r hs) (hn : hs.length < n) :
    s.seek p n r = some (Heads.refAfter r (hs.takeWhile fun x => p < s.prio x)) := by
  induction hs generalizing r n with
  | nil =>
    obtain ⟨n, rfl⟩ := Nat.exists_eq_succ_of_ne_zero (Nat.ne_zero_of_lt hn)
    rw [seek, hc.get]
    rfl
  | cons x hs ih =>
    obtain ⟨n, rfl⟩ := Nat.exists_eq_succ_of_ne_zero (Nat.ne_zero_of_lt hn)
    rw [seek, hc.get, head?_cons]
    by_cases hx : p < s.prio x
    · simp only [hx, if_true, takeWhile_cons, decide_true, Heads.refAfter]
      exact ih hc.2 (Nat.lt_of_succ_lt_succ hn)
    · simp only [hx, if_false, takeWhile_cons, decide_false, Heads.refAfter, Bool.false_eq_true]

theorem Shape.length_le (hs : Shape s rs) : rs.length ≤ 2 ^ 16 := by
  have hd : (rs.map fun r => s.prio r.1).Nodup := by
    rw [Nodup, pairwise_map]
    exact hs.falling.imp fun hlt => hlt.ne'
  have hl := hd.length_le_card
  rwa [length_map, Fintype.card_fin] at hl

theorem Shape.prio_eq (hs : Shape s rs) {r : E × List E} (hr : r ∈ rs) (hx : x ∈ r.1 :: r.2) :
    s.prio x = s.prio r.1 := by
  rcases mem_cons.mp hx with rfl | hx
  · rfl
  · exact hs.prios r hr x hx

theorem Shape.split (hs : Shape s rs) (p : Prio) :
    ∃ as mid bs, rs = as ++ mid ++ bs ∧
      s.seek p (2 ^ 16 + 1) .first = some (Heads.refAfter .first (as.map fst)) ∧
      (∀ r ∈ as, p < s.prio r.1) ∧ (∀ r ∈ bs, s.prio r.1 < p) ∧
      (mid = [] ∨ ∃ h t, mid = [(h, t)] ∧ s.prio h = p) := by
  have hseek : s.seek p (2 ^ 16 + 1) .first = some (Heads.refAfter .first
      ((rs.takeWhile fun r => decide (p < s.prio r.1)).map fst)) := by
    have hlen : (rs.map fst).length < 2 ^ 16 + 1 := by
      rw [length_map]
      exact Nat.lt_succ_of_le hs.length_le
    rw [seek_eq hs.heads hlen, takeWhile_map]
    rfl
  have hsplit := (takeWhile_append_dropWhile (p := fun r => decide (p < s.prio r.1)) (l := rs)).symm
  have has : ∀ r ∈ rs.takeWhile fun r => decide (p < s.prio r.1), p < s.prio r.1 := by
    intro r hr
    simpa using mem_takeWhile_imp hr
  have hfall := hs.falling
  rw [hsplit, pairwise_append] at hfall
  have hhead := head?_dropWhile_not (fun r : E × List E => decide (p < s.prio r.1)) rs
  generalize rs.dropWhile (fun r => decide (p < s.prio r.1)) = ds at *
  cases ds with
  | nil => exact ⟨_, [], [], by simpa using hsplit, hseek, has, by simp, .inl rfl⟩
  | cons r bs =>
    have hr : s.prio r.1 ≤ p := by simpa using hhead
    obtain ⟨hlt, -⟩ := pairwise_cons.mp hfall.2.1
    rcases eq_or_lt_of_le hr with heq | hr
    · refine ⟨_, [r], bs, by simpa using hsplit, hseek, has, fun b hb => ?_, .inr ⟨r.1, r.2, rfl, heq⟩⟩
      rw [← heq]
      exact hlt b hb
    · refine ⟨_, [], r :: bs, by simpa using hsplit, hseek, has, fun b hb => ?_, .inl rfl⟩
      rcases mem_cons.mp hb with rfl | hb
      · exact hr
      · exact (hlt b hb).trans hr

structure Linked (s s' : PrioList E Q) : Prop where
  queue : s'.queue = s.queue
  prio : s'.prio = s.prio
  poi : s'.poi = s.poi
  cursor : s'.cursor = s.cursor

variable [DecidableEq E]

theorem link_ring (hs : Shape s (as ++ [(h, t)] ++ bs)) (he : e ∉ elems (as ++ [(h, t)] ++ bs))
    (hpe : s.heads.pn e = none) (hp : s.prio e = p) (hh : s.prio h = p)
    (hseek : s.seek p (2 ^ 16 + 1) .first = some (Heads.refAfter .first (as.map fst))) :
    ∃ s', s.link e p = some s' ∧ Shape s' (as ++ [(h, t ++ [e])] ++ bs) ∧ Linked s s' ∧
      ∀ y, y ∉ elems (as ++ [(h, t)] ++ bs) → y ≠ e → Unmoved s s' y := by
  have hmem : (h, t) ∈ as ++ [(h, t)] ++ bs := by simp
  obtain ⟨hd, hapart⟩ := ring_apart hs.nodup
  have hring : ∀ y ∈ h :: t, y ∈ elems (as ++ [(h, t)] ++ bs) :=
    fun y hy => mem_flatMap.mpr ⟨_, hmem, hy⟩
  obtain ⟨ring, hins, hnew, hframe⟩ := insertBefore_ring (hs.rings _ hmem) hd
    fun hc => he (hring e hc)
  have hget : s.heads.get (Heads.refAfter .first (as.map fst)) = some h :=
    (Heads.chain_append hs.chain).get
  refine ⟨{ s with ring := ring }, ?_, ?_, ⟨rfl, rfl, rfl, rfl⟩, fun y hy hye => ⟨?_, rfl⟩⟩
  · rw [link, hseek]
    simp [hget, hh, hins]
  · apply hs.splice
    · rfl
    · simpa using hs.heads
    · intro r hr
      cases mem_singleton.mp hr
      refine ⟨hnew, fun y hy => ?_⟩
      rcases mem_append.mp hy with hy | hy
      · exact ⟨hs.tails _ hmem y hy, hs.prios _ hmem y hy⟩
      · cases mem_singleton.mp hy
        exact ⟨hpe, hp.trans hh.symm⟩
    · intro y hy
      apply hframe y
      · rintro rfl
        exact he (by simp only [elems_append, mem_append] at hy ⊢; tauto)
      · exact hapart y hy
    · intros
      rfl
    · have hf := hs.falling
      simp only [append_assoc, singleton_append, pairwise_append,
        pairwise_cons, mem_cons, forall_eq_or_imp] at hf ⊢
      exact hf
    · have hperm : (elems (as ++ [(h, t ++ [e])] ++ bs)).Perm
          (e :: elems (as ++ [(h, t)] ++ bs)) := by
        simp only [elems_append, elems_cons, elems_nil, append_assoc, cons_append]
        have hmid : (elems as ++ h :: t ++ e :: elems bs).Perm (e :: (elems as ++ h :: t ++ elems bs)) :=
          perm_middle
        simpa using hmid
      exact hperm.nodup_iff.mpr (nodup_cons.mpr ⟨he, hs.nodup⟩)
  · exact (hframe y hye fun hc => hy (hring y hc)).1

theorem link_own (hs : Shape s (as ++ [] ++ bs)) (he : e ∉ elems (as ++ [] ++ bs))
    (hp : s.prio e = p) (has : ∀ r ∈ as, p < s.prio r.1) (hbs : ∀ r ∈ bs, s.prio r.1 < p)
    (hseek : s.seek p (2 ^ 16 + 1) .first = some (Heads.refAfter .first (as.map fst))) :
    ∃ s', s.link e p = some s' ∧ Shape s' (as ++ [(e, [])] ++ bs) ∧ Linked s s' ∧
      ∀ y, y ∉ elems (as ++ [] ++ bs) → y ≠ e → Unmoved s s' y := by
  have hheads := hs.heads
  have hhd := hs.nodup.sublist (heads_sublist _)
  rw [append_nil, map_append] at hheads hhd
  have heh : e ∉ as.map fst ++ bs.map fst := by
    rw [← map_append, ← append_nil as]
    exact fun hc => he ((heads_sublist _).subset hc)
  have hget : s.heads.get (Heads.refAfter .first (as.map fst)) = (bs.map fst).head? :=
    (Heads.chain_append hheads).get
  obtain ⟨hchain, hpn⟩ := Heads.insertBefore_chain hheads hhd heh (outside_first _) (by simp)
  have hlink : s.link e p = some (s.selfInsert e (Heads.refAfter .first (as.map fst))) := by
    cases bs with
    | nil =>
      rw [link, hseek]
      simp [hget]
    | cons b bs =>
      have hb : s.prio b.1 ≠ p := (hbs b (by simp)).ne
      rw [link, hseek]
      simp [hget, hb]
  refine ⟨_, hlink, ?_, ⟨rfl, rfl, rfl, rfl⟩, fun y hy hye => ⟨?_, ?_⟩⟩
  · apply hs.splice
    · rfl
    · simpa [selfInsert] using hchain
    · intro r hr
      cases mem_singleton.mp hr
      exact ⟨ring_selfInsert _ e, by simp⟩
    · intro y hy
      apply selfInsert_of_ne
      rintro rfl
      exact he (by simpa using hy)
    · intro r hr y hy
      have hr' : r ∈ as ++ [] ++ bs := by simpa using hr
      have hn := hs.not_head hr' hy
      apply hpn
      · rintro rfl
        exact he (snd_mem_elems hr' hy)
      · intro hc
        exact hn (by simp only [map_append, mem_append]; exact .inr hc)
    · have hf := hs.falling
      simp only [append_nil, append_assoc, singleton_append, pairwise_append,
        pairwise_cons, mem_cons, forall_eq_or_imp] at hf ⊢
      rw [hp]
      exact ⟨hf.1, ⟨hbs, hf.2.1⟩, fun r hr => ⟨has r hr, hf.2.2 r hr⟩⟩
    · have hperm : (elems (as ++ [(e, [])] ++ bs)).Perm (e :: elems (as ++ [] ++ bs)) := by
        simp only [elems_append, elems_cons, append_nil, append_assoc, cons_append, nil_append]
        exact perm_middle
      exact hperm.nodup_iff.mpr (nodup_cons.mpr ⟨he, hs.nodup⟩)
  · exact (selfInsert_of_ne hye).1
  · apply hpn y hye
    intro hc
    apply hy
    rw [elems_append]
    exact mem_append_right _ ((heads_sublist bs).subset hc)

theorem Shape.link (hs : Shape s rs) (he : e ∉ elems rs) (hpe : s.heads.pn e = none)
    (hp : s.prio e = p) :
    ∃ s' rs' u v, s.link e p = some s' ∧ Shape s' rs' ∧ elems rs = u ++ v ∧
      elems rs' = u ++ e :: v ∧ (∀ x ∈ u, p ≤ s.prio x) ∧ (∀ x ∈ v, s.prio x < p) ∧
      Linked s s' ∧ ∀ y, y ∉ elems rs → y ≠ e → Unmoved s s' y := by
  obtain ⟨as, mid, bs, rfl, hseek, has, hbs, hmid⟩ := hs.split p
  have hfront : ∀ x ∈ elems as, p ≤ s.prio x := by
    intro x hx
    obtain ⟨r, hr, hx⟩ := mem_flatMap.mp hx
    rw [hs.prio_eq (by simp [hr]) hx]
    exact (has r hr).le
  have hback : ∀ x ∈ elems bs, s.prio x < p := by
    intro x hx
    obtain ⟨r, hr, hx⟩ := mem_flatMap.mp hx
    rw [hs.prio_eq (by simp [hr]) hx]
    exact hbs r hr
  rcases hmid with rfl | ⟨h, t, rfl, hh⟩
  · obtain ⟨s', h1, h2, h3, h4⟩ := link_own hs he hp has hbs hseek
    exact ⟨s', _, elems as, elems bs, h1, h2, by simp, by simp, hfront, hback, h3, h4⟩
  · obtain ⟨s', h1, h2, h3, h4⟩ := link_ring hs he hpe hp hh hseek
    refine ⟨s', _, elems as ++ h :: t, elems bs, h1, h2, by simp, by simp, fun x hx => ?_, hback,
      h3, h4⟩
    rcases mem_append.mp hx with hx | hx
    · exact hfront x hx
    · rw [hs.prio_eq (by simp : (h, t) ∈ _) hx, hh]

end Link

end PrioList

end Fiasco
