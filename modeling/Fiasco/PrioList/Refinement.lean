import Fiasco.PrioList.Shape
import Fiasco.Lib.StableQueue

/-!
# The priority sorted list is a stable priority queue

`Holds` relates a list with the queue of its entries in the order of their insertion. Each operation
answers as the queue does, `Holds.step`, and so does each sequence of them.
-/
namespace Fiasco

open List Function
open Prod (fst snd)
open scoped Machine

open StableQueue

namespace PrioList

variable {E Q : Type}

section Refinement

inductive Op (E : Type)
  | insert (e : E) (prio : Prio)
  | dequeue (e : E)
  | dequeueFirst
  | cursor (e : Option E)
  | setPoi (e : E)
  | resetPoi (tag : Fin 4)

inductive Result (E : Type)
  | done
  | flag (b : Bool)
  | elem (e : Option E)
  deriving DecidableEq

def Elsewhere (this : Q) (s : PrioList E Q) (e : E) : Prop :=
  ∃ t, t ≠ this ∧ s.queue e = some t

section

variable [DecidableEq E]

def step [DecidableEq Q] (this : Q) (s : PrioList E Q) : Op E → Option (PrioList E Q × Result E)
  | .insert e prio => do
    let (s, b) ← insertDirty this s e prio
    pure (s, .flag b)
  | .dequeue e => do
    let (s, b) ← dequeue this s e
    pure (s, .flag b)
  | .dequeueFirst => do
    let (s, f) ← dequeueFirstDirty this s
    pure (s, .elem f)
  | .cursor e => some ({ s with cursor := e }, .done)
  | .setPoi e => some ({ s with poi := ⟨some e, if s.queue e = some this then 1 else 0⟩ }, .done)
  | .resetPoi tag => some ({ s with poi := ⟨none, tag⟩ }, .done)

def exec [DecidableEq Q] (this : Q) (s : PrioList E Q) : List (Op E) → Option (PrioList E Q × List (Result E))
  | [] => some (s, [])
  | op :: ops => do
    let (s, r) ← step this s op
    let (s, rs) ← exec this s ops
    pure (s, r :: rs)

def Answers (elsewhere : E → Prop) (q : Queue E Prio) : Op E → Result E → Queue E Prio → Prop
  | .insert e p, r, q' =>
    (e ∈ q.map fst ∨ elsewhere e) ∧ r = .flag false ∧ q' = q ∨
      ¬ (e ∈ q.map fst ∨ elsewhere e) ∧ r = .flag true ∧ q' = q ++ [(e, p)]
  | .dequeue e, r, q' => r = .flag (e ∈ q.map fst) ∧ q' = q.filter (·.1 ≠ e)
  | .dequeueFirst, r, q' =>
    q = [] ∧ r = .elem none ∧ q' = [] ∨
      ∃ a, IsBest q a ∧ r = .elem (some a.1) ∧ q' = q.filter (·.1 ≠ a.1)
  | .cursor _, r, q' | .setPoi _, r, q' | .resetPoi _, r, q' => r = .done ∧ q' = q

inductive Serves (elsewhere : E → Prop) :
    Queue E Prio → List (Op E) → List (Result E) → Queue E Prio → Prop
  | nil (q) : Serves elsewhere q [] [] q
  | cons {q q' q'' op ops r rs} : Answers elsewhere q op r q' → Serves elsewhere q' ops rs q'' →
    Serves elsewhere q (op :: ops) (r :: rs) q''

end

def Enumerates (s : PrioList E Q) (l : List E) : Prop :=
  s.first = l.head? ∧ ∀ u e v, l = u ++ e :: v → s.next e = some v.head?

def entries (s : PrioList E Q) (rs : List (E × List E)) : List (E × Prio) :=
  (elems rs).map fun e => (e, s.prio e)

variable {this : Q} {s s' : PrioList E Q} {rs : List (E × List E)} {q : Queue E Prio} {e : E}
  {p : Prio} {f : E → Option Q} {poi : Poi E}

theorem Shape.enumerates (hs : Shape s rs) : Enumerates s (elems rs) := by
  refine ⟨hs.first, fun u e v huv => ?_⟩
  obtain ⟨⟨h, t⟩, hr, he⟩ := mem_flatMap.mp (show e ∈ elems rs by rw [huv]; simp)
  obtain ⟨as, bs, rfl⟩ := append_of_mem hr
  obtain ⟨u', v', ht⟩ := append_of_mem he
  rw [hs.next_ring ht]
  have hd := hs.nodup
  simp only [elems_append, elems_cons] at huv hd
  rw [ht, append_assoc, cons_append, ← append_assoc] at huv hd
  have hnd := nodup_append.mp hd
  obtain ⟨-, -, hv⟩ := (append_cons_inj_of_notMem
    (fun hc => hnd.2.2 e hc e (by simp) rfl) (nodup_cons.mp hnd.2.1).1).mp huv
  rw [hv]

theorem Shape.congr (hs : Shape s rs) (hring : s'.ring = s.ring) (hheads : s'.heads = s.heads)
    (hprio : ∀ x ∈ elems rs, s'.prio x = s.prio x) : Shape s' rs := by
  refine ⟨hheads ▸ hs.heads, hring ▸ hs.rings, hheads ▸ hs.tails, fun r hr x hx => ?_, ?_, hs.nodup⟩
  · rw [hprio x (snd_mem_elems hr hx), hprio r.1 (fst_mem_elems hr)]
    exact hs.prios r hr x hx
  · refine hs.falling.imp_of_mem fun {a b} ha hb hlt => ?_
    rwa [hprio a.1 (fst_mem_elems ha), hprio b.1 (fst_mem_elems hb)]

theorem elsewhere_update [DecidableEq E] {o : Option Q} (h : s'.queue = update s.queue e o)
    (he : s.queue e = none ∨ s.queue e = some this) (ho : o = none ∨ o = some this) :
    Elsewhere this s' = Elsewhere this s := by
  funext x
  rw [Elsewhere, Elsewhere, h, update_apply]
  split_ifs with hx
  · refine propext ⟨?_, ?_⟩ <;> rintro ⟨t, ht, hq⟩ <;> simp_all
  · rfl

section

variable [DecidableEq Q]

def Poi.Tracks (p : Poi E) (this : Q) (queue : E → Option Q) : Prop :=
  ∀ e, p.elem = some e → p.tag = if queue e = some this then 1 else 0

structure Holds (this : Q) (s : PrioList E Q) (rs : List (E × List E)) (q : Queue E Prio) : Prop
    extends Shape s rs where
  queued : ∀ e, s.queue e = some this ↔ e ∈ elems rs
  idle : ∀ e, s.queue e = none → s.ring.next e = none ∧ s.heads.pn e = none
  order : entries s rs = inOrder q
  poi : s.poi.Tracks this s.queue

/-- A list without elements; those of no list have null pointers. -/
structure Vacant (this : Q) (s : PrioList E Q) : Prop where
  first : s.heads.first = none
  queue : ∀ e, s.queue e ≠ some this
  idle : ∀ e, s.queue e = none → s.ring.next e = none ∧ s.heads.pn e = none
  poi : s.poi.elem = none

theorem Vacant.holds (h : Vacant this s) : Holds this s [] [] := by
  refine ⟨⟨h.first, by simp, by simp, by simp, Pairwise.nil, nodup_nil⟩, fun e => ?_,
    h.idle, rfl, fun e he => ?_⟩
  · simp [h.queue e]
  · rw [h.poi] at he
    cases he

/-- `next` leads over the entries of the queue in their order, the heads have falling priorities,
and each element of the list is in one ring, with others of its priority. -/
structure Ordered (this : Q) (s : PrioList E Q) (rs : List (E × List E)) (q : Queue E Prio) :
    Prop where
  enumerates : Enumerates s ((inOrder q).map fst)
  heads : s.heads.Chain .first (rs.map fst)
  falling : rs.Pairwise fun a b => s.prio b.1 < s.prio a.1
  rings : ∀ r ∈ rs, s.ring.Ring r.1 r.2 ∧ ∀ x ∈ r.2, s.prio x = s.prio r.1
  queued : ∀ e, s.queue e = some this ↔ e ∈ q.map fst
  unique : ∀ e, s.queue e = some this → ∃! r, r ∈ rs ∧ e ∈ r.1 :: r.2

variable (h : Holds this s rs q)
include h

theorem Holds.elems_eq : elems rs = (inOrder q).map fst := by
  rw [← h.order, entries, map_map]
  exact (map_id _).symm

theorem Holds.mem_iff : s.queue e = some this ↔ e ∈ q.map fst := by
  rw [h.queued, h.elems_eq]
  exact ((inOrder_perm q).map fst).mem_iff

theorem Holds.front : s.first = (inOrder q).head?.map fst := by
  rw [h.first, h.elems_eq, head?_map]

theorem Holds.ring_unique (he : s.queue e = some this) : ∃! r, r ∈ rs ∧ e ∈ r.1 :: r.2 := by
  obtain ⟨r, hr, her⟩ := mem_flatMap.mp ((h.queued e).mp he)
  refine ⟨r, ⟨hr, her⟩, fun r' ⟨hr', her'⟩ => ?_⟩
  by_contra hne
  obtain ⟨-, hdis⟩ := nodup_flatMap.mp h.nodup
  have : Std.Symm fun a b : E × List E => (a.1 :: a.2).Disjoint (b.1 :: b.2) :=
    ⟨fun _ _ hab => hab.symm⟩
  exact Pairwise.forall hdis hr' hr hne her' her

theorem Holds.ordered : Ordered this s rs q where
  enumerates := h.elems_eq ▸ h.enumerates
  heads := h.heads
  falling := h.falling
  rings := fun r hr => ⟨h.rings r hr, h.prios r hr⟩
  queued := fun _ => h.mem_iff
  unique := fun _ => h.ring_unique

end

variable [DecidableEq E] [DecidableEq Q]

theorem Poi.Tracks.moved {m n} {v : Option Q} (h : poi.Tracks this f)
    (hm : (if f e = some this then 1 else 0) = m) (hn : n = if v = some this then 1 else 0) :
    Poi.Tracks (if poi = ⟨some e, m⟩ then ⟨some e, n⟩ else poi) this (update f e v) := by
  intro x hx
  by_cases hp : poi = ⟨some e, m⟩
  · rw [if_pos hp] at hx ⊢
    cases hx
    rw [update_self]
    exact hn
  · rw [if_neg hp] at hx ⊢
    have hxe : x ≠ e := by
      rintro rfl
      exact hp (by rw [← hx, ← hm, ← h x hx])
    rw [update_of_ne hxe]
    exact h x hx

theorem filter_of_nodup {u v : List E} (hd : (u ++ e :: v).Nodup) (f : E → Prio) :
    ((u ++ e :: v).map fun x => (x, f x)).filter (·.1 ≠ e) = (u ++ v).map fun x => (x, f x) := by
  have hu : ∀ x ∈ u ++ v, x ≠ e := by
    rintro x hx rfl
    exact (nodup_cons.mp (perm_middle.nodup_iff.mp hd)).1 hx
  rw [filter_map, filter_append, filter_cons_of_neg (by simp), ← filter_append,
    filter_eq_self.mpr]
  intro x hx
  simpa using hu x hx

section

variable (h : Holds this s rs q)
include h

theorem Holds.insert (he : s.queue e = none) (p : Prio) :
    ∃ s' rs' u v, insertDirty this s e p = some (s', true) ∧ Holds this s' rs' (q ++ [(e, p)]) ∧
      s'.queue = update s.queue e (some this) ∧ elems rs = u ++ v ∧ elems rs' = u ++ e :: v ∧
      s'.cursor = s.cursor := by
  have hmem : e ∉ elems rs := by
    rw [← h.queued, he]
    simp
  have hne : ∀ x ∈ elems rs, x ≠ e := by
    rintro x hx rfl
    exact hmem hx
  set s₁ : PrioList E Q := { s with
    queue := update s.queue e (some this)
    prio := update s.prio e p
    poi := s.poi.enqueued e } with hs₁
  have hprio : ∀ x ∈ elems rs, s₁.prio x = s.prio x := fun x hx => update_of_ne (hne x hx) ..
  have hshape : Shape s₁ rs := h.toShape.congr rfl rfl hprio
  obtain ⟨s', rs', u, v, hlink, hs', huv, huv', hu, hv, hf, hframe⟩ :=
    hshape.link hmem (h.idle e he).2 (update_self ..)
  have hqueue : s'.queue = update s.queue e (some this) := hf.queue
  refine ⟨s', rs', u, v, ?_, ⟨hs', fun x => ?_, fun x hx => ?_, ?_, ?_⟩, hqueue, huv, huv', hf.cursor⟩
  · rw [insertDirty, he]
    simp only [← hs₁, hlink]
    rfl
  · rw [hqueue, huv', update_apply]
    by_cases hxe : x = e
    · simp [hxe]
    · rw [if_neg hxe, h.queued, huv]
      simp [hxe]
  · rw [hqueue, update_apply] at hx
    split_ifs at hx with hxe
    obtain ⟨h1, h2⟩ := hframe x (fun hc => by rw [(h.queued x).mpr hc] at hx; cases hx) hxe
    rw [h1, h2]
    exact h.idle x hx
  · have hold : (u ++ v).map (fun x => (x, s₁.prio x)) = inOrder q := by
      rw [← huv, ← h.order]
      exact map_congr_left fun x hx => congrArg _ (hprio x hx)
    rw [inOrder_concat, ← hold, entries, huv', hf.prio, map_append, map_append,
      map_cons, insertBehind_append]
    · rw [show s₁.prio e = p from update_self ..]
    · intro b hb
      obtain ⟨x, hx, rfl⟩ := mem_map.mp hb
      exact hu x hx
    · intro b hb
      obtain ⟨x, hx, rfl⟩ := mem_map.mp hb
      exact hv x hx
  · rw [hf.poi, hqueue]
    exact h.poi.moved (by simp [he]) (if_pos rfl).symm

theorem Holds.takeOut (he : s.queue e = some this) :
    ∃ s' rs' u v, s.takeOut e = some s' ∧ Holds this s' rs' (q.filter (·.1 ≠ e)) ∧
      s'.queue = update s.queue e none ∧ elems rs = u ++ e :: v ∧ elems rs' = u ++ v ∧
      s'.cursor = if s.cursor = some e then v.head? else s.cursor := by
  have hmem := (h.queued e).mp he
  have hshape : Shape { s with queue := update s.queue e none, poi := s.poi.dequeued e }
      rs := h.toShape.congr rfl rfl fun _ _ => rfl
  obtain ⟨s', rs', u, v, hun, hs', huv, huv', hf, hframe⟩ :=
    hshape.unlink hmem (s.cursor = some e)
  have hqueue : s'.queue = update s.queue e none := hf.queue
  have hd := h.nodup
  rw [huv] at hd
  refine ⟨s', rs', u, v, hun, ⟨hs', fun x => ?_, fun x hx => ?_, ?_, ?_⟩, hqueue, huv, huv', ?_⟩
  · rw [hqueue, huv', update_apply]
    by_cases hxe : x = e
    · have hn := (nodup_cons.mp (perm_middle.nodup_iff.mp hd)).1
      rw [if_pos hxe, hxe]
      simp [hn]
    · rw [if_neg hxe, h.queued, huv]
      simp [hxe]
  · rw [hqueue, update_apply] at hx
    split_ifs at hx with hxe
    · rw [hxe]
      exact ⟨hf.ring, hf.pn⟩
    · obtain ⟨h1, h2⟩ := hframe x fun hc => by rw [(h.queued x).mpr hc] at hx; cases hx
      rw [h1, h2]
      exact h.idle x hx
  · rw [inOrder_filter, ← h.order, entries, entries, huv, huv', hf.prio]
    exact (filter_of_nodup hd s.prio).symm
  · rw [hf.poi, hqueue]
    exact h.poi.moved (if_pos he) (if_neg nofun).symm
  · simpa using hf.cursor

theorem Holds.step (op : Op E) :
    ∃ s' rs' r q', step this s op = some (s', r) ∧ Answers (Elsewhere this s) q op r q' ∧
      Holds this s' rs' q' ∧ Elsewhere this s' = Elsewhere this s := by
  cases op with
  | insert e p =>
    cases hq : s.queue e with
    | none =>
      obtain ⟨s', rs', -, -, hins, hs', hqueue, -⟩ := h.insert hq p
      refine ⟨s', rs', _, _, by simp [PrioList.step, hins], .inr ⟨?_, rfl, rfl⟩, hs',
        elsewhere_update hqueue (.inl hq) (.inr rfl)⟩
      rw [← h.mem_iff, Elsewhere, hq]
      simp
    | some t =>
      refine ⟨s, rs, _, _, by simp [PrioList.step, insertDirty, hq], .inl ⟨?_, rfl, rfl⟩, h, rfl⟩
      by_cases ht : t = this
      · exact .inl (h.mem_iff.mp (ht ▸ hq))
      · exact .inr ⟨t, ht, hq⟩
  | dequeue e =>
    by_cases hq : s.queue e = some this
    · obtain ⟨s', rs', -, -, hout, hs', hqueue, -⟩ := h.takeOut hq
      refine ⟨s', rs', _, _, by simp [PrioList.step, dequeue, hq, hout]; rfl, ⟨?_, rfl⟩, hs',
        elsewhere_update hqueue (.inr hq) (.inl rfl)⟩
      simp [← h.mem_iff, hq]
    · have hn : e ∉ q.map fst := fun hc => hq (h.mem_iff.mpr hc)
      refine ⟨s, rs, _, _, by simp [PrioList.step, dequeue, hq]; rfl, ⟨by simp only [hn, decide_false], rfl⟩,
        ?_, rfl⟩
      rw [filter_eq_self.mpr]
      · exact h
      · intro a ha
        simp only [ne_eq, decide_eq_true_eq]
        rintro rfl
        exact hn (mem_map_of_mem ha)
  | dequeueFirst =>
    have hfront := h.front
    cases hl : inOrder q with
    | nil =>
      have hq : q = [] := Perm.nil_eq (hl ▸ inOrder_perm q) |>.symm
      rw [hl] at hfront
      exact ⟨s, rs, _, _, by simp [PrioList.step, dequeueFirstDirty, hfront],
        .inl ⟨hq, rfl, rfl⟩, hq ▸ h, rfl⟩
    | cons a l =>
      rw [hl] at hfront
      have ha : s.queue a.1 = some this := h.mem_iff.mpr
        (mem_map_of_mem (mem_inOrder.mp (by rw [hl]; simp)))
      obtain ⟨s', rs', -, -, hout, hs', hqueue, -⟩ := h.takeOut ha
      exact ⟨s', rs', _, _, by simp [PrioList.step, dequeueFirstDirty, hfront, ha, hout],
        .inr ⟨a, head_inOrder hl, rfl, rfl⟩, hs', elsewhere_update hqueue (.inr ha) (.inl rfl)⟩
  | cursor c => exact ⟨_, rs, _, q, rfl, ⟨rfl, rfl⟩, ⟨h.toShape.congr rfl rfl fun _ _ => rfl, h.queued,
      h.idle, h.order, h.poi⟩, rfl⟩
  | setPoi e =>
    refine ⟨_, rs, _, q, rfl, ⟨rfl, rfl⟩, ⟨h.toShape.congr rfl rfl fun _ _ => rfl, h.queued,
      h.idle, h.order, ?_⟩, rfl⟩
    rintro x ⟨⟩
    rfl
  | resetPoi tag =>
    refine ⟨_, rs, _, q, rfl, ⟨rfl, rfl⟩, ⟨h.toShape.congr rfl rfl fun _ _ => rfl, h.queued,
      h.idle, h.order, ?_⟩, rfl⟩
    rintro x ⟨⟩

theorem Holds.exec (ops : List (Op E)) :
    ∃ s' rs' results q', exec this s ops = some (s', results) ∧
      Serves (Elsewhere this s) q ops results q' ∧ Holds this s' rs' q' := by
  induction ops generalizing s rs q with
  | nil => exact ⟨s, rs, [], q, rfl, .nil q, h⟩
  | cons op ops ih =>
    obtain ⟨s₁, rs₁, r, q₁, hstep, hans, h₁, helse⟩ := h.step op
    obtain ⟨s', rs', results, q', hexec, hserves, h'⟩ := ih h₁
    refine ⟨s', rs', r :: results, q', ?_, .cons hans (helse ▸ hserves), h'⟩
    simp [PrioList.exec, hstep, hexec]

end

/-- Whatever is done with an empty list, no null pointer is met, the answers are those of a stable
priority queue, and the list is kept in its order. -/
theorem refines_stableQueue (this : Q) (s : PrioList E Q) (hs : Vacant this s) (ops : List (Op E)) :
    ∃ s' rs results q, exec this s ops = some (s', results) ∧
      Serves (Elsewhere this s) [] ops results q ∧ Ordered this s' rs q := by
  obtain ⟨s', rs, results, q, hexec, hserves, h⟩ := hs.holds.exec ops
  exact ⟨s', rs, results, q, hexec, hserves, h.ordered⟩

def blank : PrioList ℕ ℕ where
  ring := ⟨fun _ => none, fun _ => none⟩
  heads := ⟨none, fun _ => none, fun _ => none⟩
  queue := fun _ => none
  prio := fun _ => 0
  cursor := none
  poi := ⟨none, 0⟩

def threeOps : List (Op ℕ) :=
  [.insert 1 5, .insert 2 5, .insert 3 7, .dequeueFirst, .dequeue 1, .dequeueFirst]

theorem refines_three : ∃ s' rs results q, exec 0 blank threeOps = some (s', results) ∧
    Serves (Elsewhere 0 blank) [] threeOps results q ∧ Ordered 0 s' rs q :=
  refines_stableQueue 0 blank ⟨rfl, fun _ => by simp [blank], fun _ _ => ⟨rfl, rfl⟩, rfl⟩ threeOps

end Refinement

end PrioList

end Fiasco
