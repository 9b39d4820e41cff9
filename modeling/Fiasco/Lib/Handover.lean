import Fiasco.Lib.Interleaving

/-!
# Things that are handed over and used up once

A thing that was issued is in a store, in the hand of one process, or used up. If every step keeps
what there is in the store and in the hand of the process that moves, uses up what it has in its
hand, or takes a new thing into its hand, then nothing is used up twice, and with no thing in a hand
what is not in the store is used up.
-/
namespace Handover

open Interleaving List Interleaving.System

variable {P G L X : Type*} {store : G → List X} {hand : L → Option X} {used : G → X → ℕ}
  {issued : G → List X} {s : System P G L} {p : P} {r : G × L} {x : X}

def stock (store : G → List X) (hand : L → Option X) (g : G) (l : L) : List X :=
  (hand l).toList ++ store g

def Present (store : G → List X) (hand : L → Option X) (s : System P G L) (x : X) : Prop :=
  x ∈ store s.shared ∨ ∃ p, hand (s.loc p) = some x

structure Once (store : G → List X) (hand : L → Option X) (used : G → X → ℕ) (issued : G → List X)
    (s : System P G L) : Prop where
  nodup : ∀ p, (stock store hand s.shared (s.loc p)).Nodup
  unique : ∀ p q x, hand (s.loc p) = some x → hand (s.loc q) = some x → p = q
  live : ∀ x, Present store hand s x → x ∈ issued s.shared ∧ used s.shared x = 0
  gone : ∀ x ∈ issued s.shared, ¬ Present store hand s x → used s.shared x = 1
  fresh : ∀ x, x ∉ issued s.shared → used s.shared x = 0

theorem mem_stock {g : G} {l : L} : x ∈ stock store hand g l ↔ hand l = some x ∨ x ∈ store g := by
  rw [stock, mem_append, Option.mem_toList]

section

variable (h : Once store hand used issued s)
include h

theorem Once.le_one (x : X) : used s.shared x ≤ 1 := by
  by_cases hi : x ∈ issued s.shared
  · by_cases hp : Present store hand s x
    · exact (h.live x hp).2.trans_le (Nat.zero_le 1)
    · exact (h.gone x hi hp).le
  · exact (h.fresh x hi).trans_le (Nat.zero_le 1)

theorem Once.rest (hrest : ∀ p, hand (s.loc p) = none)
    (hx : x ∈ issued s.shared) : x ∈ store s.shared ∨ used s.shared x = 1 := by
  by_cases hp : Present store hand s x
  · refine .inl (hp.resolve_right ?_)
    rintro ⟨p, hp⟩
    rw [hrest p] at hp
    cases hp
  · exact .inr (h.gone x hx hp)

theorem Once.not_other
    (hx : x ∈ stock store hand s.shared (s.loc p)) (q : P) (hq : q ≠ p) : hand (s.loc q) ≠ some x := by
  intro hqx
  rcases mem_stock.mp hx with hh | hs
  · exact hq (h.unique q p x hqx hh)
  · have hd := (nodup_append.mp (h.nodup q)).2.2
    exact hd x (Option.mem_toList.mpr hqx) x hs rfl

end

variable [DecidableEq P]

theorem present_move : Present store hand (s.move p r) x ↔
    x ∈ stock store hand r.1 r.2 ∨ ∃ q, q ≠ p ∧ hand (s.loc q) = some x := by
  rw [mem_stock]
  constructor
  · rintro (hx | ⟨q, hq⟩)
    · exact .inl (.inr hx)
    · by_cases hqp : q = p
      · rw [hqp, move_self] at hq
        exact .inl (.inl hq)
      · rw [move_of_ne hqp] at hq
        exact .inr ⟨q, hqp, hq⟩
  · rintro ((hx | hx) | ⟨q, hqp, hq⟩)
    · exact .inr ⟨p, by rw [move_self]; exact hx⟩
    · exact .inl hx
    · exact .inr ⟨q, by rw [move_of_ne hqp]; exact hq⟩

theorem present_iff (p : P) : Present store hand s x ↔
    x ∈ stock store hand s.shared (s.loc p) ∨ ∃ q, q ≠ p ∧ hand (s.loc q) = some x := by
  rw [← present_move (r := (s.shared, s.loc p)), System.move_same]

variable (h : Once store hand used issued s)
include h

theorem Once.apart (hnodup : (stock store hand r.1 r.2).Nodup)
    (hnew : ∀ x ∈ stock store hand r.1 r.2, ∀ q, q ≠ p → hand (s.loc q) ≠ some x) :
    (∀ q, (stock store hand r.1 ((s.move p r).loc q)).Nodup) ∧
      ∀ q q' x, hand ((s.move p r).loc q) = some x → hand ((s.move p r).loc q') = some x → q = q' := by
  have hother {q q' : P} {x : X} (hq : q = p) (hq' : q' ≠ p) (hx : hand ((s.move p r).loc q) = some x)
      (hx' : hand ((s.move p r).loc q') = some x) : False := by
    subst hq
    rw [move_self] at hx
    rw [move_of_ne hq'] at hx'
    exact hnew x (mem_stock.mpr (.inl hx)) q' hq' hx'
  refine ⟨fun q => ?_, fun q q' x hx hx' => ?_⟩
  · by_cases hqp : q = p
    · rw [hqp, move_self]
      exact hnodup
    · rw [move_of_ne hqp]
      have hh := (nodup_append.mp (h.nodup q)).1
      refine nodup_append.mpr ⟨hh, (nodup_append.mp hnodup).2.1, fun a ha b hb => ?_⟩
      rintro rfl
      exact hnew a (mem_stock.mpr (.inr hb)) q hqp (Option.mem_toList.mp ha)
  · by_cases hqp : q = p <;> by_cases hq'p : q' = p
    · exact hqp.trans hq'p.symm
    · exact (hother hqp hq'p hx hx').elim
    · exact (hother hq'p hqp hx' hx).elim
    · rw [move_of_ne hqp] at hx
      rw [move_of_ne hq'p] at hx'
      exact h.unique q q' x hx hx'

theorem Once.keep
    (hperm : (stock store hand r.1 r.2).Perm (stock store hand s.shared (s.loc p)))
    (hused : used r.1 = used s.shared) (hissued : issued r.1 = issued s.shared) :
    Once store hand used issued (s.move p r) := by
  have hp {x : X} : Present store hand (s.move p r) x ↔ Present store hand s x := by
    rw [present_move, present_iff p, hperm.mem_iff]
  obtain ⟨hnodup, hunique⟩ := h.apart (p := p) (hperm.nodup_iff.mpr (h.nodup p))
    fun x hx => h.not_other (hperm.mem_iff.mp hx)
  refine ⟨hnodup, hunique, fun x hx => ?_, fun x hi hx => ?_, fun x hi => ?_⟩
  · rw [show (s.move p r).shared = r.1 from rfl, hused, hissued]
    exact h.live x (hp.mp hx)
  · rw [show (s.move p r).shared = r.1 from rfl] at hi ⊢
    rw [hissued] at hi
    rw [hused]
    exact h.gone x hi fun hpx => hx (hp.mpr hpx)
  · rw [show (s.move p r).shared = r.1 from rfl] at hi ⊢
    rw [hissued] at hi
    rw [hused]
    exact h.fresh x hi

theorem Once.use [DecidableEq X]
    (hperm : (stock store hand s.shared (s.loc p)).Perm (x :: stock store hand r.1 r.2))
    (hused : used r.1 = Function.update (used s.shared) x (used s.shared x + 1))
    (hissued : issued r.1 = issued s.shared) : Once store hand used issued (s.move p r) := by
  have hx : x ∈ stock store hand s.shared (s.loc p) := hperm.mem_iff.mpr mem_cons_self
  obtain ⟨hnot, hnd⟩ := nodup_cons.mp (hperm.nodup_iff.mp (h.nodup p))
  have hpres : Present store hand s x := (present_iff p).mpr (.inl hx)
  have hgone : ¬ Present store hand (s.move p r) x := by
    rw [present_move]
    rintro (hm | ⟨q, hq, hm⟩)
    · exact hnot hm
    · exact h.not_other hx q hq hm
  have hp {y : X} (hy : y ≠ x) : Present store hand (s.move p r) y ↔ Present store hand s y := by
    rw [present_move, present_iff p, hperm.mem_iff, mem_cons, or_iff_right hy]
  obtain ⟨hnodup, hunique⟩ := h.apart (p := p) hnd
    fun y hy => h.not_other (hperm.mem_iff.mpr (mem_cons_of_mem x hy))
  have hself : used r.1 x = 1 := by
    rw [hused, Function.update_self, (h.live x hpres).2]
  have hother {y : X} (hy : y ≠ x) : used r.1 y = used s.shared y := by
    rw [hused, Function.update_of_ne hy]
  refine ⟨hnodup, hunique, fun y hy => ?_, fun y hi hy => ?_, fun y hi => ?_⟩
  · have hyx : y ≠ x := fun heq => hgone (heq ▸ hy)
    change y ∈ issued r.1 ∧ used r.1 y = 0
    rw [hother hyx, hissued]
    exact h.live y ((hp hyx).mp hy)
  · change y ∈ issued r.1 at hi
    change used r.1 y = 1
    rw [hissued] at hi
    by_cases hyx : y = x
    · rw [hyx]
      exact hself
    · rw [hother hyx]
      exact h.gone y hi fun hpy => hy ((hp hyx).mpr hpy)
  · change y ∉ issued r.1 at hi
    change used r.1 y = 0
    rw [hissued] at hi
    have hyx : y ≠ x := fun heq => hi (heq ▸ (h.live x hpres).1)
    rw [hother hyx]
    exact h.fresh y hi

theorem Once.issue (hx : x ∉ issued s.shared)
    (hperm : (stock store hand r.1 r.2).Perm (x :: stock store hand s.shared (s.loc p)))
    (hused : used r.1 = used s.shared) (hissued : issued r.1 = x :: issued s.shared) :
    Once store hand used issued (s.move p r) := by
  have hnot : ¬ Present store hand s x := fun hp => hx (h.live x hp).1
  have hp {y : X} : Present store hand (s.move p r) y ↔ y = x ∨ Present store hand s y := by
    rw [present_move, present_iff p, hperm.mem_iff, mem_cons, or_assoc]
  have hnd : (stock store hand r.1 r.2).Nodup := by
    refine hperm.nodup_iff.mpr (nodup_cons.mpr ⟨fun hm => ?_, h.nodup p⟩)
    exact hnot ((present_iff p).mpr (.inl hm))
  obtain ⟨hnodup, hunique⟩ := h.apart (p := p) hnd fun y hy q hq hqy => by
    rcases mem_cons.mp (hperm.mem_iff.mp hy) with rfl | hy
    · exact hnot (.inr ⟨q, hqy⟩)
    · exact h.not_other hy q hq hqy
  refine ⟨hnodup, hunique, fun y hy => ?_, fun y hi hy => ?_, fun y hi => ?_⟩
  · change y ∈ issued r.1 ∧ used r.1 y = 0
    rw [hused, hissued, mem_cons]
    rcases hp.mp hy with rfl | hy
    · exact ⟨.inl rfl, h.fresh y hx⟩
    · exact ⟨.inr (h.live y hy).1, (h.live y hy).2⟩
  · change y ∈ issued r.1 at hi
    change used r.1 y = 1
    rw [hissued, mem_cons] at hi
    rw [hp, not_or] at hy
    rw [hused]
    exact h.gone y (hi.resolve_left hy.1) hy.2
  · change y ∉ issued r.1 at hi
    change used r.1 y = 0
    rw [hissued, mem_cons, not_or] at hi
    rw [hused]
    exact h.fresh y hi.2

end Handover
