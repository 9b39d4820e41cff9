import Fiasco.Lib.Interleaving

/-!
# Processes that work on each other

A process can hold another one: it has taken it out of some place and works on the part of the
shared state that belongs to it. Each process is held by at most one. What holds of a process
depends on its own part of the shared state, `view`, on where it is, and, if it is held, on where
its holder is.
-/
namespace Interleaving

open Interleaving.System

variable {P G L V : Type*} [DecidableEq P]

def Free (holds : L → Option P) (s : System P G L) (x : P) : Prop :=
  ∀ i, holds (s.loc i) ≠ some x

structure Custody (holds : L → Option P) (view : P → G → V) (Own : P → V → L → Prop)
    (Held : P → L → P → V → L → Prop) (s : System P G L) : Prop where
  unique : ∀ i j x, holds (s.loc i) = some x → holds (s.loc j) = some x → i = j
  held : ∀ i x, holds (s.loc i) = some x → Held i (s.loc i) x (view x s.shared) (s.loc x)
  own : ∀ x, Free holds s x → Own x (view x s.shared) (s.loc x)

namespace Custody

variable {holds : L → Option P} {view : P → G → V} {Own : P → V → L → Prop}
  {Held : P → L → P → V → L → Prop} {s : System P G L} {i x : P} {r : G × L}

section

variable (h : Custody holds view Own Held s)
include h

omit [DecidableEq P] in
theorem cases (x : P) :
    (∃ i, holds (s.loc i) = some x ∧ Held i (s.loc i) x (view x s.shared) (s.loc x)) ∨
      Free holds s x ∧ Own x (view x s.shared) (s.loc x) := by
  by_cases hx : Free holds s x
  · exact .inr ⟨hx, h.own x hx⟩
  · simp only [Free, ne_eq, not_forall, not_not] at hx
    obtain ⟨i, hi⟩ := hx
    exact .inl ⟨i, hi, h.held i x hi⟩

/-- What the move has to establish: for the processes it holds afterwards, for itself, for the one it
lets go; the others do not notice. -/
theorem move
    (hnew : ∀ x, holds r.2 = some x → x ≠ i ∧ (holds (s.loc i) = some x ∨ Free holds s x) ∧
      Held i r.2 x (view x r.1) (s.loc x))
    (hheld : ∀ k, k ≠ i → holds (s.loc k) = some i → Held k (s.loc k) i (view i r.1) r.2)
    (hown : Free holds s i ∨ holds (s.loc i) = some i → Own i (view i r.1) r.2)
    (hold : ∀ x, x ≠ i → holds (s.loc i) = some x → holds r.2 ≠ some x → Own x (view x r.1) (s.loc x))
    (hview : ∀ j, j ≠ i → holds (s.loc i) ≠ some j → holds r.2 ≠ some j →
      view j r.1 = view j s.shared) : Custody holds view Own Held (s.move i r) := by
  have hother : ∀ k x, k ≠ i → holds (s.loc k) = some x → holds (s.loc i) ≠ some x :=
    fun k x hk h1 h2 => hk (h.unique k i x h1 h2)
  have hfresh : ∀ k x, k ≠ i → holds (s.loc k) = some x → holds r.2 ≠ some x := by
    intro k x hk h1 h2
    rcases (hnew x h2).2.1 with h3 | h3
    · exact hother k x hk h1 h3
    · exact h3 k h1
  refine ⟨fun a b x ha hb => ?_, fun a x ha => ?_, fun x hx => ?_⟩
  · by_cases hai : a = i <;> by_cases hbi : b = i
    · rw [hai, hbi]
    · rw [hai, move_self] at ha
      rw [move_of_ne hbi] at hb
      exact absurd ha (hfresh b x hbi hb)
    · rw [hbi, move_self] at hb
      rw [move_of_ne hai] at ha
      exact absurd hb (hfresh a x hai ha)
    · rw [move_of_ne hai] at ha
      rw [move_of_ne hbi] at hb
      exact h.unique a b x ha hb
  · by_cases hai : a = i
    · rw [hai, move_self] at ha ⊢
      obtain ⟨hxi, -, hx⟩ := hnew x ha
      rw [move_of_ne hxi]
      exact hx
    · rw [move_of_ne hai] at ha ⊢
      by_cases hxi : x = i
      · rw [hxi, move_self]
        rw [hxi] at ha
        exact hheld a hai ha
      · rw [move_of_ne hxi]
        change Held a (s.loc a) x (view x r.1) (s.loc x)
        rw [hview x hxi (hother a x hai ha) (hfresh a x hai ha)]
        exact h.held a x ha
  · have hnone : ∀ k, k ≠ i → holds (s.loc k) ≠ some x := by
      intro k hk
      have := hx k
      rwa [move_of_ne hk] at this
    have hself : holds r.2 ≠ some x := by
      have := hx i
      rwa [move_self] at this
    by_cases hxi : x = i
    · rw [hxi, move_self]
      refine hown ?_
      by_cases hi : holds (s.loc i) = some i
      · exact .inr hi
      · refine .inl fun k => ?_
        by_cases hk : k = i
        · rwa [hk]
        · rw [← hxi]
          exact hnone k hk
    · rw [move_of_ne hxi]
      change Own x (view x r.1) (s.loc x)
      by_cases hi : holds (s.loc i) = some x
      · exact hold x hxi hi hself
      · rw [hview x hxi hi hself]
        refine h.own x fun k => ?_
        by_cases hk : k = i
        · rwa [hk]
        · exact hnone k hk

theorem keep (hi : Free holds s i)
    (hh : holds r.2 = holds (s.loc i)) (hown : Own i (view i r.1) r.2)
    (hheld : ∀ x, x ≠ i → holds (s.loc i) = some x → Held i r.2 x (view x r.1) (s.loc x))
    (hview : ∀ j, j ≠ i → holds (s.loc i) ≠ some j → view j r.1 = view j s.shared) :
    Custody holds view Own Held (s.move i r) := by
  refine h.move (fun x hx => ?_) (fun k _ hk => absurd hk (hi k)) (fun _ => hown)
    (fun x _ hx hn => absurd hx (by rwa [← hh])) (fun j hj hn _ => hview j hj hn)
  rw [hh] at hx
  have hxi : x ≠ i := fun heq => hi i (heq ▸ hx)
  exact ⟨hxi, .inl hx, hheld x hxi hx⟩

theorem take (hi : Free holds s i)
    (hl : holds (s.loc i) = none) (hh : holds r.2 = some x) (hx : Free holds s x) (hne : x ≠ i)
    (hown : Own i (view i r.1) r.2) (hheld : Held i r.2 x (view x r.1) (s.loc x))
    (hview : ∀ j, j ≠ i → j ≠ x → view j r.1 = view j s.shared) :
    Custody holds view Own Held (s.move i r) := by
  refine h.move (fun y hy => ?_) (fun k _ hk => absurd hk (hi k)) (fun _ => hown)
    (fun y _ hy _ => by simp [hl] at hy)
    (fun j hj _ hn => hview j hj fun heq => hn (heq ▸ hh))
  cases hh.symm.trans hy
  exact ⟨hne, .inr hx, hheld⟩

theorem release (hi : Free holds s i)
    (hl : holds (s.loc i) = some x) (hh : holds r.2 = none) (hown : Own i (view i r.1) r.2)
    (hx : Own x (view x r.1) (s.loc x))
    (hview : ∀ j, j ≠ i → j ≠ x → view j r.1 = view j s.shared) :
    Custody holds view Own Held (s.move i r) := by
  refine h.move (fun y hy => by simp [hh] at hy) (fun k _ hk => absurd hk (hi k)) (fun _ => hown)
    (fun y _ hy _ => ?_) (fun j hj hn _ => hview j hj fun heq => hn (heq ▸ hl))
  cases hl.symm.trans hy
  exact hx

theorem self (hl : holds (s.loc i) = none)
    (hh : holds r.2 = none) (hown : Free holds s i → Own i (view i r.1) r.2)
    (hheld : ∀ k, holds (s.loc k) = some i → Held k (s.loc k) i (view i r.1) r.2)
    (hview : ∀ j, j ≠ i → view j r.1 = view j s.shared) :
    Custody holds view Own Held (s.move i r) := by
  refine h.move (fun y hy => by simp [hh] at hy) (fun k _ hk => hheld k hk) (fun hi => ?_)
    (fun y _ hy _ => by simp [hl] at hy) (fun j hj _ _ => hview j hj)
  rcases hi with hi | hi
  · exact hown hi
  · simp [hl] at hi

end

end Custody

end Interleaving
