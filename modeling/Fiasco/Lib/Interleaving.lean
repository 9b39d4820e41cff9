import Fiasco.Lib.Machine

/-!
# Interleaved processes

Processes share a state and each of them has a state of its own. A move of one process changes the
shared state and its own one. An invariant that speaks of the processes one at a time or in pairs is
kept if it is kept for the process that moves and for one other, which stands for the rest.
-/
namespace Interleaving

structure System (P G L : Type*) where
  shared : G
  loc : P → L

variable {P G L A : Type*} [DecidableEq P] {s : System P G L} {p j : P} {r : G × L} {g : G}

def System.move (s : System P G L) (p : P) (r : G × L) : System P G L :=
  ⟨r.1, Function.update s.loc p r.2⟩

theorem System.move_self : (s.move p r).loc p = r.2 := Function.update_self ..

theorem System.move_of_ne (h : j ≠ p) : (s.move p r).loc j = s.loc j :=
  Function.update_of_ne h ..

theorem System.move_same : s.move p (s.shared, s.loc p) = s := by
  simp only [System.move, Function.update_eq_self]

def Meets (C : G → L → A → Prop) (D : G → L → A → L → Prop) (s : System P G L) (a : P × A) :
    Prop :=
  C s.shared (s.loc a.1) a.2 ∧ ∀ j, j ≠ a.1 → D s.shared (s.loc a.1) a.2 (s.loc j)

instance [Fintype P] {C : G → L → A → Prop} {D : G → L → A → L → Prop}
    [∀ g l a, Decidable (C g l a)] [∀ g l a m, Decidable (D g l a m)] (s : System P G L) (a : P × A) :
    Decidable (Meets C D s a) :=
  inferInstanceAs (Decidable (_ ∧ _))

structure Inv (J : G → Prop) (I : P → G → L → Prop) (R : L → L → Prop) (s : System P G L) :
    Prop where
  shared : J s.shared
  loc : ∀ i, I i s.shared (s.loc i)
  pair : ∀ i j, i ≠ j → R (s.loc i) (s.loc j)

section Rules

variable {J : G → Prop} {I : P → G → L → Prop} {R : L → L → Prop}

theorem Inv.move (hs : Inv J I R s) (hR : ∀ l m, R l m → R m l) (hJ : J r.1) (hI : I p r.1 r.2)
    (hother : ∀ j, j ≠ p → I j r.1 (s.loc j) ∧ R r.2 (s.loc j)) : Inv J I R (s.move p r) := by
  refine ⟨hJ, fun i => ?_, fun i j hij => ?_⟩
  · by_cases hi : i = p
    · rw [hi, System.move_self]
      exact hI
    · rw [System.move_of_ne hi]
      exact (hother i hi).1
  · by_cases hi : i = p
    · have hj : j ≠ p := fun h => hij (hi.trans h.symm)
      rw [hi, System.move_self, System.move_of_ne hj]
      exact (hother j hj).2
    · by_cases hj : j = p
      · rw [hj, System.move_self, System.move_of_ne hi]
        exact hR _ _ (hother i hi).2
      · rw [System.move_of_ne hi, System.move_of_ne hj]
        exact hs.pair i j hij

end Rules

def Answered (need : G → Prop) (T : P → G → L → Prop) (s : System P G L) : Prop :=
  need s.shared → ∃ i, T i s.shared (s.loc i)

/-- A process that does not answer after its move has left the need, and the answers of the
others, as they were, and did not answer before. -/
theorem Answered.move {need : G → Prop} {T : P → G → L → Prop} (hs : Answered need T s)
    (h : need r.1 → ¬T p r.1 r.2 → need s.shared ∧ ¬T p s.shared (s.loc p) ∧
      ∀ j, j ≠ p → T j s.shared (s.loc j) → T j r.1 (s.loc j)) : Answered need T (s.move p r) := by
  intro hneed
  by_cases hT : T p r.1 r.2
  · exact ⟨p, by rwa [System.move_self]⟩
  · obtain ⟨hold, hself, hrest⟩ := h hneed hT
    obtain ⟨i, hi⟩ := hs hold
    have hne : i ≠ p := fun heq => hself (heq ▸ hi)
    exact ⟨i, by rw [System.move_of_ne hne]; exact hrest i hne hi⟩

end Interleaving
