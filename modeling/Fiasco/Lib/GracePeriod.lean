import Mathlib

/-!
# Grace periods

Processes run read-side sections, each stamped with the time at which it began. A grace period that
begins at time `n` is over when no section with a stamp of at most `n` is left.
-/
namespace GracePeriod

structure Sections (P : Type*) where
  clock : ℕ
  readers : List (P × ℕ)
  stamp_le : ∀ a ∈ readers, a.2 ≤ clock

variable {P : Type*} {r : Sections P} {p q : P} {n : ℕ}

def Sections.empty : Sections P :=
  ⟨0, [], nofun⟩

def Sections.enter (r : Sections P) (p : P) : Sections P where
  clock := r.clock
  readers := (p, r.clock) :: r.readers
  stamp_le := List.forall_mem_cons.mpr ⟨le_rfl, r.stamp_le⟩

def Sections.leave [DecidableEq P] (r : Sections P) (p : P) : Sections P where
  clock := r.clock
  readers := r.readers.filter fun a => a.1 ≠ p
  stamp_le := fun a ha => r.stamp_le a ((List.mem_filter.mp ha).1)

def Sections.call (r : Sections P) : Sections P where
  clock := r.clock + 1
  readers := r.readers
  stamp_le := fun a ha => (r.stamp_le a ha).trans (Nat.le_succ _)

def Sections.Awaited (r : Sections P) (n : ℕ) : Prop :=
  ∀ a ∈ r.readers, a.2 ≤ n

def Sections.Over (r : Sections P) (n : ℕ) : Prop :=
  ∀ a ∈ r.readers, n < a.2
deriving Decidable

def Sections.Reading (r : Sections P) (p : P) : Prop :=
  ∃ n, (p, n) ∈ r.readers

theorem Sections.reading_enter : (r.enter p).Reading q ↔ q = p ∨ r.Reading q := by
  constructor
  · rintro ⟨n, hn⟩
    rcases List.mem_cons.mp hn with h | h
    · exact .inl (congrArg Prod.fst h)
    · exact .inr ⟨n, h⟩
  · rintro (rfl | ⟨n, hn⟩)
    · exact ⟨r.clock, List.mem_cons_self⟩
    · exact ⟨n, List.mem_cons_of_mem _ hn⟩

theorem Sections.reading_leave [DecidableEq P] (h : q ≠ p) : (r.leave p).Reading q ↔ r.Reading q := by
  refine exists_congr fun n => ?_
  rw [Sections.leave, List.mem_filter, and_iff_left (by simpa using h)]

theorem Sections.not_reading (h : r.readers = []) : ¬ r.Reading p := by
  rintro ⟨n, hn⟩
  rw [h] at hn
  cases hn

theorem Sections.Awaited.ended (h : r.Awaited n) (ho : r.Over n) : r.readers = [] :=
  List.eq_nil_iff_forall_not_mem.mpr fun a ha => (h a ha).not_gt (ho a ha)

end GracePeriod
