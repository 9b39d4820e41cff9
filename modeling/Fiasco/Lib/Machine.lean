import Mathlib

/-!
# Runs of a step function

A machine takes a list of inputs, one step each. `Along P` says that every step of a run
is one of `P`, read at the state the step is taken in.
-/
namespace Machine

variable {S A : Type*} {step : S → A → S} {I : S → Prop} {P Q : S → A → Prop} {s : S} {as : List A}

-- Small types are the parties of concrete runs.
scoped instance neZero_one : NeZero 1 := ⟨by decide⟩

scoped instance neZero_two : NeZero 2 := ⟨by decide⟩

scoped instance neZero_three : NeZero 3 := ⟨by decide⟩

scoped instance neZero_four : NeZero 4 := ⟨by decide⟩

def run (step : S → A → S) (s : S) (as : List A) : S := as.foldl step s

def Along (step : S → A → S) (P : S → A → Prop) : S → List A → Prop
  | _, [] => True
  | s, a :: as => P s a ∧ Along step P (step s a) as

instance decidableAlong [∀ s a, Decidable (P s a)] : ∀ s as, Decidable (Along step P s as)
  | _, [] => isTrue trivial
  | s, a :: as => @instDecidableAnd _ _ _ (decidableAlong (step s a) as)

theorem along_of_forall (h : ∀ s a, P s a) : Along step P s as := by
  induction as generalizing s with
  | nil => trivial
  | cons a as ih => exact ⟨h s a, ih⟩

theorem along_and : Along step (fun s a => P s a ∧ Q s a) s as ↔ Along step P s as ∧ Along step Q s as := by
  induction as generalizing s with
  | nil => exact ⟨fun _ => ⟨trivial, trivial⟩, fun _ => trivial⟩
  | cons a as ih =>
    rw [Along, Along, Along, ih]
    exact and_and_and_comm

section

variable (hstep : ∀ s a, I s → P s a → I (step s a))
include hstep

theorem Along.invariant (hs : I s) (h : Along step P s as) : I (run step s as) := by
  induction as generalizing s with
  | nil => exact hs
  | cons a as ih => exact ih (hstep s a hs h.1) h.2

theorem Along.imp
    (h : ∀ s a, I s → P s a → Q s a) (hs : I s) (hp : Along step P s as) : Along step Q s as := by
  induction as generalizing s with
  | nil => trivial
  | cons a as ih => exact ⟨h s a hs hp.1, ih (hstep s a hs hp.1) hp.2⟩

theorem along_congr
    (h : ∀ s a, I s → (P s a ↔ Q s a)) (hs : I s) : Along step P s as ↔ Along step Q s as := by
  induction as generalizing s with
  | nil => exact .rfl
  | cons a as ih =>
    rw [Along, Along, ← h s a hs]
    exact and_congr_right fun hp => ih (hstep s a hs hp)

end

def trace (step : S → A → S) (s : S) (as : ℕ → A) : ℕ → S
  | 0 => s
  | n + 1 => step (trace step s as n) (as n)

theorem trace_invariant {as : ℕ → A} (hstep : ∀ s a, I s → P s a → I (step s a)) (hs : I s)
    (h : ∀ n, P (trace step s as n) (as n)) (n : ℕ) : I (trace step s as n) := by
  induction n with
  | zero => exact hs
  | succ n ih => exact hstep _ _ ih (h n)

/-- A state that is good if and only if `C` holds, and in which the invariant holds then. -/
structure Keeps (G I : S → Prop) (C : Prop) (t : S) : Prop where
  good_iff : G t ↔ C
  inv : G t → I t

namespace Keeps

variable {G : S → Prop} {C D : Prop} {t : S}

theorem of_inv (hc : C) (hg : G t) (h : I t) : Keeps G I C t := ⟨iff_of_true hg hc, fun _ => h⟩

theorem of_not (hc : ¬C) (hg : ¬G t) : Keeps G I C t := ⟨iff_of_false hg hc, fun h => absurd h hg⟩

theorem congr (h : Keeps G I C t) (hcd : C ↔ D) : Keeps G I D t := ⟨h.good_iff.trans hcd, h.inv⟩

end Keeps

theorem along_good_iff {G : S → Prop}
    (hstep : ∀ s a, I s → Keeps G I (Q s a) (step s a)) (hs : I s) :
    Along step (fun s a => G (step s a)) s as ↔ Along step Q s as :=
  along_congr (fun s a h hg => (hstep s a h).inv hg) (fun s a h => (hstep s a h).good_iff) hs

section Fallible

variable {step : S → A → Option S}

def tryRun (step : S → A → Option S) (s : S) (as : List A) : Option S := as.foldlM step s

def TryAlong (step : S → A → Option S) (P : S → A → Prop) : S → List A → Prop
  | _, [] => True
  | s, a :: as => P s a ∧ ∀ t ∈ step s a, TryAlong step P t as

instance decidableTryAlong [∀ s a, Decidable (P s a)] :
    ∀ s as, Decidable (TryAlong step P s as)
  | _, [] => isTrue trivial
  | s, a :: as =>
    have (t : S) : Decidable (TryAlong step P t as) := decidableTryAlong t as
    inferInstanceAs (Decidable (P s a ∧ ∀ t ∈ step s a, TryAlong step P t as))

theorem tryRun_cons (step : S → A → Option S) (s : S) (a : A) (as : List A) :
    tryRun step s (a :: as) = (step s a).bind fun t => tryRun step t as := List.foldlM_cons

theorem TryAlong.invariant (hstep : ∀ s a, I s → P s a → ∃ t, step s a = some t ∧ I t) (hs : I s)
    (h : TryAlong step P s as) : ∃ t, tryRun step s as = some t ∧ I t := by
  induction as generalizing s with
  | nil => exact ⟨s, rfl, hs⟩
  | cons a as ih =>
    obtain ⟨t, ht, hi⟩ := hstep s a hs h.1
    rw [tryRun_cons, ht]
    exact ih hi (h.2 t ht)

end Fallible

end Machine
