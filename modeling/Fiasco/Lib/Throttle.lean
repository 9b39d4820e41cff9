import Fiasco.Lib.Interleaving

/-!
# A flag that is set against a stock

Some processes are about to set a flag, some are about to clear it. Who sets it has seen a stock of
at least `k`. The flag is covered if the stock is still that large or somebody is about to clear it.
The stock is taken from while nobody is about to set the flag, and who leaves less than `k` is then
about to clear it.
-/
namespace Throttle

open Interleaving System

variable {P G L : Type*}

structure Covered (k : ℕ) (stock : G → ℕ) (flag : G → Bool) (sets clears : L → Bool)
    (s : System P G L) : Prop where
  sets : ∀ p, sets (s.loc p) = true → k ≤ stock s.shared
  flag : flag s.shared = true → k ≤ stock s.shared ∨ ∃ p, clears (s.loc p) = true

variable [DecidableEq P] {k : ℕ} {stock : G → ℕ} {flag : G → Bool} {sets clears : L → Bool}
  {s : System P G L} {p : P} {r : G × L}

omit [DecidableEq P] in
theorem Covered.rest (h : Covered k stock flag sets clears s)
    (hrest : ∀ p, clears (s.loc p) = false) (hf : flag s.shared = true) : k ≤ stock s.shared := by
  refine (h.flag hf).resolve_right ?_
  rintro ⟨p, hp⟩
  rw [hrest p] at hp
  cases hp

theorem clears_move (h : ∃ q, clears (s.loc q) = true) (hp : clears (s.loc p) = false) :
    ∃ q, clears ((s.move p r).loc q) = true := by
  obtain ⟨q, hq⟩ := h
  have hne : q ≠ p := by
    rintro rfl
    rw [hp] at hq
    cases hq
  exact ⟨q, by rw [move_of_ne hne]; exact hq⟩

section

variable (h : Covered k stock flag sets clears s)
include h

theorem Covered.grow (hl : clears (s.loc p) = false)
    (hstock : stock s.shared ≤ stock r.1) (hsets : sets r.2 = true → k ≤ stock r.1)
    (hflag : flag r.1 = true → flag s.shared = true ∨ sets (s.loc p) = true) :
    Covered k stock flag sets clears (s.move p r) := by
  refine ⟨fun q hq => ?_, fun hf => ?_⟩
  · by_cases hqp : q = p
    · rw [hqp, move_self] at hq
      exact hsets hq
    · rw [move_of_ne hqp] at hq
      exact (h.sets q hq).trans hstock
  · rcases hflag hf with hf | hs
    · exact (h.flag hf).imp (fun hk => hk.trans hstock) fun hc => clears_move hc hl
    · exact .inl ((h.sets p hs).trans hstock)

theorem Covered.keep (hl : clears (s.loc p) = false) (hstock : stock r.1 = stock s.shared)
    (hsets : sets r.2 = false) (hflag : flag r.1 = flag s.shared) :
    Covered k stock flag sets clears (s.move p r) := by
  refine h.grow hl hstock.ge (fun hs => ?_) fun hf => .inl (hflag ▸ hf)
  rw [hsets] at hs
  cases hs

theorem Covered.take (hl : clears (s.loc p) = false)
    (hother : ∀ q, q ≠ p → sets (s.loc q) = false) (hsets : sets r.2 = false)
    (hflag : flag r.1 = true → flag s.shared = true)
    (hclears : k ≤ stock s.shared → k ≤ stock r.1 ∨ clears r.2 = true) :
    Covered k stock flag sets clears (s.move p r) := by
  refine ⟨fun q hq => ?_, fun hf => ?_⟩
  · by_cases hqp : q = p
    · rw [hqp, move_self, hsets] at hq
      cases hq
    · rw [move_of_ne hqp, hother q hqp] at hq
      cases hq
  · rcases h.flag (hflag hf) with hk | hc
    · exact (hclears hk).imp_right fun hc => ⟨p, by rw [move_self]; exact hc⟩
    · exact .inr (clears_move hc hl)

theorem Covered.clear
    (hstock : stock s.shared ≤ stock r.1) (hsets : sets r.2 = false) (hflag : flag r.1 = false) :
    Covered k stock flag sets clears (s.move p r) := by
  refine ⟨fun q hq => ?_, fun hf => ?_⟩
  · by_cases hqp : q = p
    · rw [hqp, move_self, hsets] at hq
      cases hq
    · rw [move_of_ne hqp] at hq
      exact (h.sets q hq).trans hstock
  · have hf' : flag r.1 = true := hf
    rw [hflag] at hf'
    cases hf'

end

end Throttle
