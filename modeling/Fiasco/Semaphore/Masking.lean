import Fiasco.Irq.Masking
import Fiasco.Semaphore.Balance

/-!
# Masking of a semaphore

As for an `Irq_sender`, the second pending hit masks the interrupt. A down unmasks it when it leaves
one hit pending.
-/

namespace Fiasco.Semaphore

open Machine (run)
open Shared

variable {T : Type}

def Kept (s : State T) : Prop :=
  Resting s → s.shared.masked = true → 2 ≤ s.shared.queued

def Pc.masks : Pc T → Bool
  | .maskLevel | .mask _ => true
  | _ => false

def Pc.unmasks : Pc T → Bool
  | .unmask => true
  | _ => false

def Orderly (s : State T) : Act T → Prop
  | .move t _ => s.loc t = .down → s.shared.queued ≠ 0 → ∀ p, (s.loc p).masks = false
  | _ => True

structure Covered (s : State T) : Prop where
  empty : s.shared.waiting ≠ [] → s.shared.queued = 0
  masks : Throttle.Covered 2 queued masked Pc.masks Pc.unmasks s

theorem masks_wakeup (w : Option T) : (Pc.wakeup w).masks = false := by
  cases w <;> rfl

theorem covered_boot : Covered (boot : State T) :=
  ⟨fun h => (h rfl).elim, nofun, nofun⟩

variable [DecidableEq T] {s : State T} {p : T} {c : Choice}

theorem Covered.count (h : Covered s) (hl : s.loc p = .count) :
    Throttle.Covered 2 queued masked Pc.masks Pc.unmasks
      (s.move p (exec true p s.shared c .count)) := by
  have hu : (s.loc p).unmasks = false := by
    rw [hl]
    rfl
  rw [exec]
  split
  · rename_i a q hq
    have h0 : s.shared.queued = 0 := h.empty (by rw [hq]; rintro ⟨⟩)
    refine h.masks.grow hu le_rfl (fun hm => ?_) .inl
    rw [Pc.counted, if_pos rfl, if_pos h0] at hm
    cases hm
  · split_ifs with hmax
    · refine h.masks.grow hu (Nat.le_succ _) (fun hm => ?_) .inl
      rw [Pc.counted, if_pos rfl] at hm
      split_ifs at hm with h0
      · cases hm
      · change 2 ≤ s.shared.queued + 1
        omega
    · refine h.masks.grow hu le_rfl (fun _ => ?_) .inl
      have h2 : 2 ≤ longMax := by decide
      exact h2.trans (not_lt.mp hmax)

theorem Covered.down (h : Covered s) (hc : s.shared.queued ≠ 0 → ∀ p, (s.loc p).masks = false)
    (hl : s.loc p = .down) :
    Throttle.Covered 2 queued masked Pc.masks Pc.unmasks
      (s.move p (exec true p s.shared c .down)) := by
  have hu : (s.loc p).unmasks = false := by
    rw [hl]
    rfl
  rw [exec]
  by_cases h0 : s.shared.queued = 0
  · rw [if_pos h0]
    split_ifs
    · exact h.masks.keep hu rfl rfl rfl
    · rw [Shared.insert]
      split_ifs <;> exact h.masks.keep hu rfl rfl rfl
  · rw [if_neg h0]
    refine h.masks.take hu (fun q _ => hc h0 q) ?_ id fun hk => ?_
    · split_ifs <;> rfl
    · -- with one hit left the down goes on to unmask
      by_cases h1 : s.shared.queued - 1 = 1
      · rw [h1]
        exact .inr rfl
      · change 2 ≤ s.shared.queued - 1 ∨ _
        omega

theorem Covered.move (h : Covered s) (hc : Orderly s (.move p c)) :
    Throttle.Covered 2 queued masked Pc.masks Pc.unmasks
      (s.move p (exec true p s.shared c (s.loc p))) := by
  cases hl : s.loc p with
  | idle =>
    rw [exec, start]
    by_cases hv : (!s.shared.valid) = true
    · rw [if_pos hv]
      exact h.masks.keep (by rw [hl]; rfl) rfl rfl rfl
    · rw [if_neg hv]
      cases c.op <;> exact h.masks.keep (by rw [hl]; rfl) rfl rfl rfl
  | maskLevel =>
    refine h.masks.grow (by rw [hl]; rfl) le_rfl (fun hm => ?_) fun _ => .inr (by rw [hl]; rfl)
    cases hm
  | count => exact h.count hl
  | ack w =>
    refine h.masks.grow (by rw [hl]; rfl) le_rfl (fun hm => ?_) .inl
    rw [exec, masks_wakeup] at hm
    cases hm
  | mask w =>
    refine h.masks.grow (by rw [hl]; rfl) le_rfl (fun hm => ?_) fun _ => .inr (by rw [hl]; rfl)
    rw [exec, masks_wakeup] at hm
    cases hm
  | down => exact h.down (hc hl) hl
  | unmask => exact h.masks.clear le_rfl rfl rfl
  | timer =>
    rw [exec]
    split_ifs
    · exact h.masks.keep (by rw [hl]; rfl) rfl rfl rfl
    · cases c.timeout <;> exact h.masks.keep (by rw [hl]; rfl) rfl rfl rfl
  | asleep | leave | dequeue | finish =>
    rw [exec]
    split_ifs <;> exact h.masks.keep (by rw [hl]; rfl) rfl rfl rfl
  | drain =>
    rw [exec]
    split <;> exact h.masks.keep (by rw [hl]; rfl) rfl rfl rfl
  | activate w | setError w | wake w => exact h.masks.keep (by rw [hl]; rfl) rfl rfl rfl

theorem Covered.step (h : Covered s) {a : Act T} (ha : Orderly s a) :
    Covered (Semaphore.step true s a) := by
  cases a with
  | move t c => exact ⟨empty_exec true h.empty, h.move ha⟩
  | timeout t =>
    rw [Semaphore.step]
    split_ifs with hc
    · exact ⟨h.empty, h.masks.keep (by rw [hc.1]; rfl) rfl rfl rfl⟩
    · exact h
  | cancel t =>
    rw [Semaphore.step]
    split_ifs with hc
    · exact ⟨h.empty, h.masks.keep (by rw [hc]; rfl) rfl rfl rfl⟩
    · exact h

theorem kept_of_orderly {as : List (Act T)} (h : Machine.Along (step true) Orderly boot as) :
    Kept (run (step true) boot as) := by
  have hs : Covered (run (Semaphore.step true) (boot : State T) as) :=
    Machine.Along.invariant (fun (s : State T) a (hs : Covered s) ha => hs.step ha) covered_boot h
  refine fun hrest => hs.masks.rest fun p => ?_
  rcases hrest p with hl | ⟨hl, -⟩ <;> rw [hl] <;> rfl

instance [Fintype T] (s : State T) : Decidable (Kept s) :=
  inferInstanceAs (Decidable (_ → _))

instance [Fintype T] (s : State T) (a : Act T) : Decidable (Orderly s a) :=
  match a with
  | .move _ _ => inferInstanceAs (Decidable (_ → _))
  | .timeout _ | .cancel _ => inferInstanceAs (Decidable True)

end Fiasco.Semaphore

/-! Both consumers of hits, `Irq_sender` and the semaphore. -/

namespace Fiasco.EdgeTriggered

open List (replicate)
open Machine (run)
open Irq.Masking (Choice)
open Semaphore (Act go)
open scoped Machine

/-- If every hit finds a target, and nothing is consumed while a hit that has counted itself has not
masked the interrupt yet, an interrupt that is masked at rest has at least two pending hits. -/
theorem masked_only_if_pending (P T : Type) [DecidableEq P] [DecidableEq T] :
    (∀ as : List (P × Choice),
      Machine.Along Irq.Masking.step Irq.Masking.Orderly Irq.Masking.boot as →
        Irq.Masking.Kept (run Irq.Masking.step Irq.Masking.boot as)) ∧
    ∀ as : List (Act T),
      Machine.Along (Semaphore.step true) Semaphore.Orderly Semaphore.boot as →
        Semaphore.Kept (run (Semaphore.step true) Semaphore.boot as) :=
  ⟨fun _ => Irq.Masking.kept_of_orderly, fun _ => Semaphore.kept_of_orderly⟩

def runHits (as : List (Fin 3 × Choice)) : Irq.Masking.State (Fin 3) :=
  run Irq.Masking.step Irq.Masking.boot as

def runUps (as : List (Act (Fin 3))) : Semaphore.State (Fin 3) :=
  run (Semaphore.step true) Semaphore.boot as

/-- A hit counts itself behind another one. Before it masks the interrupt both are consumed and the
interrupt is unmasked. -/
def lateHitMask : List (Fin 3 × Choice) :=
  replicate 5 (0, ⟨.hit, true, false⟩) ++ replicate 3 (1, ⟨.hit, true, false⟩) ++
    replicate 5 (2, ⟨.receive, true, false⟩) ++ [(1, ⟨.hit, true, false⟩)]

def lateUpMask : List (Act (Fin 3)) :=
  replicate 3 (go 0 .up .never) ++ replicate 2 (go 1 .up .never) ++
    replicate 6 (go 2 .down .never) ++ [go 1 .up .never] ++
    replicate 5 (go 2 .down .never)

theorem not_kept_late :
    (¬ Irq.Masking.Kept (runHits lateHitMask) ∧ (runHits lateHitMask).shared.queued = 0) ∧
    ¬ Semaphore.Kept (runUps lateUpMask) ∧ (runUps lateUpMask).shared.queued = 0 := by
  decide

def twoHits : List (Fin 3 × Choice) :=
  replicate 5 (0, ⟨.hit, true, false⟩) ++ replicate 4 (1, ⟨.hit, true, false⟩)

def threeUps : List (Act (Fin 3)) :=
  replicate 3 (go 0 .up .never) ++ replicate 3 (go 1 .up .never) ++
    replicate 3 (go 0 .up .never) ++ replicate 5 (go 2 .down .never)

theorem kept_hits :
    (runHits twoHits).shared.masked = true ∧ Irq.Masking.Kept (runHits twoHits) ∧
    (runUps threeUps).shared.masked = true ∧ Semaphore.Kept (runUps threeUps) :=
  ⟨by decide, (masked_only_if_pending (Fin 3) (Fin 3)).1 twoHits (by decide), by decide,
    (masked_only_if_pending (Fin 3) (Fin 3)).2 threeUps (by decide)⟩

end Fiasco.EdgeTriggered
