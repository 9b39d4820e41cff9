import Fiasco.Lib.Throttle

/-!
# Masking of an edge-triggered interrupt

A hit that finds another one pending masks the interrupt, and the receiver that consumes two or more
unmasks it. Both decide on the value of `_queued` and go to the chip afterwards.
-/
namespace Fiasco.Irq.Masking

open Interleaving

structure Pin where
  queued : ℕ
  masked : Bool
  waiting : Bool

inductive Pc where
  | rest
  | handler
  | refuse
  | count
  | ack
  | mask
  | send
  | fetch
  | consume
  | consumeLoop (old : ℕ)
  | unmask
deriving DecidableEq

inductive Op where
  | hit
  | receive

structure Choice where
  op : Op
  target : Bool
  accept : Bool

def exec (g : Pin) (l : Pc) (c : Choice) : Pin × Pc :=
  match l with
  | .rest =>
    (g, match c.op with
      | .hit => .handler
      | .receive => .fetch)
  | .handler => (g, if c.target then .count else .refuse)
  | .refuse => ({ g with masked := true }, .rest)
  | .count => ({ g with queued := g.queued + 1 }, if g.queued = 0 then .ack else .mask)
  | .ack => (g, .send)
  | .mask => ({ g with masked := true }, .rest)
  | .send => if c.accept then (g, .consume) else ({ g with waiting := true }, .rest)
  | .fetch => if g.waiting then ({ g with waiting := false }, .consume) else (g, .rest)
  | .consume => (g, .consumeLoop g.queued)
  | .consumeLoop old =>
    if g.queued = old then ({ g with queued := 0 }, if 2 ≤ old then .unmask else .rest)
    else (g, .consumeLoop g.queued)
  | .unmask => ({ g with masked := false }, .rest)

variable {P : Type} [DecidableEq P]

abbrev State (P : Type) := System P Pin Pc

def step (s : State P) (a : P × Choice) : State P :=
  s.move a.1 (exec s.shared (s.loc a.1) a.2)

def boot : State P := ⟨⟨0, false, false⟩, fun _ => .rest⟩

def Kept (s : State P) : Prop :=
  (∀ p, s.loc p = .rest) → s.shared.masked = true → 2 ≤ s.shared.queued

def Pc.Consumes (g : Pin) : Pc → Prop
  | .consumeLoop old => g.queued = old
  | _ => False

def Pc.masks : Pc → Bool
  | .refuse | .mask => true
  | _ => false

def Pc.unmasks : Pc → Bool
  | .unmask => true
  | _ => false

def Orderly : State P → P × Choice → Prop :=
  Meets (fun _ l c => l = .handler → c.target = true)
    fun g l _ m => l.Consumes g → m.masks = false

abbrev Covered (s : State P) : Prop :=
  Throttle.Covered 2 Pin.queued Pin.masked Pc.masks Pc.unmasks s

instance [Fintype P] (s : State P) : Decidable (Kept s) :=
  inferInstanceAs (Decidable (_ → _ → _))

instance (g : Pin) (l : Pc) : Decidable (l.Consumes g) := by
  cases l <;> unfold Pc.Consumes <;> infer_instance

instance [Fintype P] (s : State P) (a : P × Choice) : Decidable (Orderly s a) :=
  inferInstanceAs (Decidable ((_ → _) ∧ ∀ _, _ → _ → _))

variable {s : State P}

theorem covered_step (h : Covered s) {a : P × Choice} (ha : Orderly s a) : Covered (step s a) := by
  obtain ⟨p, c⟩ := a
  obtain ⟨hc, hd⟩ := ha
  rw [step]
  cases hl : s.loc p with
  | rest =>
    rw [exec]
    cases c.op <;> exact h.keep (by rw [hl]; rfl) rfl rfl rfl
  | handler =>
    rw [exec, if_pos (hc hl)]
    exact h.keep (by rw [hl]; rfl) rfl rfl rfl
  | refuse | mask => exact h.grow (by rw [hl]; rfl) le_rfl nofun fun _ => .inr (by rw [hl]; rfl)
  | count =>
    rw [exec]
    split_ifs with h0
    · exact h.grow (by rw [hl]; rfl) (Nat.le_succ _) nofun .inl
    · refine h.grow (by rw [hl]; rfl) (Nat.le_succ _) (fun _ => ?_) .inl
      change 2 ≤ s.shared.queued + 1
      omega
  | ack | consume => exact h.keep (by rw [hl]; rfl) rfl rfl rfl
  | send | fetch =>
    rw [exec]
    split_ifs <;> exact h.keep (by rw [hl]; rfl) rfl rfl rfl
  | consumeLoop old =>
    rw [exec]
    by_cases ho : s.shared.queued = old
    · rw [if_pos ho]
      refine h.take (by rw [hl]; rfl) (fun q hq => hd q hq (by rw [hl]; exact ho)) ?_ id fun hk => ?_
      · split_ifs <;> rfl
      · -- what was taken pays for the unmasking
        rw [if_pos (ho ▸ hk)]
        exact .inr rfl
    · rw [if_neg ho]
      exact h.keep (by rw [hl]; rfl) rfl rfl rfl
  | unmask => exact h.clear le_rfl rfl rfl

omit [DecidableEq P] in
theorem covered_boot : Covered (boot : State P) :=
  ⟨nofun, nofun⟩

theorem kept_of_orderly {as : List (P × Choice)} (h : Machine.Along step Orderly boot as) :
    Kept (Machine.run step (boot : State P) as) := by
  have hs : Covered (Machine.run step (boot : State P) as) :=
    Machine.Along.invariant (fun (s : State P) a (hs : Covered s) ha => covered_step hs ha) covered_boot h
  exact fun hrest => hs.rest fun p => by rw [hrest p]; rfl

end Fiasco.Irq.Masking
