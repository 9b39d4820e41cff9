import Fiasco.Irq.Sender

/-!
# Pending interrupts

The hit that finds `_queued` zero gets the duty to deliver the message. The duty is with an
operation, or with the receive queue the sender is in, until a receiver consumes the
interrupts. A bind takes it along to the new target. A detach drops it, and leaves `_queued`.
-/

namespace Fiasco.Irq

open Pc

variable {E : Type*}

namespace Pc

def carries : Pc E → Bool
  | .check _ _ | .enqueue _ _ | .swap _ _ | .dequeueReceiver _ _ | .enqueueSender _ _ => true
  | .consume _ | .consumeLoop _ _ | .putBack _ => true
  | _ => false

variable [DecidableEq E]

def aim : Pc E → Option E
  | .count _ t | .enqueue t _ | .recheck t _ | .dequeue t _ | .swap t _ => some t
  | .dequeueReceiver w _ | .enqueueSender w _ => some w
  | .putBack t => some t
  | .bindId tgt _ old => if old = .ep tgt then none else some tgt
  | .bindEdge tgt _ | .bindFunc tgt _ _ | .bindMove tgt _ => some tgt
  | _ => none

def moves : Pc E → Option E
  | .bindId tgt _ (.ep o) => if o = tgt then none else some o
  | .bindEdge _ (.ep o) | .bindFunc _ (.ep o) _ | .bindMove _ o => some o
  | .detachMask _ o | .detachDequeue _ o => some o
  | _ => none

omit [DecidableEq E] in
def detaches : Pc E → Bool
  | .detachMask _ _ | .detachDequeue _ _ | .detachStore _ => true
  | _ => false

end Pc

variable [DecidableEq E] {wq : E → Bool} {g : Sender E} {l : Pc E}

def Exchanges (g : Sender E) : Pc E → Prop
  | .bindLoop tgt _ old => old ≠ .ep tgt ∧ old ≠ .detaching ∧ g.target = old
  | .detachLoop _ (.ep o) => g.target = .ep o
  | _ => False

def Pc.Safe (wq : E → Bool) (g : Sender E) (c : Choice wq) : Pc E → Prop
  | .count f t => f.wq = wq t
  | .check t _ => c.accept ∨ g.target = .ep t
  | .fetch t => wq t ∨ c.accept ∨ g.target = .ep t
  | .detachDequeue _ o => g.queue ≠ some o
  | _ => True

def Act.Safe (g : Sender E) (l : Pc E) : Act wq → Prop
  | .start _ => True
  | .go c => l.Safe wq g c

/-- In addition, the target is replaced only while no other operation has read it, and no thread has
the sender that it puts back. -/
def Careful (wq : E → Bool) {P : Type*} : State P E → P × Act wq → Prop :=
  Interleaving.Meets
    (fun g l a => a.Safe g l)
    (fun g l a m => a.goes → Exchanges g l → m.aim = none)

instance : Decidable (Exchanges g l) := by
  induction l using Pc.casesOn
  case detachLoop sys old =>
    induction old using Target.casesOn <;> unfold Exchanges <;> infer_instance
  all_goals unfold Exchanges; infer_instance

instance {c : Choice wq} : Decidable (l.Safe wq g c) := by
  induction l using Pc.casesOn <;> unfold Safe <;> infer_instance

instance {a : Act wq} : Decidable (a.Safe g l) := by
  cases a <;> unfold Act.Safe <;> infer_instance

instance {P : Type*} [Fintype P] [DecidableEq P] (s : State P E) (a : P × Act wq) :
    Decidable (Careful wq s a) :=
  inferInstanceAs (Decidable (Interleaving.Meets _ _ s a))

inductive Effect (g : Sender E) (l : Pc E) : Sender E → Pc E → Prop where
  | idle {g' l'} (hq : g'.queued = 0 ↔ g.queued = 0) (ht : g'.target = g.target)
      (hu : g'.queue = g.queue) (hc : l'.carries = l.carries)
      (ha : ∀ t, l'.aim = some t → l.aim = some t ∨ g.target = .ep t)
      (hd : l'.detaches → l.detaches)
      (hm : ∀ t, l.moves = some t → l'.moves = some t ∨ g.queue ≠ some t) : Effect g l g' l'
  | first {g' l'} (h0 : g.queued = 0) (hq : g'.queued ≠ 0) (ht : g'.target = g.target)
      (hu : g'.queue = g.queue) (hc : l'.carries)
      (ha : ∀ t, l'.aim = some t → l.aim = some t) (hd : ¬l'.detaches) (hm : l.moves = none) :
      Effect g l g' l'
  | enqueue {g' l'} (t) (hl : l.carries) (hlt : l.aim = some t) (hq : g'.queued = g.queued)
      (ht : g'.target = g.target) (hu : g.queue = none → g'.queue = some t) (hc : ¬l'.carries)
      (ha : ∀ t, l'.aim = some t → l.aim = some t) (hd : ¬l'.detaches) (hm : l.moves = none) :
      Effect g l g' l'
  | take {g' l'} (t) (h : g.queue = some t) (hq : g'.queued = g.queued)
      (ht : g'.target = g.target) (hu : g'.queue = none) (hc : l'.carries)
      (ha : ∀ t, l'.aim = some t → l.aim = some t ∨ g.target = .ep t) (hd : ¬l'.detaches) :
      Effect g l g' l'
  | consume {g' l'} (hl : l.carries) (hq : g'.queued = 0) (ht : g'.target = g.target)
      (hu : g'.queue = g.queue) (hc : ¬l'.carries) (ha : l'.aim = none) (hd : ¬l'.detaches)
      (hm : l.moves = none) : Effect g l g' l'
  | publish {g' l'} (tgt) (h : Exchanges g l) (hq : g'.queued = g.queued)
      (ht : g'.target = .ep tgt) (hu : g'.queue = g.queue) (hc : l'.carries = l.carries)
      (ha : l'.aim = some tgt) (hd : ¬l'.detaches) (hg : g.target ≠ .detaching)
      (hm : ∀ t, g.target = .ep t → l'.moves = some t) (hlm : l.moves = none) : Effect g l g' l'
  | detach {g' l'} (o) (h : Exchanges g l) (hg : g.target = .ep o) (hq : g'.queued = g.queued)
      (ht : g'.target = .detaching) (hu : g'.queue = g.queue) (hc : l'.carries = l.carries)
      (ha : l'.aim = none) (hm : l'.moves = some o) (hlm : l.moves = none) : Effect g l g' l'
  | release {g' l'} (hl : l.detaches) (hq : g'.queued = g.queued) (ht : g'.target = .null)
      (hu : g'.queue = g.queue) (hc : l'.carries = l.carries) (ha : l'.aim = none)
      (hd : ¬l'.detaches) (hm : l.moves = none) : Effect g l g' l'

theorem Effect.still {g' : Sender E} {l' : Pc E} (hq : g'.queued = g.queued)
    (ht : g'.target = g.target) (hu : g'.queue = g.queue) (hc : l'.carries = l.carries)
    (ha : l'.aim = none) (hd : l'.detaches = false) (hm : l.moves = none) : Effect g l g' l' :=
  .idle (by rw [hq]) ht hu hc (by simp [ha]) (by simp [hd]) (by simp [hm])

theorem go_effect {c : Choice wq} (h : l.Safe wq g c) :
    Effect g l (go wq g c l).1 (go wq g c l).2 := by
  cases l with
  | handler f =>
    rw [go]
    split
    · next t ht => exact .idle .rfl rfl rfl rfl (fun u hu => .inr (by cases hu; exact ht)) (fun hd => hd) (by simp [moves])
    · exact .still rfl rfl rfl rfl rfl rfl rfl
  | count f t =>
    rw [go]
    split_ifs with hq hw
    · exact .first hq (by simp) rfl rfl rfl (fun _ h => h) (by simp [detaches]) rfl
    · exact .first hq (by simp) rfl rfl rfl (by simp [aim]) (by simp [detaches]) rfl
    · exact .idle (by simp [hq]) rfl rfl rfl (by simp [aim]) (fun hd => hd) (by simp [moves])
  | check t r =>
    rw [go]
    split_ifs with ha
    · exact .still rfl rfl rfl rfl rfl rfl rfl
    · have ht := h.resolve_left ha
      exact .idle .rfl rfl rfl rfl (fun u hu => .inr (by cases hu; exact ht)) (fun hd => hd) (by simp [moves])
  | enqueue t r =>
    exact .enqueue t rfl rfl rfl rfl (fun hn => if_pos hn) (by simp [go, carries])
      (fun _ h => h) (by simp [go, detaches]) rfl
  | dequeue t r =>
    rw [go]
    split_ifs with hu
    · exact .take t hu rfl rfl rfl rfl (fun _ h => .inl h) (by simp [detaches])
    · exact .still rfl rfl rfl rfl rfl rfl rfl
  | enqueueSender w r =>
    cases hr : c.receiver <;> simp only [go, hr]
    · exact .enqueue w rfl rfl rfl rfl (fun hn => if_pos hn) (by simp [carries])
        (by simp [aim]) (by simp [detaches]) rfl
    · exact .still rfl rfl rfl rfl rfl rfl rfl
  | consumeLoop old r =>
    rw [go]
    split_ifs
    · refine .consume rfl ?_ ?_ ?_ (by simp [carries]) rfl (by simp [detaches]) rfl
      all_goals
        rw [Sender.unmaskIf]
        split <;> rfl
    · exact .still rfl rfl rfl rfl rfl rfl rfl
  | fetch t =>
    rw [go]
    split_ifs with hu ha
    · exact .take t hu rfl rfl rfl rfl (by simp [aim]) (by simp [detaches])
    · refine .take t hu rfl rfl rfl rfl (fun u hu => .inr ?_) (by simp [detaches])
      cases hu
      have h : wq t = true ∨ c.accept = true ∨ g.target = .ep t := h
      exact (or_assoc.mpr h).resolve_left (by simpa using ha)
    · exact .still rfl rfl rfl rfl rfl rfl rfl
  | putBack t =>
    exact .enqueue t rfl rfl rfl rfl (fun hn => if_pos hn) (by simp [go, carries])
      (by simp [go, aim]) (by simp [go, detaches]) rfl
  | bindLoop tgt id old =>
    rw [go]
    split_ifs with h1 h2 h3
    · exact .still rfl rfl rfl rfl (if_pos h1) rfl rfl
    · exact .still rfl rfl rfl rfl rfl rfl rfl
    · refine .publish tgt ⟨h1, h2, h3⟩ rfl rfl rfl rfl (if_neg h1) (by simp [detaches])
        (h3 ▸ h2) (fun t ht => ?_) rfl
      have hold : old = .ep t := h3.symm.trans ht
      subst hold
      exact if_neg fun heq => h1 (congrArg _ heq)
    · exact .still rfl rfl rfl rfl rfl rfl rfl
  | bindId tgt id old =>
    rw [go]
    split_ifs with h1
    · exact .still rfl rfl rfl rfl rfl rfl (by simp [h1, moves])
    · refine .idle .rfl rfl rfl rfl (fun t ht => .inl ?_) (fun hd => hd) (fun t ht => .inl ?_)
      · rw [aim, if_neg h1]
        exact ht
      · cases old with
        | ep o =>
          rw [moves] at ht
          split_ifs at ht
          exact ht
        | _ => cases ht
  | bindEdge tgt old =>
    refine .idle .rfl rfl rfl rfl (fun _ h => .inl h) (fun hd => hd) (fun t ht => .inl ?_)
    cases old with
    | ep o => exact ht
    | _ => cases ht
  | bindFunc tgt old edge =>
    cases old with
    | ep o => exact .idle .rfl rfl rfl rfl (fun _ h => .inl h) (fun hd => hd) (fun _ h => .inl h)
    | _ => exact .still rfl rfl rfl rfl rfl rfl rfl
  | bindMove tgt old =>
    rw [go]
    split_ifs with hu
    · refine .take old hu rfl rfl rfl ?_ ?_ ?_
      all_goals
        rw [send]
        split
      all_goals simp [carries, aim, detaches]
    · exact .idle .rfl rfl rfl rfl (by simp [aim]) (fun hd => hd)
        (fun t ht => .inr (by cases ht; exact hu))
  | detachLoop sys old =>
    cases old <;> rw [go]
    case ep o =>
      split_ifs with hg
      · exact .detach o hg hg rfl rfl rfl rfl rfl rfl rfl
      · exact .still rfl rfl rfl rfl rfl rfl rfl
    all_goals cases sys <;> exact .still rfl rfl rfl rfl rfl rfl rfl
  | detachMask sys old =>
    exact .idle .rfl rfl rfl rfl (by simp [go, aim]) (fun hd => hd) (fun _ h => .inl h)
  | detachDequeue sys old =>
    rw [go, if_neg h]
    exact .idle .rfl rfl rfl rfl (by simp [aim]) (fun hd => hd)
      (fun t ht => .inr (by cases ht; exact h))
  | detachStore sys =>
    cases sys <;> exact .release rfl rfl rfl rfl rfl rfl (by simp [go, detached, detaches]) rfl
  | _ =>
    simp only [go]
    (repeat' split) <;>
      first
      | exact .still rfl rfl rfl rfl rfl rfl rfl
      | exact .idle .rfl rfl rfl rfl (fun _ h => .inl h) (fun hd => hd) (by simp [moves])

theorem exec_effect {a : Act wq} (h : a.Safe g l) :
    Effect g l (exec wq g l a).1 (exec wq g l a).2 := by
  cases a with
  | start op =>
    cases l with
    | rest r => cases op <;> exact .still rfl rfl rfl rfl rfl rfl rfl
    | _ => exact .idle .rfl rfl rfl rfl (fun _ h => .inl h) (fun hd => hd) (fun _ h => .inl h)
  | go c => exact go_effect h

variable {g' : Sender E} {l' m : Pc E}

structure Pc.Sound (g : Sender E) (l : Pc E) : Prop where
  aims : ∀ t, l.aim = some t → g.target = .ep t
  detaches : l.detaches → g.target = .detaching
  carries : l.carries → g.queued ≠ 0 ∧ g.queue = none

def Sender.Counted (g : Sender E) : Prop := g.queue ≠ none → g.queued ≠ 0

def Apart (l m : Pc E) : Prop := ¬(l.carries ∧ m.carries) ∧ ¬(l.detaches ∧ m.detaches)

omit [DecidableEq E] in
theorem Op.apart_entry (op : Op E) : Apart op.entry m := by
  cases op <;> simp [Apart, Op.entry, carries, detaches]

theorem Effect.own (he : Effect g l g' l') (hg : g.Counted) (hl : l.Sound g) :
    g'.Counted ∧ l'.Sound g' := by
  have haim := hl.aims
  have hdet := hl.detaches
  have hcar := hl.carries
  cases he with
  | idle hq ht hu hc ha hd hm =>
    refine ⟨fun hn => mt hq.1 (hg (hu ▸ hn)), fun t h => ?_, fun h => ?_, fun h => ?_⟩
    · rw [ht]
      exact (ha t h).elim (haim t) (fun h => h)
    · rw [ht]
      exact hdet (hd h)
    · rw [hu]
      obtain ⟨hn, hu⟩ := hcar (hc ▸ h)
      exact ⟨mt hq.1 hn, hu⟩
  | first h0 hq ht hu hc ha hd hm =>
    -- nothing was pending, so that the sender is in no queue
    have hnone : g.queue = none := by
      by_contra hn
      exact hg hn h0
    exact ⟨fun _ => hq, fun t h => ht ▸ haim t (ha t h), fun h => absurd h hd,
      fun _ => ⟨hq, hu.trans hnone⟩⟩
  | enqueue t hl _ hq ht hu hc ha hd hm =>
    exact ⟨fun _ => hq ▸ (hcar hl).1, fun t h => ht ▸ haim t (ha t h), fun h => absurd h hd,
      fun h => absurd h hc⟩
  | take t h hq ht hu hc ha hd =>
    have hn : g'.queued ≠ 0 := hq ▸ hg (by simp [h])
    exact ⟨fun _ => hn, fun t h => ht ▸ (ha t h).elim (haim t) id, fun h => absurd h hd,
      fun _ => ⟨hn, hu⟩⟩
  | consume hl hq ht hu hc ha hd hm =>
    exact ⟨fun hn => absurd (hu.trans (hcar hl).2) hn, fun t h => by simp [ha] at h,
      fun h => absurd h hd, fun h => absurd h hc⟩
  | publish tgt h hq ht hu hc ha hd hg' hm hlm =>
    refine ⟨fun hn => hq ▸ hg (hu ▸ hn), fun t h => ?_, fun h => absurd h hd, fun h => ?_⟩
    · rw [ht, ← Option.some.inj (ha.symm.trans h)]
    · rw [hq, hu]
      exact hcar (hc ▸ h)
  | detach o h hg' hq ht hu hc ha hm hlm =>
    refine ⟨fun hn => hq ▸ hg (hu ▸ hn), fun t h => by simp [ha] at h, fun _ => ht, fun h => ?_⟩
    rw [hq, hu]
    exact hcar (hc ▸ h)
  | release hl hq ht hu hc ha hd hm =>
    refine ⟨fun hn => hq ▸ hg (hu ▸ hn), fun t h => by simp [ha] at h, fun h => absurd h hd,
      fun h => ?_⟩
    rw [hq, hu]
    exact hcar (hc ▸ h)

def Sender.Misplaced (t : E) (g : Sender E) : Prop := g.queue = some t ∧ g.target ≠ .ep t

def Sender.Unqueued (g : Sender E) : Prop := g.queued ≠ 0 ∧ g.queue = none

section

variable (he : Effect g l g' l') (hl : l.Sound g)
include he hl

theorem Effect.other (hm : m.Sound g)
    (hlm : Apart l m) (hd : Exchanges g l → m.aim = none) : m.Sound g' ∧ Apart l' m := by
  -- the target stays, and the duty with it
  have hkeep : g'.target = g.target → (m.carries → g'.queued ≠ 0 ∧ g'.queue = none) →
      m.Sound g' := fun ht hc => ⟨fun t h => ht ▸ hm.aims t h, fun h => ht ▸ hm.detaches h, hc⟩
  cases he with
  | idle hq ht hu hc ha hd hmv =>
    refine ⟨hkeep ht fun h => ?_, ?_, ?_⟩
    · obtain ⟨hn, hu'⟩ := hm.carries h
      exact ⟨mt hq.1 hn, hu.trans hu'⟩
    · rw [hc]
      exact hlm.1
    · exact fun h => hlm.2 ⟨hd h.1, h.2⟩
  | first h0 hq ht hu hc ha hd hmv =>
    have hno : ¬m.carries := fun h => (hm.carries h).1 h0
    exact ⟨hkeep ht fun h => absurd h hno, fun h => hno h.2, fun h => hd h.1⟩
  | enqueue t hl _ hq ht hu hc ha hd hmv | consume hl hq ht hu hc ha hd hmv =>
    have hno : ¬m.carries := fun h => hlm.1 ⟨hl, h⟩
    exact ⟨hkeep ht fun h => absurd h hno, fun h => hno h.2, fun h => hd h.1⟩
  | take t h hq ht hu hc ha hd =>
    have hno : ¬m.carries := fun hc => by simp [(hm.carries hc).2] at h
    exact ⟨hkeep ht fun h => absurd h hno, fun h => hno h.2, fun h => hd h.1⟩
  | publish tgt h hq ht hu hc ha hd' hg' hmv hlmv =>
    refine ⟨⟨fun t h' => ?_, fun h' => absurd (hm.detaches h') hg', fun h' => ?_⟩, ?_, ?_⟩
    · rw [hd h] at h'
      cases h'
    · rw [hq, hu]
      exact hm.carries h'
    · rw [hc]
      exact hlm.1
    · exact fun h => hd' h.1
  | detach o h hg' hq ht hu hc ha hmv hlmv =>
    have hno : ¬m.detaches := fun h' => by simp [hm.detaches h'] at hg'
    refine ⟨⟨fun t h' => ?_, fun h' => absurd h' hno, fun h' => ?_⟩, ?_, fun h => hno h.2⟩
    · rw [hd h] at h'
      cases h'
    · rw [hq, hu]
      exact hm.carries h'
    · rw [hc]
      exact hlm.1
  | release hl' hq ht hu hc ha hd' hmv =>
    have hno : ¬m.detaches := fun h => hlm.2 ⟨hl', h⟩
    refine ⟨⟨fun t h' => ?_, fun h' => absurd h' hno, fun h' => ?_⟩, ?_, fun h => hno h.2⟩
    · have hdet := hl.detaches hl'
      rw [hm.aims t h'] at hdet
      cases hdet
    · rw [hq, hu]
      exact hm.carries h'
    · rw [hc]
      exact hlm.1

theorem Effect.misplaced {t : E}
    (h : g'.Misplaced t) (hl' : ¬l'.moves = some t) : g.Misplaced t ∧ ¬l.moves = some t := by
  obtain ⟨hu', ht'⟩ := h
  cases he with
  | idle hq ht hu hc ha hd hm =>
    rw [hu] at hu'
    rw [ht] at ht'
    exact ⟨⟨hu', ht'⟩, fun h => (hm t h).elim hl' (absurd hu')⟩
  | first h0 hq ht hu hc ha hd hm | consume hl hq ht hu hc ha hd hm =>
    rw [hu] at hu'
    rw [ht] at ht'
    exact ⟨⟨hu', ht'⟩, by simp [hm]⟩
  | enqueue u hlc hlt hq ht hu hc ha hd hm =>
    -- it is put into the receive queue of the target
    have heq : some u = some t := (hu (hl.carries hlc).2).symm.trans hu'
    rw [ht, hl.aims u hlt] at ht'
    exact absurd (congrArg _ (Option.some.inj heq)) ht'
  | take u h hq ht hu hc ha hd =>
    rw [hu] at hu'
    cases hu'
  | publish tgt h hq ht hu hc ha hd hg hm hlm =>
    rw [hu] at hu'
    exact ⟨⟨hu', fun h => hl' (hm t h)⟩, by simp [hlm]⟩
  | detach o h hg hq ht hu hc ha hm hlm =>
    rw [hu] at hu'
    refine ⟨⟨hu', fun h => hl' ?_⟩, by simp [hlm]⟩
    rw [hg] at h
    cases h
    exact hm
  | release hld hq ht hu hc ha hd hm =>
    rw [hu] at hu'
    exact ⟨⟨hu', by simp [hl.detaches hld]⟩, by simp [hm]⟩

theorem Effect.unqueued (h : g'.Unqueued) (hl' : ¬l'.carries) : g.Unqueued ∧ ¬l.carries := by
  obtain ⟨hq', hu'⟩ := h
  cases he with
  | idle hq ht hu hc ha hd hm =>
    exact ⟨⟨mt hq.2 hq', hu ▸ hu'⟩, hc ▸ hl'⟩
  | first h0 hq ht hu hc ha hd hm | take u h hq ht hu hc ha hd => exact absurd hc hl'
  | enqueue u hlc hlt hq ht hu hc ha hd hm =>
    rw [hu (hl.carries hlc).2] at hu'
    cases hu'
  | consume hl hq ht hu hc ha hd hm => exact absurd hq hq'
  | publish tgt h hq ht hu hc ha hd hg hm hlm | detach o h hg hq ht hu hc ha hm hlm
  | release hld hq ht hu hc ha hd hm =>
    exact ⟨⟨hq ▸ hq', hu ▸ hu'⟩, hc ▸ hl'⟩

end

section Run

variable {P : Type*} [DecidableEq P] {s : State P E}

structure Placed (s : State P E) : Prop where
  inv : Interleaving.Inv Sender.Counted (fun _ g l => l.Sound g) Apart s
  misplaced : ∀ t, Interleaving.Answered (Sender.Misplaced t) (fun _ _ l => l.moves = some t) s
  unqueued : Interleaving.Answered Sender.Unqueued (fun _ _ l => l.carries = true) s

omit [DecidableEq P] in
theorem placed_boot : Placed (boot : State P E) := by
  refine ⟨⟨fun h => absurd rfl h, fun _ => ⟨?_, ?_, ?_⟩, fun _ _ _ => ⟨?_, ?_⟩⟩, ?_, ?_⟩
  · exact fun _ h => by cases h
  · exact fun h => by cases h
  · exact fun h => by cases h
  · exact fun h => by cases h.1
  · exact fun h => by cases h.1
  · exact fun _ h => by cases h.1
  · exact fun h => absurd rfl h.1

theorem Placed.step {a : P × Act wq} (h : Placed s) (ha : Careful wq s a) :
    Placed (step wq s a) := by
  obtain ⟨i, a⟩ := a
  have he := exec_effect ha.1
  have hl := h.inv.loc i
  refine ⟨?_, fun t => ?_, ?_⟩
  · obtain ⟨hshared, hown⟩ := he.own h.inv.shared hl
    refine h.inv.move ?_ hshared hown fun j hj => ?_
    · exact fun l m hlm => ⟨fun hc => hlm.1 hc.symm, fun hd => hlm.2 hd.symm⟩
    · have hm := h.inv.loc j
      have hlm := h.inv.pair i j hj.symm
      cases a with
      | start op =>
        rcases exec_start wq s.shared (s.loc i) op with he | he <;> rw [he]
        · exact ⟨hm, op.apart_entry⟩
        · exact ⟨hm, hlm⟩
      | go c => exact (go_effect ha.1).other hl hm hlm (ha.2 j hj rfl)
  · refine (h.misplaced t).move fun hneed hT => ?_
    obtain ⟨hneed, hT⟩ := he.misplaced hl hneed hT
    exact ⟨hneed, hT, fun _ _ h => h⟩
  · refine h.unqueued.move fun hneed hT => ?_
    obtain ⟨hneed, hT⟩ := he.unqueued hl hneed hT
    exact ⟨hneed, hT, fun _ _ h => h⟩

/-- Where nothing is going on, a pending interrupt is in the receive queue of the target. -/
def Delivered (s : State P E) : Prop :=
  (∀ i, ∃ r, s.loc i = .rest r) → ∀ t, s.shared.target = .ep t → 0 < s.shared.queued →
    s.shared.queue = some t

omit [DecidableEq P] in
theorem Placed.delivered (h : Placed s) : Delivered s := by
  intro hrest t ht hq
  cases hu : s.shared.queue with
  | none =>
    obtain ⟨i, hi⟩ := h.unqueued ⟨hq.ne', hu⟩
    obtain ⟨r, hr⟩ := hrest i
    rw [hr] at hi
    cases hi
  | some u =>
    by_cases htu : s.shared.target = .ep u
    · rw [ht] at htu
      cases htu
      rfl
    · obtain ⟨i, hi⟩ := h.misplaced u ⟨hu, htu⟩
      obtain ⟨r, hr⟩ := hrest i
      rw [hr] at hi
      cases hi

theorem delivered_of_careful {as : List (P × Act wq)}
    (h : Machine.Along (step wq) (Careful wq) (boot : State P E) as) :
    Machine.Along (step wq) (fun s a => Delivered (step wq s a)) boot as :=
  Machine.Along.imp (fun _ _ => Placed.step) (fun _ _ hs ha => (hs.step ha).delivered) placed_boot h

abbrev noWq : Bool → Bool := fun _ => false

abbrev call (op : Op Bool) (n : ℕ) : List (Act noWq) :=
  .start op :: List.replicate n (.go ⟨false, none⟩)

theorem delivered_bind_hit : Machine.Along (step noWq)
    (fun s a => Delivered (step noWq s a)) (boot : State Bool Bool)
    ((call (.bind true 0) 5).map (false, ·) ++ (call .hit 6).map (true, ·) ++
      (call (.receive true) 2).map (false, ·)) := by
  apply delivered_of_careful
  decide

/-- After a detach with a pending interrupt, a new bind of the thread and another hit, the
sender is in no receive queue. If a thread puts it back after a bind to another one, it is in the wrong
queue. -/
theorem not_delivered_detach :
    ¬Delivered (Machine.run (step noWq) (boot : State Bool Bool)
      ((call (.bind true 0) 5 ++ call .hit 6 ++ call .detach 7 ++ call (.bind true 0) 5 ++
        call .hit 3).map (false, ·))) ∧
    ¬Delivered (Machine.run (step noWq) (boot : State Bool Bool)
      ((call (.bind true 0) 5 ++ call .hit 6).map (false, ·) ++ (call (.receive true) 1).map (true, ·) ++
        (call (.bind false 0) 6).map (false, ·) ++ [(true, .go ⟨false, none⟩)])) := by
  constructor
  · intro h
    have hqueue := h (fun i => by cases i <;> exact ⟨_, rfl⟩) true (by decide) (by decide)
    exact absurd hqueue (by decide)
  · intro h
    have hqueue := h (fun i => by cases i <;> exact ⟨_, rfl⟩) false (by decide) (by decide)
    exact absurd hqueue (by decide)

end Run

end Fiasco.Irq
