import Fiasco.Irq.Sender

/-!
# The kind of the target

A handler for threads takes its target for a `Thread`, and one for wait queues for a
`Wait_queue`, without a test. `bind_irq` publishes the target before the function.
-/

namespace Fiasco.Irq

open Pc

variable {E : Type*} [DecidableEq E] {wq : E → Bool} {g g' : Sender E} {l m : Pc E}
  {r : Option Result}

def Pc.Typed (wq : E → Bool) : Pc E → Prop
  | .count f t => wq t = f.wq
  | .check t _ | .enqueue t _ | .recheck t _ | .dequeue t _ | .swap t _ => wq t = false
  | .dequeueReceiver w _ | .enqueueSender w _ => wq w = true
  | _ => True

def Sender.Matches (wq : E → Bool) (g : Sender E) : Prop :=
  ∀ t, g.target = .ep t → wq t = g.hitFunc.wq

def Pc.Binds (tgt : E) : Pc E → Prop
  | .bindId t _ old => t = tgt ∧ old ≠ .ep t
  | .bindEdge t _ | .bindFunc t _ _ => t = tgt
  | _ => False

def Pc.Holds (b : Bool) : Pc E → Prop
  | .handler f => f.wq = b
  | .switchStore _ w => w = b
  | _ => False

def Pc.Looks : Pc E → Prop
  | .hit | .switchMode _ | .bindLoop _ _ _ | .detachLoop _ _ | .detachStore _ => True
  | _ => False

def Turns (wq : E → Bool) (g : Sender E) : Pc E → Prop
  | .bindLoop tgt _ old =>
    old ≠ .ep tgt ∧ old ≠ .detaching ∧ g.target = old ∧ wq tgt ≠ g.hitFunc.wq
  | _ => False

instance : Decidable (l.Typed wq) := by
  induction l using Pc.casesOn <;> unfold Typed <;> infer_instance

instance : Decidable (g.Matches wq) :=
  match h : g.target with
  | .ep t => decidable_of_iff (wq t = g.hitFunc.wq) (by simp [Sender.Matches, h])
  | .null | .detaching => isTrue fun t ht => by simp [h] at ht

instance {tgt : E} : Decidable (l.Binds tgt) := by
  cases l <;> unfold Binds <;> infer_instance

instance {b : Bool} : Decidable (l.Holds b) := by
  cases l <;> unfold Holds <;> infer_instance

instance : Decidable l.Looks := by
  cases l <;> unfold Looks <;> infer_instance

instance : Decidable (Turns wq g l) := by
  cases l <;> unfold Turns <;> infer_instance

/-- A function that does not fit the target is neither read nor is the target replaced, and no
bind publishes a target of the other kind while another operation has read the function or is
to store it. -/
def Ordered (wq : E → Bool) {P : Type*} : State P E → P × Act wq → Prop :=
  Interleaving.Meets
    (fun g l a => a.goes → l.Looks → g.Matches wq)
    (fun g l a m => a.goes → Turns wq g l →
      (∀ b, ¬m.Holds b) ∧ ∀ tgt, ¬m.Binds tgt)

instance {P : Type*} [Fintype P] [DecidableEq P] [Fintype E] (s : State P E) (a : P × Act wq) :
    Decidable (Ordered wq s a) :=
  inferInstanceAs (Decidable (Interleaving.Meets _ _ s a))

structure Pc.Fit (wq : E → Bool) (g : Sender E) (l : Pc E) : Prop where
  typed : l.Typed wq
  holds : ∀ b, l.Holds b → g.Matches wq ∧ b = g.hitFunc.wq
  binds : ∀ tgt, l.Binds tgt → (g.Matches wq → wq tgt = g.hitFunc.wq) ∧
    (¬g.Matches wq → g.target = .ep tgt)

section

omit [DecidableEq E]

theorem Pc.Fit.congr (h : l.Fit wq g) (ht : g'.target = g.target) (hf : g'.hitFunc = g.hitFunc) :
    l.Fit wq g' := by
  have hm : g'.Matches wq ↔ g.Matches wq := by rw [Sender.Matches, ht, hf, Sender.Matches]
  refine ⟨h.typed, fun b hb => ?_, fun tgt hb => ?_⟩
  · rw [hm, hf]
    exact h.holds b hb
  · rw [hm, hf, ht]
    exact h.binds tgt hb

structure Pc.Calm (wq : E → Bool) (l : Pc E) : Prop where
  typed : l.Typed wq
  holds : ∀ b, ¬l.Holds b
  binds : ∀ tgt, ¬l.Binds tgt

theorem Pc.Calm.fit (h : l.Calm wq) : l.Fit wq g :=
  ⟨h.typed, fun b hl => absurd hl (h.holds b), fun tgt hl => absurd hl (h.binds tgt)⟩

inductive Moves (wq : E → Bool) (g : Sender E) : Pc E → Sender E → Pc E → Prop where
  | calm {l l' g'} (hl : l'.Calm wq) (ht : g'.target = g.target)
      (hf : g'.hitFunc = g.hitFunc) : Moves wq g l g' l'
  | read {l l' g'} (hl : l.Looks) (ht : g'.target = g.target) (hf : g'.hitFunc = g.hitFunc)
      (hl' : ∀ b, l'.Holds b → b = g.hitFunc.wq) (htyped : l'.Typed wq)
      (hb : ∀ tgt, ¬l'.Binds tgt) : Moves wq g l g' l'
  | aim {f t g'} (h : g.target = .ep t) (ht : g'.target = g.target)
      (hf : g'.hitFunc = g.hitFunc) : Moves wq g (.handler f) g' (.count f t)
  | publish {tgt id old l' g'} (h : old ≠ .ep tgt ∧ old ≠ .detaching ∧ g.target = old)
      (ht : g'.target = .ep tgt) (hf : g'.hitFunc = g.hitFunc)
      (hl' : l' = .bindId tgt id old) : Moves wq g (.bindLoop tgt id old) g' l'
  | bind {l l' g'} (tgt) (hl : l.Binds tgt) (ht : g'.target = g.target)
      (hf : g'.hitFunc = g.hitFunc) (hl' : ∀ t, l'.Binds t → t = tgt)
      (htyped : l'.Typed wq) (hh : ∀ b, ¬l'.Holds b) : Moves wq g l g' l'
  | store {l l' g'} (tgt) (hl : l.Binds tgt) (ht : g'.target = g.target)
      (hf : g'.hitFunc.wq = wq tgt) (hl' : l'.Calm wq) : Moves wq g l g' l'
  | keep {l l' g'} (b) (hl : l.Holds b) (ht : g'.target = g.target) (hf : g'.hitFunc.wq = b)
      (hl' : l'.Calm wq) : Moves wq g l g' l'
  | unbind {l l' g'} (hl : l.Looks) (ht : ∀ t, g'.target ≠ .ep t)
      (hf : g'.hitFunc = g.hitFunc) (hl' : l'.Calm wq) : Moves wq g l g' l'

theorem Pc.calm_rest : (rest r : Pc E).Calm wq := ⟨trivial, by simp [Holds], by simp [Binds]⟩

theorem Pc.calm_send {t : E} : (send wq t r).Calm wq := by
  rw [send]
  split
  · next h => exact ⟨h, by simp [Holds], by simp [Binds]⟩
  · next h => exact ⟨by simpa [Typed] using h, by simp [Holds], by simp [Binds]⟩

theorem Pc.calm_detached {sys : Bool} {r : Result} : (detached sys r : Pc E).Calm wq := by
  cases sys <;> exact ⟨trivial, by simp [detached, Holds], by simp [detached, Binds]⟩

end

theorem go_moves {c : Choice wq} (h : l.Typed wq) :
    Moves wq g l (go wq g c l).1 (go wq g c l).2 := by
  cases l with
  | hit | switchMode edge =>
    exact .read trivial rfl rfl (fun b hb => hb.symm) trivial (fun _ h => h)
  | handler f =>
    rw [go]
    split
    · next t ht => exact .aim ht rfl rfl
    · exact .calm calm_rest rfl rfl
  | switchStore edge w => exact .keep w rfl rfl rfl calm_rest
  | bindLoop tgt id old =>
    rw [go]
    split_ifs with h1 h2 h3
    · exact .calm ⟨trivial, fun _ h => h, fun _ h => h.2 h1⟩ rfl rfl
    · exact .calm calm_rest rfl rfl
    · exact .publish ⟨h1, h2, h3⟩ rfl rfl rfl
    · exact .calm ⟨trivial, fun _ h => h, fun _ h => h⟩ rfl rfl
  | bindId tgt id old =>
    rw [go]
    split_ifs with h1
    · exact .calm calm_rest rfl rfl
    · exact .bind tgt ⟨rfl, h1⟩ rfl rfl (fun _ h => h.symm) trivial (fun _ h => h)
  | bindEdge tgt old => exact .bind tgt rfl rfl rfl (fun _ h => h.symm) trivial (fun _ h => h)
  | bindFunc tgt old edge =>
    refine .store tgt rfl rfl rfl ?_
    cases old <;> exact ⟨trivial, fun _ h => h, fun _ h => h⟩
  | detachLoop sys old =>
    cases old <;> rw [go]
    case null => exact .calm calm_detached rfl rfl
    case detaching => exact .calm calm_detached rfl rfl
    case ep o =>
      split_ifs
      · exact .unbind trivial (fun _ => by simp) rfl ⟨trivial, fun _ h => h, fun _ h => h⟩
      · exact .calm ⟨trivial, fun _ h => h, fun _ h => h⟩ rfl rfl
  | detachStore sys => exact .unbind trivial (fun _ => by simp [go]) rfl calm_detached
  | consumeLoop old r =>
    rw [go]
    split_ifs
    · refine .calm calm_rest ?_ ?_ <;> (rw [Sender.unmaskIf]; split <;> rfl)
    · exact .calm ⟨trivial, fun _ h => h, fun _ h => h⟩ rfl rfl
  | count f t =>
    rw [go]
    split_ifs with hq hw
    · exact .calm ⟨h.trans hw, fun _ h => h, fun _ h => h⟩ rfl rfl
    · exact .calm ⟨h.trans (by simpa using hw), fun _ h => h, fun _ h => h⟩ rfl rfl
    · exact .calm calm_rest rfl rfl
  | bindMove =>
    rw [go]
    split_ifs
    · exact .calm calm_send rfl rfl
    · exact .calm calm_rest rfl rfl
  | dequeueReceiver | enqueueSender =>
    rw [go]
    split <;> exact .calm ⟨by first | exact h | trivial | exact Subtype.prop ‹_›, fun _ h => h,
      fun _ h => h⟩ rfl rfl
  | _ =>
    simp only [go]
    (repeat' split) <;>
      exact .calm ⟨by first | exact h | trivial, fun _ h => h, fun _ h => h⟩ rfl rfl

variable {l' : Pc E}

section

omit [DecidableEq E]

theorem Moves.fit (hmove : Moves wq g l g' l') (h : l.Fit wq g) (hc : l.Looks → g.Matches wq) :
    l'.Fit wq g' := by
  cases hmove with
  | calm hl _ _ => exact hl.fit
  | read hl ht hf hl' htyped hb =>
    refine Fit.congr ⟨htyped, fun b hh => ⟨hc hl, hl' b hh⟩, fun tgt hh => absurd hh (hb tgt)⟩ ht hf
  | aim haim _ _ =>
    obtain ⟨hm, hf⟩ := h.holds _ rfl
    exact Calm.fit ⟨(hm _ haim).trans hf.symm, fun _ h => h, fun _ h => h⟩
  | publish _ ht hf hl' =>
    subst hl'
    refine ⟨trivial, fun _ hh => hh.elim, ?_⟩
    rintro tgt ⟨rfl, -⟩
    exact ⟨fun hm => hm _ ht, fun _ => ht⟩
  | bind tgt hl ht hf hl' htyped hh =>
    refine Fit.congr ⟨htyped, fun b hb => absurd hb (hh b), fun t hb => ?_⟩ ht hf
    rw [hl' t hb]
    exact h.binds tgt hl
  | store _ _ _ _ hl' | keep _ _ _ _ hl' | unbind _ _ _ hl' => exact hl'.fit

theorem Pc.Fit.of_matches (h : l.Fit wq g) (hg : g.Matches wq) (hg' : g'.Matches wq)
    (hf : g'.hitFunc.wq = g.hitFunc.wq) : l.Fit wq g' := by
  refine ⟨h.typed, fun b hb => ⟨hg', ?_⟩, fun t hb => ⟨fun _ => ?_, absurd hg'⟩⟩
  · rw [hf]
    exact (h.holds b hb).2
  · rw [hf]
    exact (h.binds t hb).1 hg

theorem Sender.Matches.of_target (h : g.Matches wq) (ht : g'.target = g.target)
    (hf : g'.hitFunc.wq = g.hitFunc.wq) : g'.Matches wq := by
  intro t htgt
  rw [hf]
  exact h t (ht ▸ htgt)

theorem Moves.fit_other (hmove : Moves wq g l g' l') (h : l.Fit wq g) (hm : m.Fit wq g)
    (hc : l.Looks → g.Matches wq)
    (hd : Turns wq g l → (∀ b, ¬m.Holds b) ∧ ∀ tgt, ¬m.Binds tgt) : m.Fit wq g' := by
  cases hmove with
  | calm _ ht hf | read _ ht hf | aim _ ht hf | bind _ _ ht hf => exact hm.congr ht hf
  | @publish tgt _ _ _ _ hp ht hf _ =>
    by_cases hk : wq tgt = g.hitFunc.wq
    · have hg' : g'.Matches wq := by
        intro t h
        rw [ht] at h
        cases h
        rw [hk, hf]
      exact hm.of_matches (hc trivial) hg' (congrArg _ hf)
    · obtain ⟨hholds, hbinds⟩ := hd ⟨hp.1, hp.2.1, hp.2.2, hk⟩
      exact Calm.fit ⟨hm.typed, hholds, hbinds⟩
  | store tgt hl ht hf _ =>
    obtain ⟨hfits, hopen⟩ := h.binds tgt hl
    by_cases hg : g.Matches wq
    · have hsame : g'.hitFunc.wq = g.hitFunc.wq := hf.trans (hfits hg)
      exact hm.of_matches hg (hg.of_target ht hsame) hsame
    · -- the function is now for the target, and no other operation has read the old one
      have htgt := hopen hg
      have hg' : g'.Matches wq := by
        intro t h
        rw [ht, htgt] at h
        cases h
        exact hf.symm
      refine ⟨hm.typed, fun b hb => absurd (hm.holds b hb).1 hg,
        fun t hb => ⟨fun _ => ?_, absurd hg'⟩⟩
      have heq := ((hm.binds t hb).2 hg).symm.trans htgt
      cases heq
      exact hf.symm
  | keep b hl ht hf _ =>
    obtain ⟨hg, hb⟩ := h.holds b hl
    have hsame : g'.hitFunc.wq = g.hitFunc.wq := hf.trans hb
    exact hm.of_matches hg (hg.of_target ht hsame) hsame
  | unbind hl ht hf _ =>
    exact hm.of_matches (hc hl) (fun t h => absurd h (ht t)) (congrArg _ hf)

theorem Op.calm_entry (op : Op E) : op.entry.Calm wq := by
  cases op <;> exact ⟨trivial, fun _ h => h, fun _ h => h⟩

end

section Run

variable {P : Type*} [DecidableEq P]

def AllFit (wq : E → Bool) : State P E → Prop :=
  Interleaving.Inv (fun _ => True) (fun _ g l => l.Fit wq g) (fun _ _ => True)

omit [DecidableEq E] [DecidableEq P] in
theorem allFit_boot : AllFit wq (boot : State P E) :=
  ⟨trivial, fun _ => calm_rest.fit, fun _ _ _ => trivial⟩

theorem AllFit.step {s : State P E} {a : P × Act wq} (h : AllFit wq s) (ha : Ordered wq s a) :
    AllFit wq (step wq s a) := by
  obtain ⟨i, a⟩ := a
  have hl := h.loc i
  refine Interleaving.Inv.move h (fun _ _ h => h) trivial ?_ fun j hj => ⟨?_, trivial⟩
  · cases a with
    | start op =>
      rcases exec_start wq s.shared (s.loc i) op with he | he <;> rw [he]
      · exact op.calm_entry.fit
      · exact hl
    | go c => exact (go_moves hl.typed).fit hl (ha.1 rfl)
  · cases a with
    | start op =>
      rcases exec_start wq s.shared (s.loc i) op with he | he <;> rw [he] <;> exact h.loc j
    | go c => exact (go_moves hl.typed).fit_other hl (h.loc j) (ha.1 rfl) (ha.2 j hj rfl)

def WellTyped (wq : E → Bool) (s : State P E) : Prop := ∀ i, (s.loc i).Typed wq

theorem wellTyped_of_ordered {as : List (P × Act wq)}
    (h : Machine.Along (step wq) (Ordered wq) (boot : State P E) as) :
    Machine.Along (step wq) (fun s a => WellTyped wq (step wq s a)) boot as :=
  Machine.Along.imp (fun _ _ => AllFit.step) (fun _ _ hs ha i => ((hs.step ha).loc i).typed)
    allFit_boot h

abbrev isWq : Bool → Bool := id

abbrev bindTo (tgt : Bool) : List (Act isWq) :=
  [.start (.bind tgt 0), .go ⟨false, none⟩, .go ⟨false, none⟩, .go ⟨false, none⟩,
    .go ⟨false, none⟩, .go ⟨false, none⟩]

abbrev hit : List (Act isWq) := [.start .hit, .go ⟨false, none⟩, .go ⟨false, none⟩]

theorem wellTyped_bind_hit : Machine.Along (step isWq)
    (fun s a => WellTyped isWq (step isWq s a)) (boot : State Bool Bool)
    ((bindTo true).map (false, ·) ++ hit.map (true, ·)) := by
  apply wellTyped_of_ordered
  decide

/-- A hit between the two stores of a bind to a wait queue takes it for a thread. -/
theorem not_wellTyped_publish_hit : ¬WellTyped isWq (Machine.run (step isWq)
    (boot : State Bool Bool) (((bindTo true).take 3).map (false, ·) ++ hit.map (true, ·))) := by
  intro h
  have htrue : true = false := h true
  cases htrue

end Run

end Fiasco.Irq
