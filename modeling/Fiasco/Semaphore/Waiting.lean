import Fiasco.Semaphore.Model

/-!
# Who waits for a semaphore

A thread that waits is in the queue, or there is one participant that has taken it out and will
activate it. It must not leave its wait between the removal from the queue and its activation.
-/

namespace Fiasco.Semaphore

open StableQueue List Interleaving.System
open Pc

variable {T : Type}

def Pc.names : Pc T → Option T
  | .ack w | .mask w => w
  | .activate w | .setError w | .wake w => some w
  | _ => none

def Pc.inWait : Pc T → Bool
  | .timer | .asleep | .leave | .dequeue => true
  | _ => false

/-- A down on the counter 0 comes before the destruction, and a wait that was aborted is left when
nobody has still to activate the thread. -/
def Settled (s : State T) : Act T → Prop
  | .move t _ =>
    (s.loc t = .down → s.shared.queued = 0 → s.shared.valid = true) ∧
      (s.loc t = .dequeue → ∀ p, (s.loc p).names ≠ some t)
  | _ => True

def Held (s : State T) (t : T) : Prop :=
  t ∈ s.shared.waiters ∨ ∃ p, (s.loc p).names = some t

structure Fine (s : State T) (t : T) : Prop where
  waits : Held s t → (s.loc t).inWait = true
  leaves : Held s t → s.loc t = .leave ∨ (s.shared.tcb t).ready = true → s.loc t ≠ .dequeue →
    (s.shared.tcb t).aborted = true
  sleeps : s.loc t = .timer ∨ s.loc t = .asleep → (s.shared.tcb t).ready = false → Held s t
  apart : t ∈ s.shared.waiters → (∀ p, (s.loc p).names ≠ some t) ∧ (s.shared.tcb t).error = false
  one : ∀ p q, (s.loc p).names = some t → (s.loc q).names = some t → p = q
  fresh : s.loc t = .down → (s.shared.tcb t).error = false
  runs : s.loc t ≠ .timer → s.loc t ≠ .asleep → (s.shared.tcb t).ready = true

structure Inv (s : State T) : Prop where
  nodup : s.shared.waiters.Nodup
  empty : s.shared.waiting ≠ [] → s.shared.queued = 0
  fine : ∀ t, Fine s t

variable [DecidableEq T] {s : State T} {p t : T} {r : Shared T × Pc T}

section Fields

variable (g : Shared T) (f : Tcb → Tcb)

theorem tcb_modify (p t : T) :
    (g.modify p f).tcb t = if t = p then f (g.tcb p) else g.tcb t :=
  Function.update_apply ..

theorem tcb_modify_self (t : T) : (g.modify t f).tcb t = f (g.tcb t) :=
  Function.update_self ..

theorem tcb_modify_of_ne (h : t ≠ p) : (g.modify p f).tcb t = g.tcb t :=
  Function.update_of_ne h ..

theorem waiters_modify (p : T) : (g.modify p f).waiters = g.waiters := rfl

theorem tcb_insert (t : T) (prio : Prio) : (g.insert t prio).tcb = g.tcb := by
  rw [Shared.insert]
  split_ifs <;> rfl

theorem counts_insert (t : T) (prio : Prio) : (g.insert t prio).queued = g.queued ∧
    (g.insert t prio).ups = g.ups ∧ (g.insert t prio).downs = g.downs := by
  rw [Shared.insert]
  split_ifs <;> exact ⟨rfl, rfl, rfl⟩

variable {g : Shared T}

omit [DecidableEq T] in
theorem waiters_cons {a : T × Prio} {q : List (T × Prio)} (hq : g.waiting = a :: q) :
    g.waiters = a.1 :: q.map Prod.fst := by
  rw [Shared.waiters, hq]
  rfl

theorem insert_of_mem (h : t ∈ g.waiters) (prio : Prio) : g.insert t prio = g :=
  if_pos h

theorem waiters_insert (h : t ∉ g.waiters) (prio : Prio) :
    (g.insert t prio).waiters.Perm (t :: g.waiters) := by
  rw [Shared.insert, if_neg h]
  exact insertBehind_perm.map _

theorem mem_insert_of_ne (h : t ≠ p) (prio : Prio) :
    t ∈ (g.insert p prio).waiters ↔ t ∈ g.waiters := by
  by_cases hp : p ∈ g.waiters
  · rw [Shared.insert, if_pos hp]
  · rw [(waiters_insert hp prio).mem_iff, mem_cons, or_iff_right h]

theorem mem_filter_of_ne (h : t ≠ p) :
    t ∈ (g.waiting.filter fun a => a.1 ≠ p).map Prod.fst ↔ t ∈ g.waiters := by
  simp only [Shared.waiters, mem_map, mem_filter]
  constructor
  · rintro ⟨a, ⟨ha, -⟩, rfl⟩
    exact ⟨a, ha, rfl⟩
  · rintro ⟨a, ha, rfl⟩
    exact ⟨a, ⟨ha, by simpa using h⟩, rfl⟩

end Fields

section Rules

theorem names_move (hn : r.2.names = some t ↔ (s.loc p).names = some t) (q : T) :
    ((s.move p r).loc q).names = some t ↔ (s.loc q).names = some t := by
  by_cases hqp : q = p
  · subst hqp
    rw [move_self]
    exact hn
  · rw [move_of_ne hqp]

theorem held_move (hw : t ∈ r.1.waiters ↔ t ∈ s.shared.waiters)
    (hn : r.2.names = some t ↔ (s.loc p).names = some t) : Held (s.move p r) t ↔ Held s t :=
  or_congr hw (exists_congr (names_move hn))

theorem names_of_move {q : T} (h : ((s.move p r).loc q).names = some t) (hn : r.2.names ≠ some t) :
    q ≠ p ∧ (s.loc q).names = some t := by
  have hqp : q ≠ p := by
    rintro rfl
    rw [move_self] at h
    exact hn h
  rw [move_of_ne hqp] at h
  exact ⟨hqp, h⟩

section

variable (h : Fine s t) (ht : t ≠ p)
include h ht

theorem Fine.touch (hw : t ∈ r.1.waiters ↔ t ∈ s.shared.waiters)
    (hn : r.2.names = some t ↔ (s.loc p).names = some t)
    (hready : (r.1.tcb t).ready = (s.shared.tcb t).ready)
    (habort : (r.1.tcb t).aborted = (s.shared.tcb t).aborted)
    (herr : t ∈ s.shared.waiters ∨ s.loc t = .down →
      (r.1.tcb t).error = (s.shared.tcb t).error) : Fine (s.move p r) t := by
  have hloc : (s.move p r).loc t = s.loc t := move_of_ne ht
  have hready' : ((s.move p r).shared.tcb t).ready = (s.shared.tcb t).ready := hready
  have habort' : ((s.move p r).shared.tcb t).aborted = (s.shared.tcb t).aborted := habort
  have hheld := held_move hw hn
  constructor
  · rw [hheld, hloc]
    exact h.waits
  · rw [hheld, hloc, hready', habort']
    exact h.leaves
  · rw [hheld, hloc, hready']
    exact h.sleeps
  · intro hm
    obtain ⟨h1, h2⟩ := h.apart (hw.mp hm)
    exact ⟨fun q hq => h1 q ((names_move hn q).mp hq), (herr (.inl (hw.mp hm))).trans h2⟩
  · intro q q' hq hq'
    exact h.one q q' ((names_move hn q).mp hq) ((names_move hn q').mp hq')
  · rw [hloc]
    exact fun hd => (herr (.inr hd)).trans (h.fresh hd)
  · rw [hloc, hready']
    exact h.runs

theorem Fine.frame (hw : t ∈ r.1.waiters ↔ t ∈ s.shared.waiters)
    (hb : r.1.tcb t = s.shared.tcb t) (hn : r.2.names = some t ↔ (s.loc p).names = some t) :
    Fine (s.move p r) t :=
  h.touch ht hw hn (by rw [hb]) (by rw [hb]) fun _ => by rw [hb]

theorem Fine.frameModify {e : T} {f : Tcb → Tcb} {l : Pc T} (he : t ≠ e)
    (hn : l.names = some t ↔ (s.loc p).names = some t) :
    Fine (s.move p (s.shared.modify e f, l)) t := by
  have hb : (s.shared.modify e f).tcb t = s.shared.tcb t := tcb_modify_of_ne _ _ he
  exact h.frame ht .rfl hb hn

theorem Fine.take (hm : t ∈ s.shared.waiters) (hw : t ∉ r.1.waiters)
    (hb : r.1.tcb t = s.shared.tcb t) (hn : r.2.names = some t) : Fine (s.move p r) t := by
  have hloc : (s.move p r).loc t = s.loc t := move_of_ne ht
  have hb' : (s.move p r).shared.tcb t = s.shared.tcb t := hb
  have hheld : Held s t := .inl hm
  have honly : ∀ q, ((s.move p r).loc q).names = some t → q = p := by
    intro q hq
    by_contra hqp
    rw [move_of_ne hqp] at hq
    exact (h.apart hm).1 q hq
  constructor
  · intro _
    rw [hloc]
    exact h.waits hheld
  · intro _
    rw [hloc, hb']
    exact h.leaves hheld
  · intro _ _
    exact .inr ⟨p, by rw [move_self]; exact hn⟩
  · exact fun hc => (hw hc).elim
  · intro q q' hq hq'
    exact (honly q hq).trans (honly q' hq').symm
  · rw [hloc, hb']
    exact h.fresh
  · rw [hloc, hb']
    exact h.runs

end

omit [DecidableEq T] in
theorem Fine.of_not_held (hh : ¬ Held s t)
    (hs : s.loc t = .timer ∨ s.loc t = .asleep → (s.shared.tcb t).ready = true)
    (hf : s.loc t = .down → (s.shared.tcb t).error = false)
    (hr : s.loc t ≠ .timer → s.loc t ≠ .asleep → (s.shared.tcb t).ready = true) : Fine s t := by
  constructor
  · exact fun hc => (hh hc).elim
  · exact fun hc => (hh hc).elim
  · intro hl hc
    rw [hs hl] at hc
    cases hc
  · exact fun hc => (hh (.inl hc)).elim
  · exact fun q _ hq => (hh (.inr ⟨q, hq⟩)).elim
  · exact hf
  · exact hr

theorem Fine.release (h : Fine s t) (ht : t ≠ p) (hn : (s.loc p).names = some t)
    (hn' : r.2.names ≠ some t) (hw : t ∈ r.1.waiters → t ∈ s.shared.waiters)
    (hready : (r.1.tcb t).ready = true) (herr : (r.1.tcb t).error = (s.shared.tcb t).error) :
    Fine (s.move p r) t := by
  have hloc : (s.move p r).loc t = s.loc t := move_of_ne ht
  refine Fine.of_not_held ?_ (fun _ => hready) ?_ fun _ _ => hready
  · rintro (hm | ⟨q, hq⟩)
    · exact (h.apart (hw hm)).1 p hn
    · obtain ⟨hqp, hq⟩ := names_of_move hq hn'
      exact hqp (h.one q p hq hn)
  · rw [hloc]
    exact fun hl => herr.trans (h.fresh hl)

theorem not_held_move (hh : ¬ Held s t) (hw : t ∈ r.1.waiters → t ∈ s.shared.waiters)
    (hn : r.2.names ≠ some t) : ¬ Held (s.move t r) t := by
  rintro (hm | ⟨q, hq⟩)
  · exact hh (.inl (hw hm))
  · exact hh (.inr ⟨q, (names_of_move hq hn).2⟩)

theorem Fine.run (hh : ¬ Held s t) (hw : t ∈ r.1.waiters → t ∈ s.shared.waiters)
    (hn : r.2.names ≠ some t) (hready : (r.1.tcb t).ready = true)
    (hf : r.2 = .down → (r.1.tcb t).error = false) : Fine (s.move t r) t := by
  refine Fine.of_not_held (not_held_move hh hw hn) (fun _ => hready) ?_ fun _ _ => hready
  rw [move_self]
  exact hf

theorem Fine.wait (h : Fine s t) (hn : (s.loc t).names = none) (hn' : r.2.names = none)
    (hl : r.2.inWait = true) (hw : t ∈ r.1.waiters ↔ t ∈ s.shared.waiters)
    (herr : (r.1.tcb t).error = (s.shared.tcb t).error)
    (habort : Held s t → r.2 = .leave ∨ (r.1.tcb t).ready = true → r.2 ≠ .dequeue →
      (r.1.tcb t).aborted = true)
    (hsleep : r.2 = .timer ∨ r.2 = .asleep → (r.1.tcb t).ready = false → Held s t)
    (hrun : r.2 ≠ .timer → r.2 ≠ .asleep → (r.1.tcb t).ready = true) : Fine (s.move t r) t := by
  have hloc : (s.move t r).loc t = r.2 := move_self
  have hnames : r.2.names = some t ↔ (s.loc t).names = some t := by
    rw [hn, hn']
  have hheld := held_move hw hnames
  constructor
  · intro _
    rw [hloc]
    exact hl
  · rw [hheld, hloc]
    exact habort
  · rw [hheld, hloc]
    exact hsleep
  · intro hm
    obtain ⟨h1, h2⟩ := h.apart (hw.mp hm)
    exact ⟨fun q hq => h1 q ((names_move hnames q).mp hq), herr.trans h2⟩
  · intro q q' hq hq'
    exact h.one q q' ((names_move hnames q).mp hq) ((names_move hnames q').mp hq')
  · rw [hloc]
    rintro hd
    rw [hd] at hl
    cases hl
  · rw [hloc]
    exact hrun

end Rules

section Steps

variable {edge : Bool} {c : Choice} {f : Tcb → Tcb}

section

omit [DecidableEq T]

@[simp] theorem names_wakeup (w : Option T) : (wakeup w).names = w := by
  cases w <;> rfl

@[simp] theorem names_counted (old : ℕ) (w : Option T) : (counted edge old w).names = w := by
  rw [counted]
  split_ifs
  · rfl
  · rfl
  · exact names_wakeup w

end

theorem other_exec (edge : Bool) (c : Choice) (l : Pc T) (hnodup : g.waiters.Nodup) (ht : t ≠ p) :
    (t ∈ (exec edge p g c l).1.waiters ↔ t ∈ g.waiters) ∧
        ((exec edge p g c l).2.names = some t ↔ l.names = some t) ∧
        ((exec edge p g c l).1.tcb t = g.tcb t ∨ l = .setError t ∧
          (exec edge p g c l).1.tcb t = { g.tcb t with error := true }) ∨
      t ∈ g.waiters ∧ t ∉ (exec edge p g c l).1.waiters ∧ (exec edge p g c l).1.tcb t = g.tcb t ∧
        (exec edge p g c l).2.names = some t ∨
      l.names = some t ∧ (exec edge p g c l).2.names ≠ some t ∧
        (exec edge p g c l).1.waiters = g.waiters ∧
        (exec edge p g c l).1.tcb t = { g.tcb t with ready := true } := by
  cases l with
  | down =>
    have hw := @mem_insert_of_ne
    have hb : (((g.modify p fun b => { b with ready := false, receiveWait := true }).insert p
        c.prio).tcb t) = g.tcb t := by
      rw [tcb_insert, tcb_modify_of_ne _ _ ht]
    grind [exec, names, waiters_modify, Shared.waiters]
  | dequeue =>
    have hw := mem_filter_of_ne (g := g) ht
    grind [exec, names, Shared.waiters]
  | count | drain =>
    cases hq : g.waiting with
    | nil => grind [exec, names, Shared.waiters, names_counted]
    | cons a q =>
      grind [exec, names, Shared.waiters, names_counted]
  | _ => grind [exec, start, names, tcb_modify, waiters_modify, names_wakeup, Shared.waiters]

theorem run_exec (edge : Bool) (t : T) (g : Shared T) (c : Choice)
    {l : Pc T} (hw : l.inWait = false) (hd : l ≠ .down) :
    (t ∈ (exec edge t g c l).1.waiters → t ∈ g.waiters) ∧
      ((exec edge t g c l).2.names = some t → t ∈ g.waiters ∨ l.names = some t) ∧
      ((g.tcb t).ready = true → ((exec edge t g c l).1.tcb t).ready = true) ∧
      ((exec edge t g c l).2 = .down → ((exec edge t g c l).1.tcb t).error = false) := by
  cases l with
  | count | drain =>
    cases hq : g.waiting with
    | nil => grind [exec, names, Shared.waiters, names_counted, counted, wakeup]
    | cons a q =>
      grind [exec, names, Shared.waiters, names_counted, counted, wakeup]
  | _ =>
    grind [exec, start, names, inWait, tcb_modify, waiters_modify, names_wakeup, wakeup,
      Shared.waiters]

theorem queue_exec (edge : Bool) (t : T) (c : Choice) (g : Shared T) (l : Pc T) :
    (exec edge t g c l).1.waiting = g.waiting ∧
        ((exec edge t g c l).1.queued = g.queued ∨ (exec edge t g c l).1.queued + 1 = g.queued ∨
          g.waiting = []) ∨
      (∃ a, g.waiting = a :: (exec edge t g c l).1.waiting) ∧
        (exec edge t g c l).1.queued = g.queued ∨
      l = .down ∧ g.queued = 0 ∧ (exec edge t g c l).1.queued = 0 ∧ t ∉ g.waiters ∧
        (exec edge t g c l).1.waiters.Perm (t :: g.waiters) ∨
      l = .dequeue ∧ (exec edge t g c l).1.waiting = g.waiting.filter (fun a => a.1 ≠ t) ∧
        (exec edge t g c l).1.queued = g.queued := by
  cases l with
  | count =>
    rw [exec]
    split
    · rename_i a q hq
      exact .inr (.inl ⟨⟨a, hq⟩, rfl⟩)
    · rename_i hq
      refine .inl ⟨?_, .inr (.inr hq)⟩
      split_ifs <;> rfl
  | down =>
    rw [exec]
    by_cases h0 : g.queued = 0
    · rw [if_pos h0]
      split_ifs
      · exact .inl ⟨rfl, .inl rfl⟩
      · by_cases hm : t ∈ g.waiters
        · rw [insert_of_mem (g := g.modify t _) hm]
          exact .inl ⟨rfl, .inl rfl⟩
        · refine .inr (.inr (.inl ⟨rfl, h0, ?_, hm, ?_⟩))
          · exact (counts_insert _ _ _).1.trans h0
          · exact waiters_insert (g := g.modify t _) hm c.prio
    · rw [if_neg h0]
      exact .inl ⟨rfl, .inr (.inl (Nat.succ_pred_eq_of_ne_zero h0))⟩
  | dequeue =>
    rw [exec]
    split_ifs
    · exact .inr (.inr (.inr ⟨rfl, rfl, rfl⟩))
    · exact .inl ⟨rfl, .inl rfl⟩
  | drain =>
    rw [exec]
    split
    · rename_i a q hq
      exact .inr (.inl ⟨⟨a, hq⟩, rfl⟩)
    · exact .inl ⟨rfl, .inl rfl⟩
  | idle | timer | finish =>
    refine .inl ?_
    simp only [exec, start]
    (repeat' split) <;> simp [Shared.modify]
  | _ => exact .inl ⟨rfl, .inl rfl⟩

theorem empty_exec (edge : Bool) {l : Pc T} (h : g.waiting ≠ [] → g.queued = 0)
    (hne : (exec edge p g c l).1.waiting ≠ []) : (exec edge p g c l).1.queued = 0 := by
  rcases queue_exec edge p c g l with
    ⟨hq, hz | hz | hz⟩ | ⟨⟨a, hq⟩, hz⟩ | ⟨-, -, hz, -⟩ | ⟨-, hq, hz⟩
  · exact hz.trans (h (hq ▸ hne))
  · have h0 := h (hq ▸ hne)
    omega
  · exact (hne (hq.trans hz)).elim
  · exact hz.trans (h (by rw [hq]; exact nofun))
  · exact hz
  · refine hz.trans (h fun hnil => hne ?_)
    rw [hq, hnil]
    rfl

section

variable (h : Inv s)
include h

omit [DecidableEq T] in
theorem Inv.not_held (hl : (s.loc t).inWait = false) : ¬ Held s t := by
  intro hh
  rw [(h.fine t).waits hh] at hl
  cases hl

theorem Inv.other (ht : t ≠ p) : Fine (s.move p (exec edge p s.shared c (s.loc p))) t := by
  have hf := h.fine t
  rcases other_exec edge c (s.loc p) h.nodup ht with
    ⟨hw, hn, hb | ⟨hl, hb⟩⟩ | ⟨hm, hw, hb, hn⟩ | ⟨hn, hn', hw, hb⟩
  · exact hf.touch ht hw hn (by rw [hb]) (by rw [hb]) fun _ => by rw [hb]
  · have hp : (s.loc p).names = some t := by
      rw [hl]
      rfl
    refine hf.touch ht hw hn (by rw [hb]) (by rw [hb]; rfl) ?_
    rintro (hm | hd)
    · exact ((hf.apart hm).1 p hp).elim
    · have hw := hf.waits (.inr ⟨p, hp⟩)
      rw [hd] at hw
      cases hw
  · exact hf.take ht hm hw hb hn
  · exact hf.release ht hn hn' (by rw [hw]; exact id) (by rw [hb]) (by rw [hb])

theorem Inv.down (hc : Settled s (.move t c)) (hl : s.loc t = .down) :
    Fine (s.move t (exec edge t s.shared c .down)) t := by
  have hf := h.fine t
  have hh : ¬ Held s t := h.not_held (by rw [hl]; rfl)
  have hready : (s.shared.tcb t).ready = true :=
    hf.runs (by rw [hl]; exact nofun) (by rw [hl]; exact nofun)
  rw [exec]
  by_cases h0 : s.shared.queued = 0
  · have hv := hc.1 hl h0
    rw [if_pos h0, if_neg (by simp [hv])]
    have hmem : t ∉ s.shared.waiters := fun hm => hh (.inl hm)
    have hb : ((s.shared.modify t fun b => { b with ready := false, receiveWait := true }).insert t
        c.prio).tcb t = { s.shared.tcb t with ready := false, receiveWait := true } := by
      rw [tcb_insert, tcb_modify_self]
    have hin : t ∈ ((s.shared.modify t fun b => { b with ready := false, receiveWait := true }).insert
        t c.prio).waiters :=
      (waiters_insert (g := s.shared.modify t _) hmem c.prio).mem_iff.mpr mem_cons_self
    generalize (s.shared.modify t fun b => { b with ready := false, receiveWait := true }).insert t
      c.prio = g at hb hin
    have hloc : (s.move t (g, .timer)).loc t = .timer := move_self
    have hb' : (s.move t (g, .timer)).shared.tcb t =
      { s.shared.tcb t with ready := false, receiveWait := true } := hb
    have hnobody : ∀ q, ((s.move t (g, .timer)).loc q).names ≠ some t :=
      fun q hq => hh (.inr ⟨q, (names_of_move hq nofun).2⟩)
    constructor
    · intro _
      rw [hloc]
      rfl
    · rw [hloc, hb']
      rintro _ (hc | hc)
      · cases hc
      · cases hc
    · exact fun _ _ => .inl hin
    · intro _
      rw [hb']
      exact ⟨hnobody, hf.fresh hl⟩
    · exact fun q _ hq => (hnobody q hq).elim
    · rw [hloc]
      exact nofun
    · rw [hloc]
      exact fun hc => (hc rfl).elim
  · rw [if_neg h0]
    split_ifs
    · exact Fine.run hh id nofun hready nofun
    · exact Fine.run hh id nofun hready nofun

theorem Inv.run (hw : (s.loc t).inWait = false) (hd : s.loc t ≠ .down) :
    Fine (s.move t (exec edge t s.shared c (s.loc t))) t := by
  have hh : ¬ Held s t := h.not_held hw
  obtain ⟨hmem, hname, hready, hdown⟩ := run_exec edge t s.shared c hw hd
  refine Fine.run hh hmem (fun hn => hh ?_) (hready ?_) hdown
  · exact (hname hn).imp_right fun hl => ⟨t, hl⟩
  · exact (h.fine t).runs (fun hl => by rw [hl] at hw; cases hw) fun hl => by rw [hl] at hw; cases hw

theorem Inv.wait (hc : Settled s (.move t c)) (hw : (s.loc t).inWait = true) :
    Fine (s.move t (exec edge t s.shared c (s.loc t))) t := by
  have hf := h.fine t
  have hn : (s.loc t).names = none := by
    cases hl : s.loc t <;> rw [hl] at hw <;> first | rfl | cases hw
  have hnosleep : ∀ {l : Pc T} {P : Prop}, l = .leave → l = .timer ∨ l = .asleep → P := by
    rintro l P rfl (hc | hc) <;> cases hc
  have hwoken (hne : s.loc t ≠ .dequeue) (hr : (s.shared.tcb t).ready = true) :
      Fine (s.move t (s.shared, .leave)) t :=
    hf.wait hn rfl rfl .rfl rfl (fun hh _ _ => hf.leaves hh (.inr hr) hne) (hnosleep rfl)
      fun _ _ => hr
  cases hl : s.loc t with
  | timer =>
    rw [exec]
    by_cases hr : (s.shared.tcb t).ready = true
    · rw [if_pos hr]
      exact hwoken (by rw [hl]; exact nofun) hr
    · rw [if_neg hr]
      rw [Bool.not_eq_true] at hr
      have hheld := hf.sleeps (.inl hl) hr
      cases c.timeout with
      | zero =>
        refine hf.wait hn rfl rfl .rfl ?_ (fun _ _ _ => ?_) (hnosleep rfl) fun _ _ => ?_ <;>
          simp only [tcb_modify_self]
        exact Bool.or_true _
      | finite =>
        refine hf.wait hn rfl rfl .rfl ?_ (fun _ hd _ => ?_) (fun _ _ => hheld)
          fun _ hc => (hc rfl).elim <;> simp only [tcb_modify_self] at *
        rcases hd with hd | hd
        · cases hd
        · rw [hr] at hd
          cases hd
      | never =>
        refine hf.wait hn rfl rfl .rfl rfl (fun _ hd _ => ?_) (fun _ _ => hheld)
          fun _ hc => (hc rfl).elim
        rcases hd with hd | hd
        · cases hd
        · exact absurd (hr.symm.trans hd) nofun
  | asleep =>
    rw [exec]
    by_cases hr : (s.shared.tcb t).ready = true
    · rw [if_pos hr]
      exact hwoken (by rw [hl]; exact nofun) hr
    · rw [if_neg hr]
      refine hf.wait hn rfl rfl .rfl rfl (fun _ hd _ => ?_) (fun _ hr => hf.sleeps (.inr hl) hr)
        fun _ hc => (hc rfl).elim
      rcases hd with hd | hd
      · cases hd
      · exact (hr hd).elim
  | leave =>
    have hready := hf.runs (by rw [hl]; exact nofun) (by rw [hl]; exact nofun)
    rw [exec]
    by_cases ha : (s.shared.tcb t).aborted = true
    · rw [if_pos ha]
      refine hf.wait hn rfl rfl .rfl ?_ (fun _ _ hc => (hc rfl).elim) ?_ fun _ _ => ?_
      · simp only [tcb_modify_self]
      · rintro (hc | hc) <;> cases hc
      · simp only [tcb_modify_self]
        exact hready
    · rw [if_neg ha]
      -- only who is not held is woken without an abort
      have hh : ¬ Held s t := fun hh => ha (hf.leaves hh (.inl hl) (by rw [hl]; exact nofun))
      refine Fine.run hh id nofun ?_ nofun
      simp only [tcb_modify_self]
      exact hready
  | dequeue =>
    have hready := hf.runs (by rw [hl]; exact nofun) (by rw [hl]; exact nofun)
    rw [exec]
    by_cases hm : t ∈ s.shared.waiters
    · rw [if_pos hm]
      refine Fine.of_not_held ?_ (fun _ => hready) ?_ fun _ _ => hready
      · rintro (hm' | ⟨q, hq⟩)
        · obtain ⟨a, ha, hat⟩ := mem_map.mp hm'
          have hne := (mem_filter.mp ha).2
          simp only [hat] at hne
          simp at hne
        · exact (hf.apart hm).1 q (names_of_move hq nofun).2
      · rw [move_self]
        exact nofun
    · rw [if_neg hm]
      have hh : ¬ Held s t := by
        rintro (hm' | ⟨q, hq⟩)
        · exact hm hm'
        · exact hc.2 hl q hq
      exact Fine.run hh id nofun hready nofun
  | _ =>
    rw [hl] at hw
    cases hw

theorem Inv.move (hc : Settled s (.move p c)) :
    Inv (s.move p (exec edge p s.shared c (s.loc p))) := by
  refine ⟨?_, ?_, fun t => ?_⟩
  · change (exec edge p s.shared c (s.loc p)).1.waiters.Nodup
    have hn := h.nodup
    rcases queue_exec edge p c s.shared (s.loc p) with
      ⟨hq, -⟩ | ⟨⟨a, hq⟩, -⟩ | ⟨-, -, -, hm, hq⟩ | ⟨-, hq, -⟩
    · rw [Shared.waiters, hq]
      exact hn
    · rw [Shared.waiters, hq] at hn
      exact (nodup_cons.mp hn).2
    · exact hq.nodup_iff.mpr (nodup_cons.mpr ⟨hm, hn⟩)
    · rw [Shared.waiters, hq]
      exact hn.sublist (filter_sublist.map _)
  · exact empty_exec edge h.empty
  · by_cases ht : t = p
    · subst ht
      by_cases hd : s.loc t = .down
      · rw [hd]
        exact h.down hc hd
      · cases hw : (s.loc t).inWait with
        | true => exact h.wait hc hw
        | false => exact h.run hw hd
    · exact h.other ht

theorem Inv.abort (hl : s.loc p = .asleep)
    (hready : (f (s.shared.tcb p)).ready = true) (ha : (f (s.shared.tcb p)).aborted = true)
    (herr : (f (s.shared.tcb p)).error = (s.shared.tcb p).error) :
    Inv (s.move p (s.shared.modify p f, .asleep)) := by
  refine ⟨h.nodup, h.empty, fun t => ?_⟩
  by_cases ht : t = p
  · subst ht
    refine (h.fine t).wait (by rw [hl]; rfl) rfl rfl .rfl ?_ (fun _ _ _ => ?_) (fun _ hr => ?_)
      fun _ hc => (hc rfl).elim
    · simp only [tcb_modify_self]
      exact herr
    · simp only [tcb_modify_self]
      exact ha
    · simp only [tcb_modify_self, hready] at hr
      cases hr
  · exact (h.fine t).frameModify ht ht (by rw [hl])

theorem Inv.step {a : Act T} (ha : Settled s a) : Inv (step edge s a) := by
  cases a with
  | move t c => exact h.move ha
  | timeout t =>
    rw [Semaphore.step]
    split_ifs with hc
    · exact h.abort hc.1 rfl (Bool.or_true _) rfl
    · exact h
  | cancel t =>
    rw [Semaphore.step]
    split_ifs with hc
    · exact h.abort hc rfl rfl rfl
    · exact h

end

omit [DecidableEq T] in
theorem inv_boot : Inv (boot : State T) := by
  refine ⟨nodup_nil, fun hc => (hc rfl).elim, fun t => ?_⟩
  refine Fine.of_not_held ?_ (fun _ => rfl) nofun fun _ _ => rfl
  rintro (hm | ⟨q, hq⟩)
  · cases hm
  · cases hq

end Steps

end Fiasco.Semaphore
