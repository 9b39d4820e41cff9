import Fiasco.WaitQueue.Wakeup

/-!
# Every step keeps that a sleeper is cared for

The flags of a transfer in progress first. Then, for a thread that somebody else has taken out of the
queue, the steps of that one; for a thread, its own steps; and what reaches a thread from outside.
-/

namespace Fiasco.WaitQueue

open Interleaving.System
open Tcb

variable {T : Type} [DecidableEq T] {bits : ℕ} {irq : T → Bool} {s : State T} {g : Shared T} {p t e : T}
  {c : Choice} {r : Shared T × Pc T} {l : Pc T} {b b' : Tcb T} {k : Kind} {f : Tcb T → Tcb T}

section Flags

theorem sends_exec (hok : ∀ e, l = .serve e .transfer → c.ok = true)
    (h : ((exec bits irq p g c l).1.tcb t).sendInProgress = true) :
    (exec bits irq p g c l).2.transfers t ∨ (g.tcb t).sendInProgress = true ∧ ¬ l.transfers t := by
  cases l with
  | serve e q => cases q <;> grind [exec, serve, tcb_modify, Pc.transfers, delIpc]
  | meet e q => cases q <;> grind [exec, meet, tcb_modify, Pc.transfers, delIpc]
  | _ => grind [exec, start, proceed, tcb_modify, Pc.transfers, delIpc, delFull]

theorem receives_exec (h : ((exec bits irq p g c l).1.tcb t).receiveInProgress = true) :
    (exec bits irq p g c l).2.delivers t ∨ t = p ∧ (exec bits irq p g c l).2.receives = true ∨
      (g.tcb t).receiveInProgress = true ∧ ¬ l.delivers t ∧ (t = p → l.receives = false) := by
  cases l with
  | serve e q => cases q <;> grind [exec, serve, tcb_modify, Pc.delivers, Pc.receives, delIpc]
  | meet e q => cases q <;> grind [exec, meet, tcb_modify, Pc.delivers, Pc.receives, delIpc]
  | _ => grind [exec, start, proceed, tcb_modify, Pc.delivers, Pc.receives, delIpc, delFull]

theorem irq_exec (hi : irq p = true) (hk : l.kind = .plain ∨ l.kind = .last)
    (hp : (g.tcb p).prepared = false) :
    ((exec bits irq p g c l).2.kind = .plain ∨ (exec bits irq p g c l).2.kind = .last) ∧
      ((exec bits irq p g c l).1.tcb p).prepared = false := by
  cases l with
  | serve e q => cases q <;> grind [exec, serve, tcb_modify, Pc.kind, delIpc]
  | meet e q => cases q <;> grind [exec, meet, tcb_modify, Pc.kind, delIpc]
  | _ => grind [exec, start, proceed, tcb_modify, Pc.kind, delIpc, delFull]

theorem prepared_exec (h : t ≠ p) :
    ((exec bits irq p g c l).1.tcb t).prepared = (g.tcb t).prepared := by
  cases l with
  | serve e q => cases q <;> grind [exec, serve, tcb_modify, delIpc]
  | meet e q => cases q <;> grind [exec, meet, tcb_modify, delIpc]
  | _ => grind [exec, start, proceed, tcb_modify, delIpc, delFull]

theorem exists_move {P : T → Pc T → Prop} (h : ∃ q, P q (s.loc q)) (hp : P p (s.loc p) → P p r.2) :
    ∃ q, P q ((s.move p r).loc q) := by
  obtain ⟨q, hq⟩ := h
  by_cases hqp : q = p
  · subst hqp
    refine ⟨q, ?_⟩
    rw [move_self]
    exact hp hq
  · refine ⟨q, ?_⟩
    rw [move_of_ne hqp]
    exact hq

theorem exists_self {P : Pc T → Prop} (h : P r.2) : ∃ q, P ((s.move p r).loc q) :=
  ⟨p, by rw [move_self]; exact h⟩

def Held (s : State T) (t : T) : Prop := Stood s t s.shared (s.shared.tcb t) (s.loc t).kind

theorem Fine.flags (h : Fine irq s t) (hst : Held (s.move p r) t)
    (hsend : (r.1.tcb t).sendInProgress = true →
      r.2.transfers t ∨ (s.shared.tcb t).sendInProgress = true ∧ ¬ (s.loc p).transfers t)
    (hreceive : (r.1.tcb t).receiveInProgress = true →
      r.2.delivers t ∨ t = p ∧ r.2.receives = true ∨
        (s.shared.tcb t).receiveInProgress = true ∧ ¬ (s.loc p).delivers t ∧
          (t = p → (s.loc p).receives = false))
    (hirq : irq t = true → (((s.move p r).loc t).kind = .plain ∨ ((s.move p r).loc t).kind = .last) ∧
      (r.1.tcb t).prepared = false) : Fine irq (s.move p r) t := by
  refine ⟨hst, fun hp => ?_, fun hp => ?_, hirq⟩
  · rcases hsend hp with ht | ⟨hp, hn⟩
    · exact exists_self ht
    · exact exists_move (h.sends hp) fun hc => (hn hc).elim
  · rcases hreceive hp with hd | ⟨rfl, hr⟩ | ⟨hp, hd, hr⟩
    · exact .inl (exists_self hd)
    · exact .inr (by rw [move_self]; exact hr)
    · rcases h.receives hp with hd' | hr'
      · exact .inl (exists_move hd' fun hc => (hd hc).elim)
      · by_cases ht : t = p
        · subst ht
          rw [hr rfl] at hr'
          cases hr'
        · exact .inr (by rw [move_of_ne ht]; exact hr')

theorem Fine.own (h : Fine irq s t) (hok : ∀ e, s.loc p = .serve e .transfer → c.ok = true)
    (hst : Held (s.move p (exec bits irq p s.shared c (s.loc p))) t) :
    Fine irq (s.move p (exec bits irq p s.shared c (s.loc p))) t := by
  refine h.flags hst (sends_exec hok) receives_exec fun hi => ?_
  obtain ⟨hk, hp⟩ := h.irq hi
  by_cases ht : t = p
  · subst ht
    rw [move_self]
    exact irq_exec hi hk hp
  · rw [move_of_ne ht, prepared_exec ht]
    exact ⟨hk, hp⟩

end Flags

section Others

section

omit [DecidableEq T]

theorem early_of_kind (h : l.early = false) : l.kind ≠ .posted ∧ l.kind ≠ .offered := by
  cases l with
  | meet r q => cases q <;> exact ⟨nofun, nofun⟩
  | leave a => cases a <;> exact ⟨nofun, nofun⟩
  | armReceive | block | senderBlock => cases h
  | _ => exact ⟨nofun, nofun⟩

theorem kind_listening (h : l.kind = .listening) : l = .receiverAsleep := by
  cases l with
  | receiverAsleep => rfl
  | meet r q => cases q <;> cases h
  | leave a => cases a <;> cases h
  | _ => cases h

end

theorem Fine.keep (h : Fine irq s t) (ht : t ≠ p) (htcb : r.1.tcb t = s.shared.tcb t)
    (hS : s.shared.has ⟨t, .sender⟩ → r.1.has ⟨t, .sender⟩ ∨
      r.2.completes t ∧ (s.loc t).early = false)
    (hR : s.shared.has ⟨t, .receiver⟩ → r.1.has ⟨t, .receiver⟩ ∨
      (r.2.wakes t ∨ r.2.asks p t (s.shared.tcb t).poi) ∧ (s.loc t).early = false)
    (hC : (s.loc p).completes t → r.2.completes t) (hW : (s.loc p).wakes t → r.2.wakes t)
    (hA : (s.loc p).asks p t (s.shared.tcb t).poi →
      r.2.asks p t (s.shared.tcb t).poi ∨ r.2.wakes t ∨
        ((s.shared.tcb t).ready = false → (s.loc t).kind = .listening →
          ∃ q, (s.loc q).wakes t)) : Held (s.move p r) t := by
  have htcb' : (s.move p r).shared.tcb t = s.shared.tcb t := htcb
  rw [Held, Stood, htcb', move_of_ne ht]
  refine h.stands.mono (fun hq => ?_) (fun hq => ?_) (fun hc => exists_move hc hC)
    (fun hw => exists_move hw hW) fun hk hb ha => ?_
  · rcases hS hq with hq | ⟨hc, he⟩
    · exact .inl hq
    · exact .inr ⟨exists_self hc, (early_of_kind he).2⟩
  · rcases hR hq with hq | ⟨hw | ha, he⟩
    · exact .inl hq
    · exact .inr ⟨.inl (exists_self hw), (early_of_kind he).1⟩
    · exact .inr ⟨.inr ⟨p, by rw [move_self]; exact ha⟩, (early_of_kind he).1⟩
  · obtain ⟨q, hq⟩ := ha
    by_cases hqp : q = p
    · subst hqp
      rcases hA hq with ha | hw | hw
      · exact .inl ⟨q, by rw [move_self]; exact ha⟩
      · exact .inr (exists_self hw)
      · exact .inr (exists_move (hw hb hk) hW)
    · exact .inl ⟨q, by rw [move_of_ne hqp]; exact hq⟩

omit [DecidableEq T] in
theorem not_names (h : l.names ≠ some t) :
    ¬ l.completes t ∧ ¬ l.wakes t ∧ ∀ q poi, ¬ l.asks q t poi :=
  ⟨fun hc => h hc.wakes.names, fun hw => h hw.names, fun _ _ ha => h ha.names⟩

theorem Inv.unnamed (h : Inv irq s) (ht : t ≠ p)
    (htime : ∀ e, taken s.shared p c (s.loc p) = some e → (s.loc e.who).early = false)
    (hn : (s.loc p).names ≠ some t) : Held (s.move p (exec bits irq p s.shared c (s.loc p))) t := by
  obtain ⟨hC, hW, hA⟩ := not_names hn
  refine (h.fine t).keep ht (tcb_exec bits irq ht hn) (fun hq => ?_) (fun hq => ?_) (fun hc => (hC hc).elim)
    (fun hw => (hW hw).elim) fun ha => (hA _ _ ha).elim
  · rcases has_exec bits irq (p := p) (c := c) (l := s.loc p) hq ht with hq | hq
    · exact .inl hq
    · rcases taken_spec bits irq h.sides hq with ⟨-, hc⟩ | ⟨hr, -⟩
      · exact .inr ⟨hc, htime _ hq⟩
      · cases hr
  · rcases has_exec bits irq (p := p) (c := c) (l := s.loc p) hq ht with hq | hq
    · exact .inl hq
    · rcases taken_spec bits irq h.sides hq with ⟨hr, -⟩ | ⟨-, hc⟩
      · cases hr
      · exact .inr ⟨hc.imp_right fun ha => ha _, htime _ hq⟩

theorem held_touch (ht : t ≠ p) (hq : r.1.waitQ = s.shared.waitQ) (hb : r.1.tcb t = b)
    (hst : Stood (s.move p r) t s.shared b (s.loc t).kind) : Held (s.move p r) t := by
  have hhas : ∀ e, (s.move p r).shared.has e = s.shared.has e := by
    intro e
    change (∃ a ∈ r.1.waitQ, a.1 = e) = _
    rw [hq]
    rfl
  have hb' : (s.move p r).shared.tcb t = b := hb
  rw [Held, Stood, hhas, hhas, move_of_ne ht, hb']
  exact hst

theorem held_modify (ht : t ≠ p)
    (hst : Stood (s.move p (s.shared.modify t f, l)) t s.shared (f (s.shared.tcb t)) (s.loc t).kind) :
    Held (s.move p (s.shared.modify t f, l)) t :=
  held_touch ht rfl (tcb_modify_self ..) hst

section

omit [DecidableEq T]

theorem Stands.of_irq {inS inR C W A C' W' A' : Prop}
    (h : Stands inS inR C W A b k) (hk : k = .plain ∨ k = .last) (h1 : b'.sendWait = b.sendWait)
    (h2 : b'.receiveWait = b.receiveWait) (h3 : b'.ready = b.ready) (h4 : b'.prepared = b.prepared)
    : Stands inS inR C' W' A' b' k := by
  rcases hk with rfl | rfl
  · rw [Stands, h1, h2, h3]
    exact h
  · rw [Stands, h1, h2, h3, h4]
    exact h

theorem Stands.of_same {inS inR C W A : Prop} (h : Stands inS inR C W A b k)
    (h1 : b'.sendWait = b.sendWait) (h2 : b'.receiveWait = b.receiveWait) (h3 : b'.ready = b.ready)
    (h4 : b'.prepared = b.prepared) (h5 : b'.cancel = b.cancel) (h6 : b'.aborted = b.aborted) :
    Stands inS inR C W A b' k := by
  cases k <;> simp only [Stands, h1, h2, h3, h4, h5, h6] at h ⊢ <;> exact h

end

theorem Fine.serve (h : Fine irq s t) (ht : t ≠ p) {q : Serve} (hl : s.loc p = .serve t q)
    (hok : q = .transfer → c.ok = true) : Held (s.move p (serve irq p t s.shared c q)) t := by
  have hA : ¬ (s.loc p).asks p t (s.shared.tcb t).poi := by
    rw [hl]
    rintro ⟨⟩
  cases q with
  | prepare | addProgress =>
    refine h.keep ht (by simp only [WaitQueue.serve, tcb_modify_of_ne ht]) .inl .inl ?_ ?_
      fun ha => (hA ha).elim <;> rw [hl]
    · exact id
    · exact id
  | mark =>
    rw [WaitQueue.serve]
    by_cases hi : irq t = true
    · rw [if_pos hi]
      exact held_modify ht (h.stands.of_irq (h.irq hi).1 rfl rfl rfl rfl)
    · rw [if_neg hi]
      refine held_modify ht (Stands.of_same (b := s.shared.tcb t) ?_ rfl rfl rfl rfl rfl rfl)
      exact h.stands.woken (fun _ => exists_self rfl) (exists_self rfl)
  | transfer =>
    have hr : c.ok = true := hok rfl
    refine h.keep ht rfl .inl .inl ?_ ?_ fun ha => (hA ha).elim <;>
      rw [hl] <;> simp only [WaitQueue.serve, hr]
    · exact fun hc => ⟨hc, rfl⟩
    · exact fun hc => ⟨hc, rfl⟩
  | complete ok =>
    rw [WaitQueue.serve]
    cases ok with
    | true => exact held_modify ht (h.stands.ready rfl (by rintro ⟨⟩) id (by rintro ⟨⟩))
    | false =>
      have hC : ¬ (s.loc p).completes t := by
        rw [hl]
        exact fun hc => absurd hc.2 (by simp)
      refine held_modify ht (h.stands.ready rfl (fun hw => ⟨hw, by rintro ⟨⟩⟩) id fun _ hc => ?_)
      exact exists_move hc fun hc => (hC hc).elim

theorem Fine.accepts (h : Fine irq s t) (hk : (s.loc t).kind = .listening)
    (hr : (s.shared.tcb t).ready = false) (hw : ¬ ∃ q, (s.loc q).wakes t)
    (hp : (s.shared.tcb t).poi = some (some p)) : (s.shared.tcb t).accepts p = true := by
  have hst := h.stands
  rw [hk] at hst
  obtain ⟨hrecv, -⟩ := (hst.2 hr).2.resolve_left hw
  have hsend : (s.shared.tcb t).sendInProgress = false := by
    refine Bool.eq_false_iff.mpr fun hb => hw ?_
    obtain ⟨q, hq⟩ := h.sends hb
    exact ⟨q, hq.completes.wakes⟩
  have hprog : (s.shared.tcb t).receiveInProgress = false := by
    refine Bool.eq_false_iff.mpr fun hb => ?_
    rcases h.receives hb with ⟨q, hq⟩ | hl
    · exact hw ⟨q, hq.wakes⟩
    · rw [kind_listening hk] at hl
      cases hl
  simp [Tcb.accepts, hrecv, hprog, hst.1, hsend, hp]

section

variable (h : Fine irq s t) (ht : t ≠ p)
include h ht

theorem Fine.meet {q : Meet} (hl : s.loc p = .meet t q) :
    Held (s.move p (meet irq p t s.shared q)) t := by
  have hC : ¬ (s.loc p).completes t := by
    rw [hl]
    rintro ⟨⟩
  have hkeep : ∀ {r : Shared T × Pc T}, (∃ q, (s.loc q).completes t) →
      ∃ q, ((s.move p r).loc q).completes t := fun hc =>
    exists_move hc fun hc => (hC hc).elim
  cases q with
  | setPartner =>
    have hW : ¬ (s.loc p).wakes t := by
      rw [hl]
      rintro ⟨⟩
    rw [WaitQueue.meet]
    refine held_modify ht (Stands.of_same (b := s.shared.tcb t) ?_ rfl rfl rfl rfl rfl rfl)
    exact h.stands.mono .inl .inl hkeep (fun hw => exists_move hw fun hc => (hW hc).elim)
      fun _ _ _ => .inl ⟨p, by rw [move_self]; exact ⟨rfl, rfl⟩⟩
  | check =>
    refine h.keep ht rfl .inl .inl (fun hc => (hC hc).elim) (by rw [hl]; rintro ⟨⟩) fun ha => ?_
    rw [hl] at ha
    rw [WaitQueue.meet]
    by_cases hacc : (s.shared.tcb t).accepts p = true
    · rw [if_pos hacc]
      exact .inl rfl
    · refine .inr (.inr fun hr hk => ?_)
      by_contra hw
      exact hacc (h.accepts hk hr hw ha.2)
  | swap =>
    rw [WaitQueue.meet]
    by_cases hrecv : (s.shared.tcb t).receiveWait = true
    · rw [if_pos hrecv]
      refine held_modify ht (Stands.unwait (b := s.shared.tcb t) ?_ (exists_self rfl))
      exact h.stands.woken hkeep (exists_self rfl)
    · rw [if_neg hrecv]
      refine h.keep ht rfl .inl .inl (fun hc => (hC hc).elim) (by rw [hl]; rintro ⟨⟩)
        fun _ => .inr (.inr fun hr hk => ?_)
      have hst := h.stands
      rw [hk] at hst
      exact (hst.2 hr).2.resolve_right fun hc => hrecv hc.1
  | deliver =>
    rw [WaitQueue.meet]
    by_cases hi : irq p = true
    · rw [if_pos hi]
      refine h.keep ht (by simp only [tcb_modify_of_ne ht]) .inl .inl (fun hc => (hC hc).elim)
        (fun _ => rfl) ?_
      rw [hl]
      rintro ⟨⟩
    · rw [if_neg hi]
      refine held_touch (b := { s.shared.tcb t with receiveInProgress := false }) ht rfl
        (by rw [tcb_modify_of_ne ht, tcb_modify_self]) ?_
      refine Stands.of_same (b := s.shared.tcb t) ?_ rfl rfl rfl rfl rfl rfl
      exact h.stands.woken hkeep (exists_self rfl)
  | activate =>
    rw [WaitQueue.meet]
    by_cases hi : irq p = true
    · simp only [if_pos hi]
      exact held_modify ht (h.stands.ready rfl (by rintro ⟨⟩) id (by rintro ⟨⟩))
    · simp only [if_neg hi]
      exact held_modify ht (h.stands.ready rfl (fun hw => ⟨hw, id⟩) id fun _ hc => hkeep hc)

theorem Fine.abort : Held (s.move p (exec bits irq p s.shared c (.abort t))) t := by
  rw [WaitQueue.exec]
  by_cases hi : irq t = true
  · rw [if_pos hi]
    exact held_touch ht rfl rfl (h.stands.of_irq (h.irq hi).1 rfl rfl rfl rfl)
  · rw [if_neg hi]
    exact held_modify ht (h.stands.ready rfl (by rintro ⟨⟩) id (by rintro ⟨⟩))

theorem Fine.wakeReceiver (hl : s.loc p = .wakeReceiver t) :
    Held (s.move p (exec bits irq p s.shared c (.wakeReceiver t))) t := by
  rw [WaitQueue.exec]
  refine held_modify ht (h.stands.ready rfl (fun hw => ⟨hw, id⟩) id fun _ hc => exists_move hc ?_)
  rw [hl]
  rintro ⟨⟩

theorem Fine.bumpWake {gen : ℕ} (hl : s.loc p = .bumpWake gen t) :
    Held (s.move p (exec bits irq p s.shared c (.bumpWake gen t))) t := by
  rw [WaitQueue.exec]
  by_cases hb : ((s.shared.tcb t).receiveWait && !(s.shared.tcb t).ready &&
      !(s.shared.tcb t).cancel) = true
  · rw [if_pos hb]
    simp only [Bool.and_eq_true, Bool.not_eq_eq_eq_not, Bool.not_true] at hb
    exact held_modify ht (h.stands.cancel hb.1.1 hb.1.2)
  · rw [if_neg hb]
    simp only [Bool.and_eq_true, Bool.not_eq_eq_eq_not, Bool.not_true] at hb
    refine h.keep ht rfl .inl .inl (by rw [hl]; rintro ⟨⟩) (by rw [hl]; rintro ⟨⟩)
      fun _ => .inr (.inr fun hr hk => ?_)
    have hst := h.stands
    rw [hk] at hst
    obtain ⟨hc, hw⟩ := hst.2 hr
    exact hw.resolve_right fun hw => hb ⟨⟨hw.1, hr⟩, hc⟩

end

theorem Inv.other (h : Inv irq s) (ht : t ≠ p) (htime : Timely s (.move p c)) :
    Held (s.move p (exec bits irq p s.shared c (s.loc p))) t := by
  by_cases hn : (s.loc p).names = some t
  · have hf := h.fine t
    have hok := htime.2
    cases hl : s.loc p with
    | serve e q =>
      rw [hl] at hn hok
      cases hn
      exact hf.serve ht hl fun hq => hok _ (by rw [hq])
    | meet r q =>
      rw [hl] at hn
      cases hn
      exact hf.meet ht hl
    | abort e =>
      rw [hl] at hn
      cases hn
      exact hf.abort ht
    | wakeReceiver r =>
      rw [hl] at hn
      cases hn
      exact hf.wakeReceiver ht hl
    | bumpWake gen r =>
      rw [hl] at hn
      cases hn
      exact hf.bumpWake ht hl
    | _ =>
      rw [hl] at hn
      cases hn
  · exact h.unnamed ht htime.1 hn

end Others

section Own

def Pc.ofReceiver : Pc T → Bool
  | .check _ | .dequeueSender | .resetPoi | .enqueueReceiver | .armReceive | .leaveReceive | .block
  | .receiverAsleep | .wake _ | .abortReceive | .abortDequeue => true
  | _ => false

def Pc.ofSender : Pc T → Bool
  | .dequeueReceiver | .prepareSend | .enqueueSender | .elsewhere _ | .senderBlock | .armSend
  | .zeroSend | .test | .senderAsleep | .leave _ | .fail | .replyTest | .replyAsleep => true
  | _ => false

def Pc.ofLoop : Pc T → Bool
  | .drainSenders | .drainReceivers | .bumpInc | .bumpTest _ | .bumpDrain _ | .bumpRead _ => true
  | _ => false

theorem held_own (hst : Stood (s.move t r) t r.1 (r.1.tcb t) r.2.kind) : Held (s.move t r) t := by
  rw [Held, move_self]
  exact hst

theorem held_quiet (hn : (s.loc t).names = none) (hst : Stood s t r.1 (r.1.tcb t) r.2.kind) :
    Held (s.move t r) t := by
  obtain ⟨hC, hW, hA⟩ := not_names (t := t) (l := s.loc t) (by rw [hn]; exact nofun)
  refine held_own (hst.mono .inl .inl (fun hc => exists_move hc fun hc => (hC hc).elim)
    (fun hw => exists_move hw fun hw => (hW hw).elim) fun _ _ ha => .inl ?_)
  exact exists_move ha fun ha => (hA _ _ ha).elim

theorem stood_write {g' : Shared T} (hb : g'.tcb t = g.tcb t) (h : Stood s t g' (f (g.tcb t)) k) :
    Stood s t (g'.modify t f) ((g'.modify t f).tcb t) k := by
  rw [tcb_modify_self, hb]
  exact h

omit [DecidableEq T] in
theorem stood_same {g' : Shared T} (hb : g'.tcb = g.tcb) (h : Stood s t g' (g.tcb t) k) :
    Stood s t g' (g'.tcb t) k := by
  rw [hb]
  exact h

theorem idle_stands (irq : T → Bool) (c : Choice) (h : Stood s t g (g.tcb t) .plain) :
    Stood s t (start irq t g c).1 ((start irq t g c).1.tcb t) (start irq t g c).2.kind := by
  rw [start]
  split_ifs
  · exact h
  · exact stood_write rfl h
  · exact h
  · cases c.op with
    | receive gen => exact stood_write rfl ⟨h.1, h.2, rfl⟩
    | send haveRecv => exact stood_write rfl h
    | destroy | bump => exact h

theorem receiver_stands (hs : OneSided g) (h : Stood s t g (g.tcb t) l.kind)
    (hk : l.ofReceiver = true) : Stood s t (exec bits irq t g c l).1
      ((exec bits irq t g c l).1.tcb t) (exec bits irq t g c l).2.kind := by
  cases l with
  | check d =>
    rw [exec]
    split_ifs
    · exact stood_write rfl h
    · exact ⟨h.1, h.2.1⟩
  | dequeueSender =>
    rw [exec, proceed]
    refine stood_same (tcb_dequeueSender g) ?_
    cases g.dequeueSender.1 with
    | some e => exact ⟨h.1, h.2.1⟩
    | none => exact h
  | enqueueReceiver =>
    have htcb := tcb_enqueueReceiver g t c.prio
    have hself := hs.enqueueReceiver_self t c.prio
    rw [exec]
    split <;> rename_i heq <;> rw [heq] at htcb hself
    · exact stood_same htcb ⟨h.1, h.2.1⟩
    · exact stood_write (congrFun htcb t) ⟨h.1, h.2.1, h.2.2, hself rfl⟩
  | armReceive =>
    rw [exec]
    split
    · exact ⟨h.1, h.2.1⟩
    · exact stood_write rfl h
    · exact h
  | leaveReceive | resetPoi => exact stood_write rfl h
  | block =>
    -- the receiver is still in the queue, so it may go to sleep
    exact stood_write rfl ⟨h.1, fun _ => ⟨h.2.2.1, .inr ⟨rfl, .inl h.2.2.2⟩⟩⟩
  | receiverAsleep =>
    rw [exec]
    by_cases hr : (g.tcb t).ready = true
    · simp only [hr, if_true]
      exact ⟨h.1, fun _ => hr⟩
    · simp only [hr]
      exact h
  | wake a => cases a <;> exact stood_write rfl h
  | abortReceive => exact stood_write rfl ⟨rfl, by rintro ⟨⟩⟩
  | abortDequeue => exact h
  | _ => cases hk

theorem sender_stands (hs : OneSided g) (hf : (g.tcb t).sendInProgress = true → ∃ q, (s.loc q).transfers t)
    (h : Stood s t g (g.tcb t) l.kind) (hk : l.ofSender = true) :
    Stood s t (exec bits irq t g c l).1 ((exec bits irq t g c l).1.tcb t)
      (exec bits irq t g c l).2.kind := by
  cases l with
  | dequeueReceiver =>
    rw [exec, proceed]
    refine stood_same (tcb_dequeueReceiver g) ?_
    cases g.dequeueReceiver.1 <;> exact h
  | prepareSend =>
    refine stood_write rfl ?_
    split_ifs <;> exact h
  | enqueueSender =>
    have hself := hs.enqueueSender_self t c.prio
    rw [exec, proceed]
    refine stood_same (tcb_enqueueSender g t c.prio) ?_
    cases he : (g.enqueueSender t c.prio).1 with
    | some e => exact h
    | none =>
      by_cases hi : irq t = true
      · simp only [if_pos hi]
        exact h
      · simp only [if_neg hi]
        exact ⟨h.1, hself he⟩
  | elsewhere r =>
    rw [exec]
    split_ifs <;> exact h
  | senderBlock => exact stood_write rfl ⟨fun _ _ => .inl h.2, by simp⟩
  | armSend =>
    rw [exec]
    split
    · exact stood_write rfl ⟨rfl, by rintro ⟨⟩⟩
    · exact stood_write rfl h
    · exact h
  | zeroSend => exact h
  | test =>
    simp only [exec]
    by_cases hb : ((g.tcb t).sendWait && !(g.tcb t).aborted || (g.tcb t).sendInProgress) = true
    · rw [if_pos hb]
      refine stood_write rfl ⟨h.1, fun _ => ?_⟩
      rcases Bool.or_eq_true _ _ ▸ hb with hb | hb
      · simp only [Bool.and_eq_true, Bool.not_eq_eq_eq_not, Bool.not_true] at hb
        exact .inr hb
      · -- the wait goes on until the transfer is over
        obtain ⟨q, hq⟩ := hf hb
        exact .inl ⟨q, hq.completes⟩
    · rw [if_neg hb]
      cases hw : ((g.tcb t).sendWait || (g.tcb t).aborted) with
      | true => exact stood_write rfl trivial
      | false =>
        have hs : (g.tcb t).sendWait = false := (Bool.or_eq_false_iff.mp hw).1
        exact stood_write rfl ⟨hs, h.2 hs⟩
  | senderAsleep =>
    rw [exec]
    by_cases hr : (g.tcb t).ready = true
    · rw [if_pos hr]
      exact ⟨h.1, fun _ => hr⟩
    · rw [if_neg hr]
      exact h
  | leave a =>
    rw [exec]
    cases a with
    | true => trivial
    | false =>
      simp only [Bool.false_eq_true, if_false]
      split_ifs
      · exact h.1
      · exact ⟨h.1, fun _ => h.2⟩
  | fail => exact stood_write rfl ⟨rfl, by rintro ⟨⟩⟩
  | replyTest =>
    simp only [exec]
    split_ifs with ha hr
    · trivial
    · exact stood_write rfl h
    · simp only [Bool.or_eq_true, not_or] at hr
      exact ⟨h, fun hc => (hr.1 hc).elim⟩
  | replyAsleep =>
    rw [exec]
    by_cases hr : (g.tcb t).ready = true
    · rw [if_pos hr]
      exact ⟨h, fun _ => hr⟩
    · rw [if_neg hr]
      exact h
  | _ => cases hk

theorem loop_stands (h : Stood s t g (g.tcb t) l.kind) (hk : l.ofLoop = true) :
    Stood s t (exec bits irq t g c l).1 ((exec bits irq t g c l).1.tcb t)
      (exec bits irq t g c l).2.kind := by
  cases l with
  | drainSenders =>
    have htcb := tcb_dequeueSender g
    rw [exec]
    split <;> rename_i heq <;> rw [heq] at htcb <;> exact stood_same htcb h
  | drainReceivers =>
    have htcb := tcb_dequeueReceiver g
    rw [exec]
    split <;> rename_i heq <;> rw [heq] at htcb <;> exact stood_same htcb h
  | bumpInc | bumpRead gen => exact h
  | bumpTest gen =>
    rw [exec]
    split_ifs <;> exact h
  | bumpDrain gen =>
    rw [exec, proceed]
    refine stood_same (tcb_dequeueReceiver g) ?_
    cases g.dequeueReceiver.1 <;> exact h
  | _ => cases hk

/-! In the steps that concern another thread, which may be the thread itself, it has nobody to wait
for. -/

theorem stood_other {s' : State T} (h : Stood s' t g (g.tcb t) k)
    (he : t = e → Stood s' t g (f (g.tcb t)) k) :
    Stood s' t (g.modify e f) ((g.modify e f).tcb t) k := by
  by_cases ht : t = e
  · subst ht
    exact stood_write rfl (he rfl)
  · rw [tcb_modify_of_ne ht]
    exact h

theorem serve_stands {q : Serve} {s' : State T} (h : Stood s t g (g.tcb t) .plain) :
    Stood s' t (serve irq t e g c q).1 ((serve irq t e g c q).1.tcb t) (serve irq t e g c q).2.kind := by
  cases q with
  | prepare | addProgress => exact stood_write rfl h
  | mark =>
    rw [serve]
    split_ifs <;> exact stood_other h fun _ => h
  | transfer => exact h
  | complete ok =>
    refine stood_other h fun _ => ?_
    cases ok with
    | true => exact ⟨rfl, fun _ => rfl⟩
    | false => exact ⟨h.1, fun _ => rfl⟩

theorem meet_stands {q : Meet} {s' : State T} (h : Stood s t g (g.tcb t) (Pc.meet e q).kind)
    (hi : irq t = true → (g.tcb t).prepared = false) :
    Stood s' t (meet irq t e g q).1 ((meet irq t e g q).1.tcb t) (meet irq t e g q).2.kind := by
  cases q with
  | setPartner => exact stood_other h fun _ => h
  | check =>
    rw [meet]
    split_ifs <;> exact h
  | swap =>
    rw [meet]
    split_ifs
    · exact stood_other h fun _ => ⟨h.1, by simp⟩
    · exact h
  | deliver =>
    rw [meet]
    split_ifs
    · exact stood_write rfl ⟨h.1, fun _ => h.2⟩
    · generalize g.modify e _ = g'
      exact stood_write rfl ⟨rfl, fun hp hw => absurd (hp.symm.trans hw) (by simp)⟩
  | activate =>
    rw [meet]
    by_cases hp : (g.tcb t).prepared = true
    · simp only [if_pos hp]
      refine stood_other h.1 fun _ => ?_
      split_ifs with hc
      · exact absurd ((hi hc).symm.trans hp) (by simp)
      · exact h.1
    · simp only [if_neg hp]
      rw [Bool.not_eq_true] at hp
      refine stood_other ⟨h.1, h.2 hp⟩ fun _ => ?_
      split_ifs
      · exact ⟨rfl, fun _ => rfl⟩
      · exact ⟨h.1, fun _ => rfl⟩

theorem Inv.self (h : Inv irq s) : Held (s.move t (exec bits irq t s.shared c (s.loc t))) t := by
  have hf := h.fine t
  have hst : Stood s t s.shared (s.shared.tcb t) (s.loc t).kind := hf.stands
  cases hl : s.loc t with
  | idle =>
    rw [hl] at hst
    exact held_quiet (by rw [hl]; rfl) (idle_stands irq c hst)
  | serve e q =>
    rw [hl] at hst
    exact held_own (serve_stands hst)
  | meet e q =>
    rw [hl] at hst
    exact held_own (meet_stands hst fun hi => (hf.irq hi).2)
  | abort e =>
    rw [hl] at hst
    refine held_own ?_
    rw [exec]
    split_ifs
    · exact hst
    · exact stood_other hst fun _ => ⟨rfl, fun _ => rfl⟩
  | wakeReceiver e =>
    rw [hl] at hst
    exact held_own (stood_other hst fun _ => ⟨hst.1, fun _ => rfl⟩)
  | bumpWake gen e =>
    rw [hl] at hst
    refine held_own ?_
    rw [exec]
    split_ifs
    · exact stood_other hst fun _ => ⟨hst.1, by simp⟩
    · exact hst
  | delMask => exact held_own (stood_write rfl ⟨rfl, by rintro ⟨⟩⟩)
  | _ =>
    refine held_quiet (by rw [hl]; rfl) ?_
    rw [hl] at hst
    first
      | exact receiver_stands h.sides hst rfl
      | exact sender_stands h.sides hf.sends hst rfl
      | exact loop_stands hst rfl

end Own

section Acts

variable {u : T}

omit [DecidableEq T] in
theorem asleep_spec (h : l.asleep = true) : l.names = none ∧ l.receives = false ∧
      (l.kind = .listening ∨ l.kind = .sending ∨ l.kind = .reply) := by
  cases l with
  | receiverAsleep => exact ⟨rfl, rfl, .inl rfl⟩
  | senderAsleep => exact ⟨rfl, rfl, .inr (.inl rfl)⟩
  | replyAsleep => exact ⟨rfl, rfl, .inr (.inr rfl)⟩
  | _ => cases h

theorem Fine.act (h : Fine irq s u) (hst : Held (s.move t r) u)
    (hl : r.2 = s.loc t ∨ (s.loc t).asleep = true ∧ r.2 = .idle)
    (hsend : (r.1.tcb u).sendInProgress = true → (s.shared.tcb u).sendInProgress = true)
    (hreceive : (r.1.tcb u).receiveInProgress = true → (s.shared.tcb u).receiveInProgress = true)
    (hprep : (r.1.tcb u).prepared = (s.shared.tcb u).prepared) : Fine irq (s.move t r) u := by
  have hkind : ((s.move t r).loc u).kind = (s.loc u).kind ∨ ((s.move t r).loc u).kind = .plain := by
    by_cases hu : u = t
    · subst hu
      rw [move_self]
      rcases hl with hl | ⟨-, hl⟩ <;> rw [hl]
      · exact .inl rfl
      · exact .inr rfl
    · rw [move_of_ne hu]
      exact .inl rfl
  have hno : (s.loc t).asleep = true → (s.loc t).names ≠ some u := by
    intro ha
    rw [(asleep_spec ha).1]
    exact nofun
  refine h.flags hst (fun hp => ?_) (fun hp => ?_) fun hi => ⟨?_, hprep.trans (h.irq hi).2⟩
  · rcases hl with hl | ⟨ha, -⟩
    · rw [hl]
      by_cases ht : (s.loc t).transfers u
      · exact .inl ht
      · exact .inr ⟨hsend hp, ht⟩
    · exact .inr ⟨hsend hp, fun ht => (not_names (hno ha)).1 ht.completes⟩
  · rcases hl with hl | ⟨ha, -⟩
    · rw [hl]
      by_cases hd : (s.loc t).delivers u
      · exact .inl hd
      · by_cases hr : u = t ∧ (s.loc t).receives = true
        · exact .inr (.inl hr)
        · exact .inr (.inr ⟨hreceive hp, hd, fun hu => Bool.eq_false_iff.mpr fun hc => hr ⟨hu, hc⟩⟩)
    · exact .inr (.inr ⟨hreceive hp, fun hd => (not_names (hno ha)).2.1 hd.wakes,
        fun _ => (asleep_spec ha).2.1⟩)
  · exact hkind.elim (fun hk => by rw [hk]; exact (h.irq hi).1) .inl

theorem Fine.outside (h : Fine irq s u) (hu : u ≠ t)
    (hq : ∀ r, s.shared.has ⟨u, r⟩ → g.has ⟨u, r⟩) (htcb : g.tcb u = s.shared.tcb u)
    (hl : l = s.loc t ∨ (s.loc t).asleep = true ∧ l = .idle) : Fine irq (s.move t (g, l)) u := by
  refine h.act ?_ hl (by simp only [htcb, imp_self]) (by simp only [htcb, imp_self])
    (by simp only [htcb])
  rcases hl with rfl | ⟨ha, -⟩
  · exact h.keep hu htcb (fun hb => .inl (hq _ hb)) (fun hb => .inl (hq _ hb)) id id .inl
  · obtain ⟨hC, hW, hA⟩ := not_names (t := u) (l := s.loc t) (by rw [(asleep_spec ha).1]; exact nofun)
    exact h.keep hu htcb (fun hb => .inl (hq _ hb)) (fun hb => .inl (hq _ hb))
      (fun hc => (hC hc).elim) (fun hw => (hW hw).elim) fun ha => (hA _ _ ha).elim

theorem Fine.outsideModify (h : Fine irq s u) (hu : u ≠ t) :
    Fine irq (s.move t (s.shared.modify t f, s.loc t)) u :=
  h.outside hu (fun _ => id) (tcb_modify_of_ne hu f) (.inl rfl)

theorem Fine.aborted (h : Fine irq s t) (ha : (s.loc t).asleep = true)
    (hready : (f (s.shared.tcb t)).ready = true) (haborted : (f (s.shared.tcb t)).aborted = true)
    (hwait : (f (s.shared.tcb t)).sendWait = (s.shared.tcb t).sendWait) :
    Held (s.move t (s.shared.modify t f, s.loc t)) t := by
  obtain ⟨hn, -, hcases⟩ := asleep_spec ha
  refine held_quiet hn (stood_write rfl ?_)
  have hst := h.stands
  have hno : (f (s.shared.tcb t)).aborted = false → False := by
    rw [haborted]
    exact nofun
  have hnr : (f (s.shared.tcb t)).ready = false → False := by
    rw [hready]
    exact nofun
  rcases hcases with hk | hk | hk <;> rw [hk] at hst ⊢
  · exact ⟨hwait.trans hst.1, fun hc => (hnr hc).elim⟩
  · exact ⟨fun _ hc => (hno hc).elim, fun hc => (hnr hc).elim⟩
  · exact hwait.trans hst

theorem Inv.step (h : Inv irq s) {a : Act T} (ha : Timely s a) : Inv irq (step bits irq s a) := by
  refine ⟨oneSided_step h.sides bits irq a, fun u => ?_⟩
  have hf := h.fine u
  cases a with
  | move t c =>
    refine hf.own ha.2 ?_
    by_cases hu : u = t
    · subst hu
      exact h.self
    · exact h.other hu ha
  | timeout t =>
    rw [WaitQueue.step]
    split_ifs with hc
    · by_cases hu : u = t
      · subst hu
        refine hf.act (hf.aborted (Bool.and_eq_true _ _ ▸ hc).1 rfl (Bool.or_true _) rfl) (.inl rfl) ?_ ?_ ?_ <;>
          rw [tcb_modify_self] <;> exact id
      · exact hf.outsideModify hu
    · exact hf
  | cancel t =>
    rw [WaitQueue.step]
    split_ifs with hc
    · by_cases hu : u = t
      · subst hu
        refine hf.act (hf.aborted hc rfl (by simp [aborted]) rfl) (.inl rfl) ?_ ?_ ?_ <;>
          rw [tcb_modify_self] <;> exact id
      · exact hf.outsideModify hu
    · exact hf
  | reply t =>
    rw [WaitQueue.step]
    split_ifs with hc
    · by_cases hu : u = t
      · subst hu
        refine hf.act (held_own (stood_write rfl ?_)) (.inl rfl) ?_ ?_ ?_
        · have hloc : (s.move u (s.shared.modify u fun b => { b with receiveWait := false, ready := true },
              s.loc u)).loc = s.loc := Function.update_eq_self ..
          rw [Stood, hloc]
          exact hf.stands.ready rfl (fun hw => ⟨hw, id⟩) id fun _ => id
        all_goals rw [tcb_modify_self]
        · exact id
        · exact id
      · exact hf.outsideModify hu
    · exact hf
  | kill t =>
    rw [WaitQueue.step]
    split_ifs with hi hc
    · by_cases hu : u = t
      · subst hu
        refine hf.act (held_own ?_) (.inl rfl) id id rfl
        have hst := hf.stands
        rcases (hf.irq hi).1 with hk | hk <;> rw [hk] at hst ⊢ <;> exact hst
      · exact hf.outside hu (fun _ hq => has_dequeue hq hu) rfl (.inl rfl)
    · by_cases hu : u = t
      · subst hu
        refine hf.act (held_own (stood_write rfl ⟨rfl, by rintro ⟨⟩⟩)) (.inr ⟨hc, rfl⟩) ?_ ?_ ?_ <;>
          rw [tcb_modify_self]
        · rintro ⟨⟩
        · rintro ⟨⟩
        · rfl
      · exact hf.outside hu (fun _ hq => has_dequeue hq hu) (tcb_modify_of_ne hu _) (.inr ⟨hc, rfl⟩)
    · exact hf

omit [DecidableEq T] in
theorem inv_boot (irq : T → Bool) : Inv irq (boot : State T) := by
  refine ⟨nofun, fun t => ⟨⟨rfl, nofun⟩, nofun, nofun, fun _ => ⟨.inl rfl, rfl⟩⟩⟩

end Acts

end Fiasco.WaitQueue
