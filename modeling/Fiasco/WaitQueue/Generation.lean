import Fiasco.WaitQueue.Destroy

/-!
# Generations of a wait queue

`sys_bump_generation` increments the generation and then takes the receivers out, so that who has
blocked with an older generation does not wait any longer. The test of the generation in
`do_receive` is not under the lock of the queue, and what is returned is in one of two paths read
again in the end.
-/

namespace Fiasco.WaitQueue

open List (replicate)
open Machine (run)
open Interleaving.System
open scoped Machine PrioList

variable {T : Type} [DecidableEq T]

section

variable (bits : ℕ) (s : State T)

def Blocked (t : T) : Prop :=
  s.loc t = .receiverAsleep ∧ (s.shared.tcb t).ready = false ∧
    (s.shared.has ⟨t, .receiver⟩ ∨ ∀ p, (s.loc p).names ≠ some t)

/-- In the bits that are compared, the descriptor of the receiver is not of a generation since
`gen`. -/
def Stale (t : T) (gen : ℕ) : Prop :=
  ∀ m, gen ≤ m → m ≤ s.shared.generation → (s.shared.tcb t).seen % 2 ^ bits ≠ m % 2 ^ bits

/-- No receiver of a generation before one that has been returned is blocked. -/
def Current : Prop :=
  ∀ gen ∈ s.shared.returned, ∀ t, Blocked s t → ¬ Stale bits s t gen

def Pc.reads : Pc T → Bool
  | .bumpRead _ => true
  | _ => false

def Steady (t : T) : Pc T → Prop
  | .enqueueReceiver => s.shared.hasSenders = false ∨ s.shared.waitQ = [] →
      (s.shared.tcb t).seen % 2 ^ bits = s.shared.generation % 2 ^ bits
  | .bumpInc => ∀ p, (s.loc p).reads = false
  | _ => True

/-- The transfers have to succeed for the receivers as well, see `failedTransfer`. -/
def Ordered (a : Act T) : Prop :=
  Timely s a ∧ match a with
    | .move t _ => Steady bits s t (s.loc t)
    | _ => True

def Pc.bumps (gen : ℕ) : Pc T → Prop
  | .bumpTest k | .bumpDrain k | .bumpWake k _ => k = gen
  | _ => False

def Tcb.stamp (b : Tcb T) : ℕ × ℕ :=
  (b.seen, b.entered)

def Listens (t : T) : Prop :=
  (s.loc t).zone = .waiting ∧ s.shared.has ⟨t, .receiver⟩

end

structure Fresh (bits : ℕ) (s : State T) : Prop where
  entered : ∀ t, (s.loc t).zone = .waiting →
    (s.shared.tcb t).seen % 2 ^ bits = (s.shared.tcb t).entered % 2 ^ bits ∧
      (s.shared.tcb t).entered ≤ s.shared.generation
  made : ∀ p gen, (s.loc p).bumps gen → gen ≤ s.shared.generation
  chased : ∀ t, Listens s t → ∀ gen, (s.shared.tcb t).entered < gen → gen ≤ s.shared.generation →
    ∃ p, (s.loc p).bumps gen
  read : ∀ p gen, s.loc p = .bumpRead gen → ∀ t, Listens s t →
    (s.shared.tcb t).entered = s.shared.generation
  returned : ∀ gen ∈ s.shared.returned, gen ≤ s.shared.generation ∧
    ∀ t, Listens s t → gen ≤ (s.shared.tcb t).entered

section Effects

variable (bits : ℕ) (irq : T → Bool) {g : Shared T} {p t : T} {c : Choice} {l : Pc T} {n : ℕ}
  {f : Tcb T → Tcb T}

theorem stamp_modify (h : ∀ b, (f b).stamp = b.stamp) :
    ((g.modify p f).tcb t).stamp = (g.tcb t).stamp := by
  by_cases ht : t = p
  · rw [ht, tcb_modify_self, h]
  · rw [tcb_modify_of_ne ht]

theorem stamp_exec (h : t ≠ p ∨ (∀ d, l ≠ .check d) ∧ l ≠ .enqueueReceiver) :
    ((exec bits irq p g c l).1.tcb t).stamp = (g.tcb t).stamp := by
  cases l with
  | serve e q => cases q <;> grind [exec, serve, tcb_modify, Tcb.stamp, Tcb.delIpc]
  | meet e q => cases q <;> grind [exec, meet, tcb_modify, Tcb.stamp, Tcb.delIpc]
  | _ => grind [exec, start, proceed, tcb_modify, Tcb.stamp, Tcb.delIpc, Tcb.delFull]

section

omit [DecidableEq T]

theorem OneSided.not_listening (h : OneSided g) (hq : g.waitQ = [] ∨ g.hasSenders = true) :
    ¬ g.has ⟨t, .receiver⟩ := by
  rintro ⟨a, ha, he⟩
  rcases hq with hq | hs
  · rw [hq] at ha
    cases ha
  · have hr := h a ha
    rw [he, Shared.side, if_pos hs] at hr
    cases hr

theorem dequeueReceiver_none (h : g.dequeueReceiver.1 = none) :
    g.waitQ = [] ∨ g.hasSenders = true := by
  rw [Shared.dequeueReceiver] at h
  split_ifs at h with hs
  · exact .inr hs
  · exact .inl (dequeueFirst_none h)

end

theorem enqueueReceiver_none {prio : Prio} (h : (g.enqueueReceiver t prio).1 = none) :
    g.hasSenders = false ∨ g.waitQ = [] := by
  rw [Shared.enqueueReceiver] at h
  split_ifs at h with hc
  · exact .inr (dequeueFirst_none h)
  · simpa [or_iff_not_imp_left] using hc

theorem bumping_exec (h : (exec bits irq p g c l).2.zone = .bumping) :
    l.zone = .bumping ∨ l = .bumpInc := by
  rcases zone_exec bits irq (g := g) (p := p) (c := c) (l := l) with
    ho | ho | ⟨-, -, ho⟩ | ⟨-, -, ho⟩ | ho
  · exact absurd (ho.symm.trans h) nofun
  · exact .inl (ho.symm.trans h)
  · exact absurd (ho.symm.trans h) nofun
  · exact absurd (ho.symm.trans h) nofun
  · exact .inr ho

theorem bumps_of_exec (h : (exec bits irq p g c l).2.bumps n) :
    l.bumps n ∨ l = .bumpInc ∧ n = g.generation + 1 := by
  have hz : (exec bits irq p g c l).2.zone = .bumping := by
    generalize (exec bits irq p g c l).2 = m at h
    cases m <;> first | rfl | cases h
  rcases bumping_exec bits irq hz with hl | rfl
  · refine .inl ?_
    cases l with
    | bumpTest k =>
      rw [exec] at h
      split_ifs at h
      · cases h
      · exact h
    | bumpDrain k =>
      rw [exec, proceed] at h
      split at h
      · exact h
      · cases h
    | bumpWake k r => exact h
    | bumpRead k => cases h
    | _ => cases hl
  · exact .inr ⟨rfl, h.symm⟩

theorem bumps_exec (h : l.bumps n) :
    (exec bits irq p g c l).2.bumps n ∨ g.waitQ = [] ∨ g.hasSenders = true := by
  cases l with
  | bumpTest k =>
    rw [exec]
    split_ifs with hc
    · simp only [Bool.or_eq_true, List.isEmpty_iff] at hc
      exact .inr hc
    · exact .inl h
  | bumpDrain k =>
    rw [exec, proceed]
    cases hd : g.dequeueReceiver.1 with
    | some e => exact .inl h
    | none => exact .inr (dequeueReceiver_none hd)
  | bumpWake k r => exact .inl h
  | _ => cases h

theorem bumpRead_of_exec (h : (exec bits irq p g c l).2 = .bumpRead n) :
    l = .bumpDrain n ∧ (g.waitQ = [] ∨ g.hasSenders = true) := by
  rcases bumping_exec bits irq (by rw [h]; rfl) with hl | rfl
  · cases l with
    | bumpTest k => rw [exec] at h; split_ifs at h
    | bumpDrain k =>
      rw [exec, proceed] at h
      cases hd : g.dequeueReceiver.1 with
      | some e =>
        rw [hd] at h
        cases h
      | none =>
        rw [hd] at h
        cases h
        exact ⟨rfl, dequeueReceiver_none hd⟩
    | bumpWake k r | bumpRead k => cases h
    | _ => cases hl
  · cases h

theorem generation_exec :
    l ≠ .bumpInc ∧ (exec bits irq p g c l).1.generation = g.generation ∨
      l = .bumpInc ∧ (exec bits irq p g c l).1.generation = g.generation + 1 ∧
        (exec bits irq p g c l).2.bumps (g.generation + 1) := by
  cases hr : l.records with
  | false =>
    refine .inl ⟨fun hl => ?_, congrArg (fun r => r.2.2.1) (record_exec bits irq hr)⟩
    rw [hl] at hr
    cases hr
  | true =>
    cases l with
    | drainSenders =>
      have h := congrArg (fun r => r.2.2.1) (keeps_dequeueSender g).record
      rw [exec]
      split <;> rename_i heq <;> rw [heq] at h <;> exact .inl ⟨by simp, h⟩
    | drainReceivers =>
      have h := congrArg (fun r => r.2.2.1) (keeps_dequeueReceiver g).record
      rw [exec]
      split <;> rename_i heq <;> rw [heq] at h <;> exact .inl ⟨by simp, h⟩
    | bumpTest gen => rw [exec]; split_ifs <;> exact .inl ⟨by simp, rfl⟩
    | bumpInc => exact .inr ⟨rfl, rfl, rfl⟩
    | bumpRead gen => exact .inl ⟨by simp, rfl⟩
    | _ => cases hr

theorem returned_exec (h : n ∈ (exec bits irq p g c l).1.returned) :
    n ∈ g.returned ∨ l = .bumpTest n ∧ (g.waitQ = [] ∨ g.hasSenders = true) ∨
      (∃ k, l = .bumpRead k) ∧ n = g.generation := by
  cases hr : l.records with
  | false =>
    have hq : (exec bits irq p g c l).1.returned = g.returned :=
      congrArg (fun r => r.2.2.2) (record_exec bits irq hr)
    rw [hq] at h
    exact .inl h
  | true =>
    cases l with
    | drainSenders =>
      have hq : g.dequeueSender.2.returned = g.returned :=
        congrArg (fun r => r.2.2.2) (keeps_dequeueSender g).record
      rw [← hq]
      rw [exec] at h
      split at h <;> rename_i heq <;> rw [heq] <;> exact .inl h
    | drainReceivers =>
      have hq : g.dequeueReceiver.2.returned = g.returned :=
        congrArg (fun r => r.2.2.2) (keeps_dequeueReceiver g).record
      rw [← hq]
      rw [exec] at h
      split at h <;> rename_i heq <;> rw [heq] <;> exact .inl h
    | bumpTest k =>
      rw [exec] at h
      split_ifs at h with hc
      · simp only [Bool.or_eq_true, List.isEmpty_iff] at hc
        rcases List.mem_cons.mp h with rfl | h
        · exact .inr (.inl ⟨rfl, hc⟩)
        · exact .inl h
      · exact .inl h
    | bumpInc => exact .inl h
    | bumpRead k =>
      rcases List.mem_cons.mp h with rfl | h
      · exact .inr (.inr ⟨⟨k, rfl⟩, rfl⟩)
      · exact .inl h
    | _ => cases hr

end Effects

section Runs

variable {bits : ℕ} {irq : T → Bool} {s : State T} {p t : T} {c : Choice} {l : Pc T}

omit [DecidableEq T] in
theorem waiting_marks (h : l.zone = .waiting) :
    (∀ d, l ≠ .check d) ∧ l ≠ .enqueueReceiver ∧ l ≠ .enqueueSender := by
  refine ⟨?_, ?_, ?_⟩
  · rintro d rfl
    cases h
  · rintro rfl
    cases h
  · rintro rfl
    cases h

theorem waiter_exec (irq : T → Bool) (hin : Steady bits s p (s.loc p))
    (h : ((s.move p (exec bits irq p s.shared c (s.loc p))).loc t).zone = .waiting) :
    s.loc p = .enqueueReceiver ∧
        ((exec bits irq p s.shared c (s.loc p)).1.tcb t).entered = s.shared.generation ∧
        ((exec bits irq p s.shared c (s.loc p)).1.tcb t).seen % 2 ^ bits =
          s.shared.generation % 2 ^ bits ∨
      (s.loc t).zone = .waiting ∧
        ((exec bits irq p s.shared c (s.loc p)).1.tcb t).stamp = (s.shared.tcb t).stamp ∧
        ((exec bits irq p s.shared c (s.loc p)).1.has ⟨t, .receiver⟩ →
          s.shared.has ⟨t, .receiver⟩) := by
  have hhas : s.loc p ≠ .enqueueReceiver ∨ t ≠ p →
      (exec bits irq p s.shared c (s.loc p)).1.has ⟨t, .receiver⟩ →
        s.shared.has ⟨t, .receiver⟩ := by
    rintro hne ⟨a, ha, he⟩
    rcases mem_exec bits irq ha with ha | ⟨hl, ha, -⟩ | ⟨-, ha, -⟩
    · exact ⟨a, ha, he⟩
    · have ht : t = p := congrArg Item.who (he.symm.trans ha)
      exact (hne.elim (fun hc => hc hl) fun hc => hc ht).elim
    · cases he.symm.trans ha
  by_cases ht : t = p
  · subst ht
    rw [move_self] at h
    rcases zone_exec bits irq (g := s.shared) (p := t) (c := c) (l := s.loc t) with
      hz | hz | ⟨hl, hn, -⟩ | ⟨-, -, hz⟩ | hz
    · exact absurd (hz.symm.trans h) (by simp)
    · have hw := hz.symm.trans h
      obtain ⟨h1, h2, -⟩ := waiting_marks hw
      exact .inr ⟨hw, stamp_exec bits irq (.inr ⟨h1, h2⟩), hhas (.inl h2)⟩
    · refine .inl ⟨hl, ?_⟩
      rw [hl] at hin ⊢
      have hgen : (s.shared.enqueueReceiver t c.prio).2.generation = s.shared.generation :=
        congrArg (fun r => r.2.2.1) (keeps_enqueueReceiver s.shared t c.prio).record
      have htcb := congrFun (keeps_enqueueReceiver s.shared t c.prio).tcb t
      have hseen := hin (enqueueReceiver_none hn)
      rw [exec]
      split <;> rename_i heq <;> rw [heq] at hgen htcb hn
      · cases hn
      · simp only [tcb_modify_self]
        refine ⟨hgen, ?_⟩
        rw [← hseen, ← htcb]
    · exact absurd (hz.symm.trans h) (by simp)
    · rw [hz] at h
      cases h
  · rw [move_of_ne ht] at h
    exact .inr ⟨h, stamp_exec bits irq (.inl ht), hhas (.inr ht)⟩

theorem Fresh.move (h : Fresh bits s) (hside : OneSided s.shared)
    (hin : Steady bits s p (s.loc p)) :
    Fresh bits (s.move p (exec bits irq p s.shared c (s.loc p))) := by
  have hw := fun t => waiter_exec (t := t) (c := c) irq hin
  have hgen := generation_exec bits irq (g := s.shared) (p := p) (c := c) (l := s.loc p)
  have hmade := fun gen => bumps_of_exec bits irq (g := s.shared) (p := p) (c := c) (l := s.loc p)
    (n := gen)
  have hleave := fun gen => bumps_exec bits irq (g := s.shared) (p := p) (c := c) (l := s.loc p)
    (n := gen)
  have hread := fun gen => bumpRead_of_exec bits irq (g := s.shared) (p := p) (c := c)
    (l := s.loc p) (n := gen)
  have hret := fun gen => returned_exec bits irq (g := s.shared) (p := p) (c := c) (l := s.loc p)
    (n := gen)
  generalize exec bits irq p s.shared c (s.loc p) = r at hw hgen hmade hleave hread hret ⊢
  have hle : s.shared.generation ≤ r.1.generation := by
    rcases hgen with ⟨-, hg⟩ | ⟨-, hg, -⟩ <;> omega
  have hsame : s.loc p ≠ .bumpInc → r.1.generation = s.shared.generation :=
    fun hne => (hgen.resolve_right fun hc => hne hc.1).2
  -- a receiver in the queue has entered just now, or it was there with the same marks
  have hlisten : ∀ t, Listens (s.move p r) t →
      s.loc p = .enqueueReceiver ∧ (r.1.tcb t).entered = r.1.generation ∨
        Listens s t ∧ (r.1.tcb t).entered = (s.shared.tcb t).entered := by
    rintro t ⟨hz, hq⟩
    rcases hw t hz with ⟨hl, he, -⟩ | ⟨hz, hst, hq'⟩
    · exact .inl ⟨hl, he.trans (hsame (by rw [hl]; exact nofun)).symm⟩
    · exact .inr ⟨⟨hz, hq' hq⟩, congrArg Prod.snd hst⟩
  have hnone : ∀ t, s.shared.waitQ = [] ∨ s.shared.hasSenders = true → ¬ Listens s t :=
    fun t hq ht => hside.not_listening hq ht.2
  refine ⟨fun t hz => ?_, fun q gen hb => ?_, fun t ht gen h1 h2 => ?_, fun q gen hb t ht => ?_,
    fun gen hr => ?_⟩
  · rcases hw t hz with ⟨-, he, hs⟩ | ⟨hz, hst, -⟩
    · exact ⟨hs.trans (congrArg (· % 2 ^ bits) he.symm), he.le.trans hle⟩
    · obtain ⟨h1, h2⟩ := h.entered t hz
      have hs : (r.1.tcb t).seen = (s.shared.tcb t).seen := congrArg Prod.fst hst
      have he : (r.1.tcb t).entered = (s.shared.tcb t).entered := congrArg Prod.snd hst
      refine ⟨?_, he.le.trans (h2.trans hle)⟩
      exact (congrArg (· % 2 ^ bits) hs).trans (h1.trans (congrArg (· % 2 ^ bits) he.symm))
  · by_cases hq : q = p
    · subst hq
      rw [move_self] at hb
      rcases hmade gen hb with hb | ⟨hl, rfl⟩
      · exact (h.made q gen hb).trans hle
      · exact (hgen.resolve_left fun hc => hc.1 hl).2.1.ge
    · rw [move_of_ne hq] at hb
      exact (h.made q gen hb).trans hle
  · have h2' : gen ≤ r.1.generation := h2
    rcases hlisten t ht with ⟨-, he⟩ | ⟨hold, he⟩
    · have h3 : r.1.generation < gen := he.symm.trans_lt h1
      exact absurd h2' (not_le.mpr h3)
    · by_cases hg : gen ≤ s.shared.generation
      · have h3 : (s.shared.tcb t).entered < gen := he.symm.trans_lt h1
        refine exists_move (P := fun _ l => l.bumps gen) (h.chased t hold gen h3 hg) fun hb => ?_
        exact (hleave gen hb).resolve_right fun hc => hnone t hc hold
      · -- the generation that has just been made
        obtain ⟨-, hg', hb⟩ := hgen.resolve_left fun hc => by omega
        have hgen' : gen = s.shared.generation + 1 := by omega
        exact ⟨p, by rw [move_self, hgen']; exact hb⟩
  · by_cases hq : q = p
    · subst hq
      rw [move_self] at hb
      obtain ⟨hl, hq⟩ := hread gen hb
      rcases hlisten t ht with ⟨hl', -⟩ | ⟨hold, -⟩
      · exact absurd (hl.symm.trans hl') nofun
      · exact (hnone t hq hold).elim
    · rw [move_of_ne hq] at hb
      rcases hlisten t ht with ⟨-, he⟩ | ⟨hold, he⟩
      · exact he
      · refine he.trans ((h.read q gen hb t hold).trans (hsame fun hl => ?_).symm)
        rw [hl] at hin
        exact absurd (hin q) (by rw [hb]; exact nofun)
  · rcases hret gen hr with hr | ⟨hl, hq⟩ | ⟨⟨k, hl⟩, rfl⟩
    · obtain ⟨h1, h2⟩ := h.returned gen hr
      refine ⟨h1.trans hle, fun t ht => ?_⟩
      rcases hlisten t ht with ⟨-, he⟩ | ⟨hold, he⟩
      · exact (h1.trans hle).trans he.ge
      · exact (h2 t hold).trans he.ge
    · refine ⟨(h.made p gen (by rw [hl]; rfl)).trans hle, fun t ht => ?_⟩
      rcases hlisten t ht with ⟨hl', -⟩ | ⟨hold, -⟩
      · exact absurd (hl.symm.trans hl') nofun
      · exact (hnone t hq hold).elim
    · refine ⟨hle, fun t ht => ?_⟩
      rcases hlisten t ht with ⟨hl', -⟩ | ⟨hold, he⟩
      · exact absurd (hl.symm.trans hl') nofun
      · exact (h.read p k hl t hold).ge.trans he.ge

theorem Fresh.outside {g : Shared T} (h : Fresh bits s) (hq : ∀ a ∈ g.waitQ, a ∈ s.shared.waitQ)
    (hrec : g.record = s.shared.record) (hst : ∀ t, (g.tcb t).stamp = (s.shared.tcb t).stamp)
    (hl : l = s.loc p ∨ l = .idle) (hp : ∀ n, ¬ (s.loc p).bumps n ∨ l = s.loc p) :
    Fresh bits (s.move p (g, l)) := by
  have hgen : g.generation = s.shared.generation := congrArg (fun r => r.2.2.1) hrec
  have hret : g.returned = s.shared.returned := congrArg (fun r => r.2.2.2) hrec
  have hent : ∀ t, (g.tcb t).entered = (s.shared.tcb t).entered := fun t => congrArg Prod.snd (hst t)
  have hseen : ∀ t, (g.tcb t).seen = (s.shared.tcb t).seen := fun t => congrArg Prod.fst (hst t)
  have hloc : ∀ q, (s.move p (g, l)).loc q = s.loc q ∨ (s.move p (g, l)).loc q = .idle := by
    intro q
    by_cases hqp : q = p
    · subst hqp
      rw [move_self]
      exact hl
    · exact .inl (move_of_ne hqp)
  have hzone : ∀ q, ((s.move p (g, l)).loc q).zone = .waiting → (s.loc q).zone = .waiting := by
    intro q hz
    rcases hloc q with hc | hc <;> rw [hc] at hz
    · exact hz
    · cases hz
  have hlisten : ∀ t, Listens (s.move p (g, l)) t → Listens s t := by
    rintro t ⟨hz, a, ha, he⟩
    exact ⟨hzone t hz, a, hq a ha, he⟩
  refine ⟨fun t hz => ?_, fun q n hb => ?_, fun t ht n h1 h2 => ?_, fun q n hb t ht => ?_,
    fun n hr => ?_⟩
  · change (g.tcb t).seen % 2 ^ bits = (g.tcb t).entered % 2 ^ bits ∧ (g.tcb t).entered ≤ g.generation
    rw [hent, hseen, hgen]
    exact h.entered t (hzone t hz)
  · refine (h.made q n ?_).trans hgen.ge
    rcases hloc q with hc | hc <;> rw [hc] at hb
    · exact hb
    · cases hb
  · refine exists_move (P := fun _ l => l.bumps n) (h.chased t (hlisten t ht) n ?_ ?_) fun hb => ?_
    · exact (hent t).symm.trans_lt h1
    · exact h2.trans hgen.le
    · rcases hp n with hc | hc
      · exact (hc hb).elim
      · rw [hc]
        exact hb
  · refine (hent t).trans ((h.read q n ?_ t (hlisten t ht)).trans hgen.symm)
    rcases hloc q with hc | hc <;> rw [hc] at hb
    · exact hb
    · cases hb
  · have hr' : n ∈ g.returned := hr
    rw [hret] at hr'
    obtain ⟨h1, h2⟩ := h.returned n hr'
    exact ⟨h1.trans hgen.ge, fun t ht => (h2 t (hlisten t ht)).trans (hent t).ge⟩

omit [DecidableEq T] in
theorem not_bumps_of_asleep {n : ℕ} (h : l.asleep = true) : ¬ l.bumps n := by
  cases l with
  | receiverAsleep | senderAsleep | replyAsleep => exact nofun
  | _ => cases h

theorem Fresh.step (h : Fresh bits s) (hside : OneSided s.shared) {a : Act T}
    (ha : Ordered bits s a) : Fresh bits (step bits irq s a) := by
  cases a with
  | move t c => exact h.move hside ha.2
  | timeout t | cancel t | reply t =>
    rw [WaitQueue.step]
    split_ifs
    · exact h.outside (fun _ => id) rfl (fun _ => stamp_modify fun _ => rfl) (.inl rfl)
        fun _ => .inr rfl
    · exact h
  | kill t =>
    rw [WaitQueue.step]
    split_ifs with hi hc
    · exact h.outside (fun _ ha => (List.mem_filter.mp ha).1) rfl (fun _ => rfl) (.inl rfl)
        fun _ => .inr rfl
    · refine h.outside (fun _ ha => (List.mem_filter.mp ha).1) rfl
        (fun u => ?_) (.inr rfl) fun n => .inl (not_bumps_of_asleep hc)
      exact stamp_modify (g := s.shared.dequeue t) (p := t) (t := u) (f := Tcb.delFull) fun _ => rfl
    · exact h

section

omit [DecidableEq T]

theorem fresh_boot (bits : ℕ) : Fresh bits (boot : State T) :=
  ⟨nofun, nofun, nofun, nofun, nofun⟩

theorem Fresh.current (h : Fresh bits s) (hi : Inv irq s) : Current bits s := by
  rintro gen hr t ⟨hl, hb, hq⟩ hstale
  have hst := (hi.fine t).stands
  rw [hl] at hst
  have hhas : s.shared.has ⟨t, .receiver⟩ := by
    rcases hq with hq | hnone
    · exact hq
    · rcases (hst.2 hb).2 with ⟨p, hw⟩ | ⟨-, hq | ⟨p, ha⟩⟩
      · exact (hnone p hw.names).elim
      · exact hq
      · exact (hnone p ha.names).elim
  have hz : (s.loc t).zone = .waiting := by
    rw [hl]
    rfl
  obtain ⟨h1, h2⟩ := h.entered t hz
  exact hstale _ ((h.returned gen hr).2 t ⟨hz, hhas⟩) h2 h1

end

theorem current_of_ordered (bits : ℕ) (irq : T → Bool) (as : List (Act T))
    (h : Machine.Along (step bits irq) (Ordered bits) boot as) :
    Current bits (run (step bits irq) boot as) := by
  have hstep : ∀ s a, Inv irq s ∧ Fresh bits s → Ordered bits s a →
      Inv irq (WaitQueue.step bits irq s a) ∧ Fresh bits (WaitQueue.step bits irq s a) :=
    fun s a hs ha => ⟨hs.1.step ha.1, hs.2.step hs.1.sides ha⟩
  obtain ⟨hi, hf⟩ := Machine.Along.invariant hstep ⟨inv_boot irq, fresh_boot bits⟩ h
  exact hf.current hi

end Runs

section Failures

instance (g : Shared T) (e : Item T) : Decidable (g.has e) :=
  inferInstanceAs (Decidable (∃ a ∈ g.waitQ, a.1 = e))

instance [Fintype T] (s : State T) (t : T) : Decidable (Blocked s t) :=
  inferInstanceAs (Decidable (_ ∧ _ ∧ _))

instance (bits : ℕ) (s : State T) (t : T) (gen : ℕ) : Decidable (Stale bits s t gen) :=
  decidable_of_iff (∀ m < s.shared.generation + 1, gen ≤ m →
      (s.shared.tcb t).seen % 2 ^ bits ≠ m % 2 ^ bits)
    ⟨fun h m h1 h2 => h m (Nat.lt_succ_of_le h2) h1, fun h m h1 h2 => h m h2 (Nat.le_of_lt_succ h1)⟩

instance [Fintype T] (bits : ℕ) (s : State T) : Decidable (Current bits s) :=
  inferInstanceAs (Decidable (∀ gen ∈ s.shared.returned, ∀ t, Blocked s t → ¬ Stale bits s t gen))

instance [Fintype T] (bits : ℕ) (s : State T) (t : T) (l : Pc T) : Decidable (Steady bits s t l) := by
  induction l using Pc.casesOn <;> unfold Steady <;> infer_instance

instance [Fintype T] (bits : ℕ) (s : State T) (a : Act T) : Decidable (Ordered bits s a) :=
  match a with
  | .move _ _ => inferInstanceAs (Decidable (_ ∧ _))
  | .timeout _ | .cancel _ | .reply _ | .kill _ => inferInstanceAs (Decidable (_ ∧ True))

/-- The generation is made and returned between the test and the enqueueing of a receiver. -/
def lateEntry : List (Act (Fin 3)) :=
  replicate 4 (go 0 (.receive 0)) ++ replicate 3 (go 1 .bump) ++
    replicate 3 (go 0 (.receive 0))

def earlyBump : List (Act (Fin 3)) :=
  replicate 5 (go 0 (.receive 0)) ++ replicate 7 (go 1 .bump) ++
    replicate 2 (go 0 (.receive 0))

/-- A receiver is cancelled and comes again; before the end of the first bump there is a second, of
which the first returns the generation. -/
def rereadBump : List (Act (Fin 3)) :=
  replicate 7 (go 0 (.receive 0)) ++ replicate 6 (go 1 .bump) ++
    replicate 11 (go 0 (.receive 1)) ++ replicate 2 (go 2 .bump) ++ [go 1 .bump]

/-- A sender that has been taken out of the queue gives up and comes again as a receiver. The
transfer of its message fails and leaves `Thread_send_in_progress` behind, so who takes it out of
the queue is refused, and no bump finds it there. -/
def failedTransfer : List (Act (Fin 3)) :=
  replicate 7 (go 0 (.send false)) ++ replicate 5 (go 1 (.receive 0)) ++ [.cancel 0] ++
    replicate 10 (go 0 (.receive 0)) ++ replicate 3 (.move 1 ⟨.receive 0, 0, .never, false, false⟩) ++
    replicate 2 (go 0 (.receive 0)) ++ replicate 5 (go 2 (.send false)) ++ replicate 3 (go 2 .bump)

theorem not_current_late :
    ¬ Current 32 (run (step 32 fun _ => false) boot lateEntry) ∧
    ¬ Current 32 (run (step 32 fun _ => false) boot earlyBump) ∧
    ¬ Current 32 (run (step 32 fun _ => false) boot rereadBump) ∧
    ¬ Current 32 (run (step 32 fun _ => false) boot failedTransfer) := by
  decide

def cancelledReceive : List (Act (Fin 3)) :=
  replicate 7 (go 0 (.receive 0)) ++ replicate 7 (go 1 .bump) ++
    replicate 4 (go 0 (.receive 0))

theorem current_cancelledReceive :
    (run (step 32 fun _ => false) boot cancelledReceive).shared.returned = [1] ∧
      Current 32 (run (step 32 fun _ => false) boot cancelledReceive) :=
  ⟨by decide, current_of_ordered 32 _ cancelledReceive (by decide)⟩

end Failures

end Fiasco.WaitQueue
