import Fiasco.Semaphore.Waiting

/-!
# No up is lost and none is used twice

A thread that an up has taken out of the queue, or that has decremented the counter, returns from its
down without an error. Such threads are the difference between the ups and what has been returned.
-/

namespace Fiasco.Semaphore

open Interleaving List
open Machine (run)
open Interleaving.System
open scoped Machine PrioList

variable {T : Type}

def Pc.inDown : Pc T → Bool
  | .unmask | .timer | .asleep | .leave | .dequeue | .finish => true
  | _ => false

def Resting (s : State T) : Prop :=
  ∀ t, s.loc t = .idle ∨ s.loc t = .asleep ∧ (s.shared.tcb t).ready = false

structure Balanced (s : State T) : Prop where
  empty : s.shared.waiting ≠ [] → s.shared.queued = 0
  conserved : Resting s → s.shared.ups = s.shared.downs + s.shared.queued

def Served (s : State T) (t : T) : Prop :=
  (s.loc t).inDown = true ∧ t ∉ s.shared.waiters ∧ (s.shared.tcb t).error = false ∧
    ∀ p, s.loc p ≠ .setError t

def Conserved (s : State T) : Prop :=
  ∃ served : List T, served.Nodup ∧ (∀ t, t ∈ served ↔ Served s t) ∧
    s.shared.ups = s.shared.downs + s.shared.queued + served.length

variable [DecidableEq T] {s : State T} {p t : T} {r : Shared T × Pc T}

section Conservation

variable {edge : Bool} {c : Choice} {s' : State T}

theorem served_congr (hin : ((s.move p r).loc t).inDown = (s.loc t).inDown)
    (hw : t ∈ r.1.waiters ↔ t ∈ s.shared.waiters)
    (herr : (r.1.tcb t).error = (s.shared.tcb t).error)
    (hset : r.2 = .setError t ↔ s.loc p = .setError t) : Served (s.move p r) t ↔ Served s t := by
  have herr' : ((s.move p r).shared.tcb t).error = (s.shared.tcb t).error := herr
  have hset' : (∀ q, (s.move p r).loc q ≠ .setError t) ↔ ∀ q, s.loc q ≠ .setError t := by
    refine forall_congr' fun q => not_congr ?_
    by_cases hqp : q = p
    · subst hqp
      rw [move_self]
      exact hset
    · rw [move_of_ne hqp]
  rw [Served, Served, hin, herr', hset']
  exact and_congr_right fun _ => and_congr_left fun _ => not_congr hw

theorem served_move (ht : t ≠ p) (hw : t ∈ r.1.waiters ↔ t ∈ s.shared.waiters)
    (herr : (r.1.tcb t).error = (s.shared.tcb t).error)
    (hset : r.2 = .setError t ↔ s.loc p = .setError t) : Served (s.move p r) t ↔ Served s t :=
  served_congr (by rw [move_of_ne ht]) hw herr hset

omit [DecidableEq T] in
theorem ne_setError_of_inDown {l : Pc T} (h : l.inDown = true) : l ≠ .setError t := by
  rintro rfl
  cases h

theorem served_self (hl : (s.loc t).inDown = true) (hl' : r.2.inDown = true)
    (hw : t ∈ r.1.waiters ↔ t ∈ s.shared.waiters)
    (herr : (r.1.tcb t).error = (s.shared.tcb t).error) : Served (s.move t r) t ↔ Served s t :=
  served_congr (by rw [move_self, hl, hl']) hw herr
    (iff_of_false (ne_setError_of_inDown hl') (ne_setError_of_inDown hl))

theorem served_outside (hl : (s.loc t).inDown = false) (hl' : r.2.inDown = false) :
    Served (s.move t r) t ↔ Served s t := by
  have hloc : (s.move t r).loc t = r.2 := move_self
  rw [Served, Served, hloc, hl, hl']
  simp

section

variable (h : Conserved s)
include h

section

omit [DecidableEq T]

theorem Conserved.same (hs : ∀ t, Served s' t ↔ Served s t)
    (hsum : s'.shared.ups + (s.shared.downs + s.shared.queued) =
      s.shared.ups + (s'.shared.downs + s'.shared.queued)) : Conserved s' := by
  obtain ⟨l, hl, hmem, heq⟩ := h
  exact ⟨l, hl, fun t => (hmem t).trans (hs t).symm, by omega⟩

theorem Conserved.add (hnew : ¬ Served s t) (hs : ∀ u, Served s' u ↔ u = t ∨ Served s u)
    (hsum : s'.shared.ups + (s.shared.downs + s.shared.queued) =
      s.shared.ups + (s'.shared.downs + s'.shared.queued) + 1) : Conserved s' := by
  obtain ⟨l, hl, hmem, heq⟩ := h
  refine ⟨t :: l, nodup_cons.mpr ⟨fun hc => hnew ((hmem t).mp hc), hl⟩, fun u => ?_, ?_⟩
  · rw [hs, mem_cons, hmem]
  · rw [length_cons]
    omega

end

theorem Conserved.remove (hold : Served s t) (hs : ∀ u, Served s' u ↔ u ≠ t ∧ Served s u)
    (hsum : s'.shared.ups + (s.shared.downs + s.shared.queued) + 1 =
      s.shared.ups + (s'.shared.downs + s'.shared.queued)) : Conserved s' := by
  obtain ⟨l, hl, hmem, heq⟩ := h
  have ht : t ∈ l := (hmem t).mpr hold
  refine ⟨l.erase t, hl.erase t, fun u => ?_, ?_⟩
  · rw [hs, hl.mem_erase_iff, hmem]
  · rw [length_erase_of_mem ht]
    have hpos := length_pos_of_mem ht
    omega

theorem Conserved.frame
    (hother : ∀ t, t ≠ p → (t ∈ r.1.waiters ↔ t ∈ s.shared.waiters) ∧
      (r.1.tcb t).error = (s.shared.tcb t).error ∧ (r.2 = .setError t ↔ s.loc p = .setError t))
    (hown : Served (s.move p r) p ↔ Served s p)
    (hsum : r.1.ups + (s.shared.downs + s.shared.queued) =
      s.shared.ups + (r.1.downs + r.1.queued)) : Conserved (s.move p r) := by
  refine h.same (fun t => ?_) hsum
  by_cases ht : t = p
  · subst ht
    exact hown
  · obtain ⟨h1, h2, h3⟩ := hother t ht
    exact served_move ht h1 h2 h3

theorem Conserved.still (hw : r.1.waiters = s.shared.waiters)
    (herr : ∀ t, t ≠ p → (r.1.tcb t).error = (s.shared.tcb t).error)
    (hset : ∀ t, r.2 ≠ .setError t) (hset' : ∀ t, s.loc p ≠ .setError t)
    (hown : Served (s.move p r) p ↔ Served s p) (hups : r.1.ups = s.shared.ups)
    (hdowns : r.1.downs = s.shared.downs) (hqueued : r.1.queued = s.shared.queued) :
    Conserved (s.move p r) := by
  refine h.frame (fun t ht => ⟨by rw [hw], herr t ht, ?_⟩) hown ?_
  · exact iff_of_false (hset t) (hset' t)
  · rw [hups, hdowns, hqueued]

theorem Conserved.flags {masked valid : Bool} {l : Pc T}
    (hset : ∀ t, l ≠ .setError t) (hset' : ∀ t, s.loc p ≠ .setError t)
    (hin : l.inDown = (s.loc p).inDown) :
    Conserved (s.move p ({ s.shared with masked := masked, valid := valid }, l)) := by
  refine h.still rfl (fun _ _ => rfl) hset hset' ?_ rfl rfl rfl
  cases hp : (s.loc p).inDown with
  | true => exact served_self hp (hin.trans hp) .rfl rfl
  | false => exact served_outside hp (hin.trans hp)

end

section

omit [DecidableEq T]

theorem wakeup_ne_setError (w : Option T) : Pc.wakeup w ≠ .setError t := by
  cases w <;> exact nofun

theorem inDown_wakeup (w : Option T) : (Pc.wakeup w).inDown = false := by
  cases w <;> rfl

theorem counted_ne_setError (old : ℕ) (w : Option T) : Pc.counted edge old w ≠ .setError t := by
  rw [Pc.counted]
  split_ifs
  · rintro ⟨⟩
  · rintro ⟨⟩
  · exact wakeup_ne_setError w

theorem inDown_counted (old : ℕ) (w : Option T) : (Pc.counted edge old w).inDown = false := by
  rw [Pc.counted]
  split_ifs
  · rfl
  · rfl
  · exact inDown_wakeup w

end

theorem error_modify {g : Shared T} {e : T} {f : Tcb → Tcb} (h : ∀ b, (f b).error = b.error) :
    ((g.modify e f).tcb t).error = (g.tcb t).error := by
  by_cases ht : t = e
  · rw [ht, tcb_modify_self, h]
  · rw [tcb_modify_of_ne _ _ ht]

section

variable (h : Conserved s)
include h

theorem Conserved.modify {e : T} {f : Tcb → Tcb} {l : Pc T}
    (herr : ∀ b, (f b).error = b.error) (hset : ∀ t, l ≠ .setError t)
    (hset' : ∀ t, s.loc p ≠ .setError t) (hin : l.inDown = (s.loc p).inDown) :
    Conserved (s.move p (s.shared.modify e f, l)) := by
  refine h.still rfl (fun t _ => error_modify herr) hset hset' ?_ rfl rfl rfl
  cases hp : (s.loc p).inDown with
  | true => exact served_self hp (hin.trans hp) .rfl (error_modify herr)
  | false => exact served_outside hp (hin.trans hp)

theorem Conserved.quiet (hl : s.loc p ≠ .count ∧ s.loc p ≠ .down ∧
      s.loc p ≠ .dequeue ∧ s.loc p ≠ .finish ∧ s.loc p ≠ .drain)
    (hset : ∀ t, s.loc p ≠ .setError t) :
    Conserved (s.move p (exec edge p s.shared c (s.loc p))) := by
  obtain ⟨h1, h2, h3, h4, h5⟩ := hl
  cases hl : s.loc p with
  | idle =>
    rw [exec, start]
    by_cases hv : (!s.shared.valid) = true
    · rw [if_pos hv]
      exact h.flags (by simp) hset (by rw [hl])
    · rw [if_neg hv]
      cases c.op with
      | up => cases edge <;> exact h.flags (by simp) hset (by rw [hl]; rfl)
      | down =>
        refine h.still rfl (fun t ht => ?_) (by simp) hset
          (served_outside (by rw [hl]; rfl) rfl) rfl rfl rfl
        simp only [tcb_modify_of_ne _ _ ht]
      | destroy => exact h.flags (by simp) hset (by rw [hl]; rfl)
  | maskLevel | unmask => exact h.flags (by simp) hset (by rw [hl]; rfl)
  | ack w | mask w =>
    exact h.flags (fun _ => wakeup_ne_setError w) hset (by rw [hl, inDown_wakeup]; rfl)
  | activate w | wake w => exact h.modify (fun _ => rfl) (by simp) hset (by rw [hl]; rfl)
  | timer | asleep | leave =>
    rw [exec]
    (repeat' split) <;> first
      | exact h.flags (by simp) hset (congrArg Pc.inDown hl).symm
      | exact h.modify (fun _ => rfl) (by simp) hset (congrArg Pc.inDown hl).symm
  | count => exact (h1 hl).elim
  | down => exact (h2 hl).elim
  | dequeue => exact (h3 hl).elim
  | finish => exact (h4 hl).elim
  | drain => exact (h5 hl).elim
  | setError w => exact (hset w hl).elim

theorem Conserved.count (hi : Inv s) (hl : s.loc p = .count) :
    Conserved (s.move p (exec edge p s.shared c .count)) := by
  have hin : (s.loc p).inDown = false := congrArg Pc.inDown hl
  have hset : ∀ t, s.loc p ≠ .setError t := by simp [hl]
  rw [exec]
  split
  · rename_i a q hq
    have hw := waiters_cons hq
    have hnodup := hi.nodup
    rw [hw] at hnodup
    have hmem : a.1 ∈ s.shared.waiters := by
      rw [hw]
      exact mem_cons_self
    obtain ⟨hnobody, herr⟩ := (hi.fine a.1).apart hmem
    have hwait := (hi.fine a.1).waits (.inl hmem)
    have hap : a.1 ≠ p := by
      intro hc
      rw [hc, hl] at hwait
      cases hwait
    refine h.add (t := a.1) (fun hs => hs.2.1 hmem) (fun u => ?_) (by simp only [System.move]; omega)
    by_cases hu : u = a.1
    · subst hu
      refine iff_of_true ⟨?_, ?_, herr, fun q' hq' => ?_⟩ (.inl rfl)
      · rw [move_of_ne hap]
        cases hla : s.loc a.1 <;> rw [hla] at hwait <;> first | rfl | cases hwait
      · exact (nodup_cons.mp hnodup).1
      · by_cases hqp : q' = p
        · subst hqp
          rw [move_self] at hq'
          exact counted_ne_setError _ _ hq'
        · rw [move_of_ne hqp] at hq'
          exact hnobody q' (by rw [hq']; rfl)
    · rw [or_iff_right hu]
      by_cases hup : u = p
      · subst hup
        exact served_outside hin (inDown_counted _ _)
      · refine served_move hup ?_ rfl (iff_of_false (counted_ne_setError _ _) (hset u))
        rw [hw, mem_cons, or_iff_right hu]
        rfl
  · rename_i hq
    refine h.frame (fun t ht => ⟨?_, ?_, iff_of_false (counted_ne_setError _ _) (hset t)⟩)
      (served_outside hin (inDown_counted _ _)) ?_
    · split_ifs <;> rfl
    · split_ifs <;> rfl
    · split_ifs
      · dsimp only
        omega
      · rfl

theorem Conserved.down (hi : Inv s) (hl : s.loc p = .down)
    (hv : s.shared.queued = 0 → s.shared.valid = true) :
    Conserved (s.move p (exec edge p s.shared c .down)) := by
  have hset : ∀ t, s.loc p ≠ .setError t := by simp [hl]
  have hh : ¬ Held s p := hi.not_held (by rw [hl]; rfl)
  have hnot : ¬ Served s p := fun hs => by
    have hin := hs.1
    rw [hl] at hin
    cases hin
  rw [exec]
  by_cases h0 : s.shared.queued = 0
  · have hmem : p ∉ s.shared.waiters := fun hm => hh (.inl hm)
    rw [if_pos h0, if_neg (by simp [hv h0])]
    refine h.frame (fun t ht => ⟨mem_insert_of_ne ht _, ?_, iff_of_false (by simp) (hset t)⟩)
      (iff_of_false (fun hs => hs.2.1 ?_) hnot) ?_
    · rw [tcb_insert]
      exact error_modify fun _ => rfl
    · exact (waiters_insert (g := s.shared.modify p _) hmem c.prio).mem_iff.mpr mem_cons_self
    · obtain ⟨h1, h2, h3⟩ := counts_insert (s.shared.modify p fun b =>
        { b with ready := false, receiveWait := true }) p c.prio
      rw [h1, h2, h3]
      rfl
  · rw [if_neg h0]
    have hnext : ∀ t : T,
        (if s.shared.queued - 1 = 1 && edge then Pc.unmask else .timer) ≠ .setError t := by
      intro t
      split_ifs <;> rintro ⟨⟩
    refine h.add hnot (fun u => ?_) (by simp only [System.move]; omega)
    by_cases hu : u = p
    · subst hu
      refine iff_of_true ⟨?_, fun hm => hh (.inl hm), (hi.fine u).fresh hl, fun q hq => ?_⟩ (.inl rfl)
      · rw [move_self]
        split_ifs <;> rfl
      · by_cases hqu : q = u
        · subst hqu
          rw [move_self] at hq
          exact hnext _ hq
        · rw [move_of_ne hqu] at hq
          exact hh (.inr ⟨q, by rw [hq]; rfl⟩)
    · rw [or_iff_right hu]
      exact served_move hu .rfl rfl (iff_of_false (hnext u) (hset u))

theorem Conserved.dequeue (hl : s.loc p = .dequeue) :
    Conserved (s.move p (exec edge p s.shared c .dequeue)) := by
  have hset : ∀ t, s.loc p ≠ .setError t := by simp [hl]
  rw [exec]
  by_cases hm : p ∈ s.shared.waiters
  · rw [if_pos hm]
    refine h.frame (fun t ht => ⟨mem_filter_of_ne ht, rfl, iff_of_false (by simp) (hset t)⟩) ?_ rfl
    refine iff_of_false (fun hs => ?_) fun hs => hs.2.1 hm
    have hin := hs.1
    rw [move_self] at hin
    cases hin
  · rw [if_neg hm]
    exact h.flags (by simp) hset (by rw [hl]; rfl)

theorem Conserved.finish (hi : Inv s) (hl : s.loc p = .finish) :
    Conserved (s.move p (exec edge p s.shared c .finish)) := by
  have hset : ∀ t, s.loc p ≠ .setError t := by simp [hl]
  have hh : ¬ Held s p := hi.not_held (by rw [hl]; rfl)
  have hafter : ∀ {g : Shared T}, ¬ Served (s.move p (g, .idle)) p := by
    intro g hs
    have hin := hs.1
    rw [move_self] at hin
    cases hin
  rw [exec]
  cases herr : (s.shared.tcb p).error with
  | true =>
    refine h.still rfl (fun _ _ => rfl) (by simp) hset (iff_of_false hafter fun hs => ?_) rfl
      rfl rfl
    exact absurd (herr.symm.trans hs.2.2.1) (by simp)
  | false =>
    have hserved : Served s p := by
      refine ⟨by rw [hl]; rfl, fun hm => hh (.inl hm), herr, fun q hq => hh (.inr ⟨q, ?_⟩)⟩
      rw [hq]
      rfl
    refine h.remove hserved (fun u => ?_) ?_
    · by_cases hu : u = p
      · subst hu
        exact iff_of_false hafter fun hc => hc.1 rfl
      · rw [and_iff_right hu]
        exact served_move hu .rfl rfl (iff_of_false (by simp) (hset u))
    · simp only [System.move, Bool.false_eq_true, if_false]
      omega

theorem Conserved.drain (hl : s.loc p = .drain) :
    Conserved (s.move p (exec edge p s.shared c .drain)) := by
  have hset : ∀ t, s.loc p ≠ .setError t := by simp [hl]
  have hin : (s.loc p).inDown = false := congrArg Pc.inDown hl
  rw [exec]
  split
  · rename_i a q hq
    have hw := waiters_cons hq
    have hmem : a.1 ∈ s.shared.waiters := by
      rw [hw]
      exact mem_cons_self
    refine h.same (fun u => ?_) rfl
    by_cases hu : u = a.1
    · subst hu
      refine iff_of_false (fun hs => hs.2.2.2 p ?_) fun hs => hs.2.1 hmem
      rw [move_self]
    · by_cases hup : u = p
      · subst hup
        exact served_outside hin rfl
      · refine served_move hup ?_ rfl ?_
        · rw [hw, mem_cons, or_iff_right hu]
          rfl
        · exact iff_of_false (fun hc => hu (by cases hc; rfl)) (hset u)
  · exact h.flags (by simp) hset hin.symm

theorem Conserved.setError {w : T} (hl : s.loc p = .setError w) :
    Conserved (s.move p (exec edge p s.shared c (.setError w))) := by
  have hin : (s.loc p).inDown = false := congrArg Pc.inDown hl
  rw [exec]
  refine h.same (fun u => ?_) rfl
  by_cases hup : u = p
  · subst hup
    exact served_outside hin rfl
  · by_cases hu : u = w
    · subst hu
      refine iff_of_false (fun hs => ?_) fun hs => hs.2.2.2 p hl
      have herr := hs.2.2.1
      simp only [System.move, tcb_modify_self] at herr
      cases herr
    · refine served_move hup .rfl ?_ ?_
      · simp only [tcb_modify_of_ne _ _ hu]
      · exact iff_of_false (by simp) (fun hc => hu (by rw [hl] at hc; cases hc; rfl))

theorem Conserved.move (hi : Inv s) (hc : Settled s (.move p c)) :
    Conserved (s.move p (exec edge p s.shared c (s.loc p))) := by
  cases hl : s.loc p with
  | count => exact h.count hi hl
  | down => exact h.down hi hl (hc.1 hl)
  | dequeue => exact h.dequeue hl
  | finish => exact h.finish hi hl
  | drain => exact h.drain hl
  | setError w => exact h.setError hl
  | _ =>
    rw [← hl]
    refine h.quiet ?_ ?_ <;> rw [hl]
    · exact ⟨nofun, nofun, nofun, nofun, nofun⟩
    · exact fun _ => nofun

theorem Conserved.step (hi : Inv s) {a : Act T} (ha : Settled s a) : Conserved (step edge s a) := by
  cases a with
  | move t c => exact h.move hi ha
  | timeout t =>
    rw [Semaphore.step]
    split_ifs with hc
    · exact h.modify (fun _ => rfl) (by simp) (by rw [hc.1]; simp)
        (by rw [hc.1])
    · exact h
  | cancel t =>
    rw [Semaphore.step]
    split_ifs with hc
    · exact h.modify (fun _ => rfl) (by simp) (by rw [hc]; simp) (by rw [hc])
    · exact h

end

section

omit [DecidableEq T]

theorem conserved_boot : Conserved (boot : State T) := by
  refine ⟨[], nodup_nil, fun t => iff_of_false nofun fun hs => ?_, rfl⟩
  cases hs.1

theorem Conserved.balanced (h : Conserved s) (hi : Inv s) : Balanced s := by
  refine ⟨hi.empty, fun hrest => ?_⟩
  obtain ⟨l, -, hmem, heq⟩ := h
  have hnil : l = [] := by
    refine eq_nil_iff_forall_not_mem.mpr fun t ht => ?_
    obtain ⟨hin, hw, -, -⟩ := (hmem t).mp ht
    rcases hrest t with hl | ⟨hl, hr⟩
    · rw [hl] at hin
      cases hin
    · -- who sleeps is in the queue, as nobody has taken it out
      rcases (hi.fine t).sleeps (.inr hl) hr with hm | ⟨q, hq⟩
      · exact hw hm
      · rcases hrest q with hlq | ⟨hlq, -⟩ <;> rw [hlq] at hq <;> cases hq
  rw [heq, hnil]
  rfl

end

theorem balanced_of_settled (edge : Bool) (as : List (Act T))
    (h : Machine.Along (step edge) Settled boot as) : Balanced (run (step edge) boot as) := by
  have hstep : ∀ (s : State T) a, Inv s ∧ Conserved s → Settled s a →
      Inv (Semaphore.step edge s a) ∧ Conserved (Semaphore.step edge s a) :=
    fun s a hs ha => ⟨hs.1.step ha, hs.2.step hs.1 ha⟩
  obtain ⟨hi, hc⟩ := Machine.Along.invariant hstep ⟨inv_boot, conserved_boot⟩ h
  exact hc.balanced hi

end Conservation

section Failures

instance [Fintype T] (s : State T) : Decidable (Resting s) :=
  inferInstanceAs (Decidable (∀ _, _ ∨ _))

instance [Fintype T] (s : State T) : Decidable (Balanced s) :=
  decidable_of_iff ((s.shared.waiting ≠ [] → s.shared.queued = 0) ∧
      (Resting s → s.shared.ups = s.shared.downs + s.shared.queued))
    ⟨fun h => ⟨h.1, h.2⟩, fun h => ⟨h.empty, h.conserved⟩⟩

instance [Fintype T] (s : State T) (a : Act T) : Decidable (Settled s a) := by
  cases a <;> unfold Settled <;> infer_instance

def go (t : T) (op : Op) (timeout : Timeout) : Act T :=
  .move t ⟨op, 0, timeout⟩

def lateDown : List (Act (Fin 2)) :=
  [go 0 .down .never] ++ replicate 2 (go 1 .destroy .never) ++
    replicate 4 (go 0 .down .never)

/-- An up takes out a thread that times out and returns. The next down of the thread is then woken by
the activation that belongs to the first. -/
def lateActivation : List (Act (Fin 2)) :=
  replicate 3 (go 0 .down .finite) ++ replicate 2 (go 1 .up .never) ++ [.timeout 0] ++
    replicate 7 (go 0 .down .never) ++ replicate 2 (go 1 .up .never) ++
    replicate 3 (go 0 .down .never)

/-- A thread that `destroy` has taken out times out before the error is stored. -/
def lateError : List (Act (Fin 2)) :=
  replicate 3 (go 0 .down .finite) ++ replicate 2 (go 1 .destroy .never) ++ [.timeout 0] ++
    replicate 4 (go 0 .down .never) ++ replicate 3 (go 1 .destroy .never)

theorem not_balanced_late :
    ¬ Balanced (run (step true) boot lateDown) ∧
      ¬ Balanced (run (step true) boot lateActivation) ∧
      ¬ Balanced (run (step true) boot lateError) := by
  decide

def timedOutUp : List (Act (Fin 2)) :=
  replicate 3 (go 0 .down .finite) ++ replicate 2 (go 1 .up .never) ++ [.timeout 0] ++
    replicate 2 (go 1 .up .never) ++ replicate 4 (go 0 .down .never)

theorem balanced_timedOutUp :
    Resting (run (step true) boot timedOutUp) ∧
      (run (step true) boot timedOutUp).shared.downs = 1 ∧
      Balanced (run (step true) boot timedOutUp) :=
  ⟨by decide, by decide, balanced_of_settled true timedOutUp (by decide)⟩

end Failures

end Fiasco.Semaphore
