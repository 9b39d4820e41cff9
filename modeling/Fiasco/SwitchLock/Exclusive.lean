import Fiasco.SwitchLock.Dispatch

/-!
# A context runs on one CPU, and a lock has one owner

A lock that is granted to a context has it as its owner, and the count of locks is the number of the
granted ones and of the one that is being given up.
-/

namespace Fiasco.SwitchLock

open List Function
open Machine (run)

variable {C Cpu L : Type} [DecidableEq C] [DecidableEq Cpu] [DecidableEq L] {T : Topology C Cpu}
  {s : State C Cpu L} {p : Cpu} {x : C} {c : Choice C L}

section Ownership

def Pc.plain : Pc C L → Bool
  | .inc _ | .clear _ | .clearOwner _ _ | .dec _ => false
  | _ => true

def Pc.extra : Pc C L → ℕ
  | .clear _ | .clearOwner _ _ | .dec _ => 1
  | _ => 0

def Granting (s : State C Cpu L) (x : C) : Pc C L → Prop
  | .inc w => (s.lock w.lock).owner = some x ∧ w.lock ∉ s.held x
  | .clear l => (s.lock l).owner = some x ∧ l ∉ s.held x
  | .clearOwner l o => o = x ∧ (s.lock l).owner = some x ∧ l ∉ s.held x
  | .dec o => o = x
  | _ => True

structure Granted (s : State C Cpu L) : Prop where
  owner : ∀ x l, l ∈ s.held x → (s.lock l).owner = some x
  nodup : ∀ x, (s.held x).Nodup
  count : ∀ x, s.cnt x = (s.held x).length + (s.pc x).extra
  granting : ∀ x, Granting s x (s.pc x)

structure Quiet (s s' : State C Cpu L) (x : C) : Prop where
  held : s'.held = s.held
  cnt : s'.cnt = s.cnt
  owner : ∀ l, (s'.lock l).owner = (s.lock l).owner
  pc : ∃ l, s'.pc = update s.pc x l ∧ l.plain = true

variable {l : Pc C L} {s' : State C Cpu L}

omit [DecidableEq C] [DecidableEq L] in
theorem extra_of_plain (h : l.plain = true) : l.extra = 0 := by
  cases l with
  | inc _ | clear _ | clearOwner _ _ | dec _ => cases h
  | _ => rfl

section

omit [DecidableEq C] [DecidableEq Cpu] [DecidableEq L]

theorem granting_of_plain (h : l.plain = true) : Granting s x l := by
  cases l with
  | inc _ | clear _ | clearOwner _ _ | dec _ => cases h
  | _ => trivial

theorem Granting.mono (h : Granting s x l)
    (howner : ∀ m, (s.lock m).owner = some x → (s'.lock m).owner = some x)
    (hheld : s'.held x = s.held x) : Granting s' x l := by
  cases l with
  | inc w | clear m => exact ⟨howner _ h.1, by rw [hheld]; exact h.2⟩
  | clearOwner m o => exact ⟨h.1, howner _ h.2.1, by rw [hheld]; exact h.2.2⟩
  | dec o => exact h
  | _ => trivial

end

omit [DecidableEq Cpu] [DecidableEq L] in
theorem Granted.change (h : Granted s) (hpc : s'.pc = update s.pc x l)
    (hheld : ∀ y, y ≠ x → s'.held y = s.held y) (hcnt : ∀ y, y ≠ x → s'.cnt y = s.cnt y)
    (howner : ∀ y, y ≠ x → ∀ m, (s.lock m).owner = some y → (s'.lock m).owner = some y)
    (hself : ∀ m ∈ s'.held x, (s'.lock m).owner = some x) (hnodup : (s'.held x).Nodup)
    (hcount : s'.cnt x = (s'.held x).length + l.extra) (hgrant : Granting s' x l) : Granted s' := by
  have hpcx : s'.pc x = l := by
    rw [hpc]
    exact update_self ..
  have hpcy {y : C} (hy : y ≠ x) : s'.pc y = s.pc y := by
    rw [hpc]
    exact update_of_ne hy ..
  refine ⟨fun y m hm => ?_, fun y => ?_, fun y => ?_, fun y => ?_⟩ <;> by_cases hy : y = x
  · subst hy
    exact hself m hm
  · rw [hheld y hy] at hm
    exact howner y hy m (h.owner y m hm)
  · subst hy
    exact hnodup
  · rw [hheld y hy]
    exact h.nodup y
  · subst hy
    rw [hpcx]
    exact hcount
  · rw [hcnt y hy, hheld y hy, hpcy hy]
    exact h.count y
  · subst hy
    rw [hpcx]
    exact hgrant
  · rw [hpcy hy]
    exact (h.granting y).mono (howner y hy) (hheld y hy)

omit [DecidableEq Cpu] [DecidableEq L] in
theorem Granted.quiet (h : Granted s) (hq : Quiet s s' x) (hx : (s.pc x).plain = true) : Granted s' := by
  obtain ⟨hheld, hcnt, howner, l, hpc, hl⟩ := hq
  refine h.change hpc (fun _ _ => by rw [hheld]) (fun _ _ => by rw [hcnt])
    (fun _ _ m hm => (howner m).trans hm) (fun m hm => ?_) ?_ ?_ (granting_of_plain hl)
  · rw [howner]
    exact h.owner x m (hheld ▸ hm)
  · rw [hheld]
    exact h.nodup x
  · rw [hheld, hcnt, h.count x, extra_of_plain hl, extra_of_plain hx]

section

omit [DecidableEq Cpu] [DecidableEq L]

theorem quiet_goto (hl : l.plain = true) : Quiet s (s.goto x l) x :=
  ⟨rfl, rfl, fun _ => rfl, l, rfl, hl⟩

theorem quiet_self (hx : (s.pc x).plain = true) : Quiet s s x :=
  ⟨rfl, rfl, fun _ => rfl, s.pc x, (update_eq_self x s.pc).symm, hx⟩

end

section

omit [DecidableEq C] [DecidableEq L]

theorem plain_failed (r : Ret L) : (r.failed : Pc C L).plain = true := by
  cases r <;> rfl

theorem plain_ok (r : Ret L) : (r.ok : Pc C L).plain = true := by
  cases r with
  | sched k => cases k <;> rfl
  | _ => rfl

end

theorem begin_plain (hx : (s.pc x).plain = true) (op : Op C L) :
    Quiet s (begin T s p x op) x ∨
      ∃ m ∈ s.held x, begin T s p x op = (s.setHeld x ((s.held x).erase m)).goto x (.clear m) := by
  cases op with
  | lock l | tryLock l | waitFree l | schedule => exact .inl (quiet_goto rfl)
  | clear l =>
    rw [begin]
    split_ifs with hl
    · exact .inr ⟨l, hl, rfl⟩
    · exact .inl (quiet_self hx)
  | invalidate l =>
    refine .inl ⟨rfl, rfl, fun m => ?_, s.pc x, (update_eq_self x s.pc).symm, hx⟩
    change (update s.lock l { s.lock l with invalid := true } m).owner = (s.lock m).owner
    by_cases hm : m = l
    · subst hm
      rw [update_self]
    · rw [update_of_ne hm]
  | switchTo t =>
    rw [begin]
    split_ifs
    · exact .inl (quiet_goto rfl)
    · exact .inl (quiet_goto rfl)
    · exact .inl (quiet_self hx)
  | none => exact .inl (quiet_self hx)

theorem exec_plain (hl : l.plain = true) (hx : s.pc x = l) : Quiet s (exec T s p x c l) x ∨
      (∃ m ∈ s.held x, exec T s p x c l = (s.setHeld x ((s.held x).erase m)).goto x (.clear m)) ∨
      ∃ w, (s.lock w.lock).owner = none ∧
        exec T s p x c l = (s.setLock w.lock ⟨some x, false⟩).goto x (.inc w) := by
  have hself : Quiet s s x := quiet_self (by rw [hx]; exact hl)
  cases l with
  | inc _ | clear _ | clearOwner _ _ | dec _ => cases hl
  | run => exact (begin_plain (by rw [hx]; rfl) c.op).imp_right .inl
  | ownLock w fresh =>
    rw [exec]
    split_ifs with hw
    · exact .inr (.inr ⟨w, by rw [hw], rfl⟩)
    · exact .inl (quiet_goto rfl)
    · exact .inl (quiet_goto rfl)
  | _ =>
    refine .inl ?_
    simp only [exec, testPc, loopPc, State.dispatchHelper]
    (repeat' split) <;>
      first
      | exact hself
      | exact ⟨rfl, rfl, fun _ => rfl, _, rfl, rfl⟩
      | exact quiet_goto (plain_failed _)
      | exact quiet_goto (plain_ok _)

section

omit [DecidableEq C] [DecidableEq Cpu]

theorem owner_setLock_self (l : L) (v : Word C) : ((s.setLock l v).lock l).owner = v.owner :=
  congrArg Word.owner (update_self ..)

theorem owner_setLock_of_ne {l m : L} (v : Word C) (h : m ≠ l) :
    ((s.setLock l v).lock m).owner = (s.lock m).owner :=
  congrArg Word.owner (update_of_ne h ..)

end

section

variable (h : Granted s)
include h

omit [DecidableEq Cpu] in
theorem Granted.giveUp {m : L} (hm : m ∈ s.held x) (hx : (s.pc x).plain = true) :
    Granted ((s.setHeld x ((s.held x).erase m)).goto x (.clear m)) := by
  have hself : ((s.setHeld x ((s.held x).erase m)).goto x (.clear m)).held x = (s.held x).erase m :=
    update_self ..
  refine h.change rfl (fun _ hy => update_of_ne hy ..) (fun _ _ => rfl) (fun _ _ _ => id)
    (fun l hl => ?_) ?_ ?_ ⟨h.owner x m hm, ?_⟩
  · rw [hself] at hl
    exact h.owner x l (mem_of_mem_erase hl)
  · rw [hself]
    exact (h.nodup x).erase m
  · rw [hself, length_erase_of_mem hm]
    have hc := h.count x
    have hpos := length_pos_of_mem hm
    rw [extra_of_plain hx] at hc
    change s.cnt x = (s.held x).length - 1 + 1
    omega
  · rw [hself]
    exact (h.nodup x).not_mem_erase

omit [DecidableEq Cpu] in
theorem Granted.acquire {w : Want L} (hw : (s.lock w.lock).owner = none)
    (hx : (s.pc x).plain = true) :
    Granted ((s.setLock w.lock ⟨some x, false⟩).goto x (.inc w)) := by
  have hnew {y : C} {m : L} (hm : (s.lock m).owner = some y) : m ≠ w.lock := by
    rintro rfl
    rw [hw] at hm
    cases hm
  have hkeep {y : C} {m : L} (hm : (s.lock m).owner = some y) :
      ((s.setLock w.lock ⟨some x, false⟩).lock m).owner = some y :=
    (owner_setLock_of_ne _ (hnew hm)).trans hm
  refine h.change rfl (fun _ _ => rfl) (fun _ _ => rfl) (fun _ _ _ => hkeep)
    (fun m hm => hkeep (h.owner x m hm)) (h.nodup x) ?_ ⟨owner_setLock_self _ _, fun hm => ?_⟩
  · have hc := h.count x
    rw [extra_of_plain hx] at hc
    exact hc
  · exact hnew (h.owner x _ hm) rfl

theorem Granted.inc {w : Want L} (hx : s.pc x = .inc w) : Granted (exec T s p x c (.inc w)) := by
  have hw := h.granting x
  have hc := h.count x
  rw [hx] at hw hc
  have hheld : (exec T s p x c (.inc w)).held x = w.lock :: s.held x := update_self ..
  have hcnt : (exec T s p x c (.inc w)).cnt x = s.cnt x + 1 := update_self ..
  refine h.change rfl (fun _ hy => update_of_ne hy ..) (fun _ hy => update_of_ne hy ..)
    (fun _ _ _ => id) (fun m hm => ?_) ?_ ?_ trivial
  · rw [hheld] at hm
    rcases mem_cons.mp hm with rfl | hm
    · exact hw.1
    · exact h.owner x m hm
  · rw [hheld]
    exact nodup_cons.mpr ⟨hw.2, h.nodup x⟩
  · rw [hheld, hcnt, hc]
    rfl

theorem Granted.clear {l : L} (hx : s.pc x = .clear l) : Granted (exec T s p x c (.clear l)) := by
  have hg := h.granting x
  have hc := h.count x
  rw [hx] at hg hc
  rw [exec, hg.1]
  exact h.change rfl (fun _ _ => rfl) (fun _ _ => rfl) (fun _ _ _ => id) (h.owner x) (h.nodup x) hc
    ⟨rfl, hg⟩

theorem Granted.clearOwner {l : L} {o : C} (hx : s.pc x = .clearOwner l o) :
    Granted (exec T s p x c (.clearOwner l o)) := by
  have hg := h.granting x
  have hc := h.count x
  rw [hx] at hg hc
  obtain ⟨ho, hown, hnot⟩ := hg
  refine h.change rfl (fun _ _ => rfl) (fun _ _ => rfl) (fun y hy m hm => ?_) (fun m hm => ?_)
    (h.nodup x) hc ho
  · refine (owner_setLock_of_ne _ ?_).trans hm
    rintro rfl
    rw [hown] at hm
    cases hm
    exact hy rfl
  · refine (owner_setLock_of_ne _ ?_).trans (h.owner x m hm)
    rintro rfl
    exact hnot hm

theorem Granted.dec {o : C} (hx : s.pc x = .dec o) : Granted (exec T s p x c (.dec o)) := by
  have hg := h.granting x
  have hc := h.count x
  rw [hx] at hg hc
  subst hg
  have hcnt : (exec T s p o c (.dec o)).cnt o = s.cnt o - 1 := update_self ..
  refine h.change rfl (fun _ _ => rfl) (fun _ hy => update_of_ne hy ..) (fun _ _ _ => id)
    (h.owner o) (h.nodup o) ?_ ?_
  · rw [hcnt, hc]
    split_ifs <;> rfl
  · split_ifs <;> trivial

theorem Granted.exec : Granted (exec T s p x c (s.pc x)) := by
  cases hp : (s.pc x).plain with
  | true =>
    rcases exec_plain (T := T) (p := p) (c := c) hp rfl with hq | ⟨m, hm, heq⟩ | ⟨w, hw, heq⟩
    · exact h.quiet hq hp
    · rw [heq]
      exact h.giveUp hm hp
    · rw [heq]
      exact h.acquire hw hp
  | false =>
    generalize hl : s.pc x = l at hp ⊢
    cases l with
    | inc w => exact h.inc hl
    | clear m => exact h.clear hl
    | clearOwner m o => exact h.clearOwner hl
    | dec o => exact h.dec hl
    | _ => cases hp

omit [DecidableEq C] [DecidableEq Cpu] [DecidableEq L] in
theorem Granted.cnt_of_dec (o : C) (hx : s.pc x = .dec o) : o = x ∧ s.cnt x ≠ 0 := by
  have hg := h.granting x
  have hc := h.count x
  rw [hx] at hg hc
  refine ⟨hg, ?_⟩
  rw [hc]
  exact Nat.succ_ne_zero _

end

end Ownership

section Runs

theorem granted_step (h : Granted s) (a : Cpu × Choice C L) : Granted (step T s a) := by
  rw [step]
  split
  · exact { h with }
  · exact { h with }
  · exact h.exec

theorem marked_step (h : Marked T s) (hg : Granted s) (a : Cpu × Choice C L) :
    Marked T (step T s a) := by
  obtain ⟨tok, h⟩ := h
  rw [step]
  split
  · rename_i hy
    exact ⟨tok, h.leftCheck hy⟩
  · rename_i hy
    exact ⟨_, h.leftMark hy⟩
  · rename_i hleft
    exact h.exec hleft hg.cnt_of_dec

section

omit [DecidableEq C] [DecidableEq Cpu] [DecidableEq L]

theorem granted_boot (T : Topology C Cpu) : Granted (boot T : State C Cpu L) :=
  ⟨nofun, fun _ => nodup_nil, fun _ => rfl, fun _ => trivial⟩

theorem marked_boot (T : Topology C Cpu) : Marked T (boot T : State C Cpu L) := by
  have hcur {p : Cpu} {t : C} (hb : (boot T : State C Cpu L).Busy p t) : T.kernel p = t := by
    rcases hb with hc | ⟨b, hb⟩
    · exact hc
    · cases hb
  refine ⟨fun _ => none, fun _ => iff_of_true rfl rfl, fun p t hb => .inr ⟨?_, rfl, nofun⟩,
    fun p q t hp hq => ?_, fun p _ => .inl (T.home_kernel p), fun _ => trivial, fun _ _ => rfl,
    fun _ _ => rfl, nofun⟩
  · rw [← hcur hb]
    exact T.home_kernel p
  · rw [← T.home_kernel p, ← T.home_kernel q, hcur hp, hcur hq]

end

theorem marked_run (T : Topology C Cpu) (as : List (Cpu × Choice C L)) :
    Granted (run (step T) (boot T) as) ∧ Marked T (run (step T) (boot T) as) := by
  have hstep : ∀ (s : State C Cpu L) a, Granted s ∧ Marked T s → True →
      Granted (step T s a) ∧ Marked T (step T s a) :=
    fun s a hs _ => ⟨granted_step hs.1 a, marked_step hs.2 hs.1 a⟩
  exact Machine.Along.invariant hstep ⟨granted_boot T, marked_boot T⟩
    (Machine.along_of_forall fun _ _ => trivial)

theorem runs_once_owned_once (T : Topology C Cpu) (as : List (Cpu × Choice C L)) :
    (∀ p q x, (run (step T) (boot T) as).cur p = x →
      (run (step T) (boot T) as).cur q = x → p = q) ∧
    ∀ l x y, l ∈ (run (step T) (boot T) as).held x →
      l ∈ (run (step T) (boot T) as).held y → x = y := by
  obtain ⟨hgranted, tok, hgood⟩ := marked_run T as
  refine ⟨fun p q x hp hq => hgood.once p q x (.inl hp) (.inl hq), fun l x y hx hy => ?_⟩
  exact Option.some.inj ((hgranted.owner x l hx).symm.trans (hgranted.owner y l hy))

end Runs

end Fiasco.SwitchLock
