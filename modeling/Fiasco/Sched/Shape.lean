import Fiasco.Sched.Model

/-!
# Who may change the home CPU

The home CPU of a context changes on the home CPU itself, or, if that one is offline, under the lock
of its queue. The context is in no queue but the one of its home CPU as long as nobody puts it into
the queue of an offline CPU.
-/
namespace Fiasco.Sched

open Interleaving Function
variable {Cpu M D : Type}

section

variable (p : Cpu) (g : Shared Cpu M D)

def Away (q : Cpu) : Prop :=
  g.home = q ∧ g.online q = false ∧ g.lock q = some p

def AtSource : Source Cpu → Prop
  | .home _ => g.home = p
  | .remote q => Away p g q

def AtDrq : Option Cpu → Prop
  | none => g.home = p
  | some q => Away p g q

def AtRet : Ret Cpu → Prop
  | .unlock t _ => Away p g t
  | .rest | .loop _ | .self _ => g.home = p

end

def Fits (target : M → Cpu) (p : Cpu) (g : Shared Cpu M D) : Pc Cpu M D → Prop
  | .xcpuCheck q | .drqCheck _ q => g.lock q = some p
  | .startLoad s | .startCas s _ | .compare s _ | .sameDone s _ => AtSource p g s
  | .awayLock _ m => g.home = p ∧ target m ≠ p
  | .awayHome s m => AtSource p g s ∧ g.lock (s.lock p) = some p ∧ target m ≠ g.home
  | .awayDone s _ | .awayUnlock s _ => g.lock (s.lock p) = some p
  | .toFirst _ t | .toSecond _ t => g.lock t = some p
  | .irqLoop curr mq | .irqEnd curr mq => mq = true → curr = true ∧ g.home = p
  | .request curr mq | .requestDrq curr mq => g.home = p ∧ (mq = true → curr = true)
  | .drqRun _ => g.home = p
  | .deqTake _ o | .deqCheck _ o | .deqClear _ o | .deqRun _ o => AtDrq p g o
  | .drqs k | .drqsLoop k | .drqsRun _ k | .drqsClear k => AtRet p g k
  | _ => True

def Pc.second : Pc Cpu M D → Option Cpu
  | .toSecond _ t => some t
  | _ => none

def Sound (s : State Cpu M D) (a : Cpu × Choice Cpu M D) : Prop :=
  ∀ t ∈ (s.loc a.1).second, s.shared.home = t → s.shared.online t = true

structure Later (p : Cpu) (g g' : Shared Cpu M D) : Prop where
  home : g'.home = g.home ∨ g.home = p ∨ Away p g g.home
  lock : ∀ j q, j ≠ p → g.lock q = some j → g'.lock q = some j
  online : ∀ q, q ≠ p → g'.online q = g.online q

structure Stands (target : M → Cpu) (p : Cpu) (g : Shared Cpu M D) (l : Pc Cpu M D) : Prop where
  online : l ≠ .rest → g.online p = true
  fits : Fits target p g l

variable {target : M → Cpu} {g g' : Shared Cpu M D} {l : Pc Cpu M D}

section Others

variable {p j q : Cpu}

theorem Away.later (h : Away j g q) (hl : Later p g g') (hj : j ≠ p) (hp : g.online p = true) :
    Away j g' q := by
  obtain ⟨hh, ho, hq⟩ := h
  have hqp : q ≠ p := by
    rintro rfl
    rw [ho] at hp
    cases hp
  refine ⟨?_, (hl.online q hqp).trans ho, hl.lock j q hj hq⟩
  rcases hl.home with h | h | h
  · exact h.trans hh
  · exact (hqp (hh.symm.trans h)).elim
  · -- the lock has one holder
    obtain ⟨-, -, hlock⟩ := h
    rw [hh, hq] at hlock
    cases hlock
    exact (hj rfl).elim

theorem home_later (h : g.home = j) (hon : g.online j = true) (hl : Later p g g') (hj : j ≠ p) :
    g'.home = j := by
  rcases hl.home with hh | hh | ⟨-, ho, -⟩
  · exact hh.trans h
  · exact (hj (h.symm.trans hh)).elim
  · rw [h, hon] at ho
    cases ho

theorem Stands.later (h : Stands target j g l) (hl : Later p g g') (hj : j ≠ p)
    (hp : g.online p = true) : Stands target j g' l := by
  refine ⟨fun hr => (hl.online j hj).trans (h.online hr), ?_⟩
  have hf := h.fits
  have hhome (hr : l ≠ .rest) (hh : g.home = j) : g'.home = j := home_later hh (h.online hr) hl hj
  have hsource {s : Source Cpu} (hr : l ≠ .rest) (hs : AtSource j g s) : AtSource j g' s := by
    cases s with
    | home f => exact hhome hr hs
    | remote q => exact hs.later hl hj hp
  have hdrq {o : Option Cpu} (hr : l ≠ .rest) (ho : AtDrq j g o) : AtDrq j g' o := by
    cases o with
    | none => exact hhome hr ho
    | some q => exact ho.later hl hj hp
  have hret {k : Ret Cpu} (hr : l ≠ .rest) (hk : AtRet j g k) : AtRet j g' k := by
    cases k with
    | unlock t f => exact hk.later hl hj hp
    | rest | loop _ | self _ => exact hhome hr hk
  cases l with
  | xcpuCheck q | drqCheck _ q | toFirst _ q | toSecond _ q => exact hl.lock j q hj hf
  | startLoad s | startCas s _ | compare s _ | sameDone s _ => exact hsource nofun hf
  | awayLock f m | request _ _ | requestDrq _ _ => exact ⟨hhome nofun hf.1, hf.2⟩
  | awayHome s m =>
    obtain ⟨hs, hlock, ht⟩ := hf
    refine ⟨hsource nofun hs, hl.lock j _ hj hlock, ?_⟩
    have heq : g'.home = g.home := by
      cases s with
      | home f => exact (hhome nofun hs).trans hs.symm
      | remote q => exact (hs.later hl hj hp).1.trans hs.1.symm
    rw [heq]
    exact ht
  | awayDone s _ | awayUnlock s _ => exact hl.lock j _ hj hf
  | irqLoop _ _ | irqEnd _ _ => exact fun hm => ⟨(hf hm).1, hhome nofun (hf hm).2⟩
  | drqRun _ => exact hhome nofun hf
  | deqTake _ o | deqCheck _ o | deqClear _ o | deqRun _ o => exact hdrq nofun hf
  | drqs k | drqsLoop k | drqsRun _ k | drqsClear k => exact hret nofun hf
  | _ => trivial

end Others

def Queued (g : Shared Cpu M D) : Prop := ∀ q, g.queued = some q → g.home = q ∧ g.online q = true

structure Kept (target : M → Cpu) (p : Cpu) (g : Shared Cpu M D) (r : Shared Cpu M D × Pc Cpu M D) :
    Prop where
  queued : Queued r.1
  later : Later p g r.1
  stands : Stands target p r.1 r.2

section Step

variable {p q : Cpu}

theorem fits_finish (f : From) : Fits target p g f.finish := by
  cases f <;> trivial

theorem Kept.frame (hq : Queued g) (hp : g.online p = true) (hhome : g'.home = g.home)
    (hqueued : g'.queued = g.queued ∨ g'.queued = none) (hlock : g'.lock = g.lock)
    (honline : g'.online = g.online) (hfits : Fits target p g' l) : Kept target p g (g', l) := by
  refine ⟨fun q h => ?_, ⟨.inl hhome, fun j q _ h => ?_, fun q _ => ?_⟩, fun _ => ?_, hfits⟩
  · rcases hqueued with heq | heq
    · rw [hhome, honline]
      exact hq q (heq ▸ h)
    · rw [heq] at h
      cases h
  · rw [hlock]
    exact h
  · rw [honline]
  · rw [honline]
    exact hp

theorem Kept.quiet (hq : Queued g) (hp : g.online p = true) (hfits : Fits target p g l) :
    Kept target p g (g, l) :=
  .frame hq hp rfl (.inl rfl) rfl rfl hfits

variable [DecidableEq Cpu] {s : Source Cpu}

theorem Kept.release (h : Kept target p g (g', l)) (hlock : g.lock q = some p)
    (hfits : Fits target p (g'.release q) l) : Kept target p g (g'.release q, l) := by
  refine ⟨h.queued, ⟨h.later.home, fun j r hj hr => ?_, h.later.online⟩, h.stands.online, hfits⟩
  have hne : r ≠ q := by
    rintro rfl
    rw [hlock] at hr
    exact hj (Option.some.inj hr).symm
  change update g'.lock q none r = some j
  rw [update_of_ne hne]
  exact h.later.lock j r hj hr

theorem Kept.source (h : ∀ l, Fits target p g' l → Kept target p g (g', l))
    (hs : AtSource p g s) : Kept target p g (s.finish g') := by
  cases s with
  | home f => exact h _ (fits_finish f)
  | remote q => exact (h .rest trivial).release hs.2.2 trivial

theorem Kept.ret (h : ∀ l, Fits target p g' l → Kept target p g (g', l)) {k : Ret Cpu}
    (hk : AtRet p g k) (hhome : g'.home = g.home) : Kept target p g (k.finish g') := by
  cases k with
  | rest => exact h .rest trivial
  | loop mq => exact h _ fun _ => ⟨rfl, hhome.trans hk⟩
  | unlock t f => exact (h _ (fits_finish f)).release hk.2.2 (fits_finish f)
  | self f => exact h _ (fits_finish f)

variable (hq : Queued g) (hp : g.online p = true)
include hq hp

theorem Kept.acquire (hfree : g.lock q = none)
    (hfits : Fits target p (g.acquire p q) l) : Kept target p g (g.acquire p q, l) := by
  refine ⟨hq, ⟨.inl rfl, fun j r _ hr => ?_, fun _ _ => rfl⟩, fun _ => hp, hfits⟩
  have hne : r ≠ q := by
    rintro rfl
    rw [hfree] at hr
    cases hr
  change update g.lock q (some p) r = some j
  rw [update_of_ne hne]
  exact hr

theorem Kept.enqueue (hlock : g.lock q = some p)
    (hhome : g.home = q) (hon : g.online q = true) (f : From) :
    Kept target p g (g.enqueue q f) := by
  have hend : Kept target p g (g, f.finish) := .quiet hq hp (fits_finish f)
  have hput {l : Pc Cpu M D} (hl : Fits target p (({ g with queued := some q }).release q) l) :
      Kept target p g (({ g with queued := some q }).release q, l) := by
    refine ⟨fun r hr => ?_, ⟨.inl rfl, (hend.release hlock (fits_finish f)).later.lock,
      fun _ _ => rfl⟩, fun _ => hp, hl⟩
    cases hr
    exact ⟨hhome, hon⟩
  rw [Shared.enqueue]
  split_ifs with hnone hempty
  · exact hput trivial
  · exact hput (fits_finish f)
  · exact hend.release hlock (fits_finish f)

theorem Kept.dequeueFirst (other : Bool) {curr mq : Bool}
    (hf : mq = true → curr = true ∧ g.home = p) :
    Kept target p g (dequeueFirst p g other curr mq) := by
  rw [Sched.dequeueFirst]
  split_ifs with hfree hfirst hothers
  · exact .frame hq hp rfl (.inr rfl) rfl rfl ⟨(hq p hfirst.1).1, fun h => (hf h).1⟩
  · exact .frame hq hp rfl (.inl rfl) rfl rfl hf
  · exact .quiet hq hp hf
  · exact .quiet hq hp hf

theorem Kept.awayHome {m : M} (hs : AtSource p g s) (hlock : g.lock (s.lock p) = some p) :
    Kept target p g ({ g with home := target m, queued := if g.queued = some p then none else g.queued },
      .awayDone s m) := by
  have hnone : (if g.queued = some p then none else g.queued) = none := by
    split_ifs with hqp
    · rfl
    · by_contra hne
      obtain ⟨q, hqq⟩ := Option.ne_none_iff_exists'.mp hne
      obtain ⟨hh, hon⟩ := hq q hqq
      cases s with
      | home f => exact hqp (hqq.trans (congrArg some (hh.symm.trans hs)))
      | remote r =>
        rw [← hh, hs.1, hs.2.1] at hon
        cases hon
  refine ⟨fun q hqq => ?_, ⟨.inr ?_, fun _ _ _ h => h, fun _ _ => rfl⟩, fun _ => hp, hlock⟩
  · rw [hnone] at hqq
    cases hqq
  · cases s with
    | home f => exact .inl hs
    | remote q =>
      refine .inr ?_
      rw [hs.1]
      exact hs

variable [DecidableEq M] [DecidableEq D]

theorem Kept.start (curr : Bool) (op : Op Cpu M D) : Kept target p g (start p g curr op) := by
  cases op with
  | takeOffline =>
    rw [Sched.start]
    split_ifs with hfree hempty
    · have hne : g.queued ≠ some p := (of_decide_eq_true hempty).1
      refine ⟨fun q hr => ?_, ⟨.inl rfl, fun _ _ _ h => h, fun q hqp => ?_⟩, fun h => absurd rfl h, trivial⟩
      · have hqp : q ≠ p := by
          rintro rfl
          exact hne hr
        refine ⟨(hq q hr).1, ?_⟩
        exact (update_of_ne hqp ..).trans (hq q hr).2
      · exact update_of_ne hqp ..
    · exact .quiet hq hp nofun
    · exact .quiet hq hp trivial
  | _ =>
    simp only [Sched.start]
    (repeat' split) <;> refine .frame hq hp rfl (.inl rfl) rfl rfl ?_ <;>
      first | trivial | assumption | exact nofun

theorem Kept.exec (hf : Fits target p g l)
    (hsound : ∀ t ∈ l.second, g.home = t → g.online t = true) (c : Choice Cpu M D) :
    Kept target p g (exec target p g c l) := by
  cases l with
  | rest => exact .start hq hp c.curr c.op
  | xcpuLock q | awayLock f m | toLock f t | drqLock d q =>
    rw [exec, Shared.spin]
    split_ifs with hfree
    · refine .acquire hq hp hfree ?_
      first
      | exact update_self ..
      | exact ⟨hf.1, update_self .., hf.1.symm ▸ hf.2⟩
    · exact .quiet hq hp hf
  | xcpuCheck q | drqCheck d q =>
    rw [exec]
    split_ifs with hhome hon
    · exact .enqueue hq hp hf hhome hon .call
    · exact .quiet hq hp ⟨hhome, Bool.eq_false_iff.mpr hon, hf⟩
    · exact Kept.release (.quiet hq hp trivial) hf trivial
  | startLoad s | startCas s m =>
    rw [exec]
    split
    · exact .frame hq hp rfl (.inl rfl) rfl rfl (by cases s <;> exact hf)
    · exact .source (fun _ => .quiet hq hp) hf
  | compare s m =>
    cases s with
    | home f =>
      rw [exec]
      split_ifs with ht
      · exact .quiet hq hp hf
      · exact .quiet hq hp ⟨hf, fun h => ht (h.trans hf.symm)⟩
    | remote q =>
      rw [exec]
      split_ifs with ht
      · exact .quiet hq hp hf
      · exact .quiet hq hp ⟨hf, hf.2.2, ht⟩
  | sameDone s m =>
    rw [exec]
    apply Kept.source _ hf
    intro l hl
    exact .frame hq hp rfl (.inl rfl) rfl rfl hl
  | awayHome s m => exact .awayHome hq hp hf.1 hf.2.1
  | awayUnlock s t => exact Kept.release (.quiet hq hp trivial) hf trivial
  | toFirst f t =>
    rw [exec]
    split_ifs with hoff
    · exact .quiet hq hp ⟨hoff.1, hoff.2, hf⟩
    · exact .quiet hq hp hf
  | toSecond f t =>
    rw [exec]
    split_ifs with hgone hself
    · exact Kept.release (.quiet hq hp (fits_finish f)) hf (fits_finish f)
    · have hhome : g.home = p := (not_or.mp hgone).1 |> not_not.mp |>.trans hself
      exact Kept.release (.quiet hq hp hhome) hf hhome
    · have hhome : g.home = t := not_not.mp (not_or.mp hgone).1
      exact .enqueue hq hp hf hhome (hsound t rfl hhome) f
  | irqLoop curr mq => exact .dequeueFirst hq hp c.other hf
  | request curr mq =>
    rw [exec]
    split_ifs with hnone hcurr
    · exact .quiet hq hp hf
    · exact .quiet hq hp ⟨hf.1, fun _ => hcurr⟩
    · exact .quiet hq hp hf.1
  | requestAfter =>
    rw [exec]
    split_ifs with hhome
    · exact .quiet hq hp ⟨hhome, nofun⟩
    · exact .quiet hq hp nofun
  | requestDrq curr mq =>
    rw [exec]
    split_ifs with hnone hcurr
    · exact .quiet hq hp fun h => ⟨hf.2 h, hf.1⟩
    · exact .quiet hq hp hf.1
    · exact .frame hq hp rfl (.inl rfl) rfl rfl fun h => ⟨hf.2 h, hf.1⟩
  | irqEnd curr mq =>
    rw [exec]
    split_ifs with hmq
    · exact .quiet hq hp (hf hmq).2
    · exact .quiet hq hp trivial
  | irqFinal curr =>
    rw [exec]
    split_ifs with hcurr
    · exact .quiet hq hp hcurr.2
    · exact .quiet hq hp trivial
  | drqs k =>
    rw [exec]
    split_ifs
    · exact .ret (fun _ => .quiet hq hp) hf rfl
    · exact .quiet hq hp hf
  | drqsClear k =>
    rw [exec]
    apply Kept.ret _ hf
    · rfl
    · intro l hl
      exact .frame hq hp rfl (.inl rfl) rfl rfl hl
  | drqsLoop k | drqsRun d k =>
    simp only [exec]
    (repeat' split) <;> exact .frame hq hp rfl (.inl rfl) rfl rfl (by cases k <;> exact hf)
  | deqTake d o | deqClear d o | deqRun d o =>
    cases o <;> simp only [exec] <;> (repeat' split) <;>
      first
      | exact .frame hq hp rfl (.inl rfl) rfl rfl hf
      | exact .frame hq hp rfl (.inl rfl) rfl rfl trivial
      | exact Kept.release (.frame hq hp rfl (.inl rfl) rfl rfl trivial) hf.2.2 trivial
  | _ =>
    simp only [exec]
    (repeat' split) <;> refine .frame hq hp rfl (.inl rfl) rfl rfl ?_ <;>
      first | trivial | assumption | exact fits_finish _

end Step

section Run

variable [DecidableEq Cpu] [DecidableEq M] [DecidableEq D] {s : State Cpu M D}
  {a : Cpu × Choice Cpu M D}

def Shape (target : M → Cpu) (s : State Cpu M D) : Prop :=
  Inv Queued (Stands target) (fun _ _ => True) s

omit [DecidableEq Cpu] [DecidableEq M] [DecidableEq D] in
theorem Shape.boot (home : Cpu) (online : Cpu → Bool) : Shape target (boot home online : State Cpu M D) :=
  ⟨nofun, fun _ => ⟨fun h => absurd rfl h, trivial⟩, fun _ _ _ => trivial⟩

theorem Shape.kept (hs : Shape target s) (hp : s.shared.online a.1 = true)
    (ha : Sound s a) : Kept target a.1 s.shared (exec target a.1 s.shared a.2 (s.loc a.1)) :=
  .exec hs.shared hp (hs.loc a.1).fits ha a.2

theorem Shape.step (hs : Shape target s) (ha : Sound s a) : Shape target (step target s a) := by
  rw [Sched.step]
  split_ifs with hp
  · have hk := hs.kept hp ha
    apply Inv.move hs (fun _ _ _ => trivial) hk.queued hk.stands
    intro j hj
    exact ⟨(hs.loc j).later hk.later hj hp, trivial⟩
  · exact hs

end Run

end Fiasco.Sched
