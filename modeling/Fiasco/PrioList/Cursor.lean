import Fiasco.PrioList.Refinement

/-!
# Changing the labels of all senders

`sys_modify_senders` goes over a list of senders in portions of 50. The list may change between two
portions, and the cursor of the list stands at the sender to go on with. The cursor is not reset
when the last portion is done, and two calls for one wait queue share it.
-/
namespace Fiasco.PrioList

open List
open scoped Machine

variable {E Q : Type}

/-- What others do with the list. `modify` is a portion of another call, its first one or one behind a
preemption point. -/
inductive Edit (E : Type)
  | insert (e : E) (prio : Prio)
  | dequeue (e : E)
  | dequeueFirst
  | modify (again : Bool)

def Edit.plain : Edit E → Bool
  | .modify _ => false
  | _ => true

/-- The states of the list during a call, and the sender whose label is changed in a state. -/
abbrev Log (E Q : Type) := List (PrioList E Q × Option E)

/-- At a preemption point a wait queue that becomes empty may turn to receivers. -/
structure Pause (E : Type) where
  edits : List (Edit E)
  turns : Bool

inductive Call
  | thread (current : Bool) (words : ℕ)
  | waitQueue (hasSenders : Bool) (words : ℕ)

section

variable [DecidableEq E] [DecidableEq Q]

def modifyLabels (s : PrioList E Q) : ℕ → Option E → Option (List E × Option E)
  | 0, c => some ([], c)
  | _ + 1, none => some ([], none)
  | cnt + 1, some e => do
    let c ← s.next e
    let (es, c) ← modifyLabels s cnt c
    pure (e :: es, c)

def Edit.run (this : Q) (s : PrioList E Q) : Edit E → Option (PrioList E Q)
  | .insert e prio => (step this s (.insert e prio)).map Prod.fst
  | .dequeue e => (step this s (.dequeue e)).map Prod.fst
  | .dequeueFirst => (step this s .dequeueFirst).map Prod.fst
  | .modify again => do
    let (_, c) ← s.modifyLabels 50 (if again then s.cursor else s.first)
    pure (if c.isSome then { s with cursor := c } else s)

def preemptionPoint (this : Q) (s : PrioList E Q) : List (Edit E) → Option (PrioList E Q × Log E Q)
  | [] => some (s, [])
  | a :: as => do
    let s ← a.run this s
    let (s', log) ← preemptionPoint this s as
    pure (s', (s, none) :: log)

end

def visits (log : Log E Q) : List E := log.filterMap Prod.snd

def Whole (this : Q) (log : Log E Q) (e : E) : Prop := ∀ r ∈ log, r.1.queue e = some this

/-- Only those are visited that are in the list. Of those that stay in it all the time, the ones of
`u` are not visited and the ones of `v` once. -/
structure Served [DecidableEq E] (this : Q) (u v : List E) (log : Log E Q) : Prop where
  queued : ∀ r ∈ log, ∀ e ∈ r.2, r.1.queue e = some this
  once : ∀ e ∈ u ++ v, Whole this log e → (visits log).count e = if e ∈ v then 1 else 0

/-- The call ends at a preemption point: behind the last one nobody is visited. -/
def EndsAtPause (log : Log E Q) : Prop := ∃ r ∈ log.getLast?, r.2 = none

def Lists [DecidableEq Q] (this : Q) (s : PrioList E Q) (l : List E) : Prop :=
  ∃ rs q, Holds this s rs q ∧ elems rs = l

section Splits

variable {u v a b : List E} {e : E}

theorem split_insert (h : u ++ v = a ++ b) (e : E) : ∃ u' v', a ++ e :: b = u' ++ v' ∧
    v'.head? = v.head? ∧ u ⊆ u' ∧ v ⊆ v' := by
  rcases append_eq_append_iff.mp h with ⟨a', rfl, rfl⟩ | ⟨c, rfl, rfl⟩
  · cases a' with
    | nil => exact ⟨u ++ [e], b, by simp, rfl, by simp, by simp⟩
    | cons x a' => exact ⟨u, x :: a' ++ e :: b, by simp, rfl, by simp, by grind⟩
  · exact ⟨a ++ e :: c, v, by simp, rfl, by simp, by simp⟩

theorem split_erase [DecidableEq E] (h : u ++ v = a ++ e :: b) (hd : (a ++ e :: b).Nodup) :
    ∃ u' v', a ++ b = u' ++ v' ∧ v'.head? = (if v.head? = some e then b.head? else v.head?) ∧
      ∀ x, x ≠ e → (x ∈ u → x ∈ u') ∧ (x ∈ v → x ∈ v') := by
  have hne : ∀ x ∈ a ++ b, x ≠ e := by
    rintro x hx rfl
    exact (nodup_cons.mp (perm_middle.nodup_iff.mp hd)).1 hx
  rcases append_eq_append_iff.mp h with ⟨a', rfl, rfl⟩ | ⟨c, rfl, hc⟩
  · cases a' with
    | nil => exact ⟨u, b, by simp, by simp, fun x hx => by simp [hx]⟩
    | cons y a' => exact ⟨u, y :: a' ++ b, by simp, by simp [hne y], fun x hx => by simp [hx]⟩
  · cases c with
    | nil =>
      cases hc
      exact ⟨a, b, by simp, by simp, fun x hx => by simp [hx]⟩
    | cons y c =>
      cases hc
      refine ⟨a ++ c, v, by simp, ?_, fun x hx => by simp [hx]⟩
      rw [if_neg fun hh => hne e (by simp [mem_of_mem_head? hh]) rfl]

end Splits

variable {this : Q} {s s' : PrioList E Q} {l u v : List E} {e : E} {log log' : Log E Q}

section

variable [DecidableEq Q]

section

variable (h : Lists this s l)
include h

theorem Lists.mem : s.queue e = some this ↔ e ∈ l := by
  obtain ⟨rs, q, h, rfl⟩ := h
  exact h.queued e

theorem Lists.nodup : l.Nodup := by
  obtain ⟨rs, q, h, rfl⟩ := h
  exact h.nodup

theorem Lists.enumerates : Enumerates s l := by
  obtain ⟨rs, q, h, rfl⟩ := h
  exact h.toShape.enumerates

end

/-- The list has the senders `u` and `v`, and the cursor stands at the first one of `v`. -/
structure At (this : Q) (s : PrioList E Q) (u v : List E) : Prop where
  lists : Lists this s (u ++ v)
  cursor : s.cursor = v.head?

end

variable [DecidableEq E] [DecidableEq Q]

theorem At.takeOut (h : At this s u v) (he : s.queue e = some this) :
    ∃ s' u' v', s.takeOut e = some s' ∧ At this s' u' v' ∧ (v = [] → v' = []) ∧
      ∀ x, s'.queue x = some this → (x ∈ u → x ∈ u') ∧ (x ∈ v → x ∈ v') := by
  obtain ⟨⟨rs, q, hh, huv⟩, hc⟩ := h
  obtain ⟨s', rs', a, b, hout, hh', hqueue, ha, hb, hcur⟩ := hh.takeOut he
  have hd := hh.nodup
  rw [ha] at hd
  obtain ⟨u', v', hab, hhead, hkeep⟩ := split_erase (huv.symm.trans ha) hd
  refine ⟨s', u', v', hout, ⟨⟨rs', _, hh', hb.trans hab⟩, ?_⟩, fun hv => ?_, fun x hx => hkeep x ?_⟩
  · rw [hcur, hhead, hc]
  · rw [hv, head?_nil, if_neg nofun] at hhead
    exact head?_eq_none_iff.mp hhead
  · rintro rfl
    simp [hqueue] at hx

theorem At.edit (h : At this s u v) {a : Edit E} (ha : a.plain = true) :
    ∃ s' u' v', a.run this s = some s' ∧ At this s' u' v' ∧ (v = [] → v' = []) ∧
      ∀ x, s'.queue x = some this → (x ∈ u → x ∈ u') ∧ (x ∈ v → x ∈ v') := by
  have hsame : ∃ s' u' v', some s = some s' ∧ At this s' u' v' ∧ (v = [] → v' = []) ∧
      ∀ x, s'.queue x = some this → (x ∈ u → x ∈ u') ∧ (x ∈ v → x ∈ v') :=
    ⟨s, u, v, rfl, h, id, fun _ _ => ⟨id, id⟩⟩
  cases a with
  | insert e prio =>
    cases hq : s.queue e with
    | some t =>
      simp only [Edit.run, step, insertDirty, hq]
      exact hsame
    | none =>
      obtain ⟨⟨rs, q, hh, huv⟩, hc⟩ := h
      obtain ⟨s', rs', a, b, hins, hh', -, ha, hb, hcur⟩ := hh.insert hq prio
      obtain ⟨u', v', hab, hhead, hu, hv⟩ := split_insert (huv.symm.trans ha) e
      refine ⟨s', u', v', by simp [Edit.run, step, hins],
        ⟨⟨rs', _, hh', hb.trans hab⟩, by rw [hcur, hhead, hc]⟩, fun hnil => ?_, fun x _ => ⟨@hu x, @hv x⟩⟩
      rw [hnil, head?_nil] at hhead
      exact head?_eq_none_iff.mp hhead
  | dequeue e =>
    by_cases hq : s.queue e = some this
    · obtain ⟨s', u', v', hout, hrest⟩ := h.takeOut hq
      exact ⟨s', u', v', by simp [Edit.run, step, dequeue, hq, hout], hrest⟩
    · simp only [Edit.run, step, dequeue, if_neg hq]
      exact hsame
  | dequeueFirst =>
    cases hf : s.first with
    | none =>
      simp only [Edit.run, step, dequeueFirstDirty, hf]
      exact hsame
    | some f =>
      by_cases hq : s.queue f = some this
      · obtain ⟨s', u', v', hout, hrest⟩ := h.takeOut hq
        exact ⟨s', u', v', by simp [Edit.run, step, dequeueFirstDirty, hf, hq, hout], hrest⟩
      · simp only [Edit.run, step, dequeueFirstDirty, hf, if_neg hq]
        exact hsame
  | modify again => cases ha

theorem At.preemptionPoint (h : At this s u v) {as : List (Edit E)} (hp : ∀ a ∈ as, a.plain = true) :
    ∃ s' log u' v', preemptionPoint this s as = some (s', log) ∧ At this s' u' v' ∧
      (log = [] → v' = v) ∧ (v = [] → v' = []) ∧ ((∃ r ∈ log, r.1.first = none) → v' = []) ∧
      (∀ r ∈ log, r.2 = none) ∧ ∀ x, Whole this log x → (x ∈ u → x ∈ u') ∧ (x ∈ v → x ∈ v') := by
  induction as generalizing s u v with
  | nil => exact ⟨s, [], u, v, rfl, h, fun _ => rfl, id, nofun, nofun, fun _ _ => ⟨id, id⟩⟩
  | cons a as ih =>
    obtain ⟨ha, hp⟩ := forall_mem_cons.mp hp
    obtain ⟨s₁, u₁, v₁, hstep, h₁, hnil₁, hkeep₁⟩ := h.edit ha
    obtain ⟨s', log, u', v', hrun, h', -, hnil, hempty, hlog, hkeep⟩ := ih h₁ hp
    refine ⟨s', (s₁, none) :: log, u', v', by simp [PrioList.preemptionPoint, hstep, hrun], h', nofun,
      fun hv => hnil (hnil₁ hv), fun ⟨r, hr, hf⟩ => ?_, forall_mem_cons.mpr ⟨rfl, hlog⟩, fun x hx => ?_⟩
    · rcases mem_cons.mp hr with rfl | hr
      · -- the cursor of an empty list is null, and stays so
        rw [h₁.lists.enumerates.1, head?_eq_none_iff, append_eq_nil_iff] at hf
        exact hnil hf.2
      · exact hempty ⟨r, hr, hf⟩
    · obtain ⟨hx₁, hx⟩ := forall_mem_cons.mp hx
      exact ⟨fun hu => (hkeep x hx).1 ((hkeep₁ x hx₁).1 hu),
        fun hv => (hkeep x hx).2 ((hkeep₁ x hx₁).2 hv)⟩

section

omit [DecidableEq E] [DecidableEq Q]

/-- What becomes of the cursor when the loop starts at the first sender of `v`. -/
structure Leaves (s s' : PrioList E Q) (v : List E) (log : Log E Q) : Prop where
  short : v.length ≤ 50 → s' = s ∧ log = v.map fun e => (s, some e)
  long : 50 < v.length → log ≠ [] ∧ (s'.cursor = none ↔ EndsAtPause log)

theorem Leaves.cursor (h : Leaves s s' v log) (hv : v ≠ []) (hc : s.cursor ≠ none) :
    log ≠ [] ∧ (s'.cursor = none ↔ EndsAtPause log) := by
  by_cases hlt : 50 < v.length
  · exact h.long hlt
  · obtain ⟨rfl, rfl⟩ := h.short (Nat.le_of_not_lt hlt)
    refine ⟨by simpa using hv, iff_of_false hc ?_⟩
    rintro ⟨r, hr, hnone⟩
    obtain ⟨e, -, rfl⟩ := mem_map.mp (mem_of_getLast? hr)
    cases hnone

end

def senders : ℕ → PrioList ℕ ℕ
  | 0 => blank
  | n + 1 => ((insertDirty 0 (senders n) n 5).map Prod.fst).getD blank

/-- At the preemption point the last of 51 senders is dequeued, and another one comes. -/
def drained : List (Pause ℕ) := [⟨[.insert 60 7, .dequeue 50], false⟩]

end Fiasco.PrioList
