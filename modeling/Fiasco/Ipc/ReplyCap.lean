import Mathlib

/-!
# Reply capabilities

A receiver has one implicit capability to reply, `_reply_cap`, that names the caller. The
caller points to it with `_partner_reply_cap`. The link is stored twice, and the operations
update the two ends.
-/
namespace Fiasco.Ipc

open Function Option

variable {T : Type*}

structure ReplyCap (T : Type*) where
  receiver : T
  rights : Fin 4
deriving DecidableEq

/-- The two ends for all threads; a pointer to a `_reply_cap` is the thread it belongs to. -/
structure Links (T : Type*) where
  replyCap : T → Option (ReplyCap T)
  partnerReplyCap : T → Option T

namespace Links

def Names (l : Links T) (r c : T) : Prop := ∃ rights, l.replyCap r = some ⟨c, rights⟩

def Linked (l : Links T) : Prop := ∀ r c, l.Names r c ↔ l.partnerReplyCap c = some r

def none : Links T := ⟨fun _ => .none, fun _ => .none⟩

variable {l : Links T} {r r' c c' old : T} {rights : Fin 4} {cond : Prop}

theorem map_receiver_eq_iff : (l.replyCap r).map ReplyCap.receiver = .some c ↔ l.Names r c := by
  rw [map_eq_some_iff, Names]
  constructor
  · rintro ⟨⟨_, rights⟩, h, rfl⟩
    exact ⟨rights, h⟩
  · rintro ⟨rights, h⟩
    exact ⟨⟨c, rights⟩, h, rfl⟩

theorem linked_none : (none : Links T).Linked := by
  intro r c
  simp [Names, none]

theorem Linked.caller_unique (h : l.Linked) (hr : l.Names r c) (hr' : l.Names r' c) : r = r' := by
  rw [h] at hr hr'
  exact some.inj (hr.symm.trans hr')

theorem Names.unique (h : l.Names r c) (h' : l.Names r c') : c = c' := by
  obtain ⟨rights, hc⟩ := h
  obtain ⟨rights', hc'⟩ := h'
  rw [hc] at hc'
  cases hc'
  rfl

variable [DecidableEq T]

def resetPartnerReplyCap (l : Links T) (c : T) : Links T :=
  match l.partnerReplyCap c with
  | .none => l
  | .some r =>
    { partnerReplyCap := update l.partnerReplyCap c .none
      replyCap :=
        if (l.replyCap r).map ReplyCap.receiver = .some c then update l.replyCap r .none
        else l.replyCap }

def resetCallerOf (l : Links T) (r old : T) : Links T :=
  if (l.replyCap r).map ReplyCap.receiver = .some old then l.resetPartnerReplyCap old else l

def resetCaller (l : Links T) (r : T) : Links T :=
  { replyCap := update l.replyCap r .none
    partnerReplyCap :=
      match l.replyCap r with
      | .none => l.partnerReplyCap
      | .some cap =>
        if l.partnerReplyCap cap.receiver = .some r then
          update l.partnerReplyCap cap.receiver .none
        else l.partnerReplyCap }

def setReplyCap (l : Links T) (want : Bool) (r c : T) (rights : Fin 4) : Links T :=
  if !want then l
  else
    let l' := if (l.replyCap r).isSome then l.resetCaller r else l
    { replyCap := update l'.replyCap r (some ⟨c, rights⟩)
      partnerReplyCap := update l'.partnerReplyCap c (some r) }

theorem names_update {x : Option (ReplyCap T)} {p : T → Option T} :
    Names ⟨update l.replyCap r x, p⟩ r' c ↔
      if r' = r then ∃ rights, x = some ⟨c, rights⟩ else l.Names r' c := by
  by_cases h : r' = r
  · subst h
    simp [Names]
  · simp [Names, h]

theorem partnerReplyCap_resetPartner (l : Links T) (c : T) :
    (l.resetPartnerReplyCap c).partnerReplyCap = update l.partnerReplyCap c .none := by
  rw [resetPartnerReplyCap]
  split
  · next h => rw [← h, update_eq_self]
  · rfl

theorem Linked.names_resetPartner (h : l.Linked) :
    (l.resetPartnerReplyCap c).Names r c' ↔ l.Names r c' ∧ c' ≠ c := by
  rw [resetPartnerReplyCap]
  split
  · next hp =>
    refine ⟨fun hn => ⟨hn, ?_⟩, fun hn => hn.1⟩
    rintro rfl
    rw [h, hp] at hn
    cases hn
  · next q hp =>
    have hq : l.Names q c := (h q c).2 hp
    simp only [map_receiver_eq_iff.2 hq, if_true, names_update]
    split_ifs with hr
    · subst hr
      simp only [exists_false, false_iff, not_and, not_not]
      exact fun hn => hn.unique hq
    · refine ⟨fun hn => ⟨hn, ?_⟩, fun hn => hn.1⟩
      rintro rfl
      exact hr (h.caller_unique hn hq)

theorem Linked.resetPartner (h : l.Linked) : (l.resetPartnerReplyCap c).Linked := by
  intro r c'
  rw [h.names_resetPartner, partnerReplyCap_resetPartner, h]
  by_cases hc : c' = c
  · subst hc
    simp
  · simp [hc]

theorem Linked.names_resetCallerOf (h : l.Linked) :
    (l.resetCallerOf r old).Names r' c ↔ l.Names r' c ∧ ¬(r' = r ∧ c = old) := by
  rw [resetCallerOf]
  split_ifs with hn <;> rw [map_receiver_eq_iff] at hn
  · rw [h.names_resetPartner]
    refine and_congr_right fun hc => not_congr ⟨fun he => ⟨?_, he⟩, fun he => he.2⟩
    exact h.caller_unique hc (he ▸ hn)
  · refine ⟨fun hc => ⟨hc, ?_⟩, fun hc => hc.1⟩
    rintro ⟨rfl, rfl⟩
    exact hn hc

theorem Linked.resetCallerOf (h : l.Linked) : (l.resetCallerOf r old).Linked := by
  rw [Links.resetCallerOf]
  split_ifs
  · exact h.resetPartner
  · exact h

theorem names_resetCaller : (l.resetCaller r).Names r' c ↔ l.Names r' c ∧ r' ≠ r := by
  rw [resetCaller, names_update]
  split_ifs with hr <;> simp [hr]

theorem Linked.resetCaller (h : l.Linked) : (l.resetCaller r).Linked := by
  intro r' c
  rw [names_resetCaller, h, Links.resetCaller]
  cases hr : l.replyCap r with
  | none =>
    -- nobody points to an empty capability
    refine ⟨fun hp => hp.1, fun hp => ⟨hp, ?_⟩⟩
    rintro rfl
    obtain ⟨rights, hn⟩ := (h r' c).2 hp
    rw [hr] at hn
    cases hn
  | some cap =>
    have hp : l.partnerReplyCap cap.receiver = some r := (h r _).1 ⟨cap.rights, hr⟩
    simp only [hp, if_true]
    by_cases hc : c = cap.receiver
    · subst hc
      simp only [hp, update_self, some.injEq, reduceCtorEq, iff_false, not_and, not_not]
      exact fun he => he.symm
    · simp only [update_of_ne hc]
      refine ⟨fun hp => hp.1, fun hp' => ⟨hp', ?_⟩⟩
      rintro rfl
      obtain ⟨rights, hn⟩ := (h r' c).2 hp'
      rw [hr] at hn
      exact hc (congrArg ReplyCap.receiver (some.inj hn)).symm

theorem names_cleared [Decidable cond] (hcond : (l.replyCap r).isSome → cond) :
    (if cond then l.resetCaller r else l).Names r' c ↔ l.Names r' c ∧ r' ≠ r := by
  split_ifs with h
  · exact names_resetCaller
  · refine ⟨fun hn => ⟨hn, ?_⟩, fun hn => hn.1⟩
    rintro rfl
    obtain ⟨rights, hn⟩ := hn
    exact h (hcond (by simp [hn]))

theorem Linked.cleared [Decidable cond] (h : l.Linked) :
    (if cond then l.resetCaller r else l).Linked := by
  split_ifs
  · exact h.resetCaller
  · exact h

theorem names_setReplyCap : (l.setReplyCap true r c rights).Names r' c' ↔
    if r' = r then c' = c else l.Names r' c' := by
  rw [setReplyCap]
  simp only [Bool.not_true, Bool.false_eq_true, if_false, names_update]
  split_ifs with hr hs
  · simp [eq_comm]
  · rw [names_resetCaller]
    simp [hr]
  · exact .rfl

theorem Linked.setReplyCap_iff (h : l.Linked) :
    (l.setReplyCap true r c rights).Linked ↔ ∀ q, l.Names q c → q = r := by
  constructor
  · intro hl q hq
    by_contra hne
    have hq' : (l.setReplyCap true r c rights).Names q c := by
      rw [names_setReplyCap, if_neg hne]
      exact hq
    have hr' : (l.setReplyCap true r c rights).Names r c := by
      rw [names_setReplyCap, if_pos rfl]
    exact hne (hl.caller_unique hq' hr')
  · intro hother r' c'
    have hpartner : (l.setReplyCap true r c rights).partnerReplyCap c' =
        if c' = c then some r else
          (if (l.replyCap r).isSome then l.resetCaller r else l).partnerReplyCap c' := by
      rw [setReplyCap]
      simp only [Bool.not_true, Bool.false_eq_true, if_false, update_apply]
    rw [hpartner, names_setReplyCap]
    by_cases hc : c' = c
    · subst hc
      simp only [if_true, some.injEq]
      split_ifs with hr
      · simp [hr]
      · exact iff_of_false (fun hn => hr (hother r' hn)) fun he => hr he.symm
    · rw [if_neg hc, ← h.cleared r' c', names_cleared id]
      split_ifs with hr <;> simp [hr, hc]

end Links

end Fiasco.Ipc
