import Fiasco.Obj.Space

/-!
# The mapping database of kernel objects

Each object has a flat list of the entries that name it, and a counter of those entries that are not
weak. The functions do not look at the object that an entry names; `Linked` is what they keep.
-/

namespace Fiasco.Obj

open List Function

structure MapMask where
  selfUnmap : Bool
  doDelete : Bool
deriving DecidableEq, Repr

def MapMask.full : MapMask := ⟨true, true⟩

variable {S O R : Type} [DecidableEq S] [DecidableEq R]

namespace State

variable (L : Layout O R) (s : State S O R)

section

variable (r : R)

def relist (m : Mappable S) : State S O R :=
  { s with mappable := update s.mappable r m }

def invalidateAll : List (Slot S) → (Slot S → Entry O) → ℤ → (Slot S → Entry O) × ℤ
  | [], tab, cnt => (tab, cnt)
  | x :: xs, tab, cnt =>
    invalidateAll xs (update tab x (tab x).invalidate)
      (if (tab x).isRefCounted then cnt - 1 else cnt)

def invalidateMappings : State S O R :=
  let p := invalidateAll (s.mappable r).root s.tab (s.mappable r).cnt
  { s.relist r ⟨[], p.2⟩ with tab := p.1 }

/-- `List::remove`. An entry that is not linked may have pointers from a list that has been
cleared. -/
def unlink (x : Slot S) : State S O R :=
  if x ∈ (s.mappable r).root then
    s.relist r { s.mappable r with root := (s.mappable r).root.erase x }
  else { s with fault := true }

def decCnt : State S O R :=
  s.relist r { s.mappable r with cnt := (s.mappable r).cnt - 1 }

def flush (x : Slot S) (mask : MapMask) : State S O R :=
  if !mask.selfUnmap then s
  else if mask.doDelete && (s.tab x).deleteRights then s.invalidateMappings r
  else if !(s.tab x).isRefCounted then s.unlink r x
  else if (s.mappable r).cnt ≤ 1 then s.invalidateMappings r
  else (s.decCnt r).unlink r x

def freeObject : State S O R :=
  if (s.mappable r).root.isEmpty then { s with reap := s.reap ++ [r] } else s

def insert (x : Slot S) : State S O R :=
  s.relist r
    { root := x :: (s.mappable r).root
      cnt := if (s.tab x).isRefCounted then (s.mappable r).cnt + 1 else (s.mappable r).cnt }

/-- `List::replace`. The pointers of an entry that is not linked are null or those of a list that
has been cleared, and the new entry is written to where they point. -/
def replace (se re : Slot S) : State S O R :=
  if se ∈ (s.mappable r).root then
    s.relist r { s.mappable r with
      root := (s.mappable r).root.map fun x => if x = se then re else x }
  else { s with fault := true }

def grant (se re : Slot S) : State S O R :=
  let t := s.replace r se re
  if (t.tab se).isRefCounted && !(t.tab re).isRefCounted then
    let t := t.decCnt r
    if (t.mappable r).cnt ≤ 0 then t.invalidateMappings r else t
  else t

def insertRootMapping (x : Slot S) : State S O R :=
  { s.relist r { root := x :: (s.mappable r).root, cnt := 1 } with
    tab := update s.tab x (s.tab x).putAsRoot }

end

def names (x : Slot S) : Option R := (s.entry L x).obj.map L.mapRoot

structure Linked : Prop where
  mem : ∀ r x, x ∈ (s.mappable r).root ↔ s.names L x = some r
  nodup : ∀ r, (s.mappable r).root.Nodup
  cnt : ∀ r, (s.mappable r).cnt =
    (s.mappable r).root.countP fun x => (s.entry L x).isRefCounted

variable {mask : MapMask} {x y : Slot S} {r r' : R}

section Effects

variable {L s} {xs : List (Slot S)} {m : Mappable S} {tab : Slot S → Entry O} {cnt : ℤ}

section

omit [DecidableEq S]

@[simp]
theorem mappable_relist : (s.relist r m).mappable r = m := update_self ..

theorem mappable_relist_of_ne (hr : r' ≠ r) :
    (s.relist r m).mappable r' = s.mappable r' := update_of_ne hr ..

@[simp]
theorem relist_relist {m' : Mappable S} : (s.relist r m).relist r m' = s.relist r m' := by
  simp only [relist, update_idem]

theorem entry_relist : (s.relist r m).entry L = s.entry L := rfl

end

theorem invalidateAll_fst :
    (invalidateAll xs tab cnt).1 y = if y ∈ xs then (tab y).invalidate else tab y := by
  induction xs generalizing tab cnt with
  | nil => rfl
  | cons x xs ih =>
    rw [invalidateAll, ih, update_apply]
    by_cases hy : y = x
    · subst hy
      simp only [if_true, mem_cons, true_or]
      split_ifs <;> rfl
    · simp only [hy, if_false, mem_cons, false_or]

theorem invalidateAll_snd :
    (invalidateAll xs tab cnt).2 = cnt - xs.countP fun x => (tab x).isRefCounted := by
  induction xs generalizing tab cnt with
  | nil => simp [invalidateAll]
  | cons x xs ih =>
    have hflags : ∀ z, (update tab x (tab x).invalidate z).isRefCounted =
        (tab z).isRefCounted := by
      intro z
      rw [update_apply]
      split_ifs with hz
      · rw [hz]; rfl
      · rfl
    rw [invalidateAll, ih]
    simp only [hflags, countP_cons]
    split_ifs <;> push_cast <;> omega

theorem entry_invalidateMappings : (s.invalidateMappings r).entry L y =
    if y ∈ (s.mappable r).root then (s.entry L y).invalidate else s.entry L y := by
  rw [entry_tab (f := fun z e => if z ∈ (s.mappable r).root then e.invalidate else e) (s := s)]
  · intro z; split_ifs <;> rfl
  · rfl
  · intro z; exact invalidateAll_fst

theorem entry_unlink : (s.unlink r x).entry L = s.entry L := by
  unfold unlink
  split_ifs <;> rfl

omit [DecidableEq S] [DecidableEq R] in
theorem entry_freeObject : (s.freeObject r).entry L = s.entry L := by
  unfold freeObject
  split_ifs <;> rfl

theorem entry_replace {se re : Slot S} : (s.replace r se re).entry L = s.entry L := by
  unfold replace
  split_ifs <;> rfl

theorem flush_dir : (s.flush r x mask).dir = s.dir := by
  unfold flush unlink
  split_ifs <;> rfl

omit [DecidableEq S] [DecidableEq R] in
theorem freeObject_dir : (s.freeObject r).dir = s.dir := by
  unfold freeObject
  split_ifs <;> rfl

variable (mask) in
theorem entry_flush : (s.flush r x mask).entry L y = s.entry L y ∨
    y ∈ (s.mappable r).root ∧ (s.flush r x mask).entry L y = (s.entry L y).invalidate := by
  unfold flush
  split_ifs
  · exact .inl rfl
  · rw [entry_invalidateMappings]
    by_cases hy : y ∈ (s.mappable r).root
    · exact .inr ⟨hy, if_pos hy⟩
    · exact .inl (if_neg hy)
  · rw [entry_unlink]; exact .inl rfl
  · rw [entry_invalidateMappings]
    by_cases hy : y ∈ (s.mappable r).root
    · exact .inr ⟨hy, if_pos hy⟩
    · exact .inl (if_neg hy)
  · rw [entry_unlink]; exact .inl rfl

end Effects

def Dies (x : Slot S) (r : R) (mask : MapMask) : Prop :=
  mask.doDelete ∧ (s.entry L x).deleteRights ∨
    (s.entry L x).isRefCounted ∧ (s.mappable r).cnt ≤ 1
deriving Decidable

structure Removed (x : Slot S) (r : R) (d : Prop) [Decidable d] (t : State S O R) : Prop where
  entry : ∀ y, t.entry L y =
    if y = x ∨ d ∧ s.names L y = some r then (s.entry L y).invalidate else s.entry L y
  other : ∀ r', r' ≠ r → t.mappable r' = s.mappable r'
  root : (t.mappable r).root.Perm (if d then [] else (s.mappable r).root.erase x)
  cnt : (t.mappable r).cnt =
    if d then 0 else (s.mappable r).cnt - if (s.entry L x).isRefCounted then 1 else 0
  reap : t.reap = s.reap
  born : t.born = s.born
  fault : t.fault = s.fault

variable {t : State S O R} {a : Attr}

section Remove

variable {L s} {d : Prop} [Decidable d]

section

variable (h : s.names L x = some r)
include h

section

omit [DecidableEq S] [DecidableEq R]

theorem entry_of_names : ∃ o, (s.entry L x).obj = some o ∧ L.mapRoot o = r :=
  Option.map_eq_some_iff.1 h

theorem getCap_of_names : s.getCap L x = some (s.tab x) := by
  obtain ⟨o, ho, -⟩ := entry_of_names h
  cases hg : s.getCap L x with
  | none => rw [entry_of_getCap_none hg] at ho; cases ho
  | some e =>
    unfold getCap at hg
    split_ifs at hg
    exact hg.symm

end

omit [DecidableEq S] [DecidableEq R] in
theorem tab_of_names : s.tab x = s.entry L x :=
  (entry_of_getCap (getCap_of_names h)).symm

omit [DecidableEq R] in
theorem vDelete_of_names (ha : a.getLsbD 2) :
    s.vDelete L x a = { s with tab := update s.tab x (s.tab x).invalidate } := by
  obtain ⟨o, ho, -⟩ := entry_of_names h
  have hv : (s.tab x).valid := by rw [tab_of_names h, Entry.valid, ho]; rfl
  unfold vDelete
  rw [getCap_of_names h]
  simp only [Entry.delete, hv, ha, if_true]

omit [DecidableEq S] [DecidableEq R] in
theorem delete_of_names (ha : a.getLsbD 2) : (s.entry L x).delete a = (s.entry L x).invalidate := by
  obtain ⟨o, ho, -⟩ := entry_of_names h
  simp only [Entry.delete, Entry.valid, ho, Option.isSome_some, ha, if_true]

omit [DecidableEq R] in
theorem flags_vDelete (ha : a.getLsbD 2) : ((s.vDelete L x a).tab y).flags = (s.tab y).flags := by
  rw [vDelete_of_names h ha]
  simp only [update_apply]
  split_ifs with hy
  · rw [hy]; rfl
  · rfl

end

namespace Linked

theorem removed_one (hx : s.names L x = some r) (ha : a.getLsbD 2) (hd : ¬d) :
    s.Removed L x r d ((s.vDelete L x a).relist r
      { root := (s.mappable r).root.erase x
        cnt := (s.mappable r).cnt - if (s.entry L x).isRefCounted then 1 else 0 }) := by
  obtain ⟨hm, hreap, hborn, hfault⟩ := s.vDelete_rest (L := L) (x := x) (r := a)
  refine ⟨fun y => ?_, fun r' hr => ?_, ?_, ?_, hreap, hborn, hfault⟩
  · rw [entry_relist, entry_vDelete, delete_of_names hx ha]
    simp only [hd, false_and, or_false]
    split_ifs with hy
    · rw [hy]
    · rfl
  · rw [mappable_relist_of_ne hr, hm]
  · rw [mappable_relist, if_neg hd]
  · rw [mappable_relist, if_neg hd]

theorem isRefCounted_removed (h : s.Removed L x r d t) :
    (t.entry L y).isRefCounted = (s.entry L y).isRefCounted := by
  rw [h.entry]
  split_ifs <;> rfl

theorem names_removed (h : s.Removed L x r d t) : t.names L y =
    if y = x ∨ d ∧ s.names L y = some r then none else s.names L y := by
  rw [names, h.entry]
  split_ifs <;> rfl

variable (h : s.Linked L) (hx : s.names L x = some r)
include h hx

theorem removed_all (ha : a.getLsbD 2) (hd : d) :
    s.Removed L x r d ((s.vDelete L x a).invalidateMappings r) := by
  obtain ⟨hm, hreap, hborn, hfault⟩ := s.vDelete_rest (L := L) (x := x) (r := a)
  refine ⟨fun y => ?_, fun r' hr => ?_, ?_, ?_, hreap, hborn, hfault⟩
  · rw [entry_invalidateMappings, hm, entry_vDelete, delete_of_names hx ha]
    simp only [h.mem, hd, true_and]
    by_cases hy : y = x
    · subst hy
      rw [if_pos hx, if_pos rfl, if_pos (.inl rfl)]
      rfl
    · simp only [hy, false_or, if_false]
  · exact (mappable_relist_of_ne hr).trans (congrFun hm r')
  · rw [if_pos hd]
    exact Perm.of_eq (congrArg Mappable.root mappable_relist)
  · have hcnt : (invalidateAll (s.mappable r).root (s.vDelete L x a).tab (s.mappable r).cnt).2 = 0 := by
      rw [invalidateAll_snd, h.cnt r, sub_eq_zero, Nat.cast_inj]
      refine countP_congr fun y hy => ?_
      rw [Entry.isRefCounted, Entry.isRefCounted, flags_vDelete hx ha,
        tab_of_names ((h.mem r y).1 hy)]
    rw [if_pos hd, ← hcnt, ← hm]
    exact congrArg Mappable.cnt mappable_relist

theorem removed (ha : a.getLsbD 2) (hself : mask.selfUnmap) :
    s.Removed L x r (s.Dies L x r mask) ((s.vDelete L x a).flush r x mask) := by
  have hflags : ((s.vDelete L x a).tab x).flags = (s.entry L x).flags := by
    rw [flags_vDelete hx ha, tab_of_names hx]
  have hdel : ((s.vDelete L x a).tab x).deleteRights = (s.entry L x).deleteRights := by
    rw [Entry.deleteRights, hflags, Entry.deleteRights]
  have hcounted : ((s.vDelete L x a).tab x).isRefCounted = (s.entry L x).isRefCounted := by
    rw [Entry.isRefCounted, hflags, Entry.isRefCounted]
  have hm : (s.vDelete L x a).mappable = s.mappable := s.vDelete_rest.1
  have hmem : x ∈ (s.mappable r).root := (h.mem r x).2 hx
  unfold flush unlink decCnt
  rw [hdel, hcounted, hself]
  simp only [hm, mappable_relist, relist_relist, hmem, if_true, Bool.not_true, Bool.false_eq_true,
    if_false, Bool.and_eq_true, Bool.not_eq_true']
  split_ifs with h1 h2 h3
  · exact h.removed_all hx ha (.inl h1)
  · have hd : ¬s.Dies L x r mask := by simp [Dies, h1, h2]
    have hone := removed_one hx ha hd
    simpa only [h2, Bool.false_eq_true, if_false, sub_zero] using hone
  · exact h.removed_all hx ha (.inr ⟨by simpa using h2, h3⟩)
  · have hd : ¬s.Dies L x r mask := by simp [Dies, h1, h3]
    have hone := removed_one hx ha hd
    rw [Bool.not_eq_false] at h2
    simpa only [h2, if_true] using hone

theorem of_removed (ht : s.Removed L x r d t) : t.Linked L := by
  have hnames : ∀ y, t.names L y = if y = x ∨ d ∧ s.names L y = some r then none else s.names L y :=
    fun y => names_removed ht
  refine ⟨fun r' y => ?_, fun r' => ?_, fun r' => ?_⟩
  · rw [hnames]
    by_cases hr : r' = r
    · subst hr
      rw [ht.root.mem_iff]
      by_cases hd : d
      · by_cases hy : y = x <;> simp [hd, hy]
      · simp only [hd, if_false, false_and, or_false, (h.nodup r').mem_erase_iff, h.mem]
        by_cases hy : y = x <;> simp [hy]
    · rw [ht.other r' hr, h.mem]
      split_ifs with hy
      · rcases hy with rfl | hy
        · rw [hx]
          simpa using fun hc => hr hc.symm
        · rw [hy.2]
          simpa using fun hc => hr hc.symm
      · rfl
  · by_cases hr : r' = r
    · subst hr
      rw [ht.root.nodup_iff]
      split_ifs
      · exact nodup_nil
      · exact (h.nodup r').erase x
    · rw [ht.other r' hr]
      exact h.nodup r'
  · simp only [isRefCounted_removed ht]
    by_cases hr : r' = r
    · subst hr
      rw [ht.root.countP_eq, ht.cnt]
      by_cases hd : d
      · rw [if_pos hd, if_pos hd]; rfl
      · rw [if_neg hd, if_neg hd, countP_erase]
        have hmem := (h.mem r' x).2 hx
        by_cases hc : (s.entry L x).isRefCounted
        · have hpos : 0 < (s.mappable r').root.countP fun x => (s.entry L x).isRefCounted :=
            countP_pos_iff.2 ⟨x, hmem, hc⟩
          simp only [hmem, hc, and_self, if_true, h.cnt r']
          omega
        · simp [hc, h.cnt r']
    · rw [ht.other r' hr]
      exact h.cnt r'

end Linked

end Remove

def Weakens (se : Slot S) (r : R) (a : Attr) : Prop :=
  (s.entry L se).isRefCounted ∧ ¬a.getLsbD 4 ∧ (s.mappable r).cnt ≤ 1
deriving Decidable

section Add

variable {L s} {r : R} {x y se re : Slot S} {o : O} {l : List (Slot S)}

omit [DecidableEq S] [DecidableEq R] in
theorem names_set (ho : L.mapRoot o = r) (ht : t.entry L x = .set o a) : t.names L x = some r := by
  rw [names, ht]
  exact congrArg some ho

omit [DecidableEq R] in
theorem names_update (ht : t.entry L = update (s.entry L) x (.set o a)) (hy : y ≠ x) :
    t.names L y = s.names L y := by
  rw [names, ht, update_of_ne hy, names]

theorem isRefCounted_set : (Entry.set o a).isRefCounted = a.getLsbD 4 := by
  simp [Entry.isRefCounted, Entry.set]

theorem cnt_insert (ho : L.mapRoot o = r) (hset : s.SetAt L x o a t) :
    ((t.insert r x).mappable r).cnt = (s.mappable r).cnt + if a.getLsbD 4 then 1 else 0 := by
  have hx : t.names L x = some r := names_set ho (by rw [hset.entry, update_self])
  have hc : (t.tab x).isRefCounted = a.getLsbD 4 := by
    rw [tab_of_names hx, hset.entry, update_self, isRefCounted_set]
  rw [insert, mappable_relist, hc, hset.mappable]
  split_ifs <;> simp

namespace Linked

theorem inserted (h : s.Linked L) (hx : s.names L x = none) (ho : L.mapRoot o = r)
    (hset : s.SetAt L x o a t) : (t.insert r x).Linked L := by
  obtain ⟨ht, hm, -, -, -⟩ := hset
  have hself : t.names L x = some r := names_set ho (by rw [ht, update_self])
  have hout : ∀ r', x ∉ (s.mappable r').root := fun r' hc => by
    rw [h.mem, hx] at hc; cases hc
  have hcount : ∀ r', (s.mappable r').root.countP (fun y => (t.entry L y).isRefCounted) =
      (s.mappable r').root.countP fun y => (s.entry L y).isRefCounted := by
    intro r'
    refine countP_congr fun y hy => ?_
    have hne : y ≠ x := by rintro rfl; exact hout r' hy
    rw [ht, update_of_ne hne]
  have htab : (t.tab x).isRefCounted = (t.entry L x).isRefCounted := by rw [tab_of_names hself]
  unfold insert
  refine ⟨fun r' y => ?_, fun r' => ?_, fun r' => ?_⟩
  · change y ∈ ((t.relist r _).mappable r').root ↔ t.names L y = some r'
    by_cases hr : r' = r
    · subst hr
      rw [mappable_relist, hm, mem_cons, h.mem]
      by_cases hy : y = x
      · subst hy; simp [hself]
      · rw [names_update ht hy]; simp [hy]
    · rw [mappable_relist_of_ne hr, hm, h.mem]
      by_cases hy : y = x
      · subst hy
        rw [hx, hself]
        simpa using fun hc => hr hc.symm
      · rw [names_update ht hy]
  · by_cases hr : r' = r
    · subst hr
      rw [mappable_relist, hm]
      exact nodup_cons.2 ⟨hout r', h.nodup r'⟩
    · rw [mappable_relist_of_ne hr, hm]
      exact h.nodup r'
  · rw [entry_relist]
    by_cases hr : r' = r
    · subst hr
      rw [mappable_relist, hm, htab, countP_cons, hcount, h.cnt]
      split_ifs <;> simp
    · rw [mappable_relist_of_ne hr, hm, hcount, h.cnt]

end Linked

theorem mem_swap (hse : se ∈ l) :
    y ∈ l.map (fun x => if x = se then re else x) ↔ y = re ∨ y ∈ l ∧ y ≠ se := by
  rw [mem_map]
  constructor
  · rintro ⟨z, hz, rfl⟩
    split_ifs with hc
    · exact .inl rfl
    · exact .inr ⟨hz, hc⟩
  · rintro (rfl | ⟨hy, hc⟩)
    · exact ⟨se, hse, if_pos rfl⟩
    · exact ⟨y, hy, if_neg hc⟩

theorem swap_perm (hl : l.Nodup) (hse : se ∈ l) (hre : re ∉ l) :
    (l.map fun x => if x = se then re else x).Perm ((re :: l).erase se) := by
  have hcons : (re :: l).Nodup := nodup_cons.2 ⟨hre, hl⟩
  refine (perm_ext_iff_of_nodup (Nodup.map_on ?_ hl) (hcons.erase se)).2 fun y => ?_
  · intro y hy z hz h
    split_ifs at h with h1 h2 h2
    · rw [h1, h2]
    · exact absurd (h ▸ hz) hre
    · exact absurd (h ▸ hy) hre
    · exact h
  · have hne : re ≠ se := fun hc => hre (hc ▸ hse)
    rw [mem_swap hse, hcons.mem_erase_iff, mem_cons]
    by_cases hy : y = re
    · subst hy; simp [hne]
    · simp [hy, and_comm]

variable (re) in
theorem grant_eq (hse : se ∈ (t.mappable r).root) :
    t.grant r se re =
      if (t.tab se).isRefCounted ∧ ¬(t.tab re).isRefCounted ∧ (t.mappable r).cnt ≤ 1 then
        (t.relist r
          { root := (t.mappable r).root.map fun x => if x = se then re else x
            cnt := (t.mappable r).cnt - 1 }).invalidateMappings r
      else t.relist r
        { root := (t.mappable r).root.map fun x => if x = se then re else x
          cnt := (t.mappable r).cnt -
            if (t.tab se).isRefCounted ∧ ¬(t.tab re).isRefCounted then 1 else 0 } := by
  have hle : (t.mappable r).cnt - 1 ≤ 0 ↔ (t.mappable r).cnt ≤ 1 := by omega
  have htab : ∀ m, (t.relist r m).tab = t.tab := fun _ => rfl
  simp only [grant, replace, decCnt, hse, if_true, mappable_relist, relist_relist, htab, hle]
  by_cases hw : (t.tab se).isRefCounted ∧ ¬(t.tab re).isRefCounted
  · by_cases hc : (t.mappable r).cnt ≤ 1 <;> simp [hw, hc]
  · have hn : ¬((t.tab se).isRefCounted ∧ ¬(t.tab re).isRefCounted ∧ (t.mappable r).cnt ≤ 1) :=
      fun hc => hw ⟨hc.1, hc.2.1⟩
    rw [if_neg hn, if_neg hw, if_neg (by simpa using hw), sub_zero]

namespace Linked

theorem granted (h : s.Linked L) (hse : s.names L se = some r) (hre : s.names L re = none)
    (ho : L.mapRoot o = r) (hset : s.SetAt L re o a t)
    (hw : a.getLsbD 4 → (s.entry L se).isRefCounted) :
    (t.insert r re).Removed L se r (s.Weakens L se r a)
      ((t.grant r se re).vDelete L se .fullRights) := by
  have hI : (t.insert r re).Linked L := h.inserted hre ho hset
  have hcnt := cnt_insert ho hset
  obtain ⟨ht, hm, -, -, -⟩ := hset
  rw [← hm] at hcnt
  have hne : se ≠ re := by rintro rfl; rw [hse] at hre; cases hre
  have hmem : se ∈ (t.mappable r).root := by rw [hm]; exact (h.mem r se).2 hse
  have hout : re ∉ (t.mappable r).root := by
    rw [hm, h.mem, hre]; exact nofun
  have hnd : (t.mappable r).root.Nodup := by rw [hm]; exact h.nodup r
  have hperm := swap_perm hnd hmem hout
  have hroot : ((t.insert r re).mappable r).root = re :: (t.mappable r).root :=
    congrArg Mappable.root mappable_relist
  have hse' : t.names L se = some r := (names_update ht hne).trans hse
  have hre' : t.names L re = some r := names_set ho (by rw [ht, update_self])
  have hese : t.entry L se = s.entry L se := by rw [ht, update_of_ne hne]
  have hcse : (t.tab se).isRefCounted = (s.entry L se).isRefCounted := by
    rw [tab_of_names hse', hese]
  have hcre : (t.tab re).isRefCounted = a.getLsbD 4 := by
    rw [tab_of_names hre', ht, update_self, isRefCounted_set]
  have hnames : ∀ y, t.names L y = some r ↔ y = re ∨ y ∈ (t.mappable r).root := by
    intro y
    rw [← mem_cons, ← hroot, hI.mem]
    rfl
  have hgr := grant_eq re hmem
  set l := (t.mappable r).root.map fun x => if x = se then re else x
  rw [hcse, hcre, hm] at hgr
  obtain ⟨hvm, hvr, hvb, hvf⟩ := (t.grant r se re).vDelete_rest (L := L) (x := se) (r := .fullRights)
  have hfull : Attr.fullRights.getLsbD 2 := rfl
  by_cases hd : s.Weakens L se r a
  · -- The entries of the new list are invalidated, and the sender's entry after them.
    have hg := hgr.trans (if_pos hd)
    refine ⟨fun y => ?_, fun r' hr => ?_, ?_, ?_, ?_, ?_, ?_⟩
    · have hent : ∀ y, (t.grant r se re).entry L y =
          if y ∈ l then (t.entry L y).invalidate else t.entry L y := fun y => by
        rw [hg, entry_invalidateMappings, mappable_relist, entry_relist]
      have hins : (t.insert r re).names L y = t.names L y := rfl
      rw [entry_vDelete, hent, hent, hins]
      simp only [hd, hnames, true_and, mem_swap hmem, l]
      by_cases hy : y = se
      · subst hy
        simp only [hne, if_true, false_or, ne_eq, not_true_eq_false, and_false, if_false, true_or]
        exact delete_of_names hse' hfull
      · simp only [hy, if_false, false_or, ne_eq, not_false_eq_true, and_true]
        rfl
    · rw [hvm, hg]
      exact ((mappable_relist_of_ne hr).trans (mappable_relist_of_ne hr)).trans
        (mappable_relist_of_ne hr).symm
    · rw [hvm, hg, if_pos hd]
      exact Perm.of_eq (congrArg Mappable.root mappable_relist)
    · rw [hvm, hg, if_pos hd]
      have hsum := hI.cnt r
      have hpos : 0 < (re :: (t.mappable r).root).countP fun x => (t.entry L x).isRefCounted :=
        countP_pos_iff.2 ⟨se, mem_cons_of_mem _ hmem, hese ▸ hd.1⟩
      have hcount : l.countP (fun x => (t.tab x).isRefCounted) =
          (re :: (t.mappable r).root).countP (fun x => (t.entry L x).isRefCounted) - 1 := by
        rw [hperm.countP_eq, countP_congr (q := fun x => (t.entry L x).isRefCounted),
          countP_erase, if_pos ⟨mem_cons_of_mem _ hmem, hese ▸ hd.1⟩]
        intro x hx
        rw [tab_of_names ((hnames x).2 (mem_cons.1 (mem_of_mem_erase hx)))]
      rw [hroot, hcnt, if_neg hd.2.1, add_zero] at hsum
      have hcnt' : (t.mappable r).cnt =
          (re :: (t.mappable r).root).countP fun x => (t.entry L x).isRefCounted := hsum
      simp only [invalidateMappings, mappable_relist]
      change (invalidateAll l t.tab ((s.mappable r).cnt - 1)).2 = 0
      rw [invalidateAll_snd, hcount, ← hm, hcnt']
      omega
    · rw [hvr, hg]; rfl
    · rw [hvb, hg]; rfl
    · rw [hvf, hg]; rfl
  · have hg := hgr.trans (if_neg hd)
    refine ⟨fun y => ?_, fun r' hr => ?_, ?_, ?_, ?_, ?_, ?_⟩
    · rw [entry_vDelete, hg, entry_relist, delete_of_names hse' hfull]
      simp only [hd, false_and, or_false]
      split_ifs with hy
      · rw [hy]; rfl
      · rfl
    · rw [hvm, hg]
      exact (mappable_relist_of_ne hr).trans (mappable_relist_of_ne hr).symm
    · rw [hvm, hg, if_neg hd, hroot, mappable_relist]
      exact hperm
    · have hent : (t.insert r re).entry L se = s.entry L se := hese
      rw [hvm, hg, if_neg hd, hcnt, mappable_relist, hent, hm]
      by_cases ha : a.getLsbD 4
      · simp only [ha, hw ha, not_true_eq_false, and_false, if_true, if_false]
        omega
      · simp only [ha, Bool.false_eq_true, not_false_eq_true, and_true, if_false, add_zero]
    · rw [hvr, hg]; rfl
    · rw [hvb, hg]; rfl
    · rw [hvf, hg]; rfl

end Linked

end Add

end State

end Fiasco.Obj
