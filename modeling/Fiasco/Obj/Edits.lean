import Fiasco.Obj.MapUtil

/-!
# The operations as edits of linked lists

On tables whose entries are linked, an iteration of `map()` or `unmap()` and a root mapping are made
of three edits: an entry is removed from the list of its object, a void entry is set and added, and
an entry gives its place to a void one.

The grant of a capability over one of the same object is the exception. If the one that is
overmapped is the sender's own entry or the last counted one, then the sender's entry is no longer
linked when it should give its place.
-/

namespace Fiasco.Obj

variable {S O R : Type}

namespace State

variable {L : Layout O R} {s : State S O R} {m : MapArgs S} {x y sx dx : Slot S} {o sObj iObj rObj : O}
  {a : Attr} {r : R} {mask : MapMask} {t u v : State S O R}

theorem names_of_obj (h : (s.entry L x).obj = some o) : s.names L x = some (L.mapRoot o) := by
  rw [names, h]
  rfl

theorem names_of_obj_none (h : (s.entry L x).obj = none) : s.names L x = none := by
  rw [names, h]
  rfl

theorem freeObject_rest : (s.freeObject r).mappable = s.mappable ∧ (s.freeObject r).born = s.born ∧
    (s.freeObject r).fault = s.fault := by
  unfold State.freeObject
  split_ifs <;> exact ⟨rfl, rfl, rfl⟩

theorem Sends.mapRoot (h : s.Sends L sx m.attribs sObj iObj a) : L.mapRoot iObj = L.mapRoot sObj := by
  have hi : iObj = (applyAttribs L sObj (s.entry L sx).rights m.attribs).1 :=
    congrArg Prod.fst h.2.1
  rw [hi, applyAttribs]
  simp only
  split_ifs
  · rfl
  · exact L.mapRoot_downgrade _ _

theorem Sends.counted (h : s.Sends L sx m.attribs sObj iObj a) (ha : a.getLsbD 4) :
    (s.entry L sx).isRefCounted := by
  have hi : a = (s.entry L sx).rights &&& m.attribs := congrArg Prod.snd h.2.1
  rw [hi, BitVec.getLsbD_and, Bool.and_eq_true] at ha
  have hr := ha.1
  simp only [Entry.rights] at hr
  simpa [Entry.isRefCounted] using hr

section

variable (h : s.Linked L)
include h

theorem Linked.freeObject : (s.freeObject r).Linked L := by
  unfold State.freeObject
  split_ifs
  · exact { h with }
  · exact h

theorem Linked.of_lower (hm : t.mappable = s.mappable)
    (hobj : ∀ y, (t.entry L y).obj = (s.entry L y).obj)
    (hcnt : ∀ y, (t.entry L y).isRefCounted = (s.entry L y).isRefCounted) : t.Linked L := by
  refine ⟨fun r y => ?_, fun r => ?_, fun r => ?_⟩
  · rw [hm, h.mem, names, names, hobj]
  · rw [hm]
    exact h.nodup r
  · simp only [hcnt]
    rw [hm]
    exact h.cnt r

end

variable [DecidableEq S] [DecidableEq R]

section

variable (L s)

def Removes (x : Slot S) (mask : MapMask) (t : State S O R) : Prop :=
  ∃ r u, s.names L x = some r ∧ s.Removed L x r (s.Dies L x r mask) u ∧ t = u.freeObject r

def Adds (x : Slot S) (o : O) (a : Attr) (t : State S O R) : Prop :=
  ∃ u, s.names L x = none ∧ s.SetAt L x o a u ∧ t = u.insert (L.mapRoot o) x

def Moves (se re : Slot S) (o : O) (a : Attr) (t : State S O R) : Prop :=
  ∃ u v, s.names L se = some (L.mapRoot o) ∧ s.names L re = none ∧ s.SetAt L re o a u ∧
    (u.insert (L.mapRoot o) re).Removed L se (L.mapRoot o) (s.Weakens L se (L.mapRoot o) a) v ∧
    t = v.freeObject (L.mapRoot o)

/-- The capability in `dx` is for the object that is sent, and it goes with it: there is no other
that counts, or it is the one that is granted. -/
def Clash (m : MapArgs S) (sx dx : Slot S) : Prop :=
  ∃ sObj iObj a, s.Sends L sx m.attribs sObj iObj a ∧ s.names L dx = some (L.mapRoot sObj) ∧
    (s.entry L dx).deleteRights = false ∧
    ((s.entry L dx).isRefCounted ∧ (s.mappable (L.mapRoot sObj)).cnt ≤ 1 ∨ m.grant ∧ sx = dx)

end

theorem names_insert (hx : s.names L y = some r) (hn : s.names L x = none) (hu : s.SetAt L x o a u) :
    (u.insert (L.mapRoot o) x).names L y = some r := by
  have hne : y ≠ x := by
    rintro rfl
    rw [hx] at hn
    cases hn
  exact (names_update hu.entry hne).trans hx

section

variable (h : s.Linked L)
include h

theorem Removes.linked (hr : s.Removes L x mask t) : t.Linked L := by
  obtain ⟨r, u, hx, hu, rfl⟩ := hr
  exact (h.of_removed hx hu).freeObject

theorem Adds.linked (ha : s.Adds L x o a t) : t.Linked L := by
  obtain ⟨u, hx, hu, rfl⟩ := ha
  exact h.inserted hx rfl hu

theorem removes_unmapDst (ho : (s.entry L x).obj = some o) :
    s.Removes L x .full (s.unmapDst L o x) :=
  ⟨L.mapRoot o, _, names_of_obj ho, h.removed (names_of_obj ho) rfl rfl, rfl⟩

theorem entry_unmapDst_of_not_clash (hs : s.Sends L sx m.attribs sObj iObj a)
    (ho : (s.entry L dx).obj = some rObj)
    (hg : ¬(L.mapRoot rObj = L.mapRoot sObj ∧ (s.entry L dx).deleteRights))
    (hc : ¬s.Clash L m sx dx) (hne : sx ≠ dx) :
    (s.unmapDst L rObj dx).entry L sx = s.entry L sx := by
  obtain ⟨r, u, hx, hu, ht⟩ := removes_unmapDst h ho
  obtain rfl : L.mapRoot rObj = r := Option.some.inj ((names_of_obj ho).symm.trans hx)
  rw [ht, entry_freeObject, hu.entry, if_neg]
  rintro (heq | ⟨hdies, hn⟩)
  · exact hne heq
  · have hroot : L.mapRoot sObj = L.mapRoot rObj :=
      Option.some.inj ((names_of_obj hs.1).symm.trans hn)
    rcases hdies with hdel | hlast
    · exact hg ⟨hroot.symm, hdel.2⟩
    · have hdel : (s.entry L dx).deleteRights = false :=
        Bool.eq_false_iff.2 fun hd => hg ⟨hroot.symm, hd⟩
      exact hc ⟨sObj, iObj, a, hs, hroot ▸ names_of_obj ho, hdel, .inl (hroot ▸ hlast)⟩

theorem removes_unmapCap (ho : (s.entry L x).obj = some o) (ha : a.getLsbD 2)
    (hm : mask.selfUnmap) : s.Removes L x mask (s.unmapCap L x o a mask) := by
  refine ⟨L.mapRoot o, _, names_of_obj ho, h.removed (names_of_obj ho) ha hm, ?_⟩
  simp only [unmapCap, hm, ha, if_true]

theorem unmapCap_other (ho : (s.entry L x).obj = some o)
    (hm : mask.selfUnmap = false) : s.unmapCap L x o a mask = s := by
  have hne : (s.mappable (L.mapRoot o)).root.isEmpty = false := by
    rw [List.isEmpty_eq_false_iff]
    exact List.ne_nil_of_mem ((h.mem _ x).2 (names_of_obj ho))
  simp only [unmapCap, hm, Bool.false_eq_true, if_false]
  split_ifs
  · simp only [flush, hm, Bool.not_false, if_true, State.freeObject, hne, Bool.false_eq_true, if_false]
  · rfl

theorem insertRootMapping_eq (hu : s.SetAt L x o .full u)
    (hno : ∀ y, s.names L y ≠ some (L.mapRoot o)) :
    u.insertRootMapping (L.mapRoot o) x = u.insert (L.mapRoot o) x := by
  have hx : u.names L x = some (L.mapRoot o) := names_set rfl (by rw [hu.entry, Function.update_self])
  have htab : u.tab x = .set o .full := by
    rw [tab_of_names hx, hu.entry, Function.update_self]
  have hnil : (s.mappable (L.mapRoot o)).root = [] := by
    refine List.eq_nil_iff_forall_not_mem.2 fun y hy => hno y ((h.mem _ y).1 hy)
  have hzero : (u.mappable (L.mapRoot o)).cnt = 0 := by
    rw [hu.mappable, h.cnt, hnil]
    rfl
  have hroot : (Entry.set o .full).putAsRoot = .set o .full := rfl
  have hself : Function.update u.tab x (.set o .full) = u.tab := by
    rw [← htab, Function.update_eq_self]
  have hcounted : (Entry.set o Attr.full).isRefCounted = true := by rw [isRefCounted_set]; decide
  simp only [insertRootMapping, State.insert, htab, hroot, hself, hzero, hcounted, if_true]
  rfl

end

theorem Inserts.adds (h : Inserts L m sx dx sObj iObj a v t) (hg : m.grant = false)
    (hx : (v.entry L dx).obj = none) : v.Adds L dx iObj a t := by
  obtain ⟨u, hu, rfl⟩ := h
  refine ⟨u, names_of_obj_none hx, hu, ?_⟩
  simp only [register, hg, Bool.false_eq_true, if_false, if_true]

theorem Inserts.moves (h : Inserts L m sx dx sObj iObj a v t) (hl : v.Linked L)
    (hg : m.grant = true) (hx : (v.entry L dx).obj = none) (hs : v.Sends L sx m.attribs sObj iObj a) :
    v.Moves L sx dx iObj a t := by
  obtain ⟨u, hu, rfl⟩ := h
  have hse : v.names L sx = some (L.mapRoot iObj) := by
    rw [hs.mapRoot]
    exact names_of_obj hs.1
  refine ⟨u, _, hse, names_of_obj_none hx, hu,
    hl.granted hse (names_of_obj_none hx) rfl hu hs.counted, ?_⟩
  simp only [register, hg, if_true, hs.mapRoot]

inductive Edited (L : Layout O R) (m : MapArgs S) (s : State S O R) (sx dx : Slot S) :
    State S O R → Prop
  | none : Edited L m s sx dx s
  | removed {t : State S O R} : s.Removes L dx .full t → Edited L m s sx dx t
  | added {sObj iObj : O} {a : Attr} {v t : State S O R} : s.Sends L sx m.attribs sObj iObj a →
      v = s ∨ s.Removes L dx .full v → m.grant = false →
      (s.names L dx = some (L.mapRoot sObj) → (s.entry L dx).deleteRights = false) →
      v.Adds L dx iObj a t → Edited L m s sx dx t
  | moved {sObj iObj : O} {a : Attr} {v t : State S O R} : s.Sends L sx m.attribs sObj iObj a →
      v = s ∨ s.Removes L dx .full v → m.grant = true → v.entry L sx = s.entry L sx →
      v.Moves L sx dx iObj a t → Edited L m s sx dx t

variable [DecidableEq O]

omit [DecidableEq O] in
theorem Turn.edited (ht : Turn L m s sx dx t) (h : s.Linked L)
    (hc : m.grant = true → ¬s.Clash L m sx dx) : Edited L m s sx dx t := by
  cases ht with
  | idle _ | full _ => exact .none
  | gone _ ho _ _ => exact .removed (removes_unmapDst h ho)
  | fresh hs ho hi =>
    cases hg : m.grant with
    | false =>
      refine .added hs (.inl rfl) hg (fun hn => ?_) (hi.adds hg ho)
      rw [names_of_obj_none ho] at hn
      cases hn
    | true => exact .moved hs (.inl rfl) hg rfl (hi.moves h hg ho hs)
  | @overmap sObj iObj a rObj _ hs ho hgone hi =>
    have hrem := removes_unmapDst h ho
    have hvoid := (unmapDst_self ho).1
    cases hg : m.grant with
    | false =>
      refine .added hs (.inr hrem) hg (fun hn => ?_) (hi.adds hg hvoid)
      rw [names_of_obj ho] at hn
      exact Bool.eq_false_iff.2 fun hd => hgone ⟨Option.some.inj hn, hd⟩
    | true =>
      have hne : sx ≠ dx := by
        rintro rfl
        obtain rfl : sObj = rObj := Option.some.inj (hs.1.symm.trans ho)
        have hdel : (s.entry L sx).deleteRights = false :=
          Bool.eq_false_iff.2 fun hd => hgone ⟨rfl, hd⟩
        exact hc hg ⟨_, _, _, hs, names_of_obj ho, hdel, .inr ⟨hg, rfl⟩⟩
      have hent := entry_unmapDst_of_not_clash h hs ho hgone (hc hg) hne
      have hs' : (s.unmapDst L rObj dx).Sends L sx m.attribs sObj iObj a := by
        unfold Sends
        rw [hent]
        exact hs
      exact .moved hs (.inr hrem) hg hent (hi.moves (hrem.linked h) hg hvoid hs')

end State

end Fiasco.Obj
