import Fiasco.Obj.Authority
import Fiasco.Obj.Edits

/-!
# Slots that an operation is not for

A slot outside the windows of an operation keeps its capability, unless the object goes: one of
its capabilities in a window may delete it, or all that count are in the windows.
-/

namespace Fiasco.Obj

open Machine Function List

variable {S O R : Type}

namespace State

variable (L : Layout O R)

def Fate (s : State S O R) (W : Slot S → Prop) (del : Bool) (r : R) : Prop :=
  ∃ w, W w ∧ s.names L w = some r ∧
    (del ∧ (s.entry L w).deleteRights ∨
      ∀ y, s.names L y = some r → (s.entry L y).isRefCounted → W y)

structure Framed (s : State S O R) (W D : Slot S → Prop) (del : Bool) (t : State S O R) : Prop where
  linked : t.Linked L
  born : t.born = s.born
  keep : ∀ x, ¬D x → t.entry L x = s.entry L x ∨
    (t.entry L x).obj = none ∧ ∃ r, s.names L x = some r ∧ s.Fate L W del r

variable {L} {s t u v : State S O R} {W D E : Slot S → Prop} {del : Bool} {x y : Slot S} {r : R}
  {mask : MapMask} {o : O} {a : Attr}

theorem Linked.framed (h : s.Linked L) : Framed L s W D del s :=
  ⟨h, rfl, fun _ _ => .inl rfl⟩

theorem Linked.eq_of_counted (h : s.Linked L) (hcnt : (s.mappable r).cnt ≤ 1)
    (hx : s.names L x = some r) (hxc : (s.entry L x).isRefCounted)
    (hy : s.names L y = some r) (hyc : (s.entry L y).isRefCounted) : x = y := by
  rw [h.cnt, countP_eq_length_filter] at hcnt
  have hle : ((s.mappable r).root.filter fun x => (s.entry L x).isRefCounted).length ≤ 1 := by
    exact_mod_cast hcnt
  have hmem : ∀ z, s.names L z = some r → (s.entry L z).isRefCounted →
      z ∈ (s.mappable r).root.filter fun x => (s.entry L x).isRefCounted := fun z hz hc =>
    mem_filter.2 ⟨(h.mem r z).2 hz, hc⟩
  obtain ⟨z, hz⟩ := length_eq_one_iff.1 (le_antisymm hle (length_pos_of_mem (hmem x hx hxc)))
  have hx' := hmem x hx hxc
  have hy' := hmem y hy hyc
  rw [hz, mem_singleton] at hx' hy'
  rw [hx', hy']

theorem Shrinks.names (h : Shrinks L s t) (ht : t.names L x = some r) : s.names L x = some r := by
  obtain ⟨o, ho, hr⟩ := entry_of_names ht
  have hg := h x o 2 ⟨ho, by simp [Entry.rights]⟩
  rw [State.names, hg.1]
  exact congrArg some hr

namespace Framed

theorem mono (h : Framed L s W D del t) (hDE : ∀ x, D x → E x) : Framed L s W E del t :=
  ⟨h.linked, h.born, fun x hx => h.keep x fun hD => hx (hDE x hD)⟩

theorem entry_eq (h : Framed L s W D del t) (hx : ¬D x) (hn : t.names L x = some r) :
    t.entry L x = s.entry L x := by
  rcases h.keep x hx with he | he
  · exact he
  · rw [names, he.1] at hn
    cases hn

theorem freeObject (h : Framed L s W D del t) : Framed L s W D del (t.freeObject r) := by
  refine ⟨h.linked.freeObject, freeObject_rest.2.1.trans h.born, fun x hx => ?_⟩
  rw [entry_freeObject]
  exact h.keep x hx

variable [DecidableEq S] [DecidableEq R]

theorem removed (h : Framed L s W D del v) (hDW : ∀ y, D y → W y) (hW : W x) (hD : ¬D x)
    (hx : v.names L x = some r) {d : Prop} [Decidable d] (hu : v.Removed L x r d u)
    (hd : d → del ∧ (v.entry L x).deleteRights ∨
      (v.entry L x).isRefCounted ∧ (v.mappable r).cnt ≤ 1) :
    Framed L s W (fun y => D y ∨ y = x) del u := by
  have hxs := h.entry_eq hD hx
  have hsx : s.names L x = some r := by rw [names, ← hxs]; exact hx
  -- The object goes with `x` only as it was to be expected at the start.
  have hfate : d → s.Fate L W del r := by
    intro hdd
    rcases hd hdd with hdel | ⟨hxc, hcnt⟩
    · exact ⟨x, hW, hsx, .inl ⟨hdel.1, hxs ▸ hdel.2⟩⟩
    · by_contra hno
      refine hno ⟨x, hW, hsx, .inr fun y hy hyc => ?_⟩
      by_contra hWy
      rcases h.keep y fun hDy => hWy (hDW y hDy) with he | ⟨-, r', hr', hf⟩
      · have hvy : v.names L y = some r := by rw [names, he]; exact hy
        exact hWy (h.linked.eq_of_counted hcnt hx hxc hvy (he ▸ hyc) ▸ hW)
      · rw [hy] at hr'
        exact hno (Option.some.inj hr' ▸ hf)
  refine ⟨h.linked.of_removed hx hu, hu.born.trans h.born, fun y hy => ?_⟩
  have hDy : ¬D y := fun hc => hy (.inl hc)
  have hne : y ≠ x := fun hc => hy (.inr hc)
  rw [hu.entry]
  by_cases hk : y = x ∨ d ∧ v.names L y = some r
  · rw [if_pos hk]
    rcases hk with hk | ⟨hdd, hn⟩
    · exact absurd hk hne
    · refine .inr ⟨rfl, r, ?_, hfate hdd⟩
      rw [names, ← h.entry_eq hDy hn]
      exact hn
  · rw [if_neg hk]
    exact h.keep y hDy

theorem adds (h : Framed L s W D del v) (ha : v.Adds L x o a t) :
    Framed L s W (fun y => D y ∨ y = x) del t := by
  have hlinked := ha.linked h.linked
  obtain ⟨u, hx, hu, rfl⟩ := ha
  refine ⟨hlinked, hu.born.trans h.born, fun y hy => ?_⟩
  have hne : y ≠ x := fun hc => hy (.inr hc)
  rw [State.insert, entry_relist, hu.entry, update_of_ne hne]
  exact h.keep y fun hc => hy (.inl hc)

theorem removes (h : Framed L s W D mask.doDelete v) (hDW : ∀ y, D y → W y) (hW : W x) (hD : ¬D x)
    (hr : v.Removes L x mask t) : Framed L s W (fun y => D y ∨ y = x) mask.doDelete t := by
  obtain ⟨r, u, hx, hu, rfl⟩ := hr
  exact (h.removed hDW hW hD hx hu id).freeObject

theorem moves {se re : Slot S} (h : Framed L s W D del v) (hDW : ∀ y, D y → W y) (hWre : W re)
    (hW : W se) (hD : ¬D se) (hm : v.Moves L se re o a t) :
    Framed L s W (fun y => (D y ∨ y = re) ∨ y = se) del t := by
  obtain ⟨u, w, hse, hre, hu, hw, rfl⟩ := hm
  have hne : se ≠ re := by
    rintro rfl
    rw [hse] at hre
    cases hre
  have hadd : Framed L s W (fun y => D y ∨ y = re) del (u.insert (L.mapRoot o) re) :=
    h.adds ⟨u, hre, hu, rfl⟩
  have hent : (u.insert (L.mapRoot o) re).entry L se = v.entry L se := by
    rw [State.insert, entry_relist, hu.entry, update_of_ne hne]
  refine (hadd.removed ?_ hW ?_ (names_insert hse hre hu) hw ?_).freeObject
  · rintro y (hy | rfl)
    · exact hDW y hy
    · exact hWre
  · rintro (hy | rfl)
    · exact hD hy
    · exact hne rfl
  · -- The new entry is weak, so the counter is that from before.
    rintro ⟨hc, ha, hcnt⟩
    refine .inr ⟨hent ▸ hc, ?_⟩
    rw [cnt_insert rfl hu, if_neg ha, add_zero]
    exact hcnt

end Framed

section Loops

variable {m : MapArgs S} {sx dx : Slot S} [DecidableEq S]

theorem Framed.lowers (h : Framed L s W D del v) (ha : ¬a.getLsbD 2) (ha4 : a.getLsbD 4 = false) :
    Framed L s W (fun y => D y ∨ y = x) del (v.vDelete L x a) := by
  have hent : ∀ y, (v.vDelete L x a).entry L y =
      if y = x ∧ (v.entry L x).valid then (v.entry L x).delRights a else v.entry L y := by
    intro y
    rw [entry_vDelete, Entry.delete]
    by_cases hy : y = x
    · subst hy
      simp only [ha, if_false, true_and, if_true, Bool.false_eq_true]
    · simp only [hy, if_false, false_and]
  obtain ⟨hm, -, hb, -⟩ := v.vDelete_rest (L := L) (x := x) (r := a)
  refine ⟨h.linked.of_lower hm (fun y => ?_) (fun y => ?_), hb.trans h.born, fun y hy => ?_⟩
  · rw [hent]
    split_ifs with hy
    · rw [hy.1]; rfl
    · rfl
  · rw [hent]
    split_ifs with hy
    · rw [hy.1, Entry.isRefCounted, Entry.isRefCounted, Entry.delRights, BitVec.getLsbD_and,
        BitVec.getLsbD_not, BitVec.getLsbD_and, ha4]
      simp
    · rfl
  · rw [hent, if_neg fun hc => hy (.inr hc.1)]
    exact h.keep y fun hc => hy (.inl hc)

variable [DecidableEq R]

theorem Framed.edited (h : Framed L s W D true v) (hDW : ∀ y, D y → W y) (hW : W dx) (hD : ¬D dx)
    (hg : m.grant = true → W sx ∧ ¬D sx) (he : Edited L m v sx dx t) :
    Framed L s W (fun y => D y ∨ y = dx ∨ m.grant = true ∧ y = sx) true t := by
  have hrem : ∀ u, u = v ∨ v.Removes L dx .full u →
      Framed L s W (fun y => D y ∨ y = dx) true u := by
    rintro u (rfl | hu)
    · exact h.mono fun y hy => .inl hy
    · have hfull : Framed L s W D MapMask.full.doDelete v := h
      exact hfull.removes hDW hW hD hu
  have hDW' : ∀ y, D y ∨ y = dx → W y := by
    rintro y (hy | rfl)
    · exact hDW y hy
    · exact hW
  cases he with
  | none => exact h.mono fun y hy => .inl hy
  | removed hr =>
    refine (hrem t (.inr hr)).mono ?_
    rintro y (hy | hy)
    · exact .inl hy
    · exact .inr (.inl hy)
  | added _ hv _ _ ha =>
    refine ((hrem _ hv).adds ha).mono ?_
    rintro y ((hy | hy) | hy)
    · exact .inl hy
    · exact .inr (.inl hy)
    · exact .inr (.inl hy)
  | moved _ hv hgr _ hm =>
    obtain ⟨hWs, hDs⟩ := hg hgr
    have hne : sx ≠ dx := by
      rintro rfl
      obtain ⟨_, _, hse, hre, -⟩ := hm
      rw [hse] at hre
      cases hre
    have hDs' : ¬(D sx ∨ sx = dx) := not_or.2 ⟨hDs, hne⟩
    refine ((hrem _ hv).moves hDW' hW hWs hDs' hm).mono ?_
    rintro y (((hy | hy) | hy) | hy)
    · exact .inl hy
    · exact .inr (.inl hy)
    · exact .inr (.inl hy)
    · exact .inr (.inr ⟨hgr, hy⟩)

def Done (m : MapArgs S) (snd rcv n i : ℕ) (x : Slot S) : Prop :=
  (∃ j < i, j < n ∧ x = (m.rcv, rcv + j)) ∨
    m.grant = true ∧ ∃ j < i, j < n ∧ x = (m.src, snd + j)

variable [DecidableEq O]

theorem mapLoop_framed {snd rcv n k fuel : ℕ} {mapped : Bool} (hsnd : 2 ^ k ∣ snd)
    (hrcv : 2 ^ k ∣ rcv) (hn : n = 2 ^ k) (h : s.Linked L)
    (hc : m.grant = true → EachTurn L m (fun s sx dx => ¬s.Clash L m sx dx) fuel snd rcv n s) :
    Framed L s (Done m snd rcv n n) (Done m snd rcv n n) true
      (mapLoop L m fuel mapped snd rcv n s).1 := by
  have hturns : EachTurn L m (fun s sx dx => m.grant = true → ¬s.Clash L m sx dx) fuel snd rcv n s := by
    by_cases hg : m.grant = true
    · exact EachTurn.mono (fun _ _ _ h _ => h) fuel (hc hg)
    · exact EachTurn.mono (fun _ _ _ _ h => absurd h hg) fuel (eachTurn_true fuel snd rcv n s)
  have hstep : ∀ i t, i < n → Framed L s (Done m snd rcv n n) (Done m snd rcv n i) true t →
      (m.grant = true → ¬t.Clash L m (m.src, snd + i) (m.rcv, rcv + i)) →
      Framed L s (Done m snd rcv n n)
        (Done m snd rcv n (i + (t.mapTurn L m (snd + i) (rcv + i) (n - i)).size)) true
        (t.mapTurn L m (snd + i) (rcv + i) (n - i)).state := by
    intro i t hi hI hcl
    obtain ⟨hturn, hsize, -⟩ := mapTurn_turn (L := L) (m := m) (s := t) (snd + i) (rcv + i) (n - i)
    have hplace : ∀ {a b j}, 2 ^ k ∣ a → 2 ^ k ∣ b → j < i → j < n → a + i ≠ b + j := by
      intro a b j ha hb hji hjn heq
      have := window_place ha hb (hn ▸ hi) (hn ▸ hjn) heq
      omega
    have hed : Edited L m t (m.src, snd + i) (m.rcv, rcv + i) _ := hturn.edited hI.linked hcl
    refine (hI.edited ?_ ?_ ?_ ?_ hed).mono ?_
    · rintro x (⟨j, -, hj, rfl⟩ | ⟨hg, j, -, hj, rfl⟩)
      · exact .inl ⟨j, hj, hj, rfl⟩
      · exact .inr ⟨hg, j, hj, hj, rfl⟩
    · exact .inl ⟨i, hi, hi, rfl⟩
    · rintro (⟨j, hji, hj, heq⟩ | ⟨-, j, hji, hj, heq⟩)
      · exact hplace hrcv hrcv hji hj (congrArg Prod.snd heq)
      · exact hplace hrcv hsnd hji hj (congrArg Prod.snd heq)
    · intro hg
      refine ⟨.inr ⟨hg, i, hi, hi, rfl⟩, ?_⟩
      rintro (⟨j, hji, hj, heq⟩ | ⟨-, j, hji, hj, heq⟩)
      · exact hplace hsnd hrcv hji hj (congrArg Prod.snd heq)
      · exact hplace hsnd hsnd hji hj (congrArg Prod.snd heq)
    · rintro x ((⟨j, hji, h⟩ | ⟨hg, j, hji, h⟩) | rfl | ⟨hg, rfl⟩)
      · exact .inl ⟨j, by omega, h⟩
      · exact .inr ⟨hg, j, by omega, h⟩
      · exact .inl ⟨i, by omega, hi, rfl⟩
      · exact .inr ⟨hg, i, by omega, hi, rfl⟩
  obtain ⟨j, hj⟩ := mapLoop_rule hstep fuel 0 mapped s h.framed hturns
  refine hj.mono ?_
  rintro x (⟨i, -, hi, rfl⟩ | ⟨hg, i, -, hi, rfl⟩)
  · exact .inl ⟨i, hi, hi, rfl⟩
  · exact .inr ⟨hg, i, hi, hi, rfl⟩

def InRange (sp : S) (start stop : ℕ) (x : Slot S) : Prop := ∃ j, start ≤ j ∧ j < stop ∧ x = (sp, j)

theorem unmapLoop_framed {sp : S} {fuel start stop : ℕ} (h : s.Linked L) (ha4 : a.getLsbD 4 = false)
    (hf : stop ≤ start + fuel) :
    Framed L s (fun x => (mask.selfUnmap ∧ a.getLsbD 2) ∧ InRange sp start stop x)
      (fun x => mask.selfUnmap ∧ InRange sp start stop x) mask.doDelete
      (s.unmapLoop L sp a mask fuel start stop) := by
  let W : Slot S → Prop := fun x => (mask.selfUnmap ∧ a.getLsbD 2) ∧ InRange sp start stop x
  let D : ℕ → Slot S → Prop := fun i x => mask.selfUnmap ∧ InRange sp start (min i stop) x
  have hskip : ∀ i t order, i < stop → t.vLookup L (sp, i) = (order, none) →
      Framed L s W (D i) mask.doDelete t ∧ start ≤ i →
      Framed L s W (D (i + 2 ^ order)) mask.doDelete t ∧ start ≤ i + 2 ^ order := by
    rintro i t order - - ⟨hI, hsi⟩
    have hpos : 0 < 2 ^ order := Nat.two_pow_pos order
    refine ⟨hI.mono ?_, by omega⟩
    rintro x ⟨hm, j, h1, h2, rfl⟩
    exact ⟨hm, j, h1, by omega, rfl⟩
  have hcap : ∀ i t o, i < stop → (t.entry L (sp, i)).obj = some o →
      Framed L s W (D i) mask.doDelete t ∧ start ≤ i →
      Framed L s W (D (i + 1)) mask.doDelete (t.unmapCap L (sp, i) o a mask) ∧ start ≤ i + 1 := by
    rintro i t o hi ho ⟨hI, hsi⟩
    refine ⟨?_, by omega⟩
    by_cases hm : mask.selfUnmap = true
    · have hgrow : ∀ x, D i x ∨ x = (sp, i) → D (i + 1) x := by
        rintro x (⟨-, j, h1, h2, rfl⟩ | rfl)
        · exact ⟨hm, j, h1, by omega, rfl⟩
        · exact ⟨hm, i, hsi, by omega, rfl⟩
      by_cases ha : a.getLsbD 2
      · refine (hI.removes ?_ ?_ ?_ (removes_unmapCap hI.linked ho ha hm)).mono hgrow
        · rintro x ⟨-, j, h1, h2, rfl⟩
          exact ⟨⟨hm, ha⟩, j, h1, by omega, rfl⟩
        · exact ⟨⟨hm, ha⟩, i, hsi, hi, rfl⟩
        · rintro ⟨-, j, h1, h2, heq⟩
          obtain rfl : i = j := congrArg Prod.snd heq
          omega
      · have hlow : t.unmapCap L (sp, i) o a mask = t.vDelete L (sp, i) a := by
          simp only [unmapCap, hm, if_true, ha, if_false, Bool.false_eq_true]
        rw [hlow]
        exact (hI.lowers ha ha4).mono hgrow
    · rw [unmapCap_other hI.linked ho (Bool.eq_false_iff.2 hm)]
      exact hI.mono fun x hx => absurd hx.1 hm
  obtain ⟨j, ⟨hj, -⟩, -⟩ := unmapLoop_rule hskip hcap fuel start s ⟨h.framed, le_rfl⟩ hf
  refine hj.mono ?_
  rintro x ⟨hm, i, h1, h2, rfl⟩
  exact ⟨hm, i, h1, by omega, rfl⟩

end Loops

variable [DecidableEq S] [DecidableEq R]

theorem Rooted.gives (h : Rooted L s o x t) {o' : O} {b : ℕ} (hg : (t.entry L y).Gives o' b) :
    (s.entry L y).Gives o' b ∨ y = x ∧ o' = o := by
  have hroot : ∀ u v : State S O R, v.SetAt L x o .full u → Shrinks L s v →
      ((u.insertRootMapping (L.mapRoot o) x).entry L y).Gives o' b →
      (s.entry L y).Gives o' b ∨ y = x ∧ o' = o := by
    intro u v hu hv hg
    by_cases hy : y = x
    · subst hy
      have hobj : ((u.insertRootMapping (L.mapRoot o) y).entry L y).obj = (u.entry L y).obj := by
        simp only [State.entry, getCap, insertRootMapping, relist, update_self]
        split_ifs <;> rfl
      have ho := hg.1
      rw [hobj, hu.entry, update_self] at ho
      exact .inr ⟨rfl, (Option.some.inj ho).symm⟩
    · have hent : (u.insertRootMapping (L.mapRoot o) x).entry L y = u.entry L y := by
        simp only [State.entry, getCap, insertRootMapping, relist, update_of_ne hy]
      rw [hent, hu.entry, update_of_ne hy] at hg
      exact .inl (hv y o' b hg)
  cases h with
  | none => exact .inl hg
  | fresh _ hu => exact hroot _ _ hu .refl hg
  | overmap _ hu => exact hroot _ _ hu shrinks_unmapDst hg

variable [DecidableEq O]

omit [DecidableEq O] in
theorem Rooted.framed (ht : Rooted L s o x t) (h : s.Linked L)
    (hno : ∀ y, s.names L y ≠ some (L.mapRoot o)) :
    Framed L s (fun y => y = x) (fun y => y = x) true t := by
  cases ht with
  | none => exact h.framed
  | @fresh u hx hu =>
    rw [insertRootMapping_eq h hu hno]
    have hadd : s.Adds L x o .full (u.insert (L.mapRoot o) x) := ⟨u, names_of_obj_none hx, hu, rfl⟩
    exact ((h.framed (W := fun y => y = x) (D := fun _ => False)).adds hadd).mono
      fun y hy => hy.resolve_left id
  | @overmap rObj u hx hu =>
    have hrem := removes_unmapDst h hx
    have hself : Framed L s (fun y => y = x) (fun _ => False) MapMask.full.doDelete s := h.framed
    have hv := hself.removes (fun _ hy => hy.elim) rfl id hrem
    have hno' : ∀ y, (s.unmapDst L rObj x).names L y ≠ some (L.mapRoot o) := fun y hy =>
      hno y (shrinks_unmapDst.names hy)
    rw [insertRootMapping_eq hv.linked hu hno']
    have hadd : (s.unmapDst L rObj x).Adds L x o .full (u.insert (L.mapRoot o) x) :=
      ⟨u, names_of_obj_none (unmapDst_self hx).1, hu, rfl⟩
    refine (hv.adds hadd).mono ?_
    rintro y ((hy | hy) | hy)
    · exact hy.elim
    · exact hy
    · exact hy

end State

open State

variable [DecidableEq S] [DecidableEq O] [DecidableEq R]

/-- The slots of the receive window, for a grant also those of the send window, and the flexpage if
it is to be unmapped from the space itself. -/
def Op.Covers : Op S O → Slot S → Prop
  | .create _ x _, y => y = x
  | .map src rcv fpFrom fpTo control _, y =>
    (∃ j < 2 ^ (mapWindow fpFrom fpTo control).order,
        y = (rcv, (mapWindow fpFrom fpTo control).rcv + j)) ∨
      control.isGrant = true ∧ ∃ j < 2 ^ (mapWindow fpFrom fpTo control).order,
        y = (src, (mapWindow fpFrom fpTo control).snd + j)
  | .unmap sp fp mask, y =>
    mask.selfUnmap = true ∧ ∃ j < 2 ^ fp.order, y = (sp, maskLsb fp.objIndex fp.order + j)

def Op.removes : Op S O → Bool
  | .unmap _ fp _ => fp.rights.getLsbD 2
  | _ => true

def Op.deletes : Op S O → Bool
  | .unmap _ _ mask => mask.doDelete
  | _ => true

section

variable (L : Layout O R) (s : State S O R)

def Op.Passes (x : Slot S) (o : O) (b : ℕ) : Op S O → Prop
  | .create o' y _ => x = y ∧ o = o'
  | .map src rcv fpFrom fpTo control _ =>
    ∃ j < 2 ^ (mapWindow fpFrom fpTo control).order,
      x = (rcv, (mapWindow fpFrom fpTo control).rcv + j) ∧
      s.Source L (src, (mapWindow fpFrom fpTo control).snd + j) (sentAttribs fpFrom control) o b
  | .unmap _ _ _ => False

/-- Each right that a slot gives afterwards it gave before, or it is passed to it. -/
def Confined (op : Op S O) : Prop :=
  ∀ x o b, ((step L s op).entry L x).Gives o b → (s.entry L x).Gives o b ∨ op.Passes L s x o b

def Revoked : Op S O → Prop
  | .unmap sp fp mask => ∀ x, Op.Covers (O := O) (.unmap sp fp mask) x →
      (step L s (.unmap sp fp mask)).Lacks L x fp.rights
  | _ => True

def Kept (op : Op S O) : Prop :=
  ∀ x, ¬op.Covers x → (step L s op).entry L x = s.entry L x ∨
    ((step L s op).entry L x).obj = none ∧ op.removes = true ∧
      ∃ r, s.names L x = some r ∧ s.Fate L op.Covers op.deletes r

/-- No capability is granted over itself, or over the last counted one of the same object. -/
def Unclashed : Op S O → Prop
  | .map src rcv fpFrom fpTo control mem =>
    control.isGrant = true →
      EachTurn L (mapArgs src rcv fpFrom control mem)
        (fun s sx dx => ¬s.Clash L (mapArgs src rcv fpFrom control mem) sx dx)
        (2 ^ (mapWindow fpFrom fpTo control).order) (mapWindow fpFrom fpTo control).snd
        (mapWindow fpFrom fpTo control).rcv (2 ^ (mapWindow fpFrom fpTo control).order) s
  | _ => True

end

variable {L : Layout O R} {s t : State S O R} {op : Op S O} {x y : Slot S} {r : R} {o : O} {b : ℕ}

theorem mapWindow_dvd (fpFrom fpTo : Fpage) (control : MsgItem) :
    2 ^ (mapWindow fpFrom fpTo control).order ∣ (mapWindow fpFrom fpTo control).snd ∧
      2 ^ (mapWindow fpFrom fpTo control).order ∣ (mapWindow fpFrom fpTo control).rcv :=
  freeConstraint_dvd (dvd_maskLsb _ _) (dvd_maskLsb _ _)

theorem confined (op : Op S O) : Confined L s op := by
  intro x o b hg
  cases op with
  | create o' y mem =>
    simp only [step] at hg
    split_ifs at hg
    · exact .inl hg
    · have hroot : Rooted L { s with born := L.mapRoot o' :: s.born } o' y
          (State.map L { s with born := L.mapRoot o' :: s.born } o' y mem).1 := map_rooted
      exact hroot.gives hg
  | map src rcv fpFrom fpTo control mem =>
    obtain ⟨hs, hr⟩ := mapWindow_dvd fpFrom fpTo control
    exact mapLoop_gives hs hr rfl hg
  | unmap sp fp mask => exact .inl (unmapLoop_shrinks le_rfl x o b hg)

omit [DecidableEq S] [DecidableEq O] [DecidableEq R] in
theorem atPage_maskLsb {sp : S} {i k : ℕ} : s.AtPage L sp (maskLsb i k + 2 ^ k) (maskLsb i k) := by
  by_cases hk : L.capsPerPageLd2 ≤ k
  · exact .inl ((pow_dvd_pow 2 hk).trans (dvd_maskLsb i k))
  · refine .inr (.inr ?_)
    have hlt : maskLsb i k < (L.page (maskLsb i k) + 1) * 2 ^ L.capsPerPageLd2 := by
      rw [← Nat.div_lt_iff_lt_mul (Nat.two_pow_pos _)]
      exact Nat.lt_succ_self _
    have hdvd : 2 ^ k ∣ (L.page (maskLsb i k) + 1) * 2 ^ L.capsPerPageLd2 - maskLsb i k :=
      Nat.dvd_sub ((Nat.pow_dvd_pow 2 (Nat.le_of_not_le hk)).mul_left _) (dvd_maskLsb i k)
    have hle := Nat.le_of_dvd (Nat.sub_pos_of_lt hlt) hdvd
    omega

theorem revoked : Revoked L s op := by
  cases op with
  | create o y mem | map src rcv fpFrom fpTo control mem => trivial
  | unmap sp fp mask =>
    rintro x ⟨hm, j, hj, rfl⟩
    exact unmapLoop_lacks hm atPage_maskLsb le_rfl (Nat.le_add_right _ _) (Nat.add_lt_add_left hj _)

structure Tidy (L : Layout O R) (s : State S O R) : Prop where
  linked : s.Linked L
  born : ∀ x r, s.names L x = some r → r ∈ s.born

omit [DecidableEq S] [DecidableEq O] [DecidableEq R] in
theorem tidy_boot : Tidy L (boot : State S O R) := by
  have hnames : ∀ x, (boot : State S O R).names L x = none := by
    intro x
    simp only [names, State.entry, getCap, boot]
    split_ifs <;> rfl
  refine ⟨⟨fun r x => ?_, fun r => nodup_nil, fun r => rfl⟩, fun x r h => ?_⟩
  · rw [hnames]
    exact ⟨by rintro ⟨⟩, by simp⟩
  · rw [hnames] at h
    cases h

def Op.bornAfter (L : Layout O R) (born : List R) : Op S O → List R
  | .create o _ _ => if L.mapRoot o ∈ born then born else L.mapRoot o :: born
  | _ => born

theorem kept_of_framed {W D : Slot S → Prop} {del : Bool} (h : Framed L s W D del (step L s op))
    (hD : ∀ x, D x → op.Covers x) (hW : ∀ x, W x → op.removes = true ∧ op.Covers x)
    (hdel : del = op.deletes) : Kept L s op := by
  intro x hx
  refine (h.keep x fun hc => hx (hD x hc)).imp_right ?_
  rintro ⟨hobj, r, hr, w, hw, hwr, hf⟩
  refine ⟨hobj, (hW w hw).1, r, hr, w, (hW w hw).2, hwr, ?_⟩
  rw [← hdel]
  exact hf.imp_right fun hall y hy hc => (hW y (hall y hy hc)).2

theorem Fpage.rights_four (fp : Fpage) : fp.rights.getLsbD 4 = false := by
  simp [Fpage.rights]

theorem step_kept (h : Tidy L s) (hc : Unclashed L s op) :
    Kept L s op ∧ (step L s op).Linked L ∧ (step L s op).born = op.bornAfter L s.born := by
  cases op with
  | create o x mem =>
    simp only [Kept, step, Op.bornAfter]
    split_ifs with hb
    · exact ⟨fun _ _ => .inl rfl, h.linked, rfl⟩
    · have hno : ∀ y, s.names L y ≠ some (L.mapRoot o) := fun y hy => hb (h.born y _ hy)
      have hl : ({ s with born := L.mapRoot o :: s.born } : State S O R).Linked L :=
        ⟨h.linked.mem, h.linked.nodup, h.linked.cnt⟩
      have hroot : Rooted L { s with born := L.mapRoot o :: s.born } o x
          (State.map L { s with born := L.mapRoot o :: s.born } o x mem).1 := map_rooted
      have hf := hroot.framed hl hno
      exact ⟨fun y hy => (hf.keep y hy).imp_right fun ⟨hobj, hfate⟩ => ⟨hobj, rfl, hfate⟩,
        hf.linked, hf.born⟩
  | map src rcv fpFrom fpTo control mem =>
    obtain ⟨hs, hr⟩ := mapWindow_dvd fpFrom fpTo control
    have hf : Framed L s _ _ true (step L s (.map src rcv fpFrom fpTo control mem)) :=
      mapLoop_framed (m := mapArgs src rcv fpFrom control mem) hs hr rfl h.linked hc
    have hcov : ∀ x, Done (mapArgs src rcv fpFrom control mem)
        (mapWindow fpFrom fpTo control).snd (mapWindow fpFrom fpTo control).rcv
        (2 ^ (mapWindow fpFrom fpTo control).order) (2 ^ (mapWindow fpFrom fpTo control).order) x →
        Op.Covers (O := O) (.map src rcv fpFrom fpTo control mem) x := by
      rintro x (⟨j, hj, -, rfl⟩ | ⟨hg, j, hj, -, rfl⟩)
      · exact .inl ⟨j, hj, rfl⟩
      · exact .inr ⟨hg, j, hj, rfl⟩
    exact ⟨kept_of_framed hf hcov (fun x hx => ⟨rfl, hcov x hx⟩) rfl, hf.linked, hf.born⟩
  | unmap sp fp mask =>
    have hf : Framed L s _ _ mask.doDelete (step L s (.unmap sp fp mask)) :=
      unmapLoop_framed h.linked fp.rights_four le_rfl
    have hcov : ∀ x, mask.selfUnmap ∧ InRange sp (maskLsb fp.objIndex fp.order)
        (maskLsb fp.objIndex fp.order + 2 ^ fp.order) x →
        Op.Covers (O := O) (.unmap sp fp mask) x := by
      rintro x ⟨hm, j, h1, h2, rfl⟩
      exact ⟨hm, j - maskLsb fp.objIndex fp.order, by omega, by rw [Nat.add_sub_cancel' h1]⟩
    exact ⟨kept_of_framed hf hcov (fun x hx => ⟨hx.1.2, hcov x ⟨hx.1.1, hx.2⟩⟩) rfl, hf.linked,
      hf.born⟩

theorem Tidy.step (h : Tidy L s) (hc : Unclashed L s op) : Tidy L (step L s op) := by
  obtain ⟨-, hl, hborn⟩ := step_kept h hc
  have hmono : ∀ r ∈ s.born, r ∈ op.bornAfter L s.born := by
    intro r hr
    cases op with
    | create o y mem =>
      simp only [Op.bornAfter]
      split_ifs
      · exact hr
      · exact mem_cons_of_mem _ hr
    | map src rcv fpFrom fpTo control mem | unmap sp fp mask => exact hr
  refine ⟨hl, fun x r hx => ?_⟩
  rw [hborn]
  obtain ⟨o, ho, rfl⟩ := entry_of_names hx
  rcases confined op x o 2 ⟨ho, by simp [Entry.rights]⟩ with hg | hp
  · exact hmono _ (h.born x _ (names_of_obj hg.1))
  · cases op with
    | create o' y mem =>
      obtain ⟨-, rfl⟩ := hp
      simp only [Op.bornAfter]
      split_ifs with hb
      · exact hb
      · exact mem_cons_self
    | map src rcv fpFrom fpTo control mem =>
      obtain ⟨j, -, -, o₀, hg, hd, -⟩ := hp
      have hroot : L.mapRoot o = L.mapRoot o₀ := by
        rcases hd with rfl | ⟨a, rfl⟩
        · rfl
        · exact L.mapRoot_downgrade _ _
      rw [hroot]
      exact hmono _ (h.born _ _ (names_of_obj hg.1))
    | unmap sp fp mask => exact hp.elim

/-- In every history, no operation but a root mapping makes authority: a right that a slot has
gained is one of the slot at the same place of the send window, and among the sent rights. Unmapping
a flexpage from its space takes the rights from all its slots. Other slots keep their capabilities,
but for those of an object that goes, if no capability was granted over itself or over the last
counted one of its object. -/
theorem capabilities_confined (L : Layout O R) (ops : List (Op S O)) :
    Along (step L) (fun s op => Confined L s op ∧ Revoked L s op) boot ops ∧
      (Along (step L) (Unclashed L) boot ops → Along (step L) (Kept L) boot ops) := by
  constructor
  · exact along_of_forall fun s op => ⟨confined op, revoked⟩
  · exact Along.imp (I := Tidy L) (fun s op h hc => h.step hc)
      (fun s op h hc => (step_kept h hc).1) tidy_boot

def pair : Layout Bool Bool where
  capsPerPageLd2 := 1
  slotsPerDir := 1
  mapRoot := id
  downgrade := fun o _ => o
  mapRoot_downgrade := fun _ _ => rfl

def Fpage.slot (i : ℕ) : Fpage := ⟨BitVec.ofNat 64 (i * 4096 + 0x3f)⟩

def sendFirst (control : BitVec 64) : List (Op Bool Bool) :=
  [.create false (false, 0) fun _ => true,
    .map false true (.slot 0) (.slot 0) ⟨control⟩ fun _ => true]

/-- An object is mapped with the right to delete it. Another one is mapped over this capability,
and the slot that the first one came from is void then. -/
theorem overmap_deletes_elsewhere :
    let s := run (step pair) boot
      (sendFirst 0xe8 ++ [.create true (false, 1) fun _ => true])
    let op : Op Bool Bool := .map false true (.slot 1) (.slot 0) ⟨0xe8⟩ fun _ => true
    ¬op.Covers (false, 0) ∧ (s.entry pair (false, 0)).obj = some false ∧
      ((step pair s op).entry pair (false, 0)).obj = none := by
  refine ⟨?_, by decide, by decide⟩
  rintro (⟨j, -, h⟩ | ⟨h, -⟩)
  · cases congrArg Prod.fst h
  · cases h

theorem grant_confined :
    Along (step pair) (Unclashed pair) boot (sendFirst 0xea) ∧
      Along (step pair) (Kept pair) boot (sendFirst 0xea) := by
  have h : Along (step pair) (Unclashed pair) boot (sendFirst 0xea) := by
    refine ⟨trivial, fun _ => ?_, trivial⟩
    have hone : 2 ^ (mapWindow (.slot 0) (.slot 0) ⟨0xea⟩).order = 0 + 1 := by decide
    rw [hone, EachTurn, if_pos (by decide)]
    refine ⟨?_, ?_⟩
    · rintro ⟨_, _, _, -, hn, -⟩
      have hvoid : (step pair boot (.create false (false, 0) fun _ => true)).names pair (true, 0) =
          none := by decide
      exact absurd (hvoid.symm.trans hn) (by simp)
    · split <;> trivial
  exact ⟨h, (capabilities_confined pair _).2 h⟩

end Fiasco.Obj
