import Fiasco.Obj.Confinement

/-!
# The lists of mappings and the life of an object

An object whose deletion has been initiated has no capability, and gets none. This fails where a
capability is mapped over the last counted one of the same object: the object goes with the
overmapped capability, and is mapped again.
-/

namespace Fiasco.Obj

variable {S O R : Type} {L : Layout O R}
  {s t u v : State S O R} {x y sx dx : Slot S} {r : R} {o sObj iObj : O} {a : Attr} {mask : MapMask}
  {m : MapArgs S} {op : Op S O}

open State Option Function

structure Good (L : Layout O R) (s : State S O R) : Prop where
  linked : s.Linked L
  dead : ∀ x r, s.names L x = some r → r ∉ s.reap
  fault : s.fault = false

structure Inv (L : Layout O R) (s : State S O R) : Prop extends Good L s where
  born : ∀ x r, s.names L x = some r → r ∈ s.born
  reapBorn : ∀ r ∈ s.reap, r ∈ s.born
  alive : ∀ x r, s.names L x = some r → 1 ≤ (s.mappable r).cnt

theorem mem_reap_freeObject {r' : R} : r' ∈ (s.freeObject r).reap ↔
    r' ∈ s.reap ∨ r' = r ∧ (s.mappable r).root = [] := by
  unfold freeObject
  split_ifs with he
  · rw [List.isEmpty_iff] at he
    simp [he]
  · rw [List.isEmpty_iff] at he
    simp [he]

structure Stuck (L : Layout O R) (r : R) (x : Slot S) (s : State S O R) : Prop where
  reap : r ∈ s.reap
  names : s.names L x = some r
  only : ∀ y, s.names L y = some r → y = x
  others : ∀ r', r' ≠ r → x ∉ (s.mappable r').root

def Bad (L : Layout O R) (x : Slot S) (s : State S O R) : Prop :=
  s.fault = true ∨ ∃ r, Stuck L r x s

theorem Bad.not_good (h : Bad L x s) : ¬Good L s := by
  intro hg
  rcases h with hf | ⟨r, hr⟩
  · rw [hg.fault] at hf
    cases hf
  · exact hg.dead x r hr.names hr.reap

theorem inv_boot : Inv L (boot : State S O R) := by
  have hnames : ∀ x r, (boot : State S O R).names L x ≠ some r := fun x r hx =>
    absurd (tidy_boot.born x r hx) List.not_mem_nil
  exact ⟨⟨tidy_boot.linked, fun x r hx => absurd hx (hnames x r), rfl⟩, fun x r hx =>
    absurd hx (hnames x r), fun r hr => absurd hr List.not_mem_nil, fun x r hx =>
    absurd hx (hnames x r)⟩

namespace Stuck

variable {r' : R}

theorem of (h : Stuck L r x s) (hreap : ∀ r', r' ∈ s.reap → r' ∈ t.reap)
    (hx : t.entry L x = s.entry L x) (hnames : ∀ y, t.names L y = some r → s.names L y = some r)
    (hlists : ∀ r', r' ≠ r → x ∈ (t.mappable r').root → x ∈ (s.mappable r').root) :
    Stuck L r x t := by
  refine ⟨hreap r h.reap, ?_, fun y hy => h.only y (hnames y hy), fun r' hr' hc =>
    h.others r' hr' (hlists r' hr' hc)⟩
  rw [State.names, hx]
  exact h.names

section

variable (h : Stuck L r x s)
include h

theorem freeObject : Stuck L r x (s.freeObject r') := by
  refine h.of (fun _ hc => mem_reap_freeObject.2 (.inl hc)) ?_ (fun z hz => ?_) (fun r'' _ hc => ?_)
  · rw [entry_freeObject]
  · rwa [State.names, entry_freeObject] at hz
  · rwa [freeObject_rest.1] at hc

variable [DecidableEq R]

theorem relist {l : Mappable S} (hl : x ∉ l.root) : Stuck L r x (s.relist r' l) := by
  refine h.of (fun _ hc => hc) rfl (fun _ hz => hz) (fun r'' _ hc => ?_)
  by_cases hrr : r'' = r'
  · subst hrr
    rw [mappable_relist] at hc
    exact absurd hc hl
  · rwa [mappable_relist_of_ne hrr] at hc

end

variable [DecidableEq S]

theorem vDelete (h : Stuck L r x s) (hy : y ≠ x) : Stuck L r x (s.vDelete L y a) := by
  obtain ⟨hm, hr, -, -⟩ := s.vDelete_rest (L := L) (x := y) (r := a)
  refine h.of (fun r' hr' => hr ▸ hr') ?_ (fun z hz => shrinks_vDelete.names hz)
    (fun r' _ hc => hm ▸ hc)
  rw [entry_vDelete, if_neg hy.symm]

variable (h : Stuck L r x s)
include h

theorem setAt (hu : s.SetAt L y o a u) (hy : y ≠ x) (hr : L.mapRoot o ≠ r) : Stuck L r x u := by
  refine h.of (fun r' hc => hu.reap ▸ hc) ?_ (fun z hz => ?_) (fun r' _ hc => hu.mappable ▸ hc)
  · rw [hu.entry, update_of_ne hy.symm]
  · by_cases hzy : z = y
    · subst hzy
      have hself : u.names L z = some (L.mapRoot o) :=
        names_set rfl (by rw [hu.entry, update_self])
      exact absurd (some.inj (hself.symm.trans hz)) hr
    · exact (names_update hu.entry hzy).symm.trans hz

end Stuck

variable [DecidableEq S] [DecidableEq R]

theorem fault_grant (h : sx ∉ (s.mappable r).root) : (s.grant r sx dx).fault = true := by
  simp only [State.grant, State.replace, h, if_false]
  split_ifs <;> rfl

theorem fault_register (h : sx ∉ (s.mappable (L.mapRoot sObj)).root) (hg : m.grant = true) :
    (s.register L m sObj iObj sx dx true).fault = true := by
  simp only [register, hg, if_true]
  rw [freeObject_rest.2.2, (vDelete_rest).2.2.2]
  exact fault_grant h

theorem fault_unmapDst (h : s.fault = true) : (s.unmapDst L o x).fault = true := by
  have hdel : (s.vDelete L x .fullRights).fault = true := s.vDelete_rest.2.2.2.trans h
  rw [unmapDst, freeObject_rest.2.2]
  unfold State.flush State.unlink
  split_ifs
  all_goals first | exact hdel | rfl

theorem fault_inserts (hi : Inserts L m sx dx sObj iObj a s t) (h : s.fault = true) :
    t.fault = true := by
  obtain ⟨u, hu, rfl⟩ := hi
  have hfu : u.fault = true := hu.fault.trans h
  unfold register
  split_ifs
  · rw [freeObject_rest.2.2, (vDelete_rest).2.2.2]
    unfold State.grant State.replace
    simp only
    split_ifs
    all_goals first | exact hfu | rfl
  · exact hfu
  · exact hfu

section

variable (h : Inv L s)
include h

theorem Inv.removed (hx : s.names L x = some r) {d : Prop} [Decidable d] (hu : s.Removed L x r d u)
    (hd : ¬d → (s.entry L x).isRefCounted → 1 < (s.mappable r).cnt) : Inv L (u.freeObject r) := by
  have hl := h.linked.of_removed hx hu
  have hsub : ∀ {y r'}, u.names L y = some r' → s.names L y = some r' := by
    intro y r' hy
    rw [Linked.names_removed hu] at hy
    split_ifs at hy
    exact hy
  obtain ⟨hmap, hborn, hfault⟩ := freeObject_rest (s := u) (r := r)
  have hnames : (u.freeObject r).names L = u.names L := by
    funext y
    rw [names, names, entry_freeObject]
  refine ⟨⟨hl.freeObject, fun y r' hy => ?_, ?_⟩, fun y r' hy => ?_, fun r' hr' => ?_, fun y r' hy => ?_⟩
  · rw [hnames] at hy
    rw [mem_reap_freeObject, hu.reap]
    rintro (hr | ⟨rfl, hnil⟩)
    · exact h.dead y r' (hsub hy) hr
    · rw [← hl.mem, hnil] at hy
      cases hy
  · rw [hfault, hu.fault, h.fault]
  · rw [hnames] at hy
    rw [hborn, hu.born]
    exact h.born y r' (hsub hy)
  · rw [hborn, hu.born]
    rw [mem_reap_freeObject, hu.reap] at hr'
    rcases hr' with hr | ⟨rfl, -⟩
    · exact h.reapBorn r' hr
    · exact h.born x r' hx
  · rw [hnames] at hy
    rw [hmap]
    by_cases hr : r' = r
    · subst hr
      have hnd : ¬d := by
        intro hdd
        rw [← hl.mem, hu.root.mem_iff, if_pos hdd] at hy
        cases hy
      rw [hu.cnt, if_neg hnd]
      have hone := h.alive x r' hx
      split_ifs with hc
      · have := hd hnd hc
        omega
      · omega
    · rw [hu.other r' hr]
      exact h.alive y r' (hsub hy)

theorem Inv.adds (ha : s.Adds L x o a t) (hborn : L.mapRoot o ∈ s.born)
    (hdead : L.mapRoot o ∉ s.reap) (hone : a.getLsbD 4 ∨ 1 ≤ (s.mappable (L.mapRoot o)).cnt) :
    Inv L t := by
  have hl := ha.linked h.linked
  obtain ⟨u, hx, hu, rfl⟩ := ha
  have hnames : ∀ {y r'}, (u.insert (L.mapRoot o) x).names L y = some r' →
      y = x ∧ r' = L.mapRoot o ∨ s.names L y = some r' := by
    intro y r' hy
    by_cases hyx : y = x
    · subst hyx
      have hself : (u.insert (L.mapRoot o) y).names L y = some (L.mapRoot o) :=
        names_set rfl (by rw [State.insert, entry_relist, hu.entry, update_self])
      exact .inl ⟨rfl, some.inj (hy.symm.trans hself)⟩
    · exact .inr ((names_update hu.entry hyx).symm.trans hy)
  have hcnt := cnt_insert rfl hu
  have hpos : 0 ≤ (s.mappable (L.mapRoot o)).cnt := by
    rw [h.linked.cnt]
    exact Int.natCast_nonneg _
  refine ⟨⟨hl, fun y r' hy => ?_, ?_⟩, fun y r' hy => ?_, fun r' hr' => ?_, fun y r' hy => ?_⟩
  · change r' ∉ u.reap
    rw [hu.reap]
    rcases hnames hy with ⟨-, rfl⟩ | hy
    · exact hdead
    · exact h.dead y r' hy
  · exact hu.fault.trans h.fault
  · change r' ∈ u.born
    rw [hu.born]
    rcases hnames hy with ⟨-, rfl⟩ | hy
    · exact hborn
    · exact h.born y r' hy
  · change r' ∈ u.reap at hr'
    change r' ∈ u.born
    rw [hu.reap] at hr'
    rw [hu.born]
    exact h.reapBorn r' hr'
  · by_cases hr : r' = L.mapRoot o
    · subst hr
      rw [hcnt]
      rcases hone with h4 | h1
      · rw [if_pos h4]
        omega
      · split_ifs <;> omega
    · rcases hnames hy with ⟨-, rfl⟩ | hy
      · exact absurd rfl hr
      · rw [State.insert, mappable_relist_of_ne hr, hu.mappable]
        exact h.alive y r' hy

theorem Inv.removes (hr : s.Removes L x mask t) : Inv L t := by
  obtain ⟨r, u, hx, hu, rfl⟩ := hr
  refine h.removed hx hu fun hd hc => ?_
  by_contra hcnt
  exact hd (.inr ⟨hc, by omega⟩)

theorem Inv.moves (hm : s.Moves L sx dx o a t) : Inv L t := by
  obtain ⟨u, w, hse, hre, hu, hw, rfl⟩ := hm
  have hadd : Inv L (u.insert (L.mapRoot o) dx) :=
    h.adds ⟨u, hre, hu, rfl⟩ (h.born sx _ hse) (h.dead sx _ hse) (.inr (h.alive sx _ hse))
  have hne : sx ≠ dx := by
    rintro rfl
    rw [hse] at hre
    cases hre
  have hent : (u.insert (L.mapRoot o) dx).entry L sx = s.entry L sx := by
    rw [State.insert, entry_relist, hu.entry, update_of_ne hne]
  refine hadd.removed (names_insert hse hre hu) hw fun hd hc => ?_
  have hone := h.alive sx _ hse
  rw [hent] at hc
  rw [cnt_insert rfl hu]
  by_cases h4 : a.getLsbD 4
  · rw [if_pos h4]
    omega
  · rw [if_neg h4, add_zero]
    by_contra hcnt
    exact hd ⟨hc, h4, by omega⟩

end

namespace Stuck

variable {r' : R} (h : Stuck L r x s)
include h

theorem invalidateMappings (hr : r' ≠ r) : Stuck L r x (s.invalidateMappings r') := by
  refine h.of (fun _ hc => hc) ?_ (fun z hz => shrinks_invalidateMappings.names hz)
    (fun r'' _ hc => ?_)
  · rw [entry_invalidateMappings, if_neg (h.others r' hr)]
  · change x ∈ ((s.relist r' _).mappable r'').root at hc
    by_cases hrr : r'' = r'
    · subst hrr
      rw [mappable_relist] at hc
      cases hc
    · rwa [mappable_relist_of_ne hrr] at hc

theorem unlink (hr : r' ≠ r) : Stuck L r x (s.unlink r' y) := by
  unfold State.unlink
  split_ifs
  · exact h.relist fun hc => h.others r' hr (List.mem_of_mem_erase hc)
  · exact { h with }

theorem flush (hr : r' ≠ r) : Stuck L r x (s.flush r' y mask) := by
  have hdec : Stuck L r x (s.decCnt r') := h.relist (h.others r' hr)
  unfold State.flush
  split_ifs
  · exact h
  · exact h.invalidateMappings hr
  · exact h.unlink hr
  · exact h.invalidateMappings hr
  · exact hdec.unlink hr

theorem unmapDst (hy : y ≠ x) (hr : L.mapRoot o ≠ r) :
    Stuck L r x (s.unmapDst L o y) := ((h.vDelete hy).flush hr).freeObject

theorem grant (hr : r' ≠ r) (hy : dx ≠ x) : Stuck L r x (s.grant r' sx dx) := by
  have hrep : Stuck L r x (s.replace r' sx dx) := by
    unfold State.replace
    split_ifs with hmem
    · refine h.relist fun hc => ?_
      rcases (mem_swap hmem).1 hc with hc | hc
      · exact hy hc.symm
      · exact h.others r' hr hc.1
    · exact { h with }
  have hdec : Stuck L r x ((s.replace r' sx dx).decCnt r') := hrep.relist (hrep.others r' hr)
  unfold State.grant
  simp only
  split_ifs
  · exact hdec.invalidateMappings hr
  · exact hdec
  · exact hrep

theorem inserts (hi : Inserts L m sx dx sObj iObj a s t) (hsx : sx ≠ x)
    (hdx : dx ≠ x) (hs : L.mapRoot sObj ≠ r) (hroot : L.mapRoot iObj = L.mapRoot sObj) :
    Stuck L r x t := by
  obtain ⟨u, hu, rfl⟩ := hi
  have hsu := h.setAt hu hdx (hroot ▸ hs)
  unfold register
  split_ifs
  · exact ((hsu.grant hs hdx).vDelete hsx).freeObject
  · refine hsu.relist fun hc => ?_
    rcases List.mem_cons.1 hc with hc | hc
    · exact hdx hc.symm
    · exact hsu.others _ (hroot ▸ hs) hc
  · exact hsu

end Stuck

theorem Stuck.turn (h : Stuck L r x s) (ht : Turn L m s sx dx t) (hsx : sx ≠ x) (hdx : dx ≠ x) : Stuck L r x t := by
  have hroot : ∀ {y o}, y ≠ x → (s.entry L y).obj = some o → L.mapRoot o ≠ r := fun hy ho hr =>
    hy (h.only _ (hr ▸ names_of_obj ho))
  cases ht with
  | idle _ | full _ => exact h
  | gone _ ho _ _ => exact h.unmapDst hdx (hroot hdx ho)
  | fresh hs _ hi => exact h.inserts hi hsx hdx (hroot hsx hs.1) hs.mapRoot
  | overmap hs ho _ hi =>
    exact (h.unmapDst hdx (hroot hdx ho)).inserts hi hsx hdx (hroot hsx hs.1) hs.mapRoot

theorem Bad.turn (h : Bad L x s) (ht : Turn L m s sx dx t) (hsx : sx ≠ x) (hdx : dx ≠ x) :
    Bad L x t := by
  rcases h with hf | ⟨r, hr⟩
  · left
    cases ht with
    | idle _ | full _ => exact hf
    | gone _ _ _ _ => exact fault_unmapDst hf
    | fresh _ _ hi => exact fault_inserts hi hf
    | overmap _ _ _ hi => exact fault_inserts hi (fault_unmapDst hf)
  · exact .inr ⟨r, hr.turn ht hsx hdx⟩

variable [DecidableEq O]

section

variable (h : Inv L s)
include h

omit [DecidableEq O] in
theorem Inv.turn (ht : Turn L m s sx dx t) (hc : ¬s.Clash L m sx dx) : Inv L t := by
  cases ht.edited h.linked fun _ => hc with
  | none => exact h
  | removed hr => exact h.removes hr
  | moved _ hv _ _ hm =>
    rcases hv with rfl | hr
    · exact h.moves hm
    · exact (h.removes hr).moves hm
  | @added sObj iObj a v _ hs hv _ hdel ha =>
    have hsx := names_of_obj hs.1
    rw [← hs.mapRoot] at hsx
    have hone := h.alive sx _ hsx
    rcases hv with rfl | hr
    · exact h.adds ha (h.born sx _ hsx) (h.dead sx _ hsx) (.inr hone)
    · have hv := h.removes hr
      obtain ⟨r, u, hx, hu, rfl⟩ := hr
      obtain ⟨hmap, hborn, -⟩ := freeObject_rest (s := u) (r := r)
      -- The object that is sent does not go with the overmapped capability.
      have hcnt : 1 ≤ (u.mappable (L.mapRoot iObj)).cnt := by
        by_cases hr : L.mapRoot iObj = r
        · have hn : s.names L dx = some (L.mapRoot sObj) := by rw [hx, ← hr, hs.mapRoot]
          have hlast : ¬((s.entry L dx).isRefCounted ∧ (s.mappable r).cnt ≤ 1) := fun hl =>
            hc ⟨sObj, iObj, a, hs, hn, hdel hn, .inl (by rw [← hs.mapRoot, hr]; exact hl)⟩
          have hlives : ¬s.Dies L dx r .full := by
            rintro (hd | hl)
            · rw [hdel hn] at hd
              exact Bool.false_ne_true hd.2
            · exact hlast hl
          rw [hr] at hone ⊢
          rw [hu.cnt, if_neg hlives]
          split_ifs with hcounted
          · have hgt : ¬(s.mappable r).cnt ≤ 1 := fun hle => hlast ⟨hcounted, hle⟩
            omega
          · omega
        · rw [hu.other _ hr]
          exact hone
      have hne : (u.mappable (L.mapRoot iObj)).root ≠ [] := by
        intro hnil
        have hzero := hv.linked.cnt (L.mapRoot iObj)
        rw [hmap, hnil] at hzero
        simp only [List.countP_nil, Nat.cast_zero] at hzero
        omega
      refine hv.adds ha ?_ ?_ (.inr ?_)
      · rw [hborn, hu.born]
        exact h.born sx _ hsx
      · rw [mem_reap_freeObject, hu.reap]
        rintro (hr | ⟨hr, hnil⟩)
        · exact h.dead sx _ hsx hr
        · exact hne (hr ▸ hnil)
      · rw [hmap]
        exact hcnt

omit [DecidableEq O] in
theorem Inv.clash (ht : Turn L m s sx dx t) (hc : s.Clash L m sx dx) : Bad L dx t := by
  obtain ⟨sObj, iObj, a, hs, hn, hdel, hlast⟩ := hc
  cases ht with
  | idle hidle => exact absurd hs (hidle _ _ _)
  | full ho | fresh _ ho _ =>
    rw [names_of_obj_none ho] at hn
    cases hn
  | gone _ _ _ hd =>
    rw [hdel] at hd
    cases hd
  | @overmap sObj' iObj' a' rObj _ hs' ho hgone hi =>
    obtain rfl : sObj = sObj' := some.inj (hs.1.symm.trans hs'.1)
    have hrem := removes_unmapDst h.linked ho
    have hlv := hrem.linked h.linked
    have hvoid := (unmapDst_self ho).1
    obtain ⟨r, w, hx, hw, hv⟩ := hrem
    obtain rfl : L.mapRoot sObj = r := some.inj (hn.symm.trans hx)
    have hsx := names_of_obj hs.1
    have hnames : ∀ y, (s.unmapDst L rObj dx).names L y = w.names L y := fun y => by
      rw [hv, State.names, entry_freeObject, State.names]
    -- The sender's capability has gone.
    have hgone : (s.Dies L dx (L.mapRoot sObj) .full ∨ sx = dx) →
        sx ∉ ((s.unmapDst L rObj dx).mappable (L.mapRoot sObj)).root := by
      intro hor
      rw [hlv.mem, hnames, Linked.names_removed hw, if_pos]
      · rintro ⟨⟩
      · exact hor.symm.imp_right fun hd => ⟨hd, hsx⟩
    cases hg : m.grant with
    | true =>
      obtain ⟨u, hu, rfl⟩ := hi
      refine .inl (fault_register ?_ hg)
      rw [hu.mappable]
      exact hgone (hlast.imp (fun hl => .inr hl) fun hsd => hsd.2)
    | false =>
      have hd : s.Dies L dx (L.mapRoot sObj) .full := by
        refine .inr (hlast.resolve_right ?_)
        rintro ⟨hgt, -⟩
        rw [hg] at hgt
        cases hgt
      have hadd := hi.adds hg hvoid
      have hlt := hadd.linked hlv
      obtain ⟨u, -, hu, rfl⟩ := hadd
      rw [hs'.mapRoot] at hlt ⊢
      have hself : (u.insert (L.mapRoot sObj) dx).names L dx = some (L.mapRoot sObj) :=
        names_set hs'.mapRoot (by rw [State.insert, entry_relist, hu.entry, update_self])
      refine .inr ⟨L.mapRoot sObj, ?_, hself, fun y hy => ?_, fun r' hr' => ?_⟩
      · change L.mapRoot sObj ∈ u.reap
        rw [hu.reap, hv, mem_reap_freeObject]
        refine .inr ⟨rfl, ?_⟩
        have hnil := hw.root
        rw [if_pos hd] at hnil
        exact hnil.eq_nil
      · by_contra hne
        have hy' : (s.unmapDst L rObj dx).names L y = some (L.mapRoot sObj) :=
          (names_update hu.entry hne).symm.trans hy
        rw [hnames, Linked.names_removed hw] at hy'
        split_ifs at hy' with hk
        exact hk (.inr ⟨hd, hy'⟩)
      · rw [hlt.mem, hself]
        exact fun heq => hr' (some.inj heq).symm

end

variable {snd rcv fuel : ℕ} {mapped : Bool}

theorem Bad.mapLoop {n k i : ℕ} (hsnd : 2 ^ k ∣ snd) (hrcv : 2 ^ k ∣ rcv)
    (hn : n = 2 ^ k) (hi : i < n) (h : Bad L (m.rcv, rcv + i) s) :
    Bad L (m.rcv, rcv + i) (mapLoop L m fuel mapped (snd + (i + 1)) (rcv + (i + 1)) (n - (i + 1)) s).1 := by
  have hstep : ∀ j t, j < n → Bad L (m.rcv, rcv + i) t ∧ i < j → True →
      Bad L (m.rcv, rcv + i) (t.mapTurn L m (snd + j) (rcv + j) (n - j)).state ∧
        i < j + (t.mapTurn L m (snd + j) (rcv + j) (n - j)).size := by
    rintro j t hj ⟨hb, hij⟩ -
    obtain ⟨hturn, hsize, -⟩ := mapTurn_turn (L := L) (m := m) (s := t) (snd + j) (rcv + j) (n - j)
    refine ⟨hb.turn hturn ?_ ?_, by omega⟩
    · intro heq
      have := window_place hsnd hrcv (hn ▸ hj) (hn ▸ hi) (congrArg Prod.snd heq)
      omega
    · intro heq
      have := window_place hrcv hrcv (hn ▸ hj) (hn ▸ hi) (congrArg Prod.snd heq)
      omega
  obtain ⟨j, hj, -⟩ := mapLoop_rule hstep fuel (i + 1) mapped s ⟨h, Nat.lt_succ_self i⟩
    (eachTurn_true ..)
  exact hj

theorem Inv.mapLoop_bad {n k : ℕ} (hsnd : 2 ^ k ∣ snd) (hrcv : 2 ^ k ∣ rcv) (hn : n = 2 ^ k) :
    ∀ fuel i mapped s, Inv L s →
      ¬EachTurn L m (fun s sx dx => ¬s.Clash L m sx dx) fuel (snd + i) (rcv + i) (n - i) s →
      ∃ x, Bad L x (mapLoop L m fuel mapped (snd + i) (rcv + i) (n - i) s).1 := by
  intro fuel
  induction fuel with
  | zero => exact fun _ _ _ _ hc => absurd trivial hc
  | succ fuel ih =>
    intro i mapped s h hc
    rw [EachTurn] at hc
    rw [mapLoop]
    by_cases hcond : n - i ≠ 0 ∧ rcv + i < L.mapMaxAddress ∧ snd + i < L.mapMaxAddress
    · rw [if_pos hcond] at hc ⊢
      have hi : i < n := by omega
      obtain ⟨hturn, -, hsize⟩ := mapTurn_turn (L := L) (m := m) (s := s) (snd + i) (rcv + i)
        (n - i)
      by_cases hcl : s.Clash L m (m.src, snd + i) (m.rcv, rcv + i)
      · have hbad := h.clash hturn hcl
        have hone := hsize.resolve_left fun heq => (heq ▸ hbad).not_good h.toGood
        cases hf : s.mapTurn L m (snd + i) (rcv + i) (n - i) with
        | next size mapped' t =>
          rw [hf] at hbad hone
          obtain rfl : size = 1 := hone
          simp only [Nat.add_assoc, Nat.sub_sub]
          exact ⟨_, Bad.mapLoop hsnd hrcv hn hi hbad⟩
        | stop failed t =>
          rw [hf] at hbad
          exact ⟨_, hbad⟩
      · have hinv := h.turn hturn hcl
        cases hf : s.mapTurn L m (snd + i) (rcv + i) (n - i) with
        | next size mapped' t =>
          rw [hf] at hinv hc
          simp only [Nat.add_assoc, Nat.sub_sub] at hc ⊢
          exact ih (i + size) _ t hinv fun he => hc ⟨hcl, he⟩
        | stop failed t =>
          rw [hf] at hc
          exact absurd ⟨hcl, trivial⟩ hc
    · rw [if_neg hcond] at hc
      exact absurd trivial hc

theorem Inv.mapLoop {n : ℕ} (h : Inv L s)
    (hc : EachTurn L m (fun s sx dx => ¬s.Clash L m sx dx) fuel snd rcv n s) :
    Inv L (mapLoop L m fuel mapped snd rcv n s).1 := by
  have hstep : ∀ i t, i < n → Inv L t → ¬t.Clash L m (m.src, snd + i) (m.rcv, rcv + i) →
      Inv L (t.mapTurn L m (snd + i) (rcv + i) (n - i)).state := fun i t _ ht hcl =>
    ht.turn (mapTurn_turn ..).1 hcl
  obtain ⟨j, hj⟩ := mapLoop_rule (I := fun _ t => Inv L t) hstep fuel 0 mapped s h hc
  exact hj

omit [DecidableEq R] [DecidableEq O] in
theorem Inv.lowers (h : Inv L s) (ha : ¬a.getLsbD 2) (ha4 : a.getLsbD 4 = false) :
    Inv L (s.vDelete L x a) := by
  obtain ⟨hm, hr, hb, hf⟩ := s.vDelete_rest (L := L) (x := x) (r := a)
  have hself : Framed L s (fun _ => False) (fun _ => False) false s := h.linked.framed
  have hl := hself.lowers (x := x) ha ha4
  have hsub : ∀ {y r}, (s.vDelete L x a).names L y = some r → s.names L y = some r := fun hy =>
    shrinks_vDelete.names hy
  refine ⟨⟨hl.linked, fun y r hy => ?_, hf.trans h.fault⟩, fun y r hy => ?_, fun r hc => ?_,
    fun y r hy => ?_⟩
  · rw [hr]
    exact h.dead y r (hsub hy)
  · rw [hb]
    exact h.born y r (hsub hy)
  · rw [hb]
    exact h.reapBorn r (hr ▸ hc)
  · rw [hm]
    exact h.alive y r (hsub hy)

theorem Inv.unmapLoop {sp : S} {addr stop : ℕ} (h : Inv L s) (ha4 : a.getLsbD 4 = false)
    (hf : stop ≤ addr + fuel) : Inv L (s.unmapLoop L sp a mask fuel addr stop) := by
  have hcap : ∀ i t o, i < stop → (t.entry L (sp, i)).obj = some o → Inv L t →
      Inv L (t.unmapCap L (sp, i) o a mask) := by
    intro i t o _ ho ht
    by_cases hm : mask.selfUnmap = true
    · by_cases ha : a.getLsbD 2
      · exact ht.removes (removes_unmapCap ht.linked ho ha hm)
      · have hlow : t.unmapCap L (sp, i) o a mask = t.vDelete L (sp, i) a := by
          simp only [unmapCap, hm, if_true, ha, if_false, Bool.false_eq_true]
        rw [hlow]
        exact ht.lowers ha ha4
    · rw [unmapCap_other ht.linked ho (Bool.eq_false_iff.2 hm)]
      exact ht
  obtain ⟨j, hj, -⟩ := unmapLoop_rule (I := fun _ t => Inv L t) (fun _ _ _ _ _ ht => ht) hcap fuel
    addr s h hf
  exact hj

omit [DecidableEq O] in
theorem Inv.rooted (h : Inv L s) (ht : Rooted L s o x t) (hborn : L.mapRoot o ∈ s.born)
    (hno : ∀ y, s.names L y ≠ some (L.mapRoot o)) (hdead : L.mapRoot o ∉ s.reap) : Inv L t := by
  have hfull : Attr.full.getLsbD 4 := by decide
  cases ht with
  | none => exact h
  | @fresh u hx hu =>
    rw [insertRootMapping_eq h.linked hu hno]
    exact h.adds ⟨u, names_of_obj_none hx, hu, rfl⟩ hborn hdead (.inl hfull)
  | @overmap rObj u hx hu =>
    have hrem := removes_unmapDst h.linked hx
    have hv := h.removes hrem
    have hno' : ∀ y, (s.unmapDst L rObj x).names L y ≠ some (L.mapRoot o) := fun y hy =>
      hno y (shrinks_unmapDst.names hy)
    rw [insertRootMapping_eq hv.linked hu hno']
    refine hv.adds ⟨u, names_of_obj_none (unmapDst_self hx).1, hu, rfl⟩ ?_ ?_ (.inl hfull)
    · obtain ⟨r, w, -, hw, heq⟩ := hrem
      rw [heq, freeObject_rest.2.1, hw.born]
      exact hborn
    · obtain ⟨r, w, hxn, hw, heq⟩ := hrem
      rw [heq, mem_reap_freeObject, hw.reap]
      rintro (hc | ⟨rfl, -⟩)
      · exact hdead hc
      · exact hno x hxn

/-- No capability is mapped over the last counted one of the same object, unless that may delete
the object, and none is granted over itself. -/
def Guarded (L : Layout O R) (s : State S O R) : Op S O → Prop
  | .map src rcv fpFrom fpTo control mem =>
    EachTurn L (mapArgs src rcv fpFrom control mem)
      (fun s sx dx => ¬s.Clash L (mapArgs src rcv fpFrom control mem) sx dx)
      (2 ^ (mapWindow fpFrom fpTo control).order) (mapWindow fpFrom fpTo control).snd
      (mapWindow fpFrom fpTo control).rcv (2 ^ (mapWindow fpFrom fpTo control).order) s
  | _ => True

theorem step_keeps (h : Inv L s) : Machine.Keeps (Good L) (Inv L) (Guarded L s op) (step L s op) := by
  have hof : ∀ {t : State S O R} {c : Prop}, c → Inv L t → Machine.Keeps (Good L) (Inv L) c t :=
    fun hc ht => .of_inv hc ht.toGood ht
  cases op with
  | create o x mem =>
    refine hof trivial ?_
    simp only [step]
    split_ifs with hb
    · exact h
    · have hno : ∀ y, s.names L y ≠ some (L.mapRoot o) := fun y hy => hb (h.born y _ hy)
      have hs : Inv L { s with born := L.mapRoot o :: s.born } :=
        ⟨⟨⟨h.linked.mem, h.linked.nodup, h.linked.cnt⟩, h.dead, h.fault⟩,
          fun x r hx => List.mem_cons_of_mem _ (h.born x r hx),
          fun r hr => List.mem_cons_of_mem _ (h.reapBorn r hr), h.alive⟩
      have hroot : Rooted L { s with born := L.mapRoot o :: s.born } o x
          (map L { s with born := L.mapRoot o :: s.born } o x mem).1 := map_rooted
      exact hs.rooted hroot List.mem_cons_self hno fun hr => hb (h.reapBorn _ hr)
  | map src rcv fpFrom fpTo control mem =>
    obtain ⟨hsnd, hrcv⟩ := mapWindow_dvd fpFrom fpTo control
    by_cases hg : Guarded L s (.map src rcv fpFrom fpTo control mem)
    · exact hof hg (h.mapLoop hg)
    · obtain ⟨x, hx⟩ := Inv.mapLoop_bad hsnd hrcv rfl _ 0 false s h hg
      exact .of_not hg hx.not_good
  | unmap sp fp mask => exact hof trivial (h.unmapLoop fp.rights_four le_rfl)

theorem links_sound_iff (L : Layout O R) (ops : List (Op S O)) :
    Machine.Along (step L) (fun s op => Good L (step L s op)) boot ops ↔
      Machine.Along (step L) (Guarded L) boot ops :=
  Machine.along_good_iff (fun _ _ h => step_keeps h) inv_boot

def remap : List (Op Bool Bool) :=
  [.create false (false, 0) fun _ => true,
    .unmap false ⟨0x38⟩ ⟨true, false⟩,
    .map false false (.slot 0) (.slot 0) ⟨0xe8⟩ fun _ => true]

theorem remap_deleted :
    let s := Machine.run (step pair) boot remap
    s.names pair (false, 0) = some false ∧ false ∈ s.reap := by decide

end Fiasco.Obj
