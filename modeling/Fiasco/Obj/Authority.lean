import Fiasco.Obj.MapUtil

/-!
# Where capabilities come from

No operation but the root mapping of a new object makes authority: what a slot can do afterwards it
could do before, or it is the slot of a receive window, and the slot at the same place of the send
window could do it.
-/

namespace Fiasco.Obj

theorem dvd_maskLsb (a o : ℕ) : 2 ^ o ∣ maskLsb a o := Nat.dvd_sub_mod a

theorem freeConstraint_dvd {snd so rcv ro hot : ℕ} (hs : 2 ^ so ∣ snd) (hr : 2 ^ ro ∣ rcv) :
    2 ^ (freeConstraint snd so rcv ro hot).order ∣ (freeConstraint snd so rcv ro hot).snd ∧
      2 ^ (freeConstraint snd so rcv ro hot).order ∣ (freeConstraint snd so rcv ro hot).rcv := by
  unfold freeConstraint
  split_ifs with h
  · exact ⟨hs, Nat.dvd_add ((Nat.pow_dvd_pow 2 h).trans hr) (dvd_maskLsb _ so)⟩
  · exact ⟨Nat.dvd_add ((Nat.pow_dvd_pow 2 (Nat.le_of_not_le h)).trans hs) (dvd_maskLsb _ ro), hr⟩

theorem window_place {o a b i j : ℕ} (ha : 2 ^ o ∣ a) (hb : 2 ^ o ∣ b) (hi : i < 2 ^ o)
    (hj : j < 2 ^ o) (h : a + i = b + j) : i = j := by
  obtain ⟨c, rfl⟩ := ha
  obtain ⟨d, rfl⟩ := hb
  have hmod := congrArg (· % 2 ^ o) h
  simpa only [Nat.mul_add_mod, Nat.mod_eq_of_lt hi, Nat.mod_eq_of_lt hj] using hmod

variable {S O R : Type}

namespace State

variable (L : Layout O R)

def Shrinks (s t : State S O R) : Prop :=
  ∀ x o b, (t.entry L x).Gives o b → (s.entry L x).Gives o b

variable {L} {s t u : State S O R} {x : Slot S} {r : R} {o : O} {a : Attr} {mask : MapMask}

theorem Shrinks.refl : Shrinks L s s := fun _ _ _ h => h

theorem Shrinks.trans (h : Shrinks L s t) (h' : Shrinks L t u) : Shrinks L s u :=
  fun x o b hg => h x o b (h' x o b hg)

theorem Shrinks.of_entry (h : t.entry L = s.entry L) : Shrinks L s t := fun x o b hg => by rwa [← h]

def Lacks (L : Layout O R) (s : State S O R) (x : Slot S) (rights : Attr) : Prop :=
  ∀ o b, (s.entry L x).Gives o b → ¬rights.getLsbD b

theorem Lacks.mono (h : s.Lacks L x a) (hst : Shrinks L s t) : t.Lacks L x a :=
  fun o b hg => h o b (hst x o b hg)

theorem lacks_of_void (h : (s.entry L x).obj = none) : s.Lacks L x a := fun o b hg => by
  have ho := hg.1
  rw [h] at ho
  cases ho

def AtPage (L : Layout O R) (s : State S O R) (sp : S) (stop addr : ℕ) : Prop :=
  2 ^ L.capsPerPageLd2 ∣ addr ∨ (s.getCap L (sp, addr)).isSome ∨
    stop ≤ (L.page addr + 1) * 2 ^ L.capsPerPageLd2

section Page

variable {sp : S} {addr stop j : ℕ}

theorem getCap_same_page {i : ℕ} (h : L.page i = L.page j) :
    (s.getCap L (sp, i)).isSome = (s.getCap L (sp, j)).isSome := by
  unfold getCap
  rw [h]
  split_ifs <;> rfl

theorem AtPage.succ (h : (s.getCap L (sp, addr)).isSome) : s.AtPage L sp stop (addr + 1) := by
  by_cases hd : 2 ^ L.capsPerPageLd2 ∣ addr + 1
  · exact .inl hd
  · refine .inr (.inl ?_)
    rw [getCap_same_page (j := addr)]
    · exact h
    · exact Nat.succ_div_of_not_dvd hd

theorem AtPage.skip (h : s.AtPage L sp stop addr) (hno : (s.getCap L (sp, addr)).isSome = false) :
    s.AtPage L sp stop (addr + 2 ^ L.capsPerPageLd2) ∧
      ∀ j, addr ≤ j → j < addr + 2 ^ L.capsPerPageLd2 → j < stop →
        (s.getCap L (sp, j)).isSome = false := by
  have hk : 0 < 2 ^ L.capsPerPageLd2 := Nat.two_pow_pos _
  have hnext : L.page (addr + 2 ^ L.capsPerPageLd2) = L.page addr + 1 := Nat.add_div_right _ hk
  have hpage : ∀ j, addr ≤ j → j < (L.page addr + 1) * 2 ^ L.capsPerPageLd2 →
      (s.getCap L (sp, j)).isSome = false := by
    intro j h1 h2
    have hle : L.page addr ≤ L.page j := Nat.div_le_div_right h1
    have hlt : L.page j < L.page addr + 1 := (Nat.div_lt_iff_lt_mul hk).2 h2
    rw [getCap_same_page (j := addr) (by omega), hno]
  rcases h with hd | hc | hs
  · refine ⟨.inl (Nat.dvd_add hd dvd_rfl), fun j h1 h2 _ => hpage j h1 ?_⟩
    have haddr : L.page addr * 2 ^ L.capsPerPageLd2 = addr := Nat.div_mul_cancel hd
    rw [add_one_mul, haddr]
    exact h2
  · rw [hno] at hc
    cases hc
  · refine ⟨.inr (.inr ?_), fun j h1 _ h3 => hpage j h1 (h3.trans_le hs)⟩
    rw [hnext]
    exact hs.trans (Nat.mul_le_mul_right _ (by omega))

end Page

def Source (L : Layout O R) (s : State S O R) (x : Slot S) (set : Attr) (o : O) (b : ℕ) : Prop :=
  ∃ o₀, (s.entry L x).Gives o₀ b ∧ (o = o₀ ∨ ∃ a, o = L.downgrade o₀ a) ∧ set.getLsbD b

section

variable {m : MapArgs S} {sx : Slot S} {sObj iObj : O} {b : ℕ}

theorem Sends.source (h : s.Sends L sx m.attribs sObj iObj a)
    (hg : (Entry.set iObj a).Gives o b) : s.Source L sx m.attribs o b := by
  obtain ⟨hobj, heq, hempty⟩ := h
  obtain ⟨rfl, hb⟩ := hg.of_set
  have ha : a = (s.entry L sx).rights &&& m.attribs := congrArg Prod.snd heq
  have hbit : a.getLsbD b := by
    rcases hb with rfl | hb
    · simpa [Attr.empty] using hempty
    · exact hb
  rw [ha, BitVec.getLsbD_and, Bool.and_eq_true] at hbit
  refine ⟨sObj, ⟨hobj, hbit.1⟩, ?_, hbit.2⟩
  have hi : iObj = (applyAttribs L sObj (s.entry L sx).rights m.attribs).1 := congrArg Prod.fst heq
  unfold applyAttribs at hi
  simp only at hi
  split_ifs at hi
  · exact .inl hi
  · exact .inr ⟨_, hi⟩

end

variable [DecidableEq S]

theorem shrinks_vDelete : Shrinks L s (s.vDelete L x a) := by
  intro y o b h
  rw [entry_vDelete] at h
  split_ifs at h with hy
  · rw [hy]; exact h.of_delete.1
  · exact h

variable [DecidableEq R]

theorem shrinks_invalidateMappings : Shrinks L s (s.invalidateMappings r) := by
  intro y o b h
  rw [entry_invalidateMappings] at h
  split_ifs at h
  · exact absurd h Entry.not_gives_invalidate
  · exact h

theorem shrinks_flush : Shrinks L s (s.flush r x mask) := by
  intro y o b h
  rcases entry_flush mask (L := L) (s := s) (r := r) (x := x) (y := y) with he | he
  · rwa [he] at h
  · rw [he.2] at h
    exact absurd h Entry.not_gives_invalidate

theorem shrinks_grant {se re : Slot S} : Shrinks L s (s.grant r se re) := by
  have hrep : Shrinks L s (s.replace r se re) := .of_entry entry_replace
  unfold grant
  simp only
  split_ifs
  · exact hrep.trans shrinks_invalidateMappings
  · exact hrep
  · exact hrep

theorem shrinks_unmapDst : Shrinks L s (s.unmapDst L o x) :=
  (shrinks_vDelete.trans shrinks_flush).trans (.of_entry entry_freeObject)

theorem shrinks_unmapCap : Shrinks L s (s.unmapCap L x o a mask) := by
  have hdel : Shrinks L s (if mask.selfUnmap then s.vDelete L x a else s) := by
    split_ifs
    · exact shrinks_vDelete
    · exact .refl
  by_cases ha : a.getLsbD 2
  · simp only [unmapCap, ha, if_true]
    exact (hdel.trans shrinks_flush).trans (.of_entry entry_freeObject)
  · simp only [unmapCap, ha, if_false, Bool.false_eq_true]
    exact hdel

theorem lacks_unmapCap (hm : mask.selfUnmap) : (s.unmapCap L x o a mask).Lacks L x a := by
  have hdel : (s.vDelete L x a).Lacks L x a := fun o b hg => by
    rw [entry_vDelete, if_pos rfl] at hg
    exact hg.of_delete.2
  refine hdel.mono ?_
  simp only [unmapCap, hm, if_true]
  split_ifs
  · exact shrinks_flush.trans (.of_entry entry_freeObject)
  · exact .refl

theorem unmapCap_dir : (s.unmapCap L x o a mask).dir = s.dir := by
  have hdel : (if mask.selfUnmap then s.vDelete L x a else s).dir = s.dir := by
    split_ifs
    · exact vDelete_dir
    · rfl
  by_cases ha : a.getLsbD 2
  · simp only [unmapCap, ha, if_true]
    rw [freeObject_dir, flush_dir, hdel]
  · simp only [unmapCap, ha, if_false, Bool.false_eq_true]
    exact hdel

theorem shrinks_register {m : MapArgs S} {sObj iObj : O} {sx dx : Slot S} {isOk : Bool} :
    Shrinks L s (s.register L m sObj iObj sx dx isOk) := by
  unfold register
  split_ifs
  · exact (shrinks_grant.trans shrinks_vDelete).trans (.of_entry entry_freeObject)
  · exact .of_entry entry_relist
  · exact .refl

section Map

variable {m : MapArgs S} {sx dx : Slot S} {sObj iObj : O} {b : ℕ}

theorem Inserts.gives {v : State S O R} (h : Inserts L m sx dx sObj iObj a v t)
    (hg : (t.entry L x).Gives o b) :
    (v.entry L x).Gives o b ∨ x = dx ∧ (Entry.set iObj a).Gives o b := by
  obtain ⟨u, hu, rfl⟩ := h
  have hgu := shrinks_register x o b hg
  rw [hu.entry, Function.update_apply] at hgu
  split_ifs at hgu with hx
  · exact .inr ⟨hx, hgu⟩
  · exact .inl hgu

theorem Turn.gives (h : Turn L m s sx dx t) (hg : (t.entry L x).Gives o b) :
    (s.entry L x).Gives o b ∨ x = dx ∧ s.Source L sx m.attribs o b := by
  cases h with
  | idle _ | full _ => exact .inl hg
  | gone _ _ _ _ => exact .inl (shrinks_unmapDst x o b hg)
  | fresh hs _ hi =>
    exact (hi.gives hg).imp_right fun h => ⟨h.1, hs.source h.2⟩
  | overmap hs _ _ hi =>
    exact (hi.gives hg).imp (shrinks_unmapDst x o b) fun h => ⟨h.1, hs.source h.2⟩

variable [DecidableEq O]

theorem mapLoop_gives {snd rcv n k fuel : ℕ} {mapped : Bool} (hsnd : 2 ^ k ∣ snd) (hrcv : 2 ^ k ∣ rcv)
    (hn : n = 2 ^ k) (hg : ((mapLoop L m fuel mapped snd rcv n s).1.entry L x).Gives o b) :
    (s.entry L x).Gives o b ∨
      ∃ j < n, x = (m.rcv, rcv + j) ∧ s.Source L (m.src, snd + j) m.attribs o b := by
  let I : ℕ → State S O R → Prop := fun i t => ∀ x o b, (t.entry L x).Gives o b →
    (s.entry L x).Gives o b ∨
      ∃ j < i, j < n ∧ x = (m.rcv, rcv + j) ∧ s.Source L (m.src, snd + j) m.attribs o b
  have hstep : ∀ i t, i < n → I i t → True →
      I (i + (t.mapTurn L m (snd + i) (rcv + i) (n - i)).size)
        (t.mapTurn L m (snd + i) (rcv + i) (n - i)).state := by
    intro i t hi hI _ y o b hy
    obtain ⟨hturn, hsize, -⟩ := mapTurn_turn (L := L) (m := m) (s := t) (snd + i) (rcv + i) (n - i)
    rcases hturn.gives hy with h | ⟨rfl, o₀, h, ho, hb⟩
    · refine (hI y o b h).imp_right ?_
      rintro ⟨j, hj, h⟩
      exact ⟨j, by omega, h⟩
    · refine .inr ⟨i, by omega, hi, rfl, ?_⟩
      rcases hI _ _ _ h with h | ⟨j, hj, hjn, heq, -⟩
      · exact ⟨o₀, h, ho, hb⟩
      · -- The sender's slot is not one that has been written, for the windows are aligned.
        have hplace := window_place hsnd hrcv (hn ▸ hi) (hn ▸ hjn) (congrArg Prod.snd heq)
        omega
  obtain ⟨i, hi⟩ := mapLoop_rule hstep fuel 0 mapped s (fun _ _ _ h => .inl h)
    (eachTurn_true ..)
  refine (hi x o b hg).imp_right ?_
  rintro ⟨j, -, hj, h⟩
  exact ⟨j, hj, h⟩

end Map

section Unmap

variable [DecidableEq O]

variable {sp : S} {fuel addr stop j : ℕ}

theorem unmapLoop_shrinks (hf : stop ≤ addr + fuel) :
    Shrinks L s (s.unmapLoop L sp a mask fuel addr stop) := by
  have hcap : ∀ i t o, i < stop → (t.entry L (sp, i)).obj = some o → Shrinks L s t →
      Shrinks L s (t.unmapCap L (sp, i) o a mask) := fun _ _ _ _ _ h => h.trans shrinks_unmapCap
  obtain ⟨j, h, -⟩ := unmapLoop_rule (I := fun _ t => Shrinks L s t) (fun _ _ _ _ _ h => h) hcap
    fuel addr s .refl hf
  exact h

theorem unmapLoop_lacks (hm : mask.selfUnmap) (hpage : s.AtPage L sp stop addr)
    (hf : stop ≤ addr + fuel) (h1 : addr ≤ j) (h2 : j < stop) :
    (s.unmapLoop L sp a mask fuel addr stop).Lacks L (sp, j) a := by
  let I : ℕ → State S O R → Prop := fun i t => t.dir = s.dir ∧ s.AtPage L sp stop i ∧
    ∀ j, addr ≤ j → j < i → j < stop → t.Lacks L (sp, j) a
  have hvoid : ∀ (t : State S O R) j, (t.getCap L (sp, j)).isSome = false → t.Lacks L (sp, j) a := by
    intro t j hno
    refine lacks_of_void ?_
    rw [entry_of_getCap_none (Option.not_isSome_iff_eq_none.1 (by simp [hno]))]
    rfl
  have hskip : ∀ i t order, i < stop → t.vLookup L (sp, i) = (order, none) → I i t →
      I (i + 2 ^ order) t := by
    intro i t order hi hl ⟨hdir, hat, hlack⟩
    have hsome : ∀ j, (t.getCap L (sp, j)).isSome = (s.getCap L (sp, j)).isSome := fun j =>
      getCap_isSome_congr hdir
    have hobj : (t.entry L (sp, i)).obj = none := by
      have hsnd := t.vLookup_snd (L := L) (x := (sp, i))
      rw [hl] at hsnd
      exact Option.map_eq_none_iff.1 hsnd.symm
    unfold vLookup at hl
    cases hg : t.getCap L (sp, i) with
    | none =>
      rw [hg] at hl
      obtain rfl : L.capsPerPageLd2 = order := congrArg Prod.fst hl
      obtain ⟨hat', hgap⟩ := hat.skip (by rw [← hsome, hg]; rfl)
      refine ⟨hdir, hat', fun j h1 h2 h3 => ?_⟩
      by_cases hji : j < i
      · exact hlack j h1 hji h3
      · exact hvoid t j ((hsome j).trans (hgap j (by omega) h2 h3))
    | some e =>
      rw [hg] at hl
      obtain rfl : 0 = order := congrArg Prod.fst hl
      refine ⟨hdir, AtPage.succ (by rw [← hsome, hg]; rfl), fun j h1 h2 h3 => ?_⟩
      by_cases hji : j < i
      · exact hlack j h1 hji h3
      · obtain rfl : j = i := by omega
        exact lacks_of_void hobj
  have hcap : ∀ i t o, i < stop → (t.entry L (sp, i)).obj = some o → I i t →
      I (i + 1) (t.unmapCap L (sp, i) o a mask) := by
    intro i t o hi hobj ⟨hdir, hat, hlack⟩
    have hn : t.names L (sp, i) = some (L.mapRoot o) := by rw [names, hobj]; rfl
    have hsome : (s.getCap L (sp, i)).isSome := by
      rw [← getCap_isSome_congr hdir, getCap_of_names hn]
      rfl
    refine ⟨unmapCap_dir.trans hdir, .succ hsome, fun j h1 h2 h3 => ?_⟩
    by_cases hji : j < i
    · exact (hlack j h1 hji h3).mono shrinks_unmapCap
    · obtain rfl : j = i := by omega
      exact lacks_unmapCap hm
  obtain ⟨i, ⟨-, -, hi⟩, hend⟩ := unmapLoop_rule hskip hcap fuel addr s
    ⟨rfl, hpage, fun j h1 h2 => by omega⟩ hf
  by_cases hji : j < i
  · exact hi j h1 hji h2
  · -- The table ends before the slot.
    refine hvoid _ j ?_
    have hmax : L.mapMaxAddress ≤ j := by omega
    have hno : ¬L.page j < L.slotsPerDir := fun hc =>
      absurd ((Nat.div_lt_iff_lt_mul (Nat.two_pow_pos _)).1 hc) (Nat.not_lt.2 hmax)
    simp [getCap, hno]

end Unmap

end State

end Fiasco.Obj
