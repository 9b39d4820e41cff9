import Fiasco.Ptab.UnmapSafe

/-!
# `unmap` by both walkers

The two loops come to the same entries as long as the iterative one stays in its table, and give
the tables of the target level different ends. For a range that is not inside one root table the
iterative walker returns at once.
-/
namespace Fiasco.Ptab

open Nat Function Ldesc

variable {P : Type}

structure Visits (w : Walker) (d : Ldesc) (t : Table P) (e i j k : ℕ) : Prop where
  le : i ≤ j
  slot : w.slot d j = some k
  before : ∀ m k', i ≤ m → d.index e ≤ m → m < j → w.slot d m = some k' → (t k').isNext = false

variable {d : Ldesc} {w : Walker}

section Visits

variable {t : Table P} {e i j k : ℕ} {C : ℕ → Table P → Prop} {x : Table P}

theorem Visits.here (h : w.slot d i = some k) : Visits w d t e i i k :=
  ⟨le_refl i, h, fun m _ hm _ hlt _ => by omega⟩

theorem Visits.later (h : Visits w d t e (i + 1) j k)
    (hi : d.index e ≤ i → ∀ k', w.slot d i = some k' → (t k').isNext = false) : Visits w d t e i j k := by
  refine ⟨le_of_succ_le h.le, h.slot, fun m k' hm he hlt hk' => ?_⟩
  rcases eq_or_lt_of_le hm with rfl | hm
  · exact hi he k' hk'
  · exact h.before m k' hm he hlt hk'

theorem Visits.cases (h : Visits w d t e i j k) :
    (j = i ∧ w.slot d i = some k) ∨
      Visits w d t e (i + 1) j k ∧ (d.index e ≤ i → ∀ k', w.slot d i = some k' → (t k').isNext = false) := by
  rcases eq_or_lt_of_le h.le with rfl | hlt
  · exact .inl ⟨rfl, h.slot⟩
  · exact .inr ⟨⟨hlt, h.slot, fun m k' hm => h.before m k' (by omega)⟩,
      fun he k' hk' => h.before i k' (le_refl i) he hlt hk'⟩

def All (w : Walker) (d : Ldesc) (t : Table P) (e i : ℕ) (C : ℕ → Table P → Prop) : Prop :=
  ∀ j k x, Visits w d t e i j k → t k = .next x → C j x

theorem all_skip (hk : w.slot d i = some k) (hn : (t k).isNext = false) :
    All w d t e i C ↔ All w d t e (i + 1) C := by
  refine ⟨fun h j k' y hv => h j k' y (hv.later fun _ k'' hk'' => ?_), fun h j k' y hv hy => ?_⟩
  · rw [hk] at hk''
    cases hk''
    exact hn
  · rcases hv.cases with ⟨-, hk'⟩ | ⟨hv, -⟩
    · rw [hk] at hk'
      cases hk'
      rw [hy] at hn
      cases hn
    · exact h j k' y hv hy

theorem all_next (hk : w.slot d i = some k) (hx : t k = .next x) (hi : i < d.index e) :
    All w d t e i C ↔ C i x ∧ All w d t e (i + 1) C := by
  refine ⟨fun h => ⟨h i k x (.here hk) hx, fun j k' y hv => h j k' y (hv.later fun he => ?_)⟩,
    fun h j k' y hv hy => ?_⟩
  · omega
  · rcases hv.cases with ⟨rfl, hk'⟩ | ⟨hv, -⟩
    · rw [hk] at hk'
      cases hk'
      rw [hx] at hy
      cases hy
      exact h.1
    · exact h.2 j k' y hv hy

theorem all_last (hk : w.slot d i = some k) (hx : t k = .next x) (hi : d.index e ≤ i) :
    All w d t e i C ↔ C i x := by
  refine ⟨fun h => h i k x (.here hk) hx, fun h j k' y hv hy => ?_⟩
  rcases hv.cases with ⟨rfl, hk'⟩ | ⟨-, hlast⟩
  · rw [hk] at hk'
    cases hk'
    rw [hx] at hy
    cases hy
    exact h
  · have := hlast hi k hk
    rw [hx] at this
    cases this

end Visits

section Pair

variable {subI : Table P → ℕ → ℕ → Except Stop (Table P)} {s e fuel i : ℕ} {tA tB tI : Table P}

theorem iterative_slot_some {j k : ℕ} (h : iterative.slot d j = some k) : k = j ∧ j < d.length := by
  have : j < d.length ∧ j = k := by simpa [iterative] using h
  exact ⟨this.2.symm, this.1⟩

theorem all_update {C : ℕ → Table P → Prop} {y : Entry P} :
    All iterative d (update tA i y) e (i + 1) C ↔ All iterative d tA e (i + 1) C := by
  have hne : ∀ {j k}, i + 1 ≤ j → iterative.slot d j = some k → update tA i y k = tA k := by
    intro j k hj hk
    obtain ⟨rfl, -⟩ := iterative_slot_some hk
    exact update_of_ne (by omega) _ _
  refine forall₃_congr fun j k x => ?_
  constructor <;> intro h hv hx
  · refine h ⟨hv.le, hv.slot, fun m k' hm he hlt hk' => ?_⟩ (by rwa [hne hv.le hv.slot])
    rw [hne hm hk']
    exact hv.before m k' hm he hlt hk'
  · refine h ⟨hv.le, hv.slot, fun m k' hm he hlt hk' => ?_⟩ (by rwa [← hne hv.le hv.slot])
    rw [← hne hm hk']
    exact hv.before m k' hm he hlt hk'

theorem update_eq_update {y z : Table P} :
    (∀ m, m < i + 1 → update tA i (.next y) m = update tB i (.next z) m) ↔
      (∀ m, m < i → tA m = tB m) ∧ y = z := by
  constructor
  · intro h
    refine ⟨fun m hm => ?_, by simpa using h i (lt_succ_self i)⟩
    have := h m (by omega)
    rwa [update_of_ne (by omega), update_of_ne (by omega)] at this
  · rintro ⟨h, rfl⟩ m hm
    by_cases hmi : m = i
    · rw [hmi, update_self, update_self]
    · rw [update_of_ne hmi, update_of_ne hmi]
      exact h m (by omega)

theorem unmapLoop_pair (tB : Table P) (subR : Table P → ℕ → ℕ → Except Stop (Table P))
    (hsub : ∀ x vs ve x', subI x vs ve = .ok x' → ∃ x'', subR x vs ve = .ok x'')
    (hs : d.index s ≤ i) (hAB : ∀ m, i ≤ m → tA m = tB m)
    (h : unmapLoop iterative d subI e fuel i (d.lo s i) tA = .ok tI) :
    ∃ tR, unmapLoop recursive d subR e fuel i (d.lo s i) tB = .ok tR ∧
      (tI = tR ↔ (∀ m, m < i → tA m = tB m) ∧
        All iterative d tA e i fun j x => subI x (d.lo s j) (d.hi e j) = subR x (d.lo s j) (d.hi e j)) ∧
      All iterative d tA e i fun j x => ∃ x', subI x (d.lo s j) (d.hi e j) = .ok x' := by
  induction fuel generalizing i tA tB with
  | zero => cases h
  | succ fuel ih =>
    cases hslot : iterative.slot d i with
    | none =>
      rw [unmapLoop] at h
      simp only [hslot] at h
      cases h
    | some k =>
      obtain ⟨rfl, hlt⟩ := iterative_slot_some hslot
      have hslotR : recursive.slot d k = some k := recursive.slot_of_lt d k hlt
      have hlo : d.lo s (k + 1) = (k + 1) * 2 ^ d.shift := lo_of_lt (lt_succ_of_le hs)
      have hBk := hAB k (le_refl k)
      cases hn : (tA k).isNext with
      | false =>
        rw [unmapLoop_skip hslot hn, ← hlo] at h
        obtain ⟨tR, htR, hiff, hok⟩ := ih _ (le_succ_of_le hs) (fun m hm => hAB m (by omega)) h
        refine ⟨tR, ?_, ?_, (all_skip hslot hn).mpr hok⟩
        · rwa [unmapLoop_skip hslotR (by rwa [← hBk]), ← hlo]
        · rw [hiff, all_skip hslot hn]
          refine and_congr_left fun _ => ⟨fun hc m hm => hc m (by omega), fun hc m hm => ?_⟩
          rcases Nat.lt_succ_iff_lt_or_eq.mp hm with hm | rfl
          · exact hc m hm
          · exact hBk
      | true =>
        obtain ⟨x, hx⟩ := Entry.isNext_iff.mp hn
        have hxB : tB k = .next x := by rwa [← hBk]
        by_cases hk : k < d.index e
        · rw [unmapLoop_next hslot hx hk, ← hlo] at h
          obtain ⟨x', hx', hrest⟩ := h
          obtain ⟨x'', hx''⟩ := hsub _ _ _ _ hx'
          have hAB' : ∀ m, k + 1 ≤ m → update tA k (.next x') m = update tB k (.next x'') m := by
            intro m hm
            rw [update_of_ne (by omega), update_of_ne (by omega)]
            exact hAB m (by omega)
          obtain ⟨tR, htR, hiff, hok⟩ := ih _ (le_succ_of_le hs) hAB' hrest
          refine ⟨tR, (unmapLoop_next hslotR hxB hk).mpr ⟨x'', hx'', by rwa [← hlo]⟩, ?_, ?_⟩
          · rw [hiff, update_eq_update, all_update, all_next hslot hx hk, hx', hx'', Except.ok.injEq,
              and_assoc]
          · exact (all_next hslot hx hk).mpr ⟨⟨x', hx'⟩, all_update.mp hok⟩
        · have hk := not_lt.mp hk
          rw [unmapLoop_last hslot hx hk] at h
          obtain ⟨x', hx', rfl⟩ := h
          obtain ⟨x'', hx''⟩ := hsub _ _ _ _ hx'
          have hhi : d.hi e k = e := hi_of_le hk
          refine ⟨_, (unmapLoop_last hslotR hxB hk).mpr ⟨x'', hx'', rfl⟩, ?_, ?_⟩
          · rw [all_last hslot hx hk, hhi, hx', hx'', Except.ok.injEq, ← update_eq_update]
            refine ⟨fun hc m _ => congrFun hc m, fun hc => funext fun m => ?_⟩
            by_cases hm : m < k + 1
            · exact hc m hm
            · rw [update_of_ne (by omega), update_of_ne (by omega)]
              exact hAB m (by omega)
          · rw [all_last hslot hx hk, hhi]
            exact ⟨x', hx'⟩

end Pair

theorem unmap_eq_unmap_iff {d : Ldesc} {x : Table P} {a e₁ e₂ : ℕ} :
    x.unmap d a e₁ = x.unmap d a e₂ ↔ Short d x a e₁ e₂ ∧ Short d x a e₂ e₁ := by
  constructor
  · intro h
    refine ⟨fun m h₀ h₁ h₂ => ?_, fun m h₀ h₁ h₂ => ?_⟩
    · have hm := congrFun h m
      rwa [unmap_apply, unmap_apply, if_neg (by omega), if_pos ⟨h₀, h₂⟩] at hm
    · have hm := congrFun h m
      rw [unmap_apply, unmap_apply, if_pos ⟨h₀, h₂⟩, if_neg (by omega)] at hm
      exact hm.symm
  · rintro ⟨h₁, h₂⟩
    funext m
    rw [unmap_apply, unmap_apply]
    split_ifs with hm hm' hm'
    · rfl
    · exact (h₂ m hm.1 (by omega) hm.2).symm
    · exact h₁ m hm'.1 (by omega) hm'.2
    · rfl

def Agree : ℕ → List Ldesc → Table P → ℕ → ℕ → Prop
  | 0, d :: d' :: _, t, s, e => All iterative d t e (d.index s) fun i x =>
      Short d' x (d.lo s i) e (d.hi e i) ∧ Short d' x (d.lo s i) (d.hi e i) e
  | depth + 1, d :: ds, t, s, e => All iterative d t e (d.index s) fun i x =>
      Agree depth ds x (d.lo s i) (d.hi e i)
  | _, _, _, _, _ => True

def Still : ℕ → List Ldesc → Table P → ℕ → ℕ → Prop
  | 0, d :: d' :: _, t, s, e => All recursive d t e (d.index s) fun i x =>
      Blank d' x (d.lo s i) (d.hi e i)
  | depth + 1, d :: ds, t, s, e => All recursive d t e (d.index s) fun i x =>
      Still depth ds x (d.lo s i) (d.hi e i)
  | _, _, _, _, _ => True

variable {ds : List Ldesc} {s e : ℕ}

section Levels

variable {fuel depth : ℕ} {t tI t' : Table P}

theorem All.congr {i : ℕ} {C C' K : ℕ → Table P → Prop} (hK : All w d t e i K)
    (h : ∀ j x, K j x → (C j x ↔ C' j x)) : All w d t e i C ↔ All w d t e i C' :=
  forall₃_congr fun j k x => forall₂_congr fun hv hx => h j x (hK j k x hv hx)

theorem unmapLevels_pair (h : unmapLevels iterative fuel depth ds t s e = .ok tI) :
    ∃ tR, unmapLevels recursive fuel depth ds t s e = .ok tR ∧ (tI = tR ↔ Agree depth ds t s e) := by
  induction depth generalizing ds t tI s e with
  | zero =>
    match ds, h with
    | d :: d' :: ds, h =>
      have hpair := unmapLoop_pair t (fun x vs ve => .ok (x.unmap d' vs (recursive.leafEnd ve e)))
        (fun x vs ve x' _ => ⟨_, rfl⟩) (le_refl (d.index s)) (fun _ _ => rfl)
        (by rw [lo_index]; exact h)
      rw [lo_index] at hpair
      obtain ⟨tR, htR, hiff, hok⟩ := hpair
      refine ⟨tR, htR, hiff.trans ((and_iff_right fun _ _ => rfl).trans (hok.congr fun j x _ => ?_))⟩
      rw [Except.ok.injEq]
      exact unmap_eq_unmap_iff
  | succ depth ih =>
    match ds, h with
    | d :: ds, h =>
      have hpair := unmapLoop_pair t (unmapLevels recursive fuel depth ds)
        (fun x vs ve x' hx => (ih hx).imp fun _ hr => hr.1) (le_refl (d.index s)) (fun _ _ => rfl)
        (by rw [lo_index]; exact h)
      rw [lo_index] at hpair
      obtain ⟨tR, htR, hiff, hok⟩ := hpair
      refine ⟨tR, htR, hiff.trans ((and_iff_right fun _ _ => rfl).trans (hok.congr fun j x hx => ?_))⟩
      obtain ⟨x', hx'⟩ := hx
      obtain ⟨x'', hx'', hagree⟩ := ih hx'
      rw [hx', hx'', Except.ok.injEq]
      exact hagree

theorem unmapLoop_self_iff {sub : Table P → ℕ → ℕ → Except Stop (Table P)}
    {C : ℕ → ℕ → Table P → Prop} {i : ℕ}
    (hclr : ∀ x vs ve x', sub x vs ve = .ok x' → Clears (.next x) (.next x'))
    (hC : ∀ x vs ve x', sub x vs ve = .ok x' → (x' = x ↔ C vs ve x)) (hs : d.index s ≤ i)
    (h : unmapLoop w d sub e fuel i (d.lo s i) t = .ok t') :
    t' = t ↔ All w d t e i fun j x => C (d.lo s j) (d.hi e j) x := by
  induction fuel generalizing i t with
  | zero => cases h
  | succ fuel ih =>
    cases hslot : w.slot d i with
    | none =>
      rw [unmapLoop] at h
      simp only [hslot] at h
      cases h
    | some k =>
      have hlo : d.lo s (i + 1) = (i + 1) * 2 ^ d.shift := lo_of_lt (lt_succ_of_le hs)
      cases hn : (t k).isNext with
      | false =>
        rw [unmapLoop_skip hslot hn, ← hlo] at h
        exact (ih (le_succ_of_le hs) h).trans (all_skip hslot hn).symm
      | true =>
        obtain ⟨x, hx⟩ := Entry.isNext_iff.mp hn
        have hself : update t k (.next x) = t := by rw [← hx, update_eq_self]
        by_cases hi : i < d.index e
        · rw [unmapLoop_next hslot hx hi, ← hlo] at h
          obtain ⟨x', hx', hrest⟩ := h
          rw [all_next hslot hx hi, ← hC _ _ _ _ hx']
          by_cases heq : x' = x
          · rw [heq, hself] at hrest
            exact (ih (le_succ_of_le hs) hrest).trans (and_iff_right heq).symm
          · refine iff_of_false (fun ht => heq ?_) fun hc => heq hc.1
            -- an entry that was cleared stays so
            have hback := unmapLoop_clears hclr hrest k
            rw [update_self, ht, hx] at hback
            exact Entry.next.inj (hback.antisymm (hclr _ _ _ _ hx'))
        · have hi := not_lt.mp hi
          rw [unmapLoop_last hslot hx hi] at h
          obtain ⟨x', hx', rfl⟩ := h
          rw [all_last hslot hx hi, hi_of_le hi, ← hC _ _ _ _ hx']
          constructor
          · intro ht
            have := congrFun ht k
            rwa [update_self, hx, Entry.next.injEq] at this
          · intro heq
            rw [heq, hself]

theorem unmapLevels_still_iff (h : unmapLevels recursive fuel depth ds t s e = .ok t') :
    t' = t ↔ Still depth ds t s e := by
  induction depth generalizing ds t t' s e with
  | zero =>
    match ds, h with
    | d :: d' :: ds, h =>
      refine unmapLoop_self_iff (C := fun vs ve x => Blank d' x vs ve) (fun x vs ve x' hx => ?_)
        (fun x vs ve x' hx => ?_) (le_refl _) (by rw [lo_index]; exact h)
      · cases hx
        exact unmap_clears
      · cases hx
        exact unmap_eq_self_iff
  | succ depth ih =>
    match ds, h with
    | d :: ds, h =>
      exact unmapLoop_self_iff (C := fun vs ve x => Still depth ds x vs ve)
        (fun x vs ve x' hx => unmapLevels_clears hx) (fun x vs ve x' hx => ih hx) (le_refl _)
        (by rw [lo_index]; exact h)

end Levels

def Ldesc.Crosses (d : Ldesc) (s e : ℕ) : Prop := d.shift + d.size < 64 ∧ s / d.span ≠ e / d.span
deriving Decidable

def SameUnmap (levels : ℕ) (d : Ldesc) (ds : List Ldesc) (t : Table P) (s e : ℕ) : Prop :=
  match levels with
  | 0 => d.Crosses s e → Blank d t s e
  | depth + 1 =>
    (d.Crosses s e → Still depth (d :: ds) t s e) ∧ (¬d.Crosses s e → Agree depth (d :: ds) t s e)

section Both

variable {levels fI fR : ℕ} {t tI tR : Table P}

theorem iterUnmap_cases : iterUnmap fI levels (d :: ds) t s e =
    if d.Crosses s e then .ok t
    else match levels with
      | 0 => .ok (t.unmap d s e)
      | depth + 1 => unmapLevels iterative fI depth (d :: ds) t s e := by
  cases levels <;> rfl

theorem unmap_same_iff (hI : iterUnmap fI levels (d :: ds) t s e = .ok tI)
    (hR : recUnmap fR levels (d :: ds) t s e = .ok tR) : tI = tR ↔ SameUnmap levels d ds t s e := by
  by_cases hcross : d.Crosses s e
  · rw [iterUnmap_cases, if_pos hcross] at hI
    cases hI
    cases levels with
    | zero =>
      cases hR
      exact eq_comm.trans (unmap_eq_self_iff.trans ⟨fun h _ => h, fun h => h hcross⟩)
    | succ depth =>
      refine eq_comm.trans ((unmapLevels_still_iff hR).trans ?_)
      exact ⟨fun h => ⟨fun _ => h, fun hn => absurd hcross hn⟩, fun h => h.1 hcross⟩
  · rw [iterUnmap_cases, if_neg hcross] at hI
    cases levels with
    | zero =>
      cases hI
      cases hR
      exact iff_of_true rfl fun hc => absurd hc hcross
    | succ depth =>
      obtain ⟨tR', htR', hiff⟩ := unmapLevels_pair (unmapLevels_mono (le_max_left fI fR) hI)
      have hR' : unmapLevels recursive (max fI fR) depth (d :: ds) t s e = .ok tR :=
        unmapLevels_mono (le_max_right fI fR) hR
      rw [hR'] at htR'
      cases htR'
      exact hiff.trans ⟨fun h => ⟨fun hc => absurd hc hcross, fun _ => h⟩, fun h => h.2 hcross⟩

end Both

end Fiasco.Ptab
