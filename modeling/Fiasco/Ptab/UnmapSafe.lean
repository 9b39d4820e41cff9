import Fiasco.Ptab.UnmapSpec

/-!
# When `unmap` clears its range and nothing else

A walker clears exactly the entries of its range if it is `Safe`. Every table above the target level
that the walk comes to has an entry that refers to a table, at the end of the range or behind it. If
that entry is behind the end, the walk it is used for finds nothing to clear (`Quiet`). For the
iterative walker also, the entries that it leaves out are clear already (`Short`).
-/
namespace Fiasco.Ptab

open Nat List

variable {P : Type}

section Target

variable {d : Ldesc} {x : Table P} {s e e' : ℕ} {ds : List Ldesc}

theorem clearLoop_apply {t : Table P} {i n m : ℕ} :
    clearLoop t i n m = if i ≤ m ∧ m < i + n then .invalid else t m := by
  induction n generalizing t i with
  | zero => rw [clearLoop, if_neg (by omega)]
  | succ n ih =>
    rw [clearLoop, ih]
    by_cases hm : m = i
    · rw [hm, Function.update_self, if_neg (by omega), if_pos (by omega)]
    · rw [Function.update_of_ne hm]
      exact if_congr (by omega) rfl rfl

theorem unmap_apply (m : ℕ) :
    x.unmap d s e m = if d.index s ≤ m ∧ m ≤ d.index e then .invalid else x m := by
  rw [Table.unmap, clearLoop_apply]
  exact if_congr (by omega) rfl rfl

theorem within_mul (hs : 2 ^ d.shift ∣ s) {m : ℕ} :
    (m < d.length ∧ d.within s e (m * 2 ^ d.shift) = true) ↔ d.index s ≤ m ∧ m ≤ d.index e := by
  have h := @Radix.mem_range_iff d.shift d.size s e m 0 (Nat.two_pow_pos d.shift)
  have h₀ : Radix.partLo d.shift d.size s m % 2 ^ d.shift = 0 := by
    rw [Radix.partLo_mod, mod_eq_zero_of_dvd hs, ite_self]
  have hlt := d.index_lt e
  rw [h₀, add_zero] at h
  rw [Ldesc.within, decide_eq_true_eq]
  refine (and_congr_right fun _ => h).trans ⟨fun hc => hc.2.1, fun hc => ⟨by omega, hc, ?_⟩⟩
  exact ⟨le_refl 0, zero_le _⟩

def Blank (d : Ldesc) (x : Table P) (s e : ℕ) : Prop :=
  ∀ m, d.index s ≤ m → m ≤ d.index e → x m = .invalid

def Short (d : Ldesc) (x : Table P) (s e' e : ℕ) : Prop :=
  ∀ m, d.index s ≤ m → d.index e' < m → m ≤ d.index e → x m = .invalid

theorem unmap_eq_self_iff : x.unmap d s e = x ↔ Blank d x s e := by
  constructor
  · intro h m h₀ h₁
    rw [← h, unmap_apply, if_pos ⟨h₀, h₁⟩]
  · intro h
    funext m
    rw [unmap_apply]
    split
    · next hm => exact (h m hm.1 hm.2).symm
    · rfl

theorem cleared_target (hs : 2 ^ d.shift ∣ s) :
    cleared 0 (d :: ds) (d.within s e) x = x.unmap d s e := by
  funext m
  rw [unmap_apply, cleared]
  exact if_congr (within_mul hs) rfl rfl

theorem unmap_eq_cleared_iff (hs : 2 ^ d.shift ∣ s) (he : d.index e' ≤ d.index e) :
    x.unmap d s e' = cleared 0 (d :: ds) (d.within s e) x ↔ Short d x s e' e := by
  rw [cleared_target hs]
  constructor
  · intro h m h₀ h₁ h₂
    have hm := congrFun h m
    rwa [unmap_apply, unmap_apply, if_neg (by omega), if_pos ⟨h₀, h₂⟩] at hm
  · intro h
    funext m
    rw [unmap_apply, unmap_apply]
    split_ifs with h₁ h₂ h₂
    · rfl
    · omega
    · exact h m h₂.1 (by omega) h₂.2
    · rfl

theorem unmap_clears : Clears (.next x) (.next (x.unmap d s e)) := by
  refine .next fun m => ?_
  rw [unmap_apply]
  split
  · exact .clear _
  · exact .refl _

end Target

def Quiet (w : Walker) : ℕ → List Ldesc → Table P → ℕ → ℕ → Prop
  | 0, d :: d' :: _, t, s, e => ∃ j k, Ends w d t (d.index e) j k ∧
      (∀ i x, d.index s ≤ i → i ≤ d.index e → t i = .next x →
        Blank d' x (d.lo s i) (w.leafEnd (d.hi e i) e)) ∧
      (j ≠ d.index e → ∀ x, t k = .next x → Blank d' x (j * 2 ^ d.shift) (w.leafEnd e e))
  | depth + 1, d :: ds, t, s, e => ∃ j k, Ends w d t (d.index e) j k ∧
      (∀ i x, d.index s ≤ i → i ≤ d.index e → t i = .next x →
        Quiet w depth ds x (d.lo s i) (d.hi e i)) ∧
      (j ≠ d.index e → ∀ x, t k = .next x → Quiet w depth ds x (j * 2 ^ d.shift) e)
  | _, _, _, _, _ => False

/-- A walk from `s` to `e` clears the entries of the target level in the range only. The table
behind the range is looked at after the range has been cleared. -/
def Safe (w : Walker) : ℕ → List Ldesc → Table P → ℕ → ℕ → Prop
  | 0, d :: d' :: ds, t, s, e => ∃ j k, Ends w d t (d.index e) j k ∧
      (∀ i x, d.index s ≤ i → i ≤ d.index e → t i = .next x →
        Short d' x (d.lo s i) (w.leafEnd (d.hi e i) e) (d.hi e i)) ∧
      (j ≠ d.index e → ∀ x, cleared 1 (d :: d' :: ds) (d.within s e) t k = .next x →
        Blank d' x (j * 2 ^ d.shift) (w.leafEnd e e))
  | depth + 1, d :: ds, t, s, e => ∃ j k, Ends w d t (d.index e) j k ∧
      (∀ i x, d.index s ≤ i → i ≤ d.index e → t i = .next x →
        Safe w depth ds x (d.lo s i) (d.hi e i)) ∧
      (j ≠ d.index e → ∀ x, cleared (depth + 2) (d :: ds) (d.within s e) t k = .next x →
        Quiet w depth ds x (j * 2 ^ d.shift) e)
  | _, _, _, _, _ => False

section Levels

variable {w : Walker} {fuel depth : ℕ} {d : Ldesc} {ds : List Ldesc} {t t' : Table P} {s e : ℕ}
  {d' : Ldesc}

theorem unmapLevels_clears (h : unmapLevels w fuel depth ds t s e = .ok t') :
    Clears (.next t) (.next t') := by
  induction depth generalizing ds t t' s e with
  | zero =>
    match ds, h with
    | d :: d' :: ds, h =>
      refine .next fun m => unmapLoop_clears (fun x vs ve x' hx => ?_) h m
      cases hx
      exact unmap_clears
  | succ depth ih =>
    match ds, h with
    | d :: ds, h => exact .next fun m => unmapLoop_clears (fun x vs ve x' hx => ih hx) h m

theorem behind_ordered {j : ℕ} (hd : d.shift = d'.shift + d'.size) :
    j * 2 ^ d.shift % d'.span ≤ e % d'.span := by
  rw [Ldesc.span, ← hd, mul_mod_left]
  exact zero_le _

theorem index_le (hle : s % d.span ≤ e % d.span) : d.index s ≤ d.index e :=
  Radix.digit_le hle

theorem unmapLevels_self_iff (hT : Tiled (d :: ds)) (hlen : depth < ds.length)
    (hF : ∀ d' ∈ d :: ds, 2 * d'.length ≤ fuel) (hle : s % d.span ≤ e % d.span) :
    unmapLevels w fuel depth (d :: ds) t s e = .ok t ↔ Quiet w depth (d :: ds) t s e := by
  have hidx := index_le hle
  induction depth generalizing d ds t s e with
  | zero =>
    cases ds with
    | nil => cases hlen
    | cons d' ds =>
      have h := unmapLoop_sweep_iff (w := w) (f := fun _ x => x) (t := t)
        (fun x vs ve => .ok (x.unmap d' vs (w.leafEnd ve e))) hidx (hF d mem_cons_self)
        (fun x vs ve x' hx => by cases hx; exact unmap_clears)
        (.inr fun i x y _ hx => by cases hx; exact unmap_clears)
      rw [sweep_self] at h
      simp only [unmapLevels, Quiet, h, Except.ok.injEq, unmap_eq_self_iff]
  | succ depth ih =>
    cases ds with
    | nil => cases hlen
    | cons d' ds =>
      have h := unmapLoop_sweep_iff (w := w) (f := fun _ x => x) (t := t)
        (unmapLevels w fuel depth (d' :: ds)) hidx (hF d mem_cons_self)
        (fun x vs ve x' hx => unmapLevels_clears hx)
        (.inr fun i x y _ hx => unmapLevels_clears hx)
      rw [sweep_self] at h
      have hsub : ∀ {x : Table P} {vs ve : ℕ}, vs % d'.span ≤ ve % d'.span →
          (unmapLevels w fuel depth (d' :: ds) x vs ve = .ok x ↔
            Quiet w depth (d' :: ds) x vs ve) := fun hle' =>
        ih hT.2 (lt_of_succ_lt_succ hlen) (fun d₁ h₁ => hF d₁ (mem_cons_of_mem _ h₁)) hle'
          (index_le hle')
      rw [unmapLevels, Quiet, h]
      refine exists_congr fun j => exists_congr fun k => and_congr_right fun _ => and_congr ?_ ?_
      · refine forall₂_congr fun i x => imp_congr_right fun _ => imp_congr_right fun hi =>
          imp_congr_right fun _ => hsub (part_ordered hT.1 hle hi)
      · exact imp_congr_right fun _ => forall_congr' fun x => imp_congr_right fun _ =>
          hsub (behind_ordered hT.1)

theorem unmapLevels_covers (hT : Tiled (d :: ds)) (hlen : depth < ds.length)
    (hF : ∀ d' ∈ d :: ds, 2 * d'.length ≤ fuel) (hle : s % d.span ≤ e % d.span)
    (hs : Aligned (depth + 1) (d :: ds) s)
    (h : unmapLevels recursive fuel depth (d :: ds) t s e = .ok t') :
    Clears (.next (cleared (depth + 1) (d :: ds) (d.within s e) t)) (.next t') := by
  have hidx := index_le hle
  induction depth generalizing d ds t t' s e with
  | zero =>
    cases ds with
    | nil => cases hlen
    | cons d' ds =>
      rw [cleared_eq_sweep hT]
      refine .next (unmapLoop_covers hidx (hF d mem_cons_self) ?_ ?_ h)
      · intro x vs ve x' hx
        cases hx
        exact unmap_clears
      · intro i x y _ hx
        rw [cleared_target (Aligned.lo hT hs : Aligned 0 (d' :: ds) _)]
        cases hx
        exact .refl _
  | succ depth ih =>
    cases ds with
    | nil => cases hlen
    | cons d' ds =>
      rw [cleared_eq_sweep hT]
      refine .next (unmapLoop_covers hidx (hF d mem_cons_self)
        (fun x vs ve x' hx => unmapLevels_clears hx) (fun i x y hi hx => ?_) h)
      have hle' := part_ordered hT.1 hle hi
      exact ih hT.2 (lt_of_succ_lt_succ hlen)
        (fun d₁ h₁ => hF d₁ (mem_cons_of_mem _ h₁)) hle' (Aligned.lo hT hs) hx (index_le hle')

def Walker.Known (w : Walker) : Prop := w = iterative ∨ w = recursive

theorem iterative_slot {i k : ℕ} (h : iterative.slot d i = some k) : k = i := by
  have hik : i < d.length ∧ i = k := by simpa [iterative] using h
  exact hik.2.symm

theorem leafEnd_le (hw : w.Known) {i : ℕ} (hd : d.shift = d'.shift + d'.size) :
    d'.index (w.leafEnd (d.hi e i) e) ≤ d'.index (d.hi e i) := by
  rcases hw with rfl | rfl
  · by_cases hi : i < d.index e
    · apply Radix.digit_le
      have hmod : d.hi e i % 2 ^ d.shift = 2 ^ d.shift - 1 := Radix.partHi_mod.trans (if_pos hi)
      have hlt := Nat.mod_lt e (Nat.two_pow_pos d.shift)
      rw [← hd, hmod]
      exact le_sub_one_of_lt hlt
    · rw [Ldesc.hi_of_le (not_lt.mp hi)]
      exact le_refl _
  · exact le_refl _

theorem unmapLevels_cleared_iff (hw : w.Known) (hT : Tiled (d :: ds)) (hlen : depth < ds.length)
    (hF : ∀ d' ∈ d :: ds, 2 * d'.length ≤ fuel) (hle : s % d.span ≤ e % d.span)
    (hs : Aligned (depth + 1) (d :: ds) s) :
    unmapLevels w fuel depth (d :: ds) t s e =
      .ok (cleared (depth + 1) (d :: ds) (d.within s e) t) ↔ Safe w depth (d :: ds) t s e := by
  have hidx := index_le hle
  induction depth generalizing d ds t s e with
  | zero =>
    cases ds with
    | nil => cases hlen
    | cons d' ds =>
      have hal : ∀ i, Aligned 0 (d' :: ds) (d.lo s i) := fun i => Aligned.lo hT hs
      have h := unmapLoop_sweep_iff (w := w) (t := t)
        (f := fun i x => cleared 0 (d' :: ds) (d'.within (d.lo s i) (d.hi e i)) x)
        (fun x vs ve => .ok (x.unmap d' vs (w.leafEnd ve e))) hidx (hF d mem_cons_self)
        (fun x vs ve x' hx => by cases hx; exact unmap_clears)
        (by
          rcases hw with rfl | rfl
          · exact .inl fun i k => iterative_slot
          · refine .inr fun i x y _ hx => ?_
            rw [cleared_target (hal i)]
            cases hx
            exact .refl _)
      simp only [unmapLevels, Safe, cleared_eq_sweep hT, h, Except.ok.injEq, unmap_eq_self_iff,
        unmap_eq_cleared_iff (hal _) (leafEnd_le hw hT.1)]
  | succ depth ih =>
    cases ds with
    | nil => cases hlen
    | cons d' ds =>
      have hlen' := lt_of_succ_lt_succ hlen
      have hF' : ∀ d₁ ∈ d' :: ds, 2 * d₁.length ≤ fuel :=
        fun d₁ h₁ => hF d₁ (mem_cons_of_mem _ h₁)
      have h := unmapLoop_sweep_iff (w := w) (t := t)
        (f := fun i x => cleared (depth + 1) (d' :: ds) (d'.within (d.lo s i) (d.hi e i)) x)
        (unmapLevels w fuel depth (d' :: ds)) hidx (hF d mem_cons_self)
        (fun x vs ve x' hx => unmapLevels_clears hx)
        (by
          rcases hw with rfl | rfl
          · exact .inl fun i k => iterative_slot
          · exact .inr fun i x y hi hx => unmapLevels_covers hT.2 hlen' hF'
              (part_ordered hT.1 hle hi) (Aligned.lo hT hs) hx)
      rw [unmapLevels, Safe, cleared_eq_sweep hT, h]
      refine exists_congr fun j => exists_congr fun k => and_congr_right fun _ => and_congr ?_ ?_
      · refine forall₂_congr fun i x => imp_congr_right fun _ => imp_congr_right fun hi =>
          imp_congr_right fun _ => ?_
        have hle' := part_ordered hT.1 hle hi
        exact ih hT.2 hlen' hF' hle' (Aligned.lo hT hs) (index_le hle')
      · exact imp_congr_right fun _ => forall_congr' fun x => imp_congr_right fun _ =>
          unmapLevels_self_iff hT.2 hlen' hF' (behind_ordered hT.1)

theorem unmapLoop_mono {sub sub' : Table P → ℕ → ℕ → Except Stop (Table P)}
    (hsub : ∀ x vs ve x', sub x vs ve = .ok x' → sub' x vs ve = .ok x') {fuel' i vs : ℕ}
    (hf : fuel ≤ fuel') (h : unmapLoop w d sub e fuel i vs t = .ok t') :
    unmapLoop w d sub' e fuel' i vs t = .ok t' := by
  induction fuel generalizing fuel' i vs t with
  | zero => cases h
  | succ fuel ih =>
    obtain ⟨fuel', rfl⟩ : ∃ n, fuel' = n + 1 := ⟨fuel' - 1, by omega⟩
    cases hk : w.slot d i with
    | none =>
      rw [unmapLoop] at h
      simp only [hk] at h
      cases h
    | some k =>
      cases hn : (t k).isNext with
      | false =>
        rw [unmapLoop_skip hk hn] at h ⊢
        exact ih (by omega) h
      | true =>
        obtain ⟨x, hx⟩ := Entry.isNext_iff.mp hn
        by_cases hi : i < d.index e
        · rw [unmapLoop_next hk hx hi] at h ⊢
          obtain ⟨x', hx', hrest⟩ := h
          exact ⟨x', hsub _ _ _ _ hx', ih (by omega) hrest⟩
        · rw [unmapLoop_last hk hx (not_lt.mp hi)] at h ⊢
          obtain ⟨x', hx', rfl⟩ := h
          exact ⟨x', hsub _ _ _ _ hx', rfl⟩

theorem unmapLevels_mono {fuel' : ℕ} (hf : fuel ≤ fuel')
    (h : unmapLevels w fuel depth ds t s e = .ok t') :
    unmapLevels w fuel' depth ds t s e = .ok t' := by
  induction depth generalizing ds t t' s e with
  | zero =>
    match ds, h with
    | d :: d' :: ds, h => exact unmapLoop_mono (fun x vs ve x' hx => hx) hf h
  | succ depth ih =>
    match ds, h with
    | d :: ds, h => exact unmapLoop_mono (fun x vs ve x' hx => ih hx) hf h

theorem exists_fuel (ds : List Ldesc) : ∃ fuel, ∀ d ∈ ds, 2 * d.length ≤ fuel := by
  induction ds with
  | nil => exact ⟨0, fun d hd => by cases hd⟩
  | cons d ds ih =>
    obtain ⟨fuel, h⟩ := ih
    refine ⟨fuel + 2 * d.length, fun d' hd => ?_⟩
    rcases mem_cons.mp hd with rfl | hd
    · omega
    · have := h d' hd
      omega

theorem exists_unmapLevels_iff (hw : w.Known) (hT : Tiled (d :: ds)) (hlen : depth < ds.length)
    (hle : s % d.span ≤ e % d.span) (hs : Aligned (depth + 1) (d :: ds) s) :
    (∃ fuel, unmapLevels w fuel depth (d :: ds) t s e =
      .ok (cleared (depth + 1) (d :: ds) (d.within s e) t)) ↔ Safe w depth (d :: ds) t s e := by
  obtain ⟨fuel₀, h₀⟩ := exists_fuel (d :: ds)
  constructor
  · rintro ⟨fuel, h⟩
    have hmore : ∀ d' ∈ d :: ds, 2 * d'.length ≤ fuel + fuel₀ := by
      intro d' hd
      have := h₀ d' hd
      omega
    exact (unmapLevels_cleared_iff hw hT hlen hmore hle hs).mp (unmapLevels_mono (by omega) h)
  · intro h
    exact ⟨fuel₀, (unmapLevels_cleared_iff hw hT hlen h₀ hle hs).mpr h⟩

end Levels

def SafeUnmap (w : Walker) : ℕ → List Ldesc → Table P → ℕ → ℕ → Prop
  | 0, _, _, _, _ => True
  | depth + 1, ds, t, s, e => Safe w depth ds t s e

/-- Both walkers end inside of the hierarchy, clear the entries of the target level in the range and
change nothing else, exactly if the walk is safe. -/
theorem unmap_clears_range_iff (levels : ℕ) (root : Ldesc) (ds : List Ldesc) (t : Table P)
    (start virtEnd : ℕ) (hT : Tiled (root :: ds)) (hlen : levels ≤ ds.length)
    (hle : start ≤ virtEnd) (hspan : virtEnd < root.span) (hs : Aligned levels (root :: ds) start) :
    ((∃ fuel, iterUnmap fuel levels (root :: ds) t start virtEnd =
        .ok (cleared levels (root :: ds) (fun a => decide (start ≤ a ∧ a ≤ virtEnd)) t)) ↔
      SafeUnmap iterative levels (root :: ds) t start virtEnd) ∧
    ((∃ fuel, recUnmap fuel levels (root :: ds) t start virtEnd =
        .ok (cleared levels (root :: ds) (fun a => decide (start ≤ a ∧ a ≤ virtEnd)) t)) ↔
      SafeUnmap recursive levels (root :: ds) t start virtEnd) := by
  have hs₀ : start % root.span = start := mod_eq_of_lt (by omega)
  have he₀ : virtEnd % root.span = virtEnd := mod_eq_of_lt hspan
  have hR : (fun a => decide (start ≤ a ∧ a ≤ virtEnd)) = root.within start virtEnd := by
    funext a
    rw [Ldesc.within, hs₀, he₀]
  have hroot : ¬ (root.shift + root.size < 64 ∧ start / root.span ≠ virtEnd / root.span) := by
    rw [div_eq_of_lt hspan, div_eq_of_lt (show start < root.span by omega)]
    simp
  rw [hR]
  cases levels with
  | zero =>
    simp only [iterUnmap, recUnmap, SafeUnmap, if_neg hroot, cleared_target (show _ from hs),
      exists_const]
    exact ⟨trivial, trivial⟩
  | succ depth =>
    have hle' : start % root.span ≤ virtEnd % root.span := by rwa [hs₀, he₀]
    simp only [iterUnmap, recUnmap, SafeUnmap, if_neg hroot]
    exact ⟨exists_unmapLevels_iff (.inl rfl) hT hlen hle' hs,
      exists_unmapLevels_iff (.inr rfl) hT hlen hle' hs⟩

theorem unmapLoop_recursive_running {d : Ldesc} {sub : Table P → ℕ → ℕ → Except Stop (Table P)}
    {t : Table P} {e fuel i vs : ℕ} (ht : ∀ k, (t k).isNext = false) :
    unmapLoop recursive d sub e fuel i vs t = .error .running := by
  induction fuel generalizing i vs with
  | zero => rfl
  | succ fuel ih => rw [unmapLoop_skip (k := i % d.length) rfl (ht _), ih]

def twoLevels : List Ldesc := [⟨1, 1, true⟩, ⟨0, 1, false⟩]

def pages : Table ℕ := fun i => .leaf i

def fullTables : Table ℕ := fun _ => .next pages

def lastInvalid : Table ℕ := fun i => if i = 0 then .next pages else .invalid

theorem twoLevels_clears_range :
    Tiled twoLevels ∧ (1 ≤ 1 ∧ 0 ≤ 3 ∧ 3 < Ldesc.span ⟨1, 1, true⟩ ∧ Aligned 1 twoLevels 0) ∧
    (∃ fuel, iterUnmap fuel 1 twoLevels fullTables 0 3 =
      .ok (cleared 1 twoLevels (fun a => decide (0 ≤ a ∧ a ≤ 3)) fullTables)) ∧
    (∃ fuel, recUnmap fuel 1 twoLevels fullTables 0 3 =
      .ok (cleared 1 twoLevels (fun a => decide (0 ≤ a ∧ a ≤ 3)) fullTables)) := by
  have hT : Tiled twoLevels := ⟨rfl, trivial⟩
  have hs : Aligned 1 twoLevels 0 := dvd_zero _
  have h := unmap_clears_range_iff 1 ⟨1, 1, true⟩ [⟨0, 1, false⟩] fullTables 0 3 hT (by decide)
    (by decide) (by decide) hs
  have hsafe : ∀ w : Walker, w.Known → SafeUnmap w 1 twoLevels fullTables 0 3 := by
    intro w hw
    refine ⟨1, 1, ⟨le_refl _, w.slot_of_lt _ _ (by decide), rfl, fun m h h' => ?_⟩,
      fun i x _ hi _ m _ h₁ h₂ => ?_, fun hne => absurd rfl hne⟩
    · exact absurd h (not_le.mpr h')
    · have hend : Ldesc.index ⟨0, 1, false⟩ (w.leafEnd (Ldesc.hi ⟨1, 1, true⟩ 3 i) 3) = 1 := by
        have : i = 0 ∨ i = 1 := by
          have : i ≤ 1 := hi
          omega
        rcases hw with rfl | rfl <;> rcases this with rfl | rfl <;> decide
      have hlt := Ldesc.index_lt ⟨0, 1, false⟩ (Ldesc.hi ⟨1, 1, true⟩ 3 i)
      have : Ldesc.length ⟨0, 1, false⟩ = 2 := rfl
      omega
  exact ⟨hT, ⟨by decide, by decide, by decide, hs⟩, h.1.mpr (hsafe _ (.inl rfl)),
    h.2.mpr (hsafe _ (.inr rfl))⟩

/-- A range that ends at an invalid entry: the iterative walker reads behind the root table; the
recursive one clears pages outside of the range, or never ends. And the iterative walker leaves a
page mapped if the range lies in two tables. -/
theorem unmap_leaves_range :
    (∀ fuel, iterUnmap (fuel + 3) 1 twoLevels lastInvalid 2 3 = .error .outside) ∧
    (∃ t, recUnmap 2 1 twoLevels lastInvalid 2 3 = .ok t ∧
      walk recursive 1 twoLevels lastInvalid 0 = .ok (.leaf 0, 0) ∧
      walk recursive 1 twoLevels t 0 = .ok (.invalid, 0)) ∧
    (∀ fuel, recUnmap fuel 1 twoLevels (empty : Table ℕ) 2 3 = .error .running) ∧
    (∃ t, iterUnmap 2 1 twoLevels fullTables 1 2 = .ok t ∧
      walk iterative 1 twoLevels t 1 = .ok (.leaf 1, 0)) := by
  refine ⟨fun fuel => rfl, ⟨_, rfl, rfl, rfl⟩, fun fuel => ?_, ⟨_, rfl, rfl⟩⟩
  exact unmapLoop_recursive_running fun k => rfl

end Fiasco.Ptab
