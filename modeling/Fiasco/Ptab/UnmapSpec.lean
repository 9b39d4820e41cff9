import Fiasco.Ptab.Unmap

/-!
# The range of an `unmap`, level by level

`cleared` is what `unmap` is for: the entries of the target level with an address in the range that
are reached through tables become invalid. On one level this is a `sweep` over the tables of the
next level, and `unmapLoop_sweep_iff` says when the loop of a walker is one.
-/
namespace Fiasco.Ptab

open Function Entry

variable {P : Type}

/-- The entries of the target level with an address in `R` made invalid. The levels of the
list down to the target are `levels` apart, addresses count from the start of the table. -/
def cleared : ℕ → List Ldesc → (ℕ → Bool) → Table P → Table P
  | 0, d :: _, R, t => fun i => if i < d.length ∧ R (i * 2 ^ d.shift) = true then .invalid else t i
  | levels + 1, d :: ds, R, t => fun i =>
    match t i with
    | .next x =>
      if i < d.length then .next (cleared levels ds (fun a => R (i * 2 ^ d.shift + a)) x)
      else .next x
    | e => e
  | _, [], _, t => t

def Ldesc.within (d : Ldesc) (s e a : ℕ) : Bool :=
  decide (s % d.span ≤ a ∧ a ≤ e % d.span)

variable {levels : ℕ} {d : Ldesc} {ds : List Ldesc} {t : Table P}

theorem cleared_congr {R R' : ℕ → Bool} (hT : Tiled (d :: ds)) (h : ∀ a, a < d.span → R a = R' a) :
    cleared levels (d :: ds) R t = cleared levels (d :: ds) R' t := by
  induction levels generalizing d ds R R' t with
  | zero =>
    funext i
    simp only [cleared]
    by_cases hi : i < d.length
    · have hlt : i * 2 ^ d.shift < d.span := Radix.slot_lt hi (Nat.two_pow_pos d.shift)
      rw [h _ hlt]
    · simp only [hi, false_and, if_false]
  | succ levels ih =>
    funext i
    simp only [cleared]
    cases t i with
    | invalid | leaf p => rfl
    | next x =>
      by_cases hi : i < d.length
      · simp only [hi, if_true]
        cases ds with
        | nil => cases levels <;> rfl
        | cons d' ds =>
          refine congrArg next (ih hT.2 fun a ha => h _ ?_)
          rw [Ldesc.span, ← hT.1] at ha
          exact Radix.slot_lt hi ha
      · simp only [hi, if_false]

theorem cleared_nothing {R : ℕ → Bool} (h : ∀ a, R a = false) : cleared levels ds R t = t := by
  induction levels generalizing ds R t with
  | zero =>
    cases ds with
    | nil => rfl
    | cons d ds =>
      funext i
      simp [cleared, h]
  | succ levels ih =>
    cases ds with
    | nil => rfl
    | cons d ds =>
      funext i
      simp only [cleared]
      cases t i with
      | invalid | leaf p => rfl
      | next x => simp only [ih fun a => h _, ite_self]

def sweep (d : Ldesc) (s e : ℕ) (f : ℕ → Table P → Table P) (t : Table P) : Table P := fun m =>
  match t m with
  | .next x => if d.index s ≤ m ∧ m ≤ d.index e then .next (f m x) else .next x
  | e₀ => e₀

variable {f : ℕ → Table P → Table P}

section Sweep

variable {s e m : ℕ}

theorem sweep_in {x : Table P} (hx : t m = .next x) (h₀ : d.index s ≤ m) (h₁ : m ≤ d.index e) :
    sweep d s e f t m = .next (f m x) := by
  simp only [sweep, hx]
  exact if_pos ⟨h₀, h₁⟩

theorem sweep_out (h : ¬ (d.index s ≤ m ∧ m ≤ d.index e)) : sweep d s e f t m = t m := by
  unfold sweep
  cases t m with
  | next x => exact if_neg h
  | invalid | leaf p => rfl

theorem sweep_of_not_next (h : (t m).isNext = false) : sweep d s e f t m = t m := by
  unfold sweep
  cases hm : t m with
  | next x =>
    rw [hm] at h
    cases h
  | invalid | leaf p => rfl

theorem sweep_isNext (m : ℕ) : (sweep d s e f t m).isNext = (t m).isNext := by
  unfold sweep
  cases t m with
  | next x =>
    change (if _ then _ else _ : Entry P).isNext = true
    split <;> rfl
  | invalid | leaf p => rfl

theorem sweep_self : sweep d s e (fun _ x => x) t = t := by
  funext m
  unfold sweep
  cases t m with
  | next x => exact ite_self _
  | invalid | leaf p => rfl

end Sweep

variable {d' : Ldesc}

theorem within_slot {s e i a : ℕ} (hd : d.shift = d'.shift + d'.size) (ha : a < d'.span) :
    d.within s e (i * 2 ^ d.shift + a) = true ↔
      (d.index s ≤ i ∧ i ≤ d.index e) ∧ d'.within (d.lo s i) (d.hi e i) a = true := by
  have hspan : d'.span = 2 ^ d.shift := by rw [hd, Ldesc.span]
  rw [hspan] at ha
  simp only [Ldesc.within, decide_eq_true_eq, hspan]
  exact Radix.mem_range_iff ha

theorem part_ordered {s e i : ℕ} (hd : d.shift = d'.shift + d'.size) (hle : s % d.span ≤ e % d.span)
    (hi : i ≤ d.index e) : d.lo s i % d'.span ≤ d.hi e i % d'.span := by
  rw [Ldesc.span, ← hd]
  exact Radix.part_le hle hi

theorem cleared_eq_sweep {s e : ℕ} (hT : Tiled (d :: d' :: ds)) :
    cleared (levels + 1) (d :: d' :: ds) (d.within s e) t =
      sweep d s e (fun i x => cleared levels (d' :: ds) (d'.within (d.lo s i) (d.hi e i)) x) t := by
  funext i
  simp only [cleared, sweep]
  cases t i with
  | invalid | leaf p => rfl
  | next x =>
    have hlt := d.index_lt e
    by_cases hi : d.index s ≤ i ∧ i ≤ d.index e
    · simp only [hi, and_self, if_true, if_pos (show i < d.length by omega)]
      refine congrArg next (cleared_congr hT.2 fun a ha => ?_)
      have hw := within_slot (s := s) (e := e) (i := i) hT.1 ha
      rw [Bool.eq_iff_iff, hw]
      exact and_iff_right hi
    · simp only [hi, if_false]
      split
      · have hout : ∀ a, a < d'.span → d.within s e (i * 2 ^ d.shift + a) = false := by
          intro a ha
          have hw := within_slot (s := s) (e := e) (i := i) hT.1 ha
          rw [Bool.eq_iff_iff, hw]
          simp [hi]
        refine congrArg next ?_
        rw [cleared_congr hT.2 hout, cleared_nothing fun _ => rfl]
      · rfl

section Aligned

variable {d d' : Ldesc} {s i levels : ℕ}

def pageShift : ℕ → List Ldesc → ℕ
  | 0, d :: _ => d.shift
  | levels + 1, _ :: ds => pageShift levels ds
  | _, [] => 0

def Aligned (levels : ℕ) (ds : List Ldesc) (a : ℕ) : Prop := 2 ^ pageShift levels ds ∣ a
deriving Decidable

theorem pageShift_le (hT : Tiled (d :: ds)) : pageShift levels (d :: ds) ≤ d.shift := by
  induction levels generalizing d ds with
  | zero => exact le_refl _
  | succ levels ih =>
    cases ds with
    | nil => cases levels <;> exact Nat.zero_le _
    | cons d' ds =>
      have h := ih hT.2
      have := hT.1
      rw [pageShift]
      omega

theorem pageShift_next_le (hT : Tiled (d :: d' :: ds)) : pageShift levels (d' :: ds) ≤ d.shift := by
  have h : pageShift levels (d' :: ds) ≤ d'.shift := pageShift_le hT.2
  have := hT.1
  omega

theorem Aligned.lo (hT : Tiled (d :: d' :: ds)) (h : Aligned levels (d' :: ds) s) :
    Aligned levels (d' :: ds) (d.lo s i) := by
  unfold Ldesc.lo Radix.partLo
  split
  · exact h
  · exact Nat.dvd_mul_left_of_dvd (Nat.pow_dvd_pow 2 (pageShift_next_le hT)) i

end Aligned

section Level

variable {w : Walker} {sub : Table P → ℕ → ℕ → Except Stop (Table P)} {s e fuel : ℕ}
  {t t' : Table P}

theorem unmapLoop_level (hle : d.index s ≤ d.index e) (hf : 2 * d.length ≤ fuel) :
    unmapLoop w d sub e fuel (d.index s) s t = .ok t' ↔
      ∃ t₁ j k, Swept d sub s e (d.index s) t t₁ ∧ Ends w d t (d.index e) j k ∧
        (j = d.index e ∧ t' = t₁ ∨ d.index e < j ∧ ∃ x x', t₁ k = .next x ∧
          sub x (j * 2 ^ d.shift) e = .ok x' ∧ t' = update t₁ k (.next x')) := by
  have hstart : unmapLoop w d sub e fuel (d.index s) s t =
      unmapLoop w d sub e fuel (d.index s) (d.lo s (d.index s)) t := by rw [Ldesc.lo_index]
  rw [hstart, unmapLoop_iff (Nat.le_refl _) (Nat.add_sub_cancel' hle)]
  constructor
  · rintro ⟨t₁, j, k, hsw, hend, _, hc⟩
    exact ⟨t₁, j, k, hsw, hend, hc⟩
  · rintro ⟨t₁, j, k, hsw, hend, hc⟩
    have h₁ := hend.lt
    have h₂ := d.index_lt e
    exact ⟨t₁, j, k, hsw, hend, by omega, hc⟩

theorem clears_update {k : ℕ} {x x' : Table P} (hx : t k = .next x)
    (h : Clears (.next x) (.next x')) (m : ℕ) : Clears (t m) (update t k (.next x') m) := by
  by_cases hm : m = k
  · rw [hm, update_self, hx]
    exact h
  · rw [update_of_ne hm]
    exact .refl _

theorem unmapLoop_clears {i vs : ℕ}
    (hsub : ∀ x vs ve x', sub x vs ve = .ok x' → Clears (.next x) (.next x'))
    (h : unmapLoop w d sub e fuel i vs t = .ok t') (m : ℕ) : Clears (t m) (t' m) := by
  induction fuel generalizing i vs t with
  | zero => cases h
  | succ fuel ih =>
    cases hk : w.slot d i with
    | none =>
      rw [unmapLoop] at h
      simp only [hk] at h
      cases h
    | some k =>
      cases hn : (t k).isNext with
      | false =>
        rw [unmapLoop_skip hk hn] at h
        exact ih h
      | true =>
        obtain ⟨x, hx⟩ := isNext_iff.mp hn
        by_cases hi : i < d.index e
        · obtain ⟨x', hx', hrest⟩ := (unmapLoop_next hk hx hi).mp h
          exact (clears_update hx (hsub _ _ _ _ hx') m).trans (ih hrest)
        · obtain ⟨x', hx', rfl⟩ := (unmapLoop_last hk hx (not_lt.mp hi)).mp h
          exact clears_update hx (hsub _ _ _ _ hx') m

theorem swept_sweep (h : ∀ i x, d.index s ≤ i → i ≤ d.index e → t i = .next x →
    sub x (d.lo s i) (d.hi e i) = .ok (f i x)) :
    Swept d sub s e (d.index s) t (sweep d s e f t) where
  inside m h₀ h₁ := by
    cases ht : t m with
    | next x =>
      rw [sweep_in ht h₀ h₁]
      exact ⟨_, h m x h₀ h₁ ht, rfl⟩
    | invalid | leaf p => rw [sweep_of_not_next (by rw [ht]; rfl), ht]; rfl
  outside m hm := sweep_out hm

variable (sub) in
theorem unmapLoop_sweep_iff (hle : d.index s ≤ d.index e) (hf : 2 * d.length ≤ fuel)
    (hsub : ∀ x vs ve x', sub x vs ve = .ok x' → Clears (.next x) (.next x'))
    (hwrap : (∀ i k, w.slot d i = some k → k = i) ∨
      ∀ i x y, i ≤ d.index e → sub x (d.lo s i) (d.hi e i) = .ok y →
        Clears (.next (f i x)) (.next y)) :
    unmapLoop w d sub e fuel (d.index s) s t = .ok (sweep d s e f t) ↔
      ∃ j k, Ends w d t (d.index e) j k ∧
        (∀ i x, d.index s ≤ i → i ≤ d.index e → t i = .next x →
          sub x (d.lo s i) (d.hi e i) = .ok (f i x)) ∧
        (j ≠ d.index e → ∀ x, sweep d s e f t k = .next x →
          sub x (j * 2 ^ d.shift) e = .ok x) := by
  rw [unmapLoop_level hle hf]
  constructor
  · rintro ⟨t₁, j, k, hsw, hend, ⟨hj, rfl⟩ | ⟨hj, y, z, hy, hz, he⟩⟩
    · refine ⟨j, k, hend, fun i x h₀ h₁ hx => ?_, fun hne => absurd hj hne⟩
      have hv := hsw.inside i h₀ h₁
      rw [hx, sweep_in hx h₀ h₁] at hv
      obtain ⟨x', hx', he⟩ := hv
      cases he
      exact hx'
    · have hvis : ∀ i x, d.index s ≤ i → i ≤ d.index e → t i = .next x →
          ∃ x', sub x (d.lo s i) (d.hi e i) = .ok x' ∧ t₁ i = .next x' := by
        intro i x h₀ h₁ hx
        have hv := hsw.inside i h₀ h₁
        rw [hx] at hv
        exact hv
      have hk : sweep d s e f t k = .next z := by rw [he, update_self]
      -- the tables of the range, and the one behind it, are not touched a second time
      have hyz : y = z ∧ ∀ x, d.index s ≤ k → k ≤ d.index e → t k = .next x → y = f k x := by
        by_cases hin : d.index s ≤ k ∧ k ≤ d.index e
        · obtain ⟨x, hx⟩ := isNext_iff.mp hend.next
          obtain ⟨x', hx', hk'⟩ := hvis k x hin.1 hin.2 hx
          rw [hy] at hk'
          cases hk'
          rw [sweep_in hx hin.1 hin.2] at hk
          have hcov : Clears (.next (f k x)) (.next y) := by
            rcases hwrap with hw | hw
            · have := hw j k hend.slot
              omega
            · exact hw k x y hin.2 hx'
          have hback : Clears (.next y) (.next (f k x)) := by
            rw [hk]
            exact hsub _ _ _ _ hz
          have hfy := hcov.antisymm hback
          refine ⟨next.inj (hfy.symm.trans hk), fun x₁ _ _ hx₁ => ?_⟩
          rw [hx] at hx₁
          cases hx₁
          exact (next.inj hfy).symm
        · rw [sweep_out hin, ← hsw.outside k hin, hy] at hk
          exact ⟨next.inj hk, fun x h₀ h₁ => absurd ⟨h₀, h₁⟩ hin⟩
      refine ⟨j, k, hend, fun i x h₀ h₁ hx => ?_, fun _ x hx => ?_⟩
      · obtain ⟨x', hx', hi⟩ := hvis i x h₀ h₁ hx
        by_cases hik : i = k
        · rw [hik, hy] at hi
          cases hi
          rw [hx', hik, hyz.2 x (hik ▸ h₀) (hik ▸ h₁) (hik ▸ hx)]
        · have hsp := congrFun he i
          rw [update_of_ne hik, hi, sweep_in hx h₀ h₁] at hsp
          rw [hx', next.inj hsp]
      · rw [hk] at hx
        cases hx
        rw [hyz.1] at hz
        exact hz
  · rintro ⟨j, k, hend, hin, hout⟩
    refine ⟨_, j, k, swept_sweep hin, hend, ?_⟩
    rcases eq_or_lt_of_le hend.le with hj | hj
    · exact .inl ⟨hj.symm, rfl⟩
    · obtain ⟨x, hx⟩ := isNext_iff.mp ((sweep_isNext (d := d) (s := s) (e := e) (f := f)
        k).trans hend.next)
      refine .inr ⟨hj, x, x, hx, hout (ne_of_gt hj) x hx, ?_⟩
      rw [← hx, update_eq_self]

theorem unmapLoop_covers (hle : d.index s ≤ d.index e) (hf : 2 * d.length ≤ fuel)
    (hsub : ∀ x vs ve x', sub x vs ve = .ok x' → Clears (.next x) (.next x'))
    (hcov : ∀ i x y, i ≤ d.index e → sub x (d.lo s i) (d.hi e i) = .ok y →
      Clears (.next (f i x)) (.next y))
    (h : unmapLoop w d sub e fuel (d.index s) s t = .ok t') (m : ℕ) :
    Clears (sweep d s e f t m) (t' m) := by
  obtain ⟨t₁, j, k, hsw, _, hc⟩ := (unmapLoop_level hle hf).mp h
  have h₁ : Clears (sweep d s e f t m) (t₁ m) := by
    by_cases hm : d.index s ≤ m ∧ m ≤ d.index e
    · have hv := hsw.inside m hm.1 hm.2
      cases hn : (t m).isNext with
      | true =>
        obtain ⟨x, hx⟩ := isNext_iff.mp hn
        rw [hx] at hv
        obtain ⟨x', hx', he⟩ := hv
        rw [sweep_in hx hm.1 hm.2, he]
        exact hcov m x x' hm.2 hx'
      | false =>
        rw [sweep_of_not_next hn, (visited_of_not_next hn).mp hv]
        exact .refl _
    · rw [sweep_out hm, hsw.outside m hm]
      exact .refl _
  rcases hc with ⟨_, rfl⟩ | ⟨_, x, x', hx, hx', rfl⟩
  · exact h₁
  · exact h₁.trans (clears_update hx (hsub _ _ _ _ hx') m)

end Level

end Fiasco.Ptab
