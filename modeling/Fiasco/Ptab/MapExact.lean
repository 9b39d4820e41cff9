import Fiasco.Ptab.Map
import Fiasco.Ptab.UnmapSafe

/-!
# Which ranges `map` maps right

The addresses written by `map` are right exactly if no part of the range but the last
one of its table lies in several tables of the target level (`Fits`). The translation
of all other addresses does not change.
-/
namespace Fiasco.Ptab

open Finset Nat Function Ldesc Radix

variable {P : Type}

def OneTable : ℕ → List Ldesc → ℕ → ℕ → Prop
  | levels + 1, d :: ds, s, e => d.index s = d.index e ∧ OneTable levels ds s e
  | _, _, _, _ => True

def Fits : ℕ → List Ldesc → ℕ → ℕ → Prop
  | levels + 1, d :: ds, s, e =>
    (∀ i, d.index s ≤ i → i < d.index e → OneTable levels ds (d.lo s i) (d.hi e i)) ∧
      ∀ i, d.index s ≤ i → i ≤ d.index e → Fits levels ds (d.lo s i) (d.hi e i)
  | _, _, _, _ => True

def Ldesc.width (d : Ldesc) (s e : ℕ) : ℕ := e % d.span + 1 - s % d.span

variable {ds : List Ldesc} {d d' : Ldesc}

section Parts

variable {s e i levels : ℕ}

theorem mod_of_succ_dvd {k : ℕ} (h : 2 ^ k ∣ e + 1) : e % 2 ^ k = 2 ^ k - 1 := by
  obtain ⟨c, hc⟩ := h
  have hp := Nat.two_pow_pos k
  obtain ⟨c, rfl⟩ : ∃ b, c = b + 1 := ⟨c - 1, by
    rcases c with _ | c
    · simp at hc
    · rfl⟩
  have he : e = c * 2 ^ k + (2 ^ k - 1) := by
    have : 2 ^ k * (c + 1) = c * 2 ^ k + 2 ^ k := by ring
    omega
  rw [he, slot_mod (by omega)]

theorem le_sub_mod {m v : ℕ} (hs : m ∣ s) (h : s ≤ v) : s ≤ v - v % m := by
  have hdiv : s / m ≤ v / m := Nat.div_le_div_right h
  have hmul := Nat.mul_le_mul_left m hdiv
  have hv := Nat.div_add_mod v m
  rw [Nat.mul_div_cancel' hs] at hmul
  omega

theorem Aligned.hi (hT : Tiled (d :: d' :: ds)) (h : Aligned levels (d' :: ds) (e + 1)) :
    Aligned levels (d' :: ds) (d.hi e i + 1) := by
  unfold Ldesc.hi partHi
  split
  · have hp : 1 ≤ (i + 1) * 2 ^ d.shift := Nat.mul_pos (Nat.succ_pos i) (Nat.two_pow_pos _)
    rw [Nat.sub_add_cancel hp]
    exact Nat.dvd_mul_left_of_dvd (Nat.pow_dvd_pow 2 (pageShift_next_le hT)) _
  · exact h

theorem mod_span (d : Ldesc) (a : ℕ) :
    a % d.span = d.index a * 2 ^ d.shift + a % 2 ^ d.shift := Radix.mod_span _ _ _

section

variable (hd : d.shift = d'.shift + d'.size)
include hd

theorem next_span : d'.span = 2 ^ d.shift := by
  rw [hd, span]

theorem lo_mod : d.lo s i % d'.span = if i = d.index s then s % 2 ^ d.shift else 0 := by
  rw [next_span hd]
  exact partLo_mod

theorem hi_mod :
    d.hi e i % d'.span = if i < d.index e then 2 ^ d.shift - 1 else e % 2 ^ d.shift := by
  rw [next_span hd]
  exact partHi_mod

theorem sum_width (h₀ : d.index s ≤ i) (h₁ : i ≤ d.index e) :
    ∑ m ∈ Ico (d.index s) i, d'.width (d.lo s m) (d.hi e m) + s % d.span =
      i * 2 ^ d.shift + d.lo s i % d'.span := by
  induction i, h₀ using le_induction with
  | base => rw [Ico_self, sum_empty, zero_add, lo_index, next_span hd, mod_span]
  | succ i hi ih =>
    have hp := Nat.two_pow_pos d.shift
    have hlo : d.lo s i % d'.span < 2 ^ d.shift := by
      rw [next_span hd]
      exact mod_lt _ hp
    have hw : d'.width (d.lo s i) (d.hi e i) = 2 ^ d.shift - d.lo s i % d'.span := by
      rw [width, hi_mod hd, if_pos (by omega)]
      omega
    have hnext : d.lo s (i + 1) % d'.span = 0 := by
      rw [lo_mod hd, if_neg (by omega)]
    have hmul : (i + 1) * 2 ^ d.shift = i * 2 ^ d.shift + 2 ^ d.shift := by ring
    rw [sum_Ico_succ_top hi, hw, hnext, hmul]
    omega

theorem width_last (h : s % d.span ≤ e % d.span) :
    d'.width (d.lo s (d.index e)) (d.hi e (d.index e)) ≤ d.width s e ∧
      (d'.width (d.lo s (d.index e)) (d.hi e (d.index e)) = d.width s e ↔
        d.index s = d.index e) := by
  have hidx : d.index s ≤ d.index e := digit_le h
  simp only [width, lo_mod hd, hi_mod hd, mod_span d, lt_irrefl, if_false]
  by_cases hse : d.index s = d.index e
  · rw [if_pos hse.symm, hse]
    exact ⟨by omega, fun _ => rfl, fun _ => by omega⟩
  · have hlt : d.index s + 1 ≤ d.index e := by omega
    have hmul := mul_le_mul_right (2 ^ d.shift) hlt
    have hsucc : (d.index s + 1) * 2 ^ d.shift = d.index s * 2 ^ d.shift + 2 ^ d.shift := by ring
    rw [if_neg (Ne.symm hse)]
    exact ⟨by omega, fun hc => by omega, fun hc => absurd hc hse⟩

end

end Parts

variable {d : Ldesc} {base : ℕ}

section Offsets

variable {s e levels : ℕ}

theorem index_of_aligned (hs : 2 ^ d.shift ∣ s) (he : 2 ^ d.shift ∣ e + 1) :
    (d.index e + 1 - d.index s) * 2 ^ d.shift = d.width s e := by
  rw [width, mod_span d s, mod_span d e, mod_of_succ_dvd he, mod_eq_zero_of_dvd hs,
    Nat.sub_mul, add_mul]
  omega

variable (base) in
theorem returned_le (hT : Tiled (d :: ds)) (hlen : levels ≤ ds.length)
    (hs : Aligned levels (d :: ds) s) (he : Aligned levels (d :: ds) (e + 1))
    (hle : s % d.span ≤ e % d.span) :
    returned base levels (d :: ds) s e ≤ d.width s e * 2 ^ base ∧
      (returned base levels (d :: ds) s e = d.width s e * 2 ^ base ↔
        OneTable levels (d :: ds) s e) := by
  induction levels generalizing d ds s e with
  | zero =>
    have h : returned base 0 (d :: ds) s e = d.width s e * 2 ^ base := by
      rw [returned, pow_add, ← mul_assoc, index_of_aligned hs he]
    rw [h]
    exact ⟨le_refl _, fun _ => trivial, fun _ => rfl⟩
  | succ levels ih =>
    cases ds with
    | nil => cases hlen
    | cons d' ds =>
      have hp := Nat.two_pow_pos base
      obtain ⟨hwle, hweq⟩ := width_last hT.1 hle
      obtain ⟨hrle, hreq⟩ := ih hT.2 (le_of_succ_le_succ hlen)
        (Aligned.lo (i := d.index e) hT hs) (Aligned.hi (i := d.index e) hT he)
        (part_ordered hT.1 hle (le_refl _))
      have hmul := mul_le_mul_right (2 ^ base) hwle
      refine ⟨le_trans hrle hmul, ?_⟩
      rw [returned, OneTable]
      constructor
      · intro h
        have hw := eq_of_mul_eq_mul_right hp (le_antisymm hmul (h ▸ hrle))
        have hidx := hweq.mp hw
        rw [h, ← hw] at hreq
        have hone := hreq.mp rfl
        rw [← hidx, lo_index, hidx, hi_of_le (le_refl _)] at hone
        exact ⟨hidx, hone⟩
      · rintro ⟨hidx, hone⟩
        rw [← hweq.mpr hidx]
        refine hreq.mpr ?_
        rwa [← hidx, lo_index, hidx, hi_of_le (le_refl _)]

theorem index_mod_span (d : Ldesc) (a : ℕ) : d.index (a % d.span) = d.index a := by
  rw [mod_span]
  exact digit_slot (d.index_lt a) (Nat.mod_lt _ (Nat.two_pow_pos _))

theorem offset_start (hT : Tiled (d :: ds)) (hlen : levels ≤ ds.length) :
    offset base levels (d :: ds) s e (s % d.span) = 0 := by
  induction levels generalizing d ds s e with
  | zero => rw [offset, index_mod_span, Nat.sub_self, Nat.zero_mul]
  | succ levels ih =>
    cases ds with
    | nil => cases hlen
    | cons d' ds =>
      have hmod : s % d.span % 2 ^ d.shift = s % d'.span := by
        rw [next_span hT.1, mod_span, slot_mod (Nat.mod_lt _ (Nat.two_pow_pos _))]
      rw [offset, index_mod_span, Ico_self, sum_empty, zero_add, lo_index, hmod]
      exact ih hT.2 (le_of_succ_le_succ hlen)

def Right (base levels : ℕ) (ds : List Ldesc) (span s e : ℕ) : Prop :=
  ∀ a, Aligned levels ds a → s % span ≤ a → a ≤ e % span →
    offset base levels ds s e a = (a - s % span) * 2 ^ base

theorem offset_slot {d' : Ldesc} {i x : ℕ} (hi : i ≤ d.index e) (hx : x < 2 ^ d.shift) :
    offset base (levels + 1) (d :: d' :: ds) s e (i * 2 ^ d.shift + x) =
      ∑ m ∈ Ico (d.index s) i, returned base levels (d' :: ds) (d.lo s m) (d.hi e m) +
        offset base levels (d' :: ds) (d.lo s i) (d.hi e i) x := by
  obtain ⟨hidx, hmod⟩ := index_slot (d := d) hi hx
  rw [offset, hidx, hmod]

theorem aligned_slot {d' : Ldesc} {i x : ℕ} (hT : Tiled (d :: d' :: ds)) :
    Aligned (levels + 1) (d :: d' :: ds) (i * 2 ^ d.shift + x) ↔ Aligned levels (d' :: ds) x :=
  (Nat.dvd_add_iff_right
    (Nat.dvd_mul_left_of_dvd (Nat.pow_dvd_pow 2 (pageShift_next_le hT)) i)).symm

section Next

variable {d' : Ldesc}

theorem offset_eq_iff {i x : ℕ} (hT : Tiled (d :: d' :: ds)) (h₀ : d.index s ≤ i)
    (h₁ : i ≤ d.index e) (hx : x < 2 ^ d.shift) (hlo : d.lo s i % d'.span ≤ x)
    (hret : ∀ m ∈ Ico (d.index s) i, returned base levels (d' :: ds) (d.lo s m) (d.hi e m) =
      d'.width (d.lo s m) (d.hi e m) * 2 ^ base) :
    offset base (levels + 1) (d :: d' :: ds) s e (i * 2 ^ d.shift + x) =
        (i * 2 ^ d.shift + x - s % d.span) * 2 ^ base ↔
      offset base levels (d' :: ds) (d.lo s i) (d.hi e i) x =
        (x - d.lo s i % d'.span) * 2 ^ base := by
  have hsum := sum_width hT.1 h₀ h₁
  have ha : i * 2 ^ d.shift + x - s % d.span =
      ∑ m ∈ Ico (d.index s) i, d'.width (d.lo s m) (d.hi e m) + (x - d.lo s i % d'.span) := by
    omega
  rw [offset_slot h₁ hx, sum_congr rfl hret, ← sum_mul, ha, add_mul]
  exact add_left_cancel_iff

theorem right_of_parts (hT : Tiled (d :: d' :: ds))
    (hret : ∀ m, d.index s ≤ m → m < d.index e →
      returned base levels (d' :: ds) (d.lo s m) (d.hi e m) =
        d'.width (d.lo s m) (d.hi e m) * 2 ^ base) :
    Right base (levels + 1) (d :: d' :: ds) d.span s e ↔
      ∀ i, d.index s ≤ i → i ≤ d.index e →
        Right base levels (d' :: ds) d'.span (d.lo s i) (d.hi e i) := by
  constructor
  · intro h i h₀ h₁ x hal hlo hhi
    have hx : x < 2 ^ d.shift := by
      have := Nat.mod_lt (d.hi e i) (Nat.two_pow_pos d.shift)
      rw [next_span hT.1] at hhi
      omega
    have hmem := (mem_range_iff (s := s) (e := e) hx).mpr
      ⟨⟨h₀, h₁⟩, by rw [next_span hT.1] at hlo hhi; exact ⟨hlo, hhi⟩⟩
    refine (offset_eq_iff hT h₀ h₁ hx hlo fun m hm => ?_).mp
      (h _ ((aligned_slot hT).mpr hal) hmem.1 hmem.2)
    rw [mem_Ico] at hm
    exact hret m hm.1 (by omega)
  · intro h a hal hlo hhi
    have hx := Nat.mod_lt a (Nat.two_pow_pos d.shift)
    have hspan : a % d.span = a := by
      have := Nat.mod_lt e (show 0 < d.span from Nat.two_pow_pos _)
      exact mod_eq_of_lt (by omega)
    have ha : a = d.index a * 2 ^ d.shift + a % 2 ^ d.shift := by
      rw [← mod_span, hspan]
    rw [ha] at hal hlo hhi ⊢
    obtain ⟨⟨h₀, h₁⟩, hlo', hhi'⟩ := (mem_range_iff hx).mp ⟨hlo, hhi⟩
    have hlo'' : d.lo s (d.index a) % d'.span ≤ a % 2 ^ d.shift := by
      rw [next_span hT.1]
      exact hlo'
    refine (offset_eq_iff hT h₀ h₁ hx hlo'' fun m hm => ?_).mpr
      (h _ h₀ h₁ _ ((aligned_slot hT).mp hal) hlo'' ?_)
    · rw [mem_Ico] at hm
      have : m < d.index e := lt_of_lt_of_le hm.2 h₁
      exact hret m hm.1 this
    · rw [next_span hT.1]
      exact hhi'

theorem returned_of_right (hT : Tiled (d :: d' :: ds)) (hlen : levels ≤ ds.length)
    (hs : Aligned (levels + 1) (d :: d' :: ds) s) (he : Aligned (levels + 1) (d :: d' :: ds) (e + 1))
    (hle : s % d.span ≤ e % d.span) (h : Right base (levels + 1) (d :: d' :: ds) d.span s e) {i : ℕ}
    (h₀ : d.index s ≤ i) (h₁ : i < d.index e) :
    returned base levels (d' :: ds) (d.lo s i) (d.hi e i) =
      d'.width (d.lo s i) (d.hi e i) * 2 ^ base := by
  have hp := Nat.two_pow_pos d.shift
  have hlo : d.lo s (i + 1) % d'.span = 0 := by
    rw [lo_mod hT.1, if_neg (by omega)]
  have hsum := sum_width hT.1 (show d.index s ≤ i + 1 by omega) h₁
  have ha : (i + 1) * 2 ^ d.shift ≤ e % d.span := by
    have := mul_le_mul_right (2 ^ d.shift) h₁
    rw [mod_span]
    exact le_trans this (le_add_right _ _)
  have hoff := h ((i + 1) * 2 ^ d.shift + 0) ((aligned_slot hT).mpr (dvd_zero _)) (by omega) ha
  have hstart : offset base levels (d' :: ds) (d.lo s (i + 1)) (d.hi e (i + 1))
      (d.lo s (i + 1) % d'.span) = 0 := offset_start hT.2 hlen
  rw [hlo] at hstart
  have hsub : (i + 1) * 2 ^ d.shift + 0 - s % d.span =
      ∑ m ∈ Ico (d.index s) (i + 1), d'.width (d.lo s m) (d.hi e m) := by omega
  rw [offset_slot h₁ hp, hstart, Nat.add_zero, hsub, sum_mul] at hoff
  refine (sum_eq_sum_iff_of_le fun m hm => ?_).mp hoff i (mem_Ico.mpr ⟨h₀, lt_succ_self i⟩)
  have hm' := mem_Ico.mp hm
  exact (returned_le _ hT.2 hlen (Aligned.lo hT hs) (Aligned.hi hT he)
    (part_ordered hT.1 hle (by omega))).1

end Next

variable (base) in
theorem right_iff_fits (hT : Tiled (d :: ds)) (hlen : levels ≤ ds.length)
    (hs : Aligned levels (d :: ds) s) (he : Aligned levels (d :: ds) (e + 1))
    (hle : s % d.span ≤ e % d.span) :
    Right base levels (d :: ds) d.span s e ↔ Fits levels (d :: ds) s e := by
  induction levels generalizing d ds s e with
  | zero =>
    refine ⟨fun _ => trivial, fun _ a hal hlo hhi => ?_⟩
    have hlt := Nat.mod_lt e (show 0 < d.span from Nat.two_pow_pos _)
    have hal : a % 2 ^ d.shift = 0 := mod_eq_zero_of_dvd hal
    have hs : s % 2 ^ d.shift = 0 := mod_eq_zero_of_dvd hs
    have ha : a = d.index a * 2 ^ d.shift := by
      have h := mod_span d a
      rwa [mod_eq_of_lt (by omega), hal, add_zero] at h
    have hs₀ : s % d.span = d.index s * 2 ^ d.shift := by
      rw [mod_span, hs, add_zero]
    rw [offset, pow_add, ← Nat.mul_assoc, Nat.sub_mul, ← ha, hs₀]
  | succ levels ih =>
    cases ds with
    | nil => cases hlen
    | cons d' ds =>
      have hlen' := le_of_succ_le_succ hlen
      have hpart {i : ℕ} (hi : i ≤ d.index e) :=
        returned_le base hT.2 hlen' (Aligned.lo (i := i) hT hs)
          (Aligned.hi (i := i) hT he) (part_ordered hT.1 hle hi)
      have hin : (∀ i, d.index s ≤ i → i ≤ d.index e →
            Right base levels (d' :: ds) d'.span (d.lo s i) (d.hi e i)) ↔
          ∀ i, d.index s ≤ i → i ≤ d.index e → Fits levels (d' :: ds) (d.lo s i) (d.hi e i) :=
        forall_congr' fun i => imp_congr_right fun _ => imp_congr_right fun hi =>
          ih hT.2 hlen' (Aligned.lo hT hs) (Aligned.hi hT he) (part_ordered hT.1 hle hi)
      rw [Fits]
      constructor
      · intro h
        have hret := fun m h₀ h₁ => returned_of_right hT hlen' hs he hle h (i := m) h₀ h₁
        refine ⟨fun i h₀ h₁ => ?_, hin.mp ((right_of_parts hT hret).mp h)⟩
        exact (hpart (le_of_lt h₁)).2.mp (hret i h₀ h₁)
      · rintro ⟨hone, hfits⟩
        refine (right_of_parts hT fun m h₀ h₁ => ?_).mpr (hin.mpr hfits)
        exact (hpart (le_of_lt h₁)).2.mpr (hone m h₀ h₁)

end Offsets

def translate : List Ldesc → Table P → ℕ → Option (P × ℕ)
  | [], _, _ => none
  | d :: ds, t, v =>
    match t (d.index v) with
    | .invalid => none
    | .leaf p => some (p, ds.length)
    | .next x => translate ds x v

theorem translate_empty (ds : List Ldesc) (v : ℕ) : translate ds (empty : Table P) v = none := by
  cases ds <;> rfl

variable {t : Table P} {w : Walker}

section Translate

variable {s e v levels : ℕ} {g : ℕ → P}

theorem mapped_out {i : ℕ} (h : ¬ (d.index s ≤ i ∧ i ≤ d.index e)) :
    mapped levels (d :: ds) g s e t i = t i := by
  cases levels <;> exact if_neg h

theorem mapped_next {i : ℕ} (h : d.index s ≤ i ∧ i ≤ d.index e) :
    mapped (levels + 1) (d :: ds) g s e t i = .next (mapped levels ds
      (fun a => g (i * 2 ^ d.shift + a)) (d.lo s i) (d.hi e i) (t i).sub) :=
  if_pos h

theorem mem_table_iff : (s % d.span ≤ v % d.span ∧ v % d.span ≤ e % d.span) ↔
    (d.index s ≤ d.index v ∧ d.index v ≤ d.index e) ∧
      d.lo s (d.index v) % 2 ^ d.shift ≤ v % 2 ^ d.shift ∧
        v % 2 ^ d.shift ≤ d.hi e (d.index v) % 2 ^ d.shift := by
  rw [mod_span d v]
  exact mem_range_iff (Nat.mod_lt v (Nat.two_pow_pos d.shift))

def Ldesc.In (d : Ldesc) (s e v : ℕ) : Prop := s % d.span ≤ v % d.span ∧ v % d.span ≤ e % d.span

theorem walk_mapped (hT : Tiled (d :: ds)) (hlen : levels ≤ ds.length)
    (hv : s % d.span ≤ v % d.span ∧ v % d.span ≤ e % d.span) :
    walk w levels (d :: ds) (mapped levels (d :: ds) g s e t) v =
      .ok (.leaf (g (v % d.span - v % 2 ^ pageShift levels (d :: ds))), 0) := by
  induction levels generalizing d ds s e g t with
  | zero =>
    have hpage : mapped 0 (d :: ds) g s e t (d.index v) = .leaf (g (d.index v * 2 ^ d.shift)) :=
      if_pos (mem_table_iff.mp hv).1
    rw [walk, hpage, pageShift, mod_span, Nat.add_sub_cancel]
  | succ levels ih =>
    cases ds with
    | nil => cases hlen
    | cons d' ds =>
      obtain ⟨hslot, hpart⟩ := mem_table_iff.mp hv
      rw [← next_span hT.1] at hpart
      have hpage : v % 2 ^ pageShift levels (d' :: ds) ≤ v % d'.span := by
        rw [next_span hT.1, ← mod_mod_of_dvd v (pow_dvd_pow 2 (pageShift_next_le hT))]
        exact mod_le _ _
      rw [walk, mapped_next hslot]
      simp only
      rw [ih hT.2 (le_of_succ_le_succ hlen) hpart, pageShift, mod_span d v, ← next_span hT.1,
        Nat.add_sub_assoc hpage]

theorem not_slot_of_not_in (hs : 2 ^ d.shift ∣ s) (he : 2 ^ d.shift ∣ e + 1) (hv : ¬d.In s e v) :
    ¬(d.index s ≤ d.index v ∧ d.index v ≤ d.index e) := by
  intro hslot
  have hlo : d.lo s (d.index v) % 2 ^ d.shift = 0 := by
    refine partLo_mod.trans ?_
    rw [mod_eq_zero_of_dvd hs, ite_self]
  have hhi : d.hi e (d.index v) % 2 ^ d.shift = 2 ^ d.shift - 1 := by
    refine partHi_mod.trans ?_
    rw [mod_of_succ_dvd he, ite_self]
  exact hv (mem_table_iff.mpr ⟨hslot, by omega, by omega⟩)

theorem not_in_part (hd : d.shift = d'.shift + d'.size)
    (hslot : d.index s ≤ d.index v ∧ d.index v ≤ d.index e) (hv : ¬d.In s e v) :
    ¬d'.In (d.lo s (d.index v)) (d.hi e (d.index v)) v := by
  rw [In, next_span hd]
  exact fun hc => hv (mem_table_iff.mpr ⟨hslot, hc⟩)

end Translate

section Walkers

variable {tmpl : ℕ → P} {levels : ℕ} {al : Alloc} {phys s e v i n : ℕ} {r : Mapped P}
  {sub : Table P → Alloc → ℕ → ℕ → ℕ → Except Stop (Mapped P)}

theorem NoPage.mono {B B' : Ldesc → Bool} (hB : ∀ d, B' d = true → B d = true)
    (h : NoPage B levels ds s e t) : NoPage B' levels ds s e t := by
  induction levels generalizing ds s e t with
  | zero => cases ds <;> trivial
  | succ levels ih =>
    cases ds with
    | nil => trivial
    | cons d ds =>
      intro i h₀ h₁
      exact ⟨fun hd => (h i h₀ h₁).1 (hB d hd), ih (h i h₀ h₁).2⟩

theorem mapLoop_slots (hs : d.index s ≤ i) (hn : i + n = d.index e)
    (h : mapLoop w d sub e n i (d.lo s i) phys t al = .ok r) (m : ℕ) :
    r.table m = t m ∨ (i ≤ m ∧ m ≤ d.index e) ∧ (t m).isLeaf = false ∧
      ∃ al' pa r', sub (t m).sub al' pa (d.lo s m) (d.hi e m) = .ok r' ∧ r.table m = .next r'.table := by
  induction n using Nat.strongRecOn generalizing i phys t al with
  | ind n ih =>
    have hlt : i < d.length := lt_of_le_of_lt (by omega) (d.index_lt e)
    rcases mapLoop_cases hlt h with rfl | ⟨hleaf, al₁, hturn⟩
    · exact .inl rfl
    obtain ⟨r₁, hr₁, ⟨-, rfl⟩ | ⟨-, n', rfl, hrest⟩⟩ := mapTurn_iff.mp hturn
    · by_cases hm : m = i
      · rw [hm]
        exact .inr ⟨by omega, hleaf, al₁, phys, r₁, hr₁, update_self ..⟩
      · exact .inl (update_of_ne hm ..)
    · rw [← lo_of_lt (lt_succ_of_le hs)] at hrest
      have hrec := ih n' (lt_succ_self n') (by omega) (by omega) hrest
      by_cases hm : m = i
      · subst hm
        rw [update_self] at hrec
        rcases hrec with ht | ⟨⟨hc, -⟩, -⟩
        · exact .inr ⟨by omega, hleaf, al₁, phys, r₁, hr₁, ht⟩
        · omega
      · rw [update_of_ne hm] at hrec
        exact hrec.imp id fun hc => ⟨by omega, hc.2⟩

theorem translate_mapLevels (hT : Tiled (d :: ds)) (hlen : levels ≤ ds.length)
    (hs : Aligned levels (d :: ds) s) (he : Aligned levels (d :: ds) (e + 1))
    (hle : s % d.span ≤ e % d.span) (h : mapLevels w base tmpl levels (d :: ds) t al phys s e = .ok r)
    (hv : ¬d.In s e v) : translate (d :: ds) r.table v = translate (d :: ds) t v := by
  induction levels generalizing d ds s e t al phys r with
  | zero =>
    cases h
    rw [translate, translate, map_target ds]
    simp only [mapped_out (not_slot_of_not_in hs he hv)]
  | succ levels ih =>
    cases ds with
    | nil => cases hlen
    | cons d' ds =>
      have hidx : d.index s ≤ d.index e := index_le hle
      have hloop : mapLoop w d (mapLevels w base tmpl levels (d' :: ds)) e (d.index e - d.index s)
          (d.index s) (d.lo s (d.index s)) phys t al = .ok r := by
        rw [lo_index]
        exact h
      rw [translate, translate]
      rcases mapLoop_slots (le_refl _) (by omega) hloop (d.index v) with ht | ⟨hslot, hleaf, al', pa, r', hr', ht⟩
      · rw [ht]
      · have hrec := ih hT.2 (le_of_succ_le_succ hlen) (Aligned.lo hT hs) (Aligned.hi hT he)
          (part_ordered hT.1 hle hslot.2) hr' (not_in_part hT.1 hslot hv)
        rw [ht]
        simp only [hrec]
        cases hm : t (d.index v) with
        | invalid => exact translate_empty _ v
        | leaf p =>
          rw [hm] at hleaf
          cases hleaf
        | next x => rfl

theorem mapLoop_ok (hs : d.index s ≤ i) (hn : i + n = d.index e)
    (hsub : ∀ m, i ≤ m → m ≤ d.index e → (w.mapLeaf d = false → (t m).isLeaf = false) ∧
      ∀ al phys, ∃ r, sub (t m).sub al phys (d.lo s m) (d.hi e m) = .ok r) :
    ∃ r, mapLoop w d sub e n i (d.lo s i) phys t al = .ok r := by
  induction n using Nat.strongRecOn generalizing i phys t al with
  | ind n ih =>
    obtain ⟨hleaf, hok⟩ := hsub i (le_refl _) (by omega)
    have hturn : ∀ al, ∃ r, mapTurn w d sub e n i (d.lo s i) phys t (t i).sub al = .ok r := by
      intro al
      obtain ⟨r₁, hr₁⟩ := hok al phys
      by_cases hstop : n = 0 ∨ r₁.size = 0
      · exact ⟨_, mapTurn_iff.mpr ⟨r₁, hr₁, .inl ⟨hstop, rfl⟩⟩⟩
      · obtain ⟨n, rfl⟩ := exists_eq_succ_of_ne_zero fun hn => hstop (.inl hn)
        obtain ⟨r, hr⟩ : ∃ r, mapLoop w d sub e n (i + 1) (d.lo s (i + 1)) (phys + r₁.size)
            (update t i (.next r₁.table)) r₁.alloc = .ok r := by
          refine ih n (lt_succ_self n) (by omega) (by omega) fun m hm hme => ?_
          rw [update_of_ne (by omega)]
          exact hsub m (by omega) hme
        rw [lo_of_lt (lt_succ_of_le hs)] at hr
        exact ⟨r, mapTurn_iff.mpr ⟨r₁, hr₁, .inr ⟨fun h₀ => hstop (.inr h₀), n, rfl, hr⟩⟩⟩
    have hlt := d.index_lt e
    rw [mapLoop_eq (by omega)]
    cases ht : t i with
    | invalid =>
      rw [ht] at hturn
      cases al.take with
      | none => exact ⟨_, rfl⟩
      | some al' => exact hturn al'
    | leaf p =>
      rw [ht] at hleaf
      cases hw : w.mapLeaf d with
      | true => exact ⟨_, rfl⟩
      | false => cases hleaf hw
    | next x =>
      rw [ht] at hturn
      exact hturn al

theorem mapLevels_ok (hT : Tiled (d :: ds)) (hlen : levels ≤ ds.length)
    (hle : s % d.span ≤ e % d.span) (h : NoPage (fun d => !w.mapLeaf d) levels (d :: ds) s e t) :
    ∃ r, mapLevels w base tmpl levels (d :: ds) t al phys s e = .ok r := by
  induction levels generalizing d ds t al phys s e with
  | zero => exact ⟨_, rfl⟩
  | succ levels ih =>
    cases ds with
    | nil => cases hlen
    | cons d' ds =>
      have hidx : d.index s ≤ d.index e := digit_le hle
      have hsub : ∀ m, d.index s ≤ m → m ≤ d.index e →
          (w.mapLeaf d = false → (t m).isLeaf = false) ∧ ∀ al phys, ∃ r,
            mapLevels w base tmpl levels (d' :: ds) (t m).sub al phys (d.lo s m) (d.hi e m) =
              .ok r := by
        intro m h₀ h₁
        obtain ⟨hleaf, hnext⟩ := h m h₀ h₁
        exact ⟨fun hm => hleaf (by simp [hm]), fun al phys => ih hT.2
          (le_of_succ_le_succ hlen) (part_ordered hT.1 hle h₁) hnext⟩
      obtain ⟨r, hr⟩ := mapLoop_ok (Nat.le_refl (d.index s)) (Nat.add_sub_cancel' hidx) hsub
      rw [lo_index] at hr
      exact ⟨r, hr⟩

/-- The range is mapped to consecutive pages from `phys` on, and nothing else has changed. -/
structure MapsRange (w : Walker) (base : ℕ) (tmpl : ℕ → P) (levels : ℕ) (ds : List Ldesc)
    (span phys virt virtEnd : ℕ) (t t' : Table P) : Prop where
  inside : ∀ v, virt ≤ v → v ≤ virtEnd → walk w levels ds t' v =
    .ok (.leaf (tmpl (phys + (v - v % 2 ^ pageShift levels ds - virt) * 2 ^ base)), 0)
  outside : ∀ v, v < span → v < virt ∨ virtEnd < v → translate ds t' v = translate ds t v

theorem mapsRange_iff (htmpl : Injective tmpl) (hT : Tiled (d :: ds))
    (hlen : levels ≤ ds.length) (hs : Aligned levels (d :: ds) s)
    (he : Aligned levels (d :: ds) (e + 1)) (hle : s ≤ e) (hspan : e < d.span)
    (h : mapLevels w base tmpl levels (d :: ds) t al phys s e = .ok r) (hr : r.size ≠ 0) :
    MapsRange w base tmpl levels (d :: ds) d.span phys s e t r.table ↔
      Fits levels (d :: ds) s e := by
  have hs₀ : s % d.span = s := mod_eq_of_lt (by omega)
  have he₀ : e % d.span = e := mod_eq_of_lt hspan
  have hle' : s % d.span ≤ e % d.span := by rwa [hs₀, he₀]
  obtain ⟨htab, -, -⟩ := mapLevels_writes hT hlen hle' h hr
  have hwalk : ∀ v, s ≤ v → v ≤ e → walk w levels (d :: ds) r.table v = .ok (.leaf (tmpl (phys +
      offset base levels (d :: ds) s e (v - v % 2 ^ pageShift levels (d :: ds)))), 0) := by
    intro v h₀ h₁
    have hv₀ : v % d.span = v := mod_eq_of_lt (by omega)
    have hin : s % d.span ≤ v % d.span ∧ v % d.span ≤ e % d.span := by
      rw [hs₀, he₀, hv₀]
      exact ⟨h₀, h₁⟩
    rw [htab, walk_mapped hT hlen hin, hv₀]
  rw [← right_iff_fits base hT hlen hs he hle', Right, hs₀, he₀]
  constructor
  · intro hm a hal h₀ h₁
    have hwalk' := hm.inside a h₀ h₁
    rw [hwalk a h₀ h₁, Nat.mod_eq_zero_of_dvd hal, Nat.sub_zero] at hwalk'
    have hleaf := congrArg Prod.fst (Except.ok.inj hwalk')
    exact add_left_cancel (htmpl (Entry.leaf.inj hleaf))
  · intro hright
    refine ⟨fun v h₀ h₁ => ?_, fun v hv hout => ?_⟩
    · have hdvd : Aligned levels (d :: ds) (v - v % 2 ^ pageShift levels (d :: ds)) :=
        dvd_sub_mod v
      have hge : s ≤ v - v % 2 ^ pageShift levels (d :: ds) := le_sub_mod hs h₀
      rw [hwalk v h₀ h₁, hright _ hdvd hge (by omega)]
    · refine translate_mapLevels hT hlen hs he hle' h ?_
      rw [In, hs₀, he₀, mod_eq_of_lt hv]
      omega

end Walkers

/-- A call of `map` that does not return 0 maps the range as asked and leaves all other addresses
alone exactly if the range fits. No call that comes to a page above the target level does so. -/
theorem map_maps_range_iff (base : ℕ) (tmpl : ℕ → P) (htmpl : Injective tmpl)
    (levels : ℕ) (root : Ldesc) (ds : List Ldesc) (t : Table P) (al : Alloc)
    (phys virt virtEnd : ℕ) (hT : Tiled (root :: ds)) (hlen : levels ≤ ds.length)
    (hs : Aligned levels (root :: ds) virt) (he : Aligned levels (root :: ds) (virtEnd + 1))
    (hle : virt ≤ virtEnd) (hspan : virtEnd < root.span) :
    ((∀ r, iterMap base tmpl levels (root :: ds) t al phys virt virtEnd = .ok r → r.size ≠ 0 →
        NoPage (fun _ => true) levels (root :: ds) virt virtEnd t ∧
        (MapsRange iterative base tmpl levels (root :: ds) root.span phys virt virtEnd t r.table ↔
          Fits levels (root :: ds) virt virtEnd)) ∧
      (NoPage (fun d => !d.mayBeLeaf) levels (root :: ds) virt virtEnd t →
        ∃ r, iterMap base tmpl levels (root :: ds) t al phys virt virtEnd = .ok r)) ∧
    (∀ r, recMap base tmpl levels (root :: ds) t al phys virt virtEnd = .ok r → r.size ≠ 0 →
        NoPage (fun _ => true) levels (root :: ds) virt virtEnd t ∧
        (MapsRange recursive base tmpl levels (root :: ds) root.span phys virt virtEnd t r.table ↔
          Fits levels (root :: ds) virt virtEnd)) ∧
      (NoPage (fun _ => true) levels (root :: ds) virt virtEnd t →
        ∃ r, recMap base tmpl levels (root :: ds) t al phys virt virtEnd = .ok r) := by
  have hs₀ : virt % root.span = virt := mod_eq_of_lt (by omega)
  have he₀ : virtEnd % root.span = virtEnd := mod_eq_of_lt hspan
  have hle' : virt % root.span ≤ virtEnd % root.span := by rwa [hs₀, he₀]
  have hroot : ¬ (root.shift + root.size < 64 ∧ virt / root.span ≠ virtEnd / root.span) := by
    rw [div_eq_of_lt hspan, div_eq_of_lt (show virt < root.span by omega)]
    simp
  have hiter : iterMap base tmpl levels (root :: ds) t al phys virt virtEnd =
      mapLevels iterative base tmpl levels (root :: ds) t al phys virt virtEnd := by
    rw [iterMap, if_neg hroot]
  rw [hiter]
  refine ⟨⟨fun r h hr => ?_, fun h => mapLevels_ok hT hlen hle' h⟩, fun r h hr => ?_,
    fun h => mapLevels_ok hT hlen hle' h⟩
  · exact ⟨(mapLevels_writes hT hlen hle' h hr).2.2,
      mapsRange_iff htmpl hT hlen hs he hle hspan h hr⟩
  · exact ⟨(mapLevels_writes hT hlen hle' h hr).2.2,
      mapsRange_iff htmpl hT hlen hs he hle hspan h hr⟩

def threeLevels : List Ldesc := [⟨2, 1, true⟩, ⟨1, 1, true⟩, ⟨0, 1, false⟩]

def plenty : Alloc := ⟨true, List.replicate 8 true⟩

theorem threeLevels_maps_range :
    Tiled threeLevels ∧ Fits 2 threeLevels 2 5 ∧
    (∃ r, iterMap 0 id 2 threeLevels empty plenty 100 2 5 = .ok r ∧ r.size ≠ 0 ∧
      MapsRange iterative 0 id 2 threeLevels 8 100 2 5 empty r.table) ∧
    ∃ r, recMap 0 id 2 threeLevels empty plenty 100 2 5 = .ok r ∧ r.size ≠ 0 ∧
      MapsRange recursive 0 id 2 threeLevels 8 100 2 5 empty r.table := by
  have hT : Tiled threeLevels := ⟨rfl, rfl, trivial⟩
  have hfits : Fits 2 threeLevels 2 5 := by
    refine ⟨fun i h₀ h₁ => ⟨?_, trivial⟩, fun i _ _ => ⟨fun _ _ _ => trivial, fun _ _ _ => trivial⟩⟩
    obtain rfl : i = 0 := by
      have : i < 1 := h₁
      omega
    decide
  have h := map_maps_range_iff 0 id injective_id 2 ⟨2, 1, true⟩
    [⟨1, 1, true⟩, ⟨0, 1, false⟩] empty plenty 100 2 5 hT (by decide) (by decide) (by decide)
    (by decide) (by decide)
  exact ⟨hT, hfits, ⟨_, rfl, by decide, (h.1.1 _ rfl (by decide)).2.mpr hfits⟩,
    ⟨_, rfl, by decide, (h.2.1 _ rfl (by decide)).2.mpr hfits⟩⟩

/-- A range in two tables of the middle level, the part in the first of them in two tables of
the last level: address 4 is mapped to 102, not to 104. And a page in the way of the recursive
walker is taken for a table. -/
theorem map_repeats_pages :
    (∃ r, iterMap 0 id 2 threeLevels empty plenty 100 0 5 = .ok r ∧ r.size ≠ 0 ∧
      walk iterative 2 threeLevels r.table 4 = .ok (.leaf 102, 0)) ∧
    (∃ r, recMap 0 id 2 threeLevels empty plenty 100 0 5 = .ok r ∧ r.size ≠ 0 ∧
      walk recursive 2 threeLevels r.table 4 = .ok (.leaf 102, 0)) ∧
    recMap 0 id 2 threeLevels pages plenty 100 0 1 = .error .outside := by
  refine ⟨⟨_, rfl, by decide, rfl⟩, ⟨_, rfl, by decide, rfl⟩, rfl⟩

end Fiasco.Ptab
