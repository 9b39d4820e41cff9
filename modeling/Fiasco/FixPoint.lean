import Mathlib

/-!
# Scaling of timer values

`Fix_point_multiplier::calc` finds a 32-bit factor and a shift such that
`v * scaler / 2 ^ (32 - shift)` is close to `v * dst / src`.
-/
namespace Fiasco.FixPoint

structure Multiplier where
  scaler : ℕ
  shift : ℕ

def findShift (src dst : ℕ) : ℕ → ℕ → ℕ
  | 0, shift => shift
  | n + 1, shift => if 0 < dst / 2 ^ shift / src then findShift src dst n (shift + 1) else shift

def Multiplier.calc (src dst : ℕ) : Multiplier :=
  let shift := findShift src dst 31 0
  ⟨2 ^ 32 / 2 ^ shift * dst % 2 ^ 64 / src % 2 ^ 32, shift⟩

/-- The last two bounds are multiplied by `src` and by `2 ^ (32 - shift) * src`. -/
structure Multiplier.Exact (src dst : ℕ) (m : Multiplier) : Prop where
  shift_le : m.shift ≤ 31
  scaler_eq : m.scaler = 2 ^ (32 - m.shift) * dst / src
  fits : 2 ^ (32 - m.shift) * dst / src < 2 ^ 32
  precise : m.shift ≠ 0 → 2 ^ 31 ≤ m.scaler
  le : ∀ v, v * m.scaler / 2 ^ (32 - m.shift) * src ≤ v * dst
  short : ∀ v, v * dst * 2 ^ (32 - m.shift) <
    (v * m.scaler / 2 ^ (32 - m.shift) + 1) * (2 ^ (32 - m.shift) * src) + v * src

variable {src dst : ℕ}

theorem findShift_spec (dst : ℕ) (hp : 0 < src) (n k : ℕ) :
    ∃ s, findShift src dst n k = s ∧ k ≤ s ∧ s ≤ n + k ∧ (s < n + k → dst < 2 ^ s * src) ∧
      (k < s → 2 ^ (s - 1) * src ≤ dst) := by
  induction n generalizing k with
  | zero => exact ⟨k, rfl, by omega, by omega, by omega, by omega⟩
  | succ n ih =>
    have hdiv : 0 < dst / 2 ^ k / src ↔ 2 ^ k * src ≤ dst := by
      rw [Nat.div_div_eq_div_mul, Nat.div_pos_iff]
      exact and_iff_right (Nat.mul_pos (Nat.two_pow_pos k) hp)
    rw [findShift]
    split_ifs with hk
    · obtain ⟨s, hs, hle, hend, hlt, hge⟩ := ih (k + 1)
      refine ⟨s, hs, by omega, by omega, fun h => hlt (by omega), fun _ => ?_⟩
      rcases Nat.eq_or_lt_of_le hle with rfl | hlt
      · exact hdiv.mp hk
      · exact hge hlt
    · exact ⟨k, rfl, le_rfl, by omega, fun _ => by rwa [hdiv, not_le] at hk, by omega⟩

theorem scaled_le {d q m v : ℕ} (hd : 0 < d) (hq : q * src ≤ d * dst) (hm : m * d ≤ v * q) :
    m * src ≤ v * dst := by
  refine Nat.le_of_mul_le_mul_right ?_ hd
  calc m * src * d = m * d * src := by ring
    _ ≤ v * q * src := Nat.mul_le_mul_right src hm
    _ = v * (q * src) := by ring
    _ ≤ v * (d * dst) := Nat.mul_le_mul_left v hq
    _ = v * dst * d := by ring

theorem lt_scaled {d q m v : ℕ} (hp : 0 < src) (hq : d * dst < q * src + src)
    (hm : v * q < m * d + d) : v * dst * d < (m + 1) * (d * src) + v * src := by
  calc v * dst * d = v * (d * dst) := by ring
    _ ≤ v * (q * src + src) := Nat.mul_le_mul_left v hq.le
    _ = v * q * src + v * src := by ring
    _ < (m * d + d) * src + v * src := Nat.add_lt_add_right (Nat.mul_lt_mul_of_pos_right hm hp) _
    _ = (m + 1) * (d * src) + v * src := by ring

/-- The factor fits into 32 bits and is as exact as it can be. -/
theorem calc_exact (hp : 0 < src) (hd : dst < 2 ^ 32) (h : dst < 2 ^ 31 * src) :
    (Multiplier.calc src dst).Exact src dst := by
  obtain ⟨s, hs, -, hend, hlt, hge⟩ := findShift_spec dst hp 31 0
  have hdst : dst < 2 ^ s * src := by
    rcases Nat.eq_or_lt_of_le hend with rfl | hs
    · exact h
    · exact hlt hs
  have hpow : 2 ^ (32 - s) * 2 ^ s = 2 ^ 32 := by
    rw [← pow_add, Nat.sub_add_cancel (by omega)]
  have hpos := Nat.two_pow_pos (32 - s)
  have hfit : 2 ^ (32 - s) * dst / src < 2 ^ 32 := by
    rw [Nat.div_lt_iff_lt_mul hp, ← hpow, mul_assoc]
    exact Nat.mul_lt_mul_of_pos_left hdst hpos
  have hwide : 2 ^ (32 - s) * dst < 2 ^ 64 :=
    calc 2 ^ (32 - s) * dst ≤ 2 ^ 32 * dst :=
          Nat.mul_le_mul_right dst (Nat.pow_le_pow_right (by omega) (by omega))
      _ < 2 ^ 32 * 2 ^ 32 := Nat.mul_lt_mul_of_pos_left hd (by decide)
  have hcalc : Multiplier.calc src dst = ⟨2 ^ (32 - s) * dst / src, s⟩ := by
    rw [Multiplier.calc, hs, ← hpow, Nat.mul_div_cancel _ (Nat.two_pow_pos s), hpow,
      Nat.mod_eq_of_lt hwide, Nat.mod_eq_of_lt hfit]
  rw [hcalc]
  refine ⟨hend, rfl, hfit, fun (hs0 : s ≠ 0) => ?_, fun v => ?_, fun v => ?_⟩
  · rw [Nat.le_div_iff_mul_le hp]
    calc 2 ^ 31 * src = 2 ^ (32 - s) * (2 ^ (s - 1) * src) := by
          rw [← mul_assoc, ← pow_add, show 32 - s + (s - 1) = 31 by omega]
      _ ≤ 2 ^ (32 - s) * dst := Nat.mul_le_mul_left _ (hge (by omega))
  · exact scaled_le hpos (Nat.div_mul_le_self _ _) (Nat.div_mul_le_self _ _)
  · exact lt_scaled hp (Nat.lt_div_mul_add hp) (Nat.lt_div_mul_add hpos)

theorem calc_exact_nanoseconds :
    (Multiplier.calc 24000000 1000000000).Exact 24000000 1000000000 :=
  calc_exact (by decide) (by decide) (by decide)

end Fiasco.FixPoint
