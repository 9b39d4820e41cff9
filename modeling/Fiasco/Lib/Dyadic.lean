import Mathlib

/-!
# Aligned blocks of power-of-two size

A block of order `o` starts at a multiple of `2 ^ o` and has `2 ^ o` elements. Two
blocks are nested or disjoint; the lemmas here are the arithmetic behind that.
-/
namespace Dyadic

variable {s : ℕ} {k : ℕ} {o lo hi : ℕ} {v : ℕ}

theorem two_pow_split {ps : ℕ} (h : s ≤ ps) : 2 ^ (ps - s) * 2 ^ s = 2 ^ ps := by
  rw [← pow_add, Nat.sub_add_cancel h]

theorem add_le_of_dvd_of_lt {m a b : ℕ} (ha : m ∣ a) (hb : m ∣ b) (h : a < b) : a + m ≤ b := by
  obtain ⟨x, rfl⟩ := ha
  obtain ⟨y, rfl⟩ := hb
  have hxy : x < y := lt_of_mul_lt_mul_left h (Nat.zero_le m)
  calc m * x + m = m * (x + 1) := by ring
    _ ≤ m * y := Nat.mul_le_mul_left m hxy

theorem page_le {ps : ℕ} (h : s ≤ ps) (hk : k < 2 ^ (ps - s)) : k * 2 ^ s + 2 ^ s ≤ 2 ^ ps := by
  calc k * 2 ^ s + 2 ^ s = (k + 1) * 2 ^ s := by ring
    _ ≤ 2 ^ (ps - s) * 2 ^ s := Nat.mul_le_mul_right _ hk
    _ = 2 ^ ps := two_pow_split h

structure IsBlock (o lo hi : ℕ) : Prop where
  dvd : 2 ^ o ∣ lo
  size : hi = lo + 2 ^ o

section

variable (h : IsBlock o lo hi)
include h

theorem IsBlock.lt : lo < hi := by
  have := Nat.two_pow_pos o
  rw [h.size]
  omega

theorem IsBlock.dvd_hi : 2 ^ o ∣ hi :=
  h.size ▸ Nat.dvd_add h.dvd (Nat.dvd_refl _)

theorem IsBlock.covers (hs : s ≤ o) (h₁ : lo < k * 2 ^ s + 2 ^ s)
    (h₂ : k * 2 ^ s < hi) : lo ≤ k * 2 ^ s ∧ k * 2 ^ s + 2 ^ s ≤ hi := by
  have hd : 2 ^ s ∣ 2 ^ o := pow_dvd_pow 2 hs
  have hk : 2 ^ s ∣ k * 2 ^ s := dvd_mul_left _ _
  constructor
  · by_contra hc
    have := add_le_of_dvd_of_lt hk (hd.trans h.dvd) (not_le.mp hc)
    omega
  · exact add_le_of_dvd_of_lt hk (hd.trans h.dvd_hi) h₂

theorem IsBlock.inside (hs : o ≤ s) (h₁ : lo < k * 2 ^ s + 2 ^ s)
    (h₂ : k * 2 ^ s < hi) : k * 2 ^ s ≤ lo ∧ hi ≤ k * 2 ^ s + 2 ^ s := by
  have hd : 2 ^ o ∣ 2 ^ s := pow_dvd_pow 2 hs
  have hk : 2 ^ o ∣ k * 2 ^ s := Nat.dvd_mul_left_of_dvd hd k
  have hsize := h.size
  constructor
  · by_contra hc
    have := add_le_of_dvd_of_lt h.dvd hk (not_le.mp hc)
    omega
  · have := add_le_of_dvd_of_lt h.dvd (Nat.dvd_add hk hd) h₁
    omega

theorem IsBlock.sub (hs : o ≤ s) (hk : k * 2 ^ s ≤ lo) :
    IsBlock o (lo - k * 2 ^ s) (hi - k * 2 ^ s) where
  dvd := Nat.dvd_sub h.dvd (Nat.dvd_mul_left_of_dvd (Nat.pow_dvd_pow 2 hs) k)
  size := by
    rw [h.size, Nat.sub_add_comm hk]

end

theorem add_page_le_of_lt_div (h : k < v / 2 ^ s) : k * 2 ^ s + 2 ^ s ≤ v := by
  have h1 : (k + 1) * 2 ^ s ≤ v / 2 ^ s * 2 ^ s := Nat.mul_le_mul_right _ h
  have h2 := Nat.div_mul_le_self v (2 ^ s)
  calc k * 2 ^ s + 2 ^ s = (k + 1) * 2 ^ s := by ring
    _ ≤ v := h1.trans h2

theorem lt_add_page_of_div_le (h : v / 2 ^ s ≤ k) : v < k * 2 ^ s + 2 ^ s := by
  have hlt : v < (k + 1) * 2 ^ s := (Nat.div_lt_iff_lt_mul (Nat.two_pow_pos s)).mp (by omega)
  calc v < (k + 1) * 2 ^ s := hlt
    _ = k * 2 ^ s + 2 ^ s := by ring

theorem round_le_iff : (v + (2 ^ s - 1)) / 2 ^ s ≤ k ↔ v ≤ k * 2 ^ s := by
  have hpos := Nat.two_pow_pos s
  rw [← Nat.lt_succ_iff, Nat.div_lt_iff_lt_mul hpos, Nat.succ_mul]
  omega

end Dyadic
