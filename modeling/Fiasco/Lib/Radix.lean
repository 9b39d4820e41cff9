import Mathlib

/-!
# Addresses in a table of equal slots

A table of `2 ^ sz` slots, each covering `2 ^ sh` addresses, sees only the low `sh + sz` bits of an
address: the slot number and the offset in the slot. A range of addresses meets the slots from that
of its first to that of its last address.
-/
namespace Radix

open Nat (mod_lt two_pow_pos)

def digit (sh sz a : ℕ) : ℕ := a / 2 ^ sh % 2 ^ sz

def partLo (sh sz s i : ℕ) : ℕ := if i = digit sh sz s then s else i * 2 ^ sh

def partHi (sh sz e i : ℕ) : ℕ := if i < digit sh sz e then (i + 1) * 2 ^ sh - 1 else e

variable {sh sz a s e i x : ℕ}

theorem digit_lt (sh sz a : ℕ) : digit sh sz a < 2 ^ sz := mod_lt _ (two_pow_pos sz)

theorem mod_span (sh sz a : ℕ) : a % 2 ^ (sh + sz) = digit sh sz a * 2 ^ sh + a % 2 ^ sh := by
  rw [pow_add, Nat.mod_mul, digit]
  ring

theorem slot_mod (hx : x < 2 ^ sh) : (i * 2 ^ sh + x) % 2 ^ sh = x := by
  rw [Nat.mul_add_mod_self_right, Nat.mod_eq_of_lt hx]

theorem slot_div (hx : x < 2 ^ sh) : (i * 2 ^ sh + x) / 2 ^ sh = i := by
  rw [Nat.mul_comm, Nat.mul_add_div (two_pow_pos sh), Nat.div_eq_of_lt hx, Nat.add_zero]

theorem digit_slot (hi : i < 2 ^ sz) (hx : x < 2 ^ sh) : digit sh sz (i * 2 ^ sh + x) = i := by
  rw [digit, slot_div hx, Nat.mod_eq_of_lt hi]

theorem slot_lt (hi : i < 2 ^ sz) (hx : x < 2 ^ sh) : i * 2 ^ sh + x < 2 ^ (sh + sz) := by
  have h : (i + 1) * 2 ^ sh ≤ 2 ^ sz * 2 ^ sh := Nat.mul_le_mul_right _ hi
  rw [pow_add, mul_comm (2 ^ sh)]
  calc i * 2 ^ sh + x < i * 2 ^ sh + 2 ^ sh := Nat.add_lt_add_left hx _
    _ = (i + 1) * 2 ^ sh := by ring
    _ ≤ 2 ^ sz * 2 ^ sh := h

theorem digit_mul (hi : i < 2 ^ sz) : digit sh sz (i * 2 ^ sh) = i := by
  have h : digit sh sz (i * 2 ^ sh + 0) = i := digit_slot hi (two_pow_pos sh)
  rwa [add_zero] at h

theorem slot_le_iff {j y : ℕ} (hx : x < 2 ^ sh) (hy : y < 2 ^ sh) :
    i * 2 ^ sh + x ≤ j * 2 ^ sh + y ↔ i < j ∨ i = j ∧ x ≤ y := by
  rcases lt_trichotomy i j with h | h | h
  · have hm : (i + 1) * 2 ^ sh ≤ j * 2 ^ sh := Nat.mul_le_mul_right _ h
    have hr : (i + 1) * 2 ^ sh = i * 2 ^ sh + 2 ^ sh := by ring
    exact ⟨fun _ => .inl h, fun _ => by omega⟩
  · subst h
    simp
  · have hm : (j + 1) * 2 ^ sh ≤ i * 2 ^ sh := Nat.mul_le_mul_right _ h
    have hr : (j + 1) * 2 ^ sh = j * 2 ^ sh + 2 ^ sh := by ring
    exact ⟨fun hle => by omega, fun hc => by omega⟩

theorem partLo_mod : partLo sh sz s i % 2 ^ sh = if i = digit sh sz s then s % 2 ^ sh else 0 := by
  unfold partLo
  split
  · rfl
  · exact Nat.mul_mod_left i (2 ^ sh)

theorem partHi_mod :
    partHi sh sz e i % 2 ^ sh = if i < digit sh sz e then 2 ^ sh - 1 else e % 2 ^ sh := by
  unfold partHi
  split
  · have hp := two_pow_pos sh
    have h : (i + 1) * 2 ^ sh - 1 = i * 2 ^ sh + (2 ^ sh - 1) := by
      have hr : (i + 1) * 2 ^ sh = i * 2 ^ sh + 2 ^ sh := by ring
      omega
    rw [h, slot_mod (by omega)]
  · rfl

theorem mem_range_iff (hx : x < 2 ^ sh) :
    (s % 2 ^ (sh + sz) ≤ i * 2 ^ sh + x ∧ i * 2 ^ sh + x ≤ e % 2 ^ (sh + sz)) ↔
      (digit sh sz s ≤ i ∧ i ≤ digit sh sz e) ∧
        partLo sh sz s i % 2 ^ sh ≤ x ∧ x ≤ partHi sh sz e i % 2 ^ sh := by
  have hs := mod_lt s (two_pow_pos sh)
  have he := mod_lt e (two_pow_pos sh)
  rw [mod_span, mod_span, slot_le_iff hs hx, slot_le_iff hx he, partLo_mod, partHi_mod]
  split_ifs <;> omega

theorem part_le (h : s % 2 ^ (sh + sz) ≤ e % 2 ^ (sh + sz)) (hi : i ≤ digit sh sz e) :
    partLo sh sz s i % 2 ^ sh ≤ partHi sh sz e i % 2 ^ sh := by
  have hs := mod_lt s (two_pow_pos sh)
  have he := mod_lt e (two_pow_pos sh)
  rw [mod_span, mod_span, slot_le_iff hs he] at h
  rw [partLo_mod, partHi_mod]
  split_ifs <;> omega

theorem digit_le (h : s % 2 ^ (sh + sz) ≤ e % 2 ^ (sh + sz)) : digit sh sz s ≤ digit sh sz e := by
  rw [mod_span, mod_span, slot_le_iff (mod_lt s (two_pow_pos sh)) (mod_lt e (two_pow_pos sh))] at h
  omega

end Radix
