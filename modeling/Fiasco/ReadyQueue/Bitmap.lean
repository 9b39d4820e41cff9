import Mathlib

/-!
# The hierarchical bitmap

A bitmap of words, and one word with a bit for each of them that is not zero. So the highest bit that
is set is found without a loop.
-/
namespace Fiasco.ReadyQueueFp

open Nat Function
open Bool

/-- The width of `Mword`; one word is enough for the bits of the words of a bitmap with 256 bits. -/
structure Mword where
  bits : ℕ
  depth : 256 ≤ 32 * bits

variable {w : Mword}

theorem Mword.pos (w : Mword) : 0 < w.bits := by
  have h := w.depth
  omega

theorem Mword.word_lt (w : Mword) {i : ℕ} (hi : i < 256) : i / w.bits < 32 := by
  have h := w.depth
  rw [div_lt_iff_lt_mul w.pos]
  omega

structure HierarchicalBitmap (w : Mword) where
  root : BitVec 32
  leaves : ℕ → BitVec w.bits

namespace HierarchicalBitmap

def empty : HierarchicalBitmap w := ⟨0#32, fun _ => 0#w.bits⟩

section

variable (b : HierarchicalBitmap w)

def clear (bit : ℕ) : HierarchicalBitmap w :=
  let leaf := b.leaves (bit / w.bits) &&& ~~~(1#w.bits <<< (bit % w.bits))
  { root := if leaf = 0#w.bits then b.root &&& ~~~(1#32 <<< (bit / w.bits)) else b.root
    leaves := update b.leaves (bit / w.bits) leaf }

def set (bit : ℕ) : HierarchicalBitmap w :=
  { root := b.root ||| (1#32 <<< (bit / w.bits))
    leaves := update b.leaves (bit / w.bits)
      (b.leaves (bit / w.bits) ||| (1#w.bits <<< (bit % w.bits))) }

def findHighestBit : ℕ :=
  if b.root = 0#32 then 0
  else
    let word := b.root.toNat.log2
    word * w.bits + (b.leaves word).toNat.log2

def mem (i : ℕ) : Bool := (b.leaves (i / w.bits)).getLsbD (i % w.bits)

end

end HierarchicalBitmap

section Words

variable {n : ℕ} {x : BitVec n} {b j : ℕ}

open BitVec

theorem getLsbD_setBit (hj : j < n) :
    (x ||| (1#n <<< b)).getLsbD j = (x.getLsbD j || decide (j = b)) := by
  rw [← twoPow_eq, getLsbD_or, getLsbD_twoPow]
  by_cases hb : j = b
  · simp [← hb, hj]
  · simp [hb, Ne.symm hb]

theorem getLsbD_clearBit (hj : j < n) :
    (x &&& ~~~(1#n <<< b)).getLsbD j = (x.getLsbD j && !decide (j = b)) := by
  rw [← twoPow_eq, getLsbD_and, getLsbD_not, getLsbD_twoPow]
  by_cases hb : j = b
  · simp [← hb, hj]
  · simp [hb, Ne.symm hb, hj]

theorem ne_zero_iff_bit : x ≠ 0#n ↔ ∃ j < n, x.getLsbD j = true := by
  constructor
  · intro h
    by_contra hnone
    refine h (eq_of_getLsbD_eq fun j hj => ?_)
    rw [getLsbD_zero]
    exact eq_false_iff.mpr fun hbit => hnone ⟨j, hj, hbit⟩
  · rintro ⟨j, -, hbit⟩ rfl
    rw [getLsbD_zero] at hbit
    cases hbit

theorem getLsbD_log2 (h : x ≠ 0#n) : x.getLsbD x.toNat.log2 = true := by
  have hne : x.toNat ≠ 0 := fun heq => h (eq_of_toNat_eq heq)
  rw [← testBit_toNat]
  exact testBit_log2 hne

theorem le_log2_of_getLsbD (h : x.getLsbD j = true) : j ≤ x.toNat.log2 := by
  rw [← testBit_toNat] at h
  have hpow := ge_two_pow_of_testBit h
  have hne : x.toNat ≠ 0 := by
    have hpos := Nat.two_pow_pos j
    omega
  exact (le_log2 hne).mpr hpow

end Words

structure Represents (b : HierarchicalBitmap w) (S : ℕ → Prop) : Prop where
  leaf : ∀ k < 32, ∀ j < w.bits, (b.leaves k).getLsbD j = true ↔ S (k * w.bits + j)
  root : ∀ k < 32, b.root.getLsbD k = true ↔ b.leaves k ≠ 0#w.bits

section Represents

variable {b : HierarchicalBitmap w} {S : ℕ → Prop} {i : ℕ}

theorem represents_empty : Represents (HierarchicalBitmap.empty : HierarchicalBitmap w) fun _ => False := by
  constructor
  · intro k _ j _
    change (0#w.bits).getLsbD j = true ↔ False
    rw [BitVec.getLsbD_zero]
    exact iff_of_false false_ne_true id
  · intro k _
    change (0#32).getLsbD k = true ↔ 0#w.bits ≠ 0#w.bits
    rw [BitVec.getLsbD_zero]
    exact iff_of_false false_ne_true fun h => h rfl

theorem eq_iff_word {k j : ℕ} (hj : j < w.bits) :
    k * w.bits + j = i ↔ k = i / w.bits ∧ j = i % w.bits := by
  constructor
  · rintro rfl
    rw [mul_comm, mul_add_div w.pos, mul_add_mod, div_eq_of_lt hj, mod_eq_of_lt hj]
    exact ⟨rfl, rfl⟩
  · rintro ⟨rfl, rfl⟩
    rw [mul_comm]
    exact div_add_mod i w.bits

theorem Represents.set (h : Represents b S) (i : ℕ) :
    Represents (b.set i) fun n => S n ∨ n = i := by
  have hleaf : ∀ k < 32, ∀ j < w.bits, ((b.set i).leaves k).getLsbD j = true ↔
      S (k * w.bits + j) ∨ k * w.bits + j = i := by
    intro k hk j hj
    rw [eq_iff_word hj, ← h.leaf k hk j hj]
    change BitVec.getLsbD (update b.leaves (i / w.bits) _ k) j = true ↔ _
    by_cases hki : k = i / w.bits
    · rw [hki, update_self, getLsbD_setBit hj, or_eq_true, decide_eq_true_iff, and_iff_right rfl]
    · rw [update_of_ne hki]
      exact ⟨.inl, fun h => h.resolve_right fun hc => hki hc.1⟩
  refine ⟨hleaf, fun k hk => ?_⟩
  change (b.root ||| (1#32 <<< (i / w.bits))).getLsbD k = true ↔ _
  rw [getLsbD_setBit hk, or_eq_true, decide_eq_true_iff, h.root k hk]
  by_cases hki : k = i / w.bits
  · refine iff_of_true (.inr hki) (ne_zero_iff_bit.mpr ⟨i % w.bits, mod_lt i w.pos, ?_⟩)
    refine (hleaf k hk _ (mod_lt i w.pos)).mpr (.inr ?_)
    rw [hki, mul_comm, div_add_mod]
  · change _ ↔ update b.leaves (i / w.bits) _ k ≠ 0#w.bits
    rw [update_of_ne hki, or_iff_left hki]

theorem Represents.clear (h : Represents b S) (i : ℕ) :
    Represents (b.clear i) fun n => S n ∧ n ≠ i := by
  have hleaf : ∀ k < 32, ∀ j < w.bits, ((b.clear i).leaves k).getLsbD j = true ↔
      S (k * w.bits + j) ∧ k * w.bits + j ≠ i := by
    intro k hk j hj
    rw [ne_eq, eq_iff_word hj, ← h.leaf k hk j hj]
    change BitVec.getLsbD (update b.leaves (i / w.bits) _ k) j = true ↔ _
    by_cases hki : k = i / w.bits
    · rw [hki, update_self, getLsbD_clearBit hj, and_eq_true, not_eq_true',
        decide_eq_false_iff_not, and_iff_right rfl]
    · rw [update_of_ne hki]
      exact ⟨fun h => ⟨h, fun hc => hki hc.1⟩, And.left⟩
  refine ⟨hleaf, fun k hk => ?_⟩
  by_cases hki : k = i / w.bits
  · have hself : (b.clear i).leaves k = b.leaves (i / w.bits) &&& ~~~(1#w.bits <<< (i % w.bits)) := by
      rw [hki]
      exact update_self ..
    rw [hself]
    change (if _ = 0#w.bits then _ else _ : BitVec 32).getLsbD k = true ↔ _
    split_ifs with hzero
    · rw [getLsbD_clearBit hk, and_eq_true, not_eq_true', decide_eq_false_iff_not]
      exact iff_of_false (fun hc => hc.2 hki) (not_not.mpr hzero)
    · rw [h.root k hk, hki]
      refine iff_of_true (fun hc => hzero ?_) hzero
      rw [hc, BitVec.zero_and]
  · have hother : (b.clear i).leaves k = b.leaves k := update_of_ne hki ..
    rw [hother, ← h.root k hk]
    change (if _ = 0#w.bits then _ else _ : BitVec 32).getLsbD k = true ↔ _
    split_ifs
    · rw [getLsbD_clearBit hk, and_eq_true, not_eq_true', decide_eq_false_iff_not, and_iff_left hki]
    · exact .rfl

theorem Represents.findHighestBit (h : Represents b S) (hS : ∀ n, S n → n < 256) :
    (∀ n, S n → n ≤ b.findHighestBit) ∧ ((∃ n, S n) → S b.findHighestBit) ∧
      ((¬ ∃ n, S n) → b.findHighestBit = 0) := by
  have hword {n : ℕ} (hn : S n) : b.leaves (n / w.bits) ≠ 0#w.bits := by
    refine ne_zero_iff_bit.mpr ⟨n % w.bits, mod_lt n w.pos, ?_⟩
    rw [h.leaf _ (w.word_lt (hS n hn)) _ (mod_lt n w.pos), mul_comm, div_add_mod]
    exact hn
  by_cases hroot : b.root = 0#32
  · have hnone {n : ℕ} (hn : S n) : False := by
      have hbit := (h.root _ (w.word_lt (hS n hn))).mpr (hword hn)
      rw [hroot, BitVec.getLsbD_zero] at hbit
      cases hbit
    rw [HierarchicalBitmap.findHighestBit, if_pos hroot]
    exact ⟨fun n hn => (hnone hn).elim, fun ⟨n, hn⟩ => (hnone hn).elim, fun _ => rfl⟩
  · have hfind : b.findHighestBit =
        b.root.toNat.log2 * w.bits + (b.leaves b.root.toNat.log2).toNat.log2 := if_neg hroot
    rw [hfind]
    generalize hk : b.root.toNat.log2 = k
    have hbit : b.root.getLsbD k = true := hk ▸ getLsbD_log2 hroot
    have hk32 : k < 32 := BitVec.lt_of_getLsbD hbit
    have hleaf : b.leaves k ≠ 0#w.bits := (h.root k hk32).mp hbit
    generalize hj : (b.leaves k).toNat.log2 = j
    have hleafbit : (b.leaves k).getLsbD j = true := hj ▸ getLsbD_log2 hleaf
    have hjw : j < w.bits := BitVec.lt_of_getLsbD hleafbit
    have hmem : S (k * w.bits + j) := (h.leaf k hk32 j hjw).mp hleafbit
    refine ⟨fun n hn => ?_, fun _ => hmem, fun hnone => (hnone ⟨_, hmem⟩).elim⟩
    have hnk : n / w.bits ≤ k := by
      rw [← hk]
      exact le_log2_of_getLsbD ((h.root _ (w.word_lt (hS n hn))).mpr (hword hn))
    have hn' := div_add_mod n w.bits
    rcases hnk.lt_or_eq with hlt | heq
    · -- in a lower word
      have hle : (n / w.bits + 1) * w.bits ≤ k * w.bits := mul_le_mul_right _ hlt
      have hmod := mod_lt n w.pos
      rw [add_mul, one_mul, mul_comm (n / w.bits)] at hle
      omega
    · have hnj : n % w.bits ≤ j := by
        rw [← hj]
        apply le_log2_of_getLsbD
        rw [h.leaf k hk32 _ (mod_lt n w.pos), ← heq, mul_comm, hn']
        exact hn
      rw [heq, mul_comm] at hn'
      omega

end Represents

end Fiasco.ReadyQueueFp
