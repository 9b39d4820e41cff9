import Fiasco.Lib.Dyadic

/-!
# Tilings with aligned blocks

A block of order `o` has `2 ^ o` elements and starts at a multiple of its size. A list of blocks
that do not meet is a tiling of what they cover. A block can be replaced by its two halves, and
these by the block.
-/
namespace Tiling

open Nat List

structure Block where
  start : ℕ
  order : ℕ
deriving DecidableEq

namespace Block

def size (b : Block) : ℕ := 2 ^ b.order

def Has (b : Block) (x : ℕ) : Prop := b.start ≤ x ∧ x < b.start + b.size

def lower (b : Block) : ℕ := b.start / 2 ^ (b.order + 1) * 2 ^ (b.order + 1)

def buddy (b : Block) : ℕ := if b.lower = b.start then b.lower + b.size else b.lower

theorem size_pos (b : Block) : 0 < b.size := Nat.two_pow_pos b.order

theorem has_start (b : Block) : b.Has b.start := ⟨le_rfl, Nat.lt_add_of_pos_right b.size_pos⟩

end Block

def Apart (b c : Block) : Prop := b.start + b.size ≤ c.start ∨ c.start + c.size ≤ b.start

variable {b c : Block} {bs : List Block}

theorem Apart.symm (h : Apart b c) : Apart c b := Or.symm h

instance : Std.Symm Apart := ⟨fun _ _ => Apart.symm⟩

open Block

theorem apart_iff : Apart b c ↔ ∀ x, b.Has x → ¬ c.Has x := by
  have hb := b.size_pos
  have hc := c.size_pos
  simp only [Apart, Has]
  constructor
  · intro h x hx hx'
    omega
  · intro h
    by_contra hmeet
    have h₁ := h b.start
    have h₂ := h c.start
    omega

def Covers (bs : List Block) (x : ℕ) : Prop := ∃ b ∈ bs, b.Has x

def bytes (bs : List Block) : ℕ := (bs.map Block.size).sum

theorem bytes_cons (b : Block) (bs : List Block) : bytes (b :: bs) = b.size + bytes bs := rfl

theorem bytes_append (bs cs : List Block) : bytes (bs ++ cs) = bytes bs + bytes cs := by
  rw [bytes, map_append, sum_append_nat]
  rfl

structure Tiled (bs : List Block) : Prop where
  aligned : ∀ b ∈ bs, b.size ∣ b.start
  apart : bs.Pairwise Apart

theorem covers_cons {x : ℕ} : Covers (b :: bs) x ↔ b.Has x ∨ Covers bs x := by
  simp only [Covers, mem_cons, exists_eq_or_imp]

theorem tiled_nil : Tiled [] := ⟨fun _ hb => (not_mem_nil hb).elim, .nil⟩

theorem tiled_cons :
    Tiled (b :: bs) ↔ b.size ∣ b.start ∧ Tiled bs ∧ ∀ x, b.Has x → ¬ Covers bs x := by
  constructor
  · rintro ⟨ha, hp⟩
    rw [forall_mem_cons] at ha
    rw [pairwise_cons] at hp
    refine ⟨ha.1, ⟨ha.2, hp.2⟩, ?_⟩
    rintro x hx ⟨c, hc, hxc⟩
    exact apart_iff.mp (hp.1 c hc) x hx hxc
  · rintro ⟨ha, ht, hx⟩
    refine ⟨forall_mem_cons.mpr ⟨ha, ht.aligned⟩, pairwise_cons.mpr ⟨fun c hc => ?_, ht.apart⟩⟩
    exact apart_iff.mpr fun x hb hxc => hx x hb ⟨c, hc, hxc⟩

theorem Tiled.eq_of_start (h : Tiled bs) (hb : b ∈ bs) (hc : c ∈ bs) (heq : b.start = c.start) :
    b = c := by
  by_contra hne
  have hapart := h.apart.forall hb hc hne
  refine apart_iff.mp hapart b.start b.has_start ?_
  rw [heq]
  exact c.has_start

structure Retiled (bs cs : List Block) : Prop where
  tiled : Tiled bs ↔ Tiled cs
  covers : ∀ x, Covers bs x ↔ Covers cs x
  bytes : bytes bs = bytes cs

section Retiled

variable {bs cs ds : List Block} {a o k : ℕ}

theorem Retiled.refl (bs : List Block) : Retiled bs bs := ⟨.rfl, fun _ => .rfl, rfl⟩

theorem Retiled.symm (h : Retiled bs cs) : Retiled cs bs :=
  ⟨h.tiled.symm, fun x => (h.covers x).symm, h.bytes.symm⟩

theorem Retiled.trans (h : Retiled bs cs) (h' : Retiled cs ds) : Retiled bs ds :=
  ⟨h.tiled.trans h'.tiled, fun x => (h.covers x).trans (h'.covers x), h.bytes.trans h'.bytes⟩

theorem Retiled.of_perm (h : bs.Perm cs) : Retiled bs cs := by
  have htiled : ∀ {bs cs : List Block}, bs.Perm cs → Tiled bs → Tiled cs := fun h ht =>
    ⟨fun b hb => ht.aligned b (h.mem_iff.mpr hb), ht.apart.perm h Apart.symm⟩
  refine ⟨⟨htiled h, htiled h.symm⟩, fun x => ?_, (h.map _).sum_eq⟩
  simp only [Covers, h.mem_iff]

theorem Retiled.halve {a o : ℕ} (h : 2 ^ (o + 1) ∣ a) (bs : List Block) :
    Retiled (⟨a, o + 1⟩ :: bs) (⟨a, o⟩ :: ⟨a + 2 ^ o, o⟩ :: bs) := by
  have hpow : 2 ^ (o + 1) = 2 ^ o + 2 ^ o := by rw [pow_succ, mul_two]
  have hhas : ∀ x, Has ⟨a, o + 1⟩ x ↔ Has ⟨a, o⟩ x ∨ Has ⟨a + 2 ^ o, o⟩ x := by
    intro x
    simp only [Has, Block.size, hpow]
    omega
  have hdvd : 2 ^ o ∣ a := (pow_dvd_pow 2 (le_succ o)).trans h
  refine ⟨?_, fun x => ?_, ?_⟩
  · simp only [tiled_cons, covers_cons, hhas]
    constructor
    · rintro ⟨-, ht, hx⟩
      refine ⟨hdvd, ⟨Nat.dvd_add hdvd (Nat.dvd_refl _), ht, fun x hx' => hx x (.inr hx')⟩, ?_⟩
      rintro x hx' (hc | hc)
      · simp only [Has, Block.size] at hx' hc
        omega
      · exact hx x (.inl hx') hc
    · rintro ⟨-, ⟨-, ht, hx⟩, hx'⟩
      refine ⟨h, ht, ?_⟩
      rintro x (hc | hc)
      · exact fun hcov => hx' x hc (.inr hcov)
      · exact hx x hc
  · rw [covers_cons, covers_cons, covers_cons, hhas, or_assoc]
  · simp only [bytes_cons, Block.size, hpow]
    omega

def halves (a : ℕ) : ℕ → ℕ → List Block
  | _, 0 => []
  | o, k + 1 => ⟨a + 2 ^ o, o⟩ :: halves a (o + 1) k

theorem mem_halves {b : Block} : b ∈ halves a o k ↔ ∃ i < k, b = ⟨a + 2 ^ (o + i), o + i⟩ := by
  induction k generalizing o with
  | zero => simp [halves]
  | succ k ih =>
    rw [halves, mem_cons, ih]
    constructor
    · rintro (rfl | ⟨i, hi, rfl⟩)
      · exact ⟨0, by omega, rfl⟩
      · exact ⟨i + 1, by omega, by rw [add_right_comm, add_assoc]⟩
    · rintro ⟨i, hi, rfl⟩
      cases i with
      | zero => exact .inl rfl
      | succ i => exact .inr ⟨i, by omega, by rw [add_right_comm, add_assoc]⟩

theorem Retiled.halves (h : 2 ^ (o + k) ∣ a) (bs : List Block) :
    Retiled (⟨a, o + k⟩ :: bs) (⟨a, o⟩ :: (halves a o k ++ bs)) := by
  induction k generalizing o with
  | zero => exact .refl _
  | succ k ih =>
    have horder : o + (k + 1) = o + 1 + k := by omega
    rw [horder] at h ⊢
    have hdvd : 2 ^ (o + 1) ∣ a := (pow_dvd_pow 2 (le_add_right _ _)).trans h
    exact (ih h).trans (Retiled.halve hdvd _)

end Retiled

section Buddy

variable {b c : Block}

theorem next_size (b : Block) : 2 ^ (b.order + 1) = b.size + b.size := by
  rw [pow_succ, mul_two, Block.size]

theorem lower_le (b : Block) : b.lower ≤ b.start := div_mul_le_self _ _

theorem dvd_lower (b : Block) : 2 ^ (b.order + 1) ∣ b.lower := dvd_mul_left _ _

section

variable (h : b.size ∣ b.start)
include h

theorem lower_cases :
    (b.start = b.lower ∧ b.buddy = b.lower + b.size) ∨
      (b.start = b.lower + b.size ∧ b.buddy = b.lower) := by
  rw [buddy]
  split_ifs with hl
  · exact .inl ⟨hl.symm, rfl⟩
  · refine .inr ⟨?_, rfl⟩
    have hpow := next_size b
    have hle := lower_le b
    have hdvd : b.size ∣ b.lower := (pow_dvd_pow 2 (le_succ _)).trans (dvd_lower b)
    have hgt : b.start < b.lower + (b.size + b.size) := by
      rw [← hpow, lower, ← Nat.succ_mul, ← Nat.div_lt_iff_lt_mul (Nat.two_pow_pos _)]
      exact lt_succ_self _
    have hup := Dyadic.add_le_of_dvd_of_lt hdvd h (lt_of_le_of_ne hle hl)
    by_contra hne
    have hup' := Dyadic.add_le_of_dvd_of_lt (Nat.dvd_add hdvd (Nat.dvd_refl _)) h
      (lt_of_le_of_ne hup fun hc => hne hc.symm)
    omega

theorem not_has_buddy : ¬ b.Has b.buddy := by
  rintro ⟨h₁, h₂⟩
  rcases lower_cases h with ⟨hs, hb⟩ | ⟨hs, hb⟩ <;> omega

theorem lower_le_buddy : b.lower ≤ b.buddy := by
  rcases lower_cases h with ⟨-, hb⟩ | ⟨-, hb⟩ <;> omega

theorem dvd_buddy : b.size ∣ b.buddy := by
  have hdvd : b.size ∣ b.lower := (pow_dvd_pow 2 (le_succ _)).trans (dvd_lower b)
  rcases lower_cases h with ⟨-, hb⟩ | ⟨-, hb⟩
  · rw [hb]
    exact Nat.dvd_add hdvd (Nat.dvd_refl _)
  · rwa [hb]

end

theorem lower_of_add {a o : ℕ} (h : 2 ^ (o + 1) ∣ a) {r : ℕ} (hr : r < 2 ^ (o + 1)) :
    lower ⟨a + r, o⟩ = a := by
  obtain ⟨q, rfl⟩ := h
  rw [lower, Nat.mul_add_div (Nat.two_pow_pos _), Nat.div_eq_of_lt hr, Nat.add_zero,
    Nat.mul_comm]

theorem buddy_buddy (h : b.size ∣ b.start) : buddy ⟨b.buddy, b.order⟩ = b.start := by
  have hpos := b.size_pos
  have hpow := next_size b
  rcases lower_cases h with ⟨hs, hb⟩ | ⟨hs, hb⟩
  · have hl : lower ⟨b.lower + b.size, b.order⟩ = b.lower :=
      lower_of_add (dvd_lower b) (by omega)
    rw [hb, buddy, hl, if_neg (by change b.lower ≠ b.lower + b.size; omega), hs]
  · have hl : lower ⟨b.lower, b.order⟩ = b.lower :=
      lower_of_add (r := 0) (dvd_lower b) (by omega)
    rw [hb, buddy, hl, if_pos rfl, hs]
    rfl

theorem Retiled.merge (h : b.size ∣ b.start) (bs : List Block) :
    Retiled (b :: ⟨b.buddy, b.order⟩ :: bs) (⟨b.lower, b.order + 1⟩ :: bs) := by
  obtain ⟨a, o⟩ := b
  have hhalve := (Retiled.halve (dvd_lower ⟨a, o⟩) bs).symm
  rcases lower_cases h with ⟨hs, hb⟩ | ⟨hs, hb⟩
  · rw [hb]
    change a = _ at hs
    nth_rewrite 1 [hs]
    exact hhalve
  · rw [hb]
    change a = _ at hs
    nth_rewrite 1 [hs]
    exact (Retiled.of_perm (.swap ..)).trans hhalve

theorem Tiled.start_eq_buddy {bs : List Block} (h : Tiled (b :: bs)) (hc : c ∈ bs)
    (hx : c.Has b.buddy) : c.start = b.buddy ∧ c.order ≤ b.order := by
  obtain ⟨hb, ht, hout⟩ := tiled_cons.mp h
  have hca := ht.aligned c hc
  have hord : c.order ≤ b.order := by
    by_contra hlt
    -- a larger block that has the buddy has the block itself
    have hdvd : 2 ^ (b.order + 1) ∣ c.size := pow_dvd_pow 2 (by omega)
    have hpow := next_size b
    obtain ⟨hx₁, hx₂⟩ := hx
    have hfirst : c.start ≤ b.lower := by
      by_contra hgt
      have hle := Dyadic.add_le_of_dvd_of_lt (dvd_lower b) (hdvd.trans hca) (not_le.mp hgt)
      rcases lower_cases hb with ⟨-, hbud⟩ | ⟨-, hbud⟩ <;> omega
    have hlast : b.lower + 2 ^ (b.order + 1) ≤ c.start + c.size := by
      apply Dyadic.add_le_of_dvd_of_lt (dvd_lower b) (Nat.dvd_add (hdvd.trans hca) hdvd)
      rcases lower_cases hb with ⟨-, hbud⟩ | ⟨-, hbud⟩ <;> omega
    refine hout b.start b.has_start ⟨c, hc, ?_⟩
    constructor <;> rcases lower_cases hb with ⟨hs, -⟩ | ⟨hs, -⟩ <;> omega
  refine ⟨?_, hord⟩
  have hdvd : c.size ∣ b.buddy := (pow_dvd_pow 2 hord).trans (dvd_buddy hb)
  by_contra hne
  have hle := Dyadic.add_le_of_dvd_of_lt hca hdvd (lt_of_le_of_ne hx.1 hne)
  have := hx.2
  omega

end Buddy

end Tiling
