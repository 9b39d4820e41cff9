import Fiasco.Ptab.Walk

/-!
# What `unmap` does to a hierarchy

The loop of a level first sweeps the entries of its range. If the last of them does not refer to a
table, the end test is passed over and the loop goes on to the next entry that does, wherever that
is (`Ends`), and calls itself there once more, up to the same end.
-/
namespace Fiasco.Ptab

open Nat Function

variable {P : Type} {t : Table P}

inductive Clears : Entry P → Entry P → Prop
  | refl (e : Entry P) : Clears e e
  | clear (e : Entry P) : Clears e .invalid
  | next {t t' : Table P} (h : ∀ i, Clears (t i) (t' i)) : Clears (.next t) (.next t')

theorem Clears.antisymm {e : Entry P} : ∀ {e' : Entry P}, Clears e e' → Clears e' e → e = e' := by
  induction e with
  | invalid =>
    intro e' h _
    cases h <;> rfl
  | leaf p =>
    intro e' h h'
    cases h with
    | refl => rfl
    | clear => cases h'
  | next t ih =>
    intro e' h h'
    cases h with
    | refl => rfl
    | clear => cases h'
    | next h =>
      cases h' with
      | refl => rfl
      | next h' => exact congrArg Entry.next (funext fun i => ih i (h i) (h' i))

theorem Clears.trans {a : Entry P} : ∀ {b c : Entry P}, Clears a b → Clears b c → Clears a c := by
  induction a with
  | invalid =>
    intro b c h h'
    cases h <;> exact h'
  | leaf p =>
    intro b c h h'
    cases h with
    | refl => exact h'
    | clear => cases h' <;> exact .clear _
  | next t ih =>
    intro b c h h'
    cases h with
    | refl => exact h'
    | clear => cases h' <;> exact .clear _
    | next h =>
      cases h' with
      | refl => exact .next h
      | clear => exact .clear _
      | next h' => exact .next fun i => ih i (h i) (h' i)

namespace Ldesc

def lo (d : Ldesc) (s i : ℕ) : ℕ := Radix.partLo d.shift d.size s i

def hi (d : Ldesc) (e i : ℕ) : ℕ := Radix.partHi d.shift d.size e i

theorem lo_index (d : Ldesc) (s : ℕ) : d.lo s (d.index s) = s := if_pos rfl

theorem lo_of_lt {d : Ldesc} {s i : ℕ} (h : d.index s < i) : d.lo s i = i * 2 ^ d.shift :=
  if_neg (ne_of_gt h)

theorem hi_of_le {d : Ldesc} {e i : ℕ} (h : d.index e ≤ i) : d.hi e i = e :=
  if_neg (not_lt.mpr h)

end Ldesc

structure Ends (w : Walker) (d : Ldesc) (t : Table P) (i j k : ℕ) : Prop where
  le : i ≤ j
  slot : w.slot d j = some k
  next : (t k).isNext = true
  before : ∀ m, i ≤ m → m < j → ∃ k', w.slot d m = some k' ∧ (t k').isNext = false

variable {w : Walker} {d : Ldesc} {i j k : ℕ}

theorem Ends.unique {i j k j' k' : ℕ} (h : Ends w d t i j k) (h' : Ends w d t i j' k') :
    j = j' ∧ k = k' := by
  have key : ∀ {j k j' k' : ℕ}, Ends w d t i j k → Ends w d t i j' k' → j' ≤ j := by
    intro j k j' k' h h'
    by_contra hlt
    obtain ⟨m, hm, hn⟩ := h'.before j h.le (by omega)
    rw [h.slot] at hm
    cases hm
    rw [h.next] at hn
    cases hn
  have hj : j = j' := le_antisymm (key h' h) (key h h')
  subst hj
  exact ⟨rfl, Option.some.inj (h.slot.symm.trans h'.slot)⟩

theorem Ends.lt (h : Ends w d t i j k) : j < i + d.length := by
  obtain ⟨m, him, hm, hk⟩ := w.slot_round d i j k h.le h.slot
  by_contra hj
  obtain ⟨k', hk', hn⟩ := h.before m him (by omega)
  rw [hk] at hk'
  cases hk'
  rw [h.next] at hn
  cases hn

theorem Ends.congr {t' : Table P} (h : Ends w d t i j k)
    (ht : ∀ m, (t' m).isNext = (t m).isNext) : Ends w d t' i j k where
  le := h.le
  slot := h.slot
  next := (ht k).trans h.next
  before m hi hj := by
    obtain ⟨k', hk, hn⟩ := h.before m hi hj
    exact ⟨k', hk, (ht k').trans hn⟩

section Loop

variable {w : Walker} {d : Ldesc} {sub : Table P → ℕ → ℕ → Except Stop (Table P)} {s e fuel i k : ℕ}
  {t t' : Table P} {vs : ℕ} {t₁ : Table P} {e₀ e₁ : Entry P} {x : Table P}

theorem unmapLoop_last (hk : w.slot d i = some k) (hx : t k = .next x)
    (hi : d.index e ≤ i) : unmapLoop w d sub e (fuel + 1) i vs t = .ok t' ↔
      ∃ x', sub x vs e = .ok x' ∧ t' = update t k (.next x') := by
  rw [unmapLoop]
  simp only [hk, hx, if_neg (not_lt.mpr hi), if_pos hi]
  cases sub x vs e with
  | error z => simp [bind, Except.bind]
  | ok x' => simp [bind, Except.bind, pure, Except.pure, eq_comm]

theorem unmapLoop_next (hk : w.slot d i = some k) (hx : t k = .next x)
    (hi : i < d.index e) : unmapLoop w d sub e (fuel + 1) i vs t = .ok t' ↔
      ∃ x', sub x vs (d.hi e i) = .ok x' ∧
        unmapLoop w d sub e fuel (i + 1) ((i + 1) * 2 ^ d.shift)
          (update t k (.next x')) = .ok t' := by
  have hhi : d.hi e i = (i + 1) * 2 ^ d.shift - 1 := if_pos hi
  rw [unmapLoop, hhi]
  simp only [hk, hx, if_pos hi, if_neg (not_le.mpr hi)]
  cases sub x vs ((i + 1) * 2 ^ d.shift - 1) with
  | error z | ok x' => simp [bind, Except.bind]

theorem unmapLoop_skip (hk : w.slot d i = some k) (hx : (t k).isNext = false) :
    unmapLoop w d sub e (fuel + 1) i vs t =
      unmapLoop w d sub e fuel (i + 1) ((i + 1) * 2 ^ d.shift) t := by
  rw [unmapLoop]
  cases ht : t k with
  | next x => simp [ht, Entry.isNext] at hx
  | invalid | leaf p => simp only [hk, ht]

def Visited (d : Ldesc) (sub : Table P → ℕ → ℕ → Except Stop (Table P)) (s e i : ℕ) :
    Entry P → Entry P → Prop
  | .next x, e' => ∃ x', sub x (d.lo s i) (d.hi e i) = .ok x' ∧ e' = .next x'
  | e₀, e' => e' = e₀

theorem Visited.isNext (h : Visited d sub s e i e₀ e₁) : e₁.isNext = e₀.isNext := by
  cases e₀ with
  | next x =>
    obtain ⟨x', _, rfl⟩ := h
    rfl
  | invalid | leaf p => exact congrArg Entry.isNext h

theorem visited_of_not_next (h : e₀.isNext = false) : Visited d sub s e i e₀ e₁ ↔ e₁ = e₀ := by
  cases e₀ with
  | next x => cases h
  | invalid | leaf p => rfl

structure Swept (d : Ldesc) (sub : Table P → ℕ → ℕ → Except Stop (Table P)) (s e i : ℕ)
    (t t₁ : Table P) : Prop where
  inside : ∀ m, i ≤ m → m ≤ d.index e → Visited d sub s e m (t m) (t₁ m)
  outside : ∀ m, ¬ (i ≤ m ∧ m ≤ d.index e) → t₁ m = t m

theorem swept_cons (hi : i ≤ d.index e) :
    Swept d sub s e i t t₁ ↔ ∃ e', Visited d sub s e i (t i) e' ∧
      Swept d sub s e (i + 1) (update t i e') t₁ := by
  constructor
  · intro h
    refine ⟨t₁ i, h.inside i (le_refl i) hi, fun m hm hme => ?_, fun m hm => ?_⟩
    · rw [update_of_ne (by omega)]
      exact h.inside m (by omega) hme
    · by_cases hmi : m = i
      · rw [hmi, update_self]
      · rw [update_of_ne hmi]
        exact h.outside m (by omega)
  · rintro ⟨e', hv, h⟩
    refine ⟨fun m hm hme => ?_, fun m hm => ?_⟩
    · by_cases hmi : m = i
      · have := h.outside m (by omega)
        rw [hmi, update_self] at this
        rw [hmi, this]
        exact hv
      · have := h.inside m (by omega) hme
        rwa [update_of_ne hmi] at this
    · have hmi : m ≠ i := by omega
      have := h.outside m (by omega)
      rwa [update_of_ne hmi] at this

theorem unmapLoop_behind (hi : d.index e < i) :
    unmapLoop w d sub e fuel i (i * 2 ^ d.shift) t = .ok t' ↔
      ∃ j k x x', Ends w d t i j k ∧ j < i + fuel ∧ t k = .next x ∧
        sub x (j * 2 ^ d.shift) e = .ok x' ∧ t' = update t k (.next x') := by
  induction fuel generalizing i with
  | zero =>
    constructor
    · intro h
      cases h
    · rintro ⟨j, k, x, x', hend, hj, _⟩
      have := hend.le
      omega
  | succ fuel ih =>
    cases hk : w.slot d i with
    | none =>
      have hl : unmapLoop w d sub e (fuel + 1) i (i * 2 ^ d.shift) t = .error .outside := by
        rw [unmapLoop]
        simp only [hk]
      rw [hl]
      constructor
      · intro h
        cases h
      · rintro ⟨j, k, x, x', hend, -⟩
        rcases eq_or_lt_of_le hend.le with hij | hij
        · have := hend.slot
          rw [← hij, hk] at this
          cases this
        · obtain ⟨k', hk', _⟩ := hend.before i (le_refl i) hij
          rw [hk] at hk'
          cases hk'
    | some k =>
      cases hn : (t k).isNext with
      | true =>
        obtain ⟨x, hx⟩ := Entry.isNext_iff.mp hn
        have hend : Ends w d t i i k :=
          ⟨le_refl i, hk, hn, fun m h h' => absurd h (not_le.mpr h')⟩
        rw [unmapLoop_last hk hx (by omega)]
        constructor
        · rintro ⟨x', hx', rfl⟩
          exact ⟨i, k, x, x', hend, by omega, hx, hx', rfl⟩
        · rintro ⟨j, k', y, y', hend', _, hy, hy', rfl⟩
          obtain ⟨rfl, rfl⟩ := hend.unique hend'
          rw [hx] at hy
          cases hy
          exact ⟨y', hy', rfl⟩
      | false =>
        rw [unmapLoop_skip hk hn, ih (by omega)]
        constructor
        · rintro ⟨j, k', x, x', hend, hj, hx⟩
          refine ⟨j, k', x, x', ⟨by have := hend.le; omega, hend.slot, hend.next, ?_⟩, by omega, hx⟩
          intro m hm hmj
          rcases eq_or_lt_of_le hm with rfl | hm
          · exact ⟨k, hk, hn⟩
          · exact hend.before m hm hmj
        · rintro ⟨j, k', x, x', hend, hj, hx⟩
          have hij : i ≠ j := by
            rintro rfl
            have := hend.slot
            rw [hk] at this
            cases this
            rw [hend.next] at hn
            cases hn
          have hle := hend.le
          exact ⟨j, k', x, x', ⟨by omega, hend.slot, hend.next,
            fun m hm hmj => hend.before m (by omega) hmj⟩, by omega, hx⟩

theorem unmapLoop_step (hs : d.index s ≤ i) (hi : i < d.index e) :
    unmapLoop w d sub e (fuel + 1) i (d.lo s i) t = .ok t' ↔
      ∃ e', Visited d sub s e i (t i) e' ∧
        unmapLoop w d sub e fuel (i + 1) (d.lo s (i + 1)) (update t i e') = .ok t' := by
  have hk : w.slot d i = some i := w.slot_of_lt d i (hi.trans (d.index_lt e))
  rw [Ldesc.lo_of_lt (lt_succ_of_le hs)]
  cases hn : (t i).isNext with
  | true =>
    obtain ⟨x, hx⟩ := Entry.isNext_iff.mp hn
    rw [unmapLoop_next hk hx hi, hx]
    constructor
    · rintro ⟨x', hx', h⟩
      exact ⟨.next x', ⟨x', hx', rfl⟩, h⟩
    · rintro ⟨_, ⟨x', hx', rfl⟩, h⟩
      exact ⟨x', hx', h⟩
  | false =>
    rw [unmapLoop_skip hk hn]
    simp only [visited_of_not_next hn, exists_eq_left, update_eq_self]

theorem swept_nil (hi : d.index e < i) : Swept d sub s e i t t₁ ↔ t₁ = t := by
  constructor
  · intro h
    exact funext fun m => h.outside m (by omega)
  · rintro rfl
    exact ⟨fun m hm hme => by omega, fun _ _ => rfl⟩

theorem unmapLoop_at_end :
    unmapLoop w d sub e (fuel + 1) (d.index e) (d.lo s (d.index e)) t = .ok t' ↔
      ∃ t₁ j k, Swept d sub s e (d.index e) t t₁ ∧ Ends w d t (d.index e) j k ∧
        j < d.index e + (fuel + 1) ∧
        (j = d.index e ∧ t' = t₁ ∨ d.index e < j ∧ ∃ x x', t₁ k = .next x ∧
          sub x (j * 2 ^ d.shift) e = .ok x' ∧ t' = update t₁ k (.next x')) := by
  have hk : w.slot d (d.index e) = some (d.index e) := w.slot_of_lt d _ (d.index_lt e)
  simp only [swept_cons (le_refl _), swept_nil (lt_succ_self _)]
  cases hn : (t (d.index e)).isNext with
  | true =>
    obtain ⟨x, hx⟩ := Entry.isNext_iff.mp hn
    have hend : Ends w d t (d.index e) (d.index e) (d.index e) :=
      ⟨le_refl _, hk, hn, fun m h h' => absurd h (not_le.mpr h')⟩
    rw [unmapLoop_last hk hx (le_refl _), hx]
    constructor
    · rintro ⟨x', hx', rfl⟩
      refine ⟨_, _, _, ⟨_, ⟨x', ?_, rfl⟩, rfl⟩, hend, by omega, .inl ⟨rfl, rfl⟩⟩
      rwa [Ldesc.hi_of_le (le_refl _)]
    · rintro ⟨t₁, j, k, ⟨_, ⟨x', hx', rfl⟩, rfl⟩, hend', _, h⟩
      obtain ⟨rfl, rfl⟩ := hend.unique hend'
      rw [Ldesc.hi_of_le (le_refl _)] at hx'
      rcases h with ⟨_, rfl⟩ | ⟨hlt, _⟩
      · exact ⟨x', hx', rfl⟩
      · exact absurd hlt (lt_irrefl _)
  | false =>
    rw [unmapLoop_skip hk hn, unmapLoop_behind (lt_succ_self _)]
    simp only [visited_of_not_next hn, exists_eq_left, update_eq_self]
    constructor
    · rintro ⟨j, k, x, x', hend, hj, hx, hx', rfl⟩
      have hle := hend.le
      refine ⟨t, j, k, rfl, ⟨by omega, hend.slot, hend.next, fun m hm hmj => ?_⟩, by omega,
        .inr ⟨by omega, x, x', hx, hx', rfl⟩⟩
      rcases eq_or_lt_of_le hm with rfl | hm
      · exact ⟨_, hk, hn⟩
      · exact hend.before m hm hmj
    · rintro ⟨t₁, j, k, rfl, hend, hj, h⟩
      have hlt : d.index e < j := by
        refine lt_of_le_of_ne hend.le fun he => ?_
        have hslot := hend.slot
        rw [← he, hk] at hslot
        cases hslot
        rw [hend.next] at hn
        cases hn
      rcases h with ⟨he, _⟩ | ⟨_, x, x', hx, hx', rfl⟩
      · omega
      · exact ⟨j, k, x, x', ⟨hlt, hend.slot, hend.next,
          fun m hm hmj => hend.before m (by omega) hmj⟩, by omega, hx, hx', rfl⟩

theorem unmapLoop_iff {n : ℕ} (hs : d.index s ≤ i) (hn : i + n = d.index e) :
    unmapLoop w d sub e fuel i (d.lo s i) t = .ok t' ↔
      ∃ t₁ j k, Swept d sub s e i t t₁ ∧ Ends w d t (d.index e) j k ∧ j < i + fuel ∧
        (j = d.index e ∧ t' = t₁ ∨ d.index e < j ∧ ∃ x x', t₁ k = .next x ∧
          sub x (j * 2 ^ d.shift) e = .ok x' ∧ t' = update t₁ k (.next x')) := by
  induction n generalizing i t fuel with
  | zero =>
    obtain rfl : i = d.index e := hn
    cases fuel with
    | zero =>
      constructor
      · intro h
        cases h
      · rintro ⟨t₁, j, k, _, hend, hj, _⟩
        omega
    | succ fuel => exact unmapLoop_at_end
  | succ n ih =>
    cases fuel with
    | zero =>
      constructor
      · intro h
        cases h
      · rintro ⟨t₁, j, k, _, hend, hj, _⟩
        omega
    | succ fuel =>
      rw [unmapLoop_step hs (by omega)]
      simp only [swept_cons (show i ≤ d.index e by omega), ih (le_succ_of_le hs)
        (show i + 1 + n = d.index e by omega)]
      have hnext : ∀ {e'}, Visited d sub s e i (t i) e' →
          ∀ m, (update t i e' m).isNext = (t m).isNext := by
        intro e' hv m
        by_cases hm : m = i
        · rw [hm, update_self, hv.isNext]
        · rw [update_of_ne hm]
      constructor
      · rintro ⟨e', hv, t₁, j, k, hsw, hend, hj, h⟩
        exact ⟨t₁, j, k, ⟨e', hv, hsw⟩, hend.congr fun m => (hnext hv m).symm, by omega, h⟩
      · rintro ⟨t₁, j, k, ⟨e', hv, hsw⟩, hend, hj, h⟩
        exact ⟨e', hv, t₁, j, k, hsw, hend.congr (hnext hv), by omega, h⟩

end Loop

end Fiasco.Ptab
