import Mathlib

/-!
# Maps of memory regions

A region has inclusive bounds. A map is an array of at most `n` regions, sorted and pairwise
disjoint; `add` merges the regions that meet the new one, `sub` cuts, splits or deletes those that
meet the region taken out.
-/
namespace Fiasco

open List
open Option (isSome_map map_eq_some_iff map_some some)

structure MemRegion where
  start : ℕ
  fin : ℕ
deriving DecidableEq, Repr

namespace MemRegion

def valid (r : MemRegion) : Bool := r.start < r.fin

def before (r o : MemRegion) : Bool := r.fin < o.start

def overlaps (r o : MemRegion) : Bool := !(o.before r || r.before o)

def contains (r o : MemRegion) : Bool := r.start ≤ o.start && r.fin ≥ o.fin

def merge (r o : MemRegion) : MemRegion :=
  ⟨if r.start < o.start then r.start else o.start, if r.fin > o.fin then r.fin else o.fin⟩

instance : Membership ℕ MemRegion := ⟨fun r a => r.start ≤ a ∧ a ≤ r.fin⟩

variable {r o q : MemRegion} {a : ℕ}

theorem mem_iff : a ∈ r ↔ r.start ≤ a ∧ a ≤ r.fin := .rfl

@[simp] theorem before_iff : r.before o = true ↔ r.fin < o.start := decide_eq_true_iff

@[simp] theorem before_eq_false : r.before o = false ↔ o.start ≤ r.fin := by
  rw [← Bool.not_eq_true, before_iff, not_lt]

@[simp] theorem valid_iff : r.valid = true ↔ r.start < r.fin := decide_eq_true_iff

theorem overlaps_iff : r.overlaps o = true ↔ r.start ≤ o.fin ∧ o.start ≤ r.fin := by
  simp [overlaps]

theorem contains_iff : r.contains o = true ↔ r.start ≤ o.start ∧ o.fin ≤ r.fin := by
  simp [contains]

theorem start_merge : (r.merge o).start = min r.start o.start := by
  simp only [merge]
  split_ifs <;> omega

theorem fin_merge : (r.merge o).fin = max r.fin o.fin := by
  simp only [merge]
  split_ifs <;> omega

theorem mem_merge (h : r.start ≤ o.fin) (h' : o.start ≤ r.fin) : a ∈ r.merge o ↔ a ∈ r ∨ a ∈ o := by
  rw [mem_iff, mem_iff, mem_iff, start_merge, fin_merge]
  omega

structure Sorted (l : List MemRegion) : Prop where
  order : l.Pairwise fun r o => r.fin < o.start
  bounds : ∀ r ∈ l, r.start ≤ r.fin

theorem Sorted.nil : Sorted [] := ⟨.nil, fun _ h => absurd h not_mem_nil⟩

theorem sorted_cons {l : List MemRegion} :
    Sorted (r :: l) ↔ r.start ≤ r.fin ∧ (∀ o ∈ l, r.fin < o.start) ∧ Sorted l := by
  constructor
  · rintro ⟨ho, hb⟩
    rw [pairwise_cons] at ho
    exact ⟨hb r mem_cons_self, ho.1, ho.2, fun o h => hb o (mem_cons_of_mem _ h)⟩
  · rintro ⟨hr, hl, hs⟩
    refine ⟨pairwise_cons.2 ⟨hl, hs.order⟩, fun o h => ?_⟩
    rcases mem_cons.1 h with rfl | h
    · exact hr
    · exact hs.bounds o h

/-- The loop of `add` behind a region that has been merged: the regions it meets are merged
with it as well. -/
def absorb : MemRegion → List MemRegion → List MemRegion
  | r, [] => [r]
  | r, o :: l => if !r.before o then absorb (r.merge o) l else r :: o :: l

def addTo (n : ℕ) (r : MemRegion) : ℕ → List MemRegion → Option (List MemRegion)
  | used, [] => if n ≤ used then none else some [r]
  | used, o :: l =>
    if o.before r then (addTo n r (used + 1) l).map (o :: ·)
    else if !r.before o then some (absorb (o.merge r) l)
    else if n ≤ used + (o :: l).length then none
    else some (r :: o :: l)

/-- The loop of `sub`. The upper part of a region that is split is not met by `r`, so the loop
passes over it. -/
def subFrom (n : ℕ) (r : MemRegion) : ℕ → List MemRegion → Option (List MemRegion)
  | _, [] => some []
  | used, o :: l =>
    if o.overlaps r then
      if r.contains o then subFrom n r used l
      else if r.start ≤ o.start then
        (subFrom n r (used + 1) l).map (⟨r.fin + 1, o.fin⟩ :: ·)
      else if r.fin ≥ o.fin then
        (subFrom n r (used + 1) l).map (⟨o.start, r.start - 1⟩ :: ·)
      else if n ≤ used + (o :: l).length then none
      else (subFrom n r (used + 2) l).map (⟨o.start, r.start - 1⟩ :: ⟨r.fin + 1, o.fin⟩ :: ·)
    else (subFrom n r (used + 1) l).map (o :: ·)

section Lists

variable {l l' : List MemRegion} {n used : ℕ}

def Covers (l : List MemRegion) (a : ℕ) : Prop := ∃ r ∈ l, a ∈ r

@[simp] theorem covers_nil : ¬Covers [] a := by simp [Covers]

@[simp] theorem covers_cons : Covers (r :: l) a ↔ a ∈ r ∨ Covers l a := by simp [Covers]

theorem Sorted.cons (h : Sorted l) (hr : r.start ≤ r.fin) (hlt : ∀ o ∈ l, r.fin < o.start) :
    Sorted (r :: l) := sorted_cons.2 ⟨hr, hlt, h⟩

theorem absorb_spec (hr : r.start ≤ r.fin) (hl : Sorted l) (hle : ∀ o ∈ l, r.start ≤ o.start) :
    Sorted (absorb r l) ∧ (absorb r l).length ≤ l.length + 1 ∧
      (∀ q ∈ absorb r l, r.start ≤ q.start) ∧
      ∀ a, Covers (absorb r l) a ↔ a ∈ r ∨ Covers l a := by
  induction l generalizing r with
  | nil => exact ⟨hl.cons hr (by simp), le_rfl, by simp [absorb], by simp [absorb]⟩
  | cons o l ih =>
    obtain ⟨ho, hlt, hs⟩ := sorted_cons.1 hl
    have hro := hle o mem_cons_self
    rw [absorb]
    split
    · next hb =>
      have hmeet : o.start ≤ r.fin := by simpa using hb
      have hstart : (r.merge o).start = r.start := by rw [start_merge]; exact min_eq_left hro
      have hfin : r.start ≤ (r.merge o).fin := by rw [fin_merge]; omega
      obtain ⟨h1, h2, h3, h4⟩ := ih (r := r.merge o) (hstart ▸ hfin) hs
        (fun q hq => by have := hlt q hq; omega)
      refine ⟨h1, ?_, fun q hq => hstart ▸ h3 q hq, fun a => ?_⟩
      · rw [length_cons]
        omega
      · rw [h4, mem_merge (by omega) hmeet, covers_cons, or_assoc]
    · next hb =>
      have hb : r.fin < o.start := by simpa using hb
      refine ⟨hl.cons hr fun q hq => ?_, le_rfl, fun q hq => ?_, fun a => covers_cons⟩
      · rcases mem_cons.1 hq with rfl | hq
        · exact hb
        · have := hlt q hq
          omega
      · rcases mem_cons.1 hq with rfl | hq
        · exact le_rfl
        · exact hle q hq

structure Edited (P : ℕ → Prop) (B : ℕ → Prop) (n used : ℕ) (l l' : List MemRegion) : Prop where
  sorted : Sorted l'
  fits : used + l.length ≤ n → used + l'.length ≤ n
  grows : l'.length ≤ l.length + 1
  behind : ∀ b, B b → (∀ o ∈ l, b < o.start) → ∀ q ∈ l', b < q.start
  covers : ∀ a, Covers l' a ↔ P a

theorem Edited.cons {P B : ℕ → Prop} (h : Edited P B n (used + 1) l l') (ho : Sorted (o :: l))
    (hB : B o.fin) (hr : r.start ≤ r.fin) (hstart : o.start ≤ r.start) (hfin : r.fin ≤ o.fin) :
    Edited (fun a => a ∈ r ∨ P a) B n used (o :: l) (r :: l') := by
  obtain ⟨-, hlt, -⟩ := sorted_cons.1 ho
  refine ⟨h.sorted.cons hr fun q hq => ?_, fun hn => ?_, ?_, fun b hb hbl q hq => ?_, fun a => ?_⟩
  · have := h.behind _ hB hlt q hq
    omega
  · have := h.fits
    simp only [length_cons] at hn ⊢
    omega
  · have := h.grows
    simp only [length_cons]
    omega
  · rcases mem_cons.1 hq with rfl | hq
    · exact lt_of_lt_of_le (hbl o mem_cons_self) hstart
    · exact h.behind b hb (fun x hx => hbl x (mem_cons_of_mem _ hx)) q hq
  · rw [covers_cons, h.covers]

theorem Edited.congr {P Q B : ℕ → Prop} (h : Edited P B n used l l') (hpq : ∀ a, P a ↔ Q a) :
    Edited Q B n used l l' :=
  { h with covers := fun a => (h.covers a).trans (hpq a) }

theorem addTo_spec (hr : r.start ≤ r.fin) (hl : Sorted l) (h : addTo n r used l = some l') :
    Edited (fun a => Covers l a ∨ a ∈ r) (· < r.start) n used l l' := by
  induction l generalizing used l' with
  | nil =>
    rw [addTo] at h
    split at h
    · cases h
    · next hn =>
      cases h
      refine ⟨hl.cons hr (by simp), fun _ => ?_, le_rfl, by simp, by simp⟩
      simp only [length_singleton]
      omega
  | cons o l ih =>
    obtain ⟨ho, hlt, hs⟩ := sorted_cons.1 hl
    rw [addTo] at h
    split at h
    · next hbefore =>
      obtain ⟨l₁, h₁, rfl⟩ := map_eq_some_iff.1 h
      refine ((ih hs h₁).cons hl (before_iff.1 hbefore) ho le_rfl le_rfl).congr fun a => ?_
      rw [covers_cons, or_assoc]
    · next hbefore =>
      have hro : r.start ≤ o.fin := by simpa using hbefore
      split at h
      · next hmeet =>
        have hor : o.start ≤ r.fin := by simpa using hmeet
        cases h
        have hstart : (o.merge r).start ≤ o.start := by rw [start_merge]; exact min_le_left _ _
        have hfin : o.fin ≤ (o.merge r).fin := by rw [fin_merge]; exact le_max_left _ _
        obtain ⟨h1, h2, h3, h4⟩ := absorb_spec (r := o.merge r) (by omega) hs
          (fun q hq => by have := hlt q hq; omega)
        refine ⟨h1, fun hn => ?_, ?_, fun b hb hbl q hq => ?_, fun a => ?_⟩
        · simp only [length_cons] at hn
          omega
        · simp only [length_cons]
          omega
        · have hq := h3 q hq
          have hbo := hbl o mem_cons_self
          rw [start_merge] at hq
          omega
        · rw [h4, mem_merge hor hro, covers_cons]
          tauto
      · next hmeet =>
        have hor : r.fin < o.start := by simpa using hmeet
        split at h
        · cases h
        · next hn =>
          cases h
          refine ⟨hl.cons hr fun q hq => ?_, fun _ => ?_, le_rfl, fun b hb hbl q hq => ?_,
            fun a => ?_⟩
          · rcases mem_cons.1 hq with rfl | hq
            · exact hor
            · have := hlt q hq
              omega
          · simp only [length_cons] at hn ⊢
            omega
          · rcases mem_cons.1 hq with rfl | hq
            · exact hb
            · exact hbl q hq
          · rw [covers_cons, or_comm]

theorem subFrom_behind (h : ∀ o ∈ l, r.fin < o.start) : subFrom n r used l = some l := by
  induction l generalizing used with
  | nil => rfl
  | cons o l ih =>
    have ho := h o mem_cons_self
    have hno : ¬o.overlaps r = true := by
      rw [overlaps_iff]
      omega
    rw [subFrom, if_neg hno, ih fun q hq => h q (mem_cons_of_mem _ hq)]
    rfl

theorem mem_of_contains (h : r.contains o = true) : a ∈ o → a ∈ r := by
  rw [contains_iff] at h
  rw [mem_iff, mem_iff]
  omega

theorem subFrom_spec (hr : r.start ≤ r.fin) (hl : Sorted l) (h : subFrom n r used l = some l') :
    Edited (fun a => Covers l a ∧ a ∉ r) (fun _ => True) n used l l' := by
  induction l generalizing used l' with
  | nil =>
    cases h
    exact ⟨hl, id, by simp, by simp, by simp⟩
  | cons o l ih =>
    obtain ⟨ho, hlt, hs⟩ := sorted_cons.1 hl
    have hcov : ∀ {Q : ℕ → Prop} {a}, (Q a ↔ a ∈ o ∧ a ∉ r) →
        (Q a ∨ Covers l a ∧ a ∉ r ↔ Covers (o :: l) a ∧ a ∉ r) := by
      intro Q a hQ
      rw [hQ, covers_cons, or_and_right]
    rw [subFrom] at h
    split at h
    · next hmeet =>
      rw [overlaps_iff] at hmeet
      split at h
      · next hc =>
        have hspec := ih hs h
        refine ⟨hspec.sorted, fun hn => hspec.fits ?_, ?_, fun b hb hbl => ?_, fun a => ?_⟩
        · simp only [length_cons] at hn
          omega
        · have := hspec.grows
          simp only [length_cons]
          omega
        · exact hspec.behind b hb fun q hq => hbl q (mem_cons_of_mem _ hq)
        · have hin := mem_of_contains (a := a) hc
          rw [hspec.covers, covers_cons]
          tauto
      · next hc =>
        rw [contains_iff] at hc
        split at h
        · next hlow =>
          obtain ⟨l₁, h₁, rfl⟩ := map_eq_some_iff.1 h
          have hcut : r.fin + 1 ≤ o.fin := by omega
          have hlow' : o.start ≤ r.fin + 1 := by omega
          refine ((ih hs h₁).cons (r := ⟨r.fin + 1, o.fin⟩) hl trivial hcut hlow' le_rfl).congr
            fun a => hcov ?_
          rw [mem_iff, mem_iff, mem_iff]
          simp only
          omega
        · next hlow =>
          split at h
          · next hhigh =>
            obtain ⟨l₁, h₁, rfl⟩ := map_eq_some_iff.1 h
            have hcut : o.start ≤ r.start - 1 := by omega
            have hhigh' : r.start - 1 ≤ o.fin := by omega
            refine ((ih hs h₁).cons (r := ⟨o.start, r.start - 1⟩) hl trivial hcut le_rfl
              hhigh').congr fun a => hcov ?_
            rw [mem_iff, mem_iff, mem_iff]
            simp only
            omega
          · next hhigh =>
            split at h
            · cases h
            · next hn =>
              have hbehind : ∀ q ∈ l, r.fin < q.start := fun q hq => by
                have := hlt q hq
                omega
              rw [subFrom_behind hbehind] at h
              cases h
              have hup : Sorted (⟨r.fin + 1, o.fin⟩ :: l) :=
                hs.cons (by simp only; omega) hlt
              refine ⟨hup.cons (by simp only; omega) fun q hq => ?_, fun _ => ?_, le_rfl,
                fun b hb hbl q hq => ?_, fun a => ?_⟩
              · rcases mem_cons.1 hq with rfl | hq
                · simp only
                  omega
                · have := hbehind q hq
                  simp only
                  omega
              · simp only [length_cons] at hn ⊢
                omega
              · have hbo := hbl o mem_cons_self
                rcases mem_cons.1 hq with rfl | hq
                · exact hbo
                · rcases mem_cons.1 hq with rfl | hq
                  · simp only
                    omega
                  · exact hbl q (mem_cons_of_mem _ hq)
              · have hrest : Covers l a → a ∉ r := by
                  rintro ⟨q, hq, ha⟩
                  have := hbehind q hq
                  rw [mem_iff] at ha ⊢
                  omega
                rw [covers_cons, covers_cons, covers_cons]
                by_cases hl : Covers l a
                · simp only [hl, or_true, true_and, true_iff]
                  exact hrest hl
                · simp only [hl, or_false, mem_iff]
                  omega
    · next hmeet =>
      rw [overlaps_iff] at hmeet
      obtain ⟨l₁, h₁, rfl⟩ := map_eq_some_iff.1 h
      refine ((ih hs h₁).cons hl trivial ho le_rfl le_rfl).congr fun a => hcov ?_
      rw [mem_iff, mem_iff]
      omega

theorem addTo_of_fits {k : ℕ} (h : addTo k r used l = some l') (hn : used + l'.length ≤ n) :
    addTo n r used l = some l' := by
  induction l generalizing used l' with
  | nil =>
    rw [addTo] at h ⊢
    split at h
    · cases h
    · cases h
      rw [length_singleton] at hn
      exact if_neg (by omega)
  | cons o l ih =>
    rw [addTo] at h ⊢
    split at h
    · next hb =>
      obtain ⟨l₁, h₁, rfl⟩ := map_eq_some_iff.1 h
      rw [length_cons] at hn
      rw [if_pos hb, ih h₁ (by omega)]
      rfl
    · next hb =>
      rw [if_neg hb]
      split at h
      · next hmeet => rw [if_pos hmeet, h]
      · next hmeet =>
        rw [if_neg hmeet]
        split at h
        · cases h
        · cases h
          rw [length_cons] at hn
          exact if_neg (by omega)

theorem subFrom_of_fits {k : ℕ} (hl : Sorted l) (h : subFrom k r used l = some l')
    (hn : used + l'.length ≤ n) : subFrom n r used l = some l' := by
  induction l generalizing used l' with
  | nil => exact h
  | cons o l ih =>
    obtain ⟨-, hlt, hs⟩ := sorted_cons.1 hl
    rw [subFrom] at h ⊢
    split at h
    · next hmeet =>
      rw [if_pos hmeet]
      split at h
      · next hc => rw [if_pos hc, ih hs h hn]
      · next hc =>
        rw [if_neg hc]
        split at h
        · next hlow =>
          obtain ⟨l₁, h₁, rfl⟩ := map_eq_some_iff.1 h
          rw [length_cons] at hn
          rw [if_pos hlow, ih hs h₁ (by omega)]
          rfl
        · next hlow =>
          rw [if_neg hlow]
          split at h
          · next hhigh =>
            obtain ⟨l₁, h₁, rfl⟩ := map_eq_some_iff.1 h
            rw [length_cons] at hn
            rw [if_pos hhigh, ih hs h₁ (by omega)]
            rfl
          · next hhigh =>
            rw [if_neg hhigh]
            split at h
            · cases h
            · have hbehind : ∀ q ∈ l, r.fin < q.start := fun q hq => by
                have := hlt q hq
                omega
              rw [subFrom_behind hbehind] at h ⊢
              cases h
              rw [length_cons, length_cons] at hn
              exact if_neg (by rw [length_cons]; omega)
    · next hmeet =>
      obtain ⟨l₁, h₁, rfl⟩ := map_eq_some_iff.1 h
      rw [length_cons] at hn
      rw [if_neg hmeet, ih hs h₁ (by omega)]
      rfl

theorem addTo_isSome (h : used + l.length < n) : (addTo n r used l).isSome := by
  induction l generalizing used with
  | nil => rw [addTo, if_neg (by simpa using h)]; rfl
  | cons o l ih =>
    rw [length_cons] at h
    rw [addTo]
    split
    · rw [isSome_map]
      exact ih (by omega)
    · split
      · rfl
      · rw [if_neg (by rw [length_cons]; omega)]
        rfl

theorem subFrom_isSome (hl : Sorted l) (h : used + l.length < n) : (subFrom n r used l).isSome := by
  induction l generalizing used with
  | nil => rfl
  | cons o l ih =>
    obtain ⟨-, hlt, hs⟩ := sorted_cons.1 hl
    rw [length_cons] at h
    rw [subFrom]
    split_ifs with _ _ _ hhigh hn
    · exact ih hs (by omega)
    · rw [isSome_map]
      exact ih hs (by omega)
    · rw [isSome_map]
      exact ih hs (by omega)
    · rw [length_cons] at hn
      omega
    · have hbehind : ∀ q ∈ l, r.fin < q.start := fun q hq => by
        have := hlt q hq
        omega
      rw [subFrom_behind hbehind]
      rfl
    · rw [isSome_map]
      exact ih hs (by omega)

end Lists

end MemRegion

open MemRegion

structure MemRegionMap (n : ℕ) where
  regions : List MemRegion
  sorted : Sorted regions
  fits : regions.length ≤ n

namespace MemRegionMap

variable {n : ℕ} {m m' : MemRegionMap n} {r : MemRegion} {a : ℕ}

instance : Membership ℕ (MemRegionMap n) := ⟨fun m a => Covers m.regions a⟩

theorem mem_def : a ∈ m ↔ Covers m.regions a := .rfl

def empty : MemRegionMap n := ⟨[], .nil, Nat.zero_le n⟩

theorem not_mem_empty : a ∉ (empty : MemRegionMap n) := covers_nil

section

variable (m : MemRegionMap n) (r : MemRegion)

def add : Option (MemRegionMap n) :=
  if hr : r.valid then
    match h : addTo n r 0 m.regions with
    | none => none
    | some l =>
      have he := addTo_spec (valid_iff.1 hr).le m.sorted h
      some ⟨l, he.sorted, by simpa using he.fits (by simpa using m.fits)⟩
  else some m

def sub : Option (MemRegionMap n) :=
  if hr : r.valid then
    match h : subFrom n r 0 m.regions with
    | none => none
    | some l =>
      have he := subFrom_spec (valid_iff.1 hr).le m.sorted h
      some ⟨l, he.sorted, by simpa using he.fits (by simpa using m.fits)⟩
  else some m

theorem add_regions : (m.add r).map regions =
    if r.valid then addTo n r 0 m.regions else some m.regions := by
  rw [add]
  split
  · split
    · next h => exact h.symm
    · next h => exact h.symm
  · rfl

theorem sub_regions : (m.sub r).map regions =
    if r.valid then subFrom n r 0 m.regions else some m.regions := by
  rw [sub]
  split
  · split
    · next h => exact h.symm
    · next h => exact h.symm
  · rfl

end

theorem mem_add (h : m.add r = some m') : a ∈ m' ↔ a ∈ m ∨ r.valid = true ∧ a ∈ r := by
  have hl := m.add_regions r
  rw [h, map_some] at hl
  split at hl
  · next hr =>
    have he := addTo_spec (valid_iff.1 hr).le m.sorted hl.symm
    refine (he.covers a).trans ?_
    rw [hr, eq_self, true_and]
    rfl
  · next hr =>
    have hm : a ∈ m' ↔ a ∈ m := by rw [mem_def, mem_def, some.inj hl]
    simp [hr, hm]

theorem mem_sub (h : m.sub r = some m') : a ∈ m' ↔ a ∈ m ∧ ¬(r.valid = true ∧ a ∈ r) := by
  have hl := m.sub_regions r
  rw [h, map_some] at hl
  split at hl
  · next hr =>
    have he := subFrom_spec (valid_iff.1 hr).le m.sorted hl.symm
    refine (he.covers a).trans ?_
    rw [hr, eq_self, true_and]
    rfl
  · next hr =>
    have hm : a ∈ m' ↔ a ∈ m := by rw [mem_def, mem_def, some.inj hl]
    simp [hr, hm]

/-! The regions do not depend on the capacity, as long as they fit. -/

variable {k : ℕ} {u u' : MemRegionMap k}

theorem add_of_fits (hm : m.regions = u.regions) (h : u.add r = some u')
    (hn : u'.regions.length ≤ n) : ∃ m', m.add r = some m' ∧ m'.regions = u'.regions := by
  have hu := u.add_regions r
  rw [h, map_some] at hu
  refine map_eq_some_iff.1 ?_
  rw [add_regions, hm]
  split at hu
  · next hr => rw [if_pos hr, addTo_of_fits hu.symm (by omega)]
  · next hr => rw [if_neg hr, ← hu]

theorem sub_of_fits (hm : m.regions = u.regions) (h : u.sub r = some u')
    (hn : u'.regions.length ≤ n) : ∃ m', m.sub r = some m' ∧ m'.regions = u'.regions := by
  have hu := u.sub_regions r
  rw [h, map_some] at hu
  refine map_eq_some_iff.1 ?_
  rw [sub_regions, hm]
  split at hu
  · next hr => rw [if_pos hr, subFrom_of_fits u.sorted hu.symm (by omega)]
  · next hr => rw [if_neg hr, ← hu]

theorem exists_edit {x : Option (MemRegionMap n)} {o : Option (List MemRegion)}
    (hx : x.map regions = if r.valid then o else some m.regions) (ho : o.isSome)
    (hg : r.valid → ∀ l, o = some l → l.length ≤ m.regions.length + 1) :
    ∃ m', x = some m' ∧ m'.regions.length ≤ m.regions.length + 1 := by
  split at hx
  · next hr =>
    obtain ⟨l, rfl⟩ := Option.isSome_iff_exists.1 ho
    obtain ⟨m', hm', rfl⟩ := map_eq_some_iff.1 hx
    exact ⟨m', hm', hg hr _ rfl⟩
  · obtain ⟨m', hm', he⟩ := map_eq_some_iff.1 hx
    exact ⟨m', hm', by rw [he]; exact Nat.le_succ _⟩

theorem exists_add (h : m.regions.length < n) :
    ∃ m', m.add r = some m' ∧ m'.regions.length ≤ m.regions.length + 1 :=
  exists_edit (m.add_regions r) (addTo_isSome (by omega)) fun hr _ hs =>
    (addTo_spec (valid_iff.1 hr).le m.sorted hs).grows

theorem exists_sub (h : m.regions.length < n) :
    ∃ m', m.sub r = some m' ∧ m'.regions.length ≤ m.regions.length + 1 :=
  exists_edit (m.sub_regions r) (subFrom_isSome m.sorted (by omega)) fun hr _ hs =>
    (subFrom_spec (valid_iff.1 hr).le m.sorted hs).grows

end MemRegionMap

end Fiasco
