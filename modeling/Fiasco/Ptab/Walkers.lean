import Fiasco.Ptab.Memory
import Fiasco.Ptab.MapPair

/-!
# The two walkers side by side

`walk`, `destroy` and `sync` are the same for both walkers wherever both are defined, though one of
them counts bytes and the depth below a table, and the other one entries and levels. For `map` and
`unmap` there are conditions.
-/
namespace Fiasco.Ptab

open Nat List

variable {P : Type}

variable {d : Ldesc}

section Offset

variable {eb a : ℕ}

theorem offset_eq {minShift : ℕ} (h : minShift ≤ d.shift) :
    d.offset eb minShift a = d.index a * 2 ^ eb := by
  have hindex : a >>> d.shift &&& (2 ^ d.size - 1) = d.index a := by
    rw [and_two_pow_sub_one_eq_mod, shiftRight_eq_div_pow]
    rfl
  unfold Ldesc.offset
  split
  · rw [hindex, shiftLeft_eq]
  · next heb =>
    rw [← hindex, ← shiftLeft_eq]
    refine eq_of_testBit_eq fun i => ?_
    simp only [testBit_and, testBit_shiftRight, testBit_shiftLeft]
    by_cases hi : eb ≤ i
    · have hshift : d.shift - eb + i = d.shift + (i - eb) := by omega
      simp [hi, hshift]
    · simp [hi]

end Offset

theorem walkAlloc_eq {valid : Bool} {eb levels n virt : ℕ} {ds : List Ldesc} {m : Mem P} {r : Mem P × Pte}
    (h : walkAlloc iterative valid eb levels ds m n virt = .ok r) :
    walkAlloc recursive valid eb levels ds m n virt = .ok r := by
  induction levels generalizing ds m n with
  | zero =>
    cases ds with
    | nil => cases h
    | cons d ds => exact h
  | succ levels ih =>
    match ds, h with
    | d :: d' :: ds, h =>
      rw [walkAlloc] at h ⊢
      cases hread : m.read d n (d.index virt) with
      | error s =>
        rw [hread] at h
        cases h
      | ok e =>
        rw [hread] at h
        simp only [bind, Except.bind] at h ⊢
        cases e with
        | invalid =>
          simp only at h ⊢
          split at h
          · next hv =>
            rw [if_pos hv]
            cases hal : m.allocNext n (d.index virt) (d'.bytes eb) with
            | mk x m' =>
              rw [hal] at h
              cases x with
              | none => exact h
              | some x => exact ih h
          · next hv => rwa [if_neg hv]
        | leaf p =>
          simp only at h ⊢
          split at h
          · exact h
          · cases h
        | next x => exact ih h

variable {ds : List Ldesc} {m : Mem P}

section Destroy

variable {eb n start stop : ℕ} {free : ℕ → Mem P → Mem P}
  {sub : ℕ → ℕ → ℕ → Mem P → Except Stop (Mem P)} {q : Destroy}

theorem destroyLoop_eq {i₀ i₁ fuel i : ℕ} (hfuel : i₁ + 1 - i < fuel) :
    iterDestroyLoop d eb free sub n start stop (i₀ * 2 ^ eb) (i₁ * 2 ^ eb) fuel (i * 2 ^ eb) m =
      recDestroyLoop d free sub n start stop i₀ (i₁ + 1) (i₁ + 1 - i) i m := by
  have hpos := Nat.two_pow_pos eb
  induction fuel generalizing i m with
  | zero => omega
  | succ fuel ih =>
    rw [iterDestroyLoop]
    by_cases hi : i ≤ i₁
    · obtain ⟨k, hk⟩ : ∃ k, i₁ + 1 - i = k + 1 := ⟨i₁ - i, by omega⟩
      have hnext : i * 2 ^ eb + 2 ^ eb = (i + 1) * 2 ^ eb := (succ_mul i _).symm
      have hrest : i₁ + 1 - (i + 1) = k := by omega
      have hlt : (i₀ * 2 ^ eb < i * 2 ^ eb) = (i₀ < i) := propext (Nat.mul_lt_mul_right hpos)
      have hlast : (i * 2 ^ eb < i₁ * 2 ^ eb) = (i + 1 < i₁ + 1) :=
        propext ((Nat.mul_lt_mul_right hpos).trans Nat.succ_lt_succ_iff.symm)
      have hstep : ∀ m', iterDestroyLoop d eb free sub n start stop (i₀ * 2 ^ eb) (i₁ * 2 ^ eb) fuel
          (i * 2 ^ eb + 2 ^ eb) m' =
            recDestroyLoop d free sub n start stop i₀ (i₁ + 1) k (i + 1) m' := by
        intro m'
        rw [hnext, ih (by omega), hrest]
      rw [if_pos (Nat.mul_le_mul_right _ hi), hk, recDestroyLoop, Nat.mul_div_cancel _ hpos]
      simp only [hlt, hlast, hstep]
    · rw [if_neg fun h => hi (le_of_mul_le_mul_right h hpos)]
      have hk : i₁ + 1 - i = 0 := by omega
      rw [hk, recDestroyLoop]

theorem recDestroy_of_le (h : ds.length ≤ q.endLevel) :
    recDestroy q (d :: ds) n start stop m = .ok m := by
  cases ds with
  | nil => rfl
  | cons d' ds =>
    rw [recDestroy, if_pos]
    simp only [length_cons] at h
    simp [h]

theorem destroyAt_eq {mn depth : ℕ} (hv : q.valid = true) (hm : ∀ d ∈ ds, mn ≤ d.shift)
    (hdepth : depth + q.endLevel + 2 = ds.length) :
    iterDestroyAt q mn depth ds n start stop m = recDestroy q ds n start stop m := by
  induction ds generalizing depth n start stop m with
  | nil => cases hdepth
  | cons d ds ih =>
    cases ds with
    | nil => simp at hdepth
    | cons d' ds =>
      simp only [length_cons] at hdepth
      have hd := hm d (mem_cons_self ..)
      have hm' : ∀ d ∈ d' :: ds, mn ≤ d.shift := fun d hd => hm d (mem_cons_of_mem _ hd)
      have hnot : ¬(!q.valid || decide (ds.length + 1 ≤ q.endLevel)) = true := by
        simp only [hv, Bool.not_true, Bool.false_or, decide_eq_true_eq]
        omega
      rw [iterDestroyAt, recDestroy, if_neg hnot, offset_eq hd, offset_eq hd,
        destroyLoop_eq (by have := d.index_lt stop; omega)]
      congr 1
      funext x vs ve m'
      cases depth with
      | zero => exact (recDestroy_of_le (by omega)).symm
      | succ depth => exact ih hm' (by simp only [length_cons]; omega)

theorem minShift_le (hT : Tiled ds) : ∀ d ∈ ds, minShift ds ≤ d.shift := by
  induction ds with
  | nil => intro d hd; cases hd
  | cons d ds ih =>
    cases ds with
    | nil => simp [minShift]
    | cons d' ds =>
      have hmin : minShift (d :: d' :: ds) = minShift (d' :: ds) := by simp [minShift]
      intro x hx
      rw [hmin]
      rcases mem_cons.mp hx with rfl | hx
      · have := ih hT.2 d' (mem_cons_self ..)
        have := hT.1
        omega
      · exact ih hT.2 x hx

theorem destroy_eq (hT : Tiled ds) (hd : ds ≠ []) (hq : q.endLevel ≤ q.startLevel) :
    iterDestroy q ds n start stop m = recDestroy q ds n start stop m := by
  rw [iterDestroy, if_neg (not_lt.mpr hq)]
  obtain ⟨d, ds, rfl⟩ := exists_cons_of_ne_nil hd
  by_cases hlow : ds.length ≤ q.endLevel
  · rw [if_pos (by simp [hlow]), recDestroy_of_le hlow]
  by_cases hv : q.valid = true
  · rw [if_neg (by simpa [hv] using hlow)]
    exact destroyAt_eq hv (minShift_le hT) (by simp only [length_cons]; omega)
  · rw [if_pos (by simp [hv])]
    cases ds with
    | nil => rfl
    | cons d' ds => rw [recDestroy, if_pos (by simp [hv])]

end Destroy

section Sync

variable {word eb l r : ℕ} {valid : Bool} {c : Cursor}

theorem syncAt_eq {depth : ℕ} :
    iterSyncAt word valid eb depth ds l r c m = recSync word valid eb (depth + 1) ds l r c m := by
  induction ds generalizing depth l r c m with
  | nil => simp [iterSyncAt, recSync]
  | cons d ds ih =>
    cases ds with
    | nil => simp [iterSyncAt, recSync]
    | cons d' ds =>
      rw [iterSyncAt, recSync]
      congr 1
      funext x y c' m'
      cases depth with
      | zero => rfl
      | succ depth => exact ih

theorem sync_eq {levels : ℕ} :
    iterSync word valid eb levels ds l r c m = recSync word valid eb levels ds l r c m := by
  cases levels with
  | zero => cases ds <;> rfl
  | succ depth => exact syncAt_eq

end Sync

/-- For every operation, the table or memory that the walkers leave and the results they return are
the same, exactly under the condition given for it. -/
theorem walkers_agree_iff (d : Ldesc) (ds : List Ldesc) (hT : Tiled (d :: ds)) :
    (∀ valid eb levels (m : Mem P) n virt rI rR,
      walkAlloc iterative valid eb levels (d :: ds) m n virt = .ok rI →
      walkAlloc recursive valid eb levels (d :: ds) m n virt = .ok rR → rI = rR) ∧
    (∀ base (tmpl : ℕ → P) levels t al phys s e rI rR, levels ≤ ds.length →
      iterMap base tmpl levels (d :: ds) t al phys s e = .ok rI →
      recMap base tmpl levels (d :: ds) t al phys s e = .ok rR →
      (rI = rR ↔ SameMap base tmpl levels d ds t al phys s e)) ∧
    (∀ levels (t : Table P) s e fI fR tI tR,
      iterUnmap fI levels (d :: ds) t s e = .ok tI → recUnmap fR levels (d :: ds) t s e = .ok tR →
      (tI = tR ↔ SameUnmap levels d ds t s e)) ∧
    (∀ q n start stop (m mI mR : Mem P),
      iterDestroy q (d :: ds) n start stop m = .ok mI → recDestroy q (d :: ds) n start stop m = .ok mR →
      mI = mR) ∧
    ∀ word valid eb levels l r c (m : Mem P) rI rR,
      iterSync word valid eb levels (d :: ds) l r c m = .ok rI →
      recSync word valid eb levels (d :: ds) l r c m = .ok rR → rI = rR := by
  refine ⟨?_, ?_, ?_, ?_, ?_⟩
  · intro valid eb levels m n virt rI rR hI hR
    rw [walkAlloc_eq hI] at hR
    exact Except.ok.inj hR
  · intro base tmpl levels t al phys s e rI rR hlen hI hR
    exact map_same_iff hT hlen hI hR
  · intro levels t s e fI fR tI tR hI hR
    exact unmap_same_iff hI hR
  · intro q n start stop m mI mR hI hR
    have hq : q.endLevel ≤ q.startLevel := by
      by_contra hlt
      rw [iterDestroy, if_pos (not_le.mp hlt)] at hI
      cases hI
    rw [destroy_eq hT (cons_ne_nil _ _) hq, hR] at hI
    exact (Except.ok.inj hI).symm
  · intro word valid eb levels l r c m rI rR hI hR
    rw [sync_eq, hR] at hI
    exact (Except.ok.inj hI).symm

theorem walkers_agree_twoLevels : Tiled twoLevels ∧
    ∃ t, iterUnmap 4 1 twoLevels fullTables 0 3 = .ok t ∧ recUnmap 4 1 twoLevels fullTables 0 3 = .ok t := by
  have hT : Tiled twoLevels := ⟨rfl, trivial⟩
  refine ⟨hT, _, rfl, ?_⟩
  have hsame : SameUnmap 1 ⟨1, 1, true⟩ [⟨0, 1, false⟩] fullTables 0 3 := by
    refine ⟨fun hc => absurd hc (by decide), fun _ j k x hv _ => ?_⟩
    have hlt := (iterative_slot_some hv.slot).2
    have hj : j = 0 ∨ j = 1 := by
      have : Ldesc.length ⟨1, 1, true⟩ = 2 := rfl
      omega
    have hend : Ldesc.index ⟨0, 1, false⟩ (Ldesc.hi ⟨1, 1, true⟩ 3 j) = 1 := by
      rcases hj with rfl | rfl <;> decide
    have hwhole : Ldesc.index ⟨0, 1, false⟩ 3 = 1 := rfl
    refine ⟨fun m _ h₁ h₂ => ?_, fun m _ h₁ h₂ => ?_⟩ <;> omega
  exact congrArg Except.ok
    (((walkers_agree_iff ⟨1, 1, true⟩ [⟨0, 1, false⟩] hT).2.2.1 1 fullTables 0 3 4 4 _ _ rfl rfl).mpr hsame).symm

theorem unmap_differs : ∃ tI tR, iterUnmap 4 1 twoLevels fullTables 1 2 = .ok tI ∧
    recUnmap 4 1 twoLevels fullTables 1 2 = .ok tR ∧ tI ≠ tR := by
  refine ⟨_, _, rfl, rfl, fun h => ?_⟩
  have hpage := congrArg (fun t => walk recursive 1 twoLevels t 1) h
  cases hpage

end Fiasco.Ptab
