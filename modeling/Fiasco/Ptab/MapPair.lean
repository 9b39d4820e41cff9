import Fiasco.Ptab.MapExact
import Fiasco.Ptab.UnmapPair

/-!
# `map` by both walkers

Inside of one root table the walkers write the same, unless the recursive one takes a page for a
table. For other ranges the iterative walker returns 0 at once; the recursive one returns 0 and has
changed nothing (`Idle`) only if it gives up at some entry, and all it has written until then was
there before.
-/
namespace Fiasco.Ptab

open Nat Function

open Finset

variable {P : Type} {base levels : ℕ} {ds : List Ldesc} {tmpl : ℕ → P} {phys s e : ℕ} {t : Table P}
  {al : Alloc} {t x : Table P} {r : Mapped P} {w : Walker}

section Turn

variable {d : Ldesc} {sub subI subR : Table P → Alloc → ℕ → ℕ → ℕ → Except Stop (Mapped P)}
  {s e n i vs phys : ℕ}

theorem mapLoop_pair (hsub : ∀ x al pa vs ve r, subR x al pa vs ve = .ok r → subI x al pa vs ve = .ok r)
    (hi : i + n < d.length) (h : mapLoop recursive d subR e n i vs phys t al = .ok r) :
    mapLoop iterative d subI e n i vs phys t al = .ok r := by
  induction n using Nat.strongRecOn generalizing i vs phys t al with
  | ind n ih =>
    have hturn : ∀ x al, mapTurn recursive d subR e n i vs phys t x al = .ok r →
        mapTurn iterative d subI e n i vs phys t x al = .ok r := by
      intro x al hrec
      obtain ⟨r₁, hr₁, h₁⟩ := mapTurn_iff.mp hrec
      refine mapTurn_iff.mpr ⟨r₁, hsub _ _ _ _ _ _ hr₁, h₁.imp_right ?_⟩
      rintro ⟨hne, n', rfl, hrest⟩
      exact ⟨hne, n', rfl, ih n' (lt_succ_self n') (by omega) hrest⟩
    rw [mapLoop_eq (by omega)] at h ⊢
    cases hti : t i with
    | invalid =>
      simp only [hti] at h
      cases htake : al.take with
      | none =>
        simp only [htake] at h
        exact h
      | some al' =>
        simp only [htake] at h
        exact hturn _ _ h
    | leaf p =>
      simp only [hti] at h
      cases h
    | next y =>
      simp only [hti] at h
      exact hturn _ _ h

theorem mapLoop_below (hi : i + n < d.length) (h : mapLoop w d sub e n i vs phys t al = .ok r) (m : ℕ)
    (hm : m < i) : r.table m = t m := by
  induction n using Nat.strongRecOn generalizing i vs phys t al with
  | ind n ih =>
    rcases mapLoop_cases (by omega) h with rfl | ⟨-, al₁, hturn⟩
    · rfl
    obtain ⟨r₁, -, ⟨-, rfl⟩ | ⟨-, n', rfl, hrest⟩⟩ := mapTurn_iff.mp hturn
    · exact update_of_ne (by omega) ..
    · rw [ih n' (lt_succ_self n') (by omega) hrest (by omega), update_of_ne (by omega)]

theorem mapTurn_slot (hi : i + n < d.length) (h : mapTurn w d sub e n i vs phys t x al = .ok r) :
    ∃ r₁, sub x al phys vs (d.hi e i) = .ok r₁ ∧ r.table i = .next r₁.table := by
  obtain ⟨r₁, hr₁, ⟨-, rfl⟩ | ⟨-, n', rfl, hrest⟩⟩ := mapTurn_iff.mp h
  · exact ⟨r₁, hr₁, update_self ..⟩
  · refine ⟨r₁, hr₁, ?_⟩
    rw [mapLoop_below (by omega) hrest i (lt_succ_self i), update_self]

end Turn

theorem mapLevels_pair {r : Mapped P} (h : mapLevels recursive base tmpl levels ds t al phys s e = .ok r) :
    mapLevels iterative base tmpl levels ds t al phys s e = .ok r := by
  induction levels generalizing ds t al phys s e r with
  | zero =>
    match ds, h with
    | d :: ds, h => exact h
  | succ levels ih =>
    match ds, h with
    | d :: ds, h =>
      refine mapLoop_pair (fun x al pa vs ve r hr => ih hr) ?_ h
      have := d.index_lt s
      have := d.index_lt e
      omega

/-- The loop gives up at an entry from `i` to `k`, and the tables in front of it have all that it
writes to them; `F` is what it writes to a table, `ret` by how much the physical address advances,
and `C` that the inner call gives up. -/
def GivesUp (F : ℕ → ℕ → Table P → Table P) (ret : ℕ → ℕ) (C : ℕ → ℕ → Table P → Prop) (t : Table P)
    (al : Alloc) (i k phys : ℕ) : Prop :=
  ∃ j, i ≤ j ∧ j ≤ k ∧
    (∀ m, i ≤ m → m < j → ∃ x, t m = .next x ∧ F (phys + ∑ l ∈ Ico i m, ret l) m x = x) ∧
    (t j = .invalid ∧ al.take = none ∨ ∃ x, t j = .next x ∧ C (phys + ∑ l ∈ Ico i j, ret l) j x)

def Idle (base : ℕ) (tmpl : ℕ → P) : ℕ → List Ldesc → Table P → Alloc → ℕ → ℕ → ℕ → Prop
  | 0, d :: _, _, _, _, s, e => d.index e < d.index s
  | levels + 1, d :: ds, t, al, phys, s, e =>
    GivesUp
      (fun pa m x => mapped levels ds
        (fun a => tmpl (pa + offset base levels ds (d.lo s m) (d.hi e m) a)) (d.lo s m) (d.hi e m) x)
      (fun m => returned base levels ds (d.lo s m) (d.hi e m))
      (fun pa m x => Idle base tmpl levels ds x al pa (d.lo s m) (d.hi e m))
      t al (d.index s) (max (d.index s) (d.index e)) phys
  | _, _, _, _, _, _, _ => False

variable {F : ℕ → ℕ → Table P → Table P} {C : ℕ → ℕ → Table P → Prop} {ret : ℕ → ℕ}

section GivesUp

variable {i k phys : ℕ}

theorem givesUp_invalid (ht : t i = .invalid) (hik : i ≤ k)
    : GivesUp F ret C t al i k phys ↔ al.take = none := by
  constructor
  · rintro ⟨j, hij, -, hfront, hj⟩
    rcases eq_or_lt_of_le hij with rfl | hlt
    · rcases hj with ⟨-, hal⟩ | ⟨x, hx, -⟩
      · exact hal
      · rw [ht] at hx
        cases hx
    · obtain ⟨x, hx, -⟩ := hfront i (le_refl i) hlt
      rw [ht] at hx
      cases hx
  · intro hal
    exact ⟨i, le_refl i, hik, fun m h₀ h₁ => by omega, .inl ⟨ht, hal⟩⟩

theorem givesUp_next (ht : t i = .next x) (hik : i ≤ k) : GivesUp F ret C t al i k phys ↔
    C phys i x ∨ F phys i x = x ∧ GivesUp F ret C t al (i + 1) k (phys + ret i) := by
  have hsum : ∀ {m}, i < m → phys + ret i + ∑ l ∈ Ico (i + 1) m, ret l = phys + ∑ l ∈ Ico i m, ret l := by
    intro m hm
    rw [sum_eq_sum_Ico_succ_bot hm, add_assoc]
  have hself : phys + ∑ l ∈ Ico i i, ret l = phys := by rw [Ico_self, sum_empty, add_zero]
  constructor
  · rintro ⟨j, hij, hjk, hfront, hj⟩
    rcases eq_or_lt_of_le hij with rfl | hlt
    · rcases hj with ⟨hinv, -⟩ | ⟨y, hy, hc⟩
      · rw [ht] at hinv
        cases hinv
      · rw [ht] at hy
        cases hy
        exact .inl (by rwa [hself] at hc)
    · obtain ⟨y, hy, hF⟩ := hfront i (le_refl i) hlt
      rw [ht] at hy
      cases hy
      rw [hself] at hF
      refine .inr ⟨hF, j, hlt, hjk, fun m h₀ h₁ => ?_, ?_⟩
      · rw [hsum h₀]
        exact hfront m (le_of_succ_le h₀) h₁
      · rwa [hsum hlt]
  · rintro (hc | ⟨hF, j, hij, hjk, hfront, hj⟩)
    · exact ⟨i, le_refl i, hik, fun m h₀ h₁ => by omega, .inr ⟨x, ht, by rwa [hself]⟩⟩
    · refine ⟨j, le_of_succ_le hij, hjk, fun m h₀ h₁ => ?_, ?_⟩
      · rcases eq_or_lt_of_le h₀ with rfl | hlt
        · exact ⟨x, ht, by rwa [hself]⟩
        · have := hfront m hlt h₁
          rwa [hsum hlt] at this
      · rwa [hsum hij] at hj

theorem not_givesUp (h : k < i) : ¬GivesUp F ret C t al i k phys := by
  rintro ⟨j, h₀, h₁, -⟩
  omega

end GivesUp

section Idle

variable {d d' : Ldesc} {sub : Table P → Alloc → ℕ → ℕ → ℕ → Except Stop (Mapped P)}
  {s e n i phys : ℕ}

structure Parts (d : Ldesc) (sub : Table P → Alloc → ℕ → ℕ → ℕ → Except Stop (Mapped P)) (s e : ℕ)
    (al : Alloc) (F : ℕ → ℕ → Table P → Table P) (ret : ℕ → ℕ) (C : ℕ → ℕ → Table P → Prop) : Prop where
  full : ∀ {m x pa r}, m < d.index e → sub x al pa (d.lo s m) (d.hi e m) = .ok r → r.size ≠ 0 →
    r.table = F pa m x ∧ r.size = ret m
  same : ∀ {m x pa}, m < d.index e → F pa m x = x →
    sub x al pa (d.lo s m) (d.hi e m) = .ok ⟨x, al, ret m⟩ ∧ ret m ≠ 0
  idle : ∀ {m x pa r}, sub x al pa (d.lo s m) (d.hi e m) = .ok r → (r = ⟨x, al, 0⟩ ↔ C pa m x)

theorem mapTurn_idle_iff (hp : Parts d sub s e al F ret C) {x : Table P} (hx : t i = .next x)
    (hend : n ≠ 0 → i < d.index e) (hi : i + n < d.length)
    (hloop : ∀ n' r, n = n' + 1 → mapLoop recursive d sub e n' (i + 1) ((i + 1) * 2 ^ d.shift) (phys + ret i) t
      al = .ok r → (r = ⟨t, al, 0⟩ ↔ GivesUp F ret C t al (i + 1) (i + n) (phys + ret i)))
    (h : mapTurn recursive d sub e n i (d.lo s i) phys t x al = .ok r) :
    r = ⟨t, al, 0⟩ ↔ GivesUp F ret C t al i (i + n) phys := by
  have hself : update t i (.next x) = t := by rw [← hx, update_eq_self]
  obtain ⟨r₁, hr₁, hslot⟩ := mapTurn_slot hi h
  obtain ⟨r₂, hr₂, hcases⟩ := mapTurn_iff.mp h
  rw [hr₁] at hr₂
  cases hr₂
  rw [givesUp_next hx (le_add_right i n), ← hp.idle hr₁]
  by_cases hsize : r₁.size = 0
  · obtain ⟨-, rfl⟩ | ⟨hne, -⟩ := hcases
    swap
    · exact absurd hsize hne
    rw [hsize]
    constructor
    · intro hr
      simp only [Mapped.mk.injEq, and_true] at hr
      have htab := congrFun hr.1 i
      rw [update_self, hx, Entry.next.injEq] at htab
      exact .inl (by rw [← htab, ← hr.2, ← hsize])
    · rintro (rfl | ⟨hF, hrest⟩)
      · rw [hself]
      · -- an inner call that writes what is there does not give up
        have hlt : i < d.index e := by
          refine hend fun hn => ?_
          exact not_givesUp (by omega) hrest
        obtain ⟨hok, hne⟩ := hp.same hlt hF
        rw [hr₁] at hok
        cases hok
        exact absurd hsize hne
  · have hnot : r₁ ≠ ⟨x, al, 0⟩ := by
      rintro rfl
      exact hsize rfl
    rw [or_iff_right hnot]
    rcases hcases with ⟨hstop, rfl⟩ | ⟨-, n, rfl, hrest⟩
    · refine iff_of_false (fun hr => hsize (congrArg Mapped.size hr)) fun hc => ?_
      exact not_givesUp (by omega) hc.2
    · have hlt := hend (succ_ne_zero n)
      obtain ⟨htable, hret⟩ := hp.full hlt hr₁ hsize
      by_cases hF : F phys i x = x
      · obtain ⟨hok, -⟩ := hp.same hlt hF
        rw [hr₁] at hok
        cases hok
        rw [hself] at hrest
        rw [hloop n r rfl hrest, and_iff_right hF]
      · refine iff_of_false (fun hr => hF ?_) fun hc => hF hc.1
        have htab : t i = .next r₁.table := by
          rw [hr] at hslot
          exact hslot
        rw [hx, Entry.next.injEq] at htab
        rw [← htable, ← htab]

theorem mapLoop_idle_iff (hp : Parts d sub s e al F ret C) (hs : d.index s ≤ i)
    (hend : n ≠ 0 → i + n ≤ d.index e) (hi : i + n < d.length)
    (h : mapLoop recursive d sub e n i (d.lo s i) phys t al = .ok r) :
    r = ⟨t, al, 0⟩ ↔ GivesUp F ret C t al i (i + n) phys := by
  induction n using Nat.strongRecOn generalizing i phys r with
  | ind n ih =>
    rw [mapLoop_eq (by omega)] at h
    cases hti : t i with
    | invalid =>
      rw [givesUp_invalid hti (le_add_right i n)]
      simp only [hti] at h
      cases htake : al.take with
      | none =>
        simp only [htake] at h
        cases h
        exact iff_of_true rfl rfl
      | some al' =>
        simp only [htake] at h
        refine iff_of_false (fun hr => ?_) fun hc => by cases hc
        obtain ⟨r₁, -, hslot⟩ := mapTurn_slot hi h
        rw [hr] at hslot
        cases hti.symm.trans hslot
    | leaf p =>
      simp only [hti] at h
      cases h
    | next x =>
      simp only [hti] at h
      refine mapTurn_idle_iff hp hti (fun hn => ?_) hi (fun n' r' hn' hl => ?_) h
      · have := hend hn
        omega
      · subst hn'
        rw [← Ldesc.lo_of_lt (lt_succ_of_le hs)] at hl
        have := ih n' (lt_succ_self n') (by omega) (fun _ => by omega) (by omega) hl
        rwa [add_right_comm] at this

theorem full_ordered {m : ℕ} (hd : d.shift = d'.shift + d'.size) (hm : m < d.index e) :
    d.lo s m % d'.span ≤ d.hi e m % d'.span := by
  have hhi : d.hi e m % 2 ^ d.shift = 2 ^ d.shift - 1 := Radix.partHi_mod.trans (if_pos hm)
  rw [next_span hd, hhi]
  omega

theorem mapped_slot (hT : Tiled (d :: d' :: ds)) {m : ℕ} (hm : d.index s ≤ m ∧ m ≤ d.index e) :
    mapped (levels + 1) (d :: d' :: ds)
        (fun a => tmpl (phys + offset base (levels + 1) (d :: d' :: ds) s e a)) s e t m =
      .next (mapped levels (d' :: ds)
        (fun a => tmpl (phys + ∑ l ∈ Ico (d.index s) m, returned base levels (d' :: ds) (d.lo s l) (d.hi e l) +
          offset base levels (d' :: ds) (d.lo s m) (d.hi e m) a)) (d.lo s m) (d.hi e m) (t m).sub) := by
  simp only [mapped]
  rw [if_pos hm]
  refine congrArg Entry.next (mapped_congr hT.2 fun a ha => ?_)
  rw [Ldesc.span, ← hT.1] at ha
  obtain ⟨hi, ha'⟩ := index_slot hm.2 ha
  rw [offset, hi, ha', add_assoc]

theorem mapLoop_same (hs : d.index s ≤ i) (hn : i + n = d.index e)
    (h : ∀ m, i ≤ m → m ≤ d.index e → ∃ x, t m = .next x ∧ ret m ≠ 0 ∧
      sub x al (phys + ∑ l ∈ Ico i m, ret l) (d.lo s m) (d.hi e m) = .ok ⟨x, al, ret m⟩) :
    mapLoop w d sub e n i (d.lo s i) phys t al = .ok ⟨t, al, ret (d.index e)⟩ := by
  induction n using Nat.strongRecOn generalizing i phys with
  | ind n ih =>
    have hlt := d.index_lt e
    obtain ⟨x, hx, hne, hok⟩ := h i (le_refl i) (by omega)
    rw [Ico_self, sum_empty, add_zero] at hok
    have hself : update t i (.next x) = t := by rw [← hx, update_eq_self]
    rw [mapLoop_eq (by omega)]
    simp only [hx]
    refine mapTurn_iff.mpr ⟨_, hok, ?_⟩
    simp only [hself]
    cases n with
    | zero =>
      obtain rfl : i = d.index e := hn
      exact .inl ⟨.inl rfl, rfl⟩
    | succ n =>
      refine .inr ⟨hne, n, rfl, ?_⟩
      rw [← Ldesc.lo_of_lt (lt_succ_of_le hs)]
      refine ih n (lt_succ_self n) (by omega) (by omega) fun m h₀ h₁ => ?_
      obtain ⟨y, hy, hney, hoky⟩ := h m (by omega) h₁
      rw [sum_eq_sum_Ico_succ_bot (show i < m by omega), ← add_assoc] at hoky
      exact ⟨y, hy, hney, hoky⟩

variable (hT : Tiled (d :: ds)) (hlen : levels ≤ ds.length)
include hT hlen

theorem returned_pos
    (hle : s % d.span ≤ e % d.span) : returned base levels (d :: ds) s e ≠ 0 := by
  induction levels generalizing d ds s e with
  | zero =>
    have := index_le hle
    rw [returned]
    exact Nat.mul_ne_zero (by omega) (Nat.two_pow_pos _).ne'
  | succ levels ih =>
    cases ds with
    | nil => cases hlen
    | cons d' ds =>
      exact ih hT.2 (le_of_succ_le_succ hlen) (part_ordered hT.1 hle (le_refl _))

theorem mapLevels_same
    (hle : s % d.span ≤ e % d.span)
    (h : mapped levels (d :: ds) (fun a => tmpl (phys + offset base levels (d :: ds) s e a)) s e t = t)
    : mapLevels w base tmpl levels (d :: ds) t al phys s e =
      .ok ⟨t, al, returned base levels (d :: ds) s e⟩ := by
  induction levels generalizing d ds t phys s e with
  | zero => rw [mapLevels, map_target ds, h]
  | succ levels ih =>
    cases ds with
    | nil => cases hlen
    | cons d' ds =>
      have hparts : ∀ m, d.index s ≤ m → m ≤ d.index e → ∃ x, t m = .next x ∧
          returned base levels (d' :: ds) (d.lo s m) (d.hi e m) ≠ 0 ∧
          mapLevels w base tmpl levels (d' :: ds) x al (phys + ∑ l ∈ Ico (d.index s) m,
            returned base levels (d' :: ds) (d.lo s l) (d.hi e l)) (d.lo s m) (d.hi e m) =
              .ok ⟨x, al, returned base levels (d' :: ds) (d.lo s m) (d.hi e m)⟩ := by
        intro m h₀ h₁
        have hlen' := le_of_succ_le_succ hlen
        have hord := part_ordered (s := s) hT.1 hle h₁
        have hm := congrFun h m
        rw [mapped_slot hT ⟨h₀, h₁⟩] at hm
        have hsub := congrArg Entry.sub hm
        exact ⟨(t m).sub, hm.symm.trans (congrArg Entry.next hsub), returned_pos hT.2 hlen' hord,
          ih hT.2 hlen' hord hsub⟩
      have hloop := mapLoop_same (w := w) (Nat.le_refl (d.index s)) (Nat.add_sub_cancel' (index_le hle)) hparts
      rwa [Ldesc.lo_index] at hloop

theorem mapLevels_idle_iff
    (h : mapLevels recursive base tmpl levels (d :: ds) t al phys s e = .ok r) :
    r = ⟨t, al, 0⟩ ↔ Idle base tmpl levels (d :: ds) t al phys s e := by
  induction levels generalizing d ds t phys s e r with
  | zero =>
    rw [mapLevels, map_target ds] at h
    cases h
    rw [Idle, Mapped.mk.injEq]
    constructor
    · rintro ⟨-, -, hsize⟩
      by_contra hle
      refine Nat.mul_ne_zero ?_ (Nat.two_pow_pos _).ne' hsize
      omega
    · intro hlt
      refine ⟨funext fun m => ?_, rfl, ?_⟩
      · simp only [mapped]
        rw [if_neg (by omega)]
      · rw [returned, Nat.sub_eq_zero_of_le hlt, Nat.zero_mul]
  | succ levels ih =>
    cases ds with
    | nil => cases hlen
    | cons d' ds =>
      have hlen' := le_of_succ_le_succ hlen
      have hp : Parts d (mapLevels recursive base tmpl levels (d' :: ds)) s e al
          (fun pa m x => mapped levels (d' :: ds)
            (fun a => tmpl (pa + offset base levels (d' :: ds) (d.lo s m) (d.hi e m) a)) (d.lo s m) (d.hi e m) x)
          (fun m => returned base levels (d' :: ds) (d.lo s m) (d.hi e m))
          (fun pa m x => Idle base tmpl levels (d' :: ds) x al pa (d.lo s m) (d.hi e m)) := by
        refine ⟨fun hm hr hsize => ?_, fun hm hF => ?_, fun hr => ih hT.2 hlen' hr⟩
        · obtain ⟨htable, hret, -⟩ := mapLevels_writes hT.2 hlen' (full_ordered hT.1 hm) hr hsize
          exact ⟨htable, hret⟩
        · have hord := full_ordered (s := s) hT.1 hm
          exact ⟨mapLevels_same hT.2 hlen' hord hF, returned_pos hT.2 hlen' hord⟩
      have hi := d.index_lt s
      have he := d.index_lt e
      have hmax : d.index s + (d.index e - d.index s) = max (d.index s) (d.index e) := by omega
      have hloop : mapLoop recursive d (mapLevels recursive base tmpl levels (d' :: ds)) e
          (d.index e - d.index s) (d.index s) (d.lo s (d.index s)) phys t al = .ok r := by
        rw [Ldesc.lo_index]
        exact h
      have hiff := mapLoop_idle_iff hp (le_refl _) (fun hn => by omega) (by omega) hloop
      rwa [hmax] at hiff

end Idle

def SameMap (base : ℕ) (tmpl : ℕ → P) (levels : ℕ) (d : Ldesc) (ds : List Ldesc) (t : Table P) (al : Alloc)
    (phys s e : ℕ) : Prop :=
  d.Crosses s e → Idle base tmpl levels (d :: ds) t al phys s e

theorem map_same_iff {d : Ldesc} {rI rR : Mapped P} (hT : Tiled (d :: ds)) (hlen : levels ≤ ds.length)
    (hI : iterMap base tmpl levels (d :: ds) t al phys s e = .ok rI)
    (hR : recMap base tmpl levels (d :: ds) t al phys s e = .ok rR) :
    rI = rR ↔ SameMap base tmpl levels d ds t al phys s e := by
  have hcases : iterMap base tmpl levels (d :: ds) t al phys s e = if d.Crosses s e then .ok ⟨t, al, 0⟩
      else mapLevels iterative base tmpl levels (d :: ds) t al phys s e := rfl
  rw [hcases] at hI
  by_cases hcross : d.Crosses s e
  · rw [if_pos hcross] at hI
    cases hI
    exact eq_comm.trans ((mapLevels_idle_iff hT hlen hR).trans ⟨fun h _ => h, fun h => h hcross⟩)
  · rw [if_neg hcross, mapLevels_pair hR] at hI
    cases hI
    exact iff_of_true rfl fun hc => absurd hc hcross

end Fiasco.Ptab
