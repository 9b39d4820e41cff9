import Fiasco.Ptab.MapExact

/-!
# What a call leaves alone

Whatever the result of a `map` is, also if it gave up for want of memory, it has changed the
translation of no address outside of its range. An `unmap` does the same, and it ends, if all
entries above the target level on the way to its range refer to tables.
-/
namespace Fiasco.Ptab

open Function

variable {P : Type} {ds : List Ldesc} {t : Table P} {w : Walker} {d : Ldesc}

section Addresses

variable {s e v v' levels : ℕ}

theorem index_congr (h : v % d.span = v' % d.span) : d.index v = d.index v' := by
  rw [← index_mod_span, h, index_mod_span]

variable {d' : Ldesc}

theorem mod_next_span (hd : d.shift = d'.shift + d'.size) (h : v % d.span = v' % d.span) :
    v % d'.span = v' % d'.span := by
  have hdvd : d'.span ∣ d.span := by
    rw [next_span hd, Ldesc.span]
    exact Nat.pow_dvd_pow 2 (Nat.le_add_right _ _)
  rw [← Nat.mod_mod_of_dvd v hdvd, h, Nat.mod_mod_of_dvd v' hdvd]

theorem index_page {k : ℕ} (hk : k ≤ d.shift) (h : v / 2 ^ k = v' / 2 ^ k) :
    d.index v = d.index v' := by
  have hdiv : ∀ a, a / 2 ^ d.shift = a / 2 ^ k / 2 ^ (d.shift - k) := by
    intro a
    rw [Nat.div_div_eq_div_mul, ← pow_add, Nat.add_sub_cancel' hk]
  rw [Ldesc.index, Ldesc.index, Radix.digit, Radix.digit, hdiv v, hdiv v', h]

theorem translate_of_walk {x : Entry P} {k : ℕ} (hlen : levels ≤ ds.length)
    (h : walk w levels (d :: ds) t v = .ok (x, k)) :
    (∀ p, x = .leaf p → k = 0 → translate (d :: ds) t v = some (p, ds.length - levels)) ∧
      (x = .invalid → translate (d :: ds) t v = none) := by
  induction levels generalizing d ds t with
  | zero =>
    cases h
    rw [translate]
    refine ⟨fun p hp _ => ?_, fun hx => ?_⟩
    · rw [hp]
      rfl
    · rw [hx]
  | succ levels ih =>
    cases ds with
    | nil => cases hlen
    | cons d' ds =>
      rw [walk] at h
      rw [translate]
      cases ht : t (d.index v) with
      | invalid =>
        simp only [ht] at h
        cases h
        exact ⟨by simp, fun _ => rfl⟩
      | leaf q =>
        simp only [ht] at h
        split at h <;> cases h
        exact ⟨fun _ _ hk => (by simp at hk), by simp⟩
      | next y =>
        simp only [ht] at h
        rw [List.length_cons, Nat.add_sub_add_right]
        exact ih (Nat.le_of_succ_le_succ hlen) h

theorem In.slot {i a : ℕ} (hi : d.index s ≤ i) (hie : i ≤ d.index e) (ha : a < 2 ^ d.shift)
    (hlo : d.lo s i % 2 ^ d.shift ≤ a) (hhi : a ≤ d.hi e i % 2 ^ d.shift) :
    d.In s e (i * 2 ^ d.shift + a) ∧ d.index (i * 2 ^ d.shift + a) = i := by
  have hlt : i < d.length := lt_of_le_of_lt hie (d.index_lt e)
  have hidx : d.index (i * 2 ^ d.shift + a) = i := Radix.digit_slot hlt ha
  refine ⟨mem_table_iff.mpr ?_, hidx⟩
  rw [hidx, Radix.slot_mod ha]
  exact ⟨⟨hi, hie⟩, hlo, hhi⟩

theorem In.part {i : ℕ} (hd : d.shift = d'.shift + d'.size) (hi : d.index s ≤ i)
    (hie : i ≤ d.index e) (h : d'.In (d.lo s i) (d.hi e i) v) :
    ∃ v', d.In s e v' ∧ d.index v' = i ∧ v' % d'.span = v % d'.span := by
  have hspan := next_span hd
  obtain ⟨hlo, hhi⟩ := h
  rw [hspan] at hlo hhi
  have hv := Nat.mod_lt v (Nat.two_pow_pos d.shift)
  obtain ⟨hin, hidx⟩ := In.slot hi hie hv hlo hhi
  refine ⟨_, hin, hidx, ?_⟩
  rw [hspan, Radix.slot_mod hv]

theorem In.first {i : ℕ} (hle : s % d.span ≤ e % d.span) (hi : d.index s ≤ i)
    (hie : i ≤ d.index e) : ∃ v, d.In s e v ∧ d.index v = i := by
  have hp := Nat.mod_lt (d.lo s i) (Nat.two_pow_pos d.shift)
  obtain ⟨hin, hidx⟩ := In.slot hi hie hp (Nat.le_refl _) (Radix.part_le hle hie)
  exact ⟨_, hin, hidx⟩

def Tables : ℕ → List Ldesc → Table P → ℕ → ℕ → Prop
  | levels + 1, d :: ds, t, s, e => ∀ i, d.index s ≤ i → i ≤ d.index e →
    ∃ x, t i = .next x ∧ Tables levels ds x (d.lo s i) (d.hi e i)
  | _, _, _, _, _ => True

variable (hT : Tiled (d :: ds))
include hT

theorem translate_congr (h : v % d.span = v' % d.span) :
    translate (d :: ds) t v = translate (d :: ds) t v' := by
  induction ds generalizing d t with
  | nil =>
    rw [translate, translate, index_congr h]
    cases t (d.index v') <;> rfl
  | cons d' ds ih =>
    rw [translate, translate, index_congr h]
    cases t (d.index v') with
    | invalid | leaf p => rfl
    | next x => exact ih hT.2 (mod_next_span hT.1 h)

theorem walk_congr (h : v % d.span = v' % d.span) :
    walk w levels (d :: ds) t v = walk w levels (d :: ds) t v' := by
  induction levels generalizing d ds t with
  | zero => rw [walk, walk, index_congr h]
  | succ levels ih =>
    rw [walk, walk, index_congr h]
    cases t (d.index v') with
    | invalid | leaf p => rfl
    | next x =>
      cases ds with
      | nil => cases levels <;> rfl
      | cons d' ds => exact ih hT.2 (mod_next_span hT.1 h)

theorem walk_page
    (h : v / 2 ^ pageShift levels (d :: ds) = v' / 2 ^ pageShift levels (d :: ds)) :
    walk w levels (d :: ds) t v = walk w levels (d :: ds) t v' := by
  have hindex : d.index v = d.index v' := index_page (pageShift_le hT) h
  induction levels generalizing d ds t with
  | zero => rw [walk, walk, hindex]
  | succ levels ih =>
    rw [walk, walk, hindex]
    cases t (d.index v') with
    | invalid | leaf p => rfl
    | next x =>
      cases ds with
      | nil => cases levels <;> rfl
      | cons d' ds => exact ih hT.2 h (index_page (pageShift_le hT.2) h)

theorem noPage_of_invalid (hlen : levels ≤ ds.length) (hle : s % d.span ≤ e % d.span)
    (h : ∀ v, d.In s e v → ∃ k, walk w levels (d :: ds) t v = .ok (.invalid, k)) :
    NoPage (fun _ => true) levels (d :: ds) s e t := by
  induction levels generalizing d ds s e t with
  | zero => trivial
  | succ levels ih =>
    cases ds with
    | nil => cases hlen
    | cons d' ds =>
      intro i hi hie
      have hstep : ∀ v, d.In s e v → d.index v = i → (t i).isLeaf = false ∧
          ∃ k, walk w levels (d' :: ds) (t i).sub v = .ok (.invalid, k) := by
        intro v hv hidx
        obtain ⟨k, hk⟩ := h v hv
        rw [walk, hidx] at hk
        cases ht : t i with
        | invalid =>
          refine ⟨rfl, ?_⟩
          cases levels with
          | zero => exact ⟨0, rfl⟩
          | succ n => exact ⟨n + 1, rfl⟩
        | leaf p =>
          simp only [ht] at hk
          split at hk <;> simp at hk
        | next x =>
          simp only [ht] at hk
          exact ⟨rfl, k, hk⟩
      obtain ⟨v, hv, hidx⟩ := In.first hle hi hie
      refine ⟨fun _ => (hstep v hv hidx).1, ih hT.2 (Nat.le_of_succ_le_succ hlen)
        (part_ordered hT.1 hle hie) fun v' hv' => ?_⟩
      obtain ⟨u, hu, huidx, humod⟩ := In.part hT.1 hi hie hv'
      obtain ⟨-, k, hk⟩ := hstep u hu huidx
      exact ⟨k, by rw [walk_congr hT.2 humod.symm, hk]⟩

theorem tables_of_pages (hle : s % d.span ≤ e % d.span)
    (h : ∀ v, d.In s e v → ∃ p, translate (d :: ds) t v = some (p, 0)) :
    Tables ds.length (d :: ds) t s e := by
  induction ds generalizing d s e t with
  | nil => trivial
  | cons d' ds ih =>
    intro i hi hie
    have hstep : ∀ v, d.In s e v → d.index v = i →
        ∃ x, t i = .next x ∧ ∃ p, translate (d' :: ds) x v = some (p, 0) := by
      intro v hv hidx
      obtain ⟨p, hp⟩ := h v hv
      rw [translate, hidx] at hp
      cases ht : t i with
      | invalid | leaf q => simp [ht] at hp
      | next x =>
        simp only [ht] at hp
        exact ⟨x, rfl, p, hp⟩
    obtain ⟨v, hv, hidx⟩ := In.first hle hi hie
    obtain ⟨x, hx, -⟩ := hstep v hv hidx
    refine ⟨x, hx, ih hT.2 (part_ordered hT.1 hle hie) fun v' hv' => ?_⟩
    obtain ⟨u, hu, huidx, humod⟩ := In.part hT.1 hi hie hv'
    obtain ⟨y, hy, p, hp⟩ := hstep u hu huidx
    rw [hx] at hy
    cases hy
    exact ⟨p, by rw [translate_congr hT.2 humod.symm, hp]⟩

end Addresses

section Unmap

variable {depth fuel : ℕ} {s e : ℕ} {sub : Table P → ℕ → ℕ → Except Stop (Table P)}

theorem unmapLoop_tables (hle : d.index s ≤ d.index e) (hf : 2 * d.length ≤ fuel)
    (h : ∀ i, d.index s ≤ i → i ≤ d.index e → ∃ x x', t i = .next x ∧ sub x (d.lo s i) (d.hi e i) = .ok x') :
    ∃ t', unmapLoop w d sub e fuel (d.index s) s t = .ok t' ∧ Swept d sub s e (d.index s) t t' := by
  let f : ℕ → Table P → Table P := fun i x =>
    match sub x (d.lo s i) (d.hi e i) with
    | .ok x' => x'
    | .error _ => x
  have hsw : Swept d sub s e (d.index s) t (sweep d s e f t) := by
    refine swept_sweep fun i x hi hie hx => ?_
    obtain ⟨y, x', hy, hx'⟩ := h i hi hie
    rw [hx] at hy
    cases hy
    simp only [f, hx']
  obtain ⟨x, -, hx, -⟩ := h _ hle (le_refl _)
  have hend : Ends w d t (d.index e) (d.index e) (d.index e) :=
    ⟨le_refl _, w.slot_of_lt d _ (d.index_lt e), by rw [hx]; rfl, fun m h₀ h₁ => by omega⟩
  exact ⟨_, (unmapLoop_level hle hf).mpr ⟨_, _, _, hsw, hend, .inl ⟨rfl, rfl⟩⟩, hsw⟩

theorem translate_unmapLoop {d' : Ldesc}
    (hT : Tiled (d :: d' :: ds)) (hle : d.index s ≤ d.index e) (hf : 2 * d.length ≤ fuel)
    (h : ∀ i, d.index s ≤ i → i ≤ d.index e → ∃ x, t i = .next x ∧
      ∃ x', sub x (d.lo s i) (d.hi e i) = .ok x' ∧ ∀ v, ¬d'.In (d.lo s i) (d.hi e i) v →
        translate (d' :: ds) x' v = translate (d' :: ds) x v) :
    ∃ t', unmapLoop w d sub e fuel (d.index s) s t = .ok t' ∧
      ∀ v, ¬d.In s e v → translate (d :: d' :: ds) t' v = translate (d :: d' :: ds) t v := by
  have htab : ∀ i, d.index s ≤ i → i ≤ d.index e →
      ∃ x x', t i = .next x ∧ sub x (d.lo s i) (d.hi e i) = .ok x' := by
    intro i hi hie
    obtain ⟨x, hx, x', hx', -⟩ := h i hi hie
    exact ⟨x, x', hx, hx'⟩
  obtain ⟨t', ht', hsw⟩ := unmapLoop_tables (w := w) hle hf htab
  refine ⟨t', ht', fun v hv => ?_⟩
  rw [translate, translate]
  by_cases hslot : d.index s ≤ d.index v ∧ d.index v ≤ d.index e
  · obtain ⟨x, hx, y, hy, hout⟩ := h _ hslot.1 hslot.2
    have hvis := hsw.inside _ hslot.1 hslot.2
    rw [hx] at hvis
    obtain ⟨x', hx', hnew⟩ := hvis
    rw [hx'] at hy
    cases hy
    rw [hnew, hx]
    exact hout v (not_in_part hT.1 hslot hv)
  · rw [hsw.outside _ hslot]

theorem translate_unmapLevels (hw : w.Known) (hT : Tiled (d :: ds)) (hlen : depth < ds.length)
    (hF : ∀ d' ∈ d :: ds, 2 * d'.length ≤ fuel) (hle : s % d.span ≤ e % d.span)
    (hs : Aligned (depth + 1) (d :: ds) s) (he : Aligned (depth + 1) (d :: ds) (e + 1))
    (ht : Tables (depth + 1) (d :: ds) t s e) :
    ∃ t', unmapLevels w fuel depth (d :: ds) t s e = .ok t' ∧
      ∀ v, ¬d.In s e v → translate (d :: ds) t' v = translate (d :: ds) t v := by
  induction depth generalizing d ds t s e with
  | zero =>
    cases ds with
    | nil => cases hlen
    | cons d' ds =>
      refine translate_unmapLoop hT (index_le hle) (hF d (List.mem_cons_self ..)) fun i hi hie => ?_
      obtain ⟨x, hx, -⟩ := ht i hi hie
      refine ⟨x, hx, _, rfl, fun v hv => ?_⟩
      have hend := leafEnd_le (e := e) (i := i) hw hT.1
      have hs' : 2 ^ d'.shift ∣ d.lo s i := Aligned.lo hT hs
      have he' : 2 ^ d'.shift ∣ d.hi e i + 1 := Aligned.hi hT he
      have hout := not_slot_of_not_in hs' he' hv
      rw [translate, translate, unmap_apply, if_neg (by omega)]
  | succ depth ih =>
    cases ds with
    | nil => cases hlen
    | cons d' ds =>
      refine translate_unmapLoop hT (index_le hle) (hF d (List.mem_cons_self ..)) fun i hi hie => ?_
      obtain ⟨x, hx, htx⟩ := ht i hi hie
      exact ⟨x, hx, ih hT.2 (Nat.lt_of_succ_lt_succ hlen) (fun d'' hd => hF d'' (List.mem_cons_of_mem _ hd))
        (part_ordered hT.1 hle hie) (Aligned.lo hT hs) (Aligned.hi hT he) htx⟩

theorem translate_unmap (iter : Bool) (hT : Tiled (d :: ds)) (hF : ∀ d' ∈ d :: ds, 2 * d'.length ≤ fuel)
    (hle : s % d.span ≤ e % d.span) (hroot : s / d.span = e / d.span)
    (hs : Aligned ds.length (d :: ds) s) (he : Aligned ds.length (d :: ds) (e + 1))
    (h : ∀ v, d.In s e v → ∃ p, translate (d :: ds) t v = some (p, 0)) :
    ∃ t', (if iter then iterUnmap fuel ds.length (d :: ds) t s e
        else recUnmap fuel ds.length (d :: ds) t s e) = .ok t' ∧
      ∀ v, ¬d.In s e v → translate (d :: ds) t' v = translate (d :: ds) t v := by
  have ht := tables_of_pages hT hle h
  cases ds with
  | nil =>
    refine ⟨t.unmap d s e, ?_, fun v hv => ?_⟩
    · cases iter <;> simp [iterUnmap, recUnmap, hroot]
    · rw [translate, translate, unmap_apply, if_neg (not_slot_of_not_in hs he hv)]
  | cons d' ds =>
    have hlen : ds.length < (d' :: ds).length := Nat.lt_succ_self _
    cases iter with
    | true =>
      simp only [if_true, iterUnmap, hroot, ne_eq, not_true_eq_false, and_false, if_false]
      exact translate_unmapLevels (.inl rfl) hT hlen hF hle hs he ht
    | false => exact translate_unmapLevels (.inr rfl) hT hlen hF hle hs he ht

end Unmap

end Fiasco.Ptab
