import Fiasco.Mapdb.FlushChains

/-!
# What `foreach_mapping` visits

The visitor walks virtual address ranges of the parent mapping where the flush works
with offsets into its page. Both see the same part of every submap, because a submap
starts at the virtual address of its parent mapping.
-/
namespace Fiasco.Mapdb

open DepthList Dyadic List TreemapOf

variable {S T : Type}

def Node.visit (n : Node S) : Visit S := ⟨n.addr, n.space, n.va, n.shift⟩

def visits (cs : List (List (Node S))) : List (Visit S) := (heads cs).map Node.visit

@[simp] theorem visits_append (cs ds : List (List (Node S))) :
    visits (cs ++ ds) = visits cs ++ visits ds := by
  simp [visits]

theorem visits_flatMap (l : List ℕ) (f : ℕ → List (List (Node S))) :
    visits (l.flatMap f) = l.flatMap fun k => visits (f k) := by
  induction l with
  | nil => rfl
  | cons k l ih => simp [ih]

section List

variable {s : ℕ} {nested : ℕ → List (Node S) → T → List (List (Node S))}

theorem visits_chainsList_real (phys : ℕ) (up : List (Node S)) (st : List (ℕ × Node S)) (a : ℕ)
    (sp : S) (pg d : ℕ) (l : List (Mapping S T)) :
    visits (chainsList s nested phys up st (.real a sp pg d :: l)) =
      ⟨a, sp, pg * 2 ^ s, s⟩ ::
        visits (chainsList s nested phys up
          (advance (Mapping.view s phys) st (.real a sp pg d : Mapping S T)) l) :=
  rfl

theorem forFullSubtree_eq {full : T → List (Visit S)} {phys : ℕ}
    (hfull : ∀ u m, full m = visits (nested phys u m)) (up : List (Node S))
    (st : List (ℕ × Node S)) (minDepth : ℕ) (l : List (Mapping S T)) :
    forFullSubtree full minDepth s l =
      visits (chainsList s nested phys up st (below ((minDepth : ℤ) - 1) l)) := by
  induction l generalizing st with
  | nil => rfl
  | cons x l ih =>
    cases x with
    | real a sp pg d =>
      by_cases hd : minDepth ≤ d
      · have hdeep : Mapping.deeper ((minDepth : ℤ) - 1) (Mapping.real a sp pg d : Mapping S T) = true := by
          simp only [Mapping.deeper, decide_eq_true_eq]
          omega
        rw [forFullSubtree, if_pos hd, below, takeWhile_cons_of_pos hdeep,
          visits_chainsList_real, ← below, ← ih]
      · have hdeep : ¬ Mapping.deeper ((minDepth : ℤ) - 1) (Mapping.real a sp pg d : Mapping S T) = true := by
          simp only [Mapping.deeper, decide_eq_true_eq]
          omega
        rw [forFullSubtree, if_neg hd, below, takeWhile_cons_of_neg hdeep]
        rfl
    | sub a m =>
      rw [forFullSubtree, below_sub, chainsList_sub, visits_append, ← hfull, ← ih]

theorem foreachTree_eq {wfn : S × ℕ → T → Prop} {full : T → List (Visit S)}
    {range : T → Option (List (Visit S))}
    {phys ob oe cap : ℕ} {par : S × ℕ} {l : List (Mapping S T)} (up : List (Node S))
    (minDepth : ℕ) (st : List (ℕ × Node S)) (hst : ∀ e ∈ st.head?, (e.1 : ℤ) ≤ (minDepth : ℤ) - 1)
    (hwithin : ∀ par m u, wfn par m → Within phys (phys + 2 ^ s) u (nested phys u m))
    (hfull : ∀ u m, full m = visits (nested phys u m))
    (hrange : ∀ m u, wfn par m →
      range m = some (visits ((nested phys u m).filter (hit u (phys + ob) (phys + oe)))))
    (hb : ob < oe) (he : oe ≤ 2 ^ s) (h : wfList s wfn cap par true l) :
    foreachTree full range minDepth s l =
      some (visits ((chainsList s nested phys up st (below ((minDepth : ℤ) - 1) l)).filter
        (hit (path st ++ up) (phys + ob) (phys + oe)))) := by
  have hreal : ∀ l' : List (Mapping S T), noSub l' → (∀ x ∈ l', x ∈ l) →
      (chainsList s nested phys up st (below ((minDepth : ℤ) - 1) l')).filter
        (hit (path st ++ up) (phys + ob) (phys + oe)) =
      chainsList s nested phys up st (below ((minDepth : ℤ) - 1) l') := by
    intro l' hn hsub
    rw [filter_eq_self]
    intro c hc
    obtain ⟨ch, hch, hp, hs⟩ := chainsList_below_child hwithin h hst hn hsub hc
    rw [hit_of_extends hch, hp, hs]
    simp only [Bool.and_eq_true, decide_eq_true_eq]
    omega
  cases l with
  | nil => rfl
  | cons x l =>
    cases x with
    | real a sp pg d =>
      rw [hreal (.real a sp pg d :: l) trivial fun x hx => hx, foreachTree,
        forFullSubtree_eq hfull up st]
    | sub a m =>
      rw [foreachTree, below_sub, chainsList_sub, filter_append, visits_append,
        hreal l (wfList_noSub h.2.2) fun x hx => mem_cons_of_mem _ hx,
        hrange m (path st ++ up) h.2.1, ← forFullSubtree_eq hfull up st]
      rfl

end List

theorem forFullTreemap_eq (ss : List ℕ) (base : ℕ) (up : List (Node S)) (t : Treemap S ss) :
    forFullTreemap ss t = visits (chains ss base up t) := by
  induction ss generalizing base up with
  | nil => exact nomatch t
  | cons s ss ih =>
    rw [chains, chainsOf, visits_flatMap]
    refine flatMap_congr_left fun k _ => ?_
    have h := forFullSubtree_eq (s := s) (fun u m => ih (base + k * 2 ^ s) u m) up [] 0
      (tree t k)
    rw [h]
    simp

theorem offsEnd_of_le {pv ve : ℕ} (h : pv ≤ ve) (size : ℕ) :
    offsEnd size pv ve = if pv + size < ve then size else ve - pv := by
  rw [offsEnd, wordSub, if_pos h]

/-- The range cuts an aligned block out of the page of the given size at `pv`. -/
structure Clips (size pv vs ve : ℕ) : Prop where
  le : pv ≤ ve
  block : ∃ o, IsBlock o (offsBegin pv vs) (offsEnd size pv ve)

section Clips

variable {size pv vs ve : ℕ} (h : Clips size pv vs ve)
include h

theorem Clips.lt : offsBegin pv vs < offsEnd size pv ve := by
  obtain ⟨o, hb⟩ := h.block
  exact hb.lt

theorem Clips.end_le : offsEnd size pv ve ≤ size := by
  rw [offsEnd_of_le h.le]
  split_ifs <;> omega

end Clips

theorem clip_page {s ps po k vb ve : ℕ} (hs : s ≤ ps) (hk : k < 2 ^ (ps - s))
    (hb : Clips (2 ^ ps) po vb ve)
    (h₁ : offsBegin po vb < k * 2 ^ s + 2 ^ s) (h₂ : k * 2 ^ s < offsEnd (2 ^ ps) po ve) :
    Clips (2 ^ s) (po + k * 2 ^ s) vb ve ∧
      offsBegin (po + k * 2 ^ s) vb = offsBegin po vb - k * 2 ^ s ∧
      offsEnd (2 ^ s) (po + k * 2 ^ s) ve = min (2 ^ s) (offsEnd (2 ^ ps) po ve - k * 2 ^ s) := by
  have hpage := page_le hs hk
  have hle := offsEnd_of_le hb.le (2 ^ ps)
  have hve : po + k * 2 ^ s ≤ ve := by
    generalize k * 2 ^ s = b at h₂ ⊢
    rw [hle] at h₂
    split_ifs at h₂ <;> omega
  have hbegin : offsBegin (po + k * 2 ^ s) vb = offsBegin po vb - k * 2 ^ s := by
    simp only [offsBegin]
    generalize k * 2 ^ s = b
    split_ifs <;> omega
  have hend : offsEnd (2 ^ s) (po + k * 2 ^ s) ve =
      min (2 ^ s) (offsEnd (2 ^ ps) po ve - k * 2 ^ s) := by
    rw [offsEnd_of_le hve, hle, min_def]
    generalize k * 2 ^ s = b at hpage hve ⊢
    generalize 2 ^ s = e at hpage ⊢
    generalize 2 ^ ps = f at hpage ⊢
    split_ifs <;> omega
  refine ⟨⟨hve, ?_⟩, hbegin, hend⟩
  obtain ⟨o, hb⟩ := hb.block
  rw [hbegin, hend]
  by_cases hos : s ≤ o
  · obtain ⟨hlo, hhi⟩ := hb.covers hos h₁ h₂
    refine ⟨s, ?_, ?_⟩
    · rw [Nat.sub_eq_zero_of_le hlo]
      exact dvd_zero _
    · generalize k * 2 ^ s = b at hlo hhi
      omega
  · obtain ⟨hlo, hhi⟩ := hb.inside (not_le.mp hos).le h₁ h₂
    have hsub := hb.sub (not_le.mp hos).le hlo
    refine ⟨o, hsub.dvd, ?_⟩
    rw [← hsub.size]
    generalize k * 2 ^ s = b at hhi
    omega

theorem hit_congr_of_within {up c : List (Node S)} {a b lo hi lo' hi' : ℕ}
    (h : ∃ ch, Extends up c ch ∧ a ≤ ch.phys ∧ ch.phys + 2 ^ ch.shift ≤ b)
    (hlo : max a lo = max a lo') (hhi : min b hi = min b hi') :
    hit up lo hi c = hit up lo' hi' c := by
  obtain ⟨ch, hch, h₁, h₂⟩ := h
  have hpos := Nat.two_pow_pos ch.shift
  rw [hit_of_extends hch, hit_of_extends hch]
  congr 1
  · exact decide_eq_decide.mpr (by omega)
  · exact decide_eq_decide.mpr (by omega)

theorem foreachStart_eq (s : ℕ) (t : TreemapOf S T) (vb : ℕ) :
    foreachStart s t vb = truncToPage s (offsBegin t.pageOffset vb) := by
  simp only [foreachStart, truncToPage, offsBegin]
  split_ifs <;> simp

theorem foreachEnd_eq {s ps ve : ℕ} (hs : s ≤ ps) {t : TreemapOf S T}
    (hkey : t.keyEnd = 2 ^ (ps - s)) (hve : t.pageOffset ≤ ve) :
    foreachEnd s t ve = roundToPage s (offsEnd (2 ^ ps) t.pageOffset ve) := by
  have hsize : t.size s = 2 ^ ps := by
    rw [size, hkey, two_pow_split hs]
  have hround : roundToPage s (2 ^ ps) = t.keyEnd := by
    rw [hkey, roundToPage]
    apply le_antisymm
    · rw [round_le_iff, two_pow_split hs]
    · by_contra hc
      have := round_le_iff.mp (Nat.le_sub_one_of_lt (not_le.mp hc))
      have h2 := two_pow_split hs
      have h3 := Nat.two_pow_pos (ps - s)
      have h4 : (2 ^ (ps - s) - 1) * 2 ^ s < 2 ^ (ps - s) * 2 ^ s :=
        Nat.mul_lt_mul_of_pos_right (by omega) (Nat.two_pow_pos s)
      omega
  rw [foreachEnd, offsEnd_of_le hve, hsize, if_pos hve]
  split_ifs with h₁ h₂ h₂
  · omega
  · rfl
  · exact hround.symm
  · rw [← hround, show 2 ^ ps = ve - t.pageOffset by omega]

theorem flatMap_range_window {β : Type} {n a b : ℕ} (hb : b ≤ n) {f : ℕ → List β}
    (h : ∀ k < n, ¬ (a ≤ k ∧ k < b) → f k = []) :
    (range n).flatMap f = (range' a (b - a)).flatMap f := by
  have hnil : ∀ l : List ℕ, (∀ k ∈ l, f k = []) → l.flatMap f = [] := by
    intro l hl
    rw [flatMap_eq_nil_iff]
    exact hl
  rcases le_or_gt a b with hab | hab
  · have hsplit : range n = range' 0 a ++ range' a (b - a) ++ range' b (n - b) := by
      have h1 := @range'_append_1 0 a (b - a)
      have h2 := @range'_append_1 0 b (n - b)
      rw [Nat.zero_add, Nat.add_sub_cancel' hab] at h1
      rw [Nat.zero_add, Nat.add_sub_cancel' hb] at h2
      rw [range_eq_range', h1, h2]
    rw [hsplit, flatMap_append, flatMap_append, hnil (range' 0 a),
      hnil (range' b (n - b)), nil_append, append_nil]
    · intro k hk
      have := mem_range'_1.mp hk
      exact h k (by omega) (by omega)
    · intro k hk
      have := mem_range'_1.mp hk
      exact h k (by omega) (by omega)
  · rw [Nat.sub_eq_zero_of_le hab.le, hnil]
    · rfl
    · intro k hk
      exact h k (mem_range.mp hk) (by omega)

section ForRange

variable {β : Type} {n : ℕ} {f : ℕ → Option (List β)} {ks : List ℕ}

theorem forRange_eq_some {g : ℕ → List β} (h : ∀ k ∈ ks, k < n ∧ f k = some (g k)) :
    forRange n f ks = some (ks.flatMap g) := by
  induction ks with
  | nil => rfl
  | cons k ks ih =>
    obtain ⟨hk, hf⟩ := h k mem_cons_self
    rw [forRange, if_pos hk, hf, ih fun i hi => h i (mem_cons_of_mem _ hi)]
    rfl

theorem forRange_eq_nil : forRange n f ks = some [] ↔ ∀ k ∈ ks, k < n ∧ f k = some [] := by
  constructor
  · intro h
    induction ks with
    | nil => exact fun k hk => absurd hk not_mem_nil
    | cons k ks ih =>
      rw [forRange] at h
      split_ifs at h with hk
      obtain ⟨v, hf, hrest⟩ := Option.bind_eq_some_iff.mp h
      obtain ⟨w, hw, hnil⟩ := Option.map_eq_some_iff.mp hrest
      obtain ⟨rfl, rfl⟩ := append_eq_nil_iff.mp hnil
      rintro i (_ | ⟨_, hi⟩)
      · exact ⟨hk, hf⟩
      · exact ih hw i hi
  · intro h
    rw [forRange_eq_some (g := fun _ => []) h, flatMap_eq_nil_iff.mpr fun _ _ => rfl]

end ForRange

theorem foreachTreemap_eq {ss : List ℕ} {ps : ℕ} (hs : Levels ps ss) {vb ve : ℕ} {par : S × ℕ}
    {t : Treemap S ss} (h : wf ss ps par t) (hb : Clips (2 ^ ps) par.2 vb ve) (base : ℕ)
    (up : List (Node S)) :
    foreachTreemap ss vb ve t = some (visits ((chains ss base up t).filter
      (hit up (base + offsBegin par.2 vb) (base + offsEnd (2 ^ ps) par.2 ve)))) := by
  induction ss generalizing ps par base up with
  | nil => exact nomatch t
  | cons s ss ih =>
    have hle := hb.end_le
    have hkey := wfOf.keyEnd h
    have hoff := wfOf.pageOffset h
    have hwithin : ∀ phys (par : S × ℕ) (m : Treemap S ss) u, wf ss s par m →
        Within phys (phys + 2 ^ s) u (chains ss phys u m) :=
      fun phys par m u hm => chains_within hs.tail hm phys u
    rw [foreachTreemap, foreachStart_eq, foreachEnd_eq hs.head hkey (hoff ▸ hb.le), hoff, chains,
      chainsOf, filter_flatMap, visits_flatMap]
    rw [flatMap_range_window (a := truncToPage s (offsBegin par.2 vb))
      (b := roundToPage s (offsEnd (2 ^ ps) par.2 ve))]
    · refine forRange_eq_some fun k hmem => ?_
      have hwin := mem_range'_1.mp hmem
      have hkr : k < roundToPage s (offsEnd (2 ^ ps) par.2 ve) := by omega
      have h₂ : k * 2 ^ s < offsEnd (2 ^ ps) par.2 ve :=
        not_le.mp fun hc => absurd (round_le_iff.mpr hc) (not_le.mpr hkr)
      have hk : k < keyEnd t := by
        by_contra hc
        have h2 : keyEnd t * 2 ^ s ≤ k * 2 ^ s := Nat.mul_le_mul_right _ (not_lt.mp hc)
        rw [hkey, two_pow_split hs.head] at h2
        omega
      have h₁ : offsBegin par.2 vb < k * 2 ^ s + 2 ^ s := lt_add_page_of_div_le hwin.1
      obtain ⟨hb', hob, hoe⟩ := clip_page hs.head (hkey ▸ hk) hb h₁ h₂
      have hwf := wfOf.tree h k hk
      have hva : frameVaddr s t k = par.2 + k * 2 ^ s := by
        rw [frameVaddr, hoff]
      rw [hva] at hwf
      have htree := foreachTree_eq up 0 [] (by simp)
        (hwithin (base + k * 2 ^ s)) (fun u m => forFullTreemap_eq ss _ u m)
        (fun m u hm => ih hs.tail hm hb' (base + k * 2 ^ s) u) hb'.lt hb'.end_le hwf
      refine ⟨hk, htree.trans (congrArg (fun cs => some (visits cs)) ?_)⟩
      simp only [Nat.cast_zero, zero_sub, below_neg_one]
      refine filter_congr fun c hc => ?_
      refine hit_congr_of_within (chainsList_within (hwithin _) hwf up c hc) ?_ ?_
      · rw [hob]
        generalize k * 2 ^ s = b
        omega
      · rw [hoe]
        generalize k * 2 ^ s = b at h₂ ⊢
        omega
    · rw [hkey, roundToPage, round_le_iff, two_pow_split hs.head]
      exact hle
    · intro k hk hout
      rw [show (chainsList s (chains ss) (base + k * 2 ^ s) up [] (tree t k)).filter
          (hit up (base + offsBegin par.2 vb) (base + offsEnd (2 ^ ps) par.2 ve)) = [] from ?_]
      · rfl
      rw [filter_eq_nil_iff]
      intro c hc
      obtain ⟨ch, hch, hc₁, hc₂⟩ := chainsList_within (hwithin _) (wfOf.tree h k hk) up c hc
      rw [hit_of_extends hch]
      simp only [Bool.and_eq_true, decide_eq_true_eq, not_and]
      rcases not_and_or.mp hout with hc | hc
      · have := add_page_le_of_lt_div (not_le.mp hc)
        omega
      · have := round_le_iff.mp (not_lt.mp hc)
        omega

end Fiasco.Mapdb
