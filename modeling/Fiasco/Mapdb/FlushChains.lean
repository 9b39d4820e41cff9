import Fiasco.Mapdb.Chains

/-!
# Which chains a flush removes

A flush restricted to an aligned block of a page removes, of everything derived from
that page, exactly the chains whose first step away from the page meets the block.
-/
namespace Fiasco.Mapdb

open DepthList Dyadic List

variable {S T : Type} {ss : List ℕ} {par : S × ℕ}

def hit (up : List (Node S)) (lo hi : ℕ) (c : List (Node S)) : Bool :=
  match c.reverse[up.length]? with
  | some ch => ch.phys < hi && lo < ch.phys + 2 ^ ch.shift
  | none => false

theorem hit_of_extends {up c : List (Node S)} {ch : Node S} (h : Extends up c ch) (lo hi : ℕ) :
    hit up lo hi c = (decide (ch.phys < hi) && decide (lo < ch.phys + 2 ^ ch.shift)) := by
  obtain ⟨p, rfl⟩ := h
  have hget : (p ++ ch :: up).reverse[up.length]? = some ch := by
    simp
  rw [hit, hget]

section List

variable {s : ℕ} {nested : ℕ → List (Node S) → T → List (List (Node S))} {up : List (Node S)}
  {wfn : S × ℕ → T → Prop} {ops : SubmapOps S T} {ob oe : ℕ} {par : S × ℕ}
  {cs : List (List (Node S))} {l : List (Mapping S T)}

theorem chainsList_rest (phys : ℕ) (up : List (Node S)) (st : List (ℕ × Node S)) (p : ℤ)
    (l : List (Mapping S T)) :
    chainsList s nested phys up st l = chainsList s nested phys up st (below p l) ++
      chainsList s nested phys up st (rest p l) := by
  conv_lhs => rw [← below_append_rest p l]
  rw [chainsList_append]
  congr 1
  rw [chainsList, chainsList, ← beyond_view s phys]
  refine scan_beyond _ (fun x hx => atLeast_of_deeper ?_) st
  rw [deeper_view]
  exact deeper_of_mem_below hx

theorem filter_eq_nil_of_hit {lo hi : ℕ}
    (h : ∀ c ∈ cs, ∃ ch, Extends up c ch ∧ ch.phys < hi ∧ lo < ch.phys + 2 ^ ch.shift) :
    cs.filter (fun c => !hit up lo hi c) = [] := by
  rw [filter_eq_nil_iff]
  intro c hc
  obtain ⟨ch, hext, h₁, h₂⟩ := h c hc
  simp [hit_of_extends hext, h₁, h₂]

theorem filter_eq_self_of_apart {lo hi a b : ℕ} (h : Within a b up cs)
    (hab : b ≤ lo ∨ hi ≤ a) : cs.filter (fun c => !hit up lo hi c) = cs := by
  rw [filter_eq_self]
  intro c hc
  obtain ⟨ch, hext, h₁, h₂⟩ := h c hc
  rw [hit_of_extends hext]
  rcases hab with hab | hab
  · have : ¬ lo < ch.phys + 2 ^ ch.shift := by omega
    simp [this]
  · have : ¬ ch.phys < hi := by omega
    simp [this]

theorem chainsList_flushLoop {phys : ℕ} {cap : ℕ} (up : List (Node S))
    (pd : ℤ) (st : List (ℕ × Node S)) (hst : ∀ e ∈ st.head?, (e.1 : ℤ) ≤ pd)
    (hwithin : ∀ par m u, wfn par m → Within phys (phys + 2 ^ s) u (nested phys u m))
    (hsize : ∀ par m, wfn par m → ops.size m = 2 ^ s)
    (hflush : ∀ par m u, wfn par m → ops.isPartial m ob oe → nested phys u (ops.flush m ob oe).1 =
      (nested phys u m).filter (fun c => !hit u (phys + ob) (phys + oe) c))
    (hb : ob < oe) (he : oe ≤ 2 ^ s) (h : wfList s wfn cap par true l) :
    chainsList s nested phys up st (flushLoop ops pd false ob oe pd l).1 =
      (chainsList s nested phys up st (below pd l)).filter
          (fun c => !hit (path st ++ up) (phys + ob) (phys + oe) c) ++
        chainsList s nested phys up st (rest pd l) := by
  have hreal : ∀ l' : List (Mapping S T), noSub l' → (∀ x ∈ l', x ∈ l) →
      (chainsList s nested phys up st (below pd l')).filter
        (fun c => !hit (path st ++ up) (phys + ob) (phys + oe) c) = [] := by
    intro l' hn hsub
    refine filter_eq_nil_of_hit fun c hc => ?_
    obtain ⟨ch, hch, hp, hs⟩ := chainsList_below_child hwithin h hst hn hsub hc
    refine ⟨ch, hch, ?_, ?_⟩
    · rw [hp]
      omega
    · rw [hp, hs]
      omega
  cases l with
  | nil => rfl
  | cons x l =>
    cases x with
    | real a sp pg d =>
      rw [hreal (.real a sp pg d :: l) trivial fun x hx => hx, nil_append,
        flushLoop_of_noSub ops ob oe (l := .real a sp pg d :: l) trivial]
    | sub a m =>
      have hn : noSub l := wfList_noSub h.2.2
      rw [flushLoop_sub ops ob oe hn, below_sub, chainsList_sub, filter_append,
        hreal l hn fun x hx => mem_cons_of_mem _ hx, append_nil, rest_sub]
      by_cases hpart : ops.isPartial m ob oe = true
      · rw [if_pos (by simp [hpart]), chainsList_sub, hflush par m _ h.2.1 hpart]
      · have hfull : ob = 0 ∧ oe = 2 ^ s := by
          have := hsize par m h.2.1
          simp only [SubmapOps.isPartial, Bool.or_eq_true, decide_eq_true_eq] at hpart
          omega
        rw [if_neg (by simp [hpart]), filter_eq_nil_of_hit, nil_append]
        intro c hc
        obtain ⟨ch, hch, h₁, h₂⟩ := hwithin par m _ h.2.1 c hc
        have hpos := Nat.two_pow_pos ch.shift
        exact ⟨ch, hch, by omega, by omega⟩

variable {o ps base : ℕ} (hs : s ≤ ps)
    (hwithin : ∀ phys par m u, wfn par m → Within phys (phys + 2 ^ s) u (nested phys u m))
    (hsize : ∀ par m, wfn par m → ops.size m = 2 ^ s)
    (hflush : ∀ phys ob oe par m u, wfn par m → o < s → IsBlock o ob oe → oe ≤ 2 ^ s →
      nested phys u (ops.flush m ob oe).1 =
      (nested phys u m).filter (fun c => !hit u (phys + ob) (phys + oe) c))
  (hb : IsBlock o ob oe)
include hs hwithin hsize hflush hb

theorem chainsList_flushPage {k : ℕ} {owner : S}
    (h : wfList s wfn 0 par true l) (h₁ : ob < k * 2 ^ s + 2 ^ s) (h₂ : k * 2 ^ s < oe) :
    chainsList s nested (base + k * 2 ^ s) up [] (flushPage ops ps s owner ob oe k l).1 =
      (chainsList s nested (base + k * 2 ^ s) up [] l).filter
        (fun c => !hit up (base + ob) (base + oe) c) := by
  by_cases hl : l.isEmpty = true
  · rw [isEmpty_iff.mp hl]
    rfl
  by_cases hos : s ≤ o
  · -- the block covers the page: the tree is erased
    obtain ⟨hlo, hhi⟩ := hb.covers hos h₁ h₂
    rw [filter_eq_nil_of_hit]
    · simp [flushPage, covers, hl, hlo, hhi]
    · intro c hc
      obtain ⟨ch, hch, hc₁, hc₂⟩ := chainsList_within (hwithin _) h up c hc
      have := Nat.two_pow_pos ch.shift
      exact ⟨ch, hch, by omega, by omega⟩
  · -- the block lies inside the page: go on in the tree of the page
    rw [not_le] at hos
    obtain ⟨hlo, hhi⟩ := hb.inside hos.le h₁ h₂
    have hblock := hb.sub hos.le hlo
    have hsz := hb.size
    have hopos := Nat.two_pow_pos o
    have hpow : 2 ^ o < 2 ^ s := Nat.pow_lt_pow_right (by norm_num) hos
    have hle : 2 ^ s ≤ 2 ^ ps := Nat.pow_le_pow_right (by norm_num) hs
    have hfull : ¬ (ob ≤ k * 2 ^ s ∧ k * 2 ^ s + 2 ^ s ≤ oe) := by omega
    have arith : ∀ b, b ≤ ob → oe ≤ b + 2 ^ s → ob - b < 2 ^ ps ∧ oe - b - 1 < 2 ^ ps ∧
        oe - b - 1 + 1 = oe - b ∧ oe - b ≤ 2 ^ s ∧ ob - b < oe - b ∧
        base + b + (ob - b) = base + ob ∧ base + b + (oe - b) = base + oe := by
      intro b _ _
      omega
    obtain ⟨hob, hoe, hoe', hle', hlt, hlo', hhi'⟩ := arith _ hlo hhi
    have hob : getLsb (ob - k * 2 ^ s) ps = ob - k * 2 ^ s := Nat.mod_eq_of_lt hob
    have hoe : getLsb (oe - k * 2 ^ s - 1) ps + 1 = oe - k * 2 ^ s := by
      rw [getLsb, Nat.mod_eq_of_lt hoe, hoe']
    have hpage : (flushPage ops ps s owner ob oe k l).1 =
        (flushLoop ops (-1) false (ob - k * 2 ^ s) (oe - k * 2 ^ s) (-1) l).1 := by
      simp only [flushPage, covers, subBegin, subEnd, if_neg hl, Bool.and_eq_true, decide_eq_true_eq, if_neg hfull,
        if_neg (show ¬ ob < k * 2 ^ s by omega), if_neg (show ¬ k * 2 ^ s + 2 ^ s < oe by omega),
        hob, hoe]
    rw [hpage, chainsList_flushLoop up (-1) [] (by simp) (hwithin _) hsize
      (fun par m u hm _ => hflush _ _ _ par m u hm hos hblock hle') hlt hle' h]
    simp only [below_neg_one, rest_neg_one, chainsList_nil, append_nil, hlo', hhi']
    rfl

theorem chainsOf_flushSubmap {t : TreemapOf S T} (h : wfOf s wfn ps par t) :
    chainsOf s nested base up (flushSubmap ops ps s t ob oe).1 =
      (chainsOf s nested base up t).filter (fun c => !hit up (base + ob) (base + oe) c) := by
  rw [chainsOf, chainsOf, filter_flatMap]
  refine flatMap_congr_left fun k hk => ?_
  have hwf := h.tree k (mem_range.mp hk)
  simp only [flushSubmap]
  split_ifs with hin
  · refine chainsList_flushPage hs hwithin hsize hflush hb hwf ?_ ?_
    · exact lt_add_page_of_div_le hin.1
    · exact not_le.mp fun hc => absurd (round_le_iff.mpr hc) (not_le.mpr hin.2)
  · refine (filter_eq_self_of_apart (chainsList_within (hwithin _) hwf up) ?_).symm
    rcases not_and_or.mp hin with hc | hc
    · have := add_page_le_of_lt_div (not_le.mp hc)
      exact .inl (by omega)
    · have := round_le_iff.mp (not_lt.mp hc)
      exact .inr (by omega)

end List

theorem size_of_wf {ps : ℕ} (ps' : ℕ) (hs : Levels ps ss) {t : Treemap S ss}
    (h : wf ss ps par t) : (treemapOps ss ps').size t = 2 ^ ps := by
  cases ss with
  | nil => exact nomatch t
  | cons s ss =>
    change TreemapOf.keyEnd t * 2 ^ s = 2 ^ ps
    rw [wfOf.keyEnd h, two_pow_split hs.head]

theorem chains_flush {ps : ℕ} (hs : Levels ps ss) {o ob oe : ℕ}
    (hb : IsBlock o ob oe) {t : Treemap S ss} (h : wf ss ps par t) (base : ℕ) (up : List (Node S)) :
    chains ss base up ((treemapOps ss ps).flush t ob oe).1 =
      (chains ss base up t).filter (fun c => !hit up (base + ob) (base + oe) c) := by
  induction ss generalizing ps par ob oe base up with
  | nil => exact nomatch t
  | cons s ss ih =>
    exact chainsOf_flushSubmap hs.head (fun phys par m u hm => chains_within hs.tail hm phys u)
      (fun par m hm => size_of_wf s hs.tail hm)
      (fun phys ob oe par m u hm _ hb _ => ih hs.tail hb hm phys u) hb h

end Fiasco.Mapdb
