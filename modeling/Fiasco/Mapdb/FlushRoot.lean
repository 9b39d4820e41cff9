import Fiasco.Mapdb.FlushSpec

/-!
# Flushing the head of a tree

The head of the tree of a page frame is no mapping. At the top it stands for the page of sigma0 at
the same address, in a submap for a part of the mapping above. A flush takes all mappings of the
tree and goes with its range into the submap the tree may begin with.
-/
namespace Fiasco.Mapdb

open DepthList Dyadic List Option TreemapOf Nat

variable {S : Type} {s : ℕ} {ss : List ℕ} {ps : ℕ} {par : S × ℕ} {t t' : TreemapOf S (Treemap S ss)}
  {k vs ve : ℕ} {i : ℕ} {o : ℕ} {lo hi : ℕ}

theorem mul_add_le_of_lt (h : i < k) (e : ℕ) : i * e + e ≤ k * e := by
  rw [← succ_mul]
  exact mul_le_mul_right e h

def rootBegin (s k vs : ℕ) : ℕ := k * 2 ^ s + offsBegin (k * 2 ^ s) vs

def rootEnd (s k ve : ℕ) : ℕ := k * 2 ^ s + offsEnd (2 ^ s) (k * 2 ^ s) ve

theorem le_rootBegin (s k vs : ℕ) : k * 2 ^ s ≤ rootBegin s k vs := le_add_right _ _

theorem rootEnd_le (h : Clips (2 ^ s) (k * 2 ^ s) vs ve) : rootEnd s k ve ≤ k * 2 ^ s + 2 ^ s :=
  Nat.add_le_add_left h.end_le _

section Clips

variable {cap : ℕ} {l : List (Mapping S (Treemap S ss))} (hs : Levels s ss)
  (h : wfList s (wf ss s) cap par true l) (hclip : Clips (2 ^ s) par.2 vs ve) (phys : ℕ)
  (up : List (Node S))
include hs h hclip

theorem foreachTree_clips :
    foreachTree (forFullTreemap ss) (foreachTreemap ss vs ve) 0 s l =
      some (visits ((chainsList s (chains ss) phys up [] l).filter
        (hit up (phys + offsBegin par.2 vs) (phys + offsEnd (2 ^ s) par.2 ve)))) := by
  have hwithin : ∀ (par : S × ℕ) (m : Treemap S ss) u, wf ss s par m →
      Within phys (phys + 2 ^ s) u (chains ss phys u m) :=
    fun par m u hm => chains_within hs hm phys u
  have hvis := foreachTree_eq up 0 [] (by simp) hwithin
    (fun u m => forFullTreemap_eq ss phys u m)
    (fun m u hm => foreachTreemap_eq hs hm hclip phys u) hclip.lt hclip.end_le h
  simpa [path] using hvis

theorem chainsList_flushLoop_clips :
    chainsList s (chains ss) phys up [] (flushLoop (treemapOps ss s) (-1) false
        (offsBegin par.2 vs) (offsEnd (2 ^ s) par.2 ve) (-1) l).1 =
      (chainsList s (chains ss) phys up [] l).filter
        (fun c => !hit up (phys + offsBegin par.2 vs) (phys + offsEnd (2 ^ s) par.2 ve) c) := by
  obtain ⟨o, hb⟩ := hclip.block
  have hflush := chainsList_flushLoop up (-1) [] (by simp)
    (fun par m u hm => chains_within hs hm phys u)
    (fun par m hm => size_of_wf s hs hm)
    (fun par m u hm _ => chains_flush hs hb hm phys u) hb.lt hclip.end_le h
  simpa [path] using hflush

end Clips

section

variable (hs : Levels ps (s :: ss))
include hs

theorem hit_of_ne (hwf : wfOf s (wf ss s) ps par t)
    (hlo : k * 2 ^ s ≤ lo) (hhi : hi ≤ k * 2 ^ s + 2 ^ s) (hi' : i < t.keyEnd) (hne : i ≠ k)
    {c : List (Node S)} (hc : c ∈ chainsList s (chains ss) (i * 2 ^ s) [] [] (t.tree i)) :
    hit [] lo hi c = false := by
  obtain ⟨ch, hch, h₁, h₂⟩ := chainsList_within
    (fun par m u hm => chains_within hs.tail hm (i * 2 ^ s) u) (hwf.tree i hi') [] c hc
  rw [hit_of_extends hch]
  rcases lt_or_gt_of_ne hne with h | h
  · have := mul_add_le_of_lt h (2 ^ s)
    have : ¬ lo < ch.phys + 2 ^ ch.shift := by omega
    simp [this]
  · have := mul_add_le_of_lt h (2 ^ s)
    have : ¬ ch.phys < hi := by omega
    simp [this]

theorem flush_root (hwf : wf (s :: ss) ps par t) (hpar : par.2 = 0)
    (hclip : Clips (2 ^ s) (k * 2 ^ s) vs ve) {meToo : Bool}
    {cs : List (Charge S)} (hf : flush (s :: ss) t ⟨[], k, none⟩ meToo vs ve = some (t', cs)) :
    chains (s :: ss) 0 [] t' = (chains (s :: ss) 0 [] t).filter
      (fun c => !hit [] (rootBegin s k vs) (rootEnd s k ve) c) := by
  obtain ⟨s', ss', t₀, plug, l, hat, hk, hop, rfl⟩ := onFrame_eq_some.mp hf
  cases hat
  simp only [pvaddr, flushTree, bind_some, some.injEq, frameVaddr,
    wfOf.pageOffset hwf, hpar, zero_add] at hop
  have htree := wfOf.tree hwf k hk
  rw [frameVaddr, wfOf.pageOffset hwf, hpar, zero_add] at htree
  rw [chains, chains, chainsOf, chainsOf, filter_flatMap]
  refine flatMap_congr_left fun i hi => ?_
  rw [zero_add]
  by_cases hik : i = k
  · subst hik
    have hflush := chainsList_flushLoop_clips hs.tail htree hclip (i * 2 ^ s) []
    rw [hop] at hflush
    rw [id, set_tree_same, hflush]
    rfl
  · rw [id, set_tree_of_ne _ _ hik, filter_eq_self.mpr]
    intro c hc
    rw [hit_of_ne hs hwf (le_rootBegin s k vs) (rootEnd_le hclip) (mem_range.mp hi) hik hc]
    rfl

end

section Narrow

/-! Narrowing the range from below visits fewer mappings and flushes fewer, block or not. -/

variable {T : Type} {nested : ℕ → List (Node S) → T → List (List (Node S))} {ops : SubmapOps S T}
  {wfn : S × ℕ → T → Prop} {cap : ℕ} {l : List (Mapping S T)}

theorem flatMap_sublist {α β : Type} {l₁ l₂ : List α} (h : l₁.Sublist l₂) {f g : α → List β}
    (hfg : ∀ x ∈ l₁, (f x).Sublist (g x)) : (l₁.flatMap f).Sublist (l₂.flatMap g) := by
  induction h with
  | slnil => exact Sublist.refl _
  | cons y _ ih =>
    rw [flatMap_cons]
    exact (ih hfg).trans (sublist_append_right _ _)
  | cons_cons y _ ih =>
    rw [flatMap_cons, flatMap_cons]
    exact (hfg y mem_cons_self).append (ih fun x hx => hfg x (mem_cons_of_mem _ hx))

theorem foreachTree_eq_nil {full : T → List (Visit S)} {r r' : T → Option (List (Visit S))}
    (h : ∀ m, r m = some [] → r' m = some []) {minDepth : ℕ}
    (hl : foreachTree full r minDepth s l = some []) :
    foreachTree full r' minDepth s l = some [] := by
  cases l with
  | nil => rfl
  | cons x l =>
    cases x with
    | real a sp pg d => exact hl
    | sub a m =>
      obtain ⟨v, hv, hnil⟩ := map_eq_some_iff.mp hl
      obtain ⟨rfl, hfull⟩ := append_eq_nil_iff.mp hnil
      rw [foreachTree, h m hv, hfull]
      rfl

theorem foreachTreemap_eq_nil {vb vb' : ℕ} (h : vb ≤ vb') {ss : List ℕ} {t : Treemap S ss}
    (ht : foreachTreemap ss vb ve t = some []) : foreachTreemap ss vb' ve t = some [] := by
  induction ss with
  | nil => exact nomatch t
  | cons s ss ih =>
    have hstart : foreachStart s t vb ≤ foreachStart s t vb' := by
      simp only [foreachStart]
      split_ifs
      · exact Nat.div_le_div_right (by omega)
      · omega
      · exact zero_le _
      · exact le_rfl
    refine forRange_eq_nil.mpr fun k hk => ?_
    have hk := mem_range'_1.mp hk
    obtain ⟨hlt, hk⟩ := forRange_eq_nil.mp ht k (mem_range'_1.mpr (by omega))
    exact ⟨hlt, foreachTree_eq_nil (fun m => ih) hk⟩

section

variable (phys : ℕ) (up : List (Node S))

variable (h : wfList s wfn cap par true l)
include h

theorem chainsList_flushLoop_head
    (ob oe : ℕ) : chainsList s nested phys up [] (flushLoop ops (-1) false ob oe (-1) l).1 =
      match l with
      | .sub _ m :: _ => if ops.isPartial m ob oe then nested phys up (ops.flush m ob oe).1 else []
      | _ => [] := by
  cases l with
  | nil => rfl
  | cons x l =>
    cases x with
    | real a sp pg d =>
      rw [flushLoop_of_noSub ops ob oe (l := .real a sp pg d :: l) trivial, rest_neg_one]
      rfl
    | sub a m =>
      rw [flushLoop_sub ops ob oe (wfList_noSub h.2.2), rest_neg_one]
      simp only [Bool.not_false, Bool.true_and]
      split_ifs
      · rw [chainsList_sub]
        simp [path, chainsList_nil]
      · rfl

theorem chainsList_flushLoop_mono {ob ob' oe : ℕ} (hob : ob ≤ ob')
    (hflush : ∀ par m, wfn par m → (nested phys up (ops.flush m ob oe).1).Sublist (nested phys up (ops.flush m ob' oe).1))
    : (chainsList s nested phys up [] (flushLoop ops (-1) false ob oe (-1) l).1).Sublist
      (chainsList s nested phys up [] (flushLoop ops (-1) false ob' oe (-1) l).1) := by
  rw [chainsList_flushLoop_head phys up h, chainsList_flushLoop_head phys up h]
  cases l with
  | nil => exact Sublist.refl _
  | cons x l =>
    cases x with
    | real a sp pg d => exact Sublist.refl _
    | sub a m =>
      by_cases hp : ops.isPartial m ob oe = true
      · have hp' : ops.isPartial m ob' oe = true := by
          simp only [SubmapOps.isPartial, Bool.or_eq_true, decide_eq_true_eq] at hp ⊢
          omega
        simp only [if_pos hp, if_pos hp']
        exact hflush par m h.2.1
      · simp only [if_neg hp]
        exact nil_sublist _

theorem chainsList_flushLoop_sublist {ob oe : ℕ}
    (hflush : ∀ par m, wfn par m → (nested phys up (ops.flush m ob oe).1).Sublist (nested phys up m))
    : (chainsList s nested phys up [] (flushLoop ops (-1) false ob oe (-1) l).1).Sublist
      (chainsList s nested phys up [] l) := by
  rw [chainsList_flushLoop_head phys up h]
  cases l with
  | nil => exact Sublist.refl _
  | cons x l =>
    cases x with
    | real a sp pg d => exact nil_sublist _
    | sub a m =>
      simp only
      split_ifs
      · exact (hflush par m h.2.1).trans (sublist_append_left _ _)
      · exact nil_sublist _

theorem chainsList_flushPage_sublist
    (hflush : ∀ ob oe par m, wfn par m → (nested phys up (ops.flush m ob oe).1).Sublist (nested phys up m))
    (ps : ℕ) (owner : S) (ob oe i : ℕ) :
    (chainsList s nested phys up [] (flushPage ops ps s owner ob oe i l).1).Sublist
      (chainsList s nested phys up [] l) := by
  simp only [flushPage]
  split_ifs
  · exact nil_sublist _
  · exact nil_sublist _
  · exact chainsList_flushLoop_sublist phys up h fun par m hm => hflush _ _ par m hm

end

end Narrow

theorem chains_flush_sublist (ss : List ℕ) (ps ps' ob oe base : ℕ) (up : List (Node S))
    {t : Treemap S ss} (h : wf ss ps' par t) :
    (chains ss base up ((treemapOps ss ps).flush t ob oe).1).Sublist (chains ss base up t) := by
  induction ss generalizing ps ps' ob oe base up par with
  | nil => exact nomatch t
  | cons s ss ih =>
    refine flatMap_sublist (Sublist.refl _) fun k hk => ?_
    have hk' : k < keyEnd t := mem_range.mp hk
    simp only [treemapOps, flushSubmap]
    split_ifs
    · exact chainsList_flushPage_sublist _ up (wfOf.tree h k hk')
        (fun ob oe par m hm => ih s s ob oe _ up hm) ps _ ob oe k
    · exact Sublist.refl _

variable {ob : ℕ} {ob' : ℕ} {vlo : ℕ}

theorem subBegin_mono (h : ob ≤ ob') (hob' : ob' < 2 ^ ps) :
    subBegin ps s ob i ≤ subBegin ps s ob' i := by
  have hmod : ∀ v, v ≤ ob' → getLsb v ps = v := fun v hv => mod_eq_of_lt (by omega)
  simp only [subBegin]
  split_ifs
  · exact le_rfl
  · exact zero_le _
  · omega
  · rw [hmod _ (by omega), hmod _ (by omega)]
    omega

theorem subBegin_lt (hob : ob < 2 ^ ps) (hi : truncToPage s ob ≤ i) :
    subBegin ps s ob i < 2 ^ s := by
  have hpos := Nat.two_pow_pos s
  have hlt : ob < i * 2 ^ s + 2 ^ s := by
    rw [← succ_mul]
    exact (div_lt_iff_lt_mul hpos).mp (lt_succ_of_le hi)
  simp only [subBegin]
  split_ifs
  · exact hpos
  · rw [getLsb, mod_eq_of_lt (by omega)]
    omega

theorem chains_flush_mono (hs : Levels ps ss) (hob : ob ≤ ob') (hob' : ob' < 2 ^ ps)
    (oe base : ℕ) (up : List (Node S)) {t : Treemap S ss} (h : wf ss ps par t) :
    (chains ss base up ((treemapOps ss ps).flush t ob oe).1).Sublist
      (chains ss base up ((treemapOps ss ps).flush t ob' oe).1) := by
  induction ss generalizing ps ob ob' oe base up par with
  | nil => exact nomatch t
  | cons s ss ih =>
    refine flatMap_sublist (Sublist.refl _) fun k hk => ?_
    have hk' : k < keyEnd t := mem_range.mp hk
    have htrunc : truncToPage s ob ≤ truncToPage s ob' := Nat.div_le_div_right hob
    have htree := wfOf.tree h k hk'
    simp only [treemapOps, flushSubmap]
    by_cases hw' : truncToPage s ob' ≤ k ∧ k < roundToPage s oe
    · rw [if_pos ⟨htrunc.trans hw'.1, hw'.2⟩, if_pos hw']
      simp only [flushPage]
      by_cases hl : (tree t k).isEmpty = true
      · simp only [if_pos hl]
        exact Sublist.refl _
      by_cases hc : covers s ob oe k = true
      · simp only [if_neg hl, if_pos hc]
        exact nil_sublist _
      have hc' : ¬ covers s ob' oe k = true := by
        simp only [covers, Bool.and_eq_true, decide_eq_true_eq] at hc ⊢
        omega
      simp only [if_neg hl, if_neg hc, if_neg hc']
      exact chainsList_flushLoop_mono _ up htree (subBegin_mono hob hob') fun par m hm =>
        ih hs.tail (subBegin_mono hob hob') (subBegin_lt hob' hw'.1) _ _ up hm
    · rw [if_neg hw']
      split_ifs
      · exact chainsList_flushPage_sublist _ up htree
          (fun ob oe par m hm => chains_flush_sublist ss s s ob oe _ up hm) ps _ ob oe k
      · exact Sublist.refl _

theorem offsBegin_mono {pv vs' : ℕ} (h : vs ≤ vs') : offsBegin pv vs ≤ offsBegin pv vs' := by
  simp only [offsBegin]
  split_ifs <;> omega

section Head

variable {l : List (Mapping S (Treemap S ss))}

/-- What is visited from the head of the tree `l` at the virtual address `pv`, and what a flush of
the head leaves, are together the chains of the tree. -/
def Splits (s : ℕ) (ss : List ℕ) (pv vs ve phys : ℕ) (up : List (Node S))
    (l : List (Mapping S (Treemap S ss))) : Prop :=
  ∃ ds, foreachTree (forFullTreemap ss) (foreachTreemap ss vs ve) 0 s l = some (visits ds) ∧
    (chainsList s (chains ss) phys up [] l).Perm (ds ++ chainsList s (chains ss) phys up []
      (flushLoop (treemapOps ss s) (-1) false (offsBegin pv vs) (offsEnd (2 ^ s) pv ve) (-1) l).1)

theorem forFullSubtree_head (s : ℕ) (l : List (Mapping S (Treemap S ss))) (phys : ℕ)
    (up : List (Node S)) : forFullSubtree (forFullTreemap ss) 0 s l =
      visits (chainsList s (chains ss) phys up [] l) := by
  have hfull := forFullSubtree_eq (s := s) (fun u m => forFullTreemap_eq ss phys u m) up [] 0 l
  simpa using hfull

theorem splits_of_noSub (hn : noSub l) (pv vs ve phys : ℕ) (up : List (Node S)) :
    Splits s ss pv vs ve phys up l := by
  refine ⟨chainsList s (chains ss) phys up [] l, ?_, ?_⟩
  · rw [← forFullSubtree_head]
    cases l with
    | nil => rfl
    | cons x l =>
      cases x with
      | real => rfl
      | sub => exact hn.elim
  · rw [flushLoop_of_noSub _ _ _ hn, rest_neg_one, chainsList_nil, append_nil]

variable {phys : ℕ} {up : List (Node S)} {cap : ℕ} (hs : Levels s ss)
  (h : wfList s (wf ss s) cap par true l)
include hs h

theorem splits_of_clips (hclip : Clips (2 ^ s) par.2 vs ve) : Splits s ss par.2 vs ve phys up l := by
  refine ⟨_, foreachTree_clips hs h hclip phys up, ?_⟩
  rw [chainsList_flushLoop_clips hs h hclip]
  exact (filter_append_perm _ _).symm

theorem splits_of_clean (hclip : Clips (2 ^ s) par.2 vlo ve)
    (hclean : ∀ c ∈ chainsList s (chains ss) phys up [] l,
      hit up (phys + offsBegin par.2 vlo) (phys + offsEnd (2 ^ s) par.2 ve) c = false)
    (hvs : vlo ≤ vs) (hlt : vs < par.2 + 2 ^ s) : Splits s ss par.2 vs ve phys up l := by
  have hob : offsBegin par.2 vs < 2 ^ s := by
    have := Nat.two_pow_pos s
    simp only [offsBegin]
    split_ifs <;> omega
  refine ⟨[], foreachTree_eq_nil (fun m => foreachTreemap_eq_nil hvs) ?_, ?_⟩
  · rw [foreachTree_clips hs h hclip phys up, filter_eq_nil_iff.mpr fun c hc => by simp [hclean c hc]]
    rfl
  · -- the flush of the whole block would leave everything, and this one does not take more
    have hall := chainsList_flushLoop_clips hs h hclip phys up
    rw [filter_eq_self.mpr fun c hc => by simp [hclean c hc]] at hall
    have hmono := chainsList_flushLoop_mono phys up h (offsBegin_mono hvs) fun par' m hm =>
      chains_flush_mono hs (offsBegin_mono hvs) hob (offsEnd (2 ^ s) par.2 ve) phys up hm
    have hsub := chainsList_flushLoop_sublist phys up h fun par' m hm =>
      chains_flush_sublist ss s s (offsBegin par.2 vs) (offsEnd (2 ^ s) par.2 ve) phys up hm
    rw [hall] at hmono
    rw [hmono.antisymm hsub]
    exact Perm.refl _

theorem splits_of_apart (hle : par.2 ≤ ve)
    (hempty : offsEnd (2 ^ s) par.2 ve = 0 ∨ 2 ^ s ≤ offsBegin par.2 vs) :
    Splits s ss par.2 vs ve phys up l := by
  cases l with
  | nil => exact splits_of_noSub (by trivial) ..
  | cons x l =>
    cases x with
    | real => exact splits_of_noSub (by trivial) ..
    | sub a m =>
      cases ss with
      | nil => exact nomatch m
      | cons s' ss =>
        set ob := offsBegin par.2 vs with hob
        set oe := offsEnd (2 ^ s) par.2 ve with hoe
        have hm := h.2.1
        have hkey := wfOf.keyEnd hm
        have hoff := wfOf.pageOffset hm
        have hpos := Nat.two_pow_pos s
        have hend : oe ≤ 2 ^ s := by
          rw [hoe, offsEnd_of_le hle]
          split_ifs <;> omega
        have hwin : roundToPage s' oe ≤ truncToPage s' ob := by
          rw [roundToPage, round_le_iff, truncToPage]
          rcases hempty with h0 | hge
          · omega
          · refine hend.trans ?_
            rw [← two_pow_split hs.head]
            refine Nat.mul_le_mul_right _ ((Nat.le_div_iff_mul_le (Nat.two_pow_pos s')).mpr ?_)
            rwa [two_pow_split hs.head]
        have hvis : foreachTreemap (s' :: ss) vs ve m = some [] := by
          rw [foreachTreemap, foreachStart_eq, foreachEnd_eq hs.head hkey (hoff ▸ hle), hoff,
            Nat.sub_eq_zero_of_le hwin]
          rfl
        have hkeep : ((treemapOps (s' :: ss) s).flush m ob oe).1 = m := by
          simp only [treemapOps, flushSubmap]
          congr 1
          funext i
          exact if_neg (by omega)
        have hpart : (treemapOps (s' :: ss) s).isPartial m ob oe = true := by
          have hsize := size_of_wf s hs hm
          simp only [SubmapOps.isPartial, hsize, Bool.or_eq_true, decide_eq_true_eq]
          omega
        refine ⟨chainsList s (chains (s' :: ss)) phys up [] l, ?_, ?_⟩
        · rw [foreachTree, hvis, forFullSubtree_head s l phys up]
          rfl
        · rw [← hob, ← hoe, flushLoop_sub _ _ _ (wfList_noSub h.2.2), if_pos (by simp [hpart]), rest_neg_one,
            hkeep, chainsList_sub, chainsList_sub, chainsList_nil, append_nil]
          exact perm_append_comm

end Head

theorem clips_or_apart {pv : ℕ} (hb : IsBlock o vs ve) (hpv : 2 ^ s ∣ pv) (hle : pv ≤ ve) :
    Clips (2 ^ s) pv vs ve ∨ offsEnd (2 ^ s) pv ve = 0 ∨ 2 ^ s ≤ offsBegin pv vs := by
  obtain ⟨i, rfl⟩ := hpv
  rw [Nat.mul_comm] at hle ⊢
  by_cases h₁ : vs < i * 2 ^ s + 2 ^ s
  · by_cases h₂ : i * 2 ^ s < ve
    · -- both lie in one large page, of which the page here is the one with number `i`
      have hpow : ve < 2 ^ ve := Nat.lt_two_pow_self
      have hwide : ve ≤ 2 ^ (s + ve) := hpow.le.trans (Nat.pow_le_pow_right (by norm_num) (by omega))
      have hbegin : offsBegin 0 vs = vs := by
        simp only [offsBegin]
        split_ifs <;> omega
      have hend : offsEnd (2 ^ (s + ve)) 0 ve = ve := by
        rw [offsEnd_of_le (zero_le _), if_neg (by omega), Nat.sub_zero]
      have hi : i < 2 ^ (s + ve - s) := by
        have := Nat.le_mul_of_pos_right i (Nat.two_pow_pos s)
        rw [Nat.add_sub_cancel_left]
        omega
      have hclip := (clip_page (Nat.le_add_right s ve) hi
        ⟨zero_le _, o, by rwa [hbegin, hend]⟩ (by rwa [hbegin]) (by rwa [hend])).1
      rw [zero_add] at hclip
      exact .inl hclip
    · have hge := not_lt.mp h₂
      refine .inr (.inl ?_)
      rw [offsEnd_of_le hle, if_neg (not_lt.mpr (hge.trans (Nat.le_add_right _ _)))]
      exact Nat.sub_eq_zero_of_le hge
  · have hge := not_lt.mp h₁
    refine .inr (.inr ?_)
    rw [offsBegin, if_pos ((Nat.lt_add_of_pos_right (Nat.two_pow_pos s)).trans_le hge)]
    exact Nat.le_sub_of_add_le' hge

theorem foreach_head {ss : List ℕ} {t t' : Treemap S ss} {hops : List (ℕ × ℕ)} {meToo : Bool}
    {cs : List (Charge S)} (hf : flush ss t ⟨hops, k, none⟩ meToo vs ve = some (t', cs))
    (hsplit : ∀ s' ss' t₀ plug, At ss t hops s' ss' t₀ plug → k < t₀.keyEnd → ∀ phys up,
      (hops = [] → up = [] ∧ phys = k * 2 ^ s') →
      Splits s' ss' (t₀.frameVaddr s' k) vs ve phys up (t₀.tree k)) :
    ∃ ds, foreachMapping ss t ⟨hops, k, none⟩ vs ve = some (visits ds) ∧
      (chains ss 0 [] t).Perm (ds ++ chains ss 0 [] t') := by
  obtain ⟨s', ss', t₀, plug, l, hat, hk, hop, rfl⟩ := onFrame_eq_some.mp hf
  obtain ⟨phys, up, A, B, har, hroot⟩ := hat.around hk
  obtain ⟨ds, hvis, hperm⟩ := hsplit s' ss' t₀ plug hat hk phys up hroot
  simp only [pvaddr, flushTree, bind_some, some.injEq] at hop
  rw [hop] at hperm
  have hold := har.chains (t₀.tree k)
  rw [set_self t₀ rfl, hat.plug_self] at hold
  refine ⟨ds, foreachMapping_of_at hat hk hvis, ?_⟩
  rw [hold, har.chains]
  refine ((hperm.append_left A).append_right B).trans ?_
  simp only [append_assoc]
  exact perm_append_comm_assoc A ds _

end Fiasco.Mapdb