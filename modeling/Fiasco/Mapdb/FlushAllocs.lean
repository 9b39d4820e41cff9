import Fiasco.Mapdb.Allocs
import Fiasco.Mapdb.Foreach

/-!
# What a flush gives back

A flush returns a list of allocations. Together with what is left in the tree and with what the
flush forgets they are the allocations from before. It forgets the treemaps behind the submap nodes
of a subframe that the range covers.
-/
namespace Fiasco.Mapdb

open List TreemapOf

variable {S T : Type} {par : S × ℕ}

section Delete

theorem physframeDel_perm {del nested : T → List (Charge S)} (hdel : ∀ m, (del m).Perm (nested m))
    (q : S) (l : List (Mapping S T)) : (physframeDel del q l).Perm (allocsList nested q l) := by
  induction l generalizing q with
  | nil => exact Perm.refl _
  | cons x l ih =>
    cases x with
    | real a sp pg d => exact perm_middle.trans ((ih sp).cons _)
    | sub a m =>
      refine perm_middle.trans (Perm.cons _ ?_)
      have hsplit : ((Mapping.sub (S := S) a m :: l).filterMap Mapping.submap).flatMap del ++
          erase q l = del m ++ physframeDel del q l := by
        rw [physframeDel, ← append_assoc]
        rfl
      rw [hsplit]
      exact (hdel m).append (ih q)

theorem del_perm (ss : List ℕ) (t : Treemap S ss) : (del ss t).Perm (allocs ss t) := by
  induction ss with
  | nil => exact nomatch t
  | cons s ss ih =>
    refine perm_append_singleton _ _ |>.trans (Perm.cons _ ?_)
    exact Perm.flatMap_left _ fun k _ => physframeDel_perm ih _ _

theorem erase_perm (nested : T → List (Charge S)) (q : S) (l : List (Mapping S T)) :
    (allocsList nested q l).Perm (erase q l ++ (l.filterMap Mapping.submap).flatMap nested) :=
  (physframeDel_perm (fun _ => Perm.refl _) q l).symm.trans perm_append_comm

end Delete

variable {nested : T → List (Charge S)} {wfn : S × ℕ → T → Prop} {ops : SubmapOps S T}

section Loop

variable {s : ℕ} {pd : ℤ} {ob oe : ℕ} {l : List (Mapping S T)} {cap : ℕ}

theorem noSub_rest (p : ℤ) (l : List (Mapping S T)) : noSub (rest p l) := by
  induction l with
  | nil => trivial
  | cons x l ih =>
    cases x with
    | real a sp pg d =>
      by_cases hd : (d : ℤ) ≤ p
      · rw [rest_real_of_le hd]
        trivial
      · rwa [rest_real_of_lt (by omega)]
    | sub a m => rwa [rest_sub]

theorem allocsList_of_noSub (hn : noSub l) (q q' : S) :
    allocsList nested q l = allocsList nested q' l := by
  cases l with
  | nil => rfl
  | cons x l =>
    cases x with
    | real b sp' pg' d => rfl
    | sub b m => exact absurd hn id

theorem allocsList_below_rest (p : ℤ) (q : S) (l : List (Mapping S T)) :
    allocsList nested q l = allocsList nested q (below p l) ++ allocsList nested q (rest p l) := by
  conv_lhs => rw [← below_append_rest p l, allocsList_append]
  rw [allocsList_of_noSub (noSub_rest p l) _ q]

theorem flushLoop_freed {meToo : Bool} {md : ℤ} (hmd : meToo = true ∨ md ≠ pd)
    (howner : ∀ par m, wfn par m → ops.owner m = par.1) (hdel : ∀ m, (ops.del m).Perm (nested m))
    {fr : Bool} (h : wfList s wfn cap par fr l) :
    (flushLoop ops pd meToo ob oe md l).2.Perm (allocsList nested par.1 (below pd l)) := by
  induction l generalizing md cap par fr with
  | nil => exact Perm.refl _
  | cons x l ih =>
    cases x with
    | real a sp pg d =>
      by_cases hd : (d : ℤ) ≤ pd
      · have hb : below pd (.real a sp pg d :: l) = [] := by
          have : ¬ pd < d := by omega
          simp [below, Mapping.deeper, this]
        rw [flushLoop, if_pos hd, hb]
        exact Perm.refl _
      · have hb : below pd (.real a sp pg d :: l) = .real a sp pg d :: below pd l := by
          have : pd < d := by omega
          simp [below, Mapping.deeper, this]
        rw [flushLoop, if_neg hd, hb]
        exact (ih (.inr (by omega)) h.2.2).cons _
    | sub a m =>
      have hc : (!meToo && decide (md = pd) && ops.isPartial m ob oe) = false := by
        rcases hmd with rfl | hne
        · rfl
        · simp [hne]
      rw [flushLoop, hc, below_sub]
      simp only [Bool.false_eq_true, if_false, allocsList, howner par m h.2.1]
      exact perm_middle.trans (((hdel m).append (ih hmd h.2.2)).cons _)

def forgottenHead (ops : SubmapOps S T) (forgotten : T → ℕ → ℕ → List (Charge S)) (ob oe : ℕ) :
    List (Mapping S T) → List (Charge S)
  | .sub _ m :: _ => if ops.isPartial m ob oe then forgotten m ob oe else []
  | _ => []

theorem flushLoop_perm {forgotten : T → ℕ → ℕ → List (Charge S)}
    (howner : ∀ par m, wfn par m → ops.owner m = par.1) (hdel : ∀ m, (ops.del m).Perm (nested m))
    (hflush : ∀ par m, wfn par m → (nested m).Perm ((ops.flush m ob oe).2 ++ nested (ops.flush m ob oe).1 ++ forgotten m ob oe)) (h : wfList s wfn cap par true l) :
    (allocsList nested par.1 l).Perm ((flushLoop ops pd false ob oe pd l).2 ++
      allocsList nested par.1 (flushLoop ops pd false ob oe pd l).1 ++
      forgottenHead ops forgotten ob oe l) := by
  have hplain : ∀ {fr : Bool} {l : List (Mapping S T)}, wfList s wfn cap par fr l → noSub l →
      (allocsList nested par.1 l).Perm ((flushLoop ops pd false ob oe pd l).2 ++
        allocsList nested par.1 (flushLoop ops pd false ob oe pd l).1) := by
    intro fr l h hn
    rw [flushLoop_of_noSub ops ob oe hn, allocsList_below_rest pd]
    refine Perm.append_right _ ?_
    cases l with
    | nil => exact Perm.refl _
    | cons x l =>
      cases x with
      | real a sp pg d =>
        -- the state before a real node does not matter
        have hmd : (flushLoop ops pd false ob oe pd (.real a sp pg d :: l)) =
            flushLoop ops pd false ob oe (pd + 1) (.real a sp pg d :: l) := rfl
        rw [hmd]
        exact (flushLoop_freed (.inr (by omega)) howner hdel h).symm
      | sub a m => exact absurd hn id
  cases l with
  | nil => exact Perm.refl _
  | cons x l =>
    cases x with
    | real a sp pg d => simpa [forgottenHead] using hplain h trivial
    | sub a m =>
      have hl := hplain h.2.2 (wfList_noSub h.2.2)
      by_cases hp : ops.isPartial m ob oe = true
      · have hc : (!false && decide (pd = pd) && ops.isPartial m ob oe) = true := by simpa using hp
        rw [flushLoop, if_pos hc]
        simp only [forgottenHead, if_pos hp, allocsList]
        refine ((((hflush par m h.2.1).append hl)).cons _).trans ?_
        rw [← Multiset.coe_eq_coe]
        simp only [← Multiset.coe_add, ← Multiset.cons_coe, ← Multiset.singleton_add]
        abel
      · have hc : ¬ (!false && decide (pd = pd) && ops.isPartial m ob oe) = true := by simpa using hp
        rw [flushLoop, if_neg hc]
        simp only [forgottenHead, if_neg hp, allocsList, append_nil, howner par m h.2.1]
        refine (((hdel m).symm.append hl).cons _).trans ?_
        simp only [append_assoc, cons_append]
        exact perm_middle.symm

end Loop

section Submap

def forgottenPage (ops : SubmapOps S T) (nested : T → List (Charge S))
    (forgotten : T → ℕ → ℕ → List (Charge S)) (ps s ob oe i : ℕ) (l : List (Mapping S T)) :
    List (Charge S) :=
  if l.isEmpty then []
  else if covers s ob oe i then (l.filterMap Mapping.submap).flatMap nested
  else forgottenHead ops forgotten (subBegin ps s ob i) (subEnd ps s oe i) l

def forgotten : (ss : List ℕ) → ℕ → Treemap S ss → ℕ → ℕ → List (Charge S)
  | [], _, t, _, _ => nomatch t
  | s :: ss, ps, t, ob, oe =>
    (range' (truncToPage s ob) (roundToPage s oe - truncToPage s ob)).flatMap fun i =>
      forgottenPage (treemapOps ss s) (allocs ss) (forgotten ss s) ps s ob oe i (tree t i)

variable {s ps : ℕ} {forgotten : T → ℕ → ℕ → List (Charge S)} {β : Type}

theorem flushPage_perm (howner : ∀ par m, wfn par m → ops.owner m = par.1)
    (hdel : ∀ m, (ops.del m).Perm (nested m)) (hflush : ∀ ob oe par m, wfn par m → (nested m).Perm
      ((ops.flush m ob oe).2 ++ nested (ops.flush m ob oe).1 ++ forgotten m ob oe))
    {par : S × ℕ} {l : List (Mapping S T)} (h : wfList s wfn 0 par true l) (ob oe i : ℕ) :
    (allocsList nested par.1 l).Perm ((flushPage ops ps s par.1 ob oe i l).2 ++
      allocsList nested par.1 (flushPage ops ps s par.1 ob oe i l).1 ++
      forgottenPage ops nested forgotten ps s ob oe i l) := by
  simp only [flushPage, forgottenPage]
  split_ifs with hl hc
  · rw [isEmpty_iff.mp hl]
    exact Perm.refl _
  · simpa [allocsList] using erase_perm nested par.1 l
  · exact flushLoop_perm howner hdel (fun par m hm => hflush _ _ par m hm) h

theorem flatMap_perm_window {n a b : ℕ} (hb : b ≤ n) {f g : ℕ → List β}
    {u v : ℕ → List β} (hin : ∀ k < n, a ≤ k → k < b → (f k).Perm (u k ++ g k ++ v k))
    (hout : ∀ k < n, ¬ (a ≤ k ∧ k < b) → f k = g k) :
    ((range n).flatMap f).Perm ((range' a (b - a)).flatMap u ++ (range n).flatMap g ++
      (range' a (b - a)).flatMap v) := by
  let w (x : ℕ → List β) (k : ℕ) : List β := if a ≤ k ∧ k < b then x k else []
  have hw : ∀ x : ℕ → List β,
      (range' a (b - a)).flatMap x = (range n).flatMap (w x) := by
    intro x
    have hsame : (range' a (b - a)).flatMap x = (range' a (b - a)).flatMap (w x) := by
      refine flatMap_congr_left fun k hk => ?_
      have hk' := mem_range'_1.mp hk
      simp only [w]
      rw [if_pos ⟨hk'.1, by omega⟩]
    have hnil : ∀ k < n, ¬ (a ≤ k ∧ k < b) → w x k = [] := fun k _ hk => if_neg hk
    rw [hsame, flatMap_range_window hb hnil]
  have hpt : ∀ k ∈ range n, (f k).Perm (w u k ++ g k ++ w v k) := by
    intro k hk
    have hk' := mem_range.mp hk
    by_cases hwin : a ≤ k ∧ k < b
    · simp only [w, if_pos hwin]
      exact hin k hk' hwin.1 hwin.2
    · simp only [w, if_neg hwin, hout k hk' hwin]
      simp
  rw [hw u, hw v]
  refine (Perm.flatMap_left _ hpt).trans ?_
  exact (flatMap_append_perm _ _ _).symm.trans
    ((flatMap_append_perm _ _ _).symm.append_right _)

theorem flatMap_range_extend {m n : ℕ} (hmn : m ≤ n) {f : ℕ → List β}
    (h : ∀ k, m ≤ k → f k = []) : (range m).flatMap f = (range n).flatMap f := by
  have hout : ∀ k < n, ¬ (0 ≤ k ∧ k < m) → f k = [] := fun k _ hk => h k (by omega)
  rw [flatMap_range_window hmn hout, range_eq_range', Nat.sub_zero]

end Submap

theorem owner_of_wf {ss : List ℕ} {ps : ℕ} (ps' : ℕ) {t : Treemap S ss}
    (h : wf ss ps par t) : (treemapOps ss ps').owner t = par.1 := by
  cases ss with
  | nil => exact nomatch t
  | cons s ss => exact wfOf.owner h

theorem treemapOps_del_perm (ss : List ℕ) (ps : ℕ) (t : Treemap S ss) :
    ((treemapOps ss ps).del t).Perm (allocs ss t) := by
  cases ss with
  | nil => exact nomatch t
  | cons s ss => exact del_perm (s :: ss) t

theorem treemapOps_flush_perm (ss : List ℕ) (ps ob oe : ℕ) {ps' : ℕ} {t : Treemap S ss}
    (h : wf ss ps' par t) :
    (allocs ss t).Perm (((treemapOps ss ps).flush t ob oe).2 ++
      allocs ss ((treemapOps ss ps).flush t ob oe).1 ++ forgotten ss ps t ob oe) := by
  induction ss generalizing ps ps' par ob oe with
  | nil => exact nomatch t
  | cons s ss ih =>
    set t' := (flushSubmap (treemapOps ss s) ps s t ob oe).1 with ht'
    let n := max (keyEnd t) (roundToPage s oe)
    have htree : ∀ i, wfList s (wf ss s) 0 (owner t, frameVaddr s t i) true
        (tree t i) := by
      intro i
      by_cases hi : i < keyEnd t
      · exact wfOf.tree h i hi
      · rw [wfOf.outside h i (by omega)]
        trivial
    have hwin : ∀ i, truncToPage s ob ≤ i → i < roundToPage s oe → t'.tree i =
        (flushPage (treemapOps ss s) ps s (owner t) ob oe i (tree t i)).1 :=
      fun i hi hi' => if_pos ⟨hi, hi'⟩
    have hout : ∀ i, ¬ (truncToPage s ob ≤ i ∧ i < roundToPage s oe) →
        t'.tree i = tree t i := fun i hi => if_neg hi
    have hnil : ∀ i, keyEnd t ≤ i → tree t i = [] := wfOf.outside h
    have hnil' : ∀ i, keyEnd t ≤ i → t'.tree i = [] := by
      intro i hi
      by_cases hw : truncToPage s ob ≤ i ∧ i < roundToPage s oe
      · rw [hwin i hw.1 hw.2, hnil i hi]
        rfl
      · rw [hout i hw, hnil i hi]
    have hsum := flatMap_perm_window (a := truncToPage s ob)
      (show roundToPage s oe ≤ n from le_max_right _ _)
      (f := fun i => allocsList (allocs ss) (owner t) (tree t i))
      (g := fun i => allocsList (allocs ss) (owner t) (t'.tree i))
      (u := fun i => (flushPage (treemapOps ss s) ps s (owner t) ob oe i
        (tree t i)).2)
      (v := fun i => forgottenPage (treemapOps ss s) (allocs ss) (forgotten ss s) ps s ob oe i
        (tree t i))
      (fun i _ hi hi' => by
        rw [hwin i hi hi']
        exact flushPage_perm (fun par m hm => owner_of_wf s hm) (treemapOps_del_perm ss s)
          (fun ob oe par m hm => ih s ob oe hm) (htree i) ob oe i)
      (fun i _ hi => by rw [hout i hi])
    rw [← flatMap_range_extend (le_max_left _ _) (fun i hi => by rw [hnil i hi]; rfl),
      ← flatMap_range_extend (le_max_left _ _) (fun i hi => by rw [hnil' i hi]; rfl)] at hsum
    refine (hsum.cons _).trans ?_
    rw [append_assoc, append_assoc]
    exact perm_middle.symm

section Db

variable {ss : List ℕ} {ps : ℕ} {t t' : Treemap S ss} {f : Frame} {meToo : Bool} {vs ve : ℕ}
  {cs : List (Charge S)}

theorem flush_cases (h : flush ss t f meToo vs ve = some (t', cs)) :
    ∃ s' ss' t₀ plug pv l, At ss t f.hops s' ss' t₀ plug ∧ f.key < t₀.keyEnd ∧
      pvaddr s' t₀ f.key f.m = some pv ∧
      flushTree (treemapOps ss' s') f.m meToo (offsBegin pv vs) (offsEnd (2 ^ s') pv ve)
        (t₀.tree f.key) = some (l, cs) ∧ t' = plug (t₀.set f.key l) := by
  obtain ⟨s', ss', t₀, plug, l, hat, hk, hop, rfl⟩ := onFrame_eq_some.mp h
  obtain ⟨pv, hpv, htree⟩ := Option.bind_eq_some_iff.mp hop
  exact ⟨s', ss', t₀, plug, pv, l, hat, hk, hpv, htree, rfl⟩

theorem flush_wf (hs : Levels ps ss) (hwf : wf ss ps par t)
    (h : flush ss t f meToo vs ve = some (t', cs)) : wf ss ps par t' := by
  obtain ⟨s', ss', t₀, plug, pv, l, hat, hk, -, htree, rfl⟩ := flush_cases h
  obtain ⟨ps', par', hs', hwf', hplug⟩ := hat.wf hs hwf
  exact hplug _ (wfOf_set hwf' hk (wfList_flushTree
    (fun par m hm => wf_flush ss' s' s' _ _ par m hm) (hwf'.tree _ hk) htree))

def forgottenFrom (s : ℕ) (ss : List ℕ) (m : Option ℕ) (meToo : Bool) (ob oe : ℕ)
    (l : List (Mapping S (Treemap S ss))) : List (Charge S) :=
  match m with
  | none => forgottenHead (treemapOps ss s) (forgotten ss s) ob oe l
  | some a =>
    match seek a l with
    | some (_, _, post) =>
      if meToo then [] else forgottenHead (treemapOps ss s) (forgotten ss s) ob oe post
    | none => []

def flushForgotten (ss : List ℕ) (t : Treemap S ss) (f : Frame) (meToo : Bool) (vs ve : ℕ) :
    List (Charge S) :=
  ((onFrame (fun s ss t k => (pvaddr s t k f.m).map fun pv =>
    (t.tree k, forgottenFrom s ss f.m meToo (offsBegin pv vs) (offsEnd (2 ^ s) pv ve)
      (t.tree k))) ss t f.hops f.key).map Prod.snd).getD []

theorem flushTree_perm {s : ℕ} {ob oe : ℕ} {m : Option ℕ}
    {l l' : List (Mapping S (Treemap S ss))} (h : wfList s (wf ss s) 0 par true l)
    (hf : flushTree (treemapOps ss s) m meToo ob oe l = some (l', cs)) :
    (allocsList (allocs ss) par.1 l).Perm
      (cs ++ allocsList (allocs ss) par.1 l' ++ forgottenFrom s ss m meToo ob oe l) := by
  have hop : ∀ (par : S × ℕ) m, wf ss s par m → (treemapOps ss s).owner m = par.1 :=
    fun par m hm => owner_of_wf s hm
  have hloop : ∀ (pd : ℤ) {cap : ℕ} {par : S × ℕ} {l : List (Mapping S (Treemap S ss))},
      wfList s (wf ss s) cap par true l → (allocsList (allocs ss) par.1 l).Perm
        ((flushLoop (treemapOps ss s) pd false ob oe pd l).2 ++
          allocsList (allocs ss) par.1 (flushLoop (treemapOps ss s) pd false ob oe pd l).1 ++
          forgottenHead (treemapOps ss s) (forgotten ss s) ob oe l) :=
    fun pd _ _ _ hl => flushLoop_perm hop (treemapOps_del_perm ss s)
      (fun par m hm => treemapOps_flush_perm ss s ob oe hm) hl
  cases m with
  | none =>
    simp only [flushTree, Option.some.injEq] at hf
    have hl' := congrArg Prod.fst hf
    have hcs := congrArg Prod.snd hf
    simp only at hl' hcs
    rw [← hl', ← hcs]
    exact hloop (-1) h
  | some a =>
    simp only [flushTree, Option.map_eq_some_iff] at hf
    obtain ⟨⟨pre, ⟨sp, pg, d⟩, post⟩, hseek, he⟩ := hf
    simp only [forgottenFrom, hseek]
    rw [seek_eq_some hseek] at h ⊢
    obtain ⟨-, hpost, -, -⟩ := wfList_real_focus h
    rw [allocsList_append]
    simp only [allocsList]
    cases meToo with
    | true =>
      simp only [if_true, Prod.mk.injEq] at he
      obtain ⟨rfl, rfl⟩ := he
      have hfreed : (flushLoop (treemapOps ss s) d true ob oe d post).2.Perm
          (allocsList (allocs ss) sp (below d post)) :=
        flushLoop_freed (.inl rfl) hop (treemapOps_del_perm ss s) hpost
      rw [allocsList_append, flushLoop_of_meToo, allocsList_below_rest d sp post,
        allocsList_of_noSub (noSub_rest d post) sp (payer par.1 pre)]
      refine (((hfreed.symm.append_right _).cons _).append_left _).trans ?_
      rw [← Multiset.coe_eq_coe]
      simp only [← Multiset.coe_add, ← Multiset.cons_coe, ← Multiset.singleton_add, if_true,
        Multiset.coe_nil]
      abel
    | false =>
      simp only [Bool.false_eq_true, if_false, Prod.mk.injEq] at he ⊢
      obtain ⟨rfl, rfl⟩ := he
      rw [allocsList_append]
      simp only [allocsList]
      refine ((hloop d hpost).cons _ |>.append_left _).trans ?_
      rw [← Multiset.coe_eq_coe]
      simp only [← Multiset.coe_add, ← Multiset.cons_coe, ← Multiset.singleton_add]
      abel

theorem flush_allocs (hs : Levels ps ss) (hwf : wf ss ps par t)
    (h : flush ss t f meToo vs ve = some (t', cs)) :
    (allocs ss t).Perm (cs ++ allocs ss t' ++ flushForgotten ss t f meToo vs ve) := by
  obtain ⟨s', ss', t₀, plug, pv, l, hat, hk, hpv, htree, rfl⟩ := flush_cases h
  obtain ⟨ps', par', hs', hwf', -⟩ := hat.wf hs hwf
  obtain ⟨A, B, hall⟩ := hat.allocs hk
  have hself : t = plug (t₀.set f.key (t₀.tree f.key)) := by
    rw [set_self t₀ rfl, hat.plug_self]
  have hold := hall (t₀.tree f.key)
  rw [← hself] at hold
  have hforgot : flushForgotten ss t f meToo vs ve = forgottenFrom s' ss' f.m meToo
      (offsBegin pv vs) (offsEnd (2 ^ s') pv ve) (t₀.tree f.key) := by
    rw [flushForgotten, onFrame_eq_some.mpr ⟨s', ss', t₀, plug, _, hat, hk, by rw [hpv]; rfl, rfl⟩]
    rfl
  rw [hold, hall, hforgot]
  refine (((flushTree_perm (hwf'.tree _ hk) htree).append_left A).append_right B).trans ?_
  rw [← Multiset.coe_eq_coe]
  simp only [← Multiset.coe_add]
  abel

end Db

end Fiasco.Mapdb
