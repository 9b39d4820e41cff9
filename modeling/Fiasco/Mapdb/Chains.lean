import Fiasco.Mapdb.FlushTree
import Fiasco.Lib.Dyadic

/-!
# Shape of the chains of a treemap

Every chain of a treemap ends with the chain the treemap hangs under, and the
mapping directly before that end lies inside the frames of the treemap. Every
mapping on a chain heads a chain itself.
-/
namespace Fiasco.Mapdb

open DepthList List Mapping

variable {S T : Type} {k : ℕ} {up : List (Node S)} {n : Node S} {s phys : ℕ}

theorem flatMap_range_split {β : Type} {n : ℕ} (hk : k < n) (f : ℕ → List β) :
    (range n).flatMap f =
      (range k).flatMap f ++ f k ++ (range' (k + 1) (n - (k + 1))).flatMap f := by
  have hr : range n = range k ++ k :: range' (k + 1) (n - (k + 1)) := by
    have h1 : range n = range k ++ range' k (n - k) := by
      rw [range_eq_range', range_eq_range']
      have := @range'_append_1 0 k (n - k)
      rw [Nat.zero_add, Nat.add_sub_cancel' hk.le] at this
      exact this.symm
    have h2 : n - k = (n - (k + 1)) + 1 := by omega
    rw [h1, h2, range'_succ]
  rw [hr]
  simp

theorem flatMap_congr_left {β γ : Type} {l : List β} {f g : β → List γ}
    (h : ∀ x ∈ l, f x = g x) : l.flatMap f = l.flatMap g := by
  induction l with
  | nil => rfl
  | cons x l ih =>
    rw [flatMap_cons, flatMap_cons, h x mem_cons_self, ih (fun y hy => h y (mem_cons_of_mem _ hy))]

def Extends (up c : List (Node S)) (ch : Node S) : Prop :=
  ∃ p, c = p ++ ch :: up

theorem Extends.under {q c : List (Node S)} {ch : Node S} (h : Extends (q ++ n :: up) c ch) :
    Extends up c n := by
  obtain ⟨p, rfl⟩ := h
  exact ⟨p ++ ch :: q, by simp⟩

def Within (lo hi : ℕ) (up : List (Node S)) (cs : List (List (Node S))) : Prop :=
  ∀ c ∈ cs, ∃ ch, Extends up c ch ∧ lo ≤ ch.phys ∧ ch.phys + 2 ^ ch.shift ≤ hi

theorem view_eq_some {x : Mapping S T} {d : ℕ} (h : view s phys x = some (d, n)) :
    n.phys = phys ∧ n.shift = s := by
  cases x with
  | real a sp pg d' =>
    obtain ⟨rfl, rfl⟩ := Prod.mk.inj (Option.some.inj h)
    exact ⟨rfl, rfl⟩
  | sub a m => exact absurd h (by simp [view])

theorem path_append (st₁ st₂ : List (ℕ × Node S)) : path (st₁ ++ st₂) = path st₁ ++ path st₂ :=
  map_append

theorem path_eq_append_singleton {st : List (ℕ × Node S)} (h : st ≠ []) :
    ∃ q e, e ∈ st ∧ path st = q ++ [e.2] := by
  refine ⟨path st.dropLast, st.getLast h, getLast_mem h, ?_⟩
  conv_lhs => rw [← dropLast_append_getLast h]
  rw [path_append]
  rfl

variable {nested : ℕ → List (Node S) → T → List (List (Node S))} {l : List (Mapping S T)}

section List

variable {s : ℕ}

section

variable (phys : ℕ) (up : List (Node S)) (st : List (ℕ × Node S))

@[simp] theorem chainsList_nil : chainsList s nested phys up st [] = [] := rfl

theorem chainsList_append
    (l r : List (Mapping S T)) :
    chainsList s nested phys up st (l ++ r) = chainsList s nested phys up st l ++
      chainsList s nested phys up (stack (view s phys) st l) r :=
  scan_append _ _ _ _

theorem chainsList_sub (a : ℕ) (m : T) (l : List (Mapping S T)) :
    chainsList s nested phys up st (.sub a m :: l) =
      nested phys (path st ++ up) m ++ chainsList s nested phys up st l := rfl

theorem chainsList_cons (x : Mapping S T) (l : List (Mapping S T)) :
    chainsList s nested phys up st (x :: l) =
      chainsItem nested phys up (path (advance (view s phys) st x)) x ++
        chainsList s nested phys up (advance (view s phys) st x) l := rfl

end

variable {phys : ℕ} {wfn : S × ℕ → T → Prop} {par : S × ℕ} {st : List (ℕ × Node S)}
  {c : List (Node S)} {cap : ℕ}

theorem mem_chainsList {up : List (Node S)} :
    c ∈ chainsList s nested phys up st l ↔ ∃ l₁ x l₂, l = l₁ ++ x :: l₂ ∧
      c ∈ chainsItem nested phys up (path (stack (view s phys) st (l₁ ++ [x]))) x :=
  scan_mem

theorem stack_label {e : ℕ × Node S} (h : e ∈ stack (view s phys) [] l) :
    e.2.phys = phys ∧ e.2.shift = s := by
  rcases mem_stack h with h | ⟨x, _, hv⟩
  · exact absurd h not_mem_nil
  · exact view_eq_some hv

theorem chainsList_child {up : List (Node S)} {pd : ℤ}
    (hst : ∀ e ∈ st.head?, (e.1 : ℤ) ≤ pd) (hl : ∀ x ∈ l, x.deeper pd) (hn : noSub l)
    (hnest : ∀ a m, sub a m ∈ l → ∀ u c, c ∈ nested phys u m → ∃ ch, Extends u c ch)
    (hc : c ∈ chainsList s nested phys up st l) :
    ∃ ch, Extends (path st ++ up) c ch ∧ ch.phys = phys ∧ ch.shift = s := by
  obtain ⟨l₁, x, l₂, rfl, hx⟩ := mem_chainsList.mp hc
  have hdeep : ∀ y ∈ l₁ ++ [x], deeper (view s phys) pd y := by
    intro y hy
    rw [deeper_view]
    refine hl y ?_
    rw [mem_append] at hy ⊢
    exact hy.imp id fun h => by simpa using .inl (mem_singleton.mp h)
  obtain ⟨pre, hpre, hfrom, hne⟩ := stack_deeper hst hdeep [] (by simp)
  rw [nil_append] at hpre
  have hpre0 : pre ≠ [] := by
    apply hne
    right
    cases l₁ with
    | nil =>
      cases x with
      | real a sp pg d => exact ⟨_, rfl, by simp [view]⟩
      | sub a m => exact absurd hn id
    | cons y l₁ =>
      cases y with
      | real a sp pg d => exact ⟨_, rfl, by simp [view]⟩
      | sub a m => exact absurd hn id
  obtain ⟨q, e, he, hq⟩ := path_eq_append_singleton hpre0
  have hlabel : e.2.phys = phys ∧ e.2.shift = s := by
    rcases hfrom e he with h | ⟨y, _, hv⟩
    · exact absurd h not_mem_nil
    · exact view_eq_some hv
  have hpath : path (stack (view s phys) st (l₁ ++ [x])) ++ up =
      q ++ e.2 :: (path st ++ up) := by
    rw [hpre, path_append, hq]
    simp
  refine ⟨e.2, ?_, hlabel⟩
  cases x with
  | real a sp pg d =>
    rw [chainsItem, mem_singleton, hpath] at hx
    exact ⟨q, hx⟩
  | sub a m =>
    rw [chainsItem, hpath] at hx
    obtain ⟨ch, hch⟩ := hnest a m (by simp) _ _ hx
    exact hch.under

theorem wfList_mem_sub {fr : Bool} (h : wfList s wfn cap par fr l) {a : ℕ} {m : T}
    (hm : sub a m ∈ l) : ∃ par', wfn par' m := by
  obtain ⟨l₁, l₂, rfl⟩ := append_of_mem hm
  obtain ⟨par', hwf, _⟩ := wfList_sub_focus h
  exact ⟨par', hwf⟩

theorem chainsList_below_child {fr : Bool} {pd : ℤ} {st : List (ℕ × Node S)} {up c : List (Node S)}
    (hnest : ∀ par m u, wfn par m → Within phys (phys + 2 ^ s) u (nested phys u m))
    (h : wfList s wfn cap par fr l) (hst : ∀ e ∈ st.head?, (e.1 : ℤ) ≤ pd)
    {l' : List (Mapping S T)} (hn : noSub l') (hsub : ∀ x ∈ l', x ∈ l)
    (hc : c ∈ chainsList s nested phys up st (below pd l')) :
    ∃ ch, Extends (path st ++ up) c ch ∧ ch.phys = phys ∧ ch.shift = s := by
  refine chainsList_child hst (fun x hx => deeper_of_mem_below hx) (noSub_below hn)
    (fun a m hm u c hc => ?_) hc
  obtain ⟨par', hwf⟩ := wfList_mem_sub h (hsub _ (takeWhile_subset _ hm))
  obtain ⟨ch, hch, _⟩ := hnest par' m u hwf c hc
  exact ⟨ch, hch⟩

theorem chainsList_below_within
    (hnest : ∀ par m u, wfn par m → Within phys (phys + 2 ^ s) u (nested phys u m))
    (h : wfList s wfn cap par true l) (pd : ℤ) (st : List (ℕ × Node S))
    (hst : ∀ e ∈ st.head?, (e.1 : ℤ) ≤ pd) (up : List (Node S)) :
    Within phys (phys + 2 ^ s) (path st ++ up) (chainsList s nested phys up st (below pd l)) := by
  have hreal : ∀ l' : List (Mapping S T), noSub l' → (∀ x ∈ l', x ∈ l) →
      ∀ c ∈ chainsList s nested phys up st (below pd l'),
        ∃ ch, Extends (path st ++ up) c ch ∧ phys ≤ ch.phys ∧ ch.phys + 2 ^ ch.shift ≤ phys + 2 ^ s := by
    intro l' hn hsub c hc
    obtain ⟨ch, hch, hp, hs⟩ := chainsList_below_child hnest h hst hn hsub hc
    exact ⟨ch, hch, by omega, by rw [hp, hs]⟩
  intro c hc
  cases l with
  | nil => exact absurd hc not_mem_nil
  | cons x l =>
    cases x with
    | real a sp pg d => exact hreal (.real a sp pg d :: l) trivial (fun x hx => hx) c hc
    | sub a m =>
      rw [below_sub, chainsList_sub, mem_append] at hc
      rcases hc with hc | hc
      · exact hnest _ m _ h.2.1 c hc
      · exact hreal l (wfList_noSub h.2.2) (fun x hx => mem_cons_of_mem _ hx) c hc

theorem chainsList_within
    (hnest : ∀ par m u, wfn par m → Within phys (phys + 2 ^ s) u (nested phys u m))
    (h : wfList s wfn 0 par true l) (up : List (Node S)) :
    Within phys (phys + 2 ^ s) up (chainsList s nested phys up [] l) := by
  have hall := chainsList_below_within hnest h (-1) [] (by simp) up
  simpa [path] using hall

end List

theorem chains_within {ss : List ℕ} {ps : ℕ} (hs : Levels ps ss) {par : S × ℕ} {t : Treemap S ss}
    (h : wf ss ps par t) (base : ℕ) (up : List (Node S)) :
    Within base (base + 2 ^ ps) up (chains ss base up t) := by
  induction ss generalizing ps par base up with
  | nil => exact nomatch t
  | cons s ss ih =>
    intro c hc
    obtain ⟨k, hk, hck⟩ := mem_flatMap.mp hc
    rw [mem_range] at hk
    obtain ⟨ch, hch, hlo, hhi⟩ := chainsList_within
      (fun par m u hm => ih hs.tail hm _ u) (wfOf.tree h k hk) up c hck
    have := Dyadic.page_le hs.head (wfOf.keyEnd h ▸ hk)
    exact ⟨ch, hch, by omega, by omega⟩

def heads (cs : List (List (Node S))) : List (Node S) := cs.filterMap head?

variable {cs : List (List (Node S))} {x : Node S} {f : ℕ → List (List (Node S))}

@[simp] theorem heads_append (cs ds : List (List (Node S))) :
    heads (cs ++ ds) = heads cs ++ heads ds := filterMap_append

theorem mem_heads : x ∈ heads cs ↔ ∃ c ∈ cs, c.head? = some x := by
  simp [heads]

def Closed (up : List (Node S)) (ds cs : List (List (Node S))) : Prop :=
  ∀ c ∈ cs, ∀ x ∈ c, x ∈ up ∨ x ∈ heads ds

theorem Closed.mono {ds ds' : List (List (Node S))} (h : Closed up ds cs)
    (hd : ∀ x ∈ heads ds, x ∈ heads ds') : Closed up ds' cs :=
  fun c hc x hx => (h c hc x hx).imp id (hd x)

theorem Closed.append {ds cs' : List (List (Node S))} (h : Closed up ds cs) (h' : Closed up ds cs')
    : Closed up ds (cs ++ cs') := by
  intro c hc
  rcases mem_append.mp hc with hc | hc
  · exact h c hc
  · exact h' c hc

theorem chainsList_closed (hnest : ∀ phys u m, Closed u (nested phys u m) (nested phys u m))
    (phys : ℕ) (up : List (Node S)) (st : List (ℕ × Node S)) (l : List (Mapping S T)) :
    Closed (path st ++ up) (chainsList s nested phys up st l) (chainsList s nested phys up st l) := by
  induction l generalizing st with
  | nil => exact fun c hc => absurd hc not_mem_nil
  | cons x l ih =>
    cases x with
    | real a sp pg d =>
      set n : Node S := ⟨a, sp, pg * 2 ^ s, phys, s⟩
      set st' := (d, n) :: st.dropWhile (fun e => d ≤ e.1) with hst'
      have hcons : chainsList s nested phys up st (.real a sp pg d :: l) =
          (path st' ++ up) :: chainsList s nested phys up st' l := rfl
      have hup : ∀ x ∈ path st' ++ up, x ∈ path st ++ up ∨ x = n := by
        intro x hx
        rcases mem_append.mp hx with hx | hx
        · rcases mem_cons.mp hx with rfl | hx
          · exact .inr rfl
          · refine .inl (mem_append_left _ ?_)
            obtain ⟨e, he, rfl⟩ := mem_map.mp hx
            exact mem_map_of_mem (dropWhile_subset _ he)
        · exact .inl (mem_append_right _ hx)
      have hn : n ∈ heads ((path st' ++ up) :: chainsList s nested phys up st' l) :=
        mem_heads.mpr ⟨_, mem_cons_self, rfl⟩
      rw [hcons]
      intro c hc x hx
      rcases mem_cons.mp hc with rfl | hc
      · rcases hup x hx with h | rfl
        · exact .inl h
        · exact .inr hn
      · rcases ih st' c hc x hx with h | h
        · rcases hup x h with h | rfl
          · exact .inl h
          · exact .inr hn
        · refine .inr ?_
          obtain ⟨c', hc', hh⟩ := mem_heads.mp h
          exact mem_heads.mpr ⟨c', mem_cons_of_mem _ hc', hh⟩
    | sub a m =>
      rw [chainsList_sub]
      refine Closed.append ?_ ?_
      · exact (hnest phys (path st ++ up) m).mono fun x hx => by
          rw [heads_append]; exact mem_append_left _ hx
      · exact (ih st).mono fun x hx => by
          rw [heads_append]; exact mem_append_right _ hx

theorem heads_flatMap_mem {l : List ℕ} (hk : k ∈ l)
    (hx : x ∈ heads (f k)) : x ∈ heads (l.flatMap f) := by
  obtain ⟨c, hc, hh⟩ := mem_heads.mp hx
  exact mem_heads.mpr ⟨c, mem_flatMap.mpr ⟨k, hk, hc⟩, hh⟩

theorem Closed.flatMap {l : List ℕ}
    (h : ∀ k ∈ l, Closed up (f k) (f k)) : Closed up (l.flatMap f) (l.flatMap f) := by
  intro c hc
  obtain ⟨k, hk, hck⟩ := mem_flatMap.mp hc
  exact (h k hk).mono (fun x hx => heads_flatMap_mem hk hx) c hck

theorem chains_closed (ss : List ℕ) (base : ℕ) (up : List (Node S)) (t : Treemap S ss) :
    Closed up (chains ss base up t) (chains ss base up t) := by
  induction ss generalizing base up with
  | nil => exact nomatch t
  | cons s ss ih =>
    exact Closed.flatMap fun k _ => chainsList_closed (fun phys u m => ih phys u m) _ up [] _

theorem mem_heads_of_mem {st : List (ℕ × Node S)} {x : Mapping S T}
    (hx : x ∈ l) {d : ℕ} (hv : view s phys x = some (d, n)) :
    n ∈ heads (chainsList s nested phys up st l) := by
  obtain ⟨l₁, l₂, rfl⟩ := append_of_mem hx
  rw [chainsList_append, heads_append, chainsList_cons, heads_append, advance_of_some hv]
  refine mem_append_right _ (mem_append_left _ ?_)
  cases x with
  | real a sp pg d' => exact mem_heads.mpr ⟨_, mem_singleton_self _, rfl⟩
  | sub a m => exact absurd hv (by simp [view])

theorem path_stack_heads (hx : x ∈ path (stack (view s phys) [] l))
    : x ∈ heads (chainsList s nested phys up [] l) := by
  obtain ⟨e, he, rfl⟩ := mem_map.mp hx
  rcases mem_stack he with h | ⟨y, hy, hv⟩
  · exact absurd h not_mem_nil
  · exact mem_heads_of_mem hy hv

theorem path_stack_mem (s : ℕ) (nested : ℕ → List (Node S) → T → List (List (Node S))) (phys : ℕ)
    (up : List (Node S)) (l : List (Mapping S T)) :
    stack (view s phys) [] l = [] ∨
      path (stack (view s phys) [] l) ++ up ∈ chainsList s nested phys up [] l := by
  induction l using reverseRecOn with
  | nil => exact .inl rfl
  | append_singleton l x ih =>
    rw [stack_append, chainsList_append]
    cases x with
    | real a sp pg d => exact .inr (mem_append_right _ mem_cons_self)
    | sub a m => exact ih.imp id (mem_append_left _)

theorem chainsOf_set (s : ℕ) (ss : List ℕ) (t : TreemapOf S (Treemap S ss)) (hk : k < t.keyEnd)
    (base : ℕ) (up : List (Node S)) :
    ∃ A B, Closed up A A ∧ Closed up B B ∧ ∀ l, chainsOf s (chains ss) base up (t.set k l) =
      A ++ chainsList s (chains ss) (base + k * 2 ^ s) up [] l ++ B := by
  have hcl : ∀ i, Closed up (chainsList s (chains ss) (base + i * 2 ^ s) up [] (t.tree i))
      (chainsList s (chains ss) (base + i * 2 ^ s) up [] (t.tree i)) :=
    fun i => chainsList_closed (fun phys u m => chains_closed ss phys u m) _ up [] _
  refine ⟨(range k).flatMap fun i =>
      chainsList s (chains ss) (base + i * 2 ^ s) up [] (t.tree i),
    (range' (k + 1) (t.keyEnd - (k + 1))).flatMap fun i =>
      chainsList s (chains ss) (base + i * 2 ^ s) up [] (t.tree i),
    Closed.flatMap fun i _ => hcl i, Closed.flatMap fun i _ => hcl i, fun l => ?_⟩
  rw [chainsOf, TreemapOf.set_keyEnd, flatMap_range_split hk, TreemapOf.set_tree_same]
  congr 1
  · congr 1
    refine flatMap_congr_left fun i hi => ?_
    rw [TreemapOf.set_tree_of_ne _ _ (mem_range.mp hi).ne]
  · refine flatMap_congr_left fun i hi => ?_
    have := (mem_range'_1.mp hi).1
    rw [TreemapOf.set_tree_of_ne _ _ (by omega)]

theorem At.focus {ss : List ℕ} {t : Treemap S ss} {hops : List (ℕ × ℕ)} {s' : ℕ} {ss' : List ℕ}
    {t' : TreemapOf S (Treemap S ss')} {plug : TreemapOf S (Treemap S ss') → Treemap S ss}
    (h : At ss t hops s' ss' t' plug) (hk : k < t'.keyEnd) (base : ℕ) (up : List (Node S)) :
    ∃ phys up' A B, Closed up A A ∧ Closed up (A ++ B) B ∧ (∀ x ∈ up', x ∈ up ∨ x ∈ heads A) ∧
      (up' = up ∨ up' ∈ A) ∧ (hops = [] → up' = up ∧ phys = base + k * 2 ^ s') ∧
      ∀ l, chains ss base up (plug (t'.set k l)) =
        A ++ chainsList s' (chains ss') phys up' [] l ++ B := by
  induction h generalizing base up with
  | here s ss t =>
    obtain ⟨A, B, hA, hB, hset⟩ := chainsOf_set s ss t hk base up
    refine ⟨base + k * 2 ^ s, up, A, B, hA, hB.mono fun x hx => ?_, fun x hx => .inl hx,
      .inl rfl, fun _ => ⟨rfl, rfl⟩, hset⟩
    rw [heads_append]
    exact mem_append_right _ hx
  | down s ss t k₁ a l₁ l₂ m hops s' ss' t' plug hk₁ hl hne hat ih =>
    set phys₁ := base + k₁ * 2 ^ s with hphys₁
    set st := stack (view s phys₁) ([] : List (ℕ × Node S)) l₁ with hst
    obtain ⟨A₁, B₁, hA₁, hB₁, hset⟩ := chainsOf_set s ss t hk₁ base up
    obtain ⟨phys, up', A₂, B₂, hA₂, hB₂, hup, hparent, -, hin⟩ := ih hk phys₁ (path st ++ up)
    set L := chainsList s (chains ss) phys₁ up [] l₁ with hL
    set R := chainsList s (chains ss) phys₁ up st l₂ with hR
    have hcs : ∀ (phys : ℕ) (u : List (Node S)) (m : Treemap S ss),
        Closed u (chains ss phys u m) (chains ss phys u m) :=
      fun phys u m => chains_closed ss phys u m
    have hclL : Closed up L L := chainsList_closed hcs phys₁ up [] l₁
    have hclR : Closed (path st ++ up) R R := chainsList_closed hcs phys₁ up st l₂
    -- what hangs under the open nodes of `l₁` hangs under heads of `L`
    have hopen : ∀ x ∈ path st ++ up, x ∈ up ∨ x ∈ heads (A₁ ++ L ++ A₂) := by
      intro x hx
      rcases mem_append.mp hx with hx | hx
      · refine .inr ?_
        simp only [heads_append, mem_append]
        exact .inl (.inr (path_stack_heads hx))
      · exact .inl hx
    have hlift : ∀ {ds cs : List (List (Node S))} (es : List (List (Node S))),
        Closed (path st ++ up) ds cs → (∀ x ∈ heads ds, x ∈ heads es) →
        (∀ x ∈ heads (A₁ ++ L ++ A₂), x ∈ heads es) → Closed up es cs := by
      intro ds cs es hcl hds hes c hc x hx
      rcases hcl c hc x hx with h | h
      · exact (hopen x h).imp id (hes x)
      · exact .inr (hds x h)
    refine ⟨phys, up', A₁ ++ L ++ A₂, B₂ ++ R ++ B₁, ?_, ?_, ?_, ?_, by simp, fun l => ?_⟩
    · refine Closed.append (Closed.append ?_ ?_) ?_
      · exact hA₁.mono fun x hx => by simp [hx]
      · exact hclL.mono fun x hx => by simp [hx]
      · exact hlift _ hA₂ (fun x hx => by simp [hx]) fun x hx => hx
    · refine Closed.append (Closed.append ?_ ?_) ?_
      · refine hlift _ hB₂ (fun x hx => ?_) fun x hx => ?_
        · simp only [heads_append, mem_append] at hx ⊢
          tauto
        · simp only [heads_append, mem_append] at hx ⊢
          tauto
      · refine hlift _ hclR (fun x hx => by simp [hx]) fun x hx => ?_
        simp only [heads_append, mem_append] at hx ⊢
        tauto
      · exact hB₁.mono fun x hx => by simp [hx]
    · intro x hx
      rcases hup x hx with h | h
      · exact hopen x h
      · exact .inr (by simp [h])
    · rcases hparent with rfl | h
      · rcases path_stack_mem s (chains ss) phys₁ up l₁ with hnil | hmem
        · exact .inl (by rw [hst, hnil]; rfl)
        · exact .inr (by simp only [mem_append]; exact .inl (.inr hmem))
      · exact .inr (by simp [h])
    · have hcs' : chains (s :: ss) base up (t.set k₁ (l₁ ++ .sub a (plug (t'.set k l)) :: l₂)) =
          chainsOf s (chains ss) base up (t.set k₁ (l₁ ++ .sub a (plug (t'.set k l)) :: l₂)) := rfl
      rw [hcs', hset, chainsList_append, chainsList_sub, ← hst, ← hphys₁, hin]
      simp only [append_assoc, hL, hR]

end Fiasco.Mapdb
