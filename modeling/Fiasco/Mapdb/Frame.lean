import Fiasco.Mapdb.Treemap

/-!
# Operating on the page frame a frame points to

`onFrame` runs an operation on one mapping tree somewhere inside a nested
treemap. What it does to the whole is read off `At`: the chains of all other
trees stay where they are, and the whole is well formed when the new tree is.
-/
namespace Fiasco.Mapdb

open List TreemapOf

variable {S T R : Type} {k : ℕ} {l : List (Mapping S T)}

section

variable (t : TreemapOf S T)

@[simp] theorem TreemapOf.set_tree_same (k : ℕ) (l : List (Mapping S T)) :
    (t.set k l).tree k = l := by
  simp [TreemapOf.set]

theorem TreemapOf.set_tree_of_ne {i : ℕ} (l : List (Mapping S T)) (h : i ≠ k) :
    (t.set k l).tree i = t.tree i := by
  simp [TreemapOf.set, Function.update_of_ne h]

@[simp] theorem TreemapOf.set_keyEnd (k : ℕ) (l : List (Mapping S T)) :
    (t.set k l).keyEnd = t.keyEnd := rfl

theorem TreemapOf.set_self (h : t.tree k = l) : t.set k l = t := by
  subst h
  simp [TreemapOf.set]

end

theorem onSub_eq_some {a : ℕ} {f : T → Option (T × R)} {l' : List (Mapping S T)} {r : R} :
    onSub a f l = some (l', r) ↔
      ∃ l₁ m l₂ m', l = l₁ ++ .sub a m :: l₂ ∧ (∀ x ∈ l₁, x.addr ≠ a) ∧
        f m = some (m', r) ∧ l' = l₁ ++ .sub a m' :: l₂ := by
  induction l generalizing l' with
  | nil => simp [onSub]
  | cons x l ih =>
    constructor
    · intro h
      by_cases hx : x.addr = a
      · cases x with
        | real a' sp pg d => simp [onSub, hx] at h
        | sub a' m =>
          simp only [Mapping.addr] at hx
          subst hx
          simp only [onSub, Mapping.addr, if_true, Option.map_eq_some_iff] at h
          obtain ⟨⟨m', r'⟩, hf, he⟩ := h
          obtain ⟨rfl, rfl⟩ := Prod.mk.inj he
          exact ⟨[], m, l, m', rfl, by simp, hf, rfl⟩
      · simp only [onSub, hx, if_false, Option.map_eq_some_iff] at h
        obtain ⟨⟨l'', r'⟩, hl, he⟩ := h
        obtain ⟨rfl, rfl⟩ := Prod.mk.inj he
        obtain ⟨l₁, m, l₂, m', rfl, hne, hf, rfl⟩ := ih.mp hl
        refine ⟨x :: l₁, m, l₂, m', rfl, ?_, hf, rfl⟩
        intro y hy
        rcases mem_cons.mp hy with rfl | hy
        · exact hx
        · exact hne y hy
    · rintro ⟨l₁, m, l₂, m', hl, hne, hf, rfl⟩
      cases l₁ with
      | nil =>
        obtain ⟨rfl, rfl⟩ := cons.inj hl
        simp [onSub, Mapping.addr, hf]
      | cons y l₁ =>
        obtain ⟨rfl, rfl⟩ := cons.inj hl
        have hx : x.addr ≠ a := hne x mem_cons_self
        have hrec : onSub a f (l₁ ++ .sub a m :: l₂) = some (l₁ ++ .sub a m' :: l₂, r) := ih.mpr ⟨l₁, m, l₂, m', rfl,
          fun z hz => hne z (mem_cons_of_mem _ hz), hf, rfl⟩
        simp [onSub, hx, hrec]

variable {ss : List ℕ} {t : Treemap S ss} {hops : List (ℕ × ℕ)} {s' : ℕ} {ss' : List ℕ}
  {t' : TreemapOf S (Treemap S ss')} {plug : TreemapOf S (Treemap S ss') → Treemap S ss} {s : ℕ}
  {par : S × ℕ} {ps : ℕ} {nested : S × ℕ → T → Prop}

theorem onFrame_eq_some {op : TreemapOp S R} {t' : Treemap S ss} {r : R} :
    onFrame op ss t hops k = some (t', r) ↔
      ∃ s' ss' t₀ plug l, At ss t hops s' ss' t₀ plug ∧ k < t₀.keyEnd ∧
        op s' ss' t₀ k = some (l, r) ∧ t' = plug (t₀.set k l) := by
  induction hops generalizing ss with
  | nil =>
    cases ss with
    | nil => exact nomatch t
    | cons s ss =>
      constructor
      · intro h
        rw [onFrame] at h
        split_ifs at h with hk
        obtain ⟨⟨l, r'⟩, ho, he⟩ := Option.map_eq_some_iff.mp h
        obtain ⟨rfl, rfl⟩ := Prod.mk.inj he
        exact ⟨s, ss, t, id, l, At.here s ss t, hk, ho, rfl⟩
      · rintro ⟨s', ss', t₀, plug, l, hat, hk, ho, rfl⟩
        cases hat
        rw [onFrame, if_pos hk, ho]
        rfl
  | cons h hops ih =>
    obtain ⟨k', a⟩ := h
    cases ss with
    | nil => exact nomatch t
    | cons s ss =>
      constructor
      · intro h
        rw [onFrame] at h
        split_ifs at h with hk
        obtain ⟨⟨l, r'⟩, ho, he⟩ := Option.map_eq_some_iff.mp h
        obtain ⟨rfl, rfl⟩ := Prod.mk.inj he
        obtain ⟨l₁, m, l₂, m', hl, hne, hf, rfl⟩ := onSub_eq_some.mp ho
        obtain ⟨s', ss', t₀, plug, l, hat, hk', ho', rfl⟩ := ih.mp hf
        exact ⟨s', ss', t₀, _, l, At.down s ss t k' a l₁ l₂ m hops s' ss' t₀ plug hk hl hne hat,
          hk', ho', rfl⟩
      · rintro ⟨s', ss', t₀, plug, l, hat, hk', ho, rfl⟩
        cases hat with
        | down _ _ _ _ _ l₁ l₂ m _ _ _ _ plug hk hl hne hat =>
          have hf := ih.mpr ⟨s', ss', t₀, plug, l, hat, hk', ho, rfl⟩
          rw [onFrame, if_pos hk, onSub_eq_some.mpr ⟨l₁, m, l₂, _, hl, hne, hf, rfl⟩]
          rfl

theorem wfList_sub_focus {cap : ℕ} {fr : Bool} {l₁ l₂ : List (Mapping S T)} {a : ℕ} {m : T}
    (h : wfList s nested cap par fr (l₁ ++ .sub a m :: l₂)) : ∃ par', nested par' m ∧
      (2 ^ s ∣ par.2 → 2 ^ s ∣ par'.2) ∧
      ∀ m', nested par' m' → wfList s nested cap par fr (l₁ ++ .sub a m' :: l₂) := by
  induction l₁ generalizing cap par fr with
  | nil => exact ⟨par, h.2.1, id, fun m' hm => ⟨h.1, hm, h.2.2⟩⟩
  | cons x l₁ ih =>
    cases x with
    | real =>
      obtain ⟨par', hm, hd, hrest⟩ := ih h.2.2
      exact ⟨par', hm, fun _ => hd (dvd_mul_left _ _), fun m' hm' => ⟨h.1, h.2.1, hrest m' hm'⟩⟩
    | sub =>
      obtain ⟨par', hm, hd, hrest⟩ := ih h.2.2
      exact ⟨par', hm, hd, fun m' hm' => ⟨h.1, h.2.1, hrest m' hm'⟩⟩

theorem wfOf_set {t : TreemapOf S T} (h : wfOf s nested ps par t)
    (hk : k < t.keyEnd) (hl : wfList s nested 0 (t.owner, t.frameVaddr s k) true l) :
    wfOf s nested ps par (t.set k l) where
  owner := h.owner
  pageOffset := h.pageOffset
  keyEnd := h.keyEnd
  tree i hi := by
    by_cases hik : i = k
    · subst hik
      rw [set_tree_same]
      exact hl
    · rw [set_tree_of_ne _ _ hik]
      exact h.tree i hi
  outside i hi := by
    rw [set_keyEnd] at hi
    rw [set_tree_of_ne _ _ (by omega)]
    exact h.outside i hi

structure Levels (ps : ℕ) (ss : List ℕ) : Prop where
  sorted : ss.Pairwise (· > ·)
  le : ∀ s ∈ ss, s ≤ ps

theorem Levels.tail (h : Levels ps (s :: ss)) : Levels s ss where
  sorted := (pairwise_cons.mp h.sorted).2
  le s' hs' := ((pairwise_cons.mp h.sorted).1 s' hs').le

theorem Levels.head (h : Levels ps (s :: ss)) : s ≤ ps :=
  h.le s mem_cons_self

variable (h : At ss t hops s' ss' t' plug)
include h

theorem At.plug_self : plug t' = t := by
  induction h with
  | here => rfl
  | down s ss t k a l₁ l₂ m hops s' ss' t' plug hk hl hne hat ih =>
    subst ih
    exact set_self t hl

theorem At.mem : s' ∈ ss := by
  induction h with
  | here => exact mem_cons_self
  | down s ss t k a l₁ l₂ m hops s' ss' t' plug hk hl hne hat ih => exact mem_cons_of_mem _ ih

theorem At.wf (hs : Levels ps ss) (hwf : wf ss ps par t) :
    ∃ ps' par', Levels ps' (s' :: ss') ∧ wfOf s' (Mapdb.wf ss' s') ps' par' t' ∧
      ∀ x, wfOf s' (Mapdb.wf ss' s') ps' par' x → Mapdb.wf ss ps par (plug x) := by
  induction h generalizing ps par with
  | here s ss t => exact ⟨ps, par, hs, hwf, fun x hx => hx⟩
  | down s ss t k a l₁ l₂ m hops s' ss' t' plug hk hl hne hat ih =>
    have htree := wfOf.tree hwf k hk
    rw [hl] at htree
    obtain ⟨par₁, hm, -, hback⟩ := wfList_sub_focus htree
    obtain ⟨ps', par', hs', ht', hplug⟩ := ih hs.tail hm
    exact ⟨ps', par', hs', ht', fun x hx => wfOf_set hwf hk (hback _ (hplug x hx))⟩

theorem At.aligned (hs : Levels ps ss) (hwf : Mapdb.wf ss ps par t) (hpar : 2 ^ ps ∣ par.2) (i : ℕ) :
    2 ^ s' ∣ t'.frameVaddr s' i := by
  induction h generalizing ps par i with
  | here s ss t =>
    rw [TreemapOf.frameVaddr, wfOf.pageOffset hwf]
    exact dvd_add ((pow_dvd_pow 2 hs.head).trans hpar) (dvd_mul_left _ _)
  | down s ss t k a l₁ l₂ m hops s' ss' t' plug hk hl hne hat ih =>
    have htree := wfOf.tree hwf k hk
    rw [hl] at htree
    obtain ⟨par₁, hm, hd, -⟩ := wfList_sub_focus htree
    refine ih hs.tail hm (hd ?_) i
    rw [TreemapOf.frameVaddr, wfOf.pageOffset hwf]
    exact dvd_add ((pow_dvd_pow 2 hs.head).trans hpar) (dvd_mul_left _ _)

end Fiasco.Mapdb
