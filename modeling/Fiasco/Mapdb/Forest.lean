import Fiasco.Mapdb.FlushSpec

/-!
# The forest of mappings

What all the operations rely on when they look at the mappings of a treemap as a forest:
the mapping a mapping is derived from is in the forest as well, its page contains the
page of the derived one, and addresses identify mappings.
-/
namespace Fiasco.Mapdb

open DepthList List

variable {S T : Type} {cs : List (List (Node S))} {vs ve : ℕ}

structure Inside (n p : Node S) : Prop where
  le : p.phys ≤ n.phys
  ge : n.phys + 2 ^ n.shift ≤ p.phys + 2 ^ p.shift

structure Forest (cs : List (List (Node S))) : Prop where
  parent : ∀ c ∈ cs, ∃ n tail, c = n :: tail ∧
    (tail = [] ∨ tail ∈ cs ∧ ∃ p ∈ tail.head?, Inside n p)
  nodup : (mappingAddrs cs).Nodup

section Chains

structure Derived (cs : List (List (Node S))) (up : List (Node S)) (ss : List ℕ) (base size : ℕ)
    (n : Node S) (tail : List (Node S)) : Prop where
  shift : n.shift ∈ ss
  le : base ≤ n.phys
  ge : n.phys + 2 ^ n.shift ≤ base + size
  dvd : 2 ^ n.shift ∣ n.phys - base
  parent : tail = up ∨ tail ∈ cs ∧ ∃ p ∈ tail.head?, Inside n p

theorem path_suffix_mem (s : ℕ) (nested : ℕ → List (Node S) → T → List (List (Node S))) (phys : ℕ)
    (up : List (Node S)) (l : List (Mapping S T)) {st : List (ℕ × Node S)}
    (hst : st <:+ stack (Mapping.view s phys) [] l) :
    st = [] ∨ path st ++ up ∈ chainsList s nested phys up [] l := by
  induction l using reverseRecOn with
  | nil => exact .inl (suffix_nil.mp hst)
  | append_singleton l x ih =>
    rw [stack_append] at hst
    rw [chainsList_append]
    cases x with
    | real a sp pg d =>
      rcases suffix_cons_iff.mp hst with rfl | hst
      · exact .inr (mem_append_right _ mem_cons_self)
      · exact (ih (hst.trans (dropWhile_suffix _))).imp id (mem_append_left _)
    | sub a m => exact (ih hst).imp id (mem_append_left _)

theorem head_path_stack {s phys : ℕ} {l : List (Mapping S T)} {st : List (ℕ × Node S)}
    (hst : st <:+ stack (Mapping.view s phys) [] l) (hne : st ≠ []) (up : List (Node S)) :
    ∃ p ∈ (path st ++ up).head?, p.phys = phys ∧ p.shift = s := by
  cases st with
  | nil => exact absurd rfl hne
  | cons e st => exact ⟨e.2, rfl, stack_label (hst.subset mem_cons_self)⟩

variable {ss : List ℕ} {par : S × ℕ} {t : Treemap S ss}

theorem chainsList_derived {s : ℕ} {nested : ℕ → List (Node S) → T → List (List (Node S))}
    {wfn : S × ℕ → T → Prop} {phys : ℕ}
    (hnest : ∀ par m u, wfn par m → ∀ c ∈ nested phys u m, ∃ n tail, c =
      n :: tail ∧ Derived (nested phys u m) u ss phys (2 ^ s) n tail)
    {l : List (Mapping S T)} (h : wfList s wfn 0 par true l) (up : List (Node S)) :
    ∀ c ∈ chainsList s nested phys up [] l, ∃ n tail, c = n :: tail ∧
      Derived (chainsList s nested phys up [] l) up (s :: ss) phys (2 ^ s) n tail := by
  intro c hc
  obtain ⟨l₁, x, l₂, rfl, hx⟩ := mem_chainsList.mp hc
  have hsub : ∀ c ∈ chainsList s nested phys up [] l₁,
      c ∈ chainsList s nested phys up [] (l₁ ++ x :: l₂) := by
    intro c hc
    rw [chainsList_append]
    exact mem_append_left _ hc
  cases x with
  | real a sp pg d =>
    rw [stack_append] at hx
    have hc' := mem_singleton.mp hx
    set st := (stack (Mapping.view s phys) [] l₁).dropWhile (fun e => d ≤ e.1) with hst
    have hsuf : st <:+ stack (Mapping.view s phys) [] l₁ := dropWhile_suffix _
    refine ⟨label s phys a sp pg, path st ++ up, hc', mem_cons_self, le_rfl, le_rfl, by simp, ?_⟩
    rcases path_suffix_mem s nested phys up l₁ hsuf with hnil | hmem
    · exact .inl (by rw [hnil]; rfl)
    · by_cases hne : st = []
      · exact .inl (by rw [hne]; rfl)
      · obtain ⟨p, hp, hphys, hshift⟩ := head_path_stack hsuf hne up
        exact .inr ⟨hsub _ hmem, p, hp, by simp [hphys], by simp [hphys, hshift]⟩
  | sub a m =>
    rw [stack_append] at hx
    set st := stack (Mapping.view s phys) ([] : List (ℕ × Node S)) l₁ with hst
    obtain ⟨par', hm⟩ := wfList_mem_sub h (mem_append_right l₁ mem_cons_self)
    obtain ⟨n, tail, rfl, hd⟩ := hnest par' m (path st ++ up) hm c hx
    refine ⟨n, tail, rfl, mem_cons_of_mem _ hd.shift, hd.le, hd.ge, hd.dvd, ?_⟩
    have hin : ∀ c ∈ nested phys (path st ++ up) m,
        c ∈ chainsList s nested phys up [] (l₁ ++ .sub a m :: l₂) := by
      intro c hc
      rw [chainsList_append, chainsList_sub]
      exact mem_append_right _ (mem_append_left _ hc)
    rcases hd.parent with rfl | ⟨hmem, hp⟩
    · rcases path_suffix_mem s nested phys up l₁ (suffix_refl _) with hnil | hmem
      · exact .inl (by rw [hst, hnil]; rfl)
      · by_cases hne : st = []
        · exact .inl (by rw [hne]; rfl)
        · obtain ⟨p, hp, hphys, hshift⟩ := head_path_stack (suffix_refl _) hne up
          exact .inr ⟨hsub _ hmem, p, hp, by rw [hphys]; exact hd.le,
            by rw [hphys, hshift]; exact hd.ge⟩
    · exact .inr ⟨hin _ hmem, hp⟩

theorem chains_derived {ps : ℕ} (hs : Levels ps ss) (h : wf ss ps par t)
    (base : ℕ) (up : List (Node S)) : ∀ c ∈ chains ss base up t, ∃ n tail, c = n :: tail ∧
      Derived (chains ss base up t) up ss base (2 ^ ps) n tail := by
  induction ss generalizing ps par base up with
  | nil => exact nomatch t
  | cons s ss ih =>
    intro c hc
    obtain ⟨k, hk, hck⟩ := mem_flatMap.mp hc
    have hk' : k < TreemapOf.keyEnd t := mem_range.mp hk
    obtain ⟨n, tail, rfl, hd⟩ := chainsList_derived
      (fun par m u hm => ih hs.tail hm (base + k * 2 ^ s) u) (wfOf.tree h k hk') up c hck
    have hin : ∀ c ∈ chainsList s (chains ss) (base + k * 2 ^ s) up [] (TreemapOf.tree t k),
        c ∈ chains (s :: ss) base up t := fun c hc => mem_flatMap.mpr ⟨k, hk, hc⟩
    have hle := hd.le
    have hge := hd.ge
    have hsle : n.shift ≤ s := by
      rcases mem_cons.mp hd.shift with h | h
      · exact h.le
      · exact hs.tail.le _ h
    refine ⟨n, tail, rfl, hd.shift, by omega, ?_, ?_, hd.parent.imp id fun h => ⟨hin _ h.1, h.2⟩⟩
    · have hlt := hk'
      rw [wfOf.keyEnd h] at hlt
      have := Dyadic.page_le hs.head hlt
      omega
    · have hk2 : 2 ^ n.shift ∣ k * 2 ^ s := (pow_dvd_pow 2 hsle).mul_left k
      rw [show n.phys - base = k * 2 ^ s + (n.phys - (base + k * 2 ^ s)) by omega]
      exact (Nat.dvd_add_right hk2).mpr hd.dvd

theorem chains_forest {ps : ℕ} (hs : Levels ps ss) (h : wf ss ps par t)
    (hnd : (mappingAddrs (chains ss 0 [] t)).Nodup) : Forest (chains ss 0 [] t) where
  parent c hc := by
    obtain ⟨n, tail, rfl, hd⟩ := chains_derived hs h 0 [] c hc
    exact ⟨n, tail, rfl, hd.parent⟩
  nodup := hnd

end Chains

namespace Forest

variable {cs : List (List (Node S))} {c : List (Node S)} {n : Node S} {ch : Node S}

theorem stepFrom_spec {a : ℕ} (hs : stepFrom a c = some (ch, n)) :
    ∃ p q, c = p ++ ch :: n :: q ∧ n.addr = a := by
  induction c with
  | nil => simp [stepFrom] at hs
  | cons x c ih =>
    cases c with
    | nil => simp [stepFrom] at hs
    | cons y c =>
      rw [stepFrom] at hs
      split_ifs at hs with hy
      · simp only [Option.some.injEq, Prod.mk.injEq] at hs
        obtain ⟨rfl, rfl⟩ := hs
        exact ⟨[], c, rfl, hy⟩
      · obtain ⟨p, q, hpq, hn⟩ := ih hs
        exact ⟨x :: p, q, by rw [hpq]; rfl, hn⟩

variable (h : Forest cs)
include h

theorem eq_of_addr {c' : List (Node S)} (hc : c ∈ cs) (hc' : c' ∈ cs) {n' : Node S}
    (hn : c.head? = some n) (hn' : c'.head? = some n') (ha : n.addr = n'.addr) : c = c' := by
  obtain ⟨A, B, rfl⟩ := append_of_mem hc
  have hnd := h.nodup
  have hcons : mappingAddrs (c :: B) = n.addr :: mappingAddrs B := by
    simp [mappingAddrs, heads, hn]
  have hmem : ∀ X : List (List (Node S)), c' ∈ X → n.addr ∈ mappingAddrs X := fun X hX =>
    ha ▸ mem_mappingAddrs (mem_heads.mpr ⟨c', hX, hn'⟩)
  rw [mappingAddrs_append, hcons] at hnd
  rcases mem_append.mp hc' with hA | hB
  · exact absurd rfl ((nodup_append.mp hnd).2.2 _ (hmem A hA) _ mem_cons_self)
  · rcases mem_cons.mp hB with rfl | hB
    · rfl
    · exact absurd (hmem B hB) (nodup_cons.mp (nodup_append.mp hnd).2.1).1

theorem mem_of_suffix {d : List (Node S)} (hc : c ∈ cs) (hd : d <:+ c) (hne : d ≠ []) : d ∈ cs := by
  induction c with
  | nil => exact absurd (suffix_nil.mp hd) hne
  | cons n c ih =>
    rcases suffix_cons_iff.mp hd with rfl | hd
    · exact hc
    · obtain ⟨n', tail, heq, hp⟩ := h.parent _ hc
      obtain ⟨rfl, rfl⟩ := cons.inj heq
      rcases hp with rfl | ⟨hmem, -⟩
      · exact absurd (suffix_nil.mp hd) hne
      · exact ih hmem hd

theorem inside {q : List (Node S)} (hc : ch :: n :: q ∈ cs) : Inside ch n := by
  obtain ⟨n', tail, heq, hp⟩ := h.parent _ hc
  obtain ⟨rfl, rfl⟩ := cons.inj heq
  obtain ⟨-, p, hp, hin⟩ := hp.resolve_left (cons_ne_nil _ _)
  cases Option.some.inj hp
  exact hin

theorem addr_ne {tail : List (Node S)} (hc : n :: tail ∈ cs) {x : Node S}
    (hx : x ∈ tail) : x.addr ≠ n.addr := by
  intro ha
  obtain ⟨p, q, rfl⟩ := append_of_mem hx
  have hsuf : x :: q <:+ n :: (p ++ x :: q) := (suffix_append p _).trans (suffix_cons _ _)
  have hmem := h.mem_of_suffix hc hsuf (cons_ne_nil _ _)
  have hlen := congrArg length (h.eq_of_addr hmem hc rfl rfl ha)
  simp at hlen
  omega

theorem step_inside {a : ℕ} (hc : c ∈ cs) (hs : stepFrom a c = some (ch, n)) :
    Inside ch n ∧ n ∈ heads cs ∧ n.addr = a := by
  obtain ⟨p, q, rfl, ha⟩ := stepFrom_spec hs
  have hch := h.mem_of_suffix hc (suffix_append p _) (cons_ne_nil _ _)
  have hn := h.mem_of_suffix hch (suffix_cons ch _) (cons_ne_nil _ _)
  exact ⟨h.inside hch, mem_heads.mpr ⟨_, hn, rfl⟩, ha⟩

theorem step_of_head (hc : c ∈ cs) (hn : c.head? = some n) : stepFrom n.addr c = none := by
  cases c with
  | nil => rfl
  | cons x c =>
    cases Option.some.inj hn
    exact stepFrom_eq_none fun y hy => h.addr_ne hc hy

theorem mem_heads_filter {P : List (Node S) → Bool} (hc : c ∈ cs)
    (hn : c.head? = some n) : n ∈ heads (cs.filter P) ↔ P c = true := by
  constructor
  · intro hm
    obtain ⟨c', hc', hn'⟩ := mem_heads.mp hm
    obtain ⟨hmem, hP⟩ := mem_filter.mp hc'
    rwa [h.eq_of_addr hc hmem hn hn' rfl]
  · exact fun hP => mem_heads.mpr ⟨c, mem_filter.mpr ⟨hc, hP⟩, hn⟩

end Forest

theorem meets_of_inside {ch n : Node S} (h : Inside ch n) (hvs : vs ≤ n.va)
    (hve : n.va + 2 ^ n.shift ≤ ve) : meets vs ve ch n = true := by
  have := h.le
  have := h.ge
  have := Nat.two_pow_pos ch.shift
  have hb : offsBegin n.va vs = 0 := if_neg (by omega)
  have he : offsEnd (2 ^ n.shift) n.va ve = 2 ^ n.shift := by
    rw [offsEnd_of_le (by omega)]
    split_ifs <;> omega
  simp only [meets, hb, he, Bool.and_eq_true, decide_eq_true_eq]
  omega

theorem revoked_split (h : Forest cs) {a : ℕ} {me : Bool}
    (hr : ∀ n ∈ heads cs, n.addr = a → me = true → vs ≤ n.va ∧ n.va + 2 ^ n.shift ≤ ve)
    {c : List (Node S)} (hc : c ∈ cs) {n : Node S} (hn : c.head? = some n) :
    revoked a false vs ve c = (revoked a me vs ve c && decide (n.addr ≠ a)) := by
  by_cases ha : n.addr = a
  · have hstep : stepFrom a c = none := ha ▸ h.step_of_head hc hn
    simp [revoked, hstep, ha]
  · have hhead : (c.head?.map Node.addr == some a) = false := by simpa [hn] using ha
    cases hs : stepFrom a c with
    | none => simp [revoked, hs, hhead]
    | some p =>
      obtain ⟨ch, p⟩ := p
      obtain ⟨hin, hp, hpa⟩ := h.step_inside hc hs
      cases me with
      | false => simp [revoked, hs, ha]
      | true =>
        obtain ⟨h₁, h₂⟩ := hr p hp hpa rfl
        simp [revoked, hs, ha, meets_of_inside hin h₁ h₂]

theorem visits_eq_removed (h : Forest cs) {V P : List (Node S) → Bool}
    {m : Option ℕ} (hVP : ∀ c ∈ cs, ∀ n, c.head? = some n →
      V c = (P c && decide (m ≠ some n.addr))) :
    ((visits (cs.filter V)).map Visit.addr).Nodup ∧
    ∀ v, v ∈ visits (cs.filter V) ↔ ∃ n ∈ heads cs, n.visit = v ∧
      n ∉ heads (cs.filter fun c => !P c) ∧ m ≠ some n.addr := by
  constructor
  · have haddr : (visits (cs.filter V)).map Visit.addr = mappingAddrs (cs.filter V) := by
      rw [visits, mappingAddrs, map_map]
      rfl
    rw [haddr]
    refine h.nodup.sublist ?_
    exact (Sublist.filterMap _ filter_sublist).map _
  · intro v
    rw [visits, mem_map]
    constructor
    · rintro ⟨n, hn, rfl⟩
      obtain ⟨c, hc, hhead⟩ := mem_heads.mp hn
      obtain ⟨hmem, hV⟩ := mem_filter.mp hc
      rw [hVP c hmem n hhead, Bool.and_eq_true, decide_eq_true_eq] at hV
      refine ⟨n, mem_heads.mpr ⟨c, hmem, hhead⟩, rfl, ?_, hV.2⟩
      rw [h.mem_heads_filter hmem hhead, hV.1]
      simp
    · rintro ⟨n, hn, rfl, hrem, hne⟩
      obtain ⟨c, hmem, hhead⟩ := mem_heads.mp hn
      rw [h.mem_heads_filter hmem hhead] at hrem
      refine ⟨n, (h.mem_heads_filter hmem hhead).mpr ?_, rfl⟩
      rw [hVP c hmem n hhead, Bool.and_eq_true, decide_eq_true_eq]
      exact ⟨by simpa using hrem, hne⟩

theorem visits_of_perm {ds cs' : List (List (Node S))} (hnd : (mappingAddrs cs).Nodup)
    (hp : cs.Perm (ds ++ cs')) : ((visits ds).map Visit.addr).Nodup ∧
    ∀ v, v ∈ visits ds ↔ ∃ n ∈ heads cs, n.visit = v ∧ n ∉ heads cs' := by
  have hheads : (heads cs).Perm (heads ds ++ heads cs') := by
    rw [← heads_append]
    exact hp.filterMap _
  have hnd' := (hheads.map Node.addr).nodup_iff.mp hnd
  obtain ⟨hds, -, hapart⟩ := nodup_append'.mp (Nodup.of_map _ hnd')
  constructor
  · rw [visits, map_map]
    rw [map_append] at hnd'
    exact (nodup_append'.mp hnd').1
  · intro v
    rw [visits, mem_map]
    constructor
    · rintro ⟨n, hn, rfl⟩
      exact ⟨n, hheads.mem_iff.mpr (mem_append_left _ hn), rfl, fun hn' => hapart hn hn'⟩
    · rintro ⟨n, hn, rfl, hn'⟩
      exact ⟨n, (mem_append.mp (hheads.mem_iff.mp hn)).resolve_right hn', rfl⟩

end Fiasco.Mapdb
