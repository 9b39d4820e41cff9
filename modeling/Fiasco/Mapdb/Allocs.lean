import Fiasco.Mapdb.Chains

/-!
# What a treemap is made of

`allocs` lists the allocations a treemap consists of, with the space that has to pay
for each: a mapping is paid by the space it maps into, a submap node by the space of
its parent mapping, a treemap by its owner.
-/
namespace Fiasco.Mapdb

open List TreemapOf

variable {S T : Type}

def allocsList (nested : T → List (Charge S)) : S → List (Mapping S T) → List (Charge S)
  | _, [] => []
  | _, .real a sp _ _ :: l => ⟨[a], sizeofMapping, sp⟩ :: allocsList nested sp l
  | q, .sub a m :: l => ⟨[a], sizeofMapping, q⟩ :: nested m ++ allocsList nested q l

def allocs : (ss : List ℕ) → Treemap S ss → List (Charge S)
  | [], t => nomatch t
  | _ :: ss, t =>
    ⟨[ptr t, physframe t], quotaSize (keyEnd t),
        owner t⟩ ::
      (range (keyEnd t)).flatMap fun k =>
        allocsList (allocs ss) (owner t) (tree t k)

section List

variable {nested : T → List (Charge S)}

def payer : S → List (Mapping S T) → S
  | q, [] => q
  | _, .real _ sp _ _ :: l => payer sp l
  | q, .sub _ _ :: l => payer q l

theorem allocsList_append (q : S) (l r : List (Mapping S T)) :
    allocsList nested q (l ++ r) = allocsList nested q l ++ allocsList nested (payer q l) r := by
  induction l generalizing q with
  | nil => rfl
  | cons x l ih =>
    cases x with
    | real a sp pg d | sub a m => simp [allocsList, payer, ih]

end List

theorem allocs_set (s : ℕ) (ss : List ℕ) (t : TreemapOf S (Treemap S ss)) {k : ℕ}
    (hk : k < t.keyEnd) :
    ∃ A B, ∀ l, allocs (s :: ss) (t.set k l) = A ++ allocsList (allocs ss) t.owner l ++ B := by
  refine ⟨⟨[t.ptr, t.physframe], quotaSize t.keyEnd, t.owner⟩ ::
      (range k).flatMap fun i => allocsList (allocs ss) t.owner (t.tree i),
    (range' (k + 1) (t.keyEnd - (k + 1))).flatMap fun i =>
      allocsList (allocs ss) t.owner (t.tree i), fun l => ?_⟩
  have hdef : allocs (s :: ss) (t.set k l) = ⟨[t.ptr, t.physframe], quotaSize t.keyEnd, t.owner⟩ ::
      (range t.keyEnd).flatMap fun i => allocsList (allocs ss) t.owner ((t.set k l).tree i) := rfl
  rw [hdef, flatMap_range_split hk, set_tree_same, cons_append, cons_append]
  congr 1
  congr 1
  · congr 1
    refine flatMap_congr_left fun i hi => ?_
    rw [set_tree_of_ne _ _ (mem_range.mp hi).ne]
  · refine flatMap_congr_left fun i hi => ?_
    have := (mem_range'_1.mp hi).1
    rw [set_tree_of_ne _ _ (by omega)]

theorem At.allocs {ss : List ℕ} {t : Treemap S ss} {hops : List (ℕ × ℕ)} {s' : ℕ}
    {ss' : List ℕ} {t' : TreemapOf S (Treemap S ss')}
    {plug : TreemapOf S (Treemap S ss') → Treemap S ss} (h : At ss t hops s' ss' t' plug)
    {k : ℕ} (hk : k < t'.keyEnd) :
    ∃ A B, ∀ l, allocs ss (plug (t'.set k l)) =
      A ++ allocsList (Mapdb.allocs ss') t'.owner l ++ B := by
  induction h with
  | here s ss t => exact allocs_set s ss t hk
  | down s ss t k₁ a l₁ l₂ m hops s' ss' t' plug hk₁ hl hne hat ih =>
    obtain ⟨A₁, B₁, hset⟩ := allocs_set s ss t hk₁
    obtain ⟨A₂, B₂, hin⟩ := ih hk
    refine ⟨A₁ ++ allocsList (Mapdb.allocs ss) t.owner l₁ ++
        ⟨[a], sizeofMapping, payer t.owner l₁⟩ :: A₂,
      B₂ ++ allocsList (Mapdb.allocs ss) (payer t.owner l₁) l₂ ++ B₁, fun l => ?_⟩
    rw [show Mapdb.allocs (s :: ss) (t.set k₁ (l₁ ++ .sub a (plug (t'.set k l)) :: l₂)) = _ from
      hset _, allocsList_append, allocsList, hin]
    simp

theorem mappingAddrs_sublist (ss : List ℕ) (base : ℕ) (up : List (Node S)) (t : Treemap S ss) :
    ((heads (chains ss base up t)).map Node.addr).Sublist (blocks (allocs ss t)) := by
  induction ss generalizing base up with
  | nil => exact nomatch t
  | cons s ss ih =>
    have hlist : ∀ (phys : ℕ) (st : List (ℕ × Node S)) (q : S) (l : List (Mapping S (Treemap S ss))),
        ((heads (chainsList s (chains ss) phys up st l)).map Node.addr).Sublist
          (blocks (allocsList (allocs ss) q l)) := by
      intro phys st q l
      induction l generalizing st q with
      | nil => exact Sublist.refl _
      | cons x l ihl =>
        cases x with
        | real a sp pg d => exact (ihl _ sp).cons_cons a
        | sub a m =>
          rw [chainsList_sub, heads_append, map_append]
          simp only [allocsList, cons_append, blocks_cons, blocks_append, nil_append]
          exact ((ih phys _ m).append (ihl st q)).cons a
    have hkeys : ∀ (ks : List ℕ), ((heads (ks.flatMap fun k =>
          chainsList s (chains ss) (base + k * 2 ^ s) up [] (tree t k))).map Node.addr).Sublist
        (blocks (ks.flatMap fun k =>
          allocsList (allocs ss) (owner t) (tree t k))) := by
      intro ks
      induction ks with
      | nil => exact Sublist.refl _
      | cons k ks ihk =>
        simp only [flatMap_cons, heads_append, map_append, blocks_append]
        exact (hlist _ [] _ _).append ihk
    rw [allocs, blocks_cons]
    exact (hkeys (range (keyEnd t))).trans (sublist_append_right _ _)

end Fiasco.Mapdb
