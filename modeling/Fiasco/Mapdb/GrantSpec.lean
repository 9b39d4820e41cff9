import Fiasco.Mapdb.FlushSpec
import Fiasco.Mapdb.Allocs

/-!
# Granting a mapping

A grant renames one mapping: the chains stay as they are but for the space and the page
of the granted mapping. The submaps right below it learn their new owner and offset.
-/
namespace Fiasco.Mapdb

open Dyadic TreemapOf

variable {S T : Type}

section Submap

variable {s : ℕ} {wfn : S × ℕ → T → Prop} {l : List (Mapping S T)}

theorem wfList_of_noSub {cap cap' : ℕ} {par : S × ℕ} {fr : Bool} (h : wfList s wfn cap par fr l)
    (hn : noSub l) (hcap : cap ≤ cap')
    (par' : S × ℕ) (fr' : Bool) : wfList s wfn cap' par' fr' l := by
  cases l with
  | nil => trivial
  | cons x l =>
    cases x with
    | real a sp pg d => exact ⟨h.1.trans hcap, h.2⟩
    | sub a m => exact absurd hn id

theorem wfList_mapSubmap {f : T → T} {cap : ℕ} {par par' : S × ℕ} (hf : ∀ m, wfn par m → wfn par' (f m))
    (h : wfList s wfn cap par true l) : wfList s wfn cap par' true (mapSubmap f l) := by
  cases l with
  | nil => trivial
  | cons x l =>
    cases x with
    | real a sp pg d => exact h
    | sub a m =>
      exact ⟨rfl, hf m h.2.1, wfList_of_noSub h.2.2 (wfList_noSub h.2.2) le_rfl par' false⟩

end Submap

variable {ss : List ℕ} {t : Treemap S ss}

theorem wf_grantSubmap {ps : ℕ} (hs : Levels ps ss) {par : S × ℕ} (h : wf ss ps par t)
    (newSpace : S) (vp : ℕ) :
    wf ss ps (newSpace, vp * 2 ^ ps) (grantSubmap ss ps newSpace vp t) := by
  induction ss generalizing ps par vp with
  | nil => exact nomatch t
  | cons s ss ih =>
    have hkey : keyEnd t = 2 ^ (ps - s) := wfOf.keyEnd h
    refine ⟨rfl, rfl, hkey, fun k hk => ?_, fun k hk => ?_⟩
    · have hk' : k < keyEnd t := hk
      have hva : (vp * 2 ^ (ps - s) + k) * 2 ^ s = vp * 2 ^ ps + k * 2 ^ s := by
        rw [Nat.add_mul, Nat.mul_assoc, two_pow_split hs.head]
      simp only [grantSubmap, if_pos hk', frameVaddr]
      rw [← hva]
      exact wfList_mapSubmap (fun m hm => ih hs.tail hm _) (wfOf.tree h k hk')
    · have hk' : ¬ k < keyEnd t := not_lt.mpr hk
      simp only [grantSubmap, if_neg hk']
      exact wfOf.outside h k hk

section Blocks

variable {nested : T → List (Charge S)}

theorem blocks_allocsList_payer (q q' : S) (l : List (Mapping S T)) :
    blocks (allocsList nested q l) = blocks (allocsList nested q' l) := by
  induction l generalizing q q' with
  | nil => rfl
  | cons x l ih =>
    cases x with
    | real a sp pg d => rfl
    | sub a m => simp [allocsList, ih q q']

theorem blocks_allocsList_mapSubmap {f : T → T} (hf : ∀ m, blocks (nested (f m)) = blocks (nested m))
    (q : S) (l : List (Mapping S T)) :
    blocks (allocsList nested q (mapSubmap f l)) = blocks (allocsList nested q l) := by
  cases l with
  | nil => rfl
  | cons x l =>
    cases x with
    | real a sp pg d => rfl
    | sub a m => simp [mapSubmap, allocsList, hf]

theorem blocks_flatMap_congr {f g : ℕ → List (Charge S)} {ks : List ℕ}
    (h : ∀ k ∈ ks, blocks (f k) = blocks (g k)) : blocks (ks.flatMap f) = blocks (ks.flatMap g) := by
  induction ks with
  | nil => rfl
  | cons k ks ih =>
    simp only [List.flatMap_cons, blocks_append]
    rw [h k List.mem_cons_self, ih fun i hi => h i (List.mem_cons_of_mem _ hi)]

end Blocks

theorem blocks_grantSubmap (ss : List ℕ) (ps : ℕ) (newSpace : S) (vp : ℕ) (t : Treemap S ss) :
    blocks (allocs ss (grantSubmap ss ps newSpace vp t)) = blocks (allocs ss t) := by
  induction ss generalizing ps vp with
  | nil => exact nomatch t
  | cons s ss ih =>
    simp only [allocs, blocks_cons]
    congr 1
    refine blocks_flatMap_congr fun k hk => ?_
    have hk' : k < keyEnd t := List.mem_range.mp hk
    simp only [grantSubmap, if_pos hk']
    rw [blocks_allocsList_mapSubmap (fun m => ih s _ m)]
    exact blocks_allocsList_payer _ _ _

variable {Q : Type} [DecidableEq S] [DecidableEq Q] [Spaces S Q] {newSpace : S} {va : ℕ}
  {km km' : Kmem Q} {ok : Bool} {t' : Treemap S ss} {f : Frame}

theorem grantTree_cases {s : ℕ} {m : Option ℕ} {l l' : List (Mapping S (Treemap S ss))}
    (h : grantTree s ss m newSpace va km l = some (l', ok, km')) :
    ∃ a pre sp pg d post, m = some a ∧ seek a l = some (pre, (sp, pg, d), post) ∧
      ((ok = false ∧ l' = l ∧ km' = km) ∨
        (ok = true ∧ l' = pre ++ .real a newSpace (truncToPage s va) d ::
          mapSubmap (grantSubmap ss s newSpace (truncToPage s va)) post ∧
          (sp = newSpace ∧ km' = km ∨ ∃ km₁, km.quotaAlloc (Spaces.ramQuota newSpace)
              (sizeofMapping + ((findSubmap post).map (memSize ss)).getD 0) = some km₁ ∧
            km' = km₁.quotaFree (Spaces.ramQuota sp)
              (sizeofMapping + ((findSubmap post).map (memSize ss)).getD 0)))) := by
  cases m with
  | none => simp [grantTree] at h
  | some a =>
    simp only [grantTree, Option.map_eq_some_iff] at h
    obtain ⟨⟨pre, ⟨sp, pg, d⟩, post⟩, hseek, he⟩ := h
    refine ⟨a, pre, sp, pg, d, post, rfl, hseek, ?_⟩
    simp only at he
    split at he
    · simp only [Prod.mk.injEq] at he
      exact .inr ⟨he.2.1.symm, he.1.symm, .inl ⟨‹_›, he.2.2.symm⟩⟩
    · split at he
      · simp only [Prod.mk.injEq] at he
        exact .inl ⟨he.2.1.symm, he.1.symm, he.2.2.symm⟩
      · simp only [Prod.mk.injEq] at he
        exact .inr ⟨he.2.1.symm, he.1.symm, .inr ⟨_, ‹_›, he.2.2.symm⟩⟩

theorem grant_wf {ps : ℕ} {par : S × ℕ} (hs : Levels ps ss)
    (hwf : wf ss ps par t) (h : grant ss t km f newSpace va = some (t', ok, km')) :
    wf ss ps par t' := by
  obtain ⟨s', ss', t₀, plug, l, hat, hk, hop, rfl⟩ := onFrame_eq_some.mp h
  obtain ⟨a, pre, sp, pg, d, post, -, hseek, ⟨-, rfl, -⟩ | ⟨-, rfl, -⟩⟩ := grantTree_cases hop
  · rwa [set_self t₀ rfl, hat.plug_self]
  obtain ⟨ps', par', hs', hwf', hplug⟩ := hat.wf hs hwf
  refine hplug _ (wfOf_set hwf' hk ?_)
  have hlist := hwf'.tree _ hk
  rw [seek_eq_some hseek] at hlist
  obtain ⟨-, hpost, hkeep, -⟩ := wfList_real_focus hlist
  exact hkeep _ _ _ (wfList_mapSubmap (fun m hm => wf_grantSubmap hs'.tail hm _ _) hpost)

theorem grant_blocks
    (h : grant ss t km f newSpace va = some (t', ok, km')) :
    blocks (allocs ss t') = blocks (allocs ss t) := by
  obtain ⟨s', ss', t₀, plug, l, hat, hk, hop, rfl⟩ := onFrame_eq_some.mp h
  obtain ⟨a, pre, sp, pg, d, post, -, hseek, ⟨-, rfl, -⟩ | ⟨-, rfl, -⟩⟩ := grantTree_cases hop
  · rw [set_self t₀ rfl, hat.plug_self]
  obtain ⟨A, B, hall⟩ := hat.allocs hk
  have hself : plug (t₀.set f.key (pre ++ .real a sp pg d :: post)) = t := by
    rw [← seek_eq_some hseek, set_self t₀ rfl, hat.plug_self]
  have hold := hall (pre ++ .real a sp pg d :: post)
  rw [hself] at hold
  rw [hall, hold, allocsList_append, allocsList_append]
  simp only [allocsList, blocks_append, blocks_cons]
  rw [blocks_allocsList_mapSubmap (fun m => blocks_grantSubmap ss' s' _ _ m),
    blocks_allocsList_payer newSpace sp]

end Fiasco.Mapdb
