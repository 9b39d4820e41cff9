import Fiasco.Mapdb.FlushRoot
import Fiasco.Mapdb.Forest
import Fiasco.Mapdb.InsertSpec
import Fiasco.Mapdb.Lookup

/-!
# Runs of the mapping database

A run starts with the constructor of `Mapdb` and goes on with any sequence of
insertions, grants and flushes, successful or not. Every tree stays a valid preorder
encoding in every state of a run.
-/

namespace Fiasco.Mapdb

open Spaces Option List

variable {S Q : Type} [Spaces S Q] {ss : List ℕ}

structure Db (S Q : Type) (ss : List ℕ) where
  t : Treemap S ss
  km : Kmem Q

inductive Op (S : Type) where
  | insert (f : Frame) (x : Target S)
  | grant (f : Frame) (newSpace : S) (va : ℕ)
  | flush (f : Frame) (selfUnmap : Bool) (vaStart vaEnd : ℕ)

/-- The constructor of `Mapdb` for frames of `2 ^ ps` base pages; it asserts that the
treemap could be created. -/
def start [DecidableEq Q] (ps s : ℕ) (ss : List ℕ) (km : Kmem Q) : Option (Db S Q (s :: ss)) :=
  match create (T := Treemap S ss) ps (sigma0 (S := S)) 0 s km with
  | (some t, km₁) => some ⟨t, km₁⟩
  | (none, _) => none

structure Db.Inv (ps : ℕ) (db : Db S Q ss) : Prop where
  wf : wf ss ps (sigma0, 0) db.t
  nodup : (blocks (allocs ss db.t)).Nodup
  fresh : ∀ b ∈ blocks (allocs ss db.t), b < db.km.next

theorem Db.Inv.addrs {ps : ℕ} {db : Db S Q ss} (h : db.Inv ps) :
    (mappingAddrs (chains ss 0 [] db.t)).Nodup :=
  h.nodup.sublist (mappingAddrs_sublist ss 0 [] db.t)

variable [DecidableEq Q]

theorem start_cases {ps s : ℕ} {km : Kmem Q} {db : Db S Q (s :: ss)}
    (h : start ps s ss km = some db) :
    ∃ p pf, db.t = ⟨p, pf, 2 ^ (ps - s), sigma0, 0, fun _ => []⟩ ∧
      Kmem.Grows ramQuota km db.km
        [⟨[p, pf], quotaSize (2 ^ (ps - s)), (sigma0 : S)⟩] := by
  have hcr := create_created (T := Treemap S ss) ps (sigma0 : S) 0 s km
  rw [start] at h
  revert h hcr
  cases create (T := Treemap S ss) ps (sigma0 : S) 0 s km with
  | mk o km₁ =>
    intro h hcr
    cases hcr with
    | failed hg => simp at h
    | created hg =>
      cases h
      exact ⟨_, _, rfl, hg⟩

theorem Db.Inv.start {ps s : ℕ} {km : Kmem Q} {db : Db S Q (s :: ss)}
    (h : start ps s ss km = some db) : db.Inv ps := by
  obtain ⟨p, pf, ht, hg⟩ := start_cases h
  have hal : allocs (s :: ss) db.t = [⟨[p, pf], quotaSize (2 ^ (ps - s)), sigma0⟩] := by
    rw [ht]
    simp [allocs, allocsList]
  refine ⟨?_, ?_, ?_⟩
  · rw [ht]
    exact ⟨rfl, rfl, rfl, fun _ _ => trivial, fun _ _ => rfl⟩
  · rw [hal]
    exact hg.nodup
  · rw [hal]
    exact fun b hb => (hg.fresh b hb).2

variable [DecidableEq S]

def Db.step (db : Db S Q ss) : Op S → Option (Db S Q ss)
  | .insert f x => (insert ss db.t db.km f x).map fun r => ⟨r.1, r.2.2⟩
  | .grant f sp va => (grant ss db.t db.km f sp va).map fun r => ⟨r.1, r.2.2⟩
  | .flush f me vs ve =>
    (flush ss db.t f me vs ve).map fun r => ⟨r.1, db.km.releaseAll ramQuota r.2⟩

def Db.run (db : Db S Q ss) : List (Op S) → Option (Db S Q ss)
  | [] => some db
  | op :: ops => (db.step op).bind fun db' => db'.run ops

theorem grant_next {t t' : Treemap S ss} {km km' : Kmem Q} {f : Frame} {sp : S} {va : ℕ} {ok : Bool}
    (h : grant ss t km f sp va = some (t', ok, km')) : km'.next = km.next := by
  obtain ⟨s', ss', t₀, plug, l, hat, hk, hop, rfl⟩ := onFrame_eq_some.mp h
  obtain ⟨a, pre, old, pg, d, post, -, -, ⟨-, -, rfl⟩ | ⟨-, -, ⟨-, rfl⟩ | ⟨km₁, hq, rfl⟩⟩⟩ :=
    grantTree_cases hop
  · rfl
  · rfl
  · exact (Kmem.quotaAlloc_next hq : km₁.next = km.next)

theorem Db.Inv.step {ps : ℕ} (hs : Levels ps ss) {db db' : Db S Q ss} (h : db.Inv ps) {op : Op S}
    (hstep : db.step op = some db') : db'.Inv ps := by
  cases op with
  | insert f x =>
    obtain ⟨⟨t', r, km'⟩, hins, rfl⟩ := map_eq_some_iff.mp hstep
    obtain ⟨news, hg, hperm⟩ := insert_allocs hs h.wf hins
    have hblocks := blocks_perm hperm
    rw [blocks_append] at hblocks
    refine ⟨insert_wf hs h.wf hins, ?_, ?_⟩
    · rw [hblocks.nodup_iff, nodup_append]
      refine ⟨hg.nodup, h.nodup, fun b hb b' hb' heq => ?_⟩
      have h₁ := hg.fresh b hb
      have h₂ := h.fresh b' hb'
      omega
    · intro b hb
      have := hg.next
      rcases mem_append.mp (hblocks.mem_iff.mp hb) with hb | hb
      · exact (hg.fresh b hb).2
      · exact (h.fresh b hb).trans_le this
  | grant f sp va =>
    obtain ⟨⟨t', ok, km'⟩, hgr, rfl⟩ := map_eq_some_iff.mp hstep
    have hb := grant_blocks hgr
    have hn := grant_next hgr
    refine ⟨grant_wf hs h.wf hgr, ?_, ?_⟩
    · simpa only [hb] using h.nodup
    · simpa only [hb, hn] using h.fresh
  | flush f me vs ve =>
    obtain ⟨⟨t', cs⟩, hfl, rfl⟩ := map_eq_some_iff.mp hstep
    have hperm := blocks_perm (flush_allocs hs h.wf hfl)
    rw [blocks_append, blocks_append] at hperm
    refine ⟨flush_wf hs h.wf hfl, ?_, ?_⟩
    · have hnd := hperm.nodup_iff.mp h.nodup
      exact (nodup_append.mp (nodup_append.mp hnd).1).2.1
    · intro b hb
      rw [Kmem.releaseAll_next]
      exact h.fresh b (hperm.mem_iff.mpr (by simp [hb]))

theorem Db.Inv.run {ps : ℕ} (hs : Levels ps ss) {db db' : Db S Q ss} (h : db.Inv ps)
    {ops : List (Op S)} (hrun : db.run ops = some db') : db'.Inv ps := by
  induction ops generalizing db with
  | nil =>
    cases hrun
    exact h
  | cons op ops ih =>
    obtain ⟨db₁, hstep, hrest⟩ := bind_eq_some_iff.mp hrun
    exact ih (h.step hs hstep) hrest

def Reachable (ps s : ℕ) (ss : List ℕ) (db : Db S Q (s :: ss)) : Prop :=
  ∃ (km : Kmem Q) (ops : List (Op S)), (start ps s ss km).bind (fun db₀ => db₀.run ops) = some db

theorem Reachable.inv {ps s : ℕ} {db : Db S Q (s :: ss)} (hs : Levels ps (s :: ss))
    (h : Reachable ps s ss db) : db.Inv ps := by
  obtain ⟨km, ops, hrun⟩ := h
  obtain ⟨db₀, hstart, hops⟩ := bind_eq_some_iff.mp hrun
  exact (Db.Inv.start hstart).run hs hops

section Encoding

variable {ps s : ℕ}

/-- What an insertion below `f` with result `r` does to the forest: nothing if it failed,
otherwise there is exactly one more mapping, a child of the one `f` points to. -/
def InsertsChild (ss : List ℕ) (t t' : Treemap S ss) (f : Frame) (x : Target S) (r : Option ℕ) :
    Prop :=
  match r with
  | none => chains ss 0 [] t' = chains ss 0 [] t
  | some a => ∃ s' phys n tail C D, s' ∈ ss ∧ IsParent ss t f s' phys tail ∧ IsNew x s' phys a n ∧
      chains ss 0 [] t = C ++ D ∧ chains ss 0 [] t' = C ++ (n :: tail) :: D

/-- The ranges the callers flush: the mapping goes as well, or the range is an aligned block
of its page. Frames that are no mapping are roots of page frames. -/
def FlushRange (s : ℕ) (ss : List ℕ) (t : Treemap S (s :: ss)) (f : Frame) (selfUnmap : Bool)
    (vs ve : ℕ) : Prop :=
  match f.m with
  | some a => selfUnmap = true ∨
      ∀ n ∈ heads (chains (s :: ss) 0 [] t), n.addr = a → BlockRange n vs ve
  | none => f.hops = [] ∧ Clips (2 ^ s) (f.key * 2 ^ s) vs ve

def flushes (s : ℕ) (f : Frame) (selfUnmap : Bool) (vs ve : ℕ) (c : List (Node S)) : Bool :=
  match f.m with
  | some a => revoked a selfUnmap vs ve c
  | none => hit [] (rootBegin s f.key vs) (rootEnd s f.key ve) c

omit [DecidableEq Q] [DecidableEq S] in
theorem flush_chains (hs : Levels ps (s :: ss)) {db : Db S Q (s :: ss)} (h : db.Inv ps) {f : Frame}
    {me : Bool} {vs ve : ℕ} (hr : FlushRange s ss db.t f me vs ve) {t' : Treemap S (s :: ss)}
    {cs : List (Charge S)} (hf : flush (s :: ss) db.t f me vs ve = some (t', cs)) :
    chains (s :: ss) 0 [] t' =
      (chains (s :: ss) 0 [] db.t).filter fun c => !flushes s f me vs ve c := by
  obtain ⟨hops, k, m⟩ := f
  cases m with
  | some a => exact flush_mapping hs h.wf h.addrs hr hf
  | none =>
    obtain ⟨rfl, hclip⟩ := hr
    exact flush_root hs h.wf rfl hclip hf

/-- In every run the trees are valid preorder encodings; in the forest they encode an insertion adds
one child of the given parent and a flush removes the subtree. -/
theorem reachable_encoding (hs : Levels ps (s :: ss)) {db : Db S Q (s :: ss)}
    (h : Reachable ps s ss db) :
    wf (s :: ss) ps (sigma0, 0) db.t ∧
    (∀ f x t' r km', insert (s :: ss) db.t db.km f x = some (t', r, km') →
      InsertsChild (s :: ss) db.t t' f x r) ∧
    ∀ f me vs ve t' cs, flush (s :: ss) db.t f me vs ve = some (t', cs) →
      FlushRange s ss db.t f me vs ve → chains (s :: ss) 0 [] t' =
        (chains (s :: ss) 0 [] db.t).filter fun c => !flushes s f me vs ve c := by
  have hinv := h.inv hs
  refine ⟨hinv.wf, fun f x t' r km' hins => ?_, fun f me vs ve t' cs hf hr =>
    flush_chains hs hinv hr hf⟩
  obtain ⟨hfail, hadd⟩ := insert_chains hs hinv.wf hins
  cases r with
  | none => exact hfail rfl
  | some a => exact hadd a rfl

end Encoding

section Visitor

variable {ps s : ℕ}

omit [DecidableEq Q] [DecidableEq S] in
theorem Db.Inv.forest {db : Db S Q ss} (hs : Levels ps ss) (h : db.Inv ps) :
    Forest (chains ss 0 [] db.t) :=
  chains_forest hs h.wf h.addrs

theorem reachable_forest (hs : Levels ps (s :: ss)) {db : Db S Q (s :: ss)}
    (h : Reachable ps s ss db) : Forest (chains (s :: ss) 0 [] db.t) :=
  (h.inv hs).forest hs

/-- The ranges `map` and `unmap` pass for a frame. With self unmap the range covers the page. For
the head of a tree it is an aligned block of addresses of sigma0, or, at the top, the end of a block
that has been flushed before. -/
def PassedRange (s : ℕ) (ss : List ℕ) (t : Treemap S (s :: ss)) (f : Frame) (selfUnmap : Bool)
    (vs ve : ℕ) : Prop :=
  match f.m with
  | some a => ∀ n ∈ heads (chains (s :: ss) 0 [] t), n.addr = a → BlockRange n vs ve ∧
      (selfUnmap = true → vs ≤ n.va ∧ n.va + 2 ^ n.shift ≤ ve)
  | none => (∃ o, Dyadic.IsBlock o vs ve) ∨
      f.hops = [] ∧ vs < f.key * 2 ^ s + 2 ^ s ∧ ∃ vlo ≤ vs, Clips (2 ^ s) (f.key * 2 ^ s) vlo ve ∧
        (vlo = vs ∨ ∀ c ∈ chains (s :: ss) 0 [] t,
          hit [] (rootBegin s f.key vlo) (rootEnd s f.key ve) c = false)

/-- The frame is the head of a tree that begins with a submap, and the page of its owner
lies above the range. -/
def HeadAbove (ss : List ℕ) (t : Treemap S ss) (f : Frame) (ve : ℕ) : Prop :=
  f.m = none ∧ onFrame (fun s _ t k => if ve < t.frameVaddr s k then
    (findSubmap (t.tree k)).map fun _ => (t.tree k, ()) else none) ss t f.hops f.key ≠ none

omit [DecidableEq Q] [DecidableEq S] in
theorem splits_of_passed (hs : Levels ps (s :: ss)) {db : Db S Q (s :: ss)} (h : db.Inv ps)
    {hops : List (ℕ × ℕ)} {k vs ve : ℕ} {me : Bool}
    (hr : PassedRange s ss db.t ⟨hops, k, none⟩ me vs ve)
    (habove : ¬ HeadAbove (s :: ss) db.t ⟨hops, k, none⟩ ve) {s' : ℕ} {ss' : List ℕ}
    {t₀ : TreemapOf S (Treemap S ss')} {plug : TreemapOf S (Treemap S ss') → Treemap S (s :: ss)}
    (hat : At (s :: ss) db.t hops s' ss' t₀ plug) (hk : k < t₀.keyEnd) {phys : ℕ}
    {up : List (Node S)} (hroot : hops = [] → up = [] ∧ phys = k * 2 ^ s') :
    Splits s' ss' (t₀.frameVaddr s' k) vs ve phys up (t₀.tree k) := by
  rcases hr with ⟨o, hb⟩ | ⟨rfl, hlt, vlo, hvlo, hclip, hclean⟩
  · cases hn : findSubmap (t₀.tree k) with
    | none => exact splits_of_noSub (noSub_of_findSubmap hn) ..
    | some m =>
      obtain ⟨ps', par', hs', hwf', -⟩ := hat.wf hs h.wf
      have hle : t₀.frameVaddr s' k ≤ ve := by
        by_contra hlt
        refine habove ⟨rfl, fun hnone => ?_⟩
        rw [onFrame_eq_some.mpr ⟨s', ss', t₀, plug, t₀.tree k, hat, hk,
          by rw [if_pos (not_le.mp hlt), hn]; rfl, rfl⟩] at hnone
        exact some_ne_none _ hnone
      rcases clips_or_apart hb (hat.aligned hs h.wf (dvd_zero _) k) hle with hclip | hapart
      · exact splits_of_clips hs'.tail (hwf'.tree k hk) hclip
      · exact splits_of_apart hs'.tail (hwf'.tree k hk) hle hapart
  · cases hat
    obtain ⟨rfl, rfl⟩ := hroot rfl
    have htree := wfOf.tree h.wf k hk
    have hva : TreemapOf.frameVaddr s db.t k = k * 2 ^ s := by
      rw [TreemapOf.frameVaddr, wfOf.pageOffset h.wf, zero_add]
    rw [hva] at htree ⊢
    rcases hclean with rfl | hclean
    · exact splits_of_clips hs.tail htree hclip
    · refine splits_of_clean hs.tail htree hclip (fun c hc => hclean c ?_) hvlo hlt
      refine mem_flatMap.mpr ⟨k, mem_range.mpr hk, ?_⟩
      rwa [zero_add]

/-- `foreach_mapping` visits, each once, the mappings below the given one that a flush of
the same range then removes, unless the frame is a head above the range. -/
theorem foreach_visits_flushed (hs : Levels ps (s :: ss)) {db : Db S Q (s :: ss)}
    (h : Reachable ps s ss db) {f : Frame} {me : Bool} {vs ve : ℕ}
    (hr : PassedRange s ss db.t f me vs ve) (habove : ¬ HeadAbove (s :: ss) db.t f ve)
    {t' : Treemap S (s :: ss)} {cs : List (Charge S)}
    (hf : flush (s :: ss) db.t f me vs ve = some (t', cs)) :
    ∃ vis, foreachMapping (s :: ss) db.t f vs ve = some vis ∧ (vis.map Visit.addr).Nodup ∧
      ∀ v, v ∈ vis ↔ ∃ n ∈ heads (chains (s :: ss) 0 [] db.t), n.visit = v ∧
        n ∉ heads (chains (s :: ss) 0 [] t') ∧ f.m ≠ some n.addr := by
  have hinv := h.inv hs
  have hforest := hinv.forest hs
  obtain ⟨hops, k, m⟩ := f
  cases m with
  | some a =>
    refine ⟨_, foreach_mapping hs hinv.wf hinv.addrs (fun n hn ha => (hr n hn ha).1) hf, ?_⟩
    rw [flush_mapping hs hinv.wf hinv.addrs (.inr fun n hn ha => (hr n hn ha).1) hf]
    refine visits_eq_removed hforest fun c hc n hn => ?_
    rw [revoked_split hforest (fun p hp ha => (hr p hp ha).2) hc hn]
    simp [eq_comm]
  | none =>
    obtain ⟨ds, hvis, hperm⟩ := foreach_head hf fun s' ss' t₀ plug hat hk phys up hroot =>
      splits_of_passed hs hinv hr habove hat hk hroot
    obtain ⟨hnd, hmem⟩ := visits_of_perm hinv.addrs hperm
    refine ⟨_, hvis, hnd, fun v => (hmem v).trans ?_⟩
    simp

end Visitor

/-! A small system: four base pages in frames of two, three tasks besides sigma0 and no
limit on their memory. -/

inductive Task where
  | sigma0
  | t1
  | t2
  | t3
deriving DecidableEq

instance : Spaces Task Task := ⟨.sigma0, id⟩

namespace Small

def km : Kmem Task := ⟨fun _ => ⟨0, 0⟩, 100, fun _ => false, []⟩

theorem levels : Levels 2 [1, 0] := ⟨by decide, by decide⟩

def ops : List (Op Task) :=
  [.insert ⟨[], 0, none⟩ ⟨.t1, 4, 0, 2⟩, .insert ⟨[], 0, some 102⟩ ⟨.t2, 9, 1, 1⟩]

def db : Db Task Task [1, 0] :=
  ((start 2 1 [0] km).bind fun db₀ => db₀.run ops).get rfl

theorem reachable : Reachable 2 1 [0] db := ⟨km, ops, (some_get rfl).symm⟩

end Small

theorem small_encoding :
    wf [1, 0] 2 (Task.sigma0, 0) Small.db.t ∧
      (chains [1, 0] 0 [] Small.db.t).map (map Node.space) = [[.t1], [.t2, .t1]] :=
  ⟨(reachable_encoding Small.levels Small.reachable).1, by decide⟩

theorem small_forest : Forest (chains [1, 0] 0 [] Small.db.t) :=
  reachable_forest Small.levels Small.reachable

namespace Small

def nestedOps (va : ℕ) : List (Op Task) :=
  [.insert ⟨[], 0, none⟩ ⟨.t1, 4, 0, 4⟩, .insert ⟨[], 0, some 102⟩ ⟨.t2, va, 0, 4⟩,
    .insert ⟨[], 0, some 103⟩ ⟨.t3, 20, 1, 1⟩]

def nested (va : ℕ) : Db Task Task [2, 1, 0] :=
  ((start 2 2 [1, 0] km).bind fun db₀ => db₀.run (nestedOps va)).get rfl

theorem reachable_nested (va : ℕ) : Reachable 2 2 [1, 0] (nested va) :=
  ⟨km, nestedOps va, (some_get rfl).symm⟩

def head : Frame := ⟨[(0, 104)], 0, none⟩

end Small

theorem small_visits :
    foreachMapping [2, 1, 0] (Small.nested 0).t Small.head 1 2 = some [⟨110, .t3, 20, 0⟩] ∧
    ∃ t' cs, flush [2, 1, 0] (Small.nested 0).t Small.head true 1 2 = some (t', cs) ∧
      ∀ v, v ∈ [(⟨110, .t3, 20, 0⟩ : Visit Task)] ↔
        ∃ n ∈ heads (chains [2, 1, 0] 0 [] (Small.nested 0).t), n.visit = v ∧
          n ∉ heads (chains [2, 1, 0] 0 [] t') ∧ Small.head.m ≠ some n.addr := by
  have hvis : foreachMapping [2, 1, 0] (Small.nested 0).t Small.head 1 2 =
      some [⟨110, .t3, 20, 0⟩] := by decide +kernel
  have hr : PassedRange 2 [1, 0] (Small.nested 0).t Small.head true 1 2 :=
    .inl ⟨0, by decide, by decide⟩
  have habove : ¬ HeadAbove [2, 1, 0] (Small.nested 0).t Small.head 2 :=
    fun h => h.2 (by decide +kernel)
  obtain ⟨⟨t', cs⟩, hf⟩ : ∃ r, flush [2, 1, 0] (Small.nested 0).t Small.head true 1 2 = some r :=
    isSome_iff_exists.mp (by decide +kernel)
  obtain ⟨vis, hv, -, hmem⟩ := foreach_visits_flushed ⟨by decide, by decide⟩
    (Small.reachable_nested 0) hr habove hf
  cases hvis.symm.trans hv
  exact ⟨hvis, t', cs, hf, hmem⟩

/-- `map` with sigma0 as the receiver passes a head below the mapping of another task. The visitor
runs out of the array of page frames, and what the flush takes is not visited. -/
theorem head_above_unvisited : Reachable 2 2 [1, 0] (Small.nested 8) ∧
    (lookupSrcDst [2, 1, 0] (Small.nested 8).t ⟨.t1, 0, 4⟩ ⟨.sigma0, 0, 0⟩).code = 1 ∧
    (lookupSrcDst [2, 1, 0] (Small.nested 8).t ⟨.t1, 0, 4⟩ ⟨.sigma0, 0, 0⟩).dst = some Small.head ∧
    foreachMapping [2, 1, 0] (Small.nested 8).t Small.head 0 1 = none ∧
    ∃ n ∈ heads (chains [2, 1, 0] 0 [] (Small.nested 8).t), n.space = .t3 ∧
      ∃ r, flush [2, 1, 0] (Small.nested 8).t Small.head true 0 1 = some r ∧
        n ∉ heads (chains [2, 1, 0] 0 [] r.1) :=
  ⟨Small.reachable_nested 8, by decide +kernel, by decide +kernel, by decide +kernel, ⟨110, .t3, 20, 1, 0⟩,
    by decide +kernel, rfl, _, rfl, by decide +kernel⟩

end Fiasco.Mapdb
