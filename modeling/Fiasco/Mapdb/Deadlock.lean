import Fiasco.Mapdb.Run
import Fiasco.Mapdb.SrcDst

/-!
# Two concurrent lookups

Two lookups inside one root page frame exclude each other. For different root page frames
`lookup_src_dst` keeps the page frame of the destination while it looks for the source: two calls
block each other exactly when each one has to pass the page frame in which the other one has found
its destination.
-/
namespace Fiasco.Mapdb

open LockTrace List

variable {S Q : Type} [DecidableEq S] [Spaces S Q] {s : ℕ} {ss : List ℕ}
  {t : TreemapOf S (Treemap S ss)} {src dst : Bool → Query S} {held : List Lock}

def Descending (x : Lock) (held : List Lock) : Prop :=
  (∀ y ∈ held, y.root = x.root) ∧ (held ≠ [] → ([], x.root) ∈ held)

theorem Enclosed.descending {k : ℕ} {tr p r : Trace} {x : Lock}
    (h : Enclosed k tr) (htr : tr = p ++ .acquire x :: r) (hex : exec p [] = some held) :
    x.root = k ∧ Descending x held := by
  have hx : x.root = k := h.root (e := .acquire x) (by rw [htr]; simp)
  refine ⟨hx, fun y hy => ?_, fun hne => ?_⟩
  · rcases exec_mem hex hy with hmem | hmem
    · exact absurd hmem not_mem_nil
    · rw [hx]
      exact h.root (e := .acquire y) (by rw [htr]; exact mem_append_left _ hmem)
  · obtain ⟨mid, fin, rfl, hmid, hfin⟩ := h
    rw [hx]
    cases p with
    | nil =>
      cases hex
      exact absurd rfl hne
    | cons e p =>
      obtain ⟨rfl, htail⟩ := cons.inj htr
      have htail : mid ++ fin = p ++ .acquire x :: r := htail
      rw [exec_acquire not_mem_nil] at hex
      refine exec_keeps hex mem_cons_self fun hrel => ?_
      -- the acquisition of `x` is not among the releases at the end
      rcases append_eq_append_iff.mp htail with ⟨c, rfl, hc⟩ | ⟨c, rfl, hc⟩
      · obtain ⟨y, hy, -⟩ := hfin (.acquire x) (by rw [hc]; simp)
        cases hy
      · exact (hmid _ (mem_append_left _ hrel)).ne rfl

theorem lookupSrcDst_cross (s : ℕ) (ss : List ℕ) (t : TreemapOf S (Treemap S ss))
    {src dst : Query S} (hk : truncToPage s src.key ≠ truncToPage s dst.key) :
    ((lookup s ss t dst.key dst.space dst.va).1 = none ∧
        (lookupSrcDst (s :: ss) t src dst).trace = (lookup s ss t dst.key dst.space dst.va).2) ∨
      ∃ f fin, (lookup s ss t dst.key dst.space dst.va).1 = some f ∧
        (lookupSrcDst (s :: ss) t src dst).trace =
          (lookup s ss t dst.key dst.space dst.va).2 ++
            ((lookup s ss t src.key src.space src.va).2 ++ fin) ∧
        ∀ e ∈ fin, ∃ y, e = .release y := by
  simp only [lookupSrcDst, if_pos hk]
  cases hd : lookup s ss t dst.key dst.space dst.va with
  | mk o trd =>
    cases o with
    | none => exact .inl ⟨rfl, rfl⟩
    | some f =>
      refine .inr ⟨f, ?_⟩
      cases hs : lookup s ss t src.key src.space src.va with
      | mk o' trs =>
        cases o' with
        | none =>
          exact ⟨[.release f.lock], rfl, by simp, fun e he => ⟨_, mem_singleton.mp he⟩⟩
        | some g => exact ⟨[], rfl, by simp, fun e he => absurd he not_mem_nil⟩

theorem lookup_frame_root {q : Query S} {f : Frame}
    (h : (lookup s ss t q.key q.space q.va).1 = some f) : f.lock.root = truncToPage s q.key := by
  have hex := lookup_locks s ss t q.key q.space q.va
  rw [h] at hex
  rcases exec_mem hex (mem_singleton.mpr rfl) with hmem | hmem
  · exact absurd hmem not_mem_nil
  · exact lookup_root s ss t _ _ _ _ hmem

theorem lookupSrcDst_acquires {src dst : Query S} {p r : Trace} {x : Lock}
    (htr : (lookupSrcDst (s :: ss) t src dst).trace = p ++ .acquire x :: r)
    (hex : exec p [] = some held) : Descending x held ∨
      (truncToPage s src.key ≠ truncToPage s dst.key ∧ x.root = truncToPage s src.key ∧
        .acquire x ∈ (lookup s ss t src.key src.space src.va).2 ∧
        ∃ f held', (lookup s ss t dst.key dst.space dst.va).1 = some f ∧
          held = held' ++ [f.lock] ∧ Descending x held') := by
  by_cases hk : truncToPage s src.key = truncToPage s dst.key
  · exact .inl ((lookupSrcDst_enclosed s ss t hk).descending htr hex).2
  have hd := lookup_shape s ss t dst.key dst.space dst.va
  have hs := lookup_shape s ss t src.key src.space src.va
  rcases lookupSrcDst_cross s ss t hk with ⟨-, hcross⟩ | ⟨f, fin, hf, hcross, hfin⟩
  · exact .inl (hd.descending (hcross.symm.trans htr) hex).2
  rw [htr] at hcross
  rcases append_eq_append_iff.mp hcross with ⟨c, hc, hc'⟩ | ⟨c, rfl, hc'⟩
  · cases c with
    | nil =>
      -- the source lookup starts with `x`
      refine .inr ⟨hk, ?_⟩
      rw [append_nil] at hc
      rw [nil_append] at hc'
      have hlocks := lookup_locks s ss t dst.key dst.space dst.va
      rw [hc, hex, hf] at hlocks
      obtain ⟨mid, rel, hshape, -, -⟩ := hs
      rw [hshape] at hc'
      obtain ⟨hx, -⟩ := cons.inj hc'
      cases hx
      exact ⟨rfl, by rw [hshape]; simp, f, [], hf, Option.some.inj hlocks,
        fun y hy => absurd hy not_mem_nil, fun h => absurd rfl h⟩
    | cons e c =>
      obtain ⟨rfl, -⟩ := cons.inj hc'
      exact .inl (hd.descending hc hex).2
  · -- `p` is the destination lookup and a part `c` of the source lookup
    rcases append_eq_append_iff.mp hc'.symm with ⟨c', hcs, hfin'⟩ | ⟨c', rfl, hfin'⟩
    · cases c' with
      | nil =>
        rw [nil_append] at hfin'
        obtain ⟨y, hy⟩ := hfin (.acquire x) (by rw [← hfin']; simp)
        cases hy
      | cons e c' =>
        obtain ⟨rfl, -⟩ := cons.inj hfin'
        have hlocks := lookup_locks s ss t dst.key dst.space dst.va
        rw [exec_append, hlocks, hf, Option.bind_some] at hex
        obtain ⟨held', hc⟩ := exec_prefix ⟨_, hcs.symm⟩ (lookup_locks s ss t src.key src.space src.va)
        have hxs : .acquire x ∈ (lookup s ss t src.key src.space src.va).2 := by rw [hcs]; simp
        have hfr : ∀ e ∈ c, e.lock ∉ [f.lock] := by
          intro e he hmem
          have h1 : e.lock.root = truncToPage s src.key :=
            hs.root (by rw [hcs]; exact mem_append_left _ he)
          rw [mem_singleton.mp hmem, lookup_frame_root hf] at h1
          exact hk h1.symm
        have hheld := exec_frame hc hfr
        rw [show exec c ([] ++ [f.lock]) = some held from hex] at hheld
        obtain ⟨hx, hdesc⟩ := hs.descending hcs hc
        exact .inr ⟨hk, hx, hxs, f, held', hf, Option.some.inj hheld, hdesc⟩
    · obtain ⟨y, hy⟩ := hfin (.acquire x) (by rw [hfin']; simp)
      cases hy

def Crossing (s : ℕ) (ss : List ℕ) (t : TreemapOf S (Treemap S ss)) (src dst : Bool → Query S) :
    Prop :=
  ∀ i, truncToPage s (src i).key ≠ truncToPage s (dst i).key ∧
    ∃ f, (lookup s ss t (dst !i).key (dst !i).space (dst !i).va).1 = some f ∧
      .acquire f.lock ∈ (lookup s ss t (src i).key (src i).space (src i).va).2

theorem crossing_of_deadlock {σ : Bool → Thread Lock}
    (hreach : Relation.ReflTransGen Step (initial fun i => (lookupSrcDst (s :: ss) t (src i) (dst i)).trace) σ)
    (hdead : Deadlock σ) : Crossing s ss t src dst := by
  choose x tr htodo hheld using hdead
  have hpoint : ∀ i, Descending (x i) (σ i).held ∨ _ := fun i => by
    obtain ⟨p, hp, hex⟩ := reach_split hreach i
    rw [htodo i] at hp
    exact lookupSrcDst_acquires hp hex
  -- a lock of the same root page frame cannot be waited for: both would hold the root's lock
  have hroot : ∀ i, (x !i).root ≠ (x i).root := by
    intro i he
    have hmem : ∀ j, x (!j) ∈ (σ j).held := fun j => by
      have := hheld (!j)
      rwa [Bool.not_not] at this
    have hlock : ∀ j, (x !j).root = (x j).root → ([], (x j).root) ∈ (σ j).held := by
      intro j hj
      rcases hpoint j with hdesc | ⟨hne, hxs, -, f, held', hf, hh, hdesc⟩
      · exact hdesc.2 (ne_nil_of_mem (hmem j))
      · have hin := hmem j
        rw [hh] at hin ⊢
        rcases mem_append.mp hin with hin | hin
        · exact mem_append_left _ (hdesc.2 (ne_nil_of_mem hin))
        · rw [mem_singleton.mp hin, lookup_frame_root hf] at hj
          exact absurd (hxs.symm.trans hj.symm) hne
    have h1 := hlock i he
    have h2 := hlock (!i) (by rw [Bool.not_not]; exact he.symm)
    rw [he] at h2
    exact reach_disjoint hreach i h1 h2
  -- so each waits for the page frame of the other one's destination
  have hcross : ∀ i, truncToPage s (src i).key ≠ truncToPage s (dst i).key ∧
      .acquire (x i) ∈ (lookup s ss t (src i).key (src i).space (src i).va).2 ∧
      ∃ f, (lookup s ss t (dst i).key (dst i).space (dst i).va).1 = some f ∧ x (!i) = f.lock := by
    intro i
    have hin := hheld (!i)
    rw [Bool.not_not] at hin
    rcases hpoint i with hdesc | ⟨hne, -, hxs, f, held', hf, hh, hdesc⟩
    · exact absurd (hdesc.1 _ hin) (hroot i)
    · rw [hh] at hin
      rcases mem_append.mp hin with hin | hin
      · exact absurd (hdesc.1 _ hin) (hroot i)
      · exact ⟨hne, hxs, f, hf, mem_singleton.mp hin⟩
  intro i
  obtain ⟨hne, hxs, -⟩ := hcross i
  obtain ⟨-, -, f, hf, hx⟩ := hcross (!i)
  rw [Bool.not_not] at hx
  exact ⟨hne, f, hf, hx ▸ hxs⟩

theorem deadlock_of_crossing_lookups (h : Crossing s ss t src dst) :
    ∃ σ, Relation.ReflTransGen Step
      (initial fun i => (lookupSrcDst (s :: ss) t (src i) (dst i)).trace) σ ∧ Deadlock σ := by
  choose hne f hf hmem using h
  -- the first acquisition of the other one's page frame splits the source lookup
  choose b r hsplit hfirst using fun i => eq_append_cons_of_mem (hmem i)
  have hf' : ∀ i, (lookup s ss t (dst i).key (dst i).space (dst i).va).1 = some (f !i) := by
    intro i
    have := hf (!i)
    rwa [Bool.not_not] at this
  have hfsrc : ∀ i, (f i).lock.root = truncToPage s (src i).key := fun i =>
    lookup_root s ss t _ _ _ _ (hmem i)
  have hfdst : ∀ i, (f !i).lock.root = truncToPage s (dst i).key := fun i =>
    lookup_frame_root (hf' i)
  have hb : ∀ i, ∀ e ∈ b i, e.lock.root = truncToPage s (src i).key := fun i e he =>
    lookup_root s ss t _ _ _ e (by rw [hsplit i]; exact mem_append_left _ he)
  have htrace : ∀ i, ∃ fin, (lookupSrcDst (s :: ss) t (src i) (dst i)).trace =
      (lookup s ss t (dst i).key (dst i).space (dst i).va).2 ++
        (b i ++ .acquire (f i).lock :: fin) := by
    intro i
    rcases lookupSrcDst_cross s ss t (hne i) with ⟨hnone, -⟩ | ⟨g, fin, -, htr, -⟩
    · rw [hf' i] at hnone
      cases hnone
    · exact ⟨r i ++ fin, by rw [htr, hsplit i]; simp⟩
  choose fin hfin using htrace
  have hexec : ∀ i, ∃ held, exec (b i) [] = some held := fun i =>
    exec_prefix ⟨_, (hsplit i).symm⟩ (lookup_locks s ss t _ _ _)
  choose held hheld using hexec
  have hother : ∀ i, ∀ e ∈ b i, e.lock ∉ [(f !i).lock] := by
    intro i e he hin
    have := hb i e he
    rw [mem_singleton.mp hin, hfdst i] at this
    exact hne i this.symm
  refine deadlock_of_crossing (x := fun i => (f i).lock)
    (h := fun i => held i ++ [(f !i).lock]) hfin (fun i => ?_)
    (fun i => exec_frame (hheld i) (hother i)) (fun i => by simp) ?_ (hfirst false) ?_
  · rw [lookup_locks, hf' i]
    rfl
  · intro hacq
    have := lookup_root s ss t _ _ _ _ hacq
    exact hne true ((hfsrc true).symm.trans this)
  · intro y hy hin
    rcases mem_append.mp hin with hin | hin
    · rcases exec_mem (hheld false) hin with hin | hin
      · exact absurd hin not_mem_nil
      · have h1 : y.root = truncToPage s (src true).key := hb true _ hy
        have h2 : y.root = truncToPage s (src false).key := hb false _ hin
        have h3 : truncToPage s (src false).key = truncToPage s (dst true).key :=
          (hfsrc false).symm.trans (hfdst true)
        exact hne true (h1.symm.trans (h2.trans h3))
    · rw [mem_singleton.mp hin] at hy
      exact hfirst true hy

theorem lookups_deadlockFree_iff (s : ℕ) (ss : List ℕ) (t : TreemapOf S (Treemap S ss))
    (src dst : Bool → Query S) :
    (∀ σ, Relation.ReflTransGen Step
        (initial fun i => (lookupSrcDst (s :: ss) t (src i) (dst i)).trace) σ → ¬ Deadlock σ) ↔
      ¬ Crossing s ss t src dst := by
  constructor
  · intro h hcross
    obtain ⟨σ, hreach, hdead⟩ := deadlock_of_crossing_lookups hcross
    exact h σ hreach hdead
  · exact fun h σ hreach hdead => h (crossing_of_deadlock hreach hdead)

namespace Small

def opsPair : List (Op Task) :=
  [.insert ⟨[], 0, none⟩ ⟨.t1, 4, 0, 2⟩, .insert ⟨[], 1, none⟩ ⟨.t2, 8, 2, 2⟩]

def dbPair : Db Task Task [1, 0] :=
  ((start 2 1 [0] km).bind fun db₀ => db₀.run opsPair).get rfl

theorem reachablePair : Reachable 2 1 [0] dbPair := ⟨km, opsPair, (Option.some_get rfl).symm⟩

def srcPair : Bool → Query Task
  | false => ⟨.t1, 0, 4⟩
  | true => ⟨.t2, 2, 8⟩

def dstPair : Bool → Query Task := fun i => srcPair !i

end Small

theorem swapped_lookups_deadlock :
    Reachable 2 1 [0] Small.dbPair ∧
    ∃ σ, Relation.ReflTransGen Step
      (initial fun i =>
        (lookupSrcDst [1, 0] Small.dbPair.t (Small.srcPair i) (Small.dstPair i)).trace) σ ∧
      Deadlock σ := by
  refine ⟨Small.reachablePair, deadlock_of_crossing_lookups fun i => ?_⟩
  cases i with
  | false => exact ⟨by decide, ⟨[], 0, some 102⟩, by decide, by decide⟩
  | true => exact ⟨by decide, ⟨[], 1, some 103⟩, by decide, by decide⟩

end Fiasco.Mapdb
