import Fiasco.Mapdb.Quota
import Fiasco.Mapdb.Search

/-!
# An insertion that fails

`Treemap::insert` may have made submaps for a page before it runs out of depth, quota or memory
further below. They stay, empty, charged to the parent, and the flush of the parent takes them
along.
-/

namespace Fiasco.Mapdb

open LockTrace Option

variable {S Q : Type} [DecidableEq Q] [Spaces S Q] {ss ss' : List ℕ} {s ps : ℕ} {par : S × ℕ}
  {x : Target S} {sp : S} {va : ℕ} {km km' : Kmem Q} {t t' : Treemap S ss} {f : Frame}

def depthOf {T : Type} (m : Option ℕ) (l : List (Mapping S T)) : Option ℕ :=
  m.bind fun a => (seek a l).map fun r => r.2.1.2.2

/-- `insertAfter` with the locks that it takes below the page frame `k`. -/
def insertLocked (x : Target S) : (s : ℕ) → (ss : List ℕ) → Option ℕ → S → ℕ → Kmem Q → ℕ →
    List (Mapping S (Treemap S ss)) →
      Option (List (Mapping S (Treemap S ss)) × Option ℕ × Kmem Q) × Trace
  | s, [], pd, _, _, km, _, post =>
    (if 2 ^ s = x.size then some (insertMapping x s pd km post) else none, [])
  | s, s' :: ss, pd, parentSpace, parentVa, km, k, post =>
    if 2 ^ s = x.size then (some (insertMapping x s pd km post), [])
    else
      let off := maskLsb (getLsb x.phys s) s'
      match submapFor s s' parentSpace parentVa km post with
      | (none, km₁) => (some (post, none, km₁), [])
      | (some ((a, m), rest), km₁) =>
        let k' := truncToPage s' off
        let r := insertLocked x s' ss none parentSpace (parentVa + off) km₁ k' (m.tree k')
        (r.1.map fun r => (.sub a (m.set k' r.1) :: rest, r.2),
          Trace.under (k, a) (.acquire ([], k') :: r.2 ++ [.release ([], k')]))

theorem insertLocked_fst (x : Target S) (s : ℕ) (ss : List ℕ) (pd : Option ℕ) (sp : S) (va : ℕ)
    (km : Kmem Q) (k : ℕ) (post : List (Mapping S (Treemap S ss))) :
    (insertLocked x s ss pd sp va km k post).1 = insertAfter x s ss pd sp va km post := by
  induction ss generalizing s pd va km k with
  | nil => rfl
  | cons s' ss ih =>
    rw [insertLocked, insertAfter]
    split_ifs
    · rfl
    · cases submapFor s s' sp va km post with
      | mk o km₁ =>
        cases o with
        | none => rfl
        | some q => simp only [ih]

def insertTrace (ss : List ℕ) (t : Treemap S ss) (km : Kmem Q) (f : Frame) (x : Target S) : Trace :=
  ((onFrame (fun s ss t k => (pspace t k f.m).bind fun sp => (pvaddr s t k f.m).map fun pv =>
    (t.tree k, (insertLocked x s ss (depthOf f.m (t.tree k)) sp pv km k (behind f.m (t.tree k))).2))
      ss t f.hops f.key).map fun r => f.hops.foldr Trace.under r.2).getD []

theorem insertLocked_released (x : Target S) (s : ℕ) (ss : List ℕ) (pd : Option ℕ) (sp : S) (va : ℕ)
    (km : Kmem Q) (k : ℕ) (post : List (Mapping S (Treemap S ss))) :
    exec (insertLocked x s ss pd sp va km k post).2 [] = some [] ∧
      ∀ e ∈ (insertLocked x s ss pd sp va km k post).2, InFrame k e.lock := by
  induction ss generalizing s pd va km k with
  | nil => exact ⟨rfl, nofun⟩
  | cons s' ss ih =>
    rw [insertLocked]
    split_ifs
    · exact ⟨rfl, nofun⟩
    · cases submapFor s s' sp va km post with
      | mk o km₁ =>
        cases o with
        | none => exact ⟨rfl, nofun⟩
        | some q =>
          obtain ⟨hex, hin⟩ := ih s' none (va + maskLsb (getLsb x.phys s) s') km₁ _
            (q.1.2.tree (truncToPage s' (maskLsb (getLsb x.phys s) s')))
          exact ⟨exec_under (exec_around hin hex).2, fun e he => inFrame_under he⟩

theorem insertTrace_released (t : Treemap S ss) (km : Kmem Q) (f : Frame) (x : Target S)
    {held : List Lock} (h : ∀ e ∈ insertTrace ss t km f x, e.lock ∉ held) :
    exec (insertTrace ss t km f x) held = some held := by
  suffices exec (insertTrace ss t km f x) [] = some [] from exec_frame this h
  rw [insertTrace]
  cases hr : onFrame _ ss t f.hops f.key with
  | none => rfl
  | some r =>
    obtain ⟨s', ss', t₀, plug, l, -, -, hop, -⟩ := onFrame_eq_some.mp hr
    obtain ⟨sp, -, hop⟩ := bind_eq_some_iff.mp hop
    obtain ⟨pv, -, he⟩ := map_eq_some_iff.mp hop
    rw [map_some, getD_some, ← (Prod.mk.inj he).2]
    induction f.hops with
    | nil => exact (insertLocked_released ..).1
    | cons h hops ih => exact exec_under ih

theorem At.plug_at {hops : List (ℕ × ℕ)} {t₀ : TreemapOf S (Treemap S ss')}
    {plug : TreemapOf S (Treemap S ss') → Treemap S ss} (h : At ss t hops s ss' t₀ plug)
    (y : TreemapOf S (Treemap S ss')) : At ss (plug y) hops s ss' y plug := by
  induction h with
  | here => exact .here ..
  | down s ss t k a l₁ l₂ m hops s' ss' t' plug hk hl hne hat ih =>
    have hat' := At.down s ss (t.set k (l₁ ++ .sub a (plug y) :: l₂)) k a l₁ l₂ (plug y) hops s' ss' y
      plug hk (by simp) hne (ih y)
    have hset : ∀ l l' : List (Mapping S (Treemap S ss)), (t.set k l').set k l = t.set k l := by
      intro l l'
      simp [TreemapOf.set]
    simpa only [hset] using hat'

theorem seek_swap {T : Type} {a : ℕ} {sp : S} {pg d : ℕ} {pre post : List (Mapping S T)}
    (h : seek a (pre ++ .real a sp pg d :: post) = some (pre, (sp, pg, d), post))
    (post' : List (Mapping S T)) :
    seek a (pre ++ .real a sp pg d :: post') = some (pre, (sp, pg, d), post') := by
  induction pre with
  | nil => simp [seek]
  | cons y pre ih =>
    cases y with
    | real b sp' pg' d' =>
      by_cases hb : b = a
      · simp [seek, hb] at h
      · simp only [List.cons_append, seek, if_neg hb, map_eq_some_iff] at h ⊢
        obtain ⟨q, hq, he⟩ := h
        refine ⟨_, ih ?_, rfl⟩
        simp only [Prod.mk.injEq, List.cons.injEq] at he
        rw [hq]
        simp [Prod.ext_iff, he]
    | sub b m =>
      simp only [List.cons_append, seek, map_eq_some_iff] at h ⊢
      obtain ⟨q, hq, he⟩ := h
      refine ⟨_, ih ?_, rfl⟩
      simp only [Prod.mk.injEq, List.cons.injEq] at he
      rw [hq]
      simp [Prod.ext_iff, he]

def swept {T : Type} (m : Option ℕ) (me : Bool) (l : List (Mapping S T)) : List (Mapping S T) :=
  match m with
  | none => rest (-1) l
  | some a =>
    match seek a l with
    | none => l
    | some (pre, (sp, pg, d), post) =>
      if me then pre ++ rest d post else pre ++ .real a sp pg d :: rest d post

def WholePage (s : ℕ) (m : Option ℕ) (me : Bool) (pv vs ve : ℕ) : Prop :=
  m ≠ none ∧ me = true ∨ vs ≤ pv ∧ pv + 2 ^ s ≤ ve

section Whole

variable {me : Bool} {pv vs ve : ℕ} {m : Option ℕ} {l : List (Mapping S (Treemap S ss))}

theorem flushLoop_whole (me : Bool) (hs : Levels s ss) {cap : ℕ} (h : wfList s (wf ss s) cap par true l)
    (hw : me = true ∨ vs ≤ pv ∧ pv + 2 ^ s ≤ ve) (pd : ℤ) :
    (flushLoop (treemapOps ss s) pd me (offsBegin pv vs) (offsEnd (2 ^ s) pv ve) pd l).1 = rest pd l ∧
      (me = false → forgottenHead (treemapOps ss s) (forgotten ss s) (offsBegin pv vs)
        (offsEnd (2 ^ s) pv ve) l = []) := by
  cases l with
  | nil => exact ⟨rfl, fun _ => rfl⟩
  | cons y l =>
    cases y with
    | real a sp pg d => exact ⟨flushLoop_of_noSub _ _ _ trivial, fun _ => rfl⟩
    | sub a n =>
      have hp : me = false → (treemapOps ss s).isPartial n (offsBegin pv vs)
          (offsEnd (2 ^ s) pv ve) = false := by
        rintro rfl
        obtain ⟨h1, h2⟩ := hw.resolve_left (by simp)
        rw [SubmapOps.isPartial, size_of_wf s hs h.2.1, offsBegin, if_neg (by omega),
          offsEnd_of_le ((Nat.le_add_right _ _).trans h2)]
        split_ifs
        · simp
        · simp
          omega
      rw [flushLoop_sub _ _ _ (wfList_noSub h.2.2), rest_sub]
      cases me with
      | true => exact ⟨rfl, by simp⟩
      | false =>
        simp only [forgottenHead, hp rfl]
        exact ⟨rfl, fun _ => rfl⟩

theorem flushTree_whole (hs : Levels s ss) (h : wfList s (wf ss s) 0 par true l)
    (hm : ∀ a, m = some a → seek a l ≠ none) (hw : WholePage s m me pv vs ve) :
    (∃ cs, flushTree (treemapOps ss s) m me (offsBegin pv vs) (offsEnd (2 ^ s) pv ve) l =
        some (swept m me l, cs)) ∧
      forgottenFrom s ss m me (offsBegin pv vs) (offsEnd (2 ^ s) pv ve) l = [] := by
  cases m with
  | none =>
    obtain ⟨hl, hf⟩ := flushLoop_whole false hs h (.inr (hw.resolve_left fun hc => hc.1 rfl)) (-1)
    exact ⟨⟨_, congrArg some (Prod.ext hl rfl)⟩, hf rfl⟩
  | some a =>
    obtain ⟨⟨pre, ⟨sp, pg, d⟩, post⟩, hseek⟩ := ne_none_iff_exists'.mp (hm a rfl)
    have hpost := h
    rw [seek_eq_some hseek] at hpost
    obtain ⟨hl, hf⟩ := flushLoop_whole me hs (wfList_real_focus hpost).2.1 (hw.imp_left And.right) d
    simp only [flushTree, swept, forgottenFrom, hseek, map_some]
    cases me with
    | true => exact ⟨⟨_, by rw [hl]; rfl⟩, rfl⟩
    | false => exact ⟨⟨_, by rw [hl]; rfl⟩, hf rfl⟩

theorem flush_whole (hs : Levels ps ss) (hwf : wf ss ps par t) {s' : ℕ}
    {t₀ : TreemapOf S (Treemap S ss')} {plug : TreemapOf S (Treemap S ss') → Treemap S ss}
    (hat : At ss t f.hops s' ss' t₀ plug) (hk : f.key < t₀.keyEnd)
    (hpv : pvaddr s' t₀ f.key f.m = some pv) (hw : WholePage s' f.m me pv vs ve) :
    (∃ cs, flush ss t f me vs ve = some (plug (t₀.set f.key (swept f.m me (t₀.tree f.key))), cs)) ∧
      flushForgotten ss t f me vs ve = [] := by
  obtain ⟨ps', par', hs', hwf', -⟩ := hat.wf hs hwf
  obtain ⟨⟨cs, hfl⟩, hforgot⟩ := flushTree_whole hs'.tail (hwf'.tree _ hk) (fun a ha hn => by
    rw [ha, pvaddr, hn] at hpv
    cases hpv) hw
  refine ⟨⟨cs, onFrame_eq_some.mpr ⟨s', ss', t₀, plug, _, hat, hk, ?_, rfl⟩⟩, ?_⟩
  · rw [hpv]
    exact hfl
  · rw [flushForgotten, onFrame_eq_some.mpr ⟨s', ss', t₀, plug, _, hat, hk, by rw [hpv]; rfl, rfl⟩]
    exact hforgot

end Whole

theorem Inserted.rest {pd : Option ℕ} {post post' : List (Mapping S (Treemap S ss))}
    (h : Inserted x s ss pd sp va km post post' none km') (p : ℤ) :
    Mapdb.rest p post' = Mapdb.rest p post := by
  cases h with
  | tooDeep | noMapping | noSubmap => rfl
  | submap hsize hm h =>
    rw [rest_sub]
    rcases hm.spec with ⟨rfl, -⟩ | ⟨-, rfl, -⟩
    · rw [rest_sub]
    · rfl

theorem insert_none (h : insert ss t km f x = some (t', none, km')) :
    ∃ s' ss' t₀ plug l' pv, At ss t f.hops s' ss' t₀ plug ∧ f.key < t₀.keyEnd ∧
      t' = plug (t₀.set f.key l') ∧ pvaddr s' t₀ f.key f.m = some pv ∧
      pvaddr s' (t₀.set f.key l') f.key f.m = some pv ∧
      ∀ me, swept f.m me l' = swept f.m me (t₀.tree f.key) := by
  obtain ⟨s', ss', t₀, plug, l', hat, hk, rfl, hcase⟩ := insert_cases h
  refine ⟨s', ss', t₀, plug, l', ?_⟩
  rcases hcase with ⟨hm, hins⟩ | ⟨a, pre, sp, pg, d, post, post', hm, hseek, rfl, hins⟩ <;> rw [hm]
  · exact ⟨_, hat, hk, rfl, rfl, rfl, fun _ => hins.rest _⟩
  · have hnew := seek_swap (seek_eq_some hseek ▸ hseek) post'
    refine ⟨pg * 2 ^ s', hat, hk, rfl, ?_, ?_, fun me => ?_⟩
    · rw [pvaddr, hseek]
      rfl
    · rw [pvaddr, TreemapOf.set_tree_same, hnew]
      rfl
    · simp only [swept, hseek, hnew, hins.rest]

variable [DecidableEq S]

def Whole (ss : List ℕ) (t : Treemap S ss) (f : Frame) (me : Bool) (vs ve : ℕ) : Prop :=
  ∀ s' ss' t₀ plug pv, At ss t f.hops s' ss' t₀ plug → pvaddr s' t₀ f.key f.m = some pv →
    WholePage s' f.m me pv vs ve

/-- An insertion that returns null changes no mapping, keeps the accounts, gives back every lock,
and leaves nothing that the flush of the parent does not give back. -/
theorem insert_fails_clean (hs : Levels ps (s :: ss)) {db : Db S Q (s :: ss)}
    (h : Reachable ps s ss db) {t' : Treemap S (s :: ss)}
    (hins : insert (s :: ss) db.t db.km f x = some (t', none, km')) :
    chains (s :: ss) 0 [] t' = chains (s :: ss) 0 [] db.t ∧
    (∀ km₀, Balanced km₀ db → Balanced km₀ ⟨t', km'⟩) ∧
    (∀ held, (∀ e ∈ insertTrace (s :: ss) db.t db.km f x, e.lock ∉ held) →
      exec (insertTrace (s :: ss) db.t db.km f x) held = some held) ∧
    ∀ me vs ve, Whole (s :: ss) db.t f me vs ve → ∃ t'' cs cs',
      flush (s :: ss) db.t f me vs ve = some (t'', cs) ∧
      flush (s :: ss) t' f me vs ve = some (t'', cs') ∧ ∀ km₀, Balanced km₀ db →
        (∀ q, (km'.releaseAll Spaces.ramQuota cs').quota q =
          (db.km.releaseAll Spaces.ramQuota cs).quota q) ∧
        (km'.releaseAll Spaces.ramQuota cs').live.Perm (db.km.releaseAll Spaces.ramQuota cs).live := by
  have hinv := h.inv hs
  have hinv' : Db.Inv ps (⟨t', km'⟩ : Db S Q (s :: ss)) :=
    hinv.step hs (show db.step (.insert f x) = _ by rw [Db.step, hins]; rfl)
  have hbal : ∀ km₀, Balanced km₀ db → Balanced km₀ ⟨t', km'⟩ := by
    intro km₀ hb
    obtain ⟨news, hg, hperm⟩ := insert_allocs hs hinv.wf hins
    exact hb.grows hg hperm
  refine ⟨(insert_chains hs hinv.wf hins).1 rfl, hbal, fun held hheld => insertTrace_released _ _ _ _ hheld,
    fun me vs ve hw => ?_⟩
  obtain ⟨s', ss', t₀, plug, l', pv, hat, hk, rfl, hpv, hpv', hswept⟩ := insert_none hins
  obtain ⟨⟨cs, hfl⟩, hno⟩ := flush_whole hs hinv.wf hat hk hpv (hw _ _ _ _ _ hat hpv)
  obtain ⟨⟨cs', hfl'⟩, hno'⟩ := flush_whole hs hinv'.wf (hat.plug_at (t₀.set f.key l')) hk hpv'
    (hw _ _ _ _ _ hat hpv)
  have hset : ∀ z, (t₀.set f.key l').set f.key z = t₀.set f.key z := by
    intro z
    simp [TreemapOf.set]
  rw [TreemapOf.set_tree_same, hswept, hset] at hfl'
  refine ⟨_, cs, cs', hfl, hfl', fun km₀ hb => ?_⟩
  have h₁ := hb.flush hs hinv hno hfl
  have h₂ := (hbal km₀ hb).flush hs hinv' hno' hfl'
  exact ⟨fun q => (h₂.quota q).trans (h₁.quota q).symm, h₂.live.trans h₁.live.symm⟩

namespace Small

def kmPoor : Kmem Task := { Small.km with quota := fun q => ⟨0, if q = .t2 then 10 else 1000000⟩ }

def opsPoor : List (Op Task) := [.insert ⟨[], 0, none⟩ ⟨.t1, 4, 0, 2⟩]

def dbPoor : Db Task Task [1, 0] :=
  ((start 2 1 [0] kmPoor).bind fun db₀ => db₀.run opsPoor).get (by decide +kernel)

theorem reachable_poor : Reachable 2 1 [0] dbPoor := ⟨kmPoor, opsPoor, (some_get _).symm⟩

end Small

theorem small_fails_clean : ∃ t' km', insert [1, 0] Small.dbPoor.t Small.dbPoor.km ⟨[], 0, some 102⟩
      ⟨.t2, 9, 1, 1⟩ = some (t', none, km') ∧ (km'.quota .t1).current = 1128 ∧
    (Small.dbPoor.km.quota .t1).current = 24 ∧
    chains [1, 0] 0 [] t' = chains [1, 0] 0 [] Small.dbPoor.t := by
  have hres : (insert [1, 0] Small.dbPoor.t Small.dbPoor.km ⟨[], 0, some 102⟩ ⟨.t2, 9, 1, 1⟩).map
      (fun r => (r.2.1, (r.2.2.quota .t1).current)) = some (none, 1128) := by decide +kernel
  obtain ⟨⟨t', r, km'⟩, hins, he⟩ := map_eq_some_iff.mp hres
  obtain ⟨rfl, hq⟩ := Prod.mk.inj he
  exact ⟨t', km', hins, hq, by decide +kernel, (insert_fails_clean Small.levels Small.reachable_poor hins).1⟩

end Fiasco.Mapdb
