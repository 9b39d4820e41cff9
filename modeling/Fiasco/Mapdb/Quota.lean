import Fiasco.Mapdb.Run

/-!
# Who pays for the mapping database

The quotas are charged with exactly what the database consists of, and what it no longer
consists of has been freed, as long as two things do not happen. A grant to a space with
another quota moves too little when a submap goes with the mapping: neither the submap
nodes nor the rounding of the frame arrays are counted. And a flush that covers a page
frame inside a submap that stays forgets the submaps of that frame.
-/

namespace Fiasco.Mapdb

open List TreemapOf Spaces Kmem Mapdb.Small Function

variable {S Q : Type}

section Covered

def CoversSubmap : (ss : List ℕ) → ℕ → Treemap S ss → ℕ → ℕ → Prop
  | [], _, t, _, _ => nomatch t
  | s :: ss, ps, t, ob, oe => ∃ i, truncToPage s ob ≤ i ∧ i < roundToPage s oe ∧
      ((covers s ob oe i = true ∧ ∃ a m, .sub a m ∈ tree t i) ∨
        (covers s ob oe i = false ∧ ∃ a m l, tree t i = .sub a m :: l ∧
          (treemapOps ss s).isPartial m (subBegin ps s ob i) (subEnd ps s oe i) = true ∧
          CoversSubmap ss s m (subBegin ps s ob i) (subEnd ps s oe i)))

theorem forgotten_eq_nil (ss : List ℕ) (ps : ℕ) (t : Treemap S ss) (ob oe : ℕ)
    (h : ¬ CoversSubmap ss ps t ob oe) : forgotten ss ps t ob oe = [] := by
  induction ss generalizing ps ob oe with
  | nil => exact nomatch t
  | cons s ss ih =>
    rw [forgotten, flatMap_eq_nil_iff]
    intro i hi
    have hi' := mem_range'_1.mp hi
    have hwin : truncToPage s ob ≤ i ∧ i < roundToPage s oe := by omega
    rw [forgottenPage]
    split_ifs with hl hc
    · rfl
    · have hnone : (tree t i).filterMap Mapping.submap = [] := by
        rw [filterMap_eq_nil_iff]
        intro x hx
        cases x with
        | real a sp pg d => rfl
        | sub a m => exact absurd ⟨i, hwin.1, hwin.2, .inl ⟨hc, a, m, hx⟩⟩ h
      rw [hnone]
      rfl
    · cases hlist : tree t i with
      | nil => rfl
      | cons x l =>
        cases x with
        | real a sp pg d => rfl
        | sub a m =>
          simp only [forgottenHead]
          split_ifs with hp
          · exact ih s m _ _ fun hcov => h ⟨i, hwin.1, hwin.2,
              .inr ⟨by simpa using hc, a, m, l, hlist, hp, hcov⟩⟩
          · rfl

def behind {T : Type} (m : Option ℕ) (l : List (Mapping S T)) : List (Mapping S T) :=
  match m with
  | none => l
  | some a => ((seek a l).map fun r => r.2.2).getD []

def FlushCovers (ss : List ℕ) (t : Treemap S ss) (f : Frame) (selfUnmap : Bool) (vs ve : ℕ) : Prop :=
  ∃ s' ss' t₀ plug pv a m rest, At ss t f.hops s' ss' t₀ plug ∧
    pvaddr s' t₀ f.key f.m = some pv ∧ behind f.m (t₀.tree f.key) = .sub a m :: rest ∧
    (f.m = none ∨ selfUnmap = false) ∧
    (treemapOps ss' s').isPartial m (offsBegin pv vs) (offsEnd (2 ^ s') pv ve) = true ∧
    CoversSubmap ss' s' m (offsBegin pv vs) (offsEnd (2 ^ s') pv ve)

theorem flushForgotten_eq_nil {ss : List ℕ} {t : Treemap S ss} {f : Frame} {me : Bool} {vs ve : ℕ}
    (h : ¬ FlushCovers ss t f me vs ve) : flushForgotten ss t f me vs ve = [] := by
  rw [flushForgotten]
  cases hread : onFrame (fun s ss t k => (pvaddr s t k f.m).map fun pv =>
      (t.tree k, forgottenFrom s ss f.m me (offsBegin pv vs) (offsEnd (2 ^ s) pv ve) (t.tree k)))
      ss t f.hops f.key with
  | none => rfl
  | some p =>
    obtain ⟨t', r⟩ := p
    obtain ⟨s', ss', t₀, plug, l, hat, hk, hop, rfl⟩ := onFrame_eq_some.mp hread
    obtain ⟨pv, hpv, he⟩ := Option.map_eq_some_iff.mp hop
    obtain ⟨-, rfl⟩ := Prod.mk.inj he
    -- what is forgotten hangs behind the submap in front of the elements behind the mapping
    have hhead : (f.m = none ∨ me = false) → ∀ l, behind f.m (t₀.tree f.key) = l →
        forgottenHead (treemapOps ss' s') (forgotten ss' s') (offsBegin pv vs)
          (offsEnd (2 ^ s') pv ve) l = [] := by
      intro hme l hl
      cases l with
      | nil => rfl
      | cons x l =>
        cases x with
        | real a sp pg d => rfl
        | sub a m =>
          simp only [forgottenHead]
          split_ifs with hp
          · exact forgotten_eq_nil ss' s' m _ _ fun hcov =>
              h ⟨s', ss', t₀, plug, pv, a, m, l, hat, hpv, hl, hme, hp, hcov⟩
          · rfl
    simp only [Option.map_some, Option.getD_some]
    cases hm : f.m with
    | none =>
      rw [hm] at hhead
      exact hhead (.inl rfl) _ rfl
    | some a =>
      rw [hm] at hhead
      simp only [forgottenFrom]
      cases hseek : seek a (t₀.tree f.key) with
      | none => rfl
      | some q =>
        simp only
        split_ifs with hme
        · rfl
        · exact hhead (.inr (by simpa using hme)) _ (by simp [behind, hseek])

end Covered

section Toll

variable (quotaOf : S → Q)

def tolls (cs : List (Charge S)) : List (ℕ × Q) := cs.map fun c => (c.bytes, quotaOf c.payer)

@[simp] theorem tolls_append (cs ds : List (Charge S)) :
    tolls quotaOf (cs ++ ds) = tolls quotaOf cs ++ tolls quotaOf ds := map_append

theorem bytesOn_eq_of_tolls [DecidableEq Q] {cs ds : List (Charge S)}
    (h : tolls quotaOf cs = tolls quotaOf ds) (q : Q) :
    bytesOn quotaOf q cs = bytesOn quotaOf q ds := by
  have hsum : ∀ cs : List (Charge S), bytesOn quotaOf q cs =
      (((tolls quotaOf cs).filter fun p => p.2 = q).map Prod.fst).sum := by
    intro cs
    rw [bytesOn, tolls, filter_map, map_map]
    rfl
  rw [hsum, hsum, h]

variable {quotaOf} {T : Type} {nested : T → List (Charge S)} {par : S × ℕ}

theorem tolls_allocsList_payer {q q' : S} (h : quotaOf q = quotaOf q') (l : List (Mapping S T)) :
    tolls quotaOf (allocsList nested q l) = tolls quotaOf (allocsList nested q' l) := by
  induction l generalizing q q' with
  | nil => rfl
  | cons x l ih =>
    cases x with
    | real a sp pg d => rfl
    | sub a m =>
      have := ih h
      simp only [tolls] at this
      simp [allocsList, tolls, h, this]

theorem tolls_allocsList_mapSubmap {s cap : ℕ} {wfn : S × ℕ → T → Prop} {f : T → T}
    (hf : ∀ m, wfn par m → tolls quotaOf (nested (f m)) = tolls quotaOf (nested m))
    {l : List (Mapping S T)} (h : wfList s wfn cap par true l) (q : S) :
    tolls quotaOf (allocsList nested q (mapSubmap f l)) =
      tolls quotaOf (allocsList nested q l) := by
  cases l with
  | nil => rfl
  | cons x l =>
    cases x with
    | real a sp pg d => rfl
    | sub a m =>
      have := hf m h.2.1
      simp only [tolls] at this
      simp [mapSubmap, allocsList, tolls, this]

theorem tolls_flatMap_congr {f g : ℕ → List (Charge S)} {ks : List ℕ}
    (h : ∀ k ∈ ks, tolls quotaOf (f k) = tolls quotaOf (g k)) :
    tolls quotaOf (ks.flatMap f) = tolls quotaOf (ks.flatMap g) := by
  induction ks with
  | nil => rfl
  | cons k ks ih =>
    simp only [flatMap_cons, tolls_append]
    rw [h k mem_cons_self, ih fun i hi => h i (mem_cons_of_mem _ hi)]

theorem tolls_grantSubmap (ss : List ℕ) (ps : ℕ) (newSpace : S) (vp : ℕ) {ps' : ℕ}
    {t : Treemap S ss} (h : wf ss ps' par t) (hq : quotaOf newSpace = quotaOf par.1) :
    tolls quotaOf (allocs ss (grantSubmap ss ps newSpace vp t)) = tolls quotaOf (allocs ss t) := by
  induction ss generalizing ps vp ps' par with
  | nil => exact nomatch t
  | cons s ss ih =>
    have howner : owner t = par.1 := wfOf.owner h
    have hkeys : ∀ k ∈ range (keyEnd t),
        tolls quotaOf (allocsList (allocs ss) newSpace
          (tree (grantSubmap (s :: ss) ps newSpace vp t) k)) =
        tolls quotaOf (allocsList (allocs ss) (owner t) (tree t k)) := by
      intro k hk
      have hk' : k < keyEnd t := mem_range.mp hk
      simp only [grantSubmap, if_pos hk']
      rw [tolls_allocsList_mapSubmap (fun m hm => ih s _ hm (by rw [howner]; exact hq))
        (wfOf.tree h k hk')]
      exact tolls_allocsList_payer (by rw [howner]; exact hq) _
    have hcons : ∀ (c : Charge S) (cs : List (Charge S)),
        tolls quotaOf (c :: cs) = (c.bytes, quotaOf c.payer) :: tolls quotaOf cs := fun _ _ => rfl
    simp only [allocs, hcons]
    rw [howner, ← hq]
    refine congrArg₂ _ rfl ?_
    rw [← howner]
    exact tolls_flatMap_congr hkeys

end Toll

variable [DecidableEq S] [DecidableEq Q] [Spaces S Q] {ss : List ℕ} {ps : ℕ} {km₀ : Kmem Q}
  {db : Db S Q ss} {db' : Db S Q ss} {t' : Treemap S ss} {f : Frame}

def GrantsSubmap (ss : List ℕ) (t : Treemap S ss) (f : Frame) (newSpace : S) : Prop :=
  ∃ s' ss' t₀ plug a pre old pg d post, At ss t f.hops s' ss' t₀ plug ∧ f.m = some a ∧
    seek a (t₀.tree f.key) = some (pre, (old, pg, d), post) ∧
    (findSubmap post).isSome ∧ ramQuota old ≠ (ramQuota newSpace : Q)

/-- The quotas have been charged, since the state `km₀`, with what the database consists of,
and exactly that is allocated. A quota without limit counts nothing. -/
structure Balanced (km₀ : Kmem Q) (db : Db S Q ss) : Prop where
  quota : ∀ q, db.km.quota q = (km₀.quota q).charge (bytesOn ramQuota q (allocs ss db.t))
  live : db.km.live.Perm (blocks (allocs ss db.t) ++ km₀.live)
  valid : ∀ q, (db.km.quota q).Valid

omit [DecidableEq S] [Spaces S Q] in
theorem quota_move {quotaOf : S → Q} {km km₁ : Kmem Q} {old new : S} {n : ℕ} {X Y : List (Charge S)}
    {bs : List ℕ} (hv : ∀ q, (km.quota q).Valid)
    (hb : ∀ q, km.quota q = (km₀.quota q).charge (bytesOn quotaOf q (X ++ ⟨bs, n, old⟩ :: Y)))
    (hal : km.quotaAlloc (quotaOf new) n = some km₁) (q : Q) :
    (km₁.quotaFree (quotaOf old) n).quota q =
      (km₀.quota q).charge (bytesOn quotaOf q (X ++ ⟨bs, n, new⟩ :: Y)) := by
  obtain ⟨r, hr, rfl⟩ := quotaAlloc_some hal
  have hsum : ∀ sp, bytesOn quotaOf q (X ++ ⟨bs, n, sp⟩ :: Y) =
      (if quotaOf sp = q then n else 0) + (bytesOn quotaOf q X + bytesOn quotaOf q Y) := by
    intro sp
    rw [bytesOn_append, bytesOn_cons]
    exact add_left_comm _ _ _
  have hq := hb q
  rw [hsum] at hq ⊢
  by_cases hsame : quotaOf new = quotaOf old
  · rw [hsame] at hr ⊢
    rw [quotaFree_of_alloc hr rfl, hq]
  · simp only [quotaFree]
    by_cases ho : q = quotaOf old
    · subst ho
      have hval := (hv (quotaOf old)).current
      rw [if_pos rfl] at hq
      rw [hq] at hval
      rw [update_self, update_of_ne (Ne.symm hsame), hq,
        RamQuota.free_charge hval, if_neg hsame, zero_add]
    · rw [update_of_ne ho]
      by_cases hn : q = quotaOf new
      · subst hn
        rw [if_neg (Ne.symm ho), zero_add] at hq
        rw [update_self, (RamQuota.alloc_eq_some hr).1, hq, RamQuota.charge_charge,
          if_pos rfl, add_comm]
      · rw [update_of_ne hn, hq, if_neg (Ne.symm ho), if_neg (Ne.symm hn)]

omit [DecidableEq S] in
theorem Balanced.grows (hb : Balanced km₀ db) {news : List (Charge S)}
    (hg : Grows ramQuota db.km db'.km news)
    (hperm : (allocs ss db'.t).Perm (news ++ allocs ss db.t)) : Balanced km₀ db' where
  quota q := by
    rw [hg.quota, hb.quota, RamQuota.charge_charge, bytesOn_perm _ _ hperm,
      bytesOn_append, add_comm]
  live := by
    refine hg.live.trans ?_
    refine ((hb.live.append_left _).trans ?_).trans ((blocks_perm hperm).symm.append_right _)
    rw [blocks_append, append_assoc]
  valid := hg.valid hb.valid

def Op.Conserves (db : Db S Q ss) : Op S → Prop
  | .insert _ _ => True
  | .grant f sp _ => ¬ GrantsSubmap (Q := Q) ss db.t f sp
  | .flush f me vs ve => ¬ FlushCovers ss db.t f me vs ve

def Db.Conserving (db : Db S Q ss) : List (Op S) → Prop
  | [] => True
  | op :: ops => op.Conserves db ∧ ∀ db', db.step op = some db' → db'.Conserving ops

section

variable (hs : Levels ps ss) (hinv : db.Inv ps) (hb : Balanced km₀ db)
include hs hinv hb

theorem Balanced.grant
    {sp : S} {va : ℕ} (hno : ¬ GrantsSubmap (Q := Q) ss db.t f sp) {ok : Bool}
    {km' : Kmem Q} (h : grant ss db.t db.km f sp va = some (t', ok, km')) : Balanced km₀ ⟨t', km'⟩ := by
  have hblocks := grant_blocks h
  obtain ⟨s', ss', t₀, plug, l, hat, hk, hop, rfl⟩ := onFrame_eq_some.mp h
  obtain ⟨A, B, hall⟩ := hat.allocs hk
  have hself : db.t = plug (t₀.set f.key (t₀.tree f.key)) := by
    rw [set_self t₀ rfl, hat.plug_self]
  obtain ⟨a, pre, old, pg, d, post, hm, hseek, ⟨-, rfl, rfl⟩ | ⟨-, rfl, hkm⟩⟩ := grantTree_cases hop
  · rw [← hself]
    exact hb
  obtain ⟨ps', par', hs', hwf', -⟩ := hat.wf hs hinv.wf
  have hlist := hwf'.tree _ hk
  rw [seek_eq_some hseek] at hself hlist
  obtain ⟨-, hpost, -, -⟩ := wfList_real_focus hlist
  have hold : allocs ss db.t = (A ++ allocsList (allocs ss') t₀.owner pre) ++
      ⟨[a], sizeofMapping, old⟩ :: (allocsList (allocs ss') old post ++ B) := by
    rw [hself, hall, allocsList_append]
    simp [allocsList]
  have hnew := hall (pre ++ .real a sp (truncToPage s' va) d ::
    mapSubmap (grantSubmap ss' s' sp (truncToPage s' va)) post)
  rw [allocsList_append] at hnew
  simp only [allocsList, append_assoc, cons_append] at hnew
  rw [← append_assoc] at hnew
  -- nothing changes for the quotas, or a single mapping moves
  have hquota : (∀ q, km'.quota q = (km₀.quota q).charge (bytesOn ramQuota q
      (allocs ss (plug (t₀.set f.key (pre ++ .real a sp (truncToPage s' va) d ::
        mapSubmap (grantSubmap ss' s' sp (truncToPage s' va)) post)))))) := by
    by_cases hqq : (ramQuota sp : Q) = ramQuota old
    · have hkq : km'.quota = db.km.quota := by
        rcases hkm with ⟨-, rfl⟩ | ⟨km₁, hal, rfl⟩
        · rfl
        · obtain ⟨r, hr, rfl⟩ := quotaAlloc_some hal
          rw [hqq] at hr ⊢
          exact quotaFree_of_alloc hr rfl
      intro q
      rw [hkq, hb.quota q]
      congr 1
      refine bytesOn_eq_of_tolls _ ?_ q
      rw [hold, hnew, tolls_append _ (A ++ _), tolls_append _ (A ++ _)]
      refine congrArg _ ?_
      change (sizeofMapping, ramQuota old) :: tolls _ _ =
        (sizeofMapping, ramQuota sp) :: tolls _ _
      rw [hqq, tolls_append, tolls_append, tolls_allocsList_mapSubmap
        (fun m hm => tolls_grantSubmap ss' s' sp _ hm hqq) hpost, tolls_allocsList_payer hqq]
    · have hnone : findSubmap post = none := by
        by_contra hsub
        exact hno ⟨s', ss', t₀, plug, a, pre, old, pg, d, post, hat, hm, hseek,
          Option.isSome_iff_ne_none.mpr hsub, Ne.symm hqq⟩
      have hnsub : noSub post := by
        cases post with
        | nil => trivial
        | cons x post =>
          cases x with
          | real b sp' pg' d' => trivial
          | sub b m => simp [findSubmap] at hnone
      have hmap : mapSubmap (grantSubmap ss' s' sp (truncToPage s' va)) post = post := by
        cases post with
        | nil => rfl
        | cons x post =>
          cases x with
          | real b sp' pg' d' => rfl
          | sub b m => exact absurd hnsub id
      rcases hkm with ⟨rfl, -⟩ | ⟨km₁, hal, rfl⟩
      · exact absurd rfl hqq
      intro q
      rw [hnone] at hal
      rw [hnew, hmap, allocsList_of_noSub hnsub sp old, hnone]
      refine quota_move hb.valid (fun q => ?_) hal q
      rw [hb.quota q, hold]
      simp
  have hlive : km'.live = db.km.live := by
    rcases hkm with ⟨-, rfl⟩ | ⟨km₁, hal, rfl⟩
    · rfl
    · obtain ⟨r, -, rfl⟩ := quotaAlloc_some hal
      rfl
  refine ⟨hquota, ?_, ?_⟩
  · simp only [hlive, hblocks]
    exact hb.live
  · rcases hkm with ⟨-, rfl⟩ | ⟨km₁, hal, rfl⟩
    · exact hb.valid
    · exact fun q => quotaFree_valid (quotaAlloc_valid hal hb.valid) _ _ q

omit [DecidableEq S] in
theorem Balanced.flush
    {me : Bool} {vs ve : ℕ} (hno : flushForgotten ss db.t f me vs ve = [])
    {cs : List (Charge S)} (h : flush ss db.t f me vs ve = some (t', cs)) :
    Balanced km₀ ⟨t', db.km.releaseAll ramQuota cs⟩ := by
  have hperm := flush_allocs hs hinv.wf h
  rw [hno, append_nil] at hperm
  have hcharge : ∀ q, db.km.quota q = (km₀.quota q).charge
      (bytesOn ramQuota q cs + bytesOn ramQuota q (allocs ss t')) := fun q => by
    rw [hb.quota q, bytesOn_perm _ _ hperm, bytesOn_append]
  obtain ⟨hq, hv⟩ := releaseAll_quota hcharge hb.valid
  refine ⟨hq, releaseAll_live ?_, hv⟩
  refine hb.live.trans ?_
  refine ((blocks_perm hperm).append_right _).trans ?_
  rw [blocks_append, append_assoc]

theorem Balanced.step {op : Op S}
    (hop : op.Conserves db) (hstep : db.step op = some db') : Balanced km₀ db' := by
  cases op with
  | insert f x =>
    obtain ⟨⟨t', r, km'⟩, hins, rfl⟩ := Option.map_eq_some_iff.mp hstep
    obtain ⟨news, hg, hperm⟩ := insert_allocs hs hinv.wf hins
    exact hb.grows hg hperm
  | grant f sp va =>
    obtain ⟨⟨t', ok, km'⟩, hgr, rfl⟩ := Option.map_eq_some_iff.mp hstep
    exact hb.grant hs hinv hop hgr
  | flush f me vs ve =>
    obtain ⟨⟨t', cs⟩, hfl, rfl⟩ := Option.map_eq_some_iff.mp hstep
    exact hb.flush hs hinv (flushForgotten_eq_nil hop) hfl

end

theorem Balanced.run (hs : Levels ps ss) (hinv : db.Inv ps) (hb : Balanced km₀ db)
    {ops : List (Op S)} (hops : db.Conserving ops) (hrun : db.run ops = some db') :
    Balanced km₀ db' := by
  induction ops generalizing db with
  | nil =>
    cases hrun
    exact hb
  | cons op ops ih =>
    obtain ⟨db₁, hstep, hrest⟩ := Option.bind_eq_some_iff.mp hrun
    exact ih (hinv.step hs hstep) (hb.step hs hinv hops.1 hstep) (hops.2 db₁ hstep) hrest

section

omit [DecidableEq S]

theorem Balanced.start {s : ℕ} {km : Kmem Q} (hv : ∀ q, (km.quota q).Valid) {db : Db S Q (s :: ss)}
    (h : start ps s ss km = some db) : Balanced km db := by
  obtain ⟨p, pf, ht, hg⟩ := start_cases h
  have hal : allocs (s :: ss) db.t = [⟨[p, pf], quotaSize (2 ^ (ps - s)), sigma0⟩] := by
    rw [ht]
    simp [allocs, allocsList]
  refine ⟨fun q => ?_, ?_, hg.valid hv⟩
  · rw [hg.quota, hal]
  · rw [hal]
    exact hg.live

theorem Balanced.destroy (hb : Balanced km₀ db) :
    (∀ q, (db.km.releaseAll ramQuota (del ss db.t)).quota q = km₀.quota q) ∧
      (db.km.releaseAll ramQuota (del ss db.t)).live.Perm km₀.live := by
  have hperm := del_perm ss db.t
  refine ⟨fun q => ?_, releaseAll_live ?_⟩
  · have hcharge : ∀ q, db.km.quota q = (km₀.quota q).charge
        (bytesOn ramQuota q (del ss db.t) + 0) := fun q => by
      rw [hb.quota q, bytesOn_perm _ _ hperm, add_zero]
    rw [(releaseAll_quota hcharge hb.valid).1 q, RamQuota.charge_zero]
  · exact hb.live.trans ((blocks_perm hperm).symm.append_right _)

end

theorem run_balanced {s : ℕ} (hs : Levels ps (s :: ss)) {km : Kmem Q}
    (hv : ∀ q, (km.quota q).Valid) {db₀ db : Db S Q (s :: ss)}
    (hstart : Mapdb.start ps s ss km = some db₀) {ops : List (Op S)} (hops : db₀.Conserving ops)
    (hrun : db₀.run ops = some db) :
    Balanced km db ∧
    (∀ q, (db.km.releaseAll ramQuota (del (s :: ss) db.t)).quota q = km.quota q) ∧
    (db.km.releaseAll ramQuota (del (s :: ss) db.t)).live.Perm km.live := by
  have hb := (Balanced.start hv hstart).run hs (Db.Inv.start hstart) hops hrun
  exact ⟨hb, hb.destroy⟩

namespace Small

def kmLimited : Kmem Task := { km with quota := fun _ => ⟨0, 1000000⟩ }

theorem kmLimited_valid (q : Task) : (kmLimited.quota q).Valid :=
  ⟨show (0 : ℕ) < 2 ^ 64 by norm_num, show (1000000 : ℕ) < 2 ^ 64 by norm_num⟩

def db₀ : Db Task Task [1, 0] := (start 2 1 [0] kmLimited).get (by decide +kernel)

def opsFlush : List (Op Task) := ops ++ [.flush ⟨[], 0, some 102⟩ true 4 6]

theorem opsFlush_conserving : db₀.Conserving opsFlush := by
  refine ⟨trivial, fun _ _ => ⟨trivial, fun _ _ => ⟨?_, fun _ _ => trivial⟩⟩⟩
  rintro ⟨-, -, -, -, -, -, -, -, -, -, -, hme, -, -⟩
  rcases hme with h | h <;> cases h

end Small

theorem small_balanced : ∃ db : Db Task Task [1, 0],
    db₀.run opsFlush = some db ∧ Balanced kmLimited db ∧
      (db.km.quota .t1).current = 0 ∧ db.km.live = [101, 100] := by
  refine ⟨(db₀.run opsFlush).get (by decide +kernel), (Option.some_get _).symm, ?_,
    by decide +kernel, by decide +kernel⟩
  exact (run_balanced levels kmLimited_valid (Option.some_get _).symm
    opsFlush_conserving (Option.some_get _).symm).1

/-- The first task grants its page pair, with a submap, to the third: it stays charged for
1016 bytes of a database in which it pays for nothing. -/
def grantedDb : Db Task Task [1, 0] :=
  (db₀.run (ops ++ [.grant ⟨[], 0, some 102⟩ .t3 0])).get (by decide +kernel)

def forgettingOps : List (Op Task) :=
  [.insert ⟨[], 0, none⟩ ⟨.t1, 0, 0, 4⟩, .insert ⟨[], 0, some 102⟩ ⟨.t2, 0, 0, 2⟩,
    .insert ⟨[(0, 103)], 0, some 106⟩ ⟨.t3, 0, 0, 1⟩, .flush ⟨[], 0, some 102⟩ false 0 2]

def forgottenDb : Db Task Task [2, 1, 0] :=
  ((start 2 2 [1, 0] kmLimited).bind fun db₀ => db₀.run forgettingOps).get (by decide +kernel)

theorem grant_and_flush_unbalanced :
    ((grantedDb.km.quota .t1).current = 1016 ∧ (grantedDb.km.quota .t3).current = 112 ∧
      bytesOn ramQuota Task.t1 (allocs [1, 0] grantedDb.t) = 0 ∧
      bytesOn ramQuota Task.t3 (allocs [1, 0] grantedDb.t) = 1128) ∧
    (forgottenDb.km.quota .t3).current = 24 ∧
      bytesOn ramQuota Task.t3 (allocs [2, 1, 0] forgottenDb.t) = 0 ∧
      110 ∈ forgottenDb.km.live ∧ 110 ∉ blocks (allocs [2, 1, 0] forgottenDb.t) := by
  decide +kernel

end Fiasco.Mapdb
