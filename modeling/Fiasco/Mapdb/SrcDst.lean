import Fiasco.Mapdb.Search

/-!
# The locks of lookups

`lookup` and `lookupSrcDst` return with the locks of the page frames they return and no
others, whatever the treemap looks like.
-/
namespace Fiasco.Mapdb

open LockTrace List

variable {S T : Type} {k : ℕ} {held : List Lock} {e : Event Lock} {tr : Trace} {r : SrcDst}

def Lock.root : Lock → ℕ
  | ([], k) => k
  | ((k, _) :: _, _) => k

theorem InFrame.root {x : Lock} (h : InFrame k x) : x.root = k := by
  obtain ⟨a, r, h⟩ := h
  obtain ⟨hops, key⟩ := x
  cases h
  rfl

theorem InFrame.ne {x : Lock} (h : InFrame k x) : x ≠ ([], k) := by
  obtain ⟨a, r, h⟩ := h
  rintro rfl
  cases h

def Inner (k : ℕ) (tr : Trace) : Prop :=
  ∃ mid fin, tr = mid ++ fin ∧ (∀ e ∈ mid, InFrame k e.lock) ∧
    ∀ e ∈ fin, ∃ y : Lock, e = .release y ∧ y.root = k

theorem Inner.root (h : Inner k tr) (he : e ∈ tr) : e.lock.root = k := by
  obtain ⟨mid, fin, rfl, hmid, hfin⟩ := h
  rcases mem_append.mp he with he | he
  · exact (hmid e he).root
  · obtain ⟨y, rfl, hy⟩ := hfin e he
    exact hy

def Enclosed (k : ℕ) (tr : Trace) : Prop :=
  ∃ mid fin, tr = .acquire ([], k) :: mid ++ fin ∧ (∀ e ∈ mid, InFrame k e.lock) ∧
    ∀ e ∈ fin, ∃ y : Lock, e = .release y ∧ y.root = k

theorem Enclosed.root (h : Enclosed k tr) (he : e ∈ tr) : e.lock.root = k := by
  obtain ⟨mid, fin, rfl, hmid, hfin⟩ := h
  rcases mem_cons.mp he with rfl | he
  · rfl
  · exact Inner.root ⟨mid, fin, rfl, hmid, hfin⟩ he

inductive SrcDst.Holds (r : SrcDst) (held : List Lock) : Prop
  | missing (hcode : r.code = -1) (hsrc : r.src = none) (hdst : r.dst = none) (hheld : held = [])
  | cleared (g : Frame) (hcode : r.code = 2) (hsrc : r.src = none) (hdst : r.dst = some g)
      (hheld : held = [g.lock])
  | one (f g : Frame) (hcode : 0 ≤ r.code) (hsrc : r.src = some f) (hdst : r.dst = some g)
      (hlock : f.lock = g.lock) (hheld : held = [g.lock])
  | two (f g : Frame) (hcode : 0 ≤ r.code) (hsrc : r.src = some f) (hdst : r.dst = some g)
      (hlock : f.lock ≠ g.lock) (hheld : held = [f.lock, g.lock] ∨ held = [g.lock, f.lock])

theorem Frame.lock_under (h : ℕ × ℕ) (f : Frame) : (f.under h).lock = Lock.under h f.lock := rfl

theorem SrcDst.Holds.retrace (hr : r.Holds held) (tr : Trace) :
    SrcDst.Holds { r with trace := tr } held := by
  cases hr with
  | missing hcode hsrc hdst hheld => exact .missing hcode hsrc hdst hheld
  | cleared g hcode hsrc hdst hheld => exact .cleared g hcode hsrc hdst hheld
  | one f g hcode hsrc hdst hlock hheld => exact .one f g hcode hsrc hdst hlock hheld
  | two f g hcode hsrc hdst hlock hheld => exact .two f g hcode hsrc hdst hlock hheld

theorem SrcDst.Holds.under (hr : r.Holds held) (h : ℕ × ℕ) :
    (r.under h).Holds (held.map (Lock.under h)) := by
  cases hr with
  | missing hcode hsrc hdst hheld =>
    exact .missing hcode (by simp [SrcDst.under, hsrc]) (by simp [SrcDst.under, hdst])
      (by simp [hheld])
  | cleared g hcode hsrc hdst hheld =>
    exact .cleared (g.under h) hcode (by simp [SrcDst.under, hsrc]) (by simp [SrcDst.under, hdst])
      (by simp [hheld, Frame.lock_under])
  | one f g hcode hsrc hdst hlock hheld =>
    exact .one (f.under h) (g.under h) hcode (by simp [SrcDst.under, hsrc])
      (by simp [SrcDst.under, hdst]) (by rw [Frame.lock_under, hlock, Frame.lock_under])
      (by simp [hheld, Frame.lock_under])
  | two f g hcode hsrc hdst hlock hheld =>
    refine .two (f.under h) (g.under h) hcode (by simp [SrcDst.under, hsrc])
      (by simp [SrcDst.under, hdst]) ?_ ?_
    · exact fun he => hlock (Lock.under_injective h he)
    · rcases hheld with rfl | rfl
      · exact .inl rfl
      · exact .inr rfl

section Lookup

variable [DecidableEq S] {Q : Type} [Spaces S Q]

section

variable (s : ℕ) (ss : List ℕ) (t : TreemapOf S (Treemap S ss))

section

variable (key : ℕ) (spc : S) (va : ℕ)

theorem lookup_locks :
    exec (lookup s ss t key spc va).2 [] =
      some ((lookup s ss t key spc va).1.map Frame.lock).toList := by
  have hl := lookupFrom_locks spc va s ss key (truncToPage s key) ⟨-1, -1⟩
    (t.tree (truncToPage s key))
  have hheld := hl.held
  simp only [lookup]
  split_ifs
  · rfl
  · rw [Looked.held] at hheld
    split
    · next inSub f hfound =>
      rw [hfound] at hheld
      cases inSub with
      | true => exact (exec_around hl.inFrame hheld).2
      | false =>
        simp only [Bool.false_eq_true, if_false, append_nil]
        rw [(exec_around hl.inFrame hheld).1, nil_append, ← hl.here f hfound]
        rfl
    · next hfound =>
      rw [hfound] at hheld
      exact (exec_around hl.inFrame hheld).2

theorem lookup_shape : Enclosed (truncToPage s key) (lookup s ss t key spc va).2 := by
  have hin := (lookupFrom_locks spc va s ss key (truncToPage s key) ⟨-1, -1⟩
    (t.tree (truncToPage s key))).inFrame
  simp only [lookup]
  split_ifs
  · exact ⟨[], [], rfl, fun e he => absurd he not_mem_nil, fun e he =>
      absurd he not_mem_nil⟩
  · split
    · refine ⟨_, _, rfl, hin, fun e he => ?_⟩
      split_ifs at he
      · exact ⟨_, mem_singleton.mp he, rfl⟩
      · exact absurd he not_mem_nil
    · exact ⟨_, _, rfl, hin, fun e he => ⟨_, mem_singleton.mp he, rfl⟩⟩

theorem lookup_root : ∀ e ∈ (lookup s ss t key spc va).2, e.lock.root = truncToPage s key :=
  fun _ he => (lookup_shape s ss t key spc va).root he

end

end

structure SrcDst.InTree (k : ℕ) (r : SrcDst) (held : List Lock) : Prop where
  exec : exec r.trace [([], k)] = some held
  holds : r.Holds held
  shape : Inner k r.trace

theorem SrcDst.InTree.prepend {k : ℕ} {r : SrcDst} {held : List Lock} (h : r.InTree k held)
    {tr : Trace} (htr : LockTrace.exec tr [] = some []) (hin : ∀ e ∈ tr, InFrame k e.lock) :
    SrcDst.InTree k { r with trace := tr ++ r.trace } held where
  exec := exec_trans (exec_frame_self hin htr) h.exec
  holds := h.holds.retrace _
  shape := by
    obtain ⟨mid, fin, htrace, hmid, hfin⟩ := h.shape
    refine ⟨tr ++ mid, fin, by rw [htrace, append_assoc], fun e he => ?_, hfin⟩
    exact (mem_append.mp he).elim (hin e) (hmid e)

section Tree

variable {k : ℕ} {r : Looked} {f : Frame}

section

variable (h : r.Locks k)
include h

theorem Looked.Locks.missing (hfound : r.found = none) :
    SrcDst.InTree k ⟨-1, none, none, r.trace ++ [.release ([], k)]⟩ [] where
  exec := by
    have hheld := h.held
    rw [Looked.held, hfound] at hheld
    exact exec_trans (exec_frame_self h.inFrame hheld) (exec_release_last not_mem_nil)
  holds := .missing rfl rfl rfl rfl
  shape := ⟨r.trace, _, rfl, h.inFrame, fun e he => ⟨_, mem_singleton.mp he, rfl⟩⟩

theorem Looked.Locks.exec_here (hfound : r.found = some (false, f)) :
    exec r.trace [([], k)] = some [([], k)] := by
  have hheld := h.held
  rw [Looked.held, hfound] at hheld
  exact exec_frame_self h.inFrame hheld

theorem Looked.Locks.exec_below (hfound : r.found = some (true, f)) :
    exec r.trace [([], k)] = some [f.lock, ([], k)] ∧ InFrame k f.lock := by
  have hheld := h.held
  rw [Looked.held, hfound] at hheld
  refine ⟨exec_frame_self h.inFrame hheld, ?_⟩
  rcases exec_mem hheld (mem_singleton.mpr rfl) with hmem | hmem
  · exact absurd hmem not_mem_nil
  · exact h.inFrame _ hmem

theorem findDst_inTree (fs : Frame) (hfs : fs.lock = ([], k)) :
    ∃ held, (findDst k fs r).InTree k held := by
  have hshape : Inner k r.trace :=
    ⟨r.trace, [], by simp, h.inFrame, fun e he => absurd he not_mem_nil⟩
  unfold findDst
  split
  · next fd hfound =>
    have hfd := h.here fd hfound
    refine ⟨_, h.exec_here hfound, .one fs fd ?_ rfl rfl (hfs.trans hfd.symm) ?_, hshape⟩
    · dsimp only
      split_ifs <;> decide
    · rw [hfd]
  · next fd hfound =>
    obtain ⟨hex, hin⟩ := h.exec_below hfound
    refine ⟨_, hex, .two fs fd ?_ rfl rfl (fun he => hin.ne (he.symm.trans hfs)) ?_, hshape⟩
    · dsimp only
      split_ifs <;> decide
    · exact .inr (by rw [hfs])
  · next hfound => exact ⟨_, h.missing hfound⟩

theorem findSrc_inTree (fd : Frame) (hfd : fd.lock = ([], k)) :
    ∃ held, (findSrc k fd r).InTree k held := by
  have hshape : Inner k r.trace :=
    ⟨r.trace, [], by simp, h.inFrame, fun e he => absurd he not_mem_nil⟩
  unfold findSrc
  split
  · next fs hfound =>
    have hfs := h.here fs hfound
    refine ⟨_, h.exec_here hfound, .one fs fd ?_ rfl rfl (hfs.trans hfd.symm) ?_, hshape⟩
    · dsimp only
      split_ifs <;> decide
    · rw [hfd]
  · next fs hfound =>
    obtain ⟨hex, hin⟩ := h.exec_below hfound
    split_ifs
    · exact ⟨[([], k)], exec_trans hex (exec_release_head _ _),
        .cleared fd rfl rfl rfl (by rw [hfd]), r.trace, _, rfl, h.inFrame,
        fun e he => ⟨_, mem_singleton.mp he, hin.root⟩⟩
    · exact ⟨_, hex, .two fs fd (show (0 : ℤ) ≤ 1 by decide) rfl rfl (fun he => hin.ne (he.trans hfd))
        (.inl (by rw [hfd])), hshape⟩
  · next hfound => exact ⟨_, h.missing hfound⟩

end

theorem firstLoop_locks {nested : ℕ → T → SrcDst} (s : ℕ) (src dst : Query S)
    (hn : ∀ a m, ∃ held, exec (nested a m).trace [] = some held ∧ (nested a m).Holds held)
    (hin : ∀ a m, ∀ e ∈ (nested a m).trace, InFrame k e.lock) (l : List (Mapping S T)) :
    (∀ e ∈ (firstLoop nested s src dst l).2, InFrame k e.lock) ∧
      (match (firstLoop nested s src dst l).1 with
        | .inSub r => ∃ held, exec (firstLoop nested s src dst l).2 [] = some held ∧ r.Holds held
        | _ => exec (firstLoop nested s src dst l).2 [] = some []) := by
  induction l with
  | nil => exact ⟨fun e he => absurd he not_mem_nil, rfl⟩
  | cons x l ih =>
    cases x with
    | real a sp pg d =>
      simp only [firstLoop]
      split_ifs
      · exact ⟨fun e he => absurd he not_mem_nil, rfl⟩
      · exact ih
    | sub a m =>
      obtain ⟨held, hex, hholds⟩ := hn a m
      simp only [firstLoop]
      split_ifs with hcode
      · exact ⟨hin a m, held, hex, hholds⟩
      · have hnil : held = [] := by
          cases hholds with
          | missing hcode' hsrc hdst hheld => exact hheld
          | cleared g hcode' => omega
          | one f g hcode' | two f g hcode' => exact absurd hcode' hcode
        rw [hnil] at hex
        refine ⟨fun e he => (mem_append.mp he).elim (hin a m e) (ih.1 e), ?_⟩
        have ih2 := ih.2
        split at ih2
        · next r hr =>
          obtain ⟨held', hex', hr'⟩ := ih2
          rw [hr]
          exact ⟨held', exec_trans hex hex', hr'⟩
        · exact exec_trans hex ih2

theorem srcDstTree_inTree (nested : ℕ → T → SrcDst)
    (search : Query S → Depths → List (Mapping S T) → Looked) (s : ℕ) (src dst : Query S)
    (hn : ∀ a m, ∃ held, exec (nested a m).trace [] = some held ∧ (nested a m).Holds held)
    (hin : ∀ a m, ∀ e ∈ (nested a m).trace, InFrame k e.lock)
    (hsearch : ∀ q ds l, (search q ds l).Locks k) (l : List (Mapping S T)) :
    ∃ held, (srcDstTree nested search s k src dst l).InTree k held := by
  unfold srcDstTree
  split_ifs
  · exact findDst_inTree (hsearch _ _ _) _ rfl
  obtain ⟨hfirst, hex⟩ := firstLoop_locks s src dst hn hin l
  split
  · next tr heq =>
    rw [heq] at hfirst hex
    exact ⟨[], exec_trans (exec_frame_self hfirst hex) (exec_release_last not_mem_nil),
      .missing rfl rfl rfl rfl, tr, _, rfl, hfirst, fun e he => ⟨_, mem_singleton.mp he, rfl⟩⟩
  · next r tr heq =>
    rw [heq] at hfirst hex
    obtain ⟨held, hex, hr⟩ := hex
    exact ⟨held, exec_trans (exec_frame_self hfirst hex)
      (exec_release_last (not_mem_of_inFrame hfirst hex)), hr.retrace _, tr, _, rfl, hfirst,
      fun e he => ⟨_, mem_singleton.mp he, rfl⟩⟩
  · next a d rest tr heq =>
    rw [heq] at hfirst hex
    exact ⟨[([], k)], exec_frame_self hfirst hex,
      .one _ _ (show (0 : ℤ) ≤ 2 by decide) rfl rfl rfl rfl, tr, [], by simp, hfirst,
      fun e he => absurd he not_mem_nil⟩
  · next a d rest tr heq =>
    rw [heq] at hfirst hex
    obtain ⟨held, h⟩ := findDst_inTree (hsearch dst ⟨d, d⟩ rest) ⟨[], k, some a⟩ rfl
    exact ⟨held, h.prepend hex hfirst⟩
  · next a b d rest tr heq =>
    rw [heq] at hfirst hex
    obtain ⟨held, h⟩ := findSrc_inTree (hsearch src ⟨d, d⟩ rest) ⟨[], k, some a⟩ rfl
    exact ⟨held, h.prepend hex hfirst⟩

end Tree

variable {src dst : Query S}

theorem exec_lookups (s : ℕ) (ss : List ℕ) (t : TreemapOf S (Treemap S ss))
    (hk : truncToPage s src.key ≠ truncToPage s dst.key) {held : List Lock}
    (hheld : ∀ x ∈ held, x.root = truncToPage s dst.key) :
    exec (lookup s ss t src.key src.space src.va).2 held =
      some (((lookup s ss t src.key src.space src.va).1.map Frame.lock).toList ++ held) := by
  have h := exec_frame (lookup_locks s ss t src.key src.space src.va) (H := held) fun e he hin =>
    hk ((lookup_root s ss t _ _ _ e he).symm.trans (hheld _ hin))
  exact h

theorem lookupSrcDst_eq_tree (s : ℕ) (ss : List ℕ) (t : TreemapOf S (Treemap S ss))
    (hk : truncToPage s src.key = truncToPage s dst.key) : ∃ r, lookupSrcDst (s :: ss) t src dst =
        { r with trace := .acquire ([], truncToPage s dst.key) :: r.trace } ∧
      ((∀ (m : Treemap S ss) (src dst : Query S), ∃ held,
        exec (lookupSrcDst ss m src dst).trace [] = some held ∧
        (lookupSrcDst ss m src dst).Holds held) →
        ∃ held, SrcDst.InTree (truncToPage s dst.key) r held) := by
  refine ⟨_, by rw [lookupSrcDst, if_neg (not_not.mpr hk)], fun h => ?_⟩
  refine srcDstTree_inTree _ _ s src dst (fun a m => ?_) (fun a m e he => ?_)
    (fun q ds l => lookupFrom_locks _ _ _ _ _ _ _ _) _
  · obtain ⟨held, hex, hr⟩ := h m { src with key := getLsb src.key s }
      { dst with key := getLsb dst.key s }
    exact ⟨_, exec_under hex, hr.under _⟩
  · exact inFrame_under (h := (truncToPage s dst.key, a)) he

theorem lookupSrcDst_locks (ss : List ℕ) (t : Treemap S ss) (src dst : Query S) :
    ∃ held, exec (lookupSrcDst ss t src dst).trace [] = some held ∧
      (lookupSrcDst ss t src dst).Holds held := by
  induction ss generalizing src dst with
  | nil => exact nomatch t
  | cons s ss ih =>
    by_cases hk : truncToPage s src.key = truncToPage s dst.key
    · obtain ⟨r, hr, hin⟩ := lookupSrcDst_eq_tree s ss t hk
      obtain ⟨held, h⟩ := hin ih
      rw [hr]
      exact ⟨held, by rw [exec_acquire not_mem_nil]; exact h.exec, h.holds.retrace _⟩
    · simp only [lookupSrcDst, if_pos (show truncToPage s src.key ≠ truncToPage s dst.key from hk)]
      have hd := lookup_locks s ss t dst.key dst.space dst.va
      have hroot := lookup_root s ss t dst.key dst.space dst.va
      split
      · next trd heq =>
        rw [heq] at hd
        exact ⟨[], hd, .missing rfl rfl rfl rfl⟩
      · next fd trd heq =>
        rw [heq] at hd hroot
        have hfd : ∀ x ∈ [fd.lock], x.root = truncToPage s dst.key := by
          intro x hx
          rcases exec_mem hd hx with h | h
          · exact absurd h not_mem_nil
          · exact hroot _ h
        have hs := exec_lookups s ss t hk hfd
        have hsroot := lookup_root s ss t src.key src.space src.va
        split
        · next trs heq' =>
          rw [heq'] at hs
          refine ⟨[], ?_, .missing rfl rfl rfl rfl⟩
          rw [append_assoc]
          exact exec_trans hd (exec_trans hs (exec_release_head _ _))
        · next fs trs heq' =>
          rw [heq'] at hs hsroot
          refine ⟨[fs.lock, fd.lock], exec_trans hd hs,
            .two fs fd (show (0 : ℤ) ≤ 1 by decide) rfl rfl (fun he => ?_) (.inl rfl)⟩
          have h1 : fs.lock.root = truncToPage s src.key := by
            have hex := lookup_locks s ss t src.key src.space src.va
            rw [heq'] at hex
            rcases exec_mem hex (mem_singleton.mpr rfl) with h | h
            · exact absurd h not_mem_nil
            · exact hsroot _ h
          exact hk (h1.symm.trans (he ▸ hfd _ mem_cons_self))

theorem lookupSrcDst_enclosed (s : ℕ) (ss : List ℕ) (t : TreemapOf S (Treemap S ss))
    (hk : truncToPage s src.key = truncToPage s dst.key) :
    Enclosed (truncToPage s dst.key) (lookupSrcDst (s :: ss) t src dst).trace := by
  obtain ⟨r, hr, hin⟩ := lookupSrcDst_eq_tree s ss t hk
  obtain ⟨held, h⟩ := hin (lookupSrcDst_locks ss)
  obtain ⟨mid, fin, htr, hmid, hfin⟩ := h.shape
  exact ⟨mid, fin, by rw [hr, htr]; rfl, hmid, hfin⟩

end Lookup

end Fiasco.Mapdb
