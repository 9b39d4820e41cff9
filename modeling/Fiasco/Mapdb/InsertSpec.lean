import Fiasco.Mapdb.FlushAllocs
import Fiasco.Mapdb.GrantSpec

/-!
# Inserting a mapping

`Inserted` lists the ways `Treemap::insert` can end, following its recursion into the
submaps: it runs out of depth, quota or memory and leaves the tree as it was, or it puts
one new mapping below the parent.
-/
namespace Fiasco.Mapdb

open DepthList List Option TreemapOf Spaces Kmem

variable {S T Q : Type} [DecidableEq Q] [Spaces S Q] {s : ℕ} {ss : List ℕ} {va : ℕ} {s' : ℕ}
  {m : TreemapOf S (Treemap S ss)} {x : Target S} {sp : S}

def childDepth : Option ℕ → ℕ
  | none => 0
  | some d => d + 1

def subKey (s s' phys : ℕ) : ℕ := truncToPage s' (maskLsb (getLsb phys s) s')

inductive SubmapFor (s s' : ℕ) (sp : S) (va : ℕ) : Kmem Q → List (Mapping S (TreemapOf S T)) →
    Option ((ℕ × TreemapOf S T) × List (Mapping S (TreemapOf S T))) → Kmem Q → Prop
  | found {km a m rest} : SubmapFor s s' sp va km (.sub a m :: rest) (some ((a, m), rest)) km
  | noNode {km km₁ post} (hn : noSub post)
      (hq : km.qAlloc (ramQuota sp) sizeofMapping = (none, km₁)) :
      SubmapFor s s' sp va km post none km₁
  | noSubmap {km km₁ km₂ post a} (hn : noSub post)
      (hq : km.qAlloc (ramQuota sp) sizeofMapping = (some a, km₁))
      (hc : create (T := T) s sp va s' km₁ = (none, km₂)) :
      SubmapFor s s' sp va km post none
        ((km₂.free a).quotaFree (ramQuota sp) sizeofMapping)
  | made {km km₁ km₂ post a m} (hn : noSub post)
      (hq : km.qAlloc (ramQuota sp) sizeofMapping = (some a, km₁))
      (hc : create s sp va s' km₁ = (some m, km₂)) :
      SubmapFor s s' sp va km post (some ((a, m), post)) km₂

theorem submapFor_cases (s s' : ℕ) (sp : S) (va : ℕ) (km : Kmem Q)
    (post : List (Mapping S (TreemapOf S T))) :
    SubmapFor s s' sp va km post (submapFor s s' sp va km post).1
      (submapFor s s' sp va km post).2 := by
  have hmain : noSub post → SubmapFor s s' sp va km post
      ((makeSubmap (T := T) s s' sp va km).1.map fun am => (am, post))
      (makeSubmap (T := T) s s' sp va km).2 := by
    intro hn
    simp only [makeSubmap]
    split
    · exact .noNode hn ‹_›
    · split
      · exact .noSubmap hn ‹_› ‹_›
      · exact .made hn ‹_› ‹_›
  cases post with
  | nil => exact hmain trivial
  | cons y post =>
    cases y with
    | real a sp' pg d => exact hmain trivial
    | sub a m => exact .found

inductive Inserted (x : Target S) : (s : ℕ) → (ss : List ℕ) → Option ℕ → S → ℕ → Kmem Q →
    List (Mapping S (Treemap S ss)) → List (Mapping S (Treemap S ss)) → Option ℕ → Kmem Q → Prop
  | tooDeep {s ss sp va km post} (hsize : 2 ^ s = x.size) :
      Inserted x s ss (some 255) sp va km post post none km
  | noMapping {s ss pd sp va km km₁ post} (hsize : 2 ^ s = x.size)
      (hq : km.qAlloc (ramQuota x.space) sizeofMapping = (none, km₁)) :
      Inserted x s ss pd sp va km post post none km₁
  | mapping {s ss pd sp va km km₁ post a} (hsize : 2 ^ s = x.size) (hd : pd ≠ some 255)
      (hq : km.qAlloc (ramQuota x.space) sizeofMapping = (some a, km₁)) :
      Inserted x s ss pd sp va km post
        (allocate (.real a x.space (truncToPage s x.va) (childDepth pd)) post) (some a) km₁
  | noSubmap {s s' ss pd sp va km km₁ post} (hsize : 2 ^ s ≠ x.size)
      (hm : SubmapFor s s' sp va km post none km₁) :
      Inserted x s (s' :: ss) pd sp va km post post none km₁
  | submap {s s' ss pd sp va km km₁ km₂ a post rest l' r} {m : TreemapOf S (Treemap S ss)}
      (hsize : 2 ^ s ≠ x.size) (hm : SubmapFor s s' sp va km post (some ((a, m), rest)) km₁)
      (h : Inserted x s' ss none sp (va + maskLsb (getLsb x.phys s) s') km₁
        (m.tree (subKey s s' x.phys)) l' r km₂) :
      Inserted x s (s' :: ss) pd sp va km post
        (.sub a (m.set (subKey s s' x.phys) l') :: rest) r km₂

theorem insertMapping_inserted (hsize : 2 ^ s = x.size) (ss : List ℕ) (pd : Option ℕ)
    (sp : S) (va : ℕ) (km : Kmem Q) (post : List (Mapping S (Treemap S ss))) :
    Inserted x s ss pd sp va km post (insertMapping x s pd km post).1
      (insertMapping x s pd km post).2.1 (insertMapping x s pd km post).2.2 := by
  by_cases hd : pd = some 255
  · subst hd
    exact .tooDeep hsize
  · simp only [insertMapping, if_neg hd]
    split
    · exact .noMapping hsize ‹_›
    · cases pd with
      | none | some d => exact .mapping hsize hd ‹_›

theorem insertAfter_inserted {pd : Option ℕ} {km km' : Kmem Q}
    {post post' : List (Mapping S (Treemap S ss))} {r : Option ℕ}
    (h : insertAfter x s ss pd sp va km post = some (post', r, km')) :
    Inserted x s ss pd sp va km post post' r km' := by
  induction ss generalizing s pd va km r km' with
  | nil =>
    rw [insertAfter] at h
    split_ifs at h with hsize
    have hins := insertMapping_inserted hsize [] pd sp va km post
    rwa [some.inj h] at hins
  | cons s' ss ih =>
    rw [insertAfter] at h
    split_ifs at h with hsize
    · have hins := insertMapping_inserted hsize (s' :: ss) pd sp va km post
      rwa [some.inj h] at hins
    · have hsub := submapFor_cases s s' sp va km post
      revert h hsub
      cases hres : submapFor s s' sp va km post with
      | mk o km₁ =>
        intro h hsub
        cases o with
        | none =>
          simp only [some.injEq, Prod.mk.injEq] at h
          obtain ⟨rfl, rfl, rfl⟩ := h
          exact .noSubmap hsize hsub
        | some q =>
          simp only [map_eq_some_iff] at h
          obtain ⟨⟨l', r', km₂⟩, hrec, he⟩ := h
          simp only [Prod.mk.injEq] at he
          obtain ⟨rfl, rfl, rfl⟩ := he
          exact .submap hsize hsub (ih hrec)

theorem subKey_eq (s s' phys : ℕ) : subKey s s' phys = getLsb phys s / 2 ^ s' := by
  rw [subKey, truncToPage, maskLsb, Nat.mul_div_cancel _ (Nat.two_pow_pos s')]

theorem subKey_lt (h : s' ≤ s) (phys : ℕ) : subKey s s' phys < 2 ^ (s - s') := by
  rw [subKey_eq, Nat.div_lt_iff_lt_mul (Nat.two_pow_pos s'), ← pow_add, Nat.sub_add_cancel h]
  exact Nat.mod_lt _ (Nat.two_pow_pos s)

theorem subKey_mul (s s' phys : ℕ) : subKey s s' phys * 2 ^ s' = maskLsb (getLsb phys s) s' := by
  rw [subKey_eq, maskLsb]

section Memory

inductive Created (pshift : ℕ) (owner : S) (pageOffset s : ℕ) (km : Kmem Q) :
    Option (TreemapOf S T) → Kmem Q → Prop
  | failed {km'} (hg : Grows ramQuota km km' ([] : List (Charge S))) :
      Created pshift owner pageOffset s km none km'
  | created {km' p pf} (hg : Grows ramQuota km km'
        [⟨[p, pf], quotaSize (2 ^ (pshift - s)), owner⟩]) :
      Created pshift owner pageOffset s km
        (some ⟨p, pf, 2 ^ (pshift - s), owner, pageOffset, fun _ => []⟩) km'

theorem create_created (pshift : ℕ) (owner : S) (pageOffset s : ℕ) (km : Kmem Q) :
    Created pshift owner pageOffset s km
      (create (T := T) pshift owner pageOffset s km).1
      (create (T := T) pshift owner pageOffset s km).2 := by
  simp only [create]
  split
  · exact .failed (Grows.refl km)
  rename_i km₁ hq
  obtain ⟨r, hr, rfl⟩ := quotaAlloc_some hq
  have hback : ∀ km' : Kmem Q, km.next ≤ km'.next → km'.live = km.live →
      km'.quota = Function.update km.quota (ramQuota owner) r →
      Created pshift owner pageOffset s km (none : Option (TreemapOf S T))
        (km'.quotaFree (ramQuota owner) (quotaSize (2 ^ (pshift - s)))) := by
    intro km' hnext hlive hquota
    refine .failed ⟨hnext, by simp, by simp, ?_, fun p => ?_, fun hv p => ?_⟩
    · rw [quotaFree, hlive]
      exact Perm.refl _
    · rw [quotaFree_of_alloc hr hquota]
      simp [bytesOn]
    · rw [quotaFree_of_alloc hr hquota]
      exact hv p
  split
  · rename_i km₂ ha
    have h₂ := alloc_none ha
    exact hback _ (by simp [h₂]) (by rw [h₂]) (by rw [h₂])
  rename_i pf km₂ ha
  obtain ⟨rfl, h₂⟩ := alloc_some ha
  split
  · rename_i km₃ hb
    have h₃ := alloc_none hb
    refine hback _ ?_ ?_ ?_
    · simp only [free, h₃, h₂]
      omega
    · simp [free, h₃, h₂]
    · simp [free, h₃, h₂]
  · rename_i p km₃ hb
    obtain ⟨rfl, h₃⟩ := alloc_some hb
    refine .created ⟨?_, ?_, ?_, ?_, fun q => ?_, fun hv q => ?_⟩
    · simp only [h₃, h₂]
      omega
    · simp only [h₃, h₂, blocks_cons, blocks_nil, append_nil, mem_cons, not_mem_nil, or_false]
      omega
    · simp [h₂]
    · simp [h₃, h₂]
    · rw [h₃, h₂]
      by_cases hqo : q = ramQuota owner
      · subst hqo
        simp [bytesOn, (RamQuota.alloc_eq_some hr).1]
      · simp [bytesOn, Function.update_of_ne hqo, Ne.symm hqo]
    · rw [h₃, h₂]
      exact quotaAlloc_valid hq hv q

theorem SubmapFor.spec {s s' : ℕ} {sp : S} {va : ℕ} {km km₁ : Kmem Q}
    {post rest : List (Mapping S (TreemapOf S T))} {a : ℕ} {m : TreemapOf S T}
    (h : SubmapFor s s' sp va km post (some ((a, m), rest)) km₁) :
    (post = .sub a m :: rest ∧ km₁ = km) ∨
      (noSub post ∧ rest = post ∧
        (∃ p pf, m = ⟨p, pf, 2 ^ (s - s'), sp, va, fun _ => []⟩) ∧
        Grows ramQuota km km₁
          [⟨[m.ptr, m.physframe], quotaSize m.keyEnd, sp⟩, ⟨[a], sizeofMapping, sp⟩]) := by
  cases h with
  | found => exact .inl ⟨rfl, rfl⟩
  | made hn hq hc =>
    have hcr := create_created (T := T) s sp va s' ‹Kmem Q›
    rw [hc] at hcr
    cases hcr with
    | created hg =>
      exact .inr ⟨hn, rfl, ⟨_, _, rfl⟩, (qAlloc_some rfl hq).trans hg⟩

theorem SubmapFor.failed {s s' : ℕ} {sp : S} {va : ℕ} {km km₁ : Kmem Q}
    {post : List (Mapping S (TreemapOf S T))} (h : SubmapFor s s' sp va km post none km₁) :
    Grows ramQuota km km₁ ([] : List (Charge S)) := by
  cases h with
  | noNode hn hq => exact qAlloc_none hq
  | noSubmap hn hq hc =>
    rename_i km' km'' a
    have hcr := create_created (T := T) s sp va s' km'
    rw [hc] at hcr
    cases hcr with
    | failed hg =>
      exact qAlloc_release (ramQuota (S := S)) hq hg

end Memory

variable {par : S × ℕ}

section Tree

variable {nested : ℕ → List (Node S) → T → List (List (Node S))} {wfn : S × ℕ → T → Prop} {cap : ℕ}
  {l : List (Mapping S T)} {st : List (ℕ × Node S)}

theorem chainsList_new {fr : Bool} (h : wfList s wfn cap par fr l) (hn : noSub l) (phys : ℕ)
    (up : List (Node S)) (hst : ∀ e ∈ st, e.1 < cap) (a : ℕ) (sp : S)
    (pg : ℕ) : chainsList s nested phys up st (.real a sp pg cap :: l) =
      (label s phys a sp pg :: (path st ++ up)) :: chainsList s nested phys up st l := by
  have hopen : st.dropWhile (fun e => cap ≤ e.1) = st := by
    cases st with
    | nil => rfl
    | cons e st =>
      have := hst e mem_cons_self
      rw [dropWhile_cons, if_neg (by simpa using this)]
  set new : Mapping S T := .real a sp pg cap with hnew
  have hrest : chainsList s nested phys up (stack (Mapping.view s phys) st [new]) l =
      chainsList s nested phys up st l := by
    refine scan_of_head (p := cap) _ (by simp [hnew, atLeast, Mapping.view]) ?_ st
    rintro x r rfl
    cases x with
    | real b sp' pg' d => exact ⟨d, _, rfl, by exact_mod_cast h.1⟩
    | sub b m => exact absurd hn id
  rw [← hrest, chainsList_cons]
  simp [hnew, chainsItem, advance, stack, Mapping.view, hopen, path]

theorem chainsList_allocate (nested : ℕ → List (Node S) → T → List (List (Node S)))
    (h : wfList s wfn cap par true l) (phys : ℕ) (up : List (Node S))
    (hst : ∀ e ∈ st, e.1 < cap) (a : ℕ) (sp : S) (pg : ℕ) :
    ∃ C D, chainsList s nested phys up st l = C ++ D ∧
      chainsList s nested phys up st (allocate (.real a sp pg cap) l) =
        C ++ (label s phys a sp pg :: (path st ++ up)) :: D := by
  cases l with
  | nil => exact ⟨[], [], rfl, chainsList_new h trivial phys up hst a sp pg⟩
  | cons x l =>
    cases x with
    | real b sp' pg' d =>
      exact ⟨[], _, rfl, chainsList_new h trivial phys up hst a sp pg⟩
    | sub b m =>
      refine ⟨nested phys (path st ++ up) m, _, chainsList_sub .., ?_⟩
      rw [allocate, chainsList_sub, chainsList_new h.2.2 (wfList_noSub h.2.2) phys up hst a sp pg]

theorem wfList_allocate (h : wfList s wfn cap par true l) (hcap : cap ≤ 255) (a : ℕ) (sp : S)
    (pg : ℕ) : wfList s wfn cap par true (allocate (.real a sp pg cap) l) := by
  have hnew : ∀ {l : List (Mapping S T)} {fr : Bool}, wfList s wfn cap par fr l → noSub l →
      wfList s wfn cap par fr (.real a sp pg cap :: l) :=
    fun hl hn => ⟨le_rfl, hcap, wfList_of_noSub hl hn (Nat.le_succ cap) _ _⟩
  cases l with
  | nil => exact hnew h trivial
  | cons x l =>
    cases x with
    | real b sp' pg' d => exact hnew h trivial
    | sub b m => exact ⟨h.1, h.2.1, hnew h.2.2 (wfList_noSub h.2.2)⟩

theorem allocsList_allocate {nested : T → List (Charge S)} (h : wfList s wfn cap par true l) (q : S)
    (a : ℕ) (sp : S) (pg d : ℕ) : (allocsList nested q (allocate (.real a sp pg d) l)).Perm
      (⟨[a], sizeofMapping, sp⟩ :: allocsList nested q l) := by
  cases l with
  | nil => exact Perm.refl _
  | cons x l =>
    cases x with
    | real b sp' pg' d' => exact Perm.refl _
    | sub b m =>
      rw [allocate, allocsList, allocsList, allocsList,
        allocsList_of_noSub (wfList_noSub h.2.2) sp q]
      exact perm_middle

end Tree

theorem SubmapFor.wf {km km₁ : Kmem Q} {post rest : List (Mapping S (Treemap S (s' :: ss)))} {a : ℕ}
    (h : SubmapFor s s' sp va km post (some ((a, m), rest)) km₁) {cap : ℕ}
    (hwf : wfList s (Mapdb.wf (s' :: ss) s) cap (sp, va) true post) :
    wfOf s' (Mapdb.wf ss s') s (sp, va) m ∧ noSub rest ∧
      wfList s (Mapdb.wf (s' :: ss) s) cap (sp, va) false rest := by
  rcases h.spec with ⟨rfl, -⟩ | ⟨hn, rfl, ⟨p, pf, rfl⟩, -⟩
  · exact ⟨hwf.2.1, wfList_noSub hwf.2.2, hwf.2.2⟩
  · exact ⟨⟨rfl, rfl, rfl, fun _ _ => trivial, fun _ _ => rfl⟩, hn,
      wfList_of_noSub hwf hn le_rfl _ _⟩

theorem wfOf_subKey (hs : s' ≤ s)
    (hm : wfOf s' (wf ss s') s (sp, va) m) (phys : ℕ) : subKey s s' phys < m.keyEnd ∧
      wfList s' (wf ss s') 0 (sp, va + maskLsb (getLsb phys s) s') true
        (m.tree (subKey s s' phys)) := by
  have hk : subKey s s' phys < m.keyEnd := by
    rw [hm.keyEnd]
    exact subKey_lt hs phys
  have htree := hm.tree _ hk
  rw [frameVaddr, hm.owner, hm.pageOffset, subKey_mul] at htree
  exact ⟨hk, htree⟩

variable {pd : Option ℕ} {km km' : Kmem Q} {post post' : List (Mapping S (Treemap S ss))}
  {r : Option ℕ}

structure IsNew (x : Target S) (s phys a : ℕ) (n : Node S) : Prop where
  addr : n.addr = a
  space : n.space = x.space
  size : 2 ^ n.shift = x.size
  le : n.shift ≤ s
  va : n.va = maskLsb x.va n.shift
  phys : n.phys = phys + maskLsb (getLsb x.phys s) n.shift

theorem maskLsb_split {j : ℕ} (hj : j ≤ s') (hs : s' ≤ s) (p : ℕ) :
    maskLsb (getLsb p s) s' + maskLsb (getLsb p s') j = maskLsb (getLsb p s) j := by
  have hmod : getLsb p s' = getLsb (getLsb p s) s' :=
    (Nat.mod_mod_of_dvd p (pow_dvd_pow 2 hs)).symm
  rw [hmod]
  generalize getLsb p s = q
  simp only [maskLsb, getLsb]
  obtain ⟨i, rfl⟩ := Nat.exists_eq_add_of_le hj
  have hsplit : q / 2 ^ j = 2 ^ i * (q / 2 ^ (j + i)) + q / 2 ^ j % 2 ^ i := by
    rw [pow_add, ← Nat.div_div_eq_div_mul]
    exact (Nat.div_add_mod _ _).symm
  have hlow : q % 2 ^ (j + i) / 2 ^ j = q / 2 ^ j % 2 ^ i := by
    rw [pow_add, Nat.mod_mul_right_div_self]
  rw [hlow]
  conv_rhs => rw [hsplit]
  rw [pow_add, Nat.add_mul]
  ring

theorem perm_focus {α : Type} (A news l B : List α) :
    (A ++ (news ++ l) ++ B).Perm (news ++ (A ++ l ++ B)) := by
  simpa only [append_assoc] using perm_append_comm_assoc A news (l ++ B)

section

variable (h : Inserted x s ss pd sp va km post post' r km') (hs : Levels s ss)
include h hs

theorem Inserted.wf
    (hd : ∀ d, pd = some d → d ≤ 255)
    (hwf : wfList s (Mapdb.wf ss s) (childDepth pd) (sp, va) true post) :
    wfList s (Mapdb.wf ss s) (childDepth pd) (sp, va) true post' := by
  induction h with
  | tooDeep hsize | noMapping hsize hq | noSubmap hsize hm => exact hwf
  | @mapping s ss pd sp va km km₁ post a hsize hne hq =>
    have hcap : childDepth pd ≤ 255 := by
      cases pd with
      | none => exact Nat.zero_le _
      | some d =>
        simp only [childDepth]
        grind
    exact wfList_allocate hwf hcap a x.space _
  | submap hsize hm h ih =>
    obtain ⟨hmwf, -, hrest⟩ := hm.wf hwf
    obtain ⟨hk, htree⟩ := wfOf_subKey hs.head hmwf x.phys
    have hl' := ih hs.tail (by simp) htree
    refine ⟨rfl, wfOf_set hmwf hk ?_, hrest⟩
    rw [hmwf.owner, frameVaddr, hmwf.pageOffset, subKey_mul]
    exact hl'

theorem Inserted.chains
    (hwf : wfList s (Mapdb.wf ss s) (childDepth pd) (sp, va) true post) (phys : ℕ)
    (up : List (Node S)) (st : List (ℕ × Node S)) (hst : ∀ e ∈ st, e.1 < childDepth pd) :
    (r = none → chainsList s (Mapdb.chains ss) phys up st post' =
      chainsList s (Mapdb.chains ss) phys up st post) ∧
    ∀ a, r = some a → ∃ n C D, IsNew x s phys a n ∧
      chainsList s (Mapdb.chains ss) phys up st post = C ++ D ∧
      chainsList s (Mapdb.chains ss) phys up st post' = C ++ (n :: (path st ++ up)) :: D := by
  induction h generalizing phys up st with
  | tooDeep hsize | noMapping hsize hq | noSubmap hsize hm => exact ⟨fun _ => rfl, by simp⟩
  | @mapping s ss pd sp va km km₁ post a hsize hne hq =>
    refine ⟨by simp, ?_⟩
    intro a' ha
    cases ha
    obtain ⟨C, D, hold, hnew⟩ := chainsList_allocate (Mapdb.chains ss) hwf phys up hst a
      x.space (truncToPage s x.va)
    refine ⟨_, C, D, ⟨rfl, rfl, hsize, le_rfl, rfl, ?_⟩, hold, hnew⟩
    simp [maskLsb, getLsb, Nat.div_eq_of_lt (Nat.mod_lt _ (Nat.two_pow_pos s))]
  | @submap s s' ss pd sp va km km₁ km₂ a post rest l' r m hsize hm h ih =>
    obtain ⟨hmwf, -, -⟩ := hm.wf hwf
    obtain ⟨hk, htree⟩ := wfOf_subKey hs.head hmwf x.phys
    obtain ⟨A, B, -, -, hset⟩ := chainsOf_set s' ss m hk phys (path st ++ up)
    obtain ⟨hfail, hnew⟩ := ih hs.tail htree (phys + subKey s s' x.phys * 2 ^ s') (path st ++ up) []
      (by simp)
    have hself : Mapdb.chains (s' :: ss) phys (path st ++ up) m = A ++
        chainsList s' (Mapdb.chains ss) (phys + subKey s s' x.phys * 2 ^ s') (path st ++ up) []
          (m.tree (subKey s s' x.phys)) ++ B := by
      rw [← hset, set_self m rfl]
      rfl
    -- the chains before and behind the submap do not change
    have hpost : chainsList s (Mapdb.chains (s' :: ss)) phys up st post =
        Mapdb.chains (s' :: ss) phys (path st ++ up) m ++
          chainsList s (Mapdb.chains (s' :: ss)) phys up st rest := by
      rcases hm.spec with ⟨rfl, -⟩ | ⟨-, rfl, ⟨p, pf, rfl⟩, -⟩
      · exact chainsList_sub ..
      · simp [Mapdb.chains, chainsOf, chainsList, scan]
    have hpost' : chainsList s (Mapdb.chains (s' :: ss)) phys up st
        (.sub a (m.set (subKey s s' x.phys) l') :: rest) =
        A ++ chainsList s' (Mapdb.chains ss) (phys + subKey s s' x.phys * 2 ^ s') (path st ++ up) []
          l' ++ B ++ chainsList s (Mapdb.chains (s' :: ss)) phys up st rest := by
      rw [chainsList_sub, ← hset]
      rfl
    rw [hpost, hpost', hself]
    refine ⟨fun hr => by rw [hfail hr], fun b hb => ?_⟩
    obtain ⟨n, C, D, hn, hold, hadd⟩ := hnew b hb
    refine ⟨n, A ++ C, D ++ B ++ chainsList s (Mapdb.chains (s' :: ss)) phys up st rest,
      ⟨hn.addr, hn.space, hn.size, hn.le.trans hs.head, hn.va, ?_⟩, ?_, ?_⟩
    · rw [hn.phys, subKey_mul, Nat.add_assoc, maskLsb_split hn.le hs.head]
    · rw [hold]
      simp
    · rw [hadd]
      simp [path]

theorem Inserted.allocs
    (hwf : wfList s (Mapdb.wf ss s) (childDepth pd) (sp, va) true post) :
    ∃ news, Grows ramQuota km km' news ∧
      (allocsList (Mapdb.allocs ss) sp post').Perm
        (news ++ allocsList (Mapdb.allocs ss) sp post) := by
  induction h with
  | tooDeep hsize => exact ⟨[], Grows.refl _, Perm.refl _⟩
  | noMapping hsize hq => exact ⟨[], qAlloc_none hq, Perm.refl _⟩
  | noSubmap hsize hm => exact ⟨[], hm.failed, Perm.refl _⟩
  | @mapping s ss pd sp va km km₁ post a hsize hne hq =>
    exact ⟨_, qAlloc_some rfl hq, allocsList_allocate hwf sp a x.space _ _⟩
  | @submap s s' ss pd sp va km km₁ km₂ a post rest l' r m hsize hm h ih =>
    obtain ⟨hmwf, -, -⟩ := hm.wf hwf
    obtain ⟨hk, htree⟩ := wfOf_subKey hs.head hmwf x.phys
    obtain ⟨A, B, hset⟩ := allocs_set s' ss m hk
    obtain ⟨news, hg, hperm⟩ := ih hs.tail htree
    have howner : m.owner = sp := hmwf.owner
    rw [howner] at hset
    have hself : Mapdb.allocs (s' :: ss) m =
        A ++ allocsList (Mapdb.allocs ss) sp (m.tree (subKey s s' x.phys)) ++ B := by
      rw [← hset, set_self m rfl]
    have hm' : (Mapdb.allocs (s' :: ss) (m.set (subKey s s' x.phys) l')).Perm
        (news ++ Mapdb.allocs (s' :: ss) m) := by
      rw [hset, hself]
      exact ((hperm.append_left A).append_right B).trans (perm_focus A news _ B)
    rcases hm.spec with ⟨rfl, rfl⟩ | ⟨hn, rfl, ⟨p, pf, rfl⟩, hg₁⟩
    · refine ⟨news, hg, ?_⟩
      simp only [allocsList]
      refine ((hm'.append_right _).cons _).trans ?_
      rw [append_assoc]
      exact perm_middle.symm
    · refine ⟨_, hg₁.trans hg, ?_⟩
      simp only [allocsList]
      refine ((hm'.append_right _).cons _).trans ?_
      rw [append_assoc, append_assoc]
      refine perm_middle.symm.trans (Perm.append_left news ?_)
      have hempty : Mapdb.allocs (s' :: ss) (⟨p, pf, 2 ^ (s - s'), sp, va, fun _ => []⟩ :
          TreemapOf S (Treemap S ss)) = [⟨[p, pf], quotaSize (2 ^ (s - s')), sp⟩] := by
        simp [Mapdb.allocs, allocsList]
      rw [hempty]
      exact Perm.swap _ _ _

end

section Db

variable {ps : ℕ} {t t' : Treemap S ss} {f : Frame}

theorem insert_cases (h : insert ss t km f x = some (t', r, km')) :
    ∃ s' ss' t₀ plug l', At ss t f.hops s' ss' t₀ plug ∧ f.key < t₀.keyEnd ∧
      t' = plug (t₀.set f.key l') ∧
      ((f.m = none ∧ Inserted x s' ss' none t₀.owner (t₀.frameVaddr s' f.key) km
          (t₀.tree f.key) l' r km') ∨
        ∃ a pre sp pg d post post', f.m = some a ∧
          seek a (t₀.tree f.key) = some (pre, (sp, pg, d), post) ∧
          l' = pre ++ .real a sp pg d :: post' ∧
          Inserted x s' ss' (some d) sp (pg * 2 ^ s') km post post' r km') := by
  obtain ⟨s', ss', t₀, plug, l', hat, hk, hop, rfl⟩ := onFrame_eq_some.mp h
  refine ⟨s', ss', t₀, plug, l', hat, hk, rfl, ?_⟩
  simp only [bind_eq_some_iff] at hop
  obtain ⟨sp₀, hsp, pv, hpv, htree⟩ := hop
  cases hm : f.m with
  | none =>
    rw [hm] at hsp hpv htree
    cases some.inj hsp
    cases some.inj hpv
    exact .inl ⟨rfl, insertAfter_inserted htree⟩
  | some a =>
    rw [hm] at hsp hpv htree
    simp only [insertTree, bind_eq_some_iff, map_eq_some_iff] at htree
    obtain ⟨⟨pre, ⟨sp, pg, d⟩, post⟩, hseek, ⟨post', r', km''⟩, hins, he⟩ := htree
    simp only [pspace, pvaddr, hseek, map_some, some.injEq] at hsp hpv
    subst hsp hpv
    simp only [Prod.mk.injEq] at he
    obtain ⟨rfl, rfl, rfl⟩ := he
    exact .inr ⟨a, pre, _, _, d, post, post', rfl, hseek, rfl, insertAfter_inserted hins⟩

section

variable (hs : Levels ps ss) (hwf : wf ss ps par t) (h : insert ss t km f x = some (t', r, km'))
include hs hwf h

theorem insert_wf : wf ss ps par t' := by
  obtain ⟨s', ss', t₀, plug, l', hat, hk, rfl, hcase⟩ := insert_cases h
  obtain ⟨ps', par', hs', hwf', hplug⟩ := hat.wf hs hwf
  refine hplug _ (wfOf_set hwf' hk ?_)
  have hlist := hwf'.tree _ hk
  rcases hcase with ⟨-, hins⟩ | ⟨a, pre, sp, pg, d, post, post', -, hseek, rfl, hins⟩
  · exact hins.wf hs'.tail (by simp) hlist
  · rw [seek_eq_some hseek] at hlist
    obtain ⟨hd, hpost, hkeep, -⟩ := wfList_real_focus hlist
    exact hkeep _ _ _ (hins.wf hs'.tail (fun d' hd' => by cases hd'; exact hd) hpost)

theorem insert_allocs :
    ∃ news, Grows ramQuota km km' news ∧
      (allocs ss t').Perm (news ++ allocs ss t) := by
  obtain ⟨s', ss', t₀, plug, l', hat, hk, rfl, hcase⟩ := insert_cases h
  obtain ⟨ps', par', hs', hwf', -⟩ := hat.wf hs hwf
  have hlist := hwf'.tree _ hk
  obtain ⟨A, B, hall⟩ := hat.allocs hk
  have hself : allocs ss t =
      A ++ allocsList (allocs ss') t₀.owner (t₀.tree f.key) ++ B := by
    rw [← hall, set_self t₀ rfl, hat.plug_self]
  suffices ∃ news, Grows ramQuota km km' news ∧
      (allocsList (allocs ss') t₀.owner l').Perm
        (news ++ allocsList (allocs ss') t₀.owner (t₀.tree f.key)) by
    obtain ⟨news, hg, hperm⟩ := this
    refine ⟨news, hg, ?_⟩
    rw [hall, hself]
    exact ((hperm.append_left A).append_right B).trans (perm_focus A news _ B)
  rcases hcase with ⟨-, hins⟩ | ⟨a, pre, sp, pg, d, post, post', -, hseek, rfl, hins⟩
  · exact hins.allocs hs'.tail hlist
  · rw [seek_eq_some hseek] at hlist ⊢
    obtain ⟨-, hpost, -, -⟩ := wfList_real_focus hlist
    obtain ⟨news, hg, hperm⟩ := hins.allocs hs'.tail hpost
    refine ⟨news, hg, ?_⟩
    rw [allocsList_append, allocsList_append]
    simp only [allocsList]
    refine ((hperm.cons _).append_left _).trans ?_
    exact (perm_middle.symm.append_left _).trans (perm_append_comm_assoc _ news _)

end

/-- `tail` is the chain of the mapping the frame points to. The head of a tree stands for
the mapping its treemap hangs under, or for nothing at all. -/
def IsParent (ss : List ℕ) (t : Treemap S ss) (f : Frame) (s phys : ℕ) (tail : List (Node S)) :
    Prop :=
  match f.m with
  | some a => tail ∈ chains ss 0 [] t ∧
      ∃ p ∈ tail.head?, p.addr = a ∧ p.phys = phys ∧ p.shift = s
  | none => (tail = [] ∨ tail ∈ chains ss 0 [] t) ∧
      (f.hops = [] → tail = [] ∧ phys = f.key * 2 ^ s)

theorem insert_chains (hs : Levels ps ss) (hwf : wf ss ps par t)
    (h : insert ss t km f x = some (t', r, km')) :
    (r = none → chains ss 0 [] t' = chains ss 0 [] t) ∧
    ∀ a, r = some a → ∃ s' phys n tail C D, s' ∈ ss ∧ IsParent ss t f s' phys tail ∧
      IsNew x s' phys a n ∧ chains ss 0 [] t = C ++ D ∧
      chains ss 0 [] t' = C ++ (n :: tail) :: D := by
  obtain ⟨s', ss', t₀, plug, l', hat, hk, rfl, hcase⟩ := insert_cases h
  obtain ⟨ps', par', hs', hwf', -⟩ := hat.wf hs hwf
  have hlist := hwf'.tree _ hk
  obtain ⟨phys, up, A, B, haround, hroot⟩ := hat.around hk
  have hself : t = plug (t₀.set f.key (t₀.tree f.key)) := by
    rw [set_self t₀ rfl, hat.plug_self]
  have hold := haround.chains (t₀.tree f.key)
  have hnew := haround.chains l'
  simp only [← hself] at hold hnew
  rcases hcase with ⟨hm, hins⟩ | ⟨a, pre, sp, pg, d, post, post', hm, hseek, rfl, hins⟩
  · obtain ⟨hfail, hadd⟩ := hins.chains hs'.tail hlist phys up [] (by simp)
    rw [hold, hnew]
    refine ⟨fun hr => by rw [hfail hr], fun b hb => ?_⟩
    obtain ⟨n, C, D, hn, hC, hD⟩ := hadd b hb
    refine ⟨s', phys, n, up, A ++ C, D ++ B, hat.mem, ?_, hn, by rw [hC]; simp, by rw [hD]; simp [path]⟩
    simp only [IsParent, hm]
    refine ⟨haround.parent.imp id fun hA => ?_, hroot⟩
    rw [hold]
    simp [hA]
  · rw [seek_eq_some hseek] at hlist
    obtain ⟨-, hpost, -, -⟩ := wfList_real_focus hlist
    obtain ⟨A', hmap⟩ := haround.mapping pre a d
    have hold' := hmap.mapping sp pg post
    have hnew' := hmap.mapping sp pg post'
    simp only [← seek_eq_some hseek, ← hself] at hold' hnew'
    obtain ⟨hfail, hadd⟩ := hins.chains hs'.tail hpost phys up
      ((d, label s' phys a sp pg) :: openAt s' phys d pre) (by
        intro e he
        rcases mem_cons.mp he with rfl | he
        · exact Nat.lt_succ_self _
        · exact (hmap.depths e he).trans (Nat.lt_succ_self _))
    rw [hold', hnew']
    refine ⟨fun hr => by rw [hfail hr], fun b hb => ?_⟩
    obtain ⟨n, C, D, hn, hC, hD⟩ := hadd b hb
    refine ⟨s', phys, n, label s' phys a sp pg :: (path (openAt s' phys d pre) ++ up),
      A' ++ (label s' phys a sp pg :: (path (openAt s' phys d pre) ++ up)) :: C, D ++ B, hat.mem,
      ?_, hn, by rw [hC]; simp, by rw [hD]; simp [path]⟩
    simp only [IsParent, hm, hold']
    exact ⟨by simp, _, rfl, rfl, rfl, rfl⟩

end Db

end Fiasco.Mapdb
