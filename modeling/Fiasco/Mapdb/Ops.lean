import Fiasco.Kmem
import Fiasco.Mapdb.Treemap

/-!
# Insert, flush, grant and the traversals of the mapping database

The operations follow the nesting of treemaps: a function on one level takes what
happens inside a submap as a parameter (the `SUBMAP_OPS` of the mapping tree) and is
then tied over the list of page shifts. Flushing returns, besides the new tree, the
allocations it gives back.
-/
namespace Fiasco.Mapdb

open TreemapOf

variable {S T Q : Type}

def sizeofMapping : ℕ := 24

def sizeofPhysframe : ℕ := 16

def sizeofTreemap : ℕ := 56

def physframeMemSize (n : ℕ) : ℕ := (n * sizeofPhysframe + 1023) / 1024 * 1024

def quotaSize (keyEnd : ℕ) : ℕ := physframeMemSize keyEnd + sizeofTreemap

def seek (a : ℕ) :
    List (Mapping S T) → Option (List (Mapping S T) × (S × ℕ × ℕ) × List (Mapping S T))
  | [] => none
  | .real a' sp pg d :: l =>
    if a' = a then some ([], (sp, pg, d), l)
    else (seek a l).map fun r => (.real a' sp pg d :: r.1, r.2)
  | .sub a' m :: l => (seek a l).map fun r => (.sub a' m :: r.1, r.2)

section Flush

def erase : S → List (Mapping S T) → List (Charge S)
  | _, [] => []
  | _, .real a sp _ _ :: l => ⟨[a], sizeofMapping, sp⟩ :: erase sp l
  | q, .sub a _ :: l => ⟨[a], sizeofMapping, q⟩ :: erase q l

def physframeDel (del : T → List (Charge S)) (owner : S) (l : List (Mapping S T)) :
    List (Charge S) :=
  (l.filterMap Mapping.submap).flatMap del ++ erase owner l

def del : (ss : List ℕ) → Treemap S ss → List (Charge S)
  | [], t => nomatch t
  | _ :: ss, t =>
    ((List.range (keyEnd t)).flatMap fun k =>
        physframeDel (del ss) (owner t) (tree t k)) ++
      [⟨[ptr t, physframe t], quotaSize (keyEnd t),
        owner t⟩]

structure SubmapOps (S T : Type) where
  owner : T → S
  size : T → ℕ
  flush : T → ℕ → ℕ → T × List (Charge S)
  del : T → List (Charge S)

def SubmapOps.isPartial (ops : SubmapOps S T) (m : T) (offsBegin offsEnd : ℕ) : Bool :=
  0 < offsBegin || offsEnd < ops.size m

variable (ops : SubmapOps S T)

def flushLoop (pd : ℤ) (meToo : Bool) (offsBegin offsEnd : ℕ) :
    ℤ → List (Mapping S T) → List (Mapping S T) × List (Charge S)
  | _, [] => ([], [])
  | _, .real a sp pg d :: l =>
    if (d : ℤ) ≤ pd then (.real a sp pg d :: l, [])
    else
      let r := flushLoop pd meToo offsBegin offsEnd d l
      (r.1, ⟨[a], sizeofMapping, sp⟩ :: r.2)
  | md, .sub a m :: l =>
    if !meToo && md = pd && ops.isPartial m offsBegin offsEnd then
      let f := ops.flush m offsBegin offsEnd
      let r := flushLoop pd meToo offsBegin offsEnd md l
      (.sub a f.1 :: r.1, f.2 ++ r.2)
    else
      let r := flushLoop pd meToo offsBegin offsEnd md l
      (r.1, ops.del m ++ ⟨[a], sizeofMapping, ops.owner m⟩ :: r.2)

def flushTree (parent : Option ℕ) (meToo : Bool) (offsBegin offsEnd : ℕ)
    (l : List (Mapping S T)) : Option (List (Mapping S T) × List (Charge S)) :=
  match parent with
  | none => some (flushLoop ops (-1) false offsBegin offsEnd (-1) l)
  | some a =>
    (seek a l).map fun (pre, (sp, pg, d), post) =>
      let r := flushLoop ops d meToo offsBegin offsEnd d post
      if meToo then (pre ++ r.1, ⟨[a], sizeofMapping, sp⟩ :: r.2)
      else (pre ++ .real a sp pg d :: r.1, r.2)

/-- The range `Treemap_ops::flush` passes on for the page frame `i`; `ps` is the page
shift of the treemap above. -/
def subBegin (ps s offsBegin i : ℕ) : ℕ :=
  if offsBegin < i * 2 ^ s then 0 else getLsb (offsBegin - i * 2 ^ s) ps

def subEnd (ps s offsEnd i : ℕ) : ℕ :=
  if i * 2 ^ s + 2 ^ s < offsEnd then 2 ^ ps else getLsb (offsEnd - i * 2 ^ s - 1) ps + 1

def covers (s offsBegin offsEnd i : ℕ) : Bool :=
  offsBegin ≤ i * 2 ^ s && i * 2 ^ s + 2 ^ s ≤ offsEnd

def flushPage (ps s : ℕ) (owner : S) (offsBegin offsEnd i : ℕ) (l : List (Mapping S T)) :
    List (Mapping S T) × List (Charge S) :=
  if l.isEmpty then ([], [])
  else if covers s offsBegin offsEnd i then ([], erase owner l)
  else flushLoop ops (-1) false (subBegin ps s offsBegin i) (subEnd ps s offsEnd i) (-1) l

def flushSubmap (ps s : ℕ) (t : TreemapOf S T) (offsBegin offsEnd : ℕ) :
    TreemapOf S T × List (Charge S) :=
  let page i := flushPage ops ps s t.owner offsBegin offsEnd i (t.tree i)
  ({ t with tree := fun i =>
      if truncToPage s offsBegin ≤ i ∧ i < roundToPage s offsEnd then (page i).1 else t.tree i },
    (List.range' (truncToPage s offsBegin)
      (roundToPage s offsEnd - truncToPage s offsBegin)).flatMap fun i => (page i).2)

end Flush

def treemapOps : (ss : List ℕ) → ℕ → SubmapOps S (Treemap S ss)
  | [], _ => ⟨Empty.elim, Empty.elim, Empty.elim, Empty.elim⟩
  | s :: ss, ps =>
    { owner := fun t => owner t
      size := fun t => size s t
      flush := fun t ob oe => flushSubmap (treemapOps ss s) ps s t ob oe
      del := fun t => del (s :: ss) t }

section Foreach

structure Visit (S : Type) where
  addr : ℕ
  space : S
  va : ℕ
  order : ℕ
deriving DecidableEq

def forFullSubtree (nested : T → List (Visit S)) (minDepth s : ℕ) :
    List (Mapping S T) → List (Visit S)
  | [] => []
  | .sub _ m :: l => nested m ++ forFullSubtree nested minDepth s l
  | .real a sp pg d :: l =>
    if minDepth ≤ d then ⟨a, sp, pg * 2 ^ s, s⟩ :: forFullSubtree nested minDepth s l else []

def forFullTreemap : (ss : List ℕ) → Treemap S ss → List (Visit S)
  | [], t => nomatch t
  | s :: ss, t => (List.range (keyEnd t)).flatMap fun k =>
      forFullSubtree (forFullTreemap ss) 0 s (tree t k)

def foreachTree (nested : T → List (Visit S)) (range : T → Option (List (Visit S)))
    (minDepth s : ℕ) : List (Mapping S T) → Option (List (Visit S))
  | [] => some []
  | .sub _ m :: l => (range m).map (· ++ forFullSubtree nested minDepth s l)
  | .real a sp pg d :: l => some (forFullSubtree nested minDepth s (.real a sp pg d :: l))

def foreachStart (s : ℕ) (t : TreemapOf S T) (vaBegin : ℕ) : ℕ :=
  if t.pageOffset < vaBegin then (vaBegin - t.pageOffset) / 2 ^ s else 0

/-- The difference of two page numbers, which are words of 64 bits. -/
def wordSub (a b : ℕ) : ℕ := if b ≤ a then a - b else 2 ^ 64 - (b - a)

def foreachEnd (s : ℕ) (t : TreemapOf S T) (vaEnd : ℕ) : ℕ :=
  if vaEnd < t.pageOffset + t.size s then
    -- `round_to_page` adds once more to a difference that has wrapped around
    if t.pageOffset ≤ vaEnd then roundToPage s (vaEnd - t.pageOffset)
    else (wordSub vaEnd t.pageOffset + (2 ^ s - 1)) % 2 ^ 64 / 2 ^ s
  else t.keyEnd

/-- `Treemap::for_range` over the pages `ks`; `none` is an access behind the array of page
frames. -/
def forRange {β : Type} (keyEnd : ℕ) (func : ℕ → Option (List β)) : List ℕ → Option (List β)
  | [] => some []
  | k :: ks =>
    if k < keyEnd then (func k).bind fun v => (forRange keyEnd func ks).map (v ++ ·) else none

def foreachTreemap : (ss : List ℕ) → ℕ → ℕ → Treemap S ss → Option (List (Visit S))
  | [], _, _, t => nomatch t
  | s :: ss, vaBegin, vaEnd, t =>
    forRange (keyEnd t)
      (fun k => foreachTree (forFullTreemap ss) (foreachTreemap ss vaBegin vaEnd) 0 s (tree t k))
      (List.range' (foreachStart s t vaBegin)
        (foreachEnd s t vaEnd - foreachStart s t vaBegin))

def foreachFrom (s : ℕ) (ss : List ℕ) (m : Option ℕ) (vaBegin vaEnd : ℕ)
    (l : List (Mapping S (Treemap S ss))) : Option (List (Visit S)) :=
  match m with
  | none => foreachTree (forFullTreemap ss) (foreachTreemap ss vaBegin vaEnd) 0 s l
  | some a => (seek a l).bind fun (_, (_, _, d), post) =>
      foreachTree (forFullTreemap ss) (foreachTreemap ss vaBegin vaEnd) (d + 1) s post

end Foreach

section Grant

def findSubmap : List (Mapping S T) → Option T
  | .sub _ m :: _ => some m
  | _ => none

def memSize : (ss : List ℕ) → Treemap S ss → ℕ
  | [], t => nomatch t
  | _ :: ss, t =>
    keyEnd t * sizeofPhysframe + sizeofTreemap +
      ((List.range (keyEnd t)).map fun k =>
        match findSubmap (tree t k) with
        | some m => memSize ss m
        | none => 0).sum

def mapSubmap (f : T → T) : List (Mapping S T) → List (Mapping S T)
  | .sub a m :: l => .sub a (f m) :: l
  | l => l

def grantSubmap : (ss : List ℕ) → ℕ → S → ℕ → Treemap S ss → Treemap S ss
  | [], _, _, _, t => t
  | s :: ss, ps, newSpace, virtPage, t =>
    let subva := virtPage * 2 ^ (ps - s)
    { ptr := ptr t
      physframe := physframe t
      keyEnd := keyEnd t
      owner := newSpace
      pageOffset := virtPage * 2 ^ ps
      tree := fun k =>
        if k < keyEnd t then
          mapSubmap (grantSubmap ss s newSpace (subva + k)) (tree t k)
        else tree t k }

variable [DecidableEq S] [DecidableEq Q] [Spaces S Q]

def grantTree (s : ℕ) (ss : List ℕ) (m : Option ℕ) (newSpace : S) (va : ℕ) (km : Kmem Q)
    (l : List (Mapping S (Treemap S ss))) :
    Option (List (Mapping S (Treemap S ss)) × Bool × Kmem Q) :=
  match m with
  | none => none
  | some a =>
    (seek a l).map fun (pre, (oldSpace, _, d), post) =>
      let page := truncToPage s va
      let moved := pre ++ .real a newSpace page d :: mapSubmap (grantSubmap ss s newSpace page) post
      if oldSpace = newSpace then (moved, true, km)
      else
        let quota := sizeofMapping + ((findSubmap post).map (memSize ss)).getD 0
        match km.quotaAlloc (Spaces.ramQuota newSpace) quota with
        | none => (l, false, km)
        | some km₁ => (moved, true, km₁.quotaFree (Spaces.ramQuota oldSpace) quota)

end Grant

section Insert

variable [DecidableEq Q] [Spaces S Q]

structure Target (S : Type) where
  space : S
  va : ℕ
  phys : ℕ
  size : ℕ

def allocate (new : Mapping S T) : List (Mapping S T) → List (Mapping S T)
  | .sub a m :: l => .sub a m :: new :: l
  | l => new :: l

def create (pshift : ℕ) (owner : S) (pageOffset s : ℕ) (km : Kmem Q) :
    Option (TreemapOf S T) × Kmem Q :=
  let keyEnd := 2 ^ (pshift - s)
  let q : Q := Spaces.ramQuota owner
  match km.quotaAlloc q (quotaSize keyEnd) with
  | none => (none, km)
  | some km₁ =>
    match km₁.alloc with
    | (none, km₂) => (none, km₂.quotaFree q (quotaSize keyEnd))
    | (some pf, km₂) =>
      match km₂.alloc with
      | (none, km₃) => (none, (km₃.free pf).quotaFree q (quotaSize keyEnd))
      | (some p, km₃) => (some ⟨p, pf, keyEnd, owner, pageOffset, fun _ => []⟩, km₃)

/-- The part of `Treemap::insert` for a mapping of the page size itself; `pd` is the depth
of the parent, none for the head of the tree. -/
def insertMapping (x : Target S) (s : ℕ) (pd : Option ℕ) (km : Kmem Q)
    (post : List (Mapping S T)) : List (Mapping S T) × Option ℕ × Kmem Q :=
  if pd = some 255 then (post, none, km)
  else
    match km.qAlloc (Spaces.ramQuota x.space) sizeofMapping with
    | (none, km₁) => (post, none, km₁)
    | (some a, km₁) =>
      let depth := match pd with
        | none => 0
        | some d => d + 1
      (allocate (.real a x.space (truncToPage s x.va) depth) post, some a, km₁)

def makeSubmap (s s' : ℕ) (parentSpace : S) (parentVa : ℕ) (km : Kmem Q) :
    Option (ℕ × TreemapOf S T) × Kmem Q :=
  match km.qAlloc (Spaces.ramQuota parentSpace) sizeofMapping with
  | (none, km₁) => (none, km₁)
  | (some a, km₁) =>
    match create s parentSpace parentVa s' km₁ with
    | (none, km₂) => (none, (km₂.free a).quotaFree (Spaces.ramQuota parentSpace) sizeofMapping)
    | (some m, km₂) => (some (a, m), km₂)

def submapFor (s s' : ℕ) (parentSpace : S) (parentVa : ℕ) (km : Kmem Q) :
    List (Mapping S (TreemapOf S T)) →
      Option ((ℕ × TreemapOf S T) × List (Mapping S (TreemapOf S T))) × Kmem Q
  | .sub a m :: rest => (some ((a, m), rest), km)
  | rest =>
    let r := makeSubmap s s' parentSpace parentVa km
    (r.1.map fun am => (am, rest), r.2)

/-- `Treemap::insert` with the elements behind the parent. The outer `none` is the failed
assertion that a smaller page size exists. -/
def insertAfter (x : Target S) : (s : ℕ) → (ss : List ℕ) → Option ℕ → S → ℕ → Kmem Q →
    List (Mapping S (Treemap S ss)) → Option (List (Mapping S (Treemap S ss)) × Option ℕ × Kmem Q)
  | s, [], pd, _, _, km, post =>
    if 2 ^ s = x.size then some (insertMapping x s pd km post) else none
  | s, s' :: ss, pd, parentSpace, parentVa, km, post =>
    if 2 ^ s = x.size then some (insertMapping x s pd km post)
    else
      let off := maskLsb (getLsb x.phys s) s'
      match submapFor s s' parentSpace parentVa km post with
      | (none, km₁) => some (post, none, km₁)
      | (some ((a, m), rest), km₁) =>
        (insertAfter x s' ss none parentSpace (parentVa + off) km₁
          (m.tree (truncToPage s' off))).map fun r =>
            (.sub a (m.set (truncToPage s' off) r.1) :: rest, r.2)

def insertTree (x : Target S) (s : ℕ) (ss : List ℕ) (m : Option ℕ) (parentSpace : S)
    (parentVa : ℕ) (km : Kmem Q) (l : List (Mapping S (Treemap S ss))) :
    Option (List (Mapping S (Treemap S ss)) × Option ℕ × Kmem Q) :=
  match m with
  | none => insertAfter x s ss none parentSpace parentVa km l
  | some a =>
    (seek a l).bind fun (pre, (sp, pg, d), post) =>
      (insertAfter x s ss (some d) parentSpace parentVa km post).map fun r =>
        (pre ++ .real a sp pg d :: r.1, r.2)

end Insert

section Db

def pvaddr (s : ℕ) (t : TreemapOf S T) (k : ℕ) : Option ℕ → Option ℕ
  | none => some (t.frameVaddr s k)
  | some a => (seek a (t.tree k)).map fun r => r.2.1.2.1 * 2 ^ s

def pspace (t : TreemapOf S T) (k : ℕ) : Option ℕ → Option S
  | none => some t.owner
  | some a => (seek a (t.tree k)).map fun r => r.2.1.1

def offsBegin (pv vaStart : ℕ) : ℕ := if pv < vaStart then vaStart - pv else 0

def offsEnd (size pv vaEnd : ℕ) : ℕ := if pv + size < vaEnd then size else wordSub vaEnd pv

def flush (ss : List ℕ) (t : Treemap S ss) (f : Frame) (selfUnmap : Bool) (vaStart vaEnd : ℕ) :
    Option (Treemap S ss × List (Charge S)) :=
  onFrame (fun s ss t k => (pvaddr s t k f.m).bind fun pv =>
    flushTree (treemapOps ss s) f.m selfUnmap (offsBegin pv vaStart) (offsEnd (2 ^ s) pv vaEnd)
      (t.tree k)) ss t f.hops f.key

def foreachMapping (ss : List ℕ) (t : Treemap S ss) (f : Frame) (vaBegin vaEnd : ℕ) :
    Option (List (Visit S)) :=
  (onFrame (fun s ss t k => (foreachFrom s ss f.m vaBegin vaEnd (t.tree k)).map
    fun v => (t.tree k, v)) ss t f.hops f.key).map Prod.snd

variable [DecidableEq Q] [Spaces S Q]

def grant [DecidableEq S] (ss : List ℕ) (t : Treemap S ss) (km : Kmem Q) (f : Frame) (newSpace : S) (va : ℕ) :
    Option (Treemap S ss × Bool × Kmem Q) :=
  onFrame (fun s ss t k => grantTree s ss f.m newSpace va km (t.tree k)) ss t f.hops f.key

def insert (ss : List ℕ) (t : Treemap S ss) (km : Kmem Q) (f : Frame) (x : Target S) :
    Option (Treemap S ss × Option ℕ × Kmem Q) :=
  onFrame (fun s ss t k => (pspace t k f.m).bind fun sp => (pvaddr s t k f.m).bind fun pv =>
    insertTree x s ss f.m sp pv km (t.tree k)) ss t f.hops f.key

end Db

end Fiasco.Mapdb
