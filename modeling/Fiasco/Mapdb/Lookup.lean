import Fiasco.Lib.LockTrace
import Fiasco.Mapdb.Treemap

/-!
# Looking up mappings

`lookup` and `lookupSrcDst` with the locks they take. The lock of a page frame is named
by the way to the page frame; a result keeps the locks of the frames it returns.
-/
namespace Fiasco.Mapdb

open LockTrace

variable {S T : Type}

/-- The lock of a page frame: the submap nodes on the way and the key. -/
abbrev Lock := List (ℕ × ℕ) × ℕ

abbrev Trace := List (Event Lock)

def Frame.lock (f : Frame) : Lock := (f.hops, f.key)

def Lock.under (h : ℕ × ℕ) (x : Lock) : Lock := (h :: x.1, x.2)

def Trace.under (h : ℕ × ℕ) (tr : Trace) : Trace := tr.map (.map (Lock.under h))

structure Depths where
  root : ℤ
  cur : ℤ
deriving DecidableEq

def Depths.visit (ds : Depths) (d : ℕ) : Depths :=
  ⟨if (d : ℤ) ≤ ds.root then -3 else ds.root, d⟩

structure Looked where
  found : Option (Bool × Frame)
  depths : Depths
  trace : Trace

section Lookup

variable [DecidableEq S]

def isMatch (s : ℕ) (spc : S) (va : ℕ) (sp : S) (page : ℕ) : Bool :=
  sp = spc && page * 2 ^ s = maskLsb va s

def lookupLoop (sub : ℕ → T → Depths → Looked) (s k : ℕ) (spc : S) (va : ℕ) :
    Depths → List (Mapping S T) → Looked
  | ds, [] => ⟨none, ds, []⟩
  | ds, .sub a m :: l =>
    let r := sub a m ds
    match r.found with
    | some (_, f) => ⟨some (true, f), r.depths, r.trace⟩
    | none =>
      let r' := lookupLoop sub s k spc va r.depths l
      ⟨r'.found, r'.depths, r.trace ++ r'.trace⟩
  | ds, .real a sp pg d :: l =>
    let ds' := ds.visit d
    if isMatch s spc va sp pg then ⟨some (false, ⟨[], k, some a⟩), ds', []⟩
    else lookupLoop sub s k spc va ds' l

/-- What `_lookup` does with a submap of page shift `s'`: it locks the page frame of the
key and searches it with `search`. -/
def lookupSub (isSigma0 : Bool) (s' subkey : ℕ)
    (search : ℕ → Depths → List (Mapping S T) → Looked) (h : ℕ × ℕ) (m : TreemapOf S T)
    (ds : Depths) : Looked :=
  let k' := truncToPage s' subkey
  if isSigma0 then
    ⟨some (true, Frame.under h ⟨[], k', none⟩), ds, Trace.under h [.acquire ([], k')]⟩
  else
    let r := search k' ds (m.tree k')
    match r.found with
    | some (inSub, f) =>
      ⟨some (true, f.under h), r.depths, Trace.under h
        (.acquire ([], k') :: r.trace ++ if inSub then [.release ([], k')] else [])⟩
    | none =>
      ⟨none, r.depths, Trace.under h (.acquire ([], k') :: r.trace ++ [.release ([], k')])⟩

variable {Q : Type} [Spaces S Q]

def lookupFrom (spc : S) (va : ℕ) : (s : ℕ) → (ss : List ℕ) → (key k : ℕ) → Depths →
    List (Mapping S (Treemap S ss)) → Looked
  | s, [], _, k, ds, l => lookupLoop (fun _ m _ => nomatch m) s k spc va ds l
  | s, s' :: ss, key, k, ds, l =>
    lookupLoop (fun a m ds => lookupSub (spc = Spaces.sigma0) s' (getLsb key s)
      (lookupFrom spc va s' ss (getLsb key s)) (k, a) m ds) s k spc va ds l

def lookup (s : ℕ) (ss : List ℕ) (t : TreemapOf S (Treemap S ss)) (key : ℕ) (spc : S) (va : ℕ) :
    Option Frame × Trace :=
  let k := truncToPage s key
  if spc = Spaces.sigma0 then (some ⟨[], k, none⟩, [.acquire ([], k)])
  else
    let r := lookupFrom spc va s ss key k ⟨-1, -1⟩ (t.tree k)
    match r.found with
    | some (inSub, f) =>
      (some f, .acquire ([], k) :: r.trace ++ if inSub then [.release ([], k)] else [])
    | none => (none, .acquire ([], k) :: r.trace ++ [.release ([], k)])

structure SrcDst where
  code : ℤ
  src : Option Frame
  dst : Option Frame
  trace : Trace

def SrcDst.under (h : ℕ × ℕ) (r : SrcDst) : SrcDst :=
  ⟨r.code, r.src.map (Frame.under h), r.dst.map (Frame.under h), Trace.under h r.trace⟩

structure Query (S : Type) where
  space : S
  key : ℕ
  va : ℕ

inductive First (S T : Type) where
  | nothing
  | inSub (r : SrcDst)
  | here (a : ℕ) (isSrc isDst : Bool) (depth : ℕ) (rest : List (Mapping S T))

def firstLoop (nested : ℕ → T → SrcDst) (s : ℕ) (src dst : Query S) :
    List (Mapping S T) → First S T × Trace
  | [] => (.nothing, [])
  | .sub a m :: l =>
    let r := nested a m
    if 0 ≤ r.code then (.inSub r, r.trace)
    else
      let q := firstLoop nested s src dst l
      (q.1, r.trace ++ q.2)
  | .real a sp pg d :: l =>
    let isSrc := isMatch s src.space src.va sp pg
    let isDst := isMatch s dst.space dst.va sp pg
    if isSrc || isDst then (.here a isSrc isDst d l, [])
    else firstLoop nested s src dst l

def findDst (k : ℕ) (fs : Frame) (r : Looked) : SrcDst :=
  match r.found with
  | some (false, fd) =>
    ⟨if r.depths.root + 1 = r.depths.cur then 0 else 1, some fs, some fd, r.trace⟩
  | some (true, fd) =>
    -- the depth of the mapping found is the current depth, which also stands for what the code reads
    -- through the iterator of a head, which is null, if sigma0 is found
    ⟨if r.depths.root = r.depths.cur ∧ r.depths.cur = 0 then 0 else 1, some fs, some fd, r.trace⟩
  | none => ⟨-1, none, none, r.trace ++ [.release ([], k)]⟩

def findSrc (k : ℕ) (fd : Frame) (r : Looked) : SrcDst :=
  match r.found with
  | some (false, fs) => ⟨if r.depths.root < -1 then 1 else 2, some fs, some fd, r.trace⟩
  | some (true, fs) =>
    if r.depths.root = r.depths.cur then ⟨2, none, some fd, r.trace ++ [.release fs.lock]⟩
    else ⟨1, some fs, some fd, r.trace⟩
  | none => ⟨-1, none, none, r.trace ++ [.release ([], k)]⟩

def srcDstTree (nested : ℕ → T → SrcDst)
    (search : Query S → Depths → List (Mapping S T) → Looked) (s k : ℕ) (src dst : Query S)
    (l : List (Mapping S T)) : SrcDst :=
  if l ≠ [] ∧ src.space = Spaces.sigma0 then
    findDst k ⟨[], k, none⟩ (search dst ⟨-1, -1⟩ l)
  else
    match firstLoop nested s src dst l with
    | (.nothing, tr) => ⟨-1, none, none, tr ++ [.release ([], k)]⟩
    | (.inSub r, tr) => ⟨r.code, r.src, r.dst, tr ++ [.release ([], k)]⟩
    | (.here a true true _ _, tr) => ⟨2, some ⟨[], k, some a⟩, some ⟨[], k, some a⟩, tr⟩
    | (.here a true false d rest, tr) =>
      let r := findDst k ⟨[], k, some a⟩ (search dst ⟨d, d⟩ rest)
      { r with trace := tr ++ r.trace }
    | (.here a false _ d rest, tr) =>
      let r := findSrc k ⟨[], k, some a⟩ (search src ⟨d, d⟩ rest)
      { r with trace := tr ++ r.trace }

def lookupSrcDst : (ss : List ℕ) → Treemap S ss → Query S → Query S → SrcDst
  | [], t, _, _ => nomatch t
  | s :: ss, t, src, dst =>
    let ks := truncToPage s src.key
    let kd := truncToPage s dst.key
    if ks ≠ kd then
      match lookup s ss t dst.key dst.space dst.va with
      | (none, trd) => ⟨-1, none, none, trd⟩
      | (some fd, trd) =>
        match lookup s ss t src.key src.space src.va with
        | (none, trs) => ⟨-1, none, none, trd ++ trs ++ [.release fd.lock]⟩
        | (some fs, trs) => ⟨1, some fs, some fd, trd ++ trs⟩
    else
      let r := srcDstTree
        (fun a m => (lookupSrcDst ss m { src with key := getLsb src.key s }
          { dst with key := getLsb dst.key s }).under (kd, a))
        (fun q ds l => lookupFrom q.space q.va s ss q.key kd ds l) s kd src dst
        (TreemapOf.tree t kd)
      { r with trace := .acquire ([], kd) :: r.trace }

end Lookup

end Fiasco.Mapdb
