import Fiasco.Lib.DepthList

/-!
# Mapping trees and treemaps

A treemap keeps one mapping tree for every page frame of its page size. A mapping tree is a list in
preorder whose real nodes carry their depth; a submap node holds a treemap for the next smaller page
size and stands right behind its parent mapping. Frame numbers and virtual addresses count base
pages, page sizes are given by their shift over the base page.
-/
namespace Fiasco

class Spaces (S : Type) (Q : outParam Type) where
  sigma0 : S
  ramQuota : S → Q

def maskLsb (v s : ℕ) : ℕ := v / 2 ^ s * 2 ^ s

def getLsb (v s : ℕ) : ℕ := v % 2 ^ s

namespace Mapdb

variable {S T : Type}

inductive Mapping (S T : Type) where
  | real (addr : ℕ) (space : S) (page depth : ℕ)
  | sub (addr : ℕ) (map : T)

def Mapping.addr : Mapping S T → ℕ
  | .real a _ _ _ => a
  | .sub a _ => a

def Mapping.submap : Mapping S T → Option T
  | .real _ _ _ _ => none
  | .sub _ m => some m

structure TreemapOf (S T : Type) where
  ptr : ℕ
  physframe : ℕ
  keyEnd : ℕ
  owner : S
  pageOffset : ℕ
  tree : ℕ → List (Mapping S T)

def TreemapOf.set (t : TreemapOf S T) (k : ℕ) (l : List (Mapping S T)) : TreemapOf S T :=
  { t with tree := Function.update t.tree k l }

@[reducible] def Treemap (S : Type) : List ℕ → Type
  | [] => Empty
  | _ :: ss => TreemapOf S (Treemap S ss)

def TreemapOf.size (s : ℕ) (t : TreemapOf S T) : ℕ := t.keyEnd * 2 ^ s

def truncToPage (s v : ℕ) : ℕ := v / 2 ^ s

def roundToPage (s v : ℕ) : ℕ := (v + (2 ^ s - 1)) / 2 ^ s

def TreemapOf.frameVaddr (s : ℕ) (t : TreemapOf S T) (k : ℕ) : ℕ := t.pageOffset + k * 2 ^ s

structure Node (S : Type) where
  addr : ℕ
  space : S
  va : ℕ
  phys : ℕ
  shift : ℕ
deriving DecidableEq

def Mapping.view (s phys : ℕ) : Mapping S T → Option (ℕ × Node S)
  | .real a sp pg d => some (d, ⟨a, sp, pg * 2 ^ s, phys, s⟩)
  | .sub _ _ => none

section Chains

variable (s : ℕ) (nested : ℕ → List (Node S) → T → List (List (Node S)))

def chainsItem (phys : ℕ) (up p : List (Node S)) : Mapping S T → List (List (Node S))
  | .real _ _ _ _ => [p ++ up]
  | .sub _ m => nested phys (p ++ up) m

def chainsList (phys : ℕ) (up : List (Node S)) (st : List (ℕ × Node S))
    (l : List (Mapping S T)) : List (List (Node S)) :=
  DepthList.scan (Mapping.view s phys) (chainsItem nested phys up) st l

def chainsOf (base : ℕ) (up : List (Node S)) (t : TreemapOf S T) : List (List (Node S)) :=
  (List.range t.keyEnd).flatMap fun k => chainsList s nested (base + k * 2 ^ s) up [] (t.tree k)

end Chains

/-- Every real mapping of a treemap with all mappings it is derived from, nearest first.
`up` is the chain the treemap hangs under and `base` its first frame. -/
def chains : (ss : List ℕ) → ℕ → List (Node S) → Treemap S ss → List (List (Node S))
  | [], _, _, t => nomatch t
  | s :: ss, base, up, t => chainsOf s (chains ss) base up t

section WellFormed

variable (s : ℕ) (nested : S × ℕ → T → Prop)

/-- The preorder encoding of one tree. `cap` bounds the depth of the next real
node, `par` is the mapping read last and `fresh` tells that it has no submap yet. -/
def wfList : ℕ → S × ℕ → Bool → List (Mapping S T) → Prop
  | _, _, _, [] => True
  | cap, _, _, .real _ sp pg d :: l => d ≤ cap ∧ d ≤ 255 ∧ wfList (d + 1) (sp, pg * 2 ^ s) true l
  | cap, par, fresh, .sub _ m :: l => fresh = true ∧ nested par m ∧ wfList cap par false l

structure wfOf (ps : ℕ) (par : S × ℕ) (t : TreemapOf S T) : Prop where
  owner : t.owner = par.1
  pageOffset : t.pageOffset = par.2
  keyEnd : t.keyEnd = 2 ^ (ps - s)
  tree : ∀ k < t.keyEnd, wfList s nested 0 (t.owner, t.frameVaddr s k) true (t.tree k)
  outside : ∀ k, t.keyEnd ≤ k → t.tree k = []

end WellFormed

def wf : (ss : List ℕ) → ℕ → S × ℕ → Treemap S ss → Prop
  | [], _, _, t => nomatch t
  | s :: ss, ps, par, t => wfOf s (wf ss s) ps par t

/-- The treemap reached through the submap nodes `hops` (key and node address, from the root), the
key of the page frame in it and the mapping there, if it is not the head of the tree. -/
structure Frame where
  hops : List (ℕ × ℕ)
  key : ℕ
  m : Option ℕ
deriving DecidableEq, Repr

def Frame.under (h : ℕ × ℕ) (f : Frame) : Frame := { f with hops := h :: f.hops }

/-- `At ss t hops s' ss' t' plug`: following `hops` from `t` leads to the treemap
`t'`; `plug` puts another treemap into its place. -/
inductive At : (ss : List ℕ) → Treemap S ss → List (ℕ × ℕ) → (s' : ℕ) → (ss' : List ℕ) →
    TreemapOf S (Treemap S ss') → (TreemapOf S (Treemap S ss') → Treemap S ss) → Prop
  | here (s : ℕ) (ss : List ℕ) (t : TreemapOf S (Treemap S ss)) : At (s :: ss) t [] s ss t id
  | down (s : ℕ) (ss : List ℕ) (t : TreemapOf S (Treemap S ss)) (k a : ℕ)
      (l₁ l₂ : List (Mapping S (Treemap S ss))) (m : Treemap S ss) (hops : List (ℕ × ℕ))
      (s' : ℕ) (ss' : List ℕ) (t' : TreemapOf S (Treemap S ss'))
      (plug : TreemapOf S (Treemap S ss') → Treemap S ss)
      (hk : k < t.keyEnd) (hl : t.tree k = l₁ ++ .sub a m :: l₂)
      (first : ∀ x ∈ l₁, x.addr ≠ a) (h : At ss m hops s' ss' t' plug) :
      At (s :: ss) t ((k, a) :: hops) s' ss' t'
        (fun x => t.set k (l₁ ++ .sub a (plug x) :: l₂))

def onSub {R : Type} (a : ℕ) (f : T → Option (T × R)) :
    List (Mapping S T) → Option (List (Mapping S T) × R)
  | [] => none
  | x :: l =>
    if x.addr = a then
      match x with
      | .sub _ m => (f m).map fun r => (.sub a r.1 :: l, r.2)
      | .real _ _ _ _ => none
    else (onSub a f l).map fun r => (x :: r.1, r.2)

abbrev TreemapOp (S R : Type) :=
  (s : ℕ) → (ss : List ℕ) → TreemapOf S (Treemap S ss) → ℕ →
    Option (List (Mapping S (Treemap S ss)) × R)

/-- Runs an operation on the page frame a `Frame` points to; `none` stands for a
dangling frame or a failed assertion in `op`. -/
def onFrame {R : Type} (op : TreemapOp S R) :
    (ss : List ℕ) → Treemap S ss → List (ℕ × ℕ) → ℕ → Option (Treemap S ss × R)
  | [], t, _, _ => nomatch t
  | s :: ss, t, [], k =>
    if k < TreemapOf.keyEnd t then
      (op s ss t k).map fun r => (TreemapOf.set t k r.1, r.2)
    else none
  | _ :: ss, t, (k, a) :: hops, k' =>
    if k < TreemapOf.keyEnd t then
      (onSub a (fun m => onFrame op ss m hops k') (TreemapOf.tree t k)).map fun r =>
        (TreemapOf.set t k r.1, r.2)
    else none

end Mapdb
end Fiasco
