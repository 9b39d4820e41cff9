import Fiasco.Lib.Radix

/-!
# Page tables and their walkers

A table is an array of entries; an entry is invalid, a page (`leaf`), or refers to a table of the
next level (`next`). The tables form a tree, so an entry is known by the slots on the way to it. A
hierarchy is the list of its levels, the root first.

There are two walkers, `Iter_bits::Walk` and `Recursive_bits::Walk`. Their loops are
the same text up to the fields of `Walker`. The tables of one level are `2 ^ size`
entries long: an access behind them, or through a page taken for a table, leaves the
hierarchy (`outside`); a loop that has not ended when the fuel is used up is `running`.
Physical addresses enter an entry only through the template (`for_pa`), a function from
addresses to pages.
-/
namespace Fiasco.Ptab

open Function

structure Ldesc where
  shift : ℕ
  size : ℕ
  mayBeLeaf : Bool
deriving DecidableEq, Repr

namespace Ldesc

def length (d : Ldesc) : ℕ := 2 ^ d.size

def index (d : Ldesc) (a : ℕ) : ℕ := Radix.digit d.shift d.size a

def span (d : Ldesc) : ℕ := 2 ^ (d.shift + d.size)

theorem index_lt (d : Ldesc) (a : ℕ) : d.index a < d.length := Radix.digit_lt _ _ _

theorem length_pos (d : Ldesc) : 0 < d.length := Nat.two_pow_pos _

end Ldesc

inductive Entry (P : Type) where
  | invalid
  | leaf (p : P)
  | next (t : ℕ → Entry P)

abbrev Table (P : Type) := ℕ → Entry P

variable {P : Type}

namespace Entry

def isNext : Entry P → Bool
  | .next _ => true
  | _ => false

theorem isNext_iff {e : Entry P} : e.isNext = true ↔ ∃ t, e = .next t := by
  cases e <;> simp [isNext]

end Entry

inductive Stop where
  | outside
  | running
deriving DecidableEq, Repr

structure Walker where
  /-- The entry the running index of a loop stands for. -/
  slot : Ldesc → ℕ → Option ℕ
  /-- The end handed to `unmap` of a table of the target level, from `ve` and `virt_end`. -/
  leafEnd : ℕ → ℕ → ℕ
  /-- Whether `map` looks for a page among the valid entries of the level. -/
  mapLeaf : Ldesc → Bool
  walkLeaf : Ldesc → Bool
  slot_of_lt : ∀ d i, i < d.length → slot d i = some i
  slot_round : ∀ d i j k, i ≤ j → slot d j = some k →
    ∃ m, i ≤ m ∧ m < i + d.length ∧ slot d m = some k

/-- `Iter_bits::Walk` reads `n + virt_index`, and ends an `unmap` of the target level at
`virt_end`. -/
def iterative : Walker where
  slot d i := if i < d.length then some i else none
  leafEnd _ virtEnd := virtEnd
  mapLeaf d := d.mayBeLeaf
  walkLeaf d := d.mayBeLeaf
  slot_of_lt _ _ h := if_pos h
  slot_round d i j k hij hj := by
    have hjk : j < d.length ∧ j = k := by simpa using hj
    exact ⟨j, hij, by omega, hj⟩

/-- `Recursive_bits::Walk` reads `get_entry(start)`, which masks the index. The `Ldesc` that
its levels build (`Impl::ld`) says `may_be_leaf = false`; its `walk` does not ask. -/
def recursive : Walker where
  slot d i := some (i % d.length)
  leafEnd ve _ := ve
  mapLeaf _ := false
  walkLeaf _ := true
  slot_of_lt _ _ h := congrArg some (Nat.mod_eq_of_lt h)
  slot_round d i j k hij hj := by
    refine ⟨i + (j - i) % d.length, by omega, ?_, ?_⟩
    · exact Nat.add_lt_add_left (Nat.mod_lt _ d.length_pos) i
    · rw [← hj, Nat.add_mod_mod, Nat.add_sub_cancel' hij]

def clearLoop (t : Table P) (i : ℕ) : ℕ → Table P
  | 0 => t
  | n + 1 => clearLoop (update t i .invalid) (i + 1) n

def Table.unmap (d : Ldesc) (t : Table P) (start virtEnd : ℕ) : Table P :=
  clearLoop t (d.index start) (d.index virtEnd + 1 - d.index start)

def setLoop (tmpl : ℕ → P) (physInc : ℕ) (t : Table P) (i pa : ℕ) : ℕ → Table P × ℕ
  | 0 => (t, pa)
  | n + 1 => setLoop tmpl physInc (update t i (.leaf (tmpl pa))) (i + 1) (pa + physInc) n

def Table.map (d : Ldesc) (base : ℕ) (tmpl : ℕ → P) (t : Table P) (phys virt virtEnd : ℕ) :
    Table P × ℕ :=
  let r := setLoop tmpl (2 ^ (d.shift + base)) t (d.index virt) phys
    (d.index virtEnd + 1 - d.index virt)
  (r.1, r.2 - phys)

/-- The loop over the entries of a table above the target level. It looks at `virt_index_end`
only behind an entry that refers to a table. -/
def unmapLoop (w : Walker) (d : Ldesc) (sub : Table P → ℕ → ℕ → Except Stop (Table P))
    (virtEnd : ℕ) : ℕ → ℕ → ℕ → Table P → Except Stop (Table P)
  | 0, _, _, _ => .error .running
  | fuel + 1, i, virtStart, t =>
    match w.slot d i with
    | none => .error .outside
    | some k =>
      match t k with
      | .next x => do
        let ve := if i < d.index virtEnd then (i + 1) * 2 ^ d.shift - 1 else virtEnd
        let x' ← sub x virtStart ve
        let t' := update t k (.next x')
        if d.index virtEnd ≤ i then pure t'
        else unmapLoop w d sub virtEnd fuel (i + 1) ((i + 1) * 2 ^ d.shift) t'
      | _ => unmapLoop w d sub virtEnd fuel (i + 1) ((i + 1) * 2 ^ d.shift) t

def unmapLevels (w : Walker) (fuel : ℕ) :
    ℕ → List Ldesc → Table P → ℕ → ℕ → Except Stop (Table P)
  | 0, d :: d' :: _, t, start, virtEnd =>
    unmapLoop w d (fun x vs ve => .ok (x.unmap d' vs (w.leafEnd ve virtEnd))) virtEnd fuel
      (d.index start) start t
  | depth + 1, d :: ds, t, start, virtEnd =>
    unmapLoop w d (unmapLevels w fuel depth ds) virtEnd fuel (d.index start) start t
  | _, _, _, _, _ => .error .outside

def recUnmap (fuel levels : ℕ) (ds : List Ldesc) (t : Table P) (start virtEnd : ℕ) :
    Except Stop (Table P) :=
  match levels, ds with
  | 0, d :: _ => .ok (t.unmap d start virtEnd)
  | depth + 1, ds => unmapLevels recursive fuel depth ds t start virtEnd
  | _, _ => .error .outside

/-- `Iter_bits::Walk::unmap` does nothing for a range that is not inside one root table. -/
def iterUnmap (fuel levels : ℕ) (ds : List Ldesc) (t : Table P) (start virtEnd : ℕ) :
    Except Stop (Table P) :=
  match levels, ds with
  | _, [] => .error .outside
  | levels, d :: ds =>
    if d.shift + d.size < 64 ∧ start / d.span ≠ virtEnd / d.span then .ok t
    else match levels with
      | 0 => .ok (t.unmap d start virtEnd)
      | depth + 1 => unmapLevels iterative fuel depth (d :: ds) t start virtEnd

structure Alloc where
  valid : Bool
  outcomes : List Bool
deriving DecidableEq, Repr

def Alloc.alloc : Alloc → Option Alloc
  | ⟨v, true :: rest⟩ => some ⟨v, rest⟩
  | _ => none

structure Mapped (P : Type) where
  table : Table P
  alloc : Alloc
  size : ℕ

def empty : Table P := fun _ => .invalid

/-- The table behind entry `k`, allocated if there is none: the table with the entry set, the
table of the next level, and the allocator; `inl` is a return with size 0. -/
def nextTable (leafTest : Bool) (t : Table P) (k : ℕ) (al : Alloc) :
    Except Stop (Mapped P ⊕ Table P × Table P × Alloc) :=
  match t k with
  | .invalid =>
    if al.valid then
      match al.alloc with
      | none => .ok (.inl ⟨t, al, 0⟩)
      | some al' => .ok (.inr (update t k (.next empty), empty, al'))
    else .ok (.inl ⟨t, al, 0⟩)
  | .leaf _ => if leafTest then .ok (.inl ⟨t, al, 0⟩) else .error .outside
  | .next x => .ok (.inr (t, x, al))

/-- The loop over the entries of a table above the target level; `n` entries are still ahead
of the last one. -/
def mapLoop (w : Walker) (d : Ldesc)
    (sub : Table P → Alloc → ℕ → ℕ → ℕ → Except Stop (Mapped P)) (virtEnd : ℕ) :
    ℕ → ℕ → ℕ → ℕ → Table P → Alloc → Except Stop (Mapped P)
  | n, i, virt, phys, t, al =>
    match w.slot d i with
    | none => .error .outside
    | some k =>
      match nextTable (w.mapLeaf d) t k al with
      | .error s => .error s
      | .ok (.inl r) => .ok r
      | .ok (.inr (t, x, al)) => do
        let ve := if i < d.index virtEnd then (i + 1) * 2 ^ d.shift - 1 else virtEnd
        let r ← sub x al phys virt ve
        let t := update t k (.next r.table)
        if r.size = 0 then pure ⟨t, r.alloc, 0⟩
        else match n with
          | 0 => pure ⟨t, r.alloc, r.size⟩
          | n + 1 =>
            mapLoop w d sub virtEnd n (i + 1) ((i + 1) * 2 ^ d.shift) (phys + r.size) t r.alloc

def mapLevels (w : Walker) (base : ℕ) (tmpl : ℕ → P) :
    ℕ → List Ldesc → Table P → Alloc → ℕ → ℕ → ℕ → Except Stop (Mapped P)
  | 0, d :: _, t, al, phys, virt, virtEnd =>
    let r := t.map d base tmpl phys virt virtEnd
    .ok ⟨r.1, al, r.2⟩
  | levels + 1, d :: ds, t, al, phys, virt, virtEnd =>
    mapLoop w d (mapLevels w base tmpl levels ds) virtEnd (d.index virtEnd - d.index virt)
      (d.index virt) virt phys t al
  | _, _, _, _, _, _, _ => .error .outside

def recMap (base : ℕ) (tmpl : ℕ → P) (levels : ℕ) (ds : List Ldesc) (t : Table P) (al : Alloc)
    (phys virt virtEnd : ℕ) : Except Stop (Mapped P) :=
  mapLevels recursive base tmpl levels ds t al phys virt virtEnd

def iterMap (base : ℕ) (tmpl : ℕ → P) (levels : ℕ) (ds : List Ldesc) (t : Table P) (al : Alloc)
    (phys virt virtEnd : ℕ) : Except Stop (Mapped P) :=
  match ds with
  | [] => .error .outside
  | d :: ds =>
    if d.shift + d.size < 64 ∧ virt / d.span ≠ virtEnd / d.span then .ok ⟨t, al, 0⟩
    else mapLevels iterative base tmpl levels (d :: ds) t al phys virt virtEnd

def walk (w : Walker) : ℕ → List Ldesc → Table P → ℕ → Except Stop (Entry P × ℕ)
  | 0, d :: _, t, virt => .ok (t (d.index virt), 0)
  | levels + 1, d :: ds, t, virt =>
    match t (d.index virt) with
    | .invalid => .ok (.invalid, levels + 1)
    | .leaf p => if w.walkLeaf d then .ok (.leaf p, levels + 1) else .error .outside
    | .next x => walk w levels ds x virt
  | _, _, _, _ => .error .outside

/-- The slots of a table of one level are as large as the tables of the next. -/
def Tiled : List Ldesc → Prop
  | d :: d' :: ds => d.shift = d'.shift + d'.size ∧ Tiled (d' :: ds)
  | _ => True

end Fiasco.Ptab
