import Fiasco.Kmem
import Fiasco.Ptab.Walk

/-!
# Page tables in memory

Tables as the walkers find them: pieces of kernel memory that are allocated, read, written and
freed, with entries that refer to a table by its place. A table that is not live is not read: such
an access, like one behind the end of a table or through a page taken for a table, leaves the
hierarchy (`outside`).

The index of `Entry_vec::idx` is masked here as everywhere; the only tables without a mask are root
tables that have an entry for every address.
-/
namespace Fiasco.Ptab

inductive Slot (P : Type) where
  | invalid
  | leaf (p : P)
  | next (x : ℕ)
deriving DecidableEq

def Slot.isValid {P : Type} : Slot P → Bool
  | .invalid => false
  | _ => true

/-- `taken` and `freed` are the allocations and frees of the walkers, in their order. -/
structure Mem (P : Type) where
  km : Kmem Unit
  cell : ℕ → ℕ → Slot P
  taken : List (Charge Unit)
  freed : List (Charge Unit)

variable {P : Type}

namespace Mem

def read (m : Mem P) (d : Ldesc) (a i : ℕ) : Except Stop (Slot P) :=
  if a ∈ m.km.live ∧ i < d.length then .ok (m.cell a i) else .error .outside

def write (m : Mem P) (a i : ℕ) (e : Slot P) : Mem P :=
  { m with cell := Function.update m.cell a (Function.update (m.cell a) i e) }

def allocNext (m : Mem P) (a i bytes : ℕ) : Option ℕ × Mem P :=
  match m.km.qAlloc () bytes with
  | (none, km) => (none, { m with km := km })
  | (some x, km) =>
    let m : Mem P := { m with
      km := km
      cell := Function.update m.cell x fun _ => .invalid
      taken := m.taken ++ [⟨[x], bytes, ()⟩] }
    (some x, m.write a i (.next x))

def free (m : Mem P) (x bytes : ℕ) : Mem P :=
  { m with km := m.km.release (fun _ => ()) ⟨[x], bytes, ()⟩, freed := m.freed ++ [⟨[x], bytes, ()⟩] }

end Mem

def Ldesc.bytes (eb : ℕ) (d : Ldesc) : ℕ := 2 ^ eb * d.length

structure Pte where
  table : ℕ
  slot : ℕ
  above : ℕ
deriving DecidableEq

/-- `walk` with an allocator. The two walkers differ in how they find a page on the way. -/
def walkAlloc (w : Walker) (valid : Bool) (eb : ℕ) :
    ℕ → List Ldesc → Mem P → ℕ → ℕ → Except Stop (Mem P × Pte)
  | 0, d :: _, m, n, virt => .ok (m, ⟨n, d.index virt, 0⟩)
  | levels + 1, d :: d' :: ds, m, n, virt => do
    let e : Pte := ⟨n, d.index virt, levels + 1⟩
    match ← m.read d n (d.index virt) with
    | .invalid =>
      if valid then
        match m.allocNext n (d.index virt) (d'.bytes eb) with
        | (none, m) => pure (m, e)
        | (some x, m) => walkAlloc w valid eb levels (d' :: ds) m x virt
      else pure (m, e)
    | .leaf _ => if w.walkLeaf d then pure (m, e) else .error .outside
    | .next x => walkAlloc w valid eb levels (d' :: ds) m x virt
  | _, _, _, _, _ => .error .outside

structure Destroy where
  valid : Bool
  eb : ℕ
  startLevel : ℕ
  endLevel : ℕ

def recDestroyLoop (d : Ldesc) (free : ℕ → Mem P → Mem P)
    (sub : ℕ → ℕ → ℕ → Mem P → Except Stop (Mem P)) (n start stop idxStart idxEnd : ℕ) :
    ℕ → ℕ → Mem P → Except Stop (Mem P)
  | 0, _, m => .ok m
  | k + 1, idx, m => do
    match ← m.read d n idx with
    | .invalid => recDestroyLoop d free sub n start stop idxStart idxEnd k (idx + 1) m
    | .leaf _ =>
      if d.mayBeLeaf then recDestroyLoop d free sub n start stop idxStart idxEnd k (idx + 1) m
      else .error .outside
    | .next x =>
      let m ← sub x (if idxStart < idx then 0 else start)
        (if idx + 1 < idxEnd then 2 ^ d.shift - 1 else stop) m
      recDestroyLoop d free sub n start stop idxStart idxEnd k (idx + 1) (free x m)

def Destroy.free (q : Destroy) (level : ℕ) (d' : Ldesc) (x : ℕ) (m : Mem P) : Mem P :=
  if level ≤ q.startLevel then m.free x (d'.bytes q.eb) else m

/-- `Recursive_bits::Walk::destroy`; there is nothing below a table of the leaf level. -/
def recDestroy (q : Destroy) : List Ldesc → ℕ → ℕ → ℕ → Mem P → Except Stop (Mem P)
  | d :: d' :: ds, n, start, stop, m =>
    if !q.valid || ds.length + 1 ≤ q.endLevel then .ok m
    else recDestroyLoop d (q.free (ds.length + 1) d') (recDestroy q (d' :: ds)) n start stop
      (d.index start) (d.index stop + 1) (d.index stop + 1 - d.index start) (d.index start) m
  | [_], _, _, _, m => .ok m
  | [], _, _, _, _ => .error .outside

/-- `Ldesc::offset`: the index in bytes. If the shifts of all levels, of which `minShift` is the
smallest, leave room for it, there is only one shift. -/
def Ldesc.offset (eb minShift : ℕ) (d : Ldesc) (a : ℕ) : ℕ :=
  if minShift < eb then (a >>> d.shift &&& (2 ^ d.size - 1)) <<< eb
  else a >>> (d.shift - eb) &&& ((2 ^ d.size - 1) <<< eb)

def iterDestroyLoop (d : Ldesc) (eb : ℕ) (free : ℕ → Mem P → Mem P)
    (sub : ℕ → ℕ → ℕ → Mem P → Except Stop (Mem P)) (n start stop ofsStart ofsEnd : ℕ) :
    ℕ → ℕ → Mem P → Except Stop (Mem P)
  | 0, _, _ => .error .running
  | fuel + 1, ofs, m =>
    if ofs ≤ ofsEnd then do
      match ← m.read d n (ofs / 2 ^ eb) with
      | .invalid => iterDestroyLoop d eb free sub n start stop ofsStart ofsEnd fuel (ofs + 2 ^ eb) m
      | .leaf _ =>
        if d.mayBeLeaf then
          iterDestroyLoop d eb free sub n start stop ofsStart ofsEnd fuel (ofs + 2 ^ eb) m
        else .error .outside
      | .next x =>
        let m ← sub x (if ofsStart < ofs then 0 else start)
          (if ofs < ofsEnd then 2 ^ d.shift - 1 else stop) m
        iterDestroyLoop d eb free sub n start stop ofsStart ofsEnd fuel (ofs + 2 ^ eb) (free x m)
    else .ok m

def iterDestroyAt (q : Destroy) (minShift : ℕ) :
    ℕ → List Ldesc → ℕ → ℕ → ℕ → Mem P → Except Stop (Mem P)
  | depth, d :: d' :: ds, n, start, stop, m =>
    iterDestroyLoop d q.eb (q.free (ds.length + 1) d')
      (fun x vs ve m => match depth with
        | 0 => .ok m
        | depth + 1 => iterDestroyAt q minShift depth (d' :: ds) x vs ve m)
      n start stop (d.offset q.eb minShift start) (d.offset q.eb minShift stop) (d.length + 1)
      (d.offset q.eb minShift start) m
  | _, _, _, _, _, _ => .error .outside

def minShift (ds : List Ldesc) : ℕ := (ds.getLast?.map Ldesc.shift).getD 0

def iterDestroy (q : Destroy) (ds : List Ldesc) (n start stop : ℕ) (m : Mem P) :
    Except Stop (Mem P) :=
  if q.startLevel < q.endLevel then .error .outside
  else if !q.valid || ds.length - 1 ≤ q.endLevel then .ok m
  else iterDestroyAt q (minShift ds) (ds.length - 1 - q.endLevel - 1) ds n start stop m

structure Cursor where
  la : ℕ
  ra : ℕ
  size : ℕ
deriving DecidableEq

def Cursor.advance (word k : ℕ) (c : Cursor) : Cursor :=
  { c with la := (c.la + k) % 2 ^ word, ra := (c.ra + k) % 2 ^ word }

def syncCount (d : Ldesc) (c : Cursor) : ℕ :=
  let count := c.size / 2 ^ d.shift % 2 ^ 32
  let mx := max (d.index c.la) (d.index c.ra)
  if d.length ≤ (mx + count) % 2 ^ 32 then d.length - mx else count

def copyLoop (d : Ldesc) (l r lx rx : ℕ) : ℕ → Mem P → Bool → Except Stop (Mem P × Bool)
  | 0, m, flush => .ok (m, flush)
  | n + 1, m, flush => do
    let e ← m.read d l (lx + n)
    let e' ← m.read d r (rx + n)
    copyLoop d l r lx rx n (m.write l (lx + n) e') (flush || e.isValid)

abbrev Synced (P : Type) := Mem P × Cursor × Option Bool

def levelSync (word : ℕ) (d : Ldesc) (l r : ℕ) (c : Cursor) (m : Mem P) : Except Stop (Synced P) := do
  let count := syncCount d c
  let (m, flush) ← copyLoop d l r (d.index c.la) (d.index c.ra) count m false
  let size := (c.size + 2 ^ word - count * 2 ^ d.shift % 2 ^ word) % 2 ^ word
  pure (m, { c.advance word (count * 2 ^ d.shift) with size := size }, some flush)

/-- The table on the left that a valid entry on the right is synced to; `none` if there is no
memory for it. -/
def syncNext (valid : Bool) (d : Ldesc) (bytes l i : ℕ) (m : Mem P) :
    Except Stop (Option ℕ × Mem P) := do
  match ← m.read d l i with
  | .invalid => if valid then pure (m.allocNext l i bytes) else pure (none, m)
  | .leaf _ => .error .outside
  | .next x => pure (some x, m)

def syncLoop (word : ℕ) (valid : Bool) (d : Ldesc) (bytes : ℕ)
    (sub : ℕ → ℕ → Cursor → Mem P → Except Stop (Synced P)) (l r : ℕ) :
    ℕ → Cursor → Mem P → Bool → Except Stop (Synced P)
  | 0, c, m, flush => .ok (m, c, some flush)
  | i + 1, c, m, flush =>
    if c.size = 0 then .ok (m, c, some flush)
    else do
      let e ← m.read d r (d.index c.ra)
      if e.isValid then
        let (x, m) ← syncNext valid d bytes l (d.index c.la) m
        match x, e with
        | none, _ => pure (m, c, none)
        | some x, .next y =>
          let (m, c, err) ← sub x y c m
          match err with
          | none => pure (m, c, none)
          | some f => syncLoop word valid d bytes sub l r i c m (flush || f)
        | some _, _ => .error .outside
      else
        let c' := c.advance word (2 ^ d.shift)
        if 2 ^ d.shift < c.size then
          syncLoop word valid d bytes sub l r i { c' with size := c.size - 2 ^ d.shift } m flush
        else pure (m, c', some flush)

def recSync (word : ℕ) (valid : Bool) (eb : ℕ) :
    ℕ → List Ldesc → ℕ → ℕ → Cursor → Mem P → Except Stop (Synced P)
  | 0, d :: _, l, r, c, m => levelSync word d l r c m
  | levels + 1, d :: d' :: ds, l, r, c, m =>
    syncLoop word valid d (d'.bytes eb) (recSync word valid eb levels (d' :: ds)) l r (syncCount d c) c m
      false
  | _, _, _, _, _, _ => .error .outside

def iterSyncAt (word : ℕ) (valid : Bool) (eb : ℕ) :
    ℕ → List Ldesc → ℕ → ℕ → Cursor → Mem P → Except Stop (Synced P)
  | depth, d :: d' :: ds, l, r, c, m =>
    syncLoop word valid d (d'.bytes eb)
      (fun x y c m => match depth with
        | 0 => levelSync word d' x y c m
        | depth + 1 => iterSyncAt word valid eb depth (d' :: ds) x y c m)
      l r (syncCount d c) c m false
  | _, _, _, _, _, _ => .error .outside

def iterSync (word : ℕ) (valid : Bool) (eb levels : ℕ) (ds : List Ldesc) (l r : ℕ) (c : Cursor)
    (m : Mem P) : Except Stop (Synced P) :=
  match levels, ds with
  | 0, d :: _ => levelSync word d l r c m
  | depth + 1, ds => iterSyncAt word valid eb depth ds l r c m
  | _, [] => .error .outside

end Fiasco.Ptab
