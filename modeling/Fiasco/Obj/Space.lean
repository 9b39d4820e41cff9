import Mathlib

/-!
# Capability tables

A space has a directory of pages of capability entries, and a kernel object has the list of the
entries that name it. An entry keeps the rights on its object in two places: the two lower bits of
the capability word, and the flags of the mapping.
-/
namespace Fiasco.Obj

open Option Function

abbrev Attr := BitVec 8

namespace Attr

def weakRef : Attr := 0x10

def fullRights : Attr := 0xf

def full : Attr := 0xff

def extra (a : Attr) : Attr := a &&& 0xf0

def empty (a : Attr) : Bool := !a.getLsbD 2

end Attr

/-- An entry of a capability table. The word of a void capability is 0. -/
structure Entry (O : Type) where
  obj : Option O
  low : BitVec 2
  flags : Attr
deriving DecidableEq, Repr

namespace Entry

variable {O : Type}

def void : Entry O := ⟨none, 0, 0⟩

section

variable (e : Entry O)

def valid : Bool := e.obj.isSome

def rights : Attr := e.low.setWidth 8 ||| (e.flags &&& ~~~3) ||| 0x4

def set (o : O) (a : Attr) : Entry O := ⟨some o, a.setWidth 2, a &&& 0xf8⟩

def addRights (a : Attr) : Entry O :=
  { e with low := e.low ||| a.setWidth 2, flags := e.flags ||| (a &&& 0xf8) }

def delRights (r : Attr) : Entry O :=
  { e with low := e.low &&& ~~~(r.setWidth 2), flags := e.flags &&& ~~~(r &&& 0xf8) }

def invalidate : Entry O := { e with obj := none, low := 0 }

def deleteRights : Bool := e.flags.getLsbD 3

def isRefCounted : Bool := e.flags.getLsbD 4

def putAsRoot : Entry O := { e with flags := 0xf8 }

def delete (r : Attr) : Entry O :=
  if e.valid then (if r.getLsbD 2 then e.invalidate else e.delRights r) else e

end

variable {e : Entry O} {o o' : O} {a r : Attr} {b : ℕ}

def Gives (e : Entry O) (o : O) (b : ℕ) : Prop := e.obj = some o ∧ e.rights.getLsbD b

instance [DecidableEq O] : Decidable (e.Gives o b) := inferInstanceAs (Decidable (_ ∧ _))

theorem Gives.lt (h : e.Gives o b) : b < 8 := BitVec.lt_of_getLsbD h.2

theorem not_gives_invalidate : ¬e.invalidate.Gives o b := fun h => nomatch h.1

theorem Gives.of_set (h : (set o a).Gives o' b) : o = o' ∧ (b = 2 ∨ a.getLsbD b) := by
  refine ⟨some.inj h.1, ?_⟩
  have hb := h.lt
  have hr := h.2
  simp only [rights, set] at hr
  interval_cases b <;> simp_all

theorem Gives.of_delRights (h : (e.delRights r).Gives o b) :
    e.Gives o b ∧ (b = 2 ∨ ¬r.getLsbD b) := by
  have hb := h.lt
  have hr := h.2
  simp only [Gives, rights, delRights] at hr ⊢
  refine and_assoc.2 ⟨h.1, ?_⟩
  interval_cases b <;> simp_all

theorem Gives.of_delete (h : (e.delete r).Gives o b) : e.Gives o b ∧ ¬r.getLsbD b := by
  unfold delete at h
  split_ifs at h with hv hr
  · exact absurd h not_gives_invalidate
  · have hd := h.of_delRights
    refine ⟨hd.1, ?_⟩
    rcases hd.2 with rfl | hn
    · exact hr
    · exact hn
  · exact absurd (by rw [valid, h.1]; rfl) hv

end Entry

abbrev Slot (S : Type) := S × ℕ

structure Mappable (S : Type) where
  root : List (Slot S)
  cnt : ℤ

/-- The sizes of the tables, and the kernel objects. An IPC gate has two faces, the second of them
for capabilities without the right to bind it; both have the same list of mappings. -/
structure Layout (O R : Type) where
  capsPerPageLd2 : ℕ
  slotsPerDir : ℕ
  mapRoot : O → R
  downgrade : O → Attr → O
  mapRoot_downgrade : ∀ o a, mapRoot (downgrade o a) = mapRoot o

structure State (S O R : Type) where
  dir : S → ℕ → Bool
  tab : Slot S → Entry O
  mappable : R → Mappable S
  reap : List R
  born : List R
  /-- A list has been changed at an entry that is not linked in it. -/
  fault : Bool

inductive InsertResult
  | ok
  | warnExists
  | warnAttribUpgrade
  | errNomem
  | errExists
deriving DecidableEq, Repr

variable {S O R : Type}

namespace Layout

variable (L : Layout O R)

def page (i : ℕ) : ℕ := i / 2 ^ L.capsPerPageLd2

def mapMaxAddress : ℕ := L.slotsPerDir * 2 ^ L.capsPerPageLd2

end Layout

namespace State

variable (L : Layout O R) (s : State S O R)

section

variable [DecidableEq S] [DecidableEq O]

/-- The index is below `map_max_address` wherever an entry is changed, so the conversion of the
page number to 32 bits is left out. -/
def getCap (x : Slot S) : Option (Entry O) :=
  if L.page x.2 < L.slotsPerDir ∧ s.dir x.1 (L.page x.2) then some (s.tab x) else none

def vLookup (x : Slot S) : ℕ × Option (O × Attr) :=
  match s.getCap L x with
  | none => (L.capsPerPageLd2, none)
  | some e => (0, e.obj.map fun o => (o, e.rights))

def vDelete (x : Slot S) (r : Attr) : State S O R :=
  match s.getCap L x with
  | none => s
  | some e => { s with tab := update s.tab x (e.delete r) }

def capsAlloc (mem : ℕ → Bool) (x : Slot S) : Option (State S O R) :=
  if L.page x.2 < L.slotsPerDir ∧ mem (L.page x.2) then
    some { s with
      dir := update s.dir x.1 (update (s.dir x.1) (L.page x.2) true)
      tab := fun y => if y.1 = x.1 ∧ L.page y.2 = L.page x.2 then .void else s.tab y }
  else none

def capPage (mem : ℕ → Bool) (x : Slot S) : Option (State S O R) :=
  if (s.getCap L x).isSome then some s else s.capsAlloc L mem x

def vInsert (mem : ℕ → Bool) (o : O) (x : Slot S) (a : Attr) : InsertResult × State S O R :=
  match s.capPage L mem x with
  | none => (.errNomem, s)
  | some s =>
    match (s.tab x).obj with
    | some o' =>
      if o' = o then
        if (s.tab x).rights = a then (.warnExists, s)
        else (.warnAttribUpgrade, { s with tab := update s.tab x ((s.tab x).addRights a) })
      else (.errExists, s)
    | none => (.ok, { s with tab := update s.tab x (.set o a) })

def entry (x : Slot S) : Entry O := (s.getCap L x).getD .void

structure SetAt (x : Slot S) (o : O) (a : Attr) (t : State S O R) : Prop where
  entry : t.entry L = update (s.entry L) x (.set o a)
  mappable : t.mappable = s.mappable
  reap : t.reap = s.reap
  born : t.born = s.born
  fault : t.fault = s.fault

end

section Entries

variable {L s} {x y : Slot S} {r a : Attr} {o : O} {mem : ℕ → Bool} {t : State S O R}

theorem entry_of_getCap {e : Entry O} (h : s.getCap L x = some e) : s.entry L x = e := by
  rw [entry, h, getD_some]

theorem entry_of_getCap_none (h : s.getCap L x = none) : s.entry L x = .void := by
  rw [entry, h, getD_none]

theorem vLookup_snd : (s.vLookup L x).2 = (s.entry L x).obj.map fun o => (o, (s.entry L x).rights) := by
  unfold vLookup
  cases h : s.getCap L x with
  | none => rw [entry_of_getCap_none h]; rfl
  | some e => rw [entry_of_getCap h]

theorem vLookup_fst_of_some {p : O × Attr} (h : (s.vLookup L x).2 = some p) :
    (s.vLookup L x).1 = 0 := by
  unfold vLookup at h ⊢
  split at h
  · cases h
  · rfl

theorem entry_tab {f : Slot S → Entry O → Entry O} (hf : ∀ x, f x .void = .void)
    (hd : t.dir = s.dir) (ht : ∀ x, t.tab x = f x (s.tab x)) : t.entry L x = f x (s.entry L x) := by
  rw [entry, entry, getCap, getCap, hd]
  split_ifs with h
  · exact ht x
  · exact (hf x).symm

theorem getCap_isSome_congr (h : t.dir = s.dir) : (t.getCap L x).isSome = (s.getCap L x).isSome := by
  unfold getCap
  rw [h]
  split_ifs <;> rfl

variable [DecidableEq S]

theorem entry_vDelete :
    (s.vDelete L x r).entry L y = if y = x then (s.entry L x).delete r else s.entry L y := by
  unfold vDelete
  cases h : s.getCap L x with
  | none =>
    split_ifs with hy
    · rw [hy, entry_of_getCap_none h]; rfl
    · rfl
  | some e =>
    have hx : s.tab x = e := by
      unfold getCap at h
      split_ifs at h
      exact some.inj h
    rw [entry_tab (f := fun z c => if z = x then c.delete r else c) (s := s)]
    · split_ifs with hy
      · rw [hy]
      · rfl
    · intro z; split_ifs <;> rfl
    · rfl
    · intro z
      by_cases hz : z = x
      · simp [hz, hx]
      · simp [hz]

theorem vDelete_dir : (s.vDelete L x r).dir = s.dir := by
  unfold vDelete
  split <;> rfl

theorem vDelete_rest : (s.vDelete L x r).mappable = s.mappable ∧ (s.vDelete L x r).reap = s.reap ∧
    (s.vDelete L x r).born = s.born ∧ (s.vDelete L x r).fault = s.fault := by
  unfold vDelete
  split <;> exact ⟨rfl, rfl, rfl, rfl⟩

theorem entry_capsAlloc (hn : s.getCap L x = none) (h : s.capsAlloc L mem x = some t) :
    t.entry L = s.entry L := by
  unfold capsAlloc at h
  split_ifs at h with hm
  have hd : s.dir x.1 (L.page x.2) = false := by
    unfold getCap at hn
    split_ifs at hn with hg
    exact Bool.eq_false_iff.2 fun hc => hg ⟨hm.1, hc⟩
  funext y
  rw [← some.inj h]
  simp only [entry, getCap, Function.update_apply]
  by_cases hy : y.1 = x.1 ∧ L.page y.2 = L.page x.2
  · rw [hy.1, hy.2]
    simp [hd, hm.1]
  · by_cases h1 : y.1 = x.1
    · have h2 : L.page y.2 ≠ L.page x.2 := fun h2 => hy ⟨h1, h2⟩
      simp [h1, h2]
    · simp [h1]

theorem entry_capPage (h : s.capPage L mem x = some t) : t.entry L = s.entry L := by
  unfold capPage at h
  split_ifs at h with hc
  · rw [some.inj h]
  · exact entry_capsAlloc (not_isSome_iff_eq_none.1 hc) h

theorem getCap_capPage (h : s.capPage L mem x = some t) : t.getCap L x = some (t.tab x) := by
  unfold capPage at h
  split_ifs at h with hc
  · rw [← some.inj h]
    unfold getCap at hc ⊢
    split_ifs at hc ⊢
    · rfl
    · cases hc
  · unfold capsAlloc at h
    split_ifs at h with hm
    rw [← some.inj h]
    simp [getCap, hm.1]

theorem capPage_rest (h : s.capPage L mem x = some t) :
    t.mappable = s.mappable ∧ t.reap = s.reap ∧ t.born = s.born ∧ t.fault = s.fault := by
  unfold capPage capsAlloc at h
  split_ifs at h <;> rw [← some.inj h] <;> exact ⟨rfl, rfl, rfl, rfl⟩

variable [DecidableEq O]

theorem vInsert_ne_nomem (h : (s.getCap L x).isSome) : (s.vInsert L mem o x a).1 ≠ .errNomem := by
  have hp : s.capPage L mem x = some s := if_pos h
  simp only [vInsert, hp]
  split
  · split_ifs <;> exact nofun
  · exact nofun

variable (mem o a) in
theorem vInsert_void (hx : (s.entry L x).obj = none) :
    s.vInsert L mem o x a = (.errNomem, s) ∨
      ∃ t, s.vInsert L mem o x a = (.ok, t) ∧ s.SetAt L x o a t := by
  cases hp : s.capPage L mem x with
  | none => exact .inl (by simp only [vInsert, hp])
  | some u =>
    have he := entry_capPage hp
    have hg := getCap_capPage hp
    have hv : (u.tab x).obj = none := by
      rw [← entry_of_getCap hg, he, hx]
    obtain ⟨hm, hr, hb, hf⟩ := capPage_rest hp
    refine .inr ⟨{ u with tab := update u.tab x (.set o a) }, ?_, ?_, hm, hr, hb, hf⟩
    · simp only [vInsert, hp, hv]
    · have hpage : L.page x.2 < L.slotsPerDir ∧ u.dir x.1 (L.page x.2) := by
        unfold getCap at hg
        split_ifs at hg with h
        exact h
      funext y
      by_cases hy : y = x
      · subst hy
        simp [entry, getCap, hpage.1, hpage.2]
      · rw [Function.update_of_ne hy, ← he]
        simp [entry, getCap, hy]

end Entries

end State

end Fiasco.Obj
