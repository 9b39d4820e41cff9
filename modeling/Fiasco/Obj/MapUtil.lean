import Fiasco.Lib.Machine
import Fiasco.Obj.Mapdb

/-!
# Mapping and unmapping capabilities

The loops of `map()` and `unmap()` for the object space. Capabilities are mapped one by one: the
order of a lookup is that of a page of the table only where no page is, so the sizes that the loops
compare for memory are all 1 here.

The operations of different CPUs on one object exclude each other by the lock of the object, and a
history is a sequence of whole operations.
-/

namespace Fiasco.Obj

open Option

structure Fpage where
  raw : BitVec 64

namespace Fpage

variable (fp : Fpage)

def rights : Attr := (fp.raw.extractLsb' 0 4).setWidth 8

def order : ℕ := (fp.raw.extractLsb' 6 6).toNat

def objIndex : ℕ := (fp.raw.extractLsb' 12 52).toNat

end Fpage

structure MsgItem where
  raw : BitVec 64

namespace MsgItem

variable (it : MsgItem)

def attr : Attr := (it.raw.extractLsb' 0 8) &&& 0xf0

def isGrant : Bool := it.raw.getLsbD 1

def index : ℕ := (it.raw.extractLsb' 12 52).toNat

end MsgItem

def getLsb (a o : ℕ) : ℕ := a % 2 ^ o

def maskLsb (a o : ℕ) : ℕ := a - a % 2 ^ o

structure Window where
  snd : ℕ
  rcv : ℕ
  order : ℕ

def freeConstraint (snd so rcv ro hot : ℕ) : Window :=
  if so ≤ ro then ⟨snd, rcv + maskLsb (getLsb hot ro) so, so⟩
  else ⟨snd + maskLsb (getLsb hot so) ro, rcv, ro⟩

structure MapArgs (S : Type) where
  src : S
  rcv : S
  grant : Bool
  attribs : Attr
  mem : ℕ → Bool

inductive Flow (S O R : Type)
  | next (size : ℕ) (mapped : Bool) (s : State S O R)
  | stop (failed : Bool) (s : State S O R)

variable {S O R : Type}

namespace Flow

def state : Flow S O R → State S O R
  | next _ _ s => s
  | stop _ s => s

def size : Flow S O R → ℕ
  | next size _ _ => size
  | stop _ _ => 1

end Flow

inductive MapError
  | none
  | mapFailed
  | emptyMap
deriving DecidableEq, Repr

variable [DecidableEq S] [DecidableEq O] [DecidableEq R]

namespace State

variable (L : Layout O R) (s : State S O R)

def applyAttribs (o : O) (a set : Attr) : O × Attr :=
  (if a.extra &&& ~~~set.extra = 0 then o else L.downgrade o (~~~set.extra), a &&& set)

def mapLookupSrc (x : Slot S) (set : Attr) : ℕ × Option (O × O × Attr) :=
  match s.vLookup L x with
  | (order, none) => (order, none)
  | (order, some (o, a)) =>
    if (applyAttribs L o a set).2.empty then (order, none)
    else (order, some (o, applyAttribs L o a set))

def lookup (x : Slot S) (o : O) : Bool := (s.tab x).obj = some o

def lookupSrcDst (so : O) (sx : Slot S) (dor : O) (dx : Slot S) : ℤ :=
  if L.mapRoot dor = L.mapRoot so then
    if s.lookup sx so then (if (s.tab dx).deleteRights then 2 else 1) else -1
  else if s.lookup sx so && s.lookup dx dor then 1 else -1

def unmapDst (o : O) (x : Slot S) : State S O R :=
  (((s.vDelete L x .fullRights).flush (L.mapRoot o) x .full).freeObject (L.mapRoot o))

def register (m : MapArgs S) (sObj iObj : O) (sx dx : Slot S) (isOk : Bool) : State S O R :=
  if m.grant then
    ((s.grant (L.mapRoot sObj) sx dx).vDelete L sx .fullRights).freeObject (L.mapRoot sObj)
  else if isOk then s.insert (L.mapRoot iObj) dx
  else s

def mapInsert (m : MapArgs S) (sObj iObj : O) (a : Attr) (sx dx : Slot S) : Flow S O R :=
  match s.vInsert L m.mem iObj dx a with
  | (.ok, s) => .next 1 true (s.register L m sObj iObj sx dx true)
  | (.warnExists, s) => .next 1 true (s.register L m sObj iObj sx dx false)
  | (.warnAttribUpgrade, s) => .next 1 true (s.register L m sObj iObj sx dx false)
  | (.errNomem, s) => .stop true s
  | (.errExists, s) => .next 1 true s

/-- The body of the loop of `map()` once the sender's capability is known. The result of
`lookup_src_dst` is never 0, so an existing capability is always unmapped first. -/
def mapOver (m : MapArgs S) (sObj iObj : O) (a : Attr) (sx dx : Slot S) : Flow S O R :=
  match (s.vLookup L dx).2 with
  | some (rObj, _) =>
    let r := s.lookupSrcDst L sObj sx rObj dx
    if r < 0 then .next 1 true s
    else if r = 2 then .next 1 true (s.unmapDst L rObj dx)
    else (s.unmapDst L rObj dx).mapInsert L m sObj iObj a sx dx
  | none => if s.lookup sx sObj then s.mapInsert L m sObj iObj a sx dx else .next 1 true s

def mapTurn (m : MapArgs S) (snd rcv sndSize : ℕ) : Flow S O R :=
  match s.mapLookupSrc L (m.src, snd) m.attribs with
  | (order, none) =>
    let size := 2 ^ order - getLsb snd order
    if sndSize ≤ size then .stop false s else .next size false s
  | (_, some (sObj, iObj, a)) => s.mapOver L m sObj iObj a (m.src, snd) (m.rcv, rcv)

def mapLoop (m : MapArgs S) : ℕ → Bool → ℕ → ℕ → ℕ → State S O R → State S O R × MapError
  | 0, mapped, _, _, _, s => (s, if mapped then .none else .emptyMap)
  | fuel + 1, mapped, snd, rcv, sndSize, s =>
    if sndSize ≠ 0 ∧ rcv < L.mapMaxAddress ∧ snd < L.mapMaxAddress then
      match s.mapTurn L m snd rcv sndSize with
      | .next size mapped' s =>
        mapLoop m fuel (mapped || mapped') (snd + size) (rcv + size) (sndSize - size) s
      | .stop failed s => (s, if failed then .mapFailed else if mapped then .none else .emptyMap)
    else (s, if mapped then .none else .emptyMap)

def mapWindow (fpFrom fpTo : Fpage) (control : MsgItem) : Window :=
  freeConstraint (maskLsb fpFrom.objIndex fpFrom.order) fpFrom.order
    (maskLsb fpTo.objIndex fpTo.order) fpTo.order control.index

def sentAttribs (fpFrom : Fpage) (control : MsgItem) : Attr :=
  fpFrom.rights ||| (.weakRef ^^^ control.attr)

def mapArgs (src rcv : S) (fpFrom : Fpage) (control : MsgItem) (mem : ℕ → Bool) : MapArgs S :=
  ⟨src, rcv, control.isGrant, sentAttribs fpFrom control, mem⟩

def objMap (src rcv : S) (fpFrom fpTo : Fpage) (control : MsgItem) (mem : ℕ → Bool) :
    State S O R × MapError :=
  let w := mapWindow fpFrom fpTo control
  s.mapLoop L (mapArgs src rcv fpFrom control mem) (2 ^ w.order) false w.snd w.rcv (2 ^ w.order)

def unmapCap (x : Slot S) (o : O) (rights : Attr) (mask : MapMask) : State S O R :=
  let t := if mask.selfUnmap then s.vDelete L x rights else s
  if rights.getLsbD 2 then (t.flush (L.mapRoot o) x mask).freeObject (L.mapRoot o) else t

def unmapLoop (sp : S) (rights : Attr) (mask : MapMask) :
    ℕ → ℕ → ℕ → State S O R → State S O R
  | 0, _, _, s => s
  | fuel + 1, addr, stop, s =>
    if addr < stop ∧ addr < L.mapMaxAddress then
      match s.vLookup L (sp, addr) with
      | (order, none) => unmapLoop sp rights mask fuel (addr + 2 ^ order) stop s
      | (order, some (o, _)) =>
        let stop := if mask.selfUnmap then max stop (addr + 2 ^ order) else stop
        let t := if s.lookup (sp, addr) o then s.unmapCap L (sp, addr) o rights mask else s
        unmapLoop sp rights mask fuel (addr + 2 ^ order) stop t
    else s

def objFpageUnmap (sp : S) (fp : Fpage) (mask : MapMask) : State S O R :=
  let addr := maskLsb fp.objIndex fp.order
  s.unmapLoop L sp fp.rights mask (2 ^ fp.order) addr (addr + 2 ^ fp.order)

def map (o : O) (x : Slot S) (mem : ℕ → Bool) : State S O R × Bool :=
  if L.mapMaxAddress ≤ x.2 then (s, false)
  else
    let t :=
      match s.vLookup L x with
      | (_, none) => s
      | (order, some _) =>
        s.unmapLoop L x.1 .fullRights .full (2 ^ order) x.2 (x.2 + 2 ^ order)
    match t.vInsert L mem o x .full with
    | (.ok, t) => (t.insertRootMapping (L.mapRoot o) x, true)
    | (.errNomem, t) => (t, false)
    | (_, t) => (t, true)

end State

inductive Op (S O : Type)
  | create (o : O) (x : Slot S) (mem : ℕ → Bool)
  | map (src rcv : S) (fpFrom fpTo : Fpage) (control : MsgItem) (mem : ℕ → Bool)
  | unmap (sp : S) (fp : Fpage) (mask : MapMask)

def step (L : Layout O R) (s : State S O R) : Op S O → State S O R
  | .create o x mem =>
    if L.mapRoot o ∈ s.born then s
    else ({ s with born := L.mapRoot o :: s.born }.map L o x mem).1
  | .map src rcv fpFrom fpTo control mem => (s.objMap L src rcv fpFrom fpTo control mem).1
  | .unmap sp fp mask => s.objFpageUnmap L sp fp mask

def boot : State S O R where
  dir := fun _ _ => false
  tab := fun _ => .void
  mappable := fun _ => ⟨[], 0⟩
  reap := []
  born := []
  fault := false

namespace State

variable {L : Layout O R} {m : MapArgs S}

def EachTurn (L : Layout O R) (m : MapArgs S) (P : State S O R → Slot S → Slot S → Prop) :
    ℕ → ℕ → ℕ → ℕ → State S O R → Prop
  | 0, _, _, _, _ => True
  | fuel + 1, snd, rcv, sndSize, s =>
    if sndSize ≠ 0 ∧ rcv < L.mapMaxAddress ∧ snd < L.mapMaxAddress then
      P s (m.src, snd) (m.rcv, rcv) ∧
        match s.mapTurn L m snd rcv sndSize with
        | .next size _ s => EachTurn L m P fuel (snd + size) (rcv + size) (sndSize - size) s
        | .stop _ _ => True
    else True

theorem mapLoop_rule {I : ℕ → State S O R → Prop} {P : State S O R → Slot S → Slot S → Prop}
    {snd rcv n : ℕ}
    (hturn : ∀ i s, i < n → I i s → P s (m.src, snd + i) (m.rcv, rcv + i) →
      I (i + (s.mapTurn L m (snd + i) (rcv + i) (n - i)).size)
        (s.mapTurn L m (snd + i) (rcv + i) (n - i)).state) :
    ∀ fuel i mapped s, I i s → EachTurn L m P fuel (snd + i) (rcv + i) (n - i) s →
      ∃ j, I j (mapLoop L m fuel mapped (snd + i) (rcv + i) (n - i) s).1 := by
  intro fuel
  induction fuel with
  | zero => exact fun i _ s hs _ => ⟨i, hs⟩
  | succ fuel ih =>
    intro i mapped s hs hP
    rw [EachTurn] at hP
    rw [mapLoop]
    by_cases hc : n - i ≠ 0 ∧ rcv + i < L.mapMaxAddress ∧ snd + i < L.mapMaxAddress
    · rw [if_pos hc] at hP ⊢
      have hi : i < n := by omega
      have hI := hturn i s hi hs hP.1
      cases ht : s.mapTurn L m (snd + i) (rcv + i) (n - i) with
      | next size mapped' t =>
        rw [ht] at hP hI
        simp only [Nat.add_assoc, Nat.sub_sub] at hP ⊢
        exact ih (i + size) _ t hI hP.2
      | stop failed t =>
        rw [ht] at hI
        exact ⟨i + 1, hI⟩
    · rw [if_neg hc]
      exact ⟨i, hs⟩

theorem EachTurn.mono {P Q : State S O R → Slot S → Slot S → Prop} (h : ∀ s sx dx, P s sx dx → Q s sx dx) :
    ∀ fuel {snd rcv n} {s : State S O R}, EachTurn L m P fuel snd rcv n s →
      EachTurn L m Q fuel snd rcv n s := by
  intro fuel
  induction fuel with
  | zero => exact fun _ => trivial
  | succ fuel ih =>
    intro snd rcv n s hP
    rw [EachTurn] at hP ⊢
    split_ifs at hP ⊢
    · refine ⟨h _ _ _ hP.1, ?_⟩
      split
      · rename_i ht
        rw [ht] at hP
        exact ih hP.2
      · trivial

theorem eachTurn_true : ∀ fuel snd rcv n (s : State S O R),
    EachTurn L m (fun _ _ _ => True) fuel snd rcv n s := by
  intro fuel
  induction fuel with
  | zero => exact fun _ _ _ _ => trivial
  | succ fuel ih =>
    intro snd rcv n s
    rw [EachTurn]
    split_ifs
    · refine ⟨trivial, ?_⟩
      split
      · exact ih _ _ _ _
      · trivial

variable {s : State S O R} {x : Slot S} {o : O}

section Turn

variable {sx dx : Slot S} {sObj iObj : O} {a : Attr}

def Sends (L : Layout O R) (s : State S O R) (sx : Slot S) (set : Attr) (sObj iObj : O)
    (a : Attr) : Prop :=
  (s.entry L sx).obj = some sObj ∧ (iObj, a) = applyAttribs L sObj (s.entry L sx).rights set ∧
    a.empty = false

def Inserts (L : Layout O R) (m : MapArgs S) (sx dx : Slot S) (sObj iObj : O) (a : Attr)
    (v t : State S O R) : Prop :=
  ∃ u, v.SetAt L dx iObj a u ∧ t = u.register L m sObj iObj sx dx true

inductive Turn (L : Layout O R) (m : MapArgs S) (s : State S O R) (sx dx : Slot S) :
    State S O R → Prop
  | idle : (∀ sObj iObj a, ¬s.Sends L sx m.attribs sObj iObj a) → Turn L m s sx dx s
  | full : (s.entry L dx).obj = none → Turn L m s sx dx s
  | gone {sObj iObj a rObj} : s.Sends L sx m.attribs sObj iObj a →
      (s.entry L dx).obj = some rObj → L.mapRoot rObj = L.mapRoot sObj →
      (s.entry L dx).deleteRights → Turn L m s sx dx (s.unmapDst L rObj dx)
  | fresh {sObj iObj a t} : s.Sends L sx m.attribs sObj iObj a → (s.entry L dx).obj = none →
      Inserts L m sx dx sObj iObj a s t → Turn L m s sx dx t
  | overmap {sObj iObj a rObj t} : s.Sends L sx m.attribs sObj iObj a →
      (s.entry L dx).obj = some rObj →
      ¬(L.mapRoot rObj = L.mapRoot sObj ∧ (s.entry L dx).deleteRights) →
      Inserts L m sx dx sObj iObj a (s.unmapDst L rObj dx) t → Turn L m s sx dx t

omit [DecidableEq S] [DecidableEq O] [DecidableEq R] in
theorem mapLookupSrc_eq_some {set : Attr} :
    (s.mapLookupSrc L x set).2 = some (sObj, iObj, a) ↔ s.Sends L x set sObj iObj a := by
  have hsnd := s.vLookup_snd (L := L) (x := x)
  unfold mapLookupSrc Sends
  cases hv : s.vLookup L x with
  | mk order found =>
    rw [hv] at hsnd
    cases ho : (s.entry L x).obj with
    | none =>
      rw [ho] at hsnd
      subst hsnd
      simp
    | some o =>
      rw [ho] at hsnd
      subst hsnd
      simp only [map_some]
      split_ifs with he
      · simp only [some.injEq, false_iff]
        rintro ⟨rfl, h, ha⟩
        rw [← h] at he
        rw [ha] at he
        cases he
      · simp only [some.injEq, Prod.mk.injEq]
        constructor
        · rintro ⟨rfl, h⟩
          rw [h] at he ⊢
          exact ⟨rfl, rfl, by simpa using he⟩
        · rintro ⟨rfl, h, -⟩
          exact ⟨rfl, h.symm⟩

omit [DecidableEq S] [DecidableEq R] in
theorem lookup_of_entry (h : (s.entry L x).obj = some o) : s.lookup x o = true := by
  have hn : s.names L x = some (L.mapRoot o) := by rw [names, h]; rfl
  rw [lookup, tab_of_names hn, h]
  simp

section

omit [DecidableEq O]

theorem unmapDst_dir : (s.unmapDst L o dx).dir = s.dir := by
  rw [unmapDst, freeObject_dir, flush_dir, vDelete_dir]

theorem unmapDst_self (h : (s.entry L dx).obj = some o) :
    ((s.unmapDst L o dx).entry L dx).obj = none ∧ ((s.unmapDst L o dx).getCap L dx).isSome := by
  have hn : s.names L dx = some (L.mapRoot o) := by rw [names, h]; rfl
  constructor
  · rw [unmapDst, entry_freeObject]
    have hv : ((s.vDelete L dx .fullRights).entry L dx).obj = none := by
      rw [entry_vDelete, if_pos rfl, delete_of_names hn rfl]
      rfl
    rcases entry_flush .full (L := L) (s := s.vDelete L dx .fullRights) (r := L.mapRoot o)
      (x := dx) (y := dx) with he | he
    · rw [he, hv]
    · rw [he.2]; rfl
  · rw [getCap_isSome_congr unmapDst_dir, getCap_of_names hn]
    rfl

end

variable (m sx sObj iObj a) in
theorem mapInsert_void {v : State S O R} (hv : (v.entry L dx).obj = none) :
    (v.mapInsert L m sObj iObj a sx dx).size = 1 ∧
      ((v.mapInsert L m sObj iObj a sx dx).state = v ∧ (v.getCap L dx).isSome = false ∨
        Inserts L m sx dx sObj iObj a v (v.mapInsert L m sObj iObj a sx dx).state) := by
  rcases vInsert_void a iObj m.mem hv with h | ⟨u, h, hu⟩
  · have hn : (v.getCap L dx).isSome = false :=
      Bool.eq_false_iff.2 fun hc => vInsert_ne_nomem hc (congrArg Prod.fst h)
    simp only [mapInsert, h]
    exact ⟨rfl, .inl ⟨rfl, hn⟩⟩
  · simp only [mapInsert, h]
    exact ⟨rfl, .inr ⟨u, hu, rfl⟩⟩

variable (dx) in
theorem mapOver_turn (h : s.Sends L sx m.attribs sObj iObj a) :
    (s.mapOver L m sObj iObj a sx dx).size = 1 ∧
      Turn L m s sx dx (s.mapOver L m sObj iObj a sx dx).state := by
  have hsrc := lookup_of_entry h.1
  have hfound := s.vLookup_snd (L := L) (x := dx)
  unfold mapOver
  cases hd : (s.entry L dx).obj with
  | none =>
    rw [hd] at hfound
    simp only [hfound, map_none, hsrc, if_true]
    obtain ⟨hsize, ⟨hs, -⟩ | hi⟩ := mapInsert_void m sx sObj iObj a hd
    · rw [hs]
      exact ⟨hsize, .full hd⟩
    · exact ⟨hsize, .fresh h hd hi⟩
  | some rObj =>
    rw [hd] at hfound
    have hdst := lookup_of_entry hd
    have hn : s.names L dx = some (L.mapRoot rObj) := by rw [names, hd]; rfl
    obtain ⟨hvoid, hpage⟩ := unmapDst_self hd
    simp only [hfound, map_some, lookupSrcDst, hsrc, hdst, Bool.and_self, if_true, tab_of_names hn]
    by_cases hg : L.mapRoot rObj = L.mapRoot sObj ∧ (s.entry L dx).deleteRights
    · simp only [hg.1, hg.2, if_true]
      exact ⟨rfl, .gone h hd hg.1 hg.2⟩
    · have hr : (if L.mapRoot rObj = L.mapRoot sObj then
          if (s.entry L dx).deleteRights then (2 : ℤ) else 1 else 1) = 1 := by
        split_ifs with h1 h2
        · exact absurd ⟨h1, h2⟩ hg
        · rfl
        · rfl
      rw [hr]
      simp only [Int.reduceLT, if_false, OfNat.one_ne_ofNat]
      obtain ⟨hsize, ⟨-, hno⟩ | hi⟩ := mapInsert_void m sx sObj iObj a hvoid
      · rw [hpage] at hno; cases hno
      · exact ⟨hsize, .overmap h hd hg hi⟩

theorem mapTurn_turn (snd rcv n : ℕ) :
    Turn L m s (m.src, snd) (m.rcv, rcv) (s.mapTurn L m snd rcv n).state ∧
      1 ≤ (s.mapTurn L m snd rcv n).size ∧
      ((s.mapTurn L m snd rcv n).state = s ∨ (s.mapTurn L m snd rcv n).size = 1) := by
  unfold mapTurn
  cases hl : s.mapLookupSrc L (m.src, snd) m.attribs with
  | mk order found =>
    cases found with
    | none =>
      have hidle : Turn L m s (m.src, snd) (m.rcv, rcv) s := by
        refine .idle fun sObj iObj a hs => ?_
        rw [← mapLookupSrc_eq_some, hl] at hs
        cases hs
      have hlt : getLsb snd order < 2 ^ order := Nat.mod_lt _ (Nat.two_pow_pos order)
      simp only
      split_ifs
      · exact ⟨hidle, le_rfl, .inl rfl⟩
      · refine ⟨hidle, ?_, .inl rfl⟩
        change 1 ≤ 2 ^ order - getLsb snd order
        omega
    | some p =>
      obtain ⟨sObj, iObj, a⟩ := p
      have hs : s.Sends L (m.src, snd) m.attribs sObj iObj a :=
        mapLookupSrc_eq_some.1 (by rw [hl])
      obtain ⟨hsize, hturn⟩ := mapOver_turn (m.rcv, rcv) hs
      exact ⟨hturn, hsize.ge, .inr hsize⟩

end Turn

section UnmapLoop

variable {sp : S} {rights : Attr} {mask : MapMask}

theorem unmapLoop_rule {I : ℕ → State S O R → Prop} {stop : ℕ}
    (hskip : ∀ addr s order, addr < stop → s.vLookup L (sp, addr) = (order, none) →
      I addr s → I (addr + 2 ^ order) s)
    (hcap : ∀ addr s o, addr < stop → (s.entry L (sp, addr)).obj = some o → I addr s →
      I (addr + 1) (s.unmapCap L (sp, addr) o rights mask)) :
    ∀ fuel addr s, I addr s → stop ≤ addr + fuel →
      ∃ j, I j (unmapLoop L sp rights mask fuel addr stop s) ∧ (stop ≤ j ∨ L.mapMaxAddress ≤ j) := by
  intro fuel
  induction fuel with
  | zero => exact fun addr s hs hf => ⟨addr, hs, .inl hf⟩
  | succ fuel ih =>
    intro addr s hs hf
    rw [unmapLoop]
    by_cases hc : addr < stop ∧ addr < L.mapMaxAddress
    · rw [if_pos hc]
      cases hl : s.vLookup L (sp, addr) with
      | mk order found =>
        have hpos : 0 < 2 ^ order := Nat.two_pow_pos order
        cases found with
        | none => exact ih _ s (hskip addr s order hc.1 hl hs) (by omega)
        | some p =>
          obtain ⟨o, a⟩ := p
          have hsnd := s.vLookup_snd (L := L) (x := (sp, addr))
          have hzero := vLookup_fst_of_some (s := s) (L := L) (x := (sp, addr)) (by rw [hl])
          rw [hl] at hsnd hzero
          obtain ⟨o', ho', heq⟩ := map_eq_some_iff.1 hsnd.symm
          obtain rfl : o' = o := congrArg Prod.fst heq
          obtain rfl : order = 0 := hzero
          have hstop : (if mask.selfUnmap then max stop (addr + 2 ^ 0) else stop) = stop := by
            split_ifs
            · exact max_eq_left (by omega)
            · rfl
          simp only [lookup_of_entry ho', if_true, hstop]
          exact ih _ _ (hcap addr s o' hc.1 ho' hs) (by omega)
    · rw [if_neg hc]
      exact ⟨addr, hs, by omega⟩

end UnmapLoop

section Root

variable {mem : ℕ → Bool}

inductive Rooted (L : Layout O R) (s : State S O R) (o : O) (x : Slot S) : State S O R → Prop
  | none : Rooted L s o x s
  | fresh {u : State S O R} : (s.entry L x).obj = none → s.SetAt L x o .full u →
      Rooted L s o x (u.insertRootMapping (L.mapRoot o) x)
  | overmap {rObj : O} {u : State S O R} : (s.entry L x).obj = some rObj →
      (s.unmapDst L rObj x).SetAt L x o .full u →
      Rooted L s o x (u.insertRootMapping (L.mapRoot o) x)

theorem unmapLoop_one {rObj : O} (h : (s.entry L x).obj = some rObj) (hx : x.2 < L.mapMaxAddress) :
    s.unmapLoop L x.1 .fullRights .full (2 ^ 0) x.2 (x.2 + 2 ^ 0) = s.unmapDst L rObj x := by
  have hl : s.vLookup L x = (0, some (rObj, (s.entry L x).rights)) := by
    have hsnd := s.vLookup_snd (L := L) (x := x)
    rw [h] at hsnd
    exact Prod.ext (vLookup_fst_of_some hsnd) hsnd
  have hlt : x.2 < x.2 + 1 ∧ x.2 < L.mapMaxAddress := ⟨by omega, hx⟩
  simp only [pow_zero, unmapLoop, hlt, and_self, if_true, hl, lookup_of_entry h]
  rfl

theorem map_rooted : Rooted L s o x (s.map L o x mem).1 := by
  unfold map
  split_ifs with hmax
  · exact .none
  · have hx : x.2 < L.mapMaxAddress := by omega
    cases hobj : (s.entry L x).obj with
    | none =>
      have hl : (s.vLookup L x).2 = none := by rw [vLookup_snd, hobj]; rfl
      have ht : (match s.vLookup L x with
          | (_, none) => s
          | (order, some _) =>
            s.unmapLoop L x.1 .fullRights .full (2 ^ order) x.2 (x.2 + 2 ^ order)) = s := by
        cases hv : s.vLookup L x with
        | mk order found =>
          rw [hv] at hl
          cases hl
          rfl
      simp only [ht]
      rcases vInsert_void .full o mem hobj with h | ⟨u, h, hu⟩
      · rw [h]
        exact .none
      · rw [h]
        exact .fresh hobj hu
    | some rObj =>
      have hsnd := s.vLookup_snd (L := L) (x := x)
      rw [hobj] at hsnd
      have hl : s.vLookup L x = (0, some (rObj, (s.entry L x).rights)) :=
        Prod.ext (vLookup_fst_of_some hsnd) hsnd
      obtain ⟨hvoid, hpage⟩ := unmapDst_self hobj
      simp only [hl, unmapLoop_one hobj hx]
      rcases vInsert_void .full o mem hvoid with h | ⟨u, h, hu⟩
      · exact absurd (congrArg Prod.fst h) (vInsert_ne_nomem hpage)
      · rw [h]
        exact .overmap hobj hu

end Root

end State

end Fiasco.Obj
