import Mathlib

/-!
# Intrusive lists

The links of these lists are fields of their elements, and an operation is a few writes to them.
`Links` are the two pointers of an element of a ring, `Heads` a list with a first pointer whose
elements know the pointer that refers to them. An operation fails at a null pointer.
-/
namespace Intrusive

open List Function

variable {E : Type*}

section Rings

structure Links (E : Type*) where
  next : E → Option E
  prev : E → Option E

namespace Links

section Operations

variable [DecidableEq E]

section

variable (l : Links E) (e : E)

def setNext (v : Option E) : Links E :=
  { l with next := update l.next e v }

def setPrev (v : Option E) : Links E :=
  { l with prev := update l.prev e v }

def selfInsert : Links E :=
  (l.setPrev e (some e)).setNext e (some e)

def insertBefore (e pos : E) : Option (Links E) := do
  let l := l.setNext e (some pos)
  let l := l.setPrev e (l.prev pos)
  let p ← l.prev pos
  let l := l.setNext p (some e)
  pure (l.setPrev pos (some e))

def remove : Option (Links E) := do
  let p ← l.prev e
  let l := l.setNext p (l.next e)
  let n ← l.next e
  let l := l.setPrev n (l.prev e)
  pure (l.setNext e none)

def hasSibling : Bool :=
  l.next e != some e

end

end Operations

def Seg (l : Links E) (a : E) : List E → E → Prop
  | [], b => l.next a = some b ∧ l.prev b = some a
  | x :: xs, b => (l.next a = some x ∧ l.prev x = some a) ∧ Seg l x xs b

def Ring (l : Links E) (h : E) (t : List E) : Prop :=
  Seg l h t h

variable {l l' : Links E} {a b e h x : E} {xs ys t : List E}

theorem seg_append : Seg l a (xs ++ x :: ys) b ↔ Seg l a xs x ∧ Seg l x ys b := by
  induction xs generalizing a with
  | nil => rfl
  | cons y xs ih => simp only [cons_append, Seg, ih, and_assoc]

theorem Seg.congr (h : Seg l a xs b) (hn : ∀ x ∈ a :: xs, l'.next x = l.next x)
    (hp : ∀ x ∈ xs ++ [b], l'.prev x = l.prev x) : Seg l' a xs b := by
  induction xs generalizing a with
  | nil =>
    refine ⟨?_, ?_⟩
    · rw [hn a (by simp), h.1]
    · rw [hp b (by simp), h.2]
  | cons x xs ih =>
    refine ⟨⟨?_, ?_⟩, ih h.2 (fun y hy => hn y (mem_cons_of_mem _ hy))
      fun y hy => hp y (by simp at hy ⊢; exact .inr hy)⟩
    · rw [hn a (by simp), h.1.1]
    · rw [hp x (by simp), h.1.2]

theorem Ring.congr (hr : Ring l h t)
    (hs : ∀ x ∈ h :: t, l'.next x = l.next x ∧ l'.prev x = l.prev x) : Ring l' h t := by
  apply Seg.congr hr
  · intro x hx
    exact (hs x hx).1
  · intro x hx
    exact (hs x (by simp at hx ⊢; exact hx.symm)).2

theorem ring_rotate (xs ys : List E) (h e : E) :
    Ring l h (xs ++ e :: ys) ↔ Ring l e (ys ++ h :: xs) := by
  simp only [Ring, seg_append]
  exact and_comm

theorem Ring.next (hr : Ring l h t) (ht : h :: t = xs ++ e :: ys) :
    l.next e = some (ys.head?.getD h) := by
  have hs : Seg l e ys h := by
    cases xs with
    | nil => cases ht; exact hr
    | cons x xs => cases ht; exact (seg_append.mp hr).2
  cases ys with
  | nil => exact hs.1
  | cons y ys => exact hs.1.1

variable [DecidableEq E]

theorem ring_selfInsert (l : Links E) (e : E) : Ring (l.selfInsert e) e [] := by
  simp [Ring, Seg, selfInsert, setNext, setPrev]

theorem selfInsert_of_ne (hx : x ≠ e) :
    (l.selfInsert e).next x = l.next x ∧ (l.selfInsert e).prev x = l.prev x := by
  simp [selfInsert, setNext, setPrev, hx]

theorem insertBefore_ring (hr : Ring l h t) (hd : (h :: t).Nodup) (he : e ∉ h :: t) :
    ∃ l', l.insertBefore e h = some l' ∧ Ring l' h (t ++ [e]) ∧
      ∀ x, x ≠ e → x ∉ h :: t → l'.next x = l.next x ∧ l'.prev x = l.prev x := by
  have hhe : h ≠ e := fun hc => he (by simp [hc])
  rcases eq_nil_or_concat' t with rfl | ⟨t, p, rfl⟩
  · refine ⟨_, by simp [insertBefore, setNext, setPrev, hhe, hr.2]; rfl, ?_, fun x hx hxt => ?_⟩
    · simp [Ring, Seg, hhe.symm]
    · simp only [mem_singleton] at hxt
      simp [hx, hxt]
  · obtain ⟨hs, hp⟩ := seg_append.mp hr
    have hpe : p ≠ e := fun hc => he (by simp [hc])
    have hpt : p ∉ h :: t := fun hc => by
      rw [← cons_append, nodup_append] at hd
      exact hd.2.2 p hc p (by simp) rfl
    refine ⟨_, by simp [insertBefore, setNext, setPrev, hhe, hp.2]; rfl, ?_, fun x hx hxt => ?_⟩
    · rw [append_assoc, Ring, singleton_append, seg_append]
      refine ⟨hs.congr (fun x hx => ?_) fun x hx => ?_, ?_⟩
      · have hxe : x ≠ e := fun hc => he (hc ▸ mem_append_left [p] hx)
        have hxp : x ≠ p := fun hc => hpt (hc ▸ hx)
        simp [hxe, hxp]
      · have hxe : x ≠ e := fun hc => he (by rw [← hc]; exact mem_cons_of_mem _ hx)
        have hxh : x ≠ h := fun hc => (nodup_cons.mp hd).1 (hc ▸ hx)
        simp [hxe, hxh]
      · simp [Seg, hhe.symm, hpe.symm]
    · have hxh : x ≠ h := fun hc => hxt (by simp [hc])
      have hxp : x ≠ p := fun hc => hxt (by simp [hc])
      simp [hx, hxh, hxp]

theorem remove_ring (hr : Ring l e t) (hd : (e :: t).Nodup) :
    ∃ l', l.remove e = some l' ∧ l'.next e = none ∧ (∀ x s, t = x :: s → Ring l' x s) ∧
      ∀ x, x ∉ e :: t → l'.next x = l.next x ∧ l'.prev x = l.prev x := by
  cases t with
  | nil =>
    obtain ⟨hn, hp⟩ := hr
    refine ⟨_, by simp [remove, setNext, setPrev, hn, hp]; rfl, by simp, by simp, fun x hx => ?_⟩
    simp only [mem_singleton] at hx
    simp [hx]
  | cons x t =>
    obtain ⟨hex, hs⟩ := hr
    have hxe : x ≠ e := fun hc => by simp [hc] at hd
    have het : e ∉ t := fun hc => (nodup_cons.mp hd).1 (mem_cons_of_mem _ hc)
    have hxt : x ∉ t := (nodup_cons.mp (nodup_cons.mp hd).2).1
    rcases eq_nil_or_concat' t with rfl | ⟨t, p, rfl⟩
    · refine ⟨_, by simp [remove, setNext, setPrev, hs.2, hex.1, hxe.symm]; rfl, by simp, ?_,
        fun y hy => ?_⟩
      · rintro y s ⟨⟩
        simp [Ring, Seg, hxe]
      · simp only [mem_cons, not_mem_nil, or_false, not_or] at hy
        simp [hy.1, hy.2]
    · obtain ⟨hs, hp⟩ := seg_append.mp hs
      have hpe : p ≠ e := fun hc => het (by simp [hc])
      have hpt : p ∉ x :: t := fun hc => by
        have := (nodup_cons.mp hd).2
        rw [← cons_append, nodup_append] at this
        exact this.2.2 p hc p (by simp) rfl
      refine ⟨_, by simp [remove, setNext, setPrev, hp.2, hex.1, hpe.symm]; rfl, by simp, ?_,
        fun y hy => ?_⟩
      · rintro y s ⟨⟩
        rw [Ring, seg_append]
        refine ⟨hs.congr (fun y hy => ?_) fun y hy => ?_, by simp [Seg, hpe]⟩
        · have hye : y ≠ e := by
            rintro rfl
            exact (nodup_cons.mp hd).1 (mem_append_left [p] hy)
          have hyp : y ≠ p := fun hc => hpt (hc ▸ hy)
          simp [hye, hyp]
        · have hyx : y ≠ x := fun hc => hxt (hc ▸ hy)
          simp [hyx]
      · simp only [mem_cons, mem_append, not_mem_nil, or_false, not_or] at hy
        simp [hy.1, hy.2.1, hy.2.2.2]

end Links

end Rings

section HeadLists

inductive Ref (E : Type*)
  | first
  | after (e : E)
  deriving DecidableEq

structure Heads (E : Type*) where
  first : Option E
  n : E → Option E
  pn : E → Option (Ref E)

namespace Heads

def get (l : Heads E) : Ref E → Option E
  | .first => l.first
  | .after e => l.n e

section Operations

variable [DecidableEq E]

def put (l : Heads E) (v : Option E) : Ref E → Heads E
  | .first => { l with first := v }
  | .after e => { l with n := update l.n e v }

section

variable (l : Heads E) (e : E)

def setPn (r : Option (Ref E)) : Heads E :=
  { l with pn := update l.pn e r }

def lead (r : Option (Ref E)) : Option E → Heads E
  | some y => l.setPn y r
  | none => l

def insertBefore (x : Ref E) : Heads E :=
  let l := l.put (l.get x) (.after e)
  let l := l.setPn e (some x)
  let l := l.lead (some (.after e)) (l.get x)
  l.put (some e) x

def replace (p e : E) : Option (Heads E) := do
  let l := l.put (l.n p) (.after e)
  let l := l.setPn e (l.pn p)
  let r ← l.pn p
  let l := l.put (some e) r
  let l := l.lead (some (.after e)) (l.n e)
  pure (l.setPn p none)

def remove : Heads E :=
  match l.pn e with
  | none => l
  | some r =>
    let l := l.put (l.n e) r
    let l := l.lead (l.pn e) (l.n e)
    l.setPn e none

end

end Operations

def following (l : Heads E) (e : E) : Option (Option E) := do
  let r ← l.pn e
  let x ← l.get r
  pure (l.n x)

def Chain (l : Heads E) (r : Ref E) : List E → Prop
  | [] => l.get r = none
  | x :: xs => (l.get r = some x ∧ l.pn x = some r) ∧ Chain l (.after x) xs

def refAfter (r : Ref E) : List E → Ref E
  | [] => r
  | x :: xs => refAfter (.after x) xs

variable {l l' : Heads E} {r : Ref E} {e p x : E} {xs ys : List E} {q : Ref E}

theorem Chain.get (h : Chain l r xs) : l.get r = xs.head? := by
  cases xs with
  | nil => exact h
  | cons x xs => exact h.1.1

theorem chain_append (h : Chain l r (xs ++ ys)) : Chain l (refAfter r xs) ys := by
  induction xs generalizing r with
  | nil => exact h
  | cons x xs ih => exact ih h.2

theorem Chain.congr (h : Chain l r xs) (hr : l'.get r = l.get r)
    (hs : ∀ x ∈ xs, l'.n x = l.n x ∧ l'.pn x = l.pn x) : Chain l' r xs := by
  induction xs generalizing r with
  | nil => exact hr.trans h
  | cons x xs ih =>
    refine ⟨⟨hr.trans h.1.1, (hs x (by simp)).2.trans h.1.2⟩, ih h.2 (hs x (by simp)).1 ?_⟩
    intro y hy
    exact hs y (mem_cons_of_mem _ hy)

theorem Chain.pn_isSome (h : Chain l r xs) (hx : x ∈ xs) : (l.pn x).isSome := by
  induction xs generalizing r with
  | nil => cases hx
  | cons y xs ih =>
    rcases mem_cons.mp hx with rfl | hx
    · rw [h.1.2]; rfl
    · exact ih h.2 hx

theorem Chain.following (h : Chain l r (xs ++ x :: ys)) : l.following x = some ys.head? := by
  have hx := chain_append h
  simp only [Heads.following, hx.1.2, hx.1.1, Option.bind_eq_bind, Option.bind_some, Option.pure_def]
  exact congrArg some hx.2.get

theorem refAfter_mem (r : Ref E) (xs : List E) :
    refAfter r xs = r ∨ ∃ x ∈ xs, refAfter r xs = .after x := by
  induction xs generalizing r with
  | nil => exact .inl rfl
  | cons x xs ih =>
    rcases ih (.after x) with h | ⟨y, hy, h⟩
    · exact .inr ⟨x, by simp, h⟩
    · exact .inr ⟨y, mem_cons_of_mem _ hy, h⟩

def Outside (r : Ref E) (xs : List E) : Prop :=
  ∀ x ∈ xs, r ≠ .after x

theorem Outside.refAfter_ne (hr : Outside r (x :: xs)) : refAfter (.after x) xs ≠ r := by
  rcases refAfter_mem (.after x) xs with h | ⟨y, hy, h⟩
  · rw [h]
    exact (hr x (by simp)).symm
  · rw [h]
    exact (hr y (mem_cons_of_mem _ hy)).symm

theorem outside_after (hx : x ∉ xs) : Outside (.after x) xs := by
  rintro y hy ⟨⟩
  exact hx hy

theorem Chain.splice {zs : List E} (h : Chain l r (xs ++ ys)) (hd : xs.Nodup) (hr : Outside r xs)
    (hg : ∀ q, q ≠ refAfter r xs → (q = r ∨ ∃ x ∈ xs, q = .after x) → l'.get q = l.get q)
    (hp : ∀ x ∈ xs, l'.pn x = l.pn x) (hs : Chain l' (refAfter r xs) zs) :
    Chain l' r (xs ++ zs) := by
  induction xs generalizing r with
  | nil => exact hs
  | cons x xs ih =>
    obtain ⟨hx, hd⟩ := nodup_cons.mp hd
    refine ⟨⟨?_, ?_⟩, ?_⟩
    · rw [hg r hr.refAfter_ne.symm (.inl rfl), h.1.1]
    · rw [hp x (by simp), h.1.2]
    · apply ih h.2 hd (outside_after hx)
      · rintro q hq (rfl | ⟨y, hy, rfl⟩)
        · exact hg _ hq (.inr ⟨x, by simp, rfl⟩)
        · exact hg _ hq (.inr ⟨y, mem_cons_of_mem _ hy, rfl⟩)
      · intro y hy
        exact hp y (mem_cons_of_mem _ hy)
      · exact hs

theorem refAfter_ne (hr : Outside r (xs ++ ys)) (hd : (xs ++ ys).Nodup) :
    Outside (refAfter r xs) ys := by
  intro y hy hc
  rcases refAfter_mem r xs with h | ⟨x, hx, h⟩
  · exact hr y (by simp [hy]) (h ▸ hc)
  · cases h.symm.trans hc
    exact (nodup_append.mp hd).2.2 y hx y hy rfl

theorem head_ne_of_tail (hd : xs.Nodup) (hx : x ∈ xs.tail) : xs.head? ≠ some x := by
  cases xs with
  | nil => cases hx
  | cons y xs =>
    rintro ⟨⟩
    exact (nodup_cons.mp hd).1 hx

theorem Chain.reroot (h : Chain l r xs) (hget : l'.get q = xs.head?)
    (hpn : ∀ x, xs.head? = some x → l'.pn x = some q)
    (hn : ∀ x ∈ xs, l'.get (.after x) = l.get (.after x)) (hp : ∀ x ∈ xs.tail, l'.pn x = l.pn x) :
    Chain l' q xs := by
  cases xs with
  | nil => exact hget
  | cons x xs =>
    refine ⟨⟨hget, hpn x rfl⟩, h.2.congr (hn x (by simp)) fun y hy => ⟨?_, hp y hy⟩⟩
    exact hn y (mem_cons_of_mem _ hy)

variable [DecidableEq E]

@[simp] theorem get_put (l : Heads E) (v : Option E) (r : Ref E) : (l.put v r).get r = v := by
  cases r <;> simp [put, get]

theorem get_put_of_ne (v : Option E) (hq : q ≠ r) : (l.put v r).get q = l.get q := by
  cases r <;> cases q <;> simp_all [put, get]

@[simp] theorem pn_put (l : Heads E) (v : Option E) (r : Ref E) : (l.put v r).pn = l.pn := by
  cases r <;> rfl

@[simp] theorem get_setPn (l : Heads E) (e : E) (v : Option (Ref E)) (r : Ref E) :
    (l.setPn e v).get r = l.get r := by
  cases r <;> rfl

@[simp] theorem get_lead (l : Heads E) (v : Option (Ref E)) (y : Option E) (r : Ref E) :
    (l.lead v y).get r = l.get r := by
  cases y <;> simp [lead]

theorem pn_setPn (l : Heads E) (e x : E) (v : Option (Ref E)) :
    (l.setPn e v).pn x = if x = e then v else l.pn x :=
  update_apply ..

theorem pn_lead (l : Heads E) (v : Option (Ref E)) (y : Option E) (x : E) :
    (l.lead v y).pn x = if y = some x then v else l.pn x := by
  cases y with
  | none => rfl
  | some y => simp only [lead, pn_setPn, Option.some.injEq, eq_comm]

theorem get_insertBefore (hq : q ≠ .after e) : (l.insertBefore e q).get r =
      if r = q then some e else if r = .after e then l.get q else l.get r := by
  by_cases h1 : r = q
  · simp [insertBefore, h1]
  · by_cases h2 : r = .after e
    · simp [insertBefore, h2, hq.symm, get_put_of_ne]
    · simp [insertBefore, h1, h2, get_put_of_ne]

theorem pn_insertBefore (hq : q ≠ .after e) : (l.insertBefore e q).pn x =
      if l.get q = some x then some (.after e) else if x = e then some q else l.pn x := by
  simp [insertBefore, pn_lead, pn_setPn, get_put_of_ne _ hq]

theorem replace_fields (hp : l.pn p = some q) (hpe : p ≠ e) (hq : q ≠ .after e) :
    ∃ l', l.replace p e = some l' ∧
      (∀ r, l'.get r = if r = q then some e else if r = .after e then l.n p else l.get r) ∧
      ∀ x, l'.pn x = if x = p then none else if l.n p = some x then some (.after e)
        else if x = e then some q else l.pn x := by
  refine ⟨_, by simp [replace, pn_setPn, hpe, hp]; rfl, fun r => ?_, fun x => ?_⟩
  · by_cases h1 : r = q
    · simp [h1]
    · by_cases h2 : r = .after e
      · simp [h2, hq.symm, get_put_of_ne]
      · simp [h1, h2, get_put_of_ne]
  · have hn : (((l.put (l.n p) (.after e)).setPn e (some q)).put (some e) q).n e = l.n p := by
      change Heads.get _ (.after e) = _
      rw [get_put_of_ne _ hq.symm, get_setPn, get_put]
    simp [pn_setPn, pn_lead, hn]

theorem remove_fields (he : l.pn e = some q) (hq : q ≠ .after e) :
    (∀ r, (l.remove e).get r = if r = q then l.n e else l.get r) ∧
      ∀ x, (l.remove e).pn x =
        if x = e then none else if l.n e = some x then some q else l.pn x := by
  have hn : (l.put (l.n e) q).n e = l.n e := get_put_of_ne (q := .after e) _ hq.symm
  refine ⟨fun r => ?_, fun x => ?_⟩
  · by_cases h1 : r = q
    · simp [remove, he, h1]
    · simp [remove, he, h1, get_put_of_ne]
  · simp [remove, he, pn_setPn, pn_lead, hn]

theorem insertBefore_chain (h : Chain l r (xs ++ ys)) (hd : (xs ++ ys).Nodup)
    (he : e ∉ xs ++ ys) (hr : Outside r (xs ++ ys)) (hre : r ≠ .after e) :
    Chain (l.insertBefore e (refAfter r xs)) r (xs ++ e :: ys) ∧
      ∀ x, x ≠ e → x ∉ ys → (l.insertBefore e (refAfter r xs)).pn x = l.pn x := by
  have hq : refAfter r xs ≠ .after e := by
    rcases refAfter_mem r xs with hc | ⟨x, hx, hc⟩
    · rwa [hc]
    · rw [hc]
      rintro ⟨⟩
      exact he (mem_append_left _ hx)
  have hys := chain_append h
  have hget := hys.get
  have hpn : ∀ x, x ≠ e → x ∉ ys → (l.insertBefore e (refAfter r xs)).pn x = l.pn x := by
    intro x hxe hx
    rw [pn_insertBefore hq, if_neg, if_neg hxe]
    rw [hget]
    exact fun hc => hx (mem_of_mem_head? hc)
  refine ⟨h.splice (nodup_append.mp hd).1 (fun x hx => hr x (by simp [hx]))
    (fun q hne hmem => ?_) (fun x hx => ?_) ⟨⟨?_, ?_⟩, ?_⟩, hpn⟩
  · rw [get_insertBefore hq, if_neg hne, if_neg]
    rcases hmem with rfl | ⟨x, hx, rfl⟩
    · exact hre
    · rintro ⟨⟩
      exact he (mem_append_left _ hx)
  · apply hpn
    · rintro rfl
      exact he (mem_append_left _ hx)
    · exact fun hy => (nodup_append.mp hd).2.2 x hx x hy rfl
  · rw [get_insertBefore hq, if_pos rfl]
  · rw [pn_insertBefore hq, if_neg, if_pos rfl]
    rw [hget]
    exact fun hc => he (mem_append_right _ (mem_of_mem_head? hc))
  · have hout := refAfter_ne hr hd
    apply hys.reroot
    · rw [get_insertBefore hq, if_neg hq.symm, if_pos rfl, hget]
    · intro x hx
      rw [pn_insertBefore hq, if_pos (hget.trans hx)]
    · intro x hx
      rw [get_insertBefore hq, if_neg (hout x hx).symm, if_neg]
      rintro ⟨⟩
      exact he (mem_append_right _ hx)
    · intro x hx
      rw [pn_insertBefore hq, if_neg, if_neg]
      · rintro rfl
        exact he (mem_append_right _ (mem_of_mem_tail hx))
      · rw [hget]
        exact head_ne_of_tail (nodup_append.mp hd).2.1 hx

theorem replace_chain (h : Chain l r (xs ++ p :: ys)) (hd : (xs ++ p :: ys).Nodup)
    (he : e ∉ xs ++ p :: ys) (hr : Outside r (xs ++ p :: ys)) (hre : r ≠ .after e) :
    ∃ l', l.replace p e = some l' ∧ Chain l' r (xs ++ e :: ys) ∧ l'.pn p = none ∧
      ∀ x, x ≠ e → x ∉ p :: ys → l'.pn x = l.pn x := by
  have hq : refAfter r xs ≠ .after e := by
    rcases refAfter_mem r xs with hc | ⟨x, hx, hc⟩
    · rwa [hc]
    · rw [hc]
      rintro ⟨⟩
      exact he (mem_append_left _ hx)
  obtain ⟨⟨hget, hpn⟩, hys⟩ := chain_append h
  have hpe : p ≠ e := by
    rintro rfl
    exact he (by simp)
  have hn : l.n p = ys.head? := hys.get
  obtain ⟨hdx, hdy, hdd⟩ := nodup_append.mp hd
  obtain ⟨l', hl, hg, hb⟩ := replace_fields hpn hpe hq
  have hrest : ∀ x, x ≠ e → x ∉ p :: ys → l'.pn x = l.pn x := by
    intro x hxe hx
    rw [hb, if_neg, if_neg, if_neg hxe]
    · rw [hn]
      exact fun hc => hx (mem_cons_of_mem _ (mem_of_mem_head? hc))
    · rintro rfl
      exact hx (by simp)
  have hout := refAfter_ne hr hd
  refine ⟨l', hl, h.splice hdx (fun x hx => hr x (by simp [hx])) (fun q hne hmem => ?_)
    (fun x hx => ?_) ⟨⟨?_, ?_⟩, ?_⟩, ?_, hrest⟩
  · rw [hg, if_neg hne, if_neg]
    rcases hmem with rfl | ⟨x, hx, rfl⟩
    · exact hre
    · rintro ⟨⟩
      exact he (mem_append_left _ hx)
  · apply hrest
    · rintro rfl
      exact he (mem_append_left _ hx)
    · exact fun hy => hdd x hx x hy rfl
  · rw [hg, if_pos rfl]
  · rw [hb, if_neg hpe.symm, if_neg, if_pos rfl]
    rw [hn]
    exact fun hc => he (by simp [mem_of_mem_head? hc])
  · apply hys.reroot
    · rw [hg, if_neg hq.symm, if_pos rfl, hn]
    · intro x hx
      rw [hb, if_neg, if_pos (hn.trans hx)]
      rintro rfl
      exact (nodup_cons.mp hdy).1 (mem_of_mem_head? hx)
    · intro x hx
      rw [hg, if_neg (hout x (by simp [hx])).symm, if_neg]
      rintro ⟨⟩
      exact he (by simp [hx])
    · intro x hx
      have hxy := mem_of_mem_tail hx
      rw [hb, if_neg, if_neg, if_neg]
      · rintro rfl
        exact he (by simp [hxy])
      · rw [hn]
        exact head_ne_of_tail (nodup_cons.mp hdy).2 hx
      · rintro rfl
        exact (nodup_cons.mp hdy).1 hxy
  · rw [hb, if_pos rfl]

theorem remove_chain (h : Chain l r (xs ++ e :: ys)) (hd : (xs ++ e :: ys).Nodup)
    (hr : Outside r (xs ++ e :: ys)) :
    Chain (l.remove e) r (xs ++ ys) ∧ (l.remove e).pn e = none ∧
      ∀ x, x ∉ e :: ys → (l.remove e).pn x = l.pn x := by
  obtain ⟨⟨hget, hpn⟩, hys⟩ := chain_append h
  have hout := refAfter_ne hr hd
  have hn : l.n e = ys.head? := hys.get
  obtain ⟨hdx, hdy, hdd⟩ := nodup_append.mp hd
  obtain ⟨hg, hb⟩ := remove_fields hpn (hout e (by simp))
  have hrest : ∀ x, x ∉ e :: ys → (l.remove e).pn x = l.pn x := by
    intro x hx
    rw [hb, if_neg, if_neg]
    · rw [hn]
      exact fun hc => hx (mem_cons_of_mem _ (mem_of_mem_head? hc))
    · rintro rfl
      exact hx (by simp)
  refine ⟨h.splice hdx (fun x hx => hr x (by simp [hx])) (fun q hne _ => ?_)
    (fun x hx => hrest x fun hy => hdd x hx x hy rfl) (hys.reroot ?_ ?_ ?_ ?_), ?_, hrest⟩
  · rw [hg, if_neg hne]
  · rw [hg, if_pos rfl, hn]
  · intro x hx
    rw [hb, if_neg, if_pos (hn.trans hx)]
    rintro rfl
    exact (nodup_cons.mp hdy).1 (mem_of_mem_head? hx)
  · intro x hx
    rw [hg, if_neg (hout x (by simp [hx])).symm]
  · intro x hx
    rw [hb, if_neg, if_neg]
    · rw [hn]
      exact head_ne_of_tail (nodup_cons.mp hdy).2 hx
    · rintro rfl
      exact (nodup_cons.mp hdy).1 (mem_of_mem_tail hx)
  · rw [hb, if_pos rfl]

end Heads

end HeadLists

end Intrusive
