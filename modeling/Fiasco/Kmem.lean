import Mathlib

/-!
# Kernel memory and quotas

`RamQuota` counts bytes in a machine word of 64 bits; a quota without limit counts nothing, and the
top bit marks an invalidated quota. `Kmem` hands out object identities, may fail at any allocation
(`oom`), and remembers which objects are live.
-/

namespace Fiasco

open List Function

structure RamQuota where
  current : ℕ
  max : ℕ
deriving DecidableEq, Repr

namespace RamQuota

def invalid : ℕ := 2 ^ 63

section

variable (q : RamQuota) (bytes : ℕ)

def unlimited : Bool := q.max = 0

def alloc : Option RamQuota :=
  if invalid ≤ bytes then none
  else if q.unlimited then some q
  else if invalid ≤ q.current then none
  else if q.max < q.current + bytes then none
  else some { q with current := q.current + bytes }

def free : RamQuota :=
  if q.unlimited then q
  else { q with current := (q.current + 2 ^ 64 - bytes % 2 ^ 64) % 2 ^ 64 }

def charge : RamQuota :=
  if q.unlimited then q else { q with current := q.current + bytes }

end

structure Valid (q : RamQuota) : Prop where
  current : q.current < 2 ^ 64
  max : q.max < 2 ^ 64

variable {q : RamQuota} {r : RamQuota} {bytes : ℕ}

theorem alloc_valid (h : q.alloc bytes = some r) (hq : q.Valid) : r.Valid := by
  have := hq.max
  unfold alloc at h
  split_ifs at h
  · cases h
    exact hq
  · cases h
    exact ⟨by simp only; omega, hq.max⟩

theorem free_charge {m n : ℕ} (h : (q.charge (m + n)).current < 2 ^ 64) :
    (q.charge (m + n)).free m = q.charge n := by
  by_cases hu : q.unlimited = true
  · simp [charge, free, hu]
  · have hu' : ∀ c, RamQuota.unlimited { q with current := c } = false := fun c => by
      simpa [unlimited] using hu
    simp only [charge, hu, Bool.false_eq_true, if_false] at h ⊢
    rw [free, hu']
    simp only [Bool.false_eq_true, if_false]
    congr 1
    omega

theorem alloc_eq_some (h : q.alloc bytes = some r) : r = q.charge bytes ∧ r.free bytes = q := by
  unfold alloc at h
  split_ifs at h with hb hu hi hm
  · cases h
    simp [charge, free, hu]
  · cases h
    have hu' : RamQuota.unlimited { q with current := q.current + bytes } = false := by
      simpa [unlimited] using hu
    refine ⟨by simp [charge, hu], ?_⟩
    rw [free, hu']
    simp only [Bool.false_eq_true, if_false, invalid] at *
    congr 1
    omega

@[simp] theorem charge_zero (q : RamQuota) : q.charge 0 = q := by
  simp [charge]

theorem charge_charge (q : RamQuota) (m n : ℕ) : (q.charge m).charge n = q.charge (m + n) := by
  by_cases hu : q.unlimited = true
  · simp [charge, hu]
  · have hu' : RamQuota.unlimited { q with current := q.current + m } = false := by
      simpa [unlimited] using hu
    simp [charge, hu, hu', add_assoc]

end RamQuota

structure Charge (S : Type) where
  blocks : List ℕ
  bytes : ℕ
  payer : S
deriving DecidableEq

def blocks {S : Type} (cs : List (Charge S)) : List ℕ := cs.flatMap Charge.blocks

section Blocks

variable {S : Type}

@[simp] theorem blocks_nil : blocks ([] : List (Charge S)) = [] := rfl

@[simp] theorem blocks_cons (c : Charge S) (cs : List (Charge S)) :
    blocks (c :: cs) = c.blocks ++ blocks cs := flatMap_cons

@[simp] theorem blocks_append (cs ds : List (Charge S)) :
    blocks (cs ++ ds) = blocks cs ++ blocks ds := flatMap_append

theorem blocks_perm {cs ds : List (Charge S)} (h : cs.Perm ds) : (blocks cs).Perm (blocks ds) :=
  Perm.flatMap_right _ h

end Blocks

def bytesOn {S Q : Type} [DecidableEq Q] (quotaOf : S → Q) (q : Q) (cs : List (Charge S)) : ℕ :=
  ((cs.filter fun c => quotaOf c.payer = q).map Charge.bytes).sum

structure Kmem (Q : Type) where
  quota : Q → RamQuota
  next : ℕ
  oom : ℕ → Bool
  live : List ℕ

namespace Kmem

variable {Q : Type} [DecidableEq Q] {S : Type} {quotaOf : S → Q} {km km₁ km₂ : Kmem Q} {q : Q}
  {bytes : ℕ} {cs : List (Charge S)} {a : ℕ}

section

variable (km : Kmem Q) (q : Q) (bytes : ℕ)

def alloc : Option ℕ × Kmem Q :=
  if km.oom km.next then (none, { km with next := km.next + 1 })
  else (some km.next, { km with next := km.next + 1, live := km.next :: km.live })

def free (a : ℕ) : Kmem Q := { km with live := km.live.erase a }

def quotaAlloc : Option (Kmem Q) :=
  ((km.quota q).alloc bytes).map fun r => { km with quota := update km.quota q r }

def quotaFree : Kmem Q :=
  { km with quota := update km.quota q ((km.quota q).free bytes) }

def qAlloc : Option ℕ × Kmem Q :=
  match km.quotaAlloc q bytes with
  | none => (none, km)
  | some km₁ =>
    match km₁.alloc with
    | (none, km₂) => (none, km₂.quotaFree q bytes)
    | (some a, km₂) => (some a, km₂)

end

def release {S : Type} (quotaOf : S → Q) (km : Kmem Q) (c : Charge S) : Kmem Q :=
  (c.blocks.foldl free km).quotaFree (quotaOf c.payer) c.bytes

def releaseAll {S : Type} (quotaOf : S → Q) (km : Kmem Q) (cs : List (Charge S)) : Kmem Q :=
  cs.foldl (release quotaOf) km

structure Grows {S : Type} (quotaOf : S → Q) (km km' : Kmem Q) (news : List (Charge S)) : Prop where
  next : km.next ≤ km'.next
  fresh : ∀ b ∈ blocks news, km.next ≤ b ∧ b < km'.next
  nodup : (blocks news).Nodup
  live : km'.live.Perm (blocks news ++ km.live)
  quota : ∀ q, km'.quota q = (km.quota q).charge (bytesOn quotaOf q news)
  valid : (∀ q, (km.quota q).Valid) → ∀ q, (km'.quota q).Valid

theorem Grows.refl (km : Kmem Q) : Grows quotaOf km km [] where
  next := le_rfl
  fresh b hb := absurd hb not_mem_nil
  nodup := nodup_nil
  live := Perm.refl _
  quota q := by simp [bytesOn]
  valid h := h

theorem Grows.trans {news news' : List (Charge S)} (h : Grows quotaOf km km₁ news)
    (h' : Grows quotaOf km₁ km₂ news') : Grows quotaOf km km₂ (news' ++ news) where
  next := h.next.trans h'.next
  fresh b hb := by
    rw [blocks_append] at hb
    have := h.next
    have := h'.next
    rcases mem_append.mp hb with hb | hb
    · have := h'.fresh b hb
      omega
    · have := h.fresh b hb
      omega
  nodup := by
    rw [blocks_append]
    refine nodup_append.mpr ⟨h'.nodup, h.nodup, fun a ha b hb hab => ?_⟩
    have h1 := h'.fresh a ha
    have h2 := h.fresh b hb
    omega
  live := by
    rw [blocks_append, append_assoc]
    exact h'.live.trans (h.live.append_left _)
  quota q := by
    rw [h'.quota, h.quota, RamQuota.charge_charge, add_comm]
    simp [bytesOn]
  valid hv := h'.valid (h.valid hv)

section

omit [DecidableEq Q]

theorem alloc_some (h : km.alloc = (some a, km₁)) :
    a = km.next ∧ km₁ = { km with next := km.next + 1, live := km.next :: km.live } := by
  unfold alloc at h
  split_ifs at h with ho
  · simp at h
  · simp only [Prod.mk.injEq, Option.some.injEq] at h
    exact ⟨h.1.symm, h.2.symm⟩

theorem alloc_none (h : km.alloc = (none, km₁)) : km₁ = { km with next := km.next + 1 } := by
  unfold alloc at h
  split_ifs at h with ho
  · simp only [Prod.mk.injEq, true_and] at h
    exact h.symm
  · simp at h

end

theorem quotaFree_of_alloc {r : RamQuota} (h : (km.quota q).alloc bytes = some r)
    (hq : km₁.quota = update km.quota q r) : (km₁.quotaFree q bytes).quota = km.quota := by
  funext p
  simp only [quotaFree, hq, update_idem, update_self]
  by_cases hp : p = q
  · subst hp
    rw [update_self, (RamQuota.alloc_eq_some h).2]
  · rw [update_of_ne hp]

section

variable (h : km.quotaAlloc q bytes = some km₁)
include h

theorem quotaAlloc_some :
    ∃ r, (km.quota q).alloc bytes = some r ∧
      km₁ = { km with quota := update km.quota q r } := by
  obtain ⟨r, hr, he⟩ := Option.map_eq_some_iff.mp h
  exact ⟨r, hr, he.symm⟩

theorem quotaAlloc_valid (hv : ∀ q, (km.quota q).Valid) (p : Q) : (km₁.quota p).Valid := by
  obtain ⟨r, hr, rfl⟩ := quotaAlloc_some h
  simp only
  by_cases hp : p = q
  · subst hp
    rw [update_self]
    exact RamQuota.alloc_valid hr (hv p)
  · rw [update_of_ne hp]
    exact hv p

theorem quotaAlloc_next : km₁.next = km.next := by
  obtain ⟨r, -, rfl⟩ := quotaAlloc_some h
  rfl

end

@[simp] theorem release_next (km : Kmem Q) (c : Charge S) :
    (km.release quotaOf c).next = km.next := by
  have hfree : ∀ (bs : List ℕ) (km : Kmem Q), (bs.foldl free km).next = km.next := by
    intro bs
    induction bs with
    | nil => exact fun _ => rfl
    | cons b bs ih => exact fun km => (ih (km.free b)).trans rfl
  exact hfree c.blocks km

@[simp] theorem releaseAll_next (km : Kmem Q) (cs : List (Charge S)) :
    (km.releaseAll quotaOf cs).next = km.next := by
  induction cs generalizing km with
  | nil => rfl
  | cons c cs ih => exact (ih (km.release quotaOf c)).trans (release_next km c)

theorem bytesOn_cons (quotaOf : S → Q) (q : Q) (c : Charge S) (cs : List (Charge S)) :
    bytesOn quotaOf q (c :: cs) = (if quotaOf c.payer = q then c.bytes else 0) +
      bytesOn quotaOf q cs := by
  by_cases h : quotaOf c.payer = q <;> simp [bytesOn, h]

theorem bytesOn_append (quotaOf : S → Q) (q : Q) (cs ds : List (Charge S)) :
    bytesOn quotaOf q (cs ++ ds) = bytesOn quotaOf q cs + bytesOn quotaOf q ds := by
  simp [bytesOn]

theorem bytesOn_perm (quotaOf : S → Q) (q : Q) {ds : List (Charge S)} (h : cs.Perm ds) :
    bytesOn quotaOf q cs = bytesOn quotaOf q ds :=
  ((h.filter _).map _).sum_nat

theorem quotaFree_valid (hv : ∀ q, (km.quota q).Valid) (q : Q) (bytes : ℕ) (p : Q) :
    ((km.quotaFree q bytes).quota p).Valid := by
  simp only [quotaFree]
  by_cases hp : p = q
  · subst hp
    rw [update_self, RamQuota.free]
    split_ifs
    · exact hv p
    · exact ⟨Nat.mod_lt _ (by norm_num), (hv p).max⟩
  · rw [update_of_ne hp]
    exact hv p

theorem releaseAll_quota {r : Q → RamQuota} {n : Q → ℕ}
    (h : ∀ q, km.quota q = (r q).charge (bytesOn quotaOf q cs + n q)) (hv : ∀ q, (km.quota q).Valid)
    : (∀ q, (km.releaseAll quotaOf cs).quota q = (r q).charge (n q)) ∧
      ∀ q, ((km.releaseAll quotaOf cs).quota q).Valid := by
  have hblocks : ∀ (bs : List ℕ) (km : Kmem Q), (bs.foldl free km).quota = km.quota := by
    intro bs
    induction bs with
    | nil => exact fun _ => rfl
    | cons b bs ih => exact fun km => (ih (km.free b)).trans rfl
  induction cs generalizing km with
  | nil => exact ⟨fun q => by simpa [bytesOn, releaseAll] using h q, hv⟩
  | cons c cs ih =>
    refine ih (fun q => ?_) ?_
    · have hq := h q
      have hval := (hv q).current
      rw [bytesOn_cons, add_assoc] at hq
      simp only [release, quotaFree, hblocks]
      by_cases hp : quotaOf c.payer = q
      · subst hp
        rw [if_pos rfl] at hq
        rw [hq] at hval
        rw [update_self, hq, RamQuota.free_charge hval]
      · rw [update_of_ne (Ne.symm hp), hq, if_neg hp, zero_add]
    · refine quotaFree_valid (fun q => ?_) _ _
      rw [hblocks]
      exact hv q

omit [DecidableEq Q] in
theorem foldl_free_live {bs L : List ℕ} (h : km.live.Perm (bs ++ L)) :
    (bs.foldl free km).live.Perm L := by
  induction bs generalizing km with
  | nil => exact h
  | cons b bs ih =>
    refine ih ?_
    have := h.erase b
    rwa [cons_append, erase_cons_head] at this

theorem releaseAll_live {L : List ℕ} (h : km.live.Perm (blocks cs ++ L)) :
    (km.releaseAll quotaOf cs).live.Perm L := by
  induction cs generalizing km with
  | nil => exact h
  | cons c cs ih =>
    rw [blocks_cons, append_assoc] at h
    exact ih (foldl_free_live h)

theorem qAlloc_eq_some (h : km.qAlloc q bytes = (some a, km₁)) :
    ∃ r, (km.quota q).alloc bytes = some r ∧ a = km.next ∧ km₁ =
      { km with quota := update km.quota q r, next := km.next + 1, live := km.next :: km.live } := by
  unfold qAlloc at h
  split at h
  · simp at h
  · rename_i km' hq
    obtain ⟨r, hr, rfl⟩ := quotaAlloc_some hq
    split at h
    · simp at h
    · rename_i a' km'' ha
      simp only [Prod.mk.injEq, Option.some.injEq] at h
      obtain ⟨rfl, rfl⟩ := h
      exact ⟨r, hr, alloc_some ha⟩

theorem qAlloc_some {payer : S} (hp : quotaOf payer = q)
    (h : km.qAlloc q bytes = (some a, km₁)) : Grows quotaOf km km₁ [⟨[a], bytes, payer⟩] := by
  obtain ⟨r, hr, rfl, rfl⟩ := qAlloc_eq_some h
  refine ⟨by simp, by simp, by simp, by simp, fun p => ?_, fun hv p => ?_⟩
  · simp only [bytesOn, filter_cons, hp, filter_nil]
    by_cases hpq : p = q
    · subst hpq
      simp [(RamQuota.alloc_eq_some hr).1]
    · simp [update_of_ne hpq, Ne.symm hpq]
  · exact quotaAlloc_valid (Option.map_eq_some_iff.mpr ⟨r, hr, rfl⟩) hv p

theorem qAlloc_none (h : km.qAlloc q bytes = (none, km₁)) :
    Grows quotaOf km km₁ ([] : List (Charge S)) := by
  unfold qAlloc at h
  split at h
  · simp only [Prod.mk.injEq, true_and] at h
    rw [← h]
    exact Grows.refl km
  · rename_i km' hq
    obtain ⟨r, hr, rfl⟩ := quotaAlloc_some hq
    split at h
    · rename_i km'' ha
      simp only [Prod.mk.injEq, true_and] at h
      subst h
      have hal := alloc_none ha
      refine ⟨?_, by simp, by simp, ?_, fun p => ?_, fun hv p => ?_⟩
      · rw [hal]
        exact Nat.le_succ _
      · rw [hal]
        exact Perm.refl _
      · rw [quotaFree_of_alloc hr (by rw [hal])]
        simp [bytesOn]
      · rw [quotaFree_of_alloc hr (by rw [hal])]
        exact hv p
    · simp at h

theorem qAlloc_release (quotaOf : S → Q) (h : km.qAlloc q bytes = (some a, km₁))
    (hg : Grows quotaOf km₁ km₂ []) : Grows quotaOf km ((km₂.free a).quotaFree q bytes) [] := by
  obtain ⟨r, hr, rfl, rfl⟩ := qAlloc_eq_some h
  have hquota : km₂.quota = update km.quota q r := by
    funext p
    simpa [bytesOn] using hg.quota p
  have hlive := hg.live.erase km.next
  have hback : ((km₂.free km.next).quotaFree q bytes).quota = km.quota :=
    quotaFree_of_alloc hr hquota
  refine ⟨?_, by simp, by simp, ?_, fun p => ?_, fun hv p => ?_⟩
  · have := hg.next
    simp only [quotaFree, free] at this ⊢
    omega
  · simpa [quotaFree, free] using hlive
  · rw [hback]
    simp [bytesOn]
  · rw [hback]
    exact hv p

end Kmem
end Fiasco
