import Mathlib

/-!
# Stable priority queues

A queue is the list of its entries in the order of their insertion. The best entry is the oldest one
of the highest priority. `inOrder` lists the entries as they would be taken out one after the other.
-/
namespace StableQueue

open List

variable {E P : Type*} [LinearOrder P]

abbrev Queue (E P : Type*) :=
  List (E × P)

def IsBest (q : Queue E P) (a : E × P) : Prop :=
  (∀ b ∈ q, b.2 ≤ a.2) ∧ q.find? (fun b => b.2 = a.2) = some a

def insertBehind (a : E × P) : List (E × P) → List (E × P)
  | [] => [a]
  | b :: l => if a.2 ≤ b.2 then b :: insertBehind a l else a :: b :: l

def inOrder (q : Queue E P) : List (E × P) :=
  q.foldl (fun l a => insertBehind a l) []

def Descending (l : List (E × P)) : Prop :=
  l.Pairwise fun a b => b.2 ≤ a.2

variable {a b : E × P} {l : List (E × P)} {q : Queue E P}

@[simp] theorem inOrder_concat : inOrder (q ++ [a]) = insertBehind a (inOrder q) := by
  simp [inOrder]

theorem insertBehind_perm : (insertBehind a l).Perm (a :: l) := by
  induction l with
  | nil => rfl
  | cons b l ih =>
    rw [insertBehind]
    split_ifs
    · exact (ih.cons b).trans (Perm.swap a b l)
    · rfl

theorem mem_insertBehind : b ∈ insertBehind a l ↔ b = a ∨ b ∈ l := by
  rw [insertBehind_perm.mem_iff, mem_cons]

theorem inOrder_perm (q : Queue E P) : (inOrder q).Perm q := by
  induction q using reverseRecOn with
  | nil => rfl
  | append_singleton q a ih =>
    rw [inOrder_concat]
    exact insertBehind_perm.trans ((ih.cons a).trans (perm_append_singleton a q).symm)

theorem mem_inOrder : a ∈ inOrder q ↔ a ∈ q :=
  (inOrder_perm q).mem_iff

theorem Descending.insertBehind (h : Descending l) : Descending (insertBehind a l) := by
  induction l with
  | nil => exact pairwise_singleton _ _
  | cons b l ih =>
    obtain ⟨hb, hl⟩ := pairwise_cons.mp h
    rw [StableQueue.insertBehind]
    split_ifs with hab
    · refine pairwise_cons.mpr ⟨fun c hc => ?_, ih hl⟩
      rcases mem_insertBehind.mp hc with rfl | hc
      · exact hab
      · exact hb c hc
    · refine pairwise_cons.mpr ⟨fun c hc => ?_, h⟩
      rcases mem_cons.mp hc with rfl | hc
      · exact (not_le.mp hab).le
      · exact (hb c hc).trans (not_le.mp hab).le

theorem inOrder_descending (q : Queue E P) : Descending (inOrder q) := by
  induction q using reverseRecOn with
  | nil => exact Pairwise.nil
  | append_singleton q a ih =>
    rw [inOrder_concat]
    exact ih.insertBehind

theorem insertBehind_of_lt (h : ∀ b ∈ l, b.2 < a.2) : insertBehind a l = a :: l := by
  cases l with
  | nil => rfl
  | cons b l => exact if_neg (not_le.mpr (h b (by simp)))

theorem insertBehind_append {l₁ l₂ : List (E × P)} (h₁ : ∀ b ∈ l₁, a.2 ≤ b.2)
    (h₂ : ∀ b ∈ l₂, b.2 < a.2) : insertBehind a (l₁ ++ l₂) = l₁ ++ a :: l₂ := by
  induction l₁ with
  | nil => exact insertBehind_of_lt h₂
  | cons b l₁ ih =>
    rw [cons_append, insertBehind, if_pos (h₁ b (by simp)),
      ih fun c hc => h₁ c (mem_cons_of_mem _ hc)]
    rfl

theorem filter_insertBehind (f : E × P → Bool) (h : Descending l) :
    (insertBehind a l).filter f = if f a then insertBehind a (l.filter f) else l.filter f := by
  induction l with
  | nil => simp only [insertBehind, filter_cons, filter_nil]
  | cons b l ih =>
    obtain ⟨hb, hl⟩ := pairwise_cons.mp h
    rw [insertBehind]
    split_ifs with hab hfa hfa
    · rw [filter_cons, ih hl, if_pos hfa, filter_cons]
      split_ifs
      · rw [insertBehind, if_pos hab]
      · rfl
    · rw [filter_cons, ih hl, if_neg hfa, filter_cons]
    · rw [filter_cons, if_pos hfa]
      refine (insertBehind_of_lt fun c hc => ?_).symm
      rcases mem_cons.mp (mem_filter.mp hc).1 with rfl | hc
      · exact not_le.mp hab
      · exact (hb c hc).trans_lt (not_le.mp hab)
    · rw [filter_cons, if_neg hfa]

theorem inOrder_filter (f : E × P → Bool) (q : Queue E P) :
    inOrder (q.filter f) = (inOrder q).filter f := by
  induction q using reverseRecOn with
  | nil => rfl
  | append_singleton q a ih =>
    rw [filter_append, inOrder_concat, filter_insertBehind f (inOrder_descending q), ← ih]
    split_ifs with hf
    · rw [filter_cons, if_pos hf, filter_nil, inOrder_concat]
    · rw [filter_cons, if_neg hf, filter_nil, append_nil]

theorem inOrder_const {p : P} (hp : ∀ a ∈ q, a.2 = p) : inOrder q = q := by
  induction q using reverseRecOn with
  | nil => rfl
  | append_singleton q a ih =>
    rw [inOrder_concat, ih fun b hb => hp b (by simp [hb])]
    have h : insertBehind a (q ++ []) = q ++ [a] :=
      insertBehind_append (fun b hb => by rw [hp a (by simp), hp b (by simp [hb])]) (by simp)
    rwa [append_nil] at h

theorem inOrder_stable (p : P) (q : Queue E P) :
    (inOrder q).filter (fun a => a.2 = p) = q.filter fun a => a.2 = p := by
  rw [← inOrder_filter]
  exact inOrder_const (p := p) fun a ha => by simpa using (mem_filter.mp ha).2

theorem head_inOrder (h : inOrder q = a :: l) : IsBest q a := by
  have hd := inOrder_descending q
  rw [h] at hd
  refine ⟨fun b hb => ?_, ?_⟩
  · have hb := mem_inOrder.mpr hb
    rw [h] at hb
    rcases mem_cons.mp hb with rfl | hb
    · exact le_rfl
    · exact (pairwise_cons.mp hd).1 b hb
  · have hs := inOrder_stable a.2 q
    rw [h, filter_cons, if_pos (by simp)] at hs
    rw [← head?_filter, ← hs, head?_cons]

end StableQueue
