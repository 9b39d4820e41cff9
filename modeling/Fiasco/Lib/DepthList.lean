import Mathlib

/-!
# Forests encoded as lists with depths

A forest is stored in preorder: a node of depth `d` is a child of the last node before it whose
depth is smaller. Items without a depth are attachments; they belong to the node read last. `scan`
reads such a list with the stack of open nodes and emits something for every item and its path to
the root.
-/
namespace DepthList

open List

variable {ι κ α β : Type*} (view : ι → Option (ℕ × α))

def advance (st : List (ℕ × α)) (x : ι) : List (ℕ × α) :=
  match view x with
  | none => st
  | some (d, a) => (d, a) :: st.dropWhile (fun e => d ≤ e.1)

def stack (st : List (ℕ × α)) (l : List ι) : List (ℕ × α) :=
  l.foldl (advance view) st

def path (st : List (ℕ × α)) : List α :=
  st.map Prod.snd

def scan (emit : List α → ι → List β) : List (ℕ × α) → List ι → List β
  | _, [] => []
  | st, x :: l => emit (path (advance view st x)) x ++ scan emit (advance view st x) l

def deeper (p : ℤ) (x : ι) : Bool :=
  match view x with
  | none => true
  | some (d, _) => p < d

def beyond (p : ℤ) (l : List ι) : List ι :=
  l.dropWhile (deeper view p)

variable {view}

section

variable (emit : List α → ι → List β) (st : List (ℕ × α))

@[simp] theorem stack_nil : stack view st [] = st := rfl

@[simp] theorem stack_cons (x : ι) (l : List ι) :
    stack view st (x :: l) = stack view (advance view st x) l := rfl

theorem stack_append (l r : List ι) :
    stack view st (l ++ r) = stack view (stack view st l) r :=
  foldl_append

@[simp] theorem scan_nil : scan view emit st [] = [] := rfl

theorem scan_cons (x : ι) (l : List ι) :
    scan view emit st (x :: l) =
      emit (path (advance view st x)) x ++ scan view emit (advance view st x) l := rfl

theorem scan_append (l r : List ι) :
    scan view emit st (l ++ r) = scan view emit st l ++ scan view emit (stack view st l) r := by
  induction l generalizing st with
  | nil => rfl
  | cons x l ih =>
    simp only [cons_append, scan_cons, ih, stack_cons, append_assoc]

end

variable {st : List (ℕ × α)} {x : ι} {d : ℕ} {p : ℤ} {l : List ι} {s : List ι} {e : ℕ × α}

theorem advance_of_none (h : view x = none) : advance view st x = st := by
  simp [advance, h]

theorem advance_of_some {a : α} (h : view x = some (d, a)) :
    advance view st x = (d, a) :: st.dropWhile (fun e => d ≤ e.1) := by
  simp [advance, h]

theorem dropWhile_dropWhile_of_le {d' : ℕ} (h : d' ≤ d) (st : List (ℕ × α)) :
    (st.dropWhile (fun e => d ≤ e.1)).dropWhile (fun e => d' ≤ e.1) =
      st.dropWhile (fun e => d' ≤ e.1) := by
  induction st with
  | nil => rfl
  | cons e st ih =>
    by_cases he : d ≤ e.1
    · have he' : d' ≤ e.1 := h.trans he
      simp only [dropWhile_cons, he, he', decide_true, if_true, ih]
    · simp only [dropWhile_cons, he, decide_false, Bool.false_eq_true, if_false]

def atLeast (view : ι → Option (ℕ × α)) (p : ℤ) (x : ι) : Prop :=
  ∀ d a, view x = some (d, a) → p ≤ d

theorem atLeast_of_deeper (h : deeper view p x) : atLeast view p x := by
  intro d a hv
  have : p < d := by simpa [deeper, hv] using h
  exact this.le

theorem dropWhile_advance (hd : (d : ℤ) ≤ p) (hx : atLeast view p x) (st : List (ℕ × α)) :
    (advance view st x).dropWhile (fun e => d ≤ e.1) = st.dropWhile (fun e => d ≤ e.1) := by
  cases hv : view x with
  | none => rw [advance_of_none hv]
  | some e =>
    obtain ⟨dx, a⟩ := e
    have hle : d ≤ dx := by
      have := hx dx a hv
      omega
    rw [advance_of_some hv]
    simp only [dropWhile_cons, hle, decide_true, if_true]
    exact dropWhile_dropWhile_of_le hle st

theorem dropWhile_stack (hd : (d : ℤ) ≤ p) (hl : ∀ x ∈ l, atLeast view p x) (st : List (ℕ × α)) :
    (stack view st l).dropWhile (fun e => d ≤ e.1) = st.dropWhile (fun e => d ≤ e.1) := by
  induction l generalizing st with
  | nil => rfl
  | cons x l ih =>
    rw [stack_cons, ih (fun y hy => hl y (mem_cons_of_mem _ hy)),
      dropWhile_advance hd (hl x mem_cons_self)]

theorem beyond_head {r : List ι} (h : beyond view p l = x :: r) :
    ∃ d a, view x = some (d, a) ∧ (d : ℤ) ≤ p := by
  have hx : ¬ deeper view p x := by
    have hpos : 0 < (l.dropWhile (deeper view p)).length := by
      rw [show l.dropWhile (deeper view p) = x :: r from h]; simp
    have := dropWhile_get_zero_not (deeper view p) l hpos
    simpa [show l.dropWhile (deeper view p) = x :: r from h] using this
  cases hv : view x with
  | none => simp [deeper, hv] at hx
  | some e =>
    obtain ⟨d, a⟩ := e
    refine ⟨d, a, rfl, ?_⟩
    simpa [deeper, hv] using hx

theorem scan_of_head (emit : List α → ι → List β) (hs : ∀ x ∈ s, atLeast view p x)
    (hl : ∀ x r, l = x :: r → ∃ d a, view x = some (d, a) ∧ (d : ℤ) ≤ p) (st : List (ℕ × α)) :
    scan view emit (stack view st s) l = scan view emit st l := by
  cases l with
  | nil => rfl
  | cons x r =>
    obtain ⟨d, a, hv, hd⟩ := hl x r rfl
    rw [scan_cons, scan_cons, advance_of_some hv, advance_of_some hv, dropWhile_stack hd hs]

theorem scan_beyond (emit : List α → ι → List β) (hs : ∀ x ∈ s, atLeast view p x)
    (st : List (ℕ × α)) :
    scan view emit (stack view st s) (beyond view p l) = scan view emit st (beyond view p l) :=
  scan_of_head emit hs (fun _ _ h => beyond_head h) st

theorem stack_deeper (hst : ∀ e ∈ st.head?, (e.1 : ℤ) ≤ p) (hl : ∀ x ∈ l, deeper view p x)
    (pre : List (ℕ × α)) (hpre : ∀ e ∈ pre, p < e.1) :
    ∃ pre', stack view (pre ++ st) l = pre' ++ st ∧
      (∀ e ∈ pre', e ∈ pre ∨ ∃ x ∈ l, view x = some e) ∧
      ((pre ≠ [] ∨ ∃ x ∈ l.head?, view x ≠ none) → pre' ≠ []) := by
  induction l generalizing pre with
  | nil => exact ⟨pre, rfl, fun e he => .inl he, by simp⟩
  | cons x l ih =>
    rw [stack_cons]
    have hl' : ∀ y ∈ l, deeper view p y := fun y hy => hl y (mem_cons_of_mem _ hy)
    cases hv : view x with
    | none =>
      rw [advance_of_none hv]
      obtain ⟨pre', he, hd, hne⟩ := ih hl' pre hpre
      refine ⟨pre', he, fun e h => (hd e h).imp id ?_, ?_⟩
      · exact fun ⟨y, hy, hyv⟩ => ⟨y, mem_cons_of_mem _ hy, hyv⟩
      rintro (h | ⟨y, hy, hyv⟩)
      · exact hne (.inl h)
      · obtain rfl : x = y := by simpa using hy
        exact absurd hv hyv
    | some e =>
      obtain ⟨dx, ax⟩ := e
      have hx : p < dx := by simpa [deeper, hv] using hl x mem_cons_self
      have hdrop : (pre ++ st).dropWhile (fun e => dx ≤ e.1) =
          pre.dropWhile (fun e => dx ≤ e.1) ++ st := by
        have hstop : st.dropWhile (fun e => dx ≤ e.1) = st := by
          cases st with
          | nil => rfl
          | cons e r =>
            have he : (e.1 : ℤ) ≤ p := hst e (by simp)
            have : ¬ dx ≤ e.1 := by omega
            simp [this]
        rw [dropWhile_append]
        split_ifs with hnil
        · rw [hstop, isEmpty_iff.mp hnil, nil_append]
        · rfl
      rw [advance_of_some hv, hdrop, ← cons_append]
      obtain ⟨pre', he, hd, hne⟩ := ih hl' ((dx, ax) :: pre.dropWhile (fun e => dx ≤ e.1)) (by
        intro e he
        rcases mem_cons.mp he with rfl | he
        · exact hx
        · exact hpre e (dropWhile_subset _ he))
      refine ⟨pre', he, fun e h => ?_, fun _ => hne (.inl (by simp))⟩
      rcases hd e h with h | ⟨y, hy, hyv⟩
      · rcases mem_cons.mp h with rfl | h
        · exact .inr ⟨x, mem_cons_self, hv⟩
        · exact .inl (dropWhile_subset _ h)
      · exact .inr ⟨y, mem_cons_of_mem _ hy, hyv⟩

theorem lt_of_mem_dropWhile (h : st.Pairwise fun e f => f.1 < e.1)
    (he : e ∈ st.dropWhile fun e => d ≤ e.1) : e.1 < d := by
  induction st with
  | nil => exact absurd he not_mem_nil
  | cons f st ih =>
    rw [pairwise_cons] at h
    rw [dropWhile_cons] at he
    split_ifs at he with hd
    · exact ih h.2 he
    · have hf : f.1 < d := by simpa using hd
      rcases mem_cons.mp he with rfl | he
      · exact hf
      · exact (h.1 e he).trans hf

theorem stack_sorted (l : List ι) : (stack view [] l).Pairwise fun e f => f.1 < e.1 := by
  suffices ∀ st : List (ℕ × α), (st.Pairwise fun e f => f.1 < e.1) →
      (stack view st l).Pairwise fun e f => f.1 < e.1 from this [] Pairwise.nil
  induction l with
  | nil => exact fun st h => h
  | cons x l ih =>
    intro st h
    refine ih _ ?_
    cases hv : view x with
    | none => rwa [advance_of_none hv]
    | some p =>
      rw [advance_of_some hv]
      exact pairwise_cons.mpr ⟨fun e he => lt_of_mem_dropWhile h he,
        h.sublist (dropWhile_sublist _)⟩

theorem mem_stack (h : e ∈ stack view st l) : e ∈ st ∨ ∃ x ∈ l, view x = some e := by
  induction l generalizing st with
  | nil => exact .inl h
  | cons x l ih =>
    rcases ih h with h | ⟨y, hy, hv⟩
    · cases hv : view x with
      | none =>
        rw [advance_of_none hv] at h
        exact .inl h
      | some p =>
        rw [advance_of_some hv] at h
        rcases mem_cons.mp h with rfl | h
        · exact .inr ⟨x, mem_cons_self, hv⟩
        · exact .inl (dropWhile_subset _ h)
    · exact .inr ⟨y, mem_cons_of_mem _ hy, hv⟩

theorem scan_mem {emit : List α → ι → List β} {b : β} : b ∈ scan view emit st l ↔
      ∃ l₁ x l₂, l = l₁ ++ x :: l₂ ∧ b ∈ emit (path (stack view st (l₁ ++ [x]))) x := by
  induction l generalizing st with
  | nil => simp
  | cons y l ih =>
    rw [scan_cons, mem_append, ih]
    constructor
    · rintro (h | ⟨l₁, x, l₂, rfl, h⟩)
      · exact ⟨[], y, l, rfl, h⟩
      · exact ⟨y :: l₁, x, l₂, rfl, h⟩
    · rintro ⟨l₁, x, l₂, hl, h⟩
      cases l₁ with
      | nil =>
        obtain ⟨rfl, rfl⟩ := cons.inj hl
        exact .inl h
      | cons z l₁ =>
        obtain ⟨rfl, rfl⟩ := cons.inj hl
        exact .inr ⟨l₁, x, l₂, rfl, h⟩

end DepthList
