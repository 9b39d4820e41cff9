import Mathlib

/-!
# Binary heaps in an array

The element at `i > 0` has its parent at `(i - 1) / 2`. An element that was put at a place or that
has changed is moved up or down by swaps. The order holds everywhere but at this element then, and
its children are in order with its parent.
-/
namespace BinaryHeap

variable {K : Type*} [LinearOrder K]

def parent (i : ℕ) : ℕ := (i - 1) / 2

def Ordered (key : ℕ → K) (n : ℕ) : Prop := ∀ i, 0 < i → i < n → key (parent i) ≤ key i

structure UpOrdered (key : ℕ → K) (n a : ℕ) : Prop where
  off : ∀ i, 0 < i → i < n → i ≠ a → key (parent i) ≤ key i
  grand : ∀ i, 0 < i → i < n → parent i = a → 0 < a → key (parent a) ≤ key i

structure DownOrdered (key : ℕ → K) (n a : ℕ) : Prop where
  off : ∀ i, 0 < i → i < n → parent i ≠ a → key (parent i) ≤ key i
  grand : ∀ i, 0 < i → i < n → parent i = a → 0 < a → key (parent a) ≤ key i

section Parent

variable {a i c : ℕ}

theorem parent_lt (h : 0 < i) : parent i < i := by
  unfold parent
  omega

theorem parent_eq_iff (h : 0 < i) : parent i = a ↔ i = 2 * a + 1 ∨ i = 2 * a + 2 := by
  unfold parent
  omega

end Parent

variable {key : ℕ → K} {n a c : ℕ}

theorem Ordered.root_le (h : Ordered key n) {i : ℕ} (hi : i < n) : key 0 ≤ key i := by
  induction i using Nat.strongRecOn with
  | ind i ih =>
    rcases Nat.eq_zero_or_pos i with rfl | hpos
    · exact le_rfl
    · have hlt := parent_lt hpos
      exact (ih (parent i) hlt (hlt.trans hi)).trans (h i hpos hi)

theorem Ordered.mono {m : ℕ} (h : Ordered key n) (hm : m ≤ n) : Ordered key m :=
  fun i hpos hi => h i hpos (hi.trans_le hm)

theorem UpOrdered.ordered (h : UpOrdered key n a) (ha : 0 < a → key (parent a) ≤ key a) :
    Ordered key n := by
  intro i hpos hi
  by_cases hia : i = a
  · rw [hia]
    exact ha (hia ▸ hpos)
  · exact h.off i hpos hi hia

theorem DownOrdered.ordered (h : DownOrdered key n a)
    (ha : ∀ i, 0 < i → i < n → parent i = a → key a ≤ key i) : Ordered key n := by
  intro i hpos hi
  by_cases hia : parent i = a
  · rw [hia]
    exact ha i hpos hi hia
  · exact h.off i hpos hi hia

section Swap

variable {α : Type*} {f : ℕ → α} {b i : ℕ}

theorem comp_swap_left : (f ∘ Equiv.swap a b) a = f b := congrArg f (Equiv.swap_apply_left a b)

theorem comp_swap_right : (f ∘ Equiv.swap a b) b = f a := congrArg f (Equiv.swap_apply_right a b)

theorem comp_swap_of_ne (ha : i ≠ a) (hb : i ≠ b) : (f ∘ Equiv.swap a b) i = f i :=
  congrArg f (Equiv.swap_apply_of_ne_of_ne ha hb)

end Swap

theorem UpOrdered.swap (h : UpOrdered key n a) (hpos : 0 < a) (hn : a < n)
    (hle : key a ≤ key (parent a)) : UpOrdered (key ∘ Equiv.swap (parent a) a) n (parent a) := by
  have hpa : parent a < a := parent_lt hpos
  constructor
  · intro i hi hin hip
    by_cases hia : i = a
    · rw [hia, comp_swap_left, comp_swap_right]
      exact hle
    · rw [comp_swap_of_ne hip hia]
      by_cases hpi : parent i = a
      · rw [hpi, comp_swap_right]
        exact h.grand i hi hin hpi hpos
      · by_cases hpp : parent i = parent a
        · rw [hpp, comp_swap_left]
          have hoff := h.off i hi hin hia
          rw [hpp] at hoff
          exact hle.trans hoff
        · rw [comp_swap_of_ne hpp hpi]
          exact h.off i hi hin hia
  · intro i hi hin hpi hpos'
    have hpp : parent (parent a) < parent a := parent_lt hpos'
    rw [comp_swap_of_ne hpp.ne (hpp.trans hpa).ne]
    have hup : key (parent (parent a)) ≤ key (parent a) :=
      h.off (parent a) hpos' (hpa.trans hn) hpa.ne
    by_cases hia : i = a
    · rw [hia, comp_swap_right]
      exact hup
    · have hip : i ≠ parent a := by
        intro heq
        rw [heq] at hpi
        omega
      rw [comp_swap_of_ne hip hia]
      have hoff := h.off i hi hin hia
      rw [hpi] at hoff
      exact hup.trans hoff

theorem DownOrdered.swap (h : DownOrdered key n a) (hpos : 0 < c) (hn : c < n) (hc : parent c = a)
    (hle : key c ≤ key a) (hleast : ∀ i, 0 < i → i < n → parent i = a → key c ≤ key i) :
    DownOrdered (key ∘ Equiv.swap c a) n c := by
  have hac : a < c := hc ▸ parent_lt hpos
  constructor
  · intro i hi hin hpc
    by_cases hpi : parent i = a
    · rw [hpi, comp_swap_right]
      by_cases hic : i = c
      · rw [hic, comp_swap_left]
        exact hle
      · have hia : i ≠ a := by
          intro heq
          have hlt := parent_lt hi
          omega
        rw [comp_swap_of_ne hic hia]
        exact hleast i hi hin hpi
    · rw [comp_swap_of_ne hpc hpi]
      by_cases hia : i = a
      · rw [hia, comp_swap_right]
        exact h.grand c hpos hn hc (hia ▸ hi)
      · have hic : i ≠ c := by
          intro heq
          rw [heq] at hpi
          exact hpi hc
        rw [comp_swap_of_ne hic hia]
        exact h.off i hi hin hpi
  · intro i hi hin hpi _
    have hci : c < i := hpi ▸ parent_lt hi
    rw [hc, comp_swap_right, comp_swap_of_ne hci.ne' (hac.trans hci).ne']
    have hoff := h.off i hi hin (by omega)
    rwa [hpi] at hoff

theorem Ordered.upOrdered_last (h : Ordered key n) : UpOrdered key (n + 1) n := by
  constructor
  · intro i hpos hi hne
    exact h i hpos (by omega)
  · intro i hpos hi hp _
    have hlt := parent_lt hpos
    omega

theorem Ordered.downOrdered {key' : ℕ → K} {m : ℕ} (h : Ordered key n) (hm : m ≤ n)
    (ha : 0 < a → key (parent a) ≤ key' a) (ham : a < m) (hoff : ∀ i < m, i ≠ a → key' i = key i) :
    DownOrdered key' m a := by
  constructor
  · intro i hpos hi hp
    have hlt := parent_lt hpos
    rw [hoff (parent i) (hlt.trans hi) hp]
    by_cases hia : i = a
    · rw [hia] at hpos ⊢
      exact ha hpos
    · rw [hoff i hi hia]
      exact h i hpos (hi.trans_le hm)
  · intro i hpos hi hp hpos'
    have hlt := parent_lt hpos
    have hlt' := parent_lt hpos'
    rw [hoff i hi (by omega), hoff (parent a) (by omega) hlt'.ne]
    have hi' := h i hpos (hi.trans_le hm)
    rw [hp] at hi'
    exact (h a hpos' (ham.trans_le hm)).trans hi'

end BinaryHeap
