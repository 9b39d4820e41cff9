import Mathlib

/-!
# Traces of lock operations

What a piece of code does to locks is the list of its acquisitions and releases.
`exec` runs a trace; it fails where a lock is taken twice or one is released that is
not held. `Step` interleaves the traces of two threads that exclude each other.
-/
namespace LockTrace

open List Function Relation

variable {L M : Type*}

inductive Event (L : Type*) where
  | acquire (x : L)
  | release (x : L)
deriving DecidableEq

def Event.map (f : L → M) : Event L → Event M
  | .acquire x => .acquire (f x)
  | .release x => .release (f x)

def Event.lock : Event L → L
  | .acquire x => x
  | .release x => x

section Exec

variable [DecidableEq L] [DecidableEq M] {x : L} {held : List L} {tr : List (Event L)}
  {held' : List L}

def exec : List (Event L) → List L → Option (List L)
  | [], held => some held
  | .acquire x :: tr, held => if x ∈ held then none else exec tr (x :: held)
  | .release x :: tr, held => if x ∈ held then exec tr (held.erase x) else none

@[simp] theorem exec_nil (held : List L) : exec [] held = some held := rfl

theorem exec_acquire (h : x ∉ held) (tr : List (Event L)) :
    exec (.acquire x :: tr) held = exec tr (x :: held) := if_neg h

theorem exec_release (h : x ∈ held) (tr : List (Event L)) :
    exec (.release x :: tr) held = exec tr (held.erase x) := if_pos h

theorem exec_append (tr tr' : List (Event L)) (held : List L) :
    exec (tr ++ tr') held = (exec tr held).bind (exec tr') := by
  induction tr generalizing held with
  | nil => rfl
  | cons e tr ih =>
    cases e with
    | acquire x =>
      simp only [cons_append, exec]
      split_ifs
      · rfl
      · exact ih _
    | release x =>
      simp only [cons_append, exec]
      split_ifs
      · exact ih _
      · rfl

theorem exec_trans {tr' : List (Event L)} {mid : List L} (h : exec tr held = some mid)
    (h' : exec tr' mid = some held') : exec (tr ++ tr') held = some held' := by
  rw [exec_append, h, Option.bind_some, h']

theorem exec_map {f : L → M} (hf : Injective f) (tr : List (Event L)) (held : List L) :
    exec (tr.map (Event.map f)) (held.map f) = (exec tr held).map (map f) := by
  induction tr generalizing held with
  | nil => rfl
  | cons e tr ih =>
    cases e with
    | acquire x =>
      simp only [map_cons, Event.map, exec, mem_map_of_injective hf]
      split_ifs
      · rfl
      · exact ih (x :: held)
    | release x =>
      simp only [map_cons, Event.map, exec, mem_map_of_injective hf]
      split_ifs
      · rw [← map_erase hf]
        exact ih (held.erase x)
      · rfl

theorem exec_release_head (x : L) (held : List L) : exec [.release x] (x :: held) = some held := by
  rw [exec_release mem_cons_self, exec_nil, erase_cons_head]

theorem exec_release_last (hx : x ∉ held) : exec [.release x] (held ++ [x]) = some held := by
  rw [exec_release (by simp), exec_nil, erase_append_right _ hx]
  simp

theorem exec_frame (h : exec tr held = some held') {H : List L} (ho : ∀ e ∈ tr, e.lock ∉ H) :
    exec tr (held ++ H) = some (held' ++ H) := by
  induction tr generalizing held with
  | nil =>
    cases h
    rfl
  | cons e tr ih =>
    have htr : ∀ e ∈ tr, e.lock ∉ H := fun e he => ho e (mem_cons_of_mem _ he)
    have hx := ho e mem_cons_self
    cases e with
    | acquire x =>
      rw [exec] at h
      split_ifs at h with hh
      rw [exec_acquire (by simp only [mem_append, not_or]; exact ⟨hh, hx⟩)]
      exact ih h htr
    | release x =>
      rw [exec] at h
      split_ifs at h with hh
      rw [exec_release (mem_append_left _ hh), erase_append_left _ hh]
      exact ih h htr

theorem exec_mem (h : exec tr held = some held') (hx : x ∈ held') : x ∈ held ∨ .acquire x ∈ tr := by
  induction tr generalizing held with
  | nil =>
    cases h
    exact .inl hx
  | cons e tr ih =>
    cases e with
    | acquire y =>
      rw [exec] at h
      split_ifs at h
      rcases ih h with h' | h'
      · rcases mem_cons.mp h' with rfl | h'
        · exact .inr mem_cons_self
        · exact .inl h'
      · exact .inr (mem_cons_of_mem _ h')
    | release y =>
      rw [exec] at h
      split_ifs at h
      exact (ih h).imp mem_of_mem_erase (mem_cons_of_mem _)

theorem exec_keeps (h : exec tr held = some held') (hx : x ∈ held) (hr : .release x ∉ tr) :
    x ∈ held' := by
  induction tr generalizing held with
  | nil =>
    cases h
    exact hx
  | cons e tr ih =>
    have hr' : .release x ∉ tr := fun he => hr (mem_cons_of_mem _ he)
    cases e with
    | acquire y =>
      rw [exec] at h
      split_ifs at h
      exact ih h (mem_cons_of_mem _ hx) hr'
    | release y =>
      rw [exec] at h
      split_ifs at h
      have hne : x ≠ y := fun he => hr (he ▸ mem_cons_self)
      exact ih h ((mem_erase_of_ne hne).mpr hx) hr'

theorem exec_prefix {p : List (Event L)} (hp : p <+: tr) (h : exec tr held = some held') :
    ∃ mid, exec p held = some mid := by
  obtain ⟨q, rfl⟩ := hp
  rw [exec_append] at h
  obtain ⟨mid, hmid, -⟩ := Option.bind_eq_some_iff.mp h
  exact ⟨mid, hmid⟩

end Exec

section Threads

variable [DecidableEq L] {tr : Bool → List (Event L)}

structure Thread (L : Type*) where
  todo : List (Event L)
  held : List L

inductive Step : (Bool → Thread L) → (Bool → Thread L) → Prop
  | acquire (i : Bool) (σ : Bool → Thread L) (x : L) (tr : List (Event L))
      (htodo : (σ i).todo = .acquire x :: tr) (hfree : ∀ j, x ∉ (σ j).held) :
      Step σ (update σ i ⟨tr, x :: (σ i).held⟩)
  | release (i : Bool) (σ : Bool → Thread L) (x : L) (tr : List (Event L))
      (htodo : (σ i).todo = .release x :: tr) (hheld : x ∈ (σ i).held) :
      Step σ (update σ i ⟨tr, (σ i).held.erase x⟩)

def initial (tr : Bool → List (Event L)) : Bool → Thread L := fun i => ⟨tr i, []⟩

def Deadlock (σ : Bool → Thread L) : Prop :=
  ∀ i, ∃ x tr, (σ i).todo = .acquire x :: tr ∧ x ∈ (σ !i).held

theorem reach_split {σ : Bool → Thread L} (h : ReflTransGen Step (initial tr) σ) (i : Bool)
    : ∃ p, tr i = p ++ (σ i).todo ∧ exec p [] = some (σ i).held := by
  induction h with
  | refl => exact ⟨[], rfl, rfl⟩
  | tail _ hstep ih =>
    obtain ⟨p, htr, hex⟩ := ih
    cases hstep with
    | acquire j _ x r htodo hfree =>
      by_cases hij : i = j
      · subst hij
        refine ⟨p ++ [.acquire x], ?_, ?_⟩
        · rw [htr, htodo, update_self]
          simp
        · rw [update_self]
          exact exec_trans hex (exec_acquire (hfree i) [])
      · rw [update_of_ne hij]
        exact ⟨p, htr, hex⟩
    | release j _ x r htodo hheld =>
      by_cases hij : i = j
      · subst hij
        refine ⟨p ++ [.release x], ?_, ?_⟩
        · rw [htr, htodo, update_self]
          simp
        · rw [update_self]
          exact exec_trans hex (exec_release hheld [])
      · rw [update_of_ne hij]
        exact ⟨p, htr, hex⟩

theorem reach_disjoint {σ : Bool → Thread L} (h : ReflTransGen Step (initial tr) σ)
    (i : Bool) {x : L} (hx : x ∈ (σ i).held) : x ∉ (σ !i).held := by
  induction h generalizing i x with
  | refl => exact absurd hx not_mem_nil
  | tail _ hstep ih =>
    cases hstep with
    | acquire j _ y r htodo hfree =>
      by_cases hij : i = j
      · subst hij
        rw [update_self] at hx
        rw [update_of_ne (by simp)]
        rcases mem_cons.mp hx with rfl | hx
        · exact hfree _
        · exact ih i hx
      · have hj : (!i) = j := by cases i <;> cases j <;> simp_all
        subst hj
        rw [update_of_ne hij] at hx
        rw [update_self]
        intro hmem
        rcases mem_cons.mp hmem with rfl | hmem
        · exact hfree i hx
        · exact ih i hx hmem
    | release j _ y r htodo hheld =>
      by_cases hij : i = j
      · subst hij
        rw [update_self] at hx
        rw [update_of_ne (by simp)]
        exact ih i (mem_of_mem_erase hx)
      · have hj : (!i) = j := by cases i <;> cases j <;> simp_all
        subst hj
        rw [update_of_ne hij] at hx
        rw [update_self]
        exact fun hmem => ih i hx (mem_of_mem_erase hmem)

theorem reach_run (i : Bool) (σ : Bool → Thread L) {p r : List (Event L)} {held : List L}
    (htodo : (σ i).todo = p ++ r) (hex : exec p (σ i).held = some held)
    (hfree : ∀ x, .acquire x ∈ p → x ∉ (σ !i).held) :
    ReflTransGen Step σ (update σ i ⟨r, held⟩) := by
  induction p generalizing σ with
  | nil =>
    cases hex
    have hσ : update σ i ⟨r, (σ i).held⟩ = σ := by
      rw [update_eq_self_iff]
      rw [← show (σ i).todo = r from htodo]
    rw [hσ]
  | cons e p ih =>
    have hne : (!i) ≠ i := by cases i <;> decide
    have hfree' : ∀ x, .acquire x ∈ p → x ∉ (σ !i).held := fun x hx =>
      hfree x (mem_cons_of_mem _ hx)
    have hnext : ∀ held', exec p held' = some held →
        ReflTransGen Step (update σ i ⟨p ++ r, held'⟩)
          (update σ i ⟨r, held⟩) := by
      intro held' hex'
      have h := ih (update σ i ⟨p ++ r, held'⟩) (by rw [update_self])
        (by rw [update_self]; exact hex')
        (fun x hx => by rw [update_of_ne hne]; exact hfree' x hx)
      rwa [update_idem] at h
    cases e with
    | acquire x =>
      rw [exec] at hex
      split_ifs at hex with hx
      refine .head (Step.acquire i σ x (p ++ r) htodo fun j => ?_) (hnext _ hex)
      by_cases hj : j = i
      · exact hj ▸ hx
      · have : j = !i := by cases i <;> cases j <;> simp_all
        exact this ▸ hfree x mem_cons_self
    | release x =>
      rw [exec] at hex
      split_ifs at hex with hx
      exact .head (Step.release i σ x (p ++ r) htodo hx) (hnext _ hex)

theorem deadlock_of_crossing {a b r : Bool → List (Event L)} {x : Bool → L} {h : Bool → List L}
    (htr : ∀ i, tr i = a i ++ (b i ++ .acquire (x i) :: r i))
    (ha : ∀ i, exec (a i) [] = some [x !i]) (hb : ∀ i, exec (b i) [x !i] = some (h i))
    (hkeep : ∀ i, x (!i) ∈ h i) (hfirst : .acquire (x true) ∉ a true)
    (hwait : .acquire (x false) ∉ b false) (hfree : ∀ y, .acquire y ∈ b true → y ∉ h false) :
    ∃ σ, ReflTransGen Step (initial tr) σ ∧ Deadlock σ := by
  let w : Bool → List (Event L) := fun i => .acquire (x i) :: r i
  have h1 := reach_run false (initial tr) (htr false) (ha false) fun y _ => not_mem_nil
  set σ₁ := update (initial tr) false ⟨b false ++ w false, [x true]⟩
  have h2 : ReflTransGen Step σ₁
      (update σ₁ true ⟨b true ++ w true, [x false]⟩) := by
    refine reach_run true σ₁ (p := a true) (htr true) (ha true) fun y hy hmem => hfirst ?_
    obtain rfl : y = x true := mem_singleton.mp hmem
    exact hy
  set σ₂ := update σ₁ true ⟨b true ++ w true, [x false]⟩
  have h3 : ReflTransGen Step σ₂ (update σ₂ false ⟨w false, h false⟩) := by
    refine reach_run false σ₂ (p := b false) rfl (hb false) fun y hy hmem => hwait ?_
    obtain rfl : y = x false := mem_singleton.mp hmem
    exact hy
  set σ₃ := update σ₂ false ⟨w false, h false⟩
  have h4 : ReflTransGen Step σ₃ (update σ₃ true ⟨w true, h true⟩) :=
    reach_run true σ₃ (p := b true) rfl (hb true) hfree
  refine ⟨_, ((h1.trans h2).trans h3).trans h4, fun i => ?_⟩
  cases i with
  | false => exact ⟨x false, r false, rfl, hkeep true⟩
  | true => exact ⟨x true, r true, rfl, hkeep false⟩

end Threads

end LockTrace
