import Fiasco.Mapdb.Frame
import Fiasco.Mapdb.Ops

/-!
# What flushing leaves of a mapping tree

The loop of `flush` keeps everything from the first node on that is not below the
flushed one. The only element below it that may survive is the submap right behind
the flushed mapping, when the flushed range is part of the page.
-/
namespace Fiasco.Mapdb

open DepthList Option List

variable {S T : Type}

section

variable (p : ℤ) (l : List (Mapping S T))

def Mapping.deeper : Mapping S T → Bool
  | .real _ _ _ d => p < d
  | .sub _ _ => true

theorem deeper_view (s phys : ℕ) (p : ℤ) :
    DepthList.deeper (Mapping.view (S := S) (T := T) s phys) p = Mapping.deeper p := by
  funext x
  cases x <;> rfl

def rest : List (Mapping S T) :=
  l.dropWhile (Mapping.deeper p)

theorem beyond_view (s phys : ℕ) (p : ℤ) (l : List (Mapping S T)) :
    beyond (Mapping.view s phys) p l = rest p l := by
  rw [beyond, deeper_view, rest]

@[simp] theorem rest_sub (a : ℕ) (m : T) (l : List (Mapping S T)) :
    rest p (.sub a m :: l) = rest p l :=
  dropWhile_cons_of_pos rfl

theorem rest_real_of_le {p : ℤ} {d : ℕ} (h : (d : ℤ) ≤ p) (a : ℕ) (sp : S) (pg : ℕ)
    (l : List (Mapping S T)) : rest p (.real a sp pg d :: l) = .real a sp pg d :: l := by
  have : ¬ p < d := by omega
  simp [rest, Mapping.deeper, this]

theorem rest_real_of_lt {p : ℤ} {d : ℕ} (h : p < d) (a : ℕ) (sp : S) (pg : ℕ)
    (l : List (Mapping S T)) : rest p (.real a sp pg d :: l) = rest p l := by
  simp [rest, Mapping.deeper, h]

@[simp] theorem rest_neg_one : rest (-1) l = [] := by
  induction l with
  | nil => rfl
  | cons x l ih =>
    cases x with
    | real a sp pg d => rw [rest_real_of_lt (by omega), ih]
    | sub a m => rw [rest_sub, ih]

def below : List (Mapping S T) :=
  l.takeWhile (Mapping.deeper p)

theorem below_append_rest : below p l ++ rest p l = l :=
  takeWhile_append_dropWhile

@[simp] theorem below_sub (a : ℕ) (m : T) (l : List (Mapping S T)) :
    below p (.sub a m :: l) = .sub a m :: below p l :=
  takeWhile_cons_of_pos rfl

@[simp] theorem below_neg_one : below (-1) l = l := by
  have h := below_append_rest (-1) l
  rwa [rest_neg_one, append_nil] at h

end

theorem deeper_of_mem_below {p : ℤ} {l : List (Mapping S T)} {x : Mapping S T}
    (h : x ∈ below p l) : x.deeper p :=
  mem_takeWhile_imp h

variable {l : List (Mapping S T)} {meToo : Bool}

section Loop

variable (ops : SubmapOps S T) {pd : ℤ} (ob oe : ℕ)

theorem flushLoop_of_ne {md : ℤ} (h : md ≠ pd) (l : List (Mapping S T)) :
    (flushLoop ops pd meToo ob oe md l).1 = rest pd l := by
  induction l generalizing md with
  | nil => rfl
  | cons x l ih =>
    cases x with
    | real a sp pg d =>
      by_cases hd : (d : ℤ) ≤ pd
      · simp [flushLoop, hd, rest_real_of_le hd]
      · have hne : (d : ℤ) ≠ pd := by omega
        rw [flushLoop, if_neg hd, rest_real_of_lt (by omega)]
        exact ih hne
    | sub a m =>
      have hc : (!meToo && decide (md = pd) && ops.isPartial m ob oe) = false := by
        simp [h]
      rw [flushLoop, hc, rest_sub]
      exact ih h

theorem flushLoop_of_meToo (md : ℤ) (l : List (Mapping S T)) :
    (flushLoop ops pd true ob oe md l).1 = rest pd l := by
  induction l generalizing md with
  | nil => rfl
  | cons x l ih =>
    cases x with
    | real a sp pg d =>
      by_cases hd : (d : ℤ) ≤ pd
      · simp [flushLoop, hd, rest_real_of_le hd]
      · rw [flushLoop, if_neg hd, rest_real_of_lt (by omega)]
        exact ih _
    | sub a m => simpa [flushLoop] using ih md

def noSub : List (Mapping S T) → Prop
  | .sub _ _ :: _ => False
  | _ => True

theorem noSub_of_findSubmap {l : List (Mapping S T)} (h : findSubmap l = none) : noSub l := by
  cases l with
  | nil => trivial
  | cons x l =>
    cases x with
    | real => trivial
    | sub a m => exact nomatch h

theorem noSub_below {p : ℤ} (h : noSub l) : noSub (below p l) := by
  cases l with
  | nil => trivial
  | cons x l =>
    cases x with
    | real a sp pg d =>
      rw [below, takeWhile_cons]
      split <;> trivial
    | sub a m => exact absurd h id

theorem flushLoop_of_noSub {md : ℤ} (h : noSub l) :
    (flushLoop ops pd meToo ob oe md l).1 = rest pd l := by
  cases l with
  | nil => rfl
  | cons x l =>
    cases x with
    | real a sp pg d =>
      by_cases hd : (d : ℤ) ≤ pd
      · simp [flushLoop, hd, rest_real_of_le hd]
      · rw [flushLoop, if_neg hd, rest_real_of_lt (by omega)]
        exact flushLoop_of_ne ops ob oe (by omega) l
    | sub a m => exact absurd h id

theorem flushLoop_sub {a : ℕ} {m : T} (h : noSub l) :
    (flushLoop ops pd meToo ob oe pd (.sub a m :: l)).1 =
      if !meToo && ops.isPartial m ob oe then .sub a (ops.flush m ob oe).1 :: rest pd l
      else rest pd l := by
  by_cases hc : (!meToo && ops.isPartial m ob oe) = true
  · rw [if_pos hc]
    have hc' : (!meToo && decide (pd = pd) && ops.isPartial m ob oe) = true := by
      simpa using hc
    rw [flushLoop, if_pos hc', ← flushLoop_of_noSub ops ob oe h]
  · rw [if_neg hc]
    have hc' : ¬ (!meToo && decide (pd = pd) && ops.isPartial m ob oe) = true := by
      simpa using hc
    rw [flushLoop, if_neg hc', ← flushLoop_of_noSub ops ob oe h]

end Loop

section WellFormed

variable {s : ℕ} {nested : S × ℕ → T → Prop} {cap : ℕ} {par : S × ℕ} {ops : SubmapOps S T}
  {ob oe : ℕ} {pre post : List (Mapping S T)} {fr : Bool} {pg d : ℕ}

theorem wfList_real_focus {a : ℕ} {sp : S}
    (h : wfList s nested cap par fr (pre ++ .real a sp pg d :: post)) :
    d ≤ 255 ∧ wfList s nested (d + 1) (sp, pg * 2 ^ s) true post ∧
      (∀ sp' pg' post', wfList s nested (d + 1) (sp', pg' * 2 ^ s) true post' →
        wfList s nested cap par fr (pre ++ .real a sp' pg' d :: post')) ∧
      ∀ r, (∀ cap' par' fr', d ≤ cap' → wfList s nested cap' par' fr' r) →
        wfList s nested cap par fr (pre ++ r) := by
  induction pre generalizing cap par fr with
  | nil => exact ⟨h.2.1, h.2.2, fun sp' pg' post' hp => ⟨h.1, h.2.1, hp⟩, fun r hr => hr _ _ _ h.1⟩
  | cons x pre ih =>
    cases x with
    | real a' sp' pg' d' | sub a' m =>
      obtain ⟨h₁, h₂, h₃, h₄⟩ := ih h.2.2
      exact ⟨h₁, h₂, fun sp pg post hp => ⟨h.1, h.2.1, h₃ sp pg post hp⟩,
        fun r hr => ⟨h.1, h.2.1, h₄ r hr⟩⟩

theorem wfList_rest {pd : ℤ} (h : wfList s nested cap par fr l) {cap' : ℕ}
    (hcap : pd ≤ cap') (par' : S × ℕ) (fr' : Bool) : wfList s nested cap' par' fr' (rest pd l) := by
  induction l generalizing cap par fr with
  | nil => trivial
  | cons x l ih =>
    cases x with
    | real a sp pg d =>
      by_cases hd : (d : ℤ) ≤ pd
      · rw [rest_real_of_le hd]
        exact ⟨by omega, h.2⟩
      · rw [rest_real_of_lt (by omega)]
        exact ih h.2.2
    | sub a m =>
      rw [rest_sub]
      exact ih h.2.2

theorem wfList_noSub (h : wfList s nested cap par false l) : noSub l := by
  cases l with
  | nil => trivial
  | cons x l =>
    cases x with
    | real a sp pg d => trivial
    | sub a m => exact absurd h.1 (by simp)

theorem wfList_flushLoop {pd : ℤ} (hops : ∀ par m, nested par m → nested par (ops.flush m ob oe).1)
    (h : wfList s nested cap par true l) (hcap : pd ≤ cap) :
    wfList s nested cap par true (flushLoop ops pd meToo ob oe pd l).1 := by
  cases l with
  | nil => trivial
  | cons x l =>
    cases x with
    | real a sp pg d =>
      rw [flushLoop_of_noSub ops ob oe (l := .real a sp pg d :: l) trivial]
      exact wfList_rest h hcap _ _
    | sub a m =>
      rw [flushLoop_sub ops ob oe (wfList_noSub h.2.2)]
      split_ifs
      · exact ⟨rfl, hops _ _ h.2.1, wfList_rest h.2.2 hcap _ _⟩
      · exact wfList_rest h.2.2 hcap _ _

theorem seek_eq_some {a : ℕ} {sp : S}
    (h : seek a l = some (pre, (sp, pg, d), post)) : l = pre ++ .real a sp pg d :: post := by
  induction l generalizing pre with
  | nil => simp [seek] at h
  | cons x l ih =>
    cases x with
    | real a' sp' pg' d' =>
      by_cases ha : a' = a
      · subst ha
        simp only [seek, if_true, some.injEq, Prod.mk.injEq] at h
        obtain ⟨rfl, ⟨rfl, rfl, rfl⟩, rfl⟩ := h
        rfl
      · simp only [seek, if_neg ha, map_eq_some_iff] at h
        obtain ⟨⟨pre', q, post'⟩, hs, he⟩ := h
        simp only [Prod.mk.injEq] at he
        obtain ⟨rfl, rfl, rfl⟩ := he
        rw [ih hs, cons_append]
    | sub a' m =>
      simp only [seek, map_eq_some_iff] at h
      obtain ⟨⟨pre', q, post'⟩, hs, he⟩ := h
      simp only [Prod.mk.injEq] at he
      obtain ⟨rfl, rfl, rfl⟩ := he
      rw [ih hs, cons_append]

theorem wfList_flushTree {parent : Option ℕ} {l' : List (Mapping S T)}
    {cs : List (Charge S)} (hops : ∀ par m, nested par m → nested par (ops.flush m ob oe).1)
    (h : wfList s nested 0 par true l) (hf : flushTree ops parent meToo ob oe l = some (l', cs)) :
    wfList s nested 0 par true l' := by
  cases parent with
  | none =>
    simp only [flushTree, some.injEq] at hf
    rw [← show (flushLoop ops (-1) false ob oe (-1) l).1 = l' by rw [hf]]
    exact wfList_flushLoop hops h (by omega)
  | some a =>
    simp only [flushTree, map_eq_some_iff] at hf
    obtain ⟨⟨pre, ⟨sp, pg, d⟩, post⟩, hs, he⟩ := hf
    rw [seek_eq_some hs] at h
    obtain ⟨hd, hpost, hkeep, hdrop⟩ := wfList_real_focus h
    cases meToo with
    | true =>
      simp only [if_true, Prod.mk.injEq] at he
      rw [← he.1, flushLoop_of_meToo]
      exact hdrop _ fun cap' par' fr' hc => wfList_rest hpost (by omega) _ _
    | false =>
      simp only [Bool.false_eq_true, if_false, Prod.mk.injEq] at he
      rw [← he.1]
      exact hkeep _ _ _ (wfList_flushLoop hops hpost (by omega))

theorem wfOf_flushSubmap {ps ps' : ℕ} {t : TreemapOf S T}
    (hops : ∀ ob oe par m, nested par m → nested par (ops.flush m ob oe).1)
    (h : wfOf s nested ps par t) : wfOf s nested ps par (flushSubmap ops ps' s t ob oe).1 := by
  have hpage : ∀ i, wfList s nested 0 (t.owner, t.frameVaddr s i) true (t.tree i) →
      wfList s nested 0 (t.owner, t.frameVaddr s i) true
        (flushPage ops ps' s t.owner ob oe i (t.tree i)).1 := by
    intro i hi
    simp only [flushPage]
    split_ifs
    · trivial
    · trivial
    all_goals exact wfList_flushLoop (hops _ _) hi (by omega)
  refine ⟨h.owner, h.pageOffset, h.keyEnd, fun k hk => ?_, fun k hk => ?_⟩
  · simp only [flushSubmap]
    split_ifs
    · exact hpage k (h.tree k hk)
    · exact h.tree k hk
  · have hnil := h.outside k hk
    simp [flushSubmap, hnil, flushPage]

end WellFormed

theorem wf_flush (ss : List ℕ) (ps ps' ob oe : ℕ) (par : S × ℕ) (t : Treemap S ss)
    (h : wf ss ps par t) : wf ss ps par ((treemapOps ss ps').flush t ob oe).1 := by
  induction ss generalizing ps ps' ob oe par with
  | nil => exact nomatch t
  | cons s ss ih =>
    exact wfOf_flushSubmap (fun ob oe par m hm => ih s s ob oe par m hm) h

end Fiasco.Mapdb
