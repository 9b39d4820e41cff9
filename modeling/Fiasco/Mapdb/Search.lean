import Fiasco.Mapdb.Chains
import Fiasco.Mapdb.Lookup

/-!
# What a search visits

`stops` lists the mappings `_lookup` passes in the page frames of a key. The search
ends at the first one that is the wanted page, with the lock of its page frame, and has
seen the depths of all mappings up to it.
-/
namespace Fiasco.Mapdb

open LockTrace List

variable {S T : Type}

section Locks

def InFrame (k : ℕ) (x : Lock) : Prop := ∃ a r, x.1 = (k, a) :: r

theorem Lock.under_injective (h : ℕ × ℕ) : Function.Injective (Lock.under h) := by
  rintro ⟨a, b⟩ ⟨c, d⟩ he
  simpa [Lock.under] using he

variable {tr : Trace} {held : List Lock} {h : ℕ × ℕ} {k : ℕ}

theorem exec_under (he : exec tr [] = some held) :
    exec (Trace.under h tr) [] = some (held.map (Lock.under h)) := by
  have := exec_map (Lock.under_injective h) tr []
  rw [he] at this
  exact this

theorem inFrame_under {e : Event Lock} (he : e ∈ Trace.under h tr) : InFrame h.1 e.lock := by
  obtain ⟨e', -, rfl⟩ := mem_map.mp he
  cases e' <;> exact ⟨h.2, _, rfl⟩

variable (htr : ∀ e ∈ tr, InFrame k e.lock) (he : exec tr [] = some held)
include htr he

theorem exec_frame_self : exec tr [([], k)] = some (held ++ [([], k)]) := by
  have h := exec_frame he (H := [([], k)]) fun e hmem hin => by
    obtain ⟨a, r, hlock⟩ := htr e hmem
    rw [mem_singleton.mp hin] at hlock
    exact cons_ne_nil _ _ hlock.symm
  exact h

theorem not_mem_of_inFrame
    : (([], k) : Lock) ∉ held := by
  intro hin
  rcases exec_mem he hin with h | h
  · exact absurd h not_mem_nil
  · obtain ⟨a, r, hlock⟩ := htr _ h
    exact cons_ne_nil _ _ hlock.symm

theorem exec_around :
    exec (.acquire ([], k) :: tr) [] = some (held ++ [([], k)]) ∧
      exec (.acquire ([], k) :: tr ++ [.release ([], k)]) [] = some held := by
  have h1 : exec (.acquire ([], k) :: tr) [] = some (held ++ [([], k)]) := by
    rw [exec_acquire not_mem_nil, exec_frame_self htr he]
  exact ⟨h1, exec_trans h1 (exec_release_last (not_mem_of_inFrame htr he))⟩

end Locks

section Finds

def Looked.held (r : Looked) : List Lock :=
  match r.found with
  | some (true, f) => [f.lock]
  | _ => []

structure Looked.Locks (k : ℕ) (r : Looked) : Prop where
  held : exec r.trace [] = some r.held
  here : ∀ f, r.found = some (false, f) → f.lock = ([], k)
  inFrame : ∀ e ∈ r.trace, InFrame k e.lock

theorem Looked.Locks.append {k : ℕ} {r : Looked} (h : r.Locks k) {tr : Trace}
    (htr : exec tr [] = some []) (hin : ∀ e ∈ tr, InFrame k e.lock) :
    Looked.Locks k ⟨r.found, r.depths, tr ++ r.trace⟩ where
  held := exec_trans htr h.held
  here := h.here
  inFrame e he := (mem_append.mp he).elim (hin e) (h.inFrame e)

theorem lookupSub_inFrame {b : Bool} {s' subkey : ℕ}
    {search : ℕ → Depths → List (Mapping S T) → Looked} {h : ℕ × ℕ} {m : TreemapOf S T}
    {ds : Depths} {e : Event Lock} (he : e ∈ (lookupSub b s' subkey search h m ds).trace) :
    InFrame h.1 e.lock := by
  simp only [lookupSub] at he
  split_ifs at he
  · exact inFrame_under he
  · split at he <;> exact inFrame_under he

theorem lookupSub_held {b : Bool} {s' subkey : ℕ}
    {search : ℕ → Depths → List (Mapping S T) → Looked} {h : ℕ × ℕ} {m : TreemapOf S T}
    {ds : Depths} (hs : (search (truncToPage s' subkey) ds (m.tree (truncToPage s' subkey))).Locks
      (truncToPage s' subkey)) :
    exec (lookupSub b s' subkey search h m ds).trace [] =
      some ((lookupSub b s' subkey search h m ds).found.map fun p => p.2.lock).toList := by
  simp only [lookupSub]
  split_ifs
  · rfl
  · have hheld := hs.held
    rw [Looked.held] at hheld
    split
    · next inSub f hfound =>
      rw [hfound] at hheld
      cases inSub with
      | true => exact exec_under (exec_around hs.inFrame hheld).2
      | false =>
        have hf := hs.here f hfound
        simp only [Bool.false_eq_true, if_false, append_nil]
        rw [exec_under (exec_around hs.inFrame hheld).1]
        simp only [nil_append, map_cons, map_nil, ← hf]
        rfl
    · next hfound =>
      rw [hfound] at hheld
      exact exec_under (exec_around hs.inFrame hheld).2

variable {spc : S} {va : ℕ} {ds : Depths} [DecidableEq S]

theorem lookupLoop_locks {sub : ℕ → T → Depths → Looked} {s k : ℕ}
    (hsub : ∀ a m ds, exec (sub a m ds).trace [] =
      some ((sub a m ds).found.map fun p => p.2.lock).toList)
    (hin : ∀ a m ds, ∀ e ∈ (sub a m ds).trace, InFrame k e.lock) (ds : Depths)
    (l : List (Mapping S T)) : (lookupLoop sub s k spc va ds l).Locks k := by
  induction l generalizing ds with
  | nil => exact ⟨rfl, (fun f hf => nomatch hf), fun e he => absurd he not_mem_nil⟩
  | cons x l ih =>
    cases x with
    | real a sp pg d =>
      simp only [lookupLoop]
      split_ifs
      · refine ⟨rfl, fun f hf => ?_, fun e he => absurd he not_mem_nil⟩
        cases hf
        rfl
      · exact ih _
    | sub a m =>
      have hs := hsub a m ds
      simp only [lookupLoop]
      split
      · next b f hfound =>
        rw [hfound] at hs
        exact ⟨hs, (fun f hf => by simp at hf), hin a m ds⟩
      · next hfound =>
        rw [hfound] at hs
        exact (ih _).append hs (hin a m ds)

variable {Q : Type} [Spaces S Q]

theorem lookupFrom_locks (spc : S) (va s : ℕ) (ss : List ℕ) (key k : ℕ) (ds : Depths)
    (l : List (Mapping S (Treemap S ss))) : (lookupFrom spc va s ss key k ds l).Locks k := by
  induction ss generalizing s key k ds with
  | nil => exact lookupLoop_locks (fun _ m => nomatch m) (fun _ m => nomatch m) ds l
  | cons s' ss ih =>
    exact lookupLoop_locks (fun a m ds => lookupSub_held (ih s' _ _ ds _))
      (fun a _ _ _ he => lookupSub_inFrame (h := (k, a)) he) ds l

end Finds

end Fiasco.Mapdb
