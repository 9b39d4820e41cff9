import Fiasco.Mapdb.Frame

/-!
# The levels of the mapping database for memory

`init_mapdb_mem` goes down from the width of a physical address to the base page. It takes the page
sizes of the hardware in turn, and levels of its own where they are more than twelve bits apart.
-/
namespace Fiasco.Mapdb

open List

def maxNumPageSizes : ℕ := 7

/-- The levels from `idx` on. The loop fails behind the last page size, at its assertion, and without
fuel. -/
def levelLoop (pageShift : ℕ) : ℕ → List ℕ → ℕ → ℕ → ℕ → Option (List ℕ)
  | 0, _, _, _, _ => none
  | fuel + 1, ps, c, lastBits, idx =>
    if c < pageShift then some []
    else
      match ps with
      | [] => none
      | p :: ps =>
        let split := p < lastBits ∧ 12 < lastBits - p
        let c := if split then lastBits - 12 else p
        if idx < maxNumPageSizes then
          (levelLoop pageShift fuel (if split then p :: ps else ps) (c - 1) c (idx + 1)).map
            ((c - pageShift) :: ·)
        else none

def initMapdbMem (pageShift mwordBits physBits : ℕ) (orders : List ℕ) (fuel : ℕ) :
    Option (List ℕ) :=
  let physBits := min physBits mwordBits
  levelLoop pageShift fuel orders physBits physBits 0

structure Refine (pageShift bits : ℕ) (orders sizes : List ℕ) : Prop where
  near : ((bits - pageShift) :: sizes).IsChain fun above s => s < above ∧ above ≤ s + 12
  last : ((bits - pageShift) :: sizes).getLast? = some 0
  all : ∀ o ∈ orders, o - pageShift ∈ sizes

variable {pageShift lastBits c idx : ℕ} {ps orders sizes : List ℕ}

theorem Refine.levels (h : Refine pageShift lastBits orders sizes) :
    Levels (lastBits - pageShift) sizes := by
  have hchain := (h.near.imp fun _ _ hs => hs.1 : List.IsChain (· > ·) _).pairwise
  obtain ⟨hle, hsorted⟩ := pairwise_cons.mp hchain
  exact ⟨hsorted, fun s hs => (hle s hs).le⟩

theorem Refine.cons (h : Refine pageShift c ps sizes) (hge : pageShift ≤ c) (hlt : c < lastBits)
    (hnear : lastBits ≤ c + 12) (hall : ∀ o ∈ orders, o = c ∨ o ∈ ps) :
    Refine pageShift lastBits orders ((c - pageShift) :: sizes) where
  near := isChain_cons_cons.mpr ⟨⟨by omega, by omega⟩, h.near⟩
  last := h.last
  all o ho := by
    rcases hall o ho with rfl | ho
    · exact mem_cons_self
    · exact mem_cons_of_mem _ (h.all o ho)

theorem bottom (hpage : 0 < pageShift) (hsort : (c :: ps).IsChain (· > ·))
    (hlast : (c :: ps).getLast? = some pageShift) :
    pageShift ≤ c ∧ (c - 1 < pageShift ↔ ps = []) := by
  cases ps with
  | nil =>
    obtain rfl : c = pageShift := by simpa using hlast
    exact ⟨le_rfl, iff_of_true (by omega) rfl⟩
  | cons p ps =>
    rw [getLast?_cons_cons] at hlast
    have hlt := (pairwise_cons.mp hsort.pairwise).1 _ (mem_of_getLast? hlast)
    exact ⟨hlt.le, iff_of_false (by omega) nofun⟩

theorem levelLoop_refine (hpage : 0 < pageShift) {fuel : ℕ} (hc : c < pageShift ↔ ps = [])
    (hsort : (lastBits :: ps).IsChain (· > ·)) (hlast : (lastBits :: ps).getLast? = some pageShift)
    (hroom : 12 * idx + (lastBits - pageShift + 11 * ps.length) ≤ 85)
    (hfuel : lastBits - pageShift + 11 * ps.length < 12 * fuel) :
    ∃ sizes, levelLoop pageShift fuel ps c lastBits idx = some sizes ∧
      Refine pageShift lastBits ps sizes ∧ idx + sizes.length ≤ maxNumPageSizes := by
  induction fuel generalizing ps c lastBits idx with
  | zero => omega
  | succ fuel ih =>
    cases ps with
    | nil =>
      obtain rfl : lastBits = pageShift := by simpa using hlast
      rw [levelLoop, if_pos (hc.mpr rfl)]
      refine ⟨[], rfl, ⟨.singleton _, by simp, nofun⟩, ?_⟩
      rw [length_nil, maxNumPageSizes]
      omega
    | cons p ps =>
      rw [getLast?_cons_cons] at hlast
      obtain ⟨hp, hps⟩ := isChain_cons_cons.mp hsort
      obtain ⟨hge, hend⟩ := bottom hpage hps hlast
      rw [length_cons] at hroom hfuel
      have hfree : idx < maxNumPageSizes := by
        rw [maxNumPageSizes]
        omega
      rw [levelLoop, if_neg (by simp [hc])]
      simp only [if_pos hfree]
      split_ifs with hsplit
      · obtain ⟨sizes, hs, href, hfit⟩ := @ih (lastBits - 12) (lastBits - 12 - 1)
          (idx + 1) (p :: ps) (iff_of_false (by omega) nofun)
          (isChain_cons_cons.mpr ⟨by omega, hps⟩) (by rwa [getLast?_cons_cons])
          (by rw [length_cons]; omega) (by rw [length_cons]; omega)
        refine ⟨_, by rw [hs]; rfl, href.cons (by omega) (by omega) (by omega) fun _ => .inr, ?_⟩
        rw [length_cons]
        omega
      · obtain ⟨sizes, hs, href, hfit⟩ := @ih p (p - 1) (idx + 1) ps hend hps hlast
          (by omega) (by omega)
        refine ⟨_, by rw [hs]; rfl, href.cons hge hp (by omega) fun _ => mem_cons.mp, ?_⟩
        rw [length_cons]
        omega

theorem initMapdbMem_refine {mwordBits physBits fuel : ℕ} (hpage : 12 ≤ pageShift)
    (hsort : (min physBits mwordBits :: orders).IsChain (· > ·))
    (hlast : orders.getLast? = some pageShift) (hnum : orders.length ≤ 3)
    (hbits : min physBits mwordBits ≤ 64) (hfuel : 8 ≤ fuel) :
    ∃ sizes, initMapdbMem pageShift mwordBits physBits orders fuel = some sizes ∧
      Refine pageShift (min physBits mwordBits) orders sizes ∧ sizes.length ≤ maxNumPageSizes ∧
      sizes.getLast? = some 0 ∧ Levels (min physBits mwordBits - pageShift) sizes := by
  cases orders with
  | nil => cases hlast
  | cons p ps =>
    have hend : (min physBits mwordBits :: p :: ps).getLast? = some pageShift := by
      rwa [getLast?_cons_cons]
    have hlt := (pairwise_cons.mp hsort.pairwise).1 _ (mem_of_getLast? hlast)
    have hc : min physBits mwordBits < pageShift ↔ p :: ps = [] :=
      iff_of_false (Nat.not_lt.mpr hlt.le) nofun
    obtain ⟨sizes, hrun, href, hfit⟩ := @levelLoop_refine pageShift _ _ 0 (p :: ps) (by omega) fuel
      hc hsort hend (by omega) (by omega)
    refine ⟨sizes, hrun, href, by rwa [zero_add] at hfit, ?_, href.levels⟩
    obtain ⟨s, l, rfl⟩ := exists_cons_of_ne_nil (ne_nil_of_mem (href.all p mem_cons_self))
    exact href.last

theorem initMapdbMem_refine_pages :
    ∃ sizes, initMapdbMem 12 64 48 [30, 21, 12] 8 = some sizes ∧ Refine 12 48 [30, 21, 12] sizes ∧
      sizes.length ≤ maxNumPageSizes ∧ sizes.getLast? = some 0 ∧ Levels 36 sizes :=
  initMapdbMem_refine (by decide) (by decide) rfl (by decide) (by decide) (by decide)

end Fiasco.Mapdb
