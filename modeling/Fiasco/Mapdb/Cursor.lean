import Fiasco.Mapdb.FlushChains

/-!
# The chains around one mapping

All operations work at a cursor: a mapping of the tree a frame points to, or the head
of that tree. Here the chains of the whole treemap are split at the cursor once and for
all, for whatever an operation puts behind it.
-/
namespace Fiasco.Mapdb

open DepthList List

variable {S : Type}

structure Around (ss : List ℕ) (s' : ℕ) (ss' : List ℕ)
    (put : List (Mapping S (Treemap S ss')) → Treemap S ss) (phys : ℕ) (up : List (Node S))
    (A B : List (List (Node S))) : Prop where
  chains : ∀ l, chains ss 0 [] (put l) = A ++ chainsList s' (Mapdb.chains ss') phys up [] l ++ B
  before : Closed [] A A
  after : Closed [] (A ++ B) B
  above : ∀ x ∈ up, x ∈ heads A
  parent : up = [] ∨ up ∈ A

theorem At.around {ss : List ℕ} {t : Treemap S ss} {hops : List (ℕ × ℕ)} {s' : ℕ}
    {ss' : List ℕ} {t' : TreemapOf S (Treemap S ss')}
    {plug : TreemapOf S (Treemap S ss') → Treemap S ss} (h : At ss t hops s' ss' t' plug)
    {k : ℕ} (hk : k < t'.keyEnd) :
    ∃ phys up A B, Around ss s' ss' (fun l => plug (t'.set k l)) phys up A B ∧
      (hops = [] → up = [] ∧ phys = k * 2 ^ s') := by
  obtain ⟨phys, up, A, B, hA, hB, hup, hpar, hroot, hl⟩ := h.focus hk 0 []
  refine ⟨phys, up, A, B, ⟨hl, hA, hB, fun x hx => (hup x hx).resolve_left not_mem_nil, hpar⟩,
    fun h => ?_⟩
  simpa using hroot h

abbrev label (s phys a : ℕ) (sp : S) (pg : ℕ) : Node S := ⟨a, sp, pg * 2 ^ s, phys, s⟩

def openAt (s phys d : ℕ) {T : Type} (pre : List (Mapping S T)) : List (ℕ × Node S) :=
  (stack (Mapping.view s phys) [] pre).dropWhile (fun e => d ≤ e.1)

section Split

variable {ss : List ℕ} {s' : ℕ} {ss' : List ℕ}
  {put : List (Mapping S (Treemap S ss')) → Treemap S ss} {phys : ℕ} {up : List (Node S)}
  {A B : List (List (Node S))}

theorem chainsList_real {T : Type} {s : ℕ} {nested : ℕ → List (Node S) → T → List (List (Node S))}
    (phys : ℕ) (up : List (Node S)) (pre post : List (Mapping S T)) (a : ℕ) (sp : S) (pg d : ℕ) :
    chainsList s nested phys up [] (pre ++ .real a sp pg d :: post) =
      chainsList s nested phys up [] pre ++
        (label s phys a sp pg :: (path (openAt s phys d pre) ++ up)) ::
          chainsList s nested phys up ((d, label s phys a sp pg) :: openAt s phys d pre) post := by
  rw [chainsList_append]
  rfl

theorem chainsList_drop {T : Type} {s : ℕ} {nested : ℕ → List (Node S) → T → List (List (Node S))}
    (phys : ℕ) (up : List (Node S)) (pre post : List (Mapping S T)) (n : Node S) (d : ℕ) :
    chainsList s nested phys up ((d, n) :: openAt s phys d pre) (rest d post) =
      chainsList s nested phys up (stack (Mapping.view s phys) [] pre) (rest d post) := by
  rw [chainsList, chainsList, ← beyond_view s phys]
  cases hb : beyond (Mapping.view s phys) (d : ℤ) post with
  | nil => rfl
  | cons x r =>
    obtain ⟨dx, nx, hv, hd⟩ := beyond_head hb
    have hle : dx ≤ d := by omega
    rw [scan_cons, scan_cons, advance_of_some hv, advance_of_some hv, openAt]
    simp only [dropWhile_cons, hle, decide_true, if_true]
    rw [dropWhile_dropWhile_of_le hle]

structure AroundMapping (ss : List ℕ) (s' : ℕ) (ss' : List ℕ)
    (put : List (Mapping S (Treemap S ss')) → Treemap S ss) (phys : ℕ) (up : List (Node S))
    (st : List (ℕ × Node S)) (pre : List (Mapping S (Treemap S ss'))) (a d : ℕ)
    (A B : List (List (Node S))) : Prop where
  mapping : ∀ sp pg post, chains ss 0 [] (put (pre ++ .real a sp pg d :: post)) =
    A ++ (label s' phys a sp pg :: (path st ++ up)) ::
      chainsList s' (Mapdb.chains ss') phys up ((d, label s' phys a sp pg) :: st) post ++ B
  rest : ∀ n post, chains ss 0 [] (put (pre ++ Mapdb.rest d post)) =
    A ++ chainsList s' (Mapdb.chains ss') phys up ((d, n) :: st) (Mapdb.rest d post) ++ B
  before : Closed [] A A
  after : Closed [] (A ++ B) B
  above : ∀ x ∈ path st ++ up, x ∈ heads A
  depths : ∀ e ∈ st, e.1 < d
  restClosed : ∀ n post, Closed [] (A ++ chainsList s' (Mapdb.chains ss') phys up ((d, n) :: st)
    (Mapdb.rest d post)) (chainsList s' (Mapdb.chains ss') phys up ((d, n) :: st) (Mapdb.rest d post))

theorem Around.mapping (h : Around ss s' ss' put phys up A B)
    (pre : List (Mapping S (Treemap S ss'))) (a d : ℕ) :
    ∃ A', AroundMapping ss s' ss' put phys up (openAt s' phys d pre) pre a d A' B := by
  set C := chainsList s' (Mapdb.chains ss') phys up [] pre with hC
  have hcs : ∀ (phys : ℕ) (u : List (Node S)) (m : Treemap S ss'),
      Closed u (Mapdb.chains ss' phys u m) (Mapdb.chains ss' phys u m) :=
    fun phys u m => chains_closed ss' phys u m
  have hup : ∀ x ∈ up, x ∈ heads (A ++ C) := fun x hx => by
    rw [heads_append]
    exact mem_append_left _ (h.above x hx)
  have hstack : ∀ x ∈ path (stack (Mapping.view s' phys) [] pre), x ∈ heads (A ++ C) := by
    intro x hx
    rw [heads_append]
    exact mem_append_right _ (path_stack_heads hx)
  have hopen : ∀ x ∈ path (openAt s' phys d pre), x ∈ heads (A ++ C) := by
    intro x hx
    obtain ⟨e, he, rfl⟩ := mem_map.mp hx
    exact hstack _ (mem_map_of_mem (dropWhile_subset _ he))
  refine ⟨A ++ C, ?_, ?_, ?_, ?_, ?_, fun e he => lt_of_mem_dropWhile (stack_sorted pre) he, ?_⟩
  · intro sp pg post
    rw [h.chains, chainsList_real]
    simp [hC]
  · intro n post
    rw [h.chains, chainsList_append, chainsList_drop]
    simp [hC]
  · refine Closed.append (h.before.mono fun x hx => by simp [hx]) ?_
    intro c hc x hx
    rcases chainsList_closed hcs phys up [] pre c hc x hx with hx | hx
    · exact .inr (hup x hx)
    · exact .inr (by simp [hC, hx])
  · refine h.after.mono fun x hx => ?_
    simp only [heads_append, mem_append] at hx ⊢
    tauto
  · intro x hx
    rcases mem_append.mp hx with hx | hx
    · exact hopen x hx
    · exact hup x hx
  · intro n post
    rw [chainsList_drop]
    intro c hc x hx
    rcases chainsList_closed hcs phys up _ _ c hc x hx with hx | hx
    · rcases mem_append.mp hx with hx | hx
      · exact .inr (by rw [heads_append]; exact mem_append_left _ (hstack x hx))
      · exact .inr (by rw [heads_append]; exact mem_append_left _ (hup x hx))
    · exact .inr (by rw [heads_append]; exact mem_append_right _ hx)

end Split
end Fiasco.Mapdb
