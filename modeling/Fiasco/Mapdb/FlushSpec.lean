import Fiasco.Mapdb.Cursor
import Fiasco.Mapdb.Foreach

/-!
# Flushing a mapping

`revoked a meToo vs ve` describes the chains a flush of the mapping at address `a` takes away: those
that go through this mapping and leave it inside the given range of virtual addresses, and, with
`meToo`, the mapping itself.
-/
namespace Fiasco.Mapdb

open DepthList Dyadic List Option

variable {S T : Type} {a : ℕ} {ve : ℕ} {hops : List (ℕ × ℕ)} {c : List (Node S)} {meToo : Bool}
  {ss : List ℕ} {par : S × ℕ}

def stepFrom (a : ℕ) : List (Node S) → Option (Node S × Node S)
  | [] => none
  | [_] => none
  | ch :: n :: q => if n.addr = a then some (ch, n) else stepFrom a (n :: q)

def meets (vs ve : ℕ) (ch n : Node S) : Bool :=
  ch.phys < n.phys + offsEnd (2 ^ n.shift) n.va ve &&
    n.phys + offsBegin n.va vs < ch.phys + 2 ^ ch.shift

def revoked (a : ℕ) (meToo : Bool) (vs ve : ℕ) (c : List (Node S)) : Bool :=
  (meToo && (c.head?.map Node.addr == some a)) ||
    match stepFrom a c with
    | some (ch, n) => meToo || meets vs ve ch n
    | none => false

theorem stepFrom_eq_none (h : ∀ x ∈ c.tail, x.addr ≠ a) : stepFrom a c = none := by
  induction c with
  | nil => rfl
  | cons x c ih =>
    cases c with
    | nil => rfl
    | cons y c =>
      have hy : y.addr ≠ a := h y mem_cons_self
      rw [stepFrom, if_neg hy]
      exact ih fun z hz => h z (mem_cons_of_mem _ hz)

theorem stepFrom_append {q tail : List (Node S)} {ch n : Node S} (hq : ∀ x ∈ q ++ [ch], x.addr ≠ a)
    (hn : n.addr = a) : stepFrom a (q ++ ch :: n :: tail) = some (ch, n) := by
  induction q with
  | nil => simp [stepFrom, hn]
  | cons x q ih =>
    have hrec := ih fun y hy => hq y (mem_cons_of_mem _ hy)
    cases q with
    | nil =>
      have hch : ch.addr ≠ a := hq ch (by simp)
      rw [cons_append, nil_append, stepFrom, if_neg hch]
      exact hrec
    | cons y q =>
      have hy : y.addr ≠ a := hq y (by simp)
      rw [cons_append, cons_append, stepFrom, if_neg hy]
      exact hrec

theorem revoked_of_not_mem {vs : ℕ} (h : ∀ x ∈ c, x.addr ≠ a) :
    revoked a meToo vs ve c = false := by
  have hstep : stepFrom a c = none :=
    stepFrom_eq_none fun x hx => h x (mem_of_mem_tail hx)
  have hhead : (c.head?.map Node.addr == some a) = false := by
    cases c with
    | nil => rfl
    | cons x c => simpa using h x mem_cons_self
  simp [revoked, hstep, hhead]

def Hangs (up : List (Node S)) (cs : List (List (Node S))) : Prop :=
  ∀ c ∈ cs, ∃ q, c = q ++ up ∧ ∀ x ∈ q, x ∈ heads cs

theorem chainsList_hangs {s : ℕ} {nested : ℕ → List (Node S) → T → List (List (Node S))} {phys : ℕ}
    (hnest : ∀ u m, Hangs u (nested phys u m)) {up : List (Node S)} (pd : ℤ)
    (st : List (ℕ × Node S)) (hst : ∀ e ∈ st.head?, (e.1 : ℤ) ≤ pd) {l : List (Mapping S T)}
    (hl : ∀ x ∈ l, x.deeper pd) : Hangs (path st ++ up) (chainsList s nested phys up st l) := by
  intro c hc
  obtain ⟨l₁, x, l₂, rfl, hx⟩ := mem_chainsList.mp hc
  have hdeep : ∀ y ∈ l₁ ++ [x], deeper (Mapping.view s phys) pd y := by
    intro y hy
    rw [deeper_view]
    refine hl y ?_
    rw [mem_append] at hy ⊢
    exact hy.imp id fun h => by simpa using .inl (mem_singleton.mp h)
  obtain ⟨pre, hpre, hfrom, -⟩ := stack_deeper hst hdeep [] (by simp)
  rw [nil_append] at hpre
  have hheads : ∀ y ∈ path pre, y ∈ heads (chainsList s nested phys up st (l₁ ++ x :: l₂)) := by
    intro y hy
    obtain ⟨e, he, rfl⟩ := mem_map.mp hy
    rcases hfrom e he with h | ⟨z, hz, hv⟩
    · exact absurd h not_mem_nil
    · refine mem_heads_of_mem (x := z) ?_ hv
      rw [mem_append] at hz ⊢
      exact hz.imp id fun h => by simpa using .inl (mem_singleton.mp h)
  have hpath : path (stack (Mapping.view s phys) st (l₁ ++ [x])) ++ up =
      path pre ++ (path st ++ up) := by
    rw [hpre, path_append, append_assoc]
  cases x with
  | real a sp pg d =>
    rw [chainsItem, mem_singleton, hpath] at hx
    exact ⟨path pre, hx, hheads⟩
  | sub a m =>
    rw [chainsItem, hpath] at hx
    obtain ⟨q, hq, hqh⟩ := hnest _ m c hx
    refine ⟨q ++ path pre, by rw [hq, append_assoc], fun y hy => ?_⟩
    rcases mem_append.mp hy with hy | hy
    · obtain ⟨c', hc', hh⟩ := mem_heads.mp (hqh y hy)
      refine mem_heads.mpr ⟨c', ?_, hh⟩
      exact mem_chainsList.mpr ⟨l₁, _, l₂, rfl, by rw [chainsItem, hpath]; exact hc'⟩
    · exact hheads y hy

theorem chains_hangs (ss : List ℕ) (base : ℕ) (up : List (Node S)) (t : Treemap S ss) :
    Hangs up (chains ss base up t) := by
  induction ss generalizing base up with
  | nil => exact nomatch t
  | cons s ss ih =>
    intro c hc
    obtain ⟨k, hk, hck⟩ := mem_flatMap.mp hc
    have hall : ∀ x ∈ TreemapOf.tree t k, Mapping.deeper (-1) x := by
      intro x _
      cases x <;> simp [Mapping.deeper]
      omega
    obtain ⟨q, hq, hqh⟩ := chainsList_hangs (fun u m => ih (base + k * 2 ^ s) u m)
      (-1) [] (by simp) hall c hck
    exact ⟨q, hq, fun x hx => heads_flatMap_mem hk (hqh x hx)⟩

def mappingAddrs (cs : List (List (Node S))) : List ℕ := (heads cs).map Node.addr

@[simp] theorem mappingAddrs_append (cs ds : List (List (Node S))) :
    mappingAddrs (cs ++ ds) = mappingAddrs cs ++ mappingAddrs ds := by
  simp [mappingAddrs]

theorem mem_mappingAddrs {cs : List (List (Node S))} {x : Node S} (h : x ∈ heads cs) :
    x.addr ∈ mappingAddrs cs :=
  mem_map_of_mem h

structure Cut (cs : List (List (Node S))) (n : Node S) (tail : List (Node S))
    (A X B : List (List (Node S))) : Prop where
  eq : cs = A ++ (n :: tail) :: X ++ B
  before : Closed [] A A
  after : Closed [] (A ++ B) B
  above : ∀ x ∈ tail, x ∈ heads A
  hangs : Hangs (n :: tail) X
  nodup : (mappingAddrs cs).Nodup

namespace Cut

variable {cs A X B : List (List (Node S))} {n : Node S} {tail : List (Node S)}

section

variable (h : Cut cs n tail A X B)
include h

theorem addr_ne {x : Node S} (hx : x ∈ heads (A ++ X ++ B)) : x.addr ≠ n.addr := by
  have hcons : mappingAddrs ((n :: tail) :: X) = n.addr :: mappingAddrs X := rfl
  have hnd := h.nodup
  rw [h.eq, mappingAddrs_append, mappingAddrs_append, hcons] at hnd
  have hperm : (n.addr :: mappingAddrs (A ++ X ++ B)).Nodup := by
    refine (Perm.nodup_iff ?_).mp hnd
    refine perm_iff_count.mpr fun i => ?_
    simp only [mappingAddrs_append, count_append, count_cons]
    omega
  exact fun he => (nodup_cons.mp hperm).1 (he ▸ mem_mappingAddrs hx)

theorem not_mem_before (hc : c ∈ A) : ∀ x ∈ c, x.addr ≠ n.addr := by
  intro x hx
  have := (h.before c hc x hx).resolve_left not_mem_nil
  exact h.addr_ne (by simp [this])

theorem not_mem_after (hc : c ∈ B) : ∀ x ∈ c, x.addr ≠ n.addr := by
  intro x hx
  have := (h.after c hc x hx).resolve_left not_mem_nil
  refine h.addr_ne ?_
  simp only [heads_append, mem_append] at this ⊢
  tauto

theorem revoked_self (meToo : Bool) (vs ve : ℕ) :
    revoked n.addr meToo vs ve (n :: tail) = meToo := by
  have hstep : stepFrom n.addr (n :: tail) = none :=
    stepFrom_eq_none fun x hx => h.addr_ne (by simp [h.above x hx])
  simp [revoked, hstep]

theorem revoked_below (hc : c ∈ X) {ch : Node S}
    (hch : Extends (n :: tail) c ch) (meToo : Bool) (vs ve : ℕ) :
    revoked n.addr meToo vs ve c = (meToo || meets vs ve ch n) := by
  obtain ⟨q, hq, hqh⟩ := h.hangs c hc
  obtain ⟨p, hp⟩ := hch
  have hpq : q = p ++ [ch] := by
    have : q ++ (n :: tail) = (p ++ [ch]) ++ (n :: tail) := by
      rw [← hq, hp]
      simp
    exact append_cancel_right this
  have hne : ∀ x ∈ p ++ [ch], x.addr ≠ n.addr := by
    intro x hx
    rw [← hpq] at hx
    exact h.addr_ne (by simp [hqh x hx])
  have hstep : stepFrom n.addr c = some (ch, n) := by
    rw [hp]
    exact stepFrom_append hne rfl
  have hhead : (c.head?.map Node.addr == some n.addr) = false := by
    rw [hp]
    cases p with
    | nil => simpa using hne ch (by simp)
    | cons x p => simpa using hne x (by simp)
  simp [revoked, hstep, hhead]

theorem filter_revoked {meToo : Bool} {vs ve : ℕ} {X' : List (List (Node S))}
    (hX : X' = X.filter (fun c => !revoked n.addr meToo vs ve c)) :
    cs.filter (fun c => !revoked n.addr meToo vs ve c) =
      A ++ (if meToo then [] else [n :: tail]) ++ X' ++ B := by
  have hA : A.filter (fun c => !revoked n.addr meToo vs ve c) = A := by
    rw [filter_eq_self]
    intro c hc
    rw [revoked_of_not_mem (h.not_mem_before hc)]
    rfl
  have hB : B.filter (fun c => !revoked n.addr meToo vs ve c) = B := by
    rw [filter_eq_self]
    intro c hc
    rw [revoked_of_not_mem (h.not_mem_after hc)]
    rfl
  rw [h.eq, filter_append, filter_append, hA, hB, filter_cons, h.revoked_self, ← hX]
  cases meToo <;> simp

theorem filter_revoked_below (vs ve : ℕ) :
    cs.filter (revoked n.addr false vs ve) = X.filter (revoked n.addr false vs ve) := by
  have hA : A.filter (revoked n.addr false vs ve) = [] := by
    rw [filter_eq_nil_iff]
    intro c hc
    simp [revoked_of_not_mem (h.not_mem_before hc)]
  have hB : B.filter (revoked n.addr false vs ve) = [] := by
    rw [filter_eq_nil_iff]
    intro c hc
    simp [revoked_of_not_mem (h.not_mem_after hc)]
  rw [h.eq, filter_append, filter_append, hA, hB, filter_cons, h.revoked_self]
  simp

theorem mem : n ∈ heads cs := by
  rw [h.eq]
  simp [heads]

end

end Cut

section Frame

variable {t : Treemap S ss} {s' : ℕ} {ss' : List ℕ} {t' : TreemapOf S (Treemap S ss')}
  {plug : TreemapOf S (Treemap S ss') → Treemap S ss} {k : ℕ}
  {pre post : List (Mapping S (Treemap S ss'))} {a d : ℕ} {sp : S} {pg : ℕ}

theorem At.cut (hat : At ss t hops s' ss' t' plug) (hk : k < t'.keyEnd)
    (hl : t'.tree k = pre ++ .real a sp pg d :: post)
    (hnd : (mappingAddrs (chains ss 0 [] t)).Nodup) :
    ∃ phys up st A B,
      AroundMapping ss s' ss' (fun l => plug (t'.set k l)) phys up st pre a d A B ∧
      Cut (chains ss 0 [] t) (label s' phys a sp pg) (path st ++ up) A
        (chainsList s' (chains ss') phys up ((d, label s' phys a sp pg) :: st) (Mapdb.below d post))
        (chainsList s' (chains ss') phys up ((d, label s' phys a sp pg) :: st) (rest d post) ++ B) := by
  obtain ⟨phys, up, A₀, B, haround, -⟩ := hat.around hk
  obtain ⟨A, hmap⟩ := haround.mapping pre a d
  refine ⟨phys, up, _, A, B, hmap, ?_, hmap.before, ?_, hmap.above, ?_, hnd⟩
  · have hself : plug (t'.set k (pre ++ .real a sp pg d :: post)) = t := by
      rw [← hl, TreemapOf.set_self t' rfl, hat.plug_self]
    have h := hmap.mapping sp pg post
    rw [hself, chainsList_rest phys up _ d] at h
    simpa using h
  · refine Closed.append ?_ ?_
    · refine (hmap.restClosed (label s' phys a sp pg) post).mono fun x hx => ?_
      simp only [heads_append, mem_append] at hx ⊢
      tauto
    · refine hmap.after.mono fun x hx => ?_
      simp only [heads_append, mem_append] at hx ⊢
      tauto
  · exact chainsList_hangs (fun u m => chains_hangs ss' phys u m) d _ (by simp)
      fun x hx => deeper_of_mem_below hx

theorem At.open {ps : ℕ} {par : S × ℕ} (hs : Levels ps ss) (hwf : Mapdb.wf ss ps par t)
    (hnd : (mappingAddrs (chains ss 0 [] t)).Nodup) (hat : At ss t hops s' ss' t' plug)
    (hk : k < t'.keyEnd) (hseek : seek a (t'.tree k) = some (pre, (sp, pg, d), post)) :
    Levels s' ss' ∧ wfList s' (Mapdb.wf ss' s') (d + 1) (sp, pg * 2 ^ s') true post ∧
    ∃ phys up st A B,
      AroundMapping ss s' ss' (fun l => plug (t'.set k l)) phys up st pre a d A B ∧
      Cut (chains ss 0 [] t) (label s' phys a sp pg) (path st ++ up) A
        (chainsList s' (chains ss') phys up ((d, label s' phys a sp pg) :: st) (Mapdb.below d post))
        (chainsList s' (chains ss') phys up ((d, label s' phys a sp pg) :: st) (rest d post) ++ B) ∧
      Within phys (phys + 2 ^ s') (label s' phys a sp pg :: (path st ++ up))
        (chainsList s' (chains ss') phys up ((d, label s' phys a sp pg) :: st) (Mapdb.below d post)) := by
  obtain ⟨ps', par', hs', hwf', -⟩ := hat.wf hs hwf
  have hlist := hwf'.tree k hk
  rw [seek_eq_some hseek] at hlist
  obtain ⟨-, hpost, -, -⟩ := wfList_real_focus hlist
  obtain ⟨phys, up, st, A, B, hmap, hcut⟩ := hat.cut hk (seek_eq_some hseek) hnd
  exact ⟨hs'.tail, hpost, phys, up, st, A, B, hmap, hcut,
    chainsList_below_within (fun par m u hm => chains_within hs'.tail hm phys u) hpost d
      ((d, label s' phys a sp pg) :: st) (by simp) up⟩

theorem hit_eq_meets {phys vs ve : ℕ} {tail c : List (Node S)} {ch : Node S}
    (hch : Extends (label s' phys a sp pg :: tail) c ch) :
    hit (label s' phys a sp pg :: tail) (phys + offsBegin (pg * 2 ^ s') vs)
        (phys + offsEnd (2 ^ s') (pg * 2 ^ s') ve) c =
      meets vs ve ch (label s' phys a sp pg) := by
  rw [hit_of_extends hch, meets]

end Frame

def BlockRange (n : Node S) (vs ve : ℕ) : Prop := Clips (2 ^ n.shift) n.va vs ve

theorem flush_mapping {ps : ℕ} (hs : Levels ps ss) {t t' : Treemap S ss}
    (hwf : wf ss ps par t) (hnd : (mappingAddrs (chains ss 0 [] t)).Nodup)
    {k vs : ℕ} {cs : List (Charge S)}
    (hrange : meToo = true ∨ ∀ n ∈ heads (chains ss 0 [] t), n.addr = a → BlockRange n vs ve)
    (hf : flush ss t ⟨hops, k, some a⟩ meToo vs ve = some (t', cs)) :
    chains ss 0 [] t' = (chains ss 0 [] t).filter (fun c => !revoked a meToo vs ve c) := by
  obtain ⟨s', ss', t₀, plug, l, hat, hk, hop, rfl⟩ := onFrame_eq_some.mp hf
  simp only [pvaddr, flushTree, bind_eq_some_iff, map_eq_some_iff] at hop
  obtain ⟨pv, ⟨⟨pre, ⟨sp, pg, d⟩, post⟩, hseek, rfl⟩, ⟨r, hseek', hres⟩⟩ := hop
  rw [hseek] at hseek'
  cases some.inj hseek'
  obtain ⟨hs', hpost, phys, up, st, A, B, hmap, hcut, hin⟩ := hat.open hs hwf hnd hk hseek
  set n := label s' phys a sp pg with hn
  set X := chainsList s' (chains ss') phys up ((d, n) :: st) (below d post) with hX
  have hrest := hmap.rest n post
  cases meToo with
  | true =>
    simp only [if_true, Prod.mk.injEq] at hres
    have hnone : X.filter (fun c => !revoked n.addr true vs ve c) = [] := by
      rw [filter_eq_nil_iff]
      intro c hc
      obtain ⟨ch, hch, -⟩ := hin c hc
      simp [hcut.revoked_below hc hch]
    rw [show a = n.addr from rfl, hcut.filter_revoked hnone.symm, ← hres.1, flushLoop_of_meToo]
    simp only at hrest
    rw [hrest]
    simp
  | false =>
    simp only [Bool.false_eq_true, if_false, Prod.mk.injEq] at hres
    have hclip := hrange.resolve_left (by simp) n hcut.mem rfl
    obtain ⟨o, hblock⟩ := hclip.block
    have hflush := chainsList_flushLoop up d ((d, n) :: st) (by simp)
      (fun par m u hm => chains_within hs' hm phys u)
      (fun par m hm => size_of_wf s' hs' hm)
      (fun par m u hm _ => chains_flush hs' hblock hm phys u) hblock.lt hclip.end_le hpost
    have hX' : X.filter (fun c => !hit (path ((d, n) :: st) ++ up)
          (phys + offsBegin n.va vs) (phys + offsEnd (2 ^ n.shift) n.va ve) c) =
        X.filter (fun c => !revoked n.addr false vs ve c) := by
      refine filter_congr fun c hc => ?_
      obtain ⟨ch, hch, -⟩ := hin c hc
      rw [hcut.revoked_below hc hch, Bool.false_or]
      exact congrArg _ (hit_eq_meets hch)
    rw [show a = n.addr from rfl, hcut.filter_revoked hX', ← hres.1]
    have h := hmap.mapping sp pg
      (flushLoop (treemapOps ss' s') d false (offsBegin n.va vs) (offsEnd (2 ^ n.shift) n.va ve) d
        post).1
    simp only at h
    rw [h, hflush]
    simp [hX, hn]

theorem foreachMapping_of_at {t : Treemap S ss} {f : Frame} {s' : ℕ} {ss' : List ℕ}
    {t₀ : TreemapOf S (Treemap S ss')} {plug : TreemapOf S (Treemap S ss') → Treemap S ss}
    (hat : At ss t f.hops s' ss' t₀ plug) (hk : f.key < t₀.keyEnd) {vb : ℕ} {vis : List (Visit S)}
    (hv : foreachFrom s' ss' f.m vb ve (t₀.tree f.key) = some vis) :
    foreachMapping ss t f vb ve = some vis := by
  rw [foreachMapping, onFrame_eq_some.mpr
    ⟨s', ss', t₀, plug, t₀.tree f.key, hat, hk, by rw [hv]; rfl, rfl⟩]
  rfl

theorem foreach_mapping {ps : ℕ} (hs : Levels ps ss) {t : Treemap S ss}
    (hwf : wf ss ps par t) (hnd : (mappingAddrs (chains ss 0 [] t)).Nodup)
    {k vb : ℕ} (hrange : ∀ n ∈ heads (chains ss 0 [] t), n.addr = a → BlockRange n vb ve)
    {r : Treemap S ss × List (Charge S)}
    (hf : flush ss t ⟨hops, k, some a⟩ meToo vb ve = some r) :
    foreachMapping ss t ⟨hops, k, some a⟩ vb ve =
      some (visits ((chains ss 0 [] t).filter (revoked a false vb ve))) := by
  obtain ⟨s', ss', t₀, plug, l, hat, hk, hop, -⟩ := onFrame_eq_some.mp hf
  simp only [pvaddr, bind_eq_some_iff, map_eq_some_iff] at hop
  obtain ⟨pv, ⟨⟨pre, ⟨sp, pg, d⟩, post⟩, hseek, -⟩, -⟩ := hop
  obtain ⟨hs', hpost, phys, up, st, A, B, hmap, hcut, hin⟩ := hat.open hs hwf hnd hk hseek
  set n := label s' phys a sp pg with hn
  have hclip : Clips (2 ^ s') (pg * 2 ^ s') vb ve := hrange n hcut.mem rfl
  have hvis := foreachTree_eq up (d + 1) ((d, n) :: st) (by simp)
    (fun par m u hm => chains_within hs' hm phys u)
    (fun u m => forFullTreemap_eq ss' phys u m)
    (fun m u hm => foreachTreemap_eq hs' hm hclip phys u) hclip.lt hclip.end_le hpost
  refine foreachMapping_of_at hat hk ?_
  simp only [foreachFrom, hseek, bind_some]
  refine hvis.trans (congrArg (fun cs => some (visits cs)) ?_)
  rw [show a = n.addr from rfl, hcut.filter_revoked_below]
  rw [show ((d + 1 : ℕ) : ℤ) - 1 = d by omega]
  refine filter_congr fun c hc => ?_
  obtain ⟨ch, hch, -⟩ := hin c hc
  rw [hcut.revoked_below hc hch, Bool.false_or]
  exact hit_eq_meets hch

end Fiasco.Mapdb
