import Fiasco.Ptab.UnmapSpec

/-!
# What `map` writes

A call of `map` that returns a size other than 0 has written all entries of the target level in its
range, and has allocated the tables above them that were missing (`mapped`). The physical address
advances by the size that the inner call returns, and a call for a table above the target level
returns the size of its last part only (`returned`).
-/
namespace Fiasco.Ptab

open Function

open Finset

variable {P : Type} {t : Table P} {tmpl : ℕ → P} {d : Ldesc} {inc : ℕ}

def Entry.sub : Entry P → Table P
  | .next x => x
  | _ => empty

def Entry.isLeaf : Entry P → Bool
  | .leaf _ => true
  | _ => false

def mapped : ℕ → List Ldesc → (ℕ → P) → ℕ → ℕ → Table P → Table P
  | 0, d :: _, g, s, e, t => fun i =>
    if d.index s ≤ i ∧ i ≤ d.index e then .leaf (g (i * 2 ^ d.shift)) else t i
  | levels + 1, d :: ds, g, s, e, t => fun i =>
    if d.index s ≤ i ∧ i ≤ d.index e then
      .next (mapped levels ds (fun a => g (i * 2 ^ d.shift + a)) (d.lo s i) (d.hi e i) (t i).sub)
    else t i
  | _, [], _, _, _, t => t

def returned (base : ℕ) : ℕ → List Ldesc → ℕ → ℕ → ℕ
  | 0, d :: _, s, e => (d.index e + 1 - d.index s) * 2 ^ (d.shift + base)
  | levels + 1, d :: ds, s, e => returned base levels ds (d.lo s (d.index e)) (d.hi e (d.index e))
  | _, [], _, _ => 0

def offset (base : ℕ) : ℕ → List Ldesc → ℕ → ℕ → ℕ → ℕ
  | 0, d :: _, s, _, a => (d.index a - d.index s) * 2 ^ (d.shift + base)
  | levels + 1, d :: ds, s, e, a =>
    ∑ m ∈ Ico (d.index s) (d.index a), returned base levels ds (d.lo s m) (d.hi e m) +
      offset base levels ds (d.lo s (d.index a)) (d.hi e (d.index a)) (a % 2 ^ d.shift)
  | _, [], _, _, _ => 0

def NoPage (B : Ldesc → Bool) : ℕ → List Ldesc → ℕ → ℕ → Table P → Prop
  | levels + 1, d :: ds, s, e, t => ∀ i, d.index s ≤ i → i ≤ d.index e →
    (B d = true → (t i).isLeaf = false) ∧ NoPage B levels ds (d.lo s i) (d.hi e i) (t i).sub
  | _, _, _, _, _ => True

theorem mapped_congr {levels : ℕ} {ds : List Ldesc} {g g' : ℕ → P} {s e : ℕ}
    (hT : Tiled (d :: ds)) (h : ∀ a, a < d.span → g a = g' a) :
    mapped levels (d :: ds) g s e t = mapped levels (d :: ds) g' s e t := by
  induction levels generalizing d ds g g' s e t with
  | zero =>
    funext i
    simp only [mapped]
    split
    · next hi =>
      have hlt : i < d.length := lt_of_le_of_lt hi.2 (d.index_lt e)
      have hspan : i * 2 ^ d.shift < d.span := Radix.slot_lt hlt (Nat.two_pow_pos d.shift)
      rw [h _ hspan]
    · rfl
  | succ levels ih =>
    funext i
    simp only [mapped]
    split
    · next hi =>
      have hlt : i < d.length := lt_of_le_of_lt hi.2 (d.index_lt e)
      cases ds with
      | nil => cases levels <;> rfl
      | cons d' ds =>
        refine congrArg Entry.next (ih hT.2 fun a ha => h _ ?_)
        rw [Ldesc.span, ← hT.1] at ha
        exact Radix.slot_lt hlt ha
    · rfl

theorem setLoop_fst {i pa n m : ℕ} : (setLoop tmpl inc t i pa n).1 m =
      if i ≤ m ∧ m < i + n then .leaf (tmpl (pa + (m - i) * inc)) else t m := by
  induction n generalizing t i pa with
  | zero => rw [setLoop, if_neg (by omega)]
  | succ n ih =>
    rw [setLoop, ih]
    by_cases hm : m = i
    · rw [hm, update_self, if_neg (by omega), if_pos (by omega), Nat.sub_self,
        zero_mul, add_zero]
    · rw [update_of_ne hm]
      by_cases hin : i ≤ m ∧ m < i + (n + 1)
      · have hmi : m - i = m - (i + 1) + 1 := by omega
        have hpa : pa + inc + (m - (i + 1)) * inc = pa + (m - i) * inc := by
          rw [hmi]
          ring
        rw [if_pos (by omega), if_pos hin, hpa]
      · rw [if_neg (by omega), if_neg hin]

theorem setLoop_snd {i pa n : ℕ} : (setLoop tmpl inc t i pa n).2 = pa + n * inc := by
  induction n generalizing t i pa with
  | zero => rw [setLoop, zero_mul, add_zero]
  | succ n ih =>
    rw [setLoop, ih]
    ring

theorem map_target {base : ℕ} (ds : List Ldesc) {phys s e : ℕ} :
    t.map d base tmpl phys s e =
      (mapped 0 (d :: ds) (fun a => tmpl (phys + offset base 0 (d :: ds) s e a)) s e t,
        returned base 0 (d :: ds) s e) := by
  refine Prod.ext (funext fun m => ?_) ?_
  · simp only [Table.map, setLoop_fst, mapped, offset]
    by_cases hm : d.index s ≤ m ∧ m ≤ d.index e
    · have hidx : d.index (m * 2 ^ d.shift) = m :=
        Radix.digit_mul (lt_of_le_of_lt hm.2 (d.index_lt e))
      rw [if_pos (by omega), if_pos hm, hidx]
    · rw [if_neg (by omega), if_neg hm]
  · simp only [Table.map, setLoop_snd, returned, Nat.add_sub_cancel_left]

def Alloc.take (al : Alloc) : Option Alloc := if al.valid then al.alloc else none

variable {w : Walker}

section Loop

variable {sub : Table P → Alloc → ℕ → ℕ → ℕ → Except Stop (Mapped P)} {s e i n vs phys : ℕ}
  {t x : Table P} {al : Alloc} {r : Mapped P} {F : ℕ → ℕ → Table P → Table P} {ret : ℕ → ℕ}
  {Ok : ℕ → Table P → Prop}

def mapTurn (w : Walker) (d : Ldesc) (sub : Table P → Alloc → ℕ → ℕ → ℕ → Except Stop (Mapped P))
    (e n i vs phys : ℕ) (t x : Table P) (al : Alloc) : Except Stop (Mapped P) := do
  let r ← sub x al phys vs (d.hi e i)
  if r.size = 0 then pure ⟨update t i (.next r.table), r.alloc, 0⟩
  else match n with
    | 0 => pure ⟨update t i (.next r.table), r.alloc, r.size⟩
    | n + 1 =>
      mapLoop w d sub e n (i + 1) ((i + 1) * 2 ^ d.shift) (phys + r.size)
        (update t i (.next r.table)) r.alloc

theorem mapLoop_eq (hi : i < d.length) : mapLoop w d sub e n i vs phys t al =
    match t i with
    | .invalid =>
      match al.take with
      | none => .ok ⟨t, al, 0⟩
      | some al' => mapTurn w d sub e n i vs phys t empty al'
    | .leaf _ => if w.mapLeaf d then .ok ⟨t, al, 0⟩ else .error .outside
    | .next x => mapTurn w d sub e n i vs phys t x al := by
  rw [mapLoop.eq_def]
  simp only [w.slot_of_lt d i hi, nextTable, Alloc.take]
  cases t i with
  | invalid =>
    cases al.valid with
    | false => rfl
    | true =>
      cases al.alloc with
      | none => rfl
      | some al' =>
        simp only [if_true, update_idem]
        rfl
  | leaf p => cases w.mapLeaf d <;> rfl
  | next x => rfl

theorem mapTurn_iff : mapTurn w d sub e n i vs phys t x al = .ok r ↔
    ∃ r₁, sub x al phys vs (d.hi e i) = .ok r₁ ∧
      ((n = 0 ∨ r₁.size = 0) ∧ r = ⟨update t i (.next r₁.table), r₁.alloc, r₁.size⟩ ∨
        r₁.size ≠ 0 ∧ ∃ n', n = n' + 1 ∧ mapLoop w d sub e n' (i + 1) ((i + 1) * 2 ^ d.shift)
          (phys + r₁.size) (update t i (.next r₁.table)) r₁.alloc = .ok r) := by
  rw [mapTurn]
  cases sub x al phys vs (d.hi e i) with
  | error z => exact iff_of_false nofun nofun
  | ok r₁ =>
    by_cases h₀ : r₁.size = 0
    · simp [bind, Except.bind, pure, Except.pure, h₀, eq_comm]
    · cases n <;> simp [bind, Except.bind, pure, Except.pure, h₀, eq_comm]

theorem mapLoop_cases (hi : i < d.length) (h : mapLoop w d sub e n i vs phys t al = .ok r) :
    r = ⟨t, al, 0⟩ ∨ (t i).isLeaf = false ∧
      ∃ al₁, mapTurn w d sub e n i vs phys t (t i).sub al₁ = .ok r := by
  rw [mapLoop_eq hi] at h
  cases ht : t i with
  | invalid =>
    simp only [ht] at h
    cases htake : al.take with
    | none =>
      simp only [htake] at h
      cases h
      exact .inl rfl
    | some al' =>
      simp only [htake] at h
      exact .inr ⟨rfl, al', h⟩
  | leaf p =>
    simp only [ht] at h
    split at h <;> cases h
    exact .inl rfl
  | next x =>
    simp only [ht] at h
    exact .inr ⟨rfl, al, h⟩

structure Writes (d : Ldesc) (sub : Table P → Alloc → ℕ → ℕ → ℕ → Except Stop (Mapped P))
    (s e : ℕ) (F : ℕ → ℕ → Table P → Table P) (ret : ℕ → ℕ) (Ok : ℕ → Table P → Prop) :
    Prop where
  table : ∀ {m x al phys r}, m ≤ d.index e → sub x al phys (d.lo s m) (d.hi e m) = .ok r →
    r.size ≠ 0 → r.table = F phys m x
  size : ∀ {m x al phys r}, m ≤ d.index e → sub x al phys (d.lo s m) (d.hi e m) = .ok r →
    r.size ≠ 0 → r.size = ret m
  passed : ∀ {m x al phys r}, m ≤ d.index e → sub x al phys (d.lo s m) (d.hi e m) = .ok r →
    r.size ≠ 0 → Ok m x

theorem mapLoop_run (hsub : Writes d sub s e F ret Ok) (hs : d.index s ≤ i)
    (hn : i + n = d.index e) (h : mapLoop w d sub e n i (d.lo s i) phys t al = .ok r)
    (hr : r.size ≠ 0) :
    r.size = ret (d.index e) ∧
    (∀ m, r.table m = if i ≤ m ∧ m ≤ d.index e then
      .next (F (phys + ∑ l ∈ Ico i m, ret l) m (t m).sub) else t m) ∧
    ∀ m, i ≤ m → m ≤ d.index e → (t m).isLeaf = false ∧ Ok m (t m).sub := by
  induction n using Nat.strongRecOn generalizing i phys t al with
  | ind n ih =>
    have hle : i ≤ d.index e := by omega
    rcases mapLoop_cases (lt_of_le_of_lt hle (d.index_lt e)) h with rfl | ⟨hleaf, al₁, hturn⟩
    · exact absurd rfl hr
    obtain ⟨r₁, hr₁, ⟨hstop, rfl⟩ | ⟨hne, n', rfl, hrest⟩⟩ := mapTurn_iff.mp hturn
    · obtain rfl : i = d.index e := by
        have := hstop.resolve_right hr
        omega
      have hne : r₁.size ≠ 0 := hr
      have hsize := hsub.size hle hr₁ hne
      refine ⟨hsize, fun m => ?_, fun m h₀ h₁ => ?_⟩
      · change update t (d.index e) (.next r₁.table) m = _
        by_cases hm : m = d.index e
        · rw [hm, update_self, if_pos ⟨le_refl _, le_refl _⟩, Ico_self, sum_empty,
            add_zero, hsub.table hle hr₁ hne]
        · rw [update_of_ne hm, if_neg (by omega)]
      · obtain rfl : m = d.index e := by omega
        exact ⟨hleaf, hsub.passed hle hr₁ hne⟩
    · rw [← Ldesc.lo_of_lt (Nat.lt_succ_of_le hs)] at hrest
      obtain ⟨hret, htable, hpass⟩ := ih n' (Nat.lt_succ_self n') (by omega) (by omega) hrest
      refine ⟨hret, fun m => ?_, fun m h₀ h₁ => ?_⟩
      · rw [htable m]
        by_cases hm : m = i
        · rw [hm, if_neg (by omega), if_pos (by omega), update_self, Ico_self, sum_empty,
            add_zero, hsub.table hle hr₁ hne]
        · rw [update_of_ne hm]
          by_cases hin : i ≤ m ∧ m ≤ d.index e
          · rw [if_pos (by omega), if_pos hin, sum_eq_sum_Ico_succ_bot (show i < m by omega),
              hsub.size hle hr₁ hne, add_assoc]
          · rw [if_neg (by omega), if_neg hin]
      · by_cases hm : m = i
        · rw [hm]
          exact ⟨hleaf, hsub.passed hle hr₁ hne⟩
        · have := hpass m (by omega) h₁
          rwa [update_of_ne hm] at this

end Loop

section Levels

variable {base : ℕ} {levels : ℕ} {ds : List Ldesc} {t : Table P} {al : Alloc} {phys s e : ℕ}
  {r : Mapped P}

theorem index_slot {m a : ℕ} (hm : m ≤ d.index e) (ha : a < 2 ^ d.shift) :
    d.index (m * 2 ^ d.shift + a) = m ∧ (m * 2 ^ d.shift + a) % 2 ^ d.shift = a :=
  ⟨Radix.digit_slot (lt_of_le_of_lt hm (d.index_lt e)) ha, Radix.slot_mod ha⟩

theorem mapLevels_writes (hT : Tiled (d :: ds)) (hlen : levels ≤ ds.length)
    (hle : s % d.span ≤ e % d.span)
    (h : mapLevels w base tmpl levels (d :: ds) t al phys s e = .ok r) (hr : r.size ≠ 0) :
    r.table = mapped levels (d :: ds) (fun a => tmpl (phys + offset base levels (d :: ds) s e a))
        s e t ∧
      r.size = returned base levels (d :: ds) s e ∧
      NoPage (fun _ => true) levels (d :: ds) s e t := by
  induction levels generalizing d ds t al phys s e r with
  | zero =>
    rw [mapLevels, map_target ds] at h
    cases h
    exact ⟨rfl, rfl, trivial⟩
  | succ levels ih =>
    cases ds with
    | nil => cases hlen
    | cons d' ds =>
      have hidx : d.index s ≤ d.index e := Radix.digit_le hle
      have hsub : Writes d (mapLevels w base tmpl levels (d' :: ds)) s e
          (fun p m x => mapped levels (d' :: ds)
            (fun a => tmpl (p + offset base levels (d' :: ds) (d.lo s m) (d.hi e m) a))
            (d.lo s m) (d.hi e m) x)
          (fun m => returned base levels (d' :: ds) (d.lo s m) (d.hi e m))
          (fun m x => NoPage (fun _ => true) levels (d' :: ds) (d.lo s m) (d.hi e m) x) := by
        have hin {m x al phys r} (hm : m ≤ d.index e) :=
          @ih d' ds x al phys (d.lo s m) (d.hi e m) r hT.2 (Nat.le_of_succ_le_succ hlen)
            (part_ordered hT.1 hle hm)
        exact ⟨fun hm h hr => (hin hm h hr).1, fun hm h hr => (hin hm h hr).2.1,
          fun hm h hr => (hin hm h hr).2.2⟩
      obtain ⟨hret, htable, hpass⟩ := mapLoop_run (i := d.index s) hsub (le_refl _)
        (Nat.add_sub_cancel' hidx) (by rwa [Ldesc.lo_index]) hr
      refine ⟨funext fun m => ?_, hret, fun m h₀ h₁ => ⟨fun _ => (hpass m h₀ h₁).1,
        (hpass m h₀ h₁).2⟩⟩
      rw [htable m]
      simp only [mapped]
      by_cases hm : d.index s ≤ m ∧ m ≤ d.index e
      · rw [if_pos hm, if_pos hm]
        refine congrArg Entry.next (mapped_congr hT.2 fun a ha => ?_)
        rw [Ldesc.span, ← hT.1] at ha
        obtain ⟨hi, ha'⟩ := index_slot (d := d) hm.2 ha
        rw [offset, hi, ha', add_assoc]
      · rw [if_neg hm, if_neg hm]

end Levels

end Fiasco.Ptab
