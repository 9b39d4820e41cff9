import Fiasco.MemRegion

/-!
# The memory the kernel can use

`create_free_map` reads the memory descriptors of the kernel info page in their order: it
adds what a conventional descriptor has of whole pages to a map, and takes the pages that
a descriptor of memory in use touches out of it. Addresses are machine words.
-/
namespace Fiasco.FreeMap

open List Option Nat MemRegion MemRegionMap

/-- The size of a machine word and of a page. Descriptors count in units of `2 ^ 10`. -/
structure Layout where
  bits : ℕ
  pageShift : ℕ
  granule : 10 ≤ pageShift
  word : pageShift < bits

namespace Layout

variable (L : Layout)

def pageSize : ℕ := 2 ^ L.pageShift

def top : ℕ := 2 ^ L.bits

def trunc (a : ℕ) : ℕ := a / L.pageSize * L.pageSize

end Layout

inductive MemType where
  | undefined
  | conventional
  | reserved
  | dedicated
  | shared
  | kernelTmp
  | info
  | bootloader
  | arch
  | other
deriving DecidableEq, Repr

structure MemDesc (L : Layout) where
  l : ℕ
  h : ℕ
  l_lt : l < L.top
  h_lt : h < L.top

variable {L : Layout}

namespace MemDesc

variable (md : MemDesc L)

def start : ℕ := md.l / 2 ^ 10 * 2 ^ 10

def fin : ℕ := md.h / 2 ^ 10 * 2 ^ 10 + (2 ^ 10 - 1)

def type : MemType :=
  match md.l % 16 with
  | 0 => .undefined
  | 1 => .conventional
  | 2 => .reserved
  | 3 => .dedicated
  | 4 => .shared
  | 7 => .kernelTmp
  | 13 => .info
  | 14 => .bootloader
  | 15 => .arch
  | _ => .other

def isVirtual : Bool := md.l.testBit 9

def valid : Bool := md.type ≠ .undefined && md.start < md.fin

def undefine : MemDesc L := ⟨md.l / 16 * 16, md.h, lt_of_le_of_lt (div_mul_le_self _ _) md.l_lt, md.h_lt⟩

def inner : MemRegion :=
  ⟨L.trunc ((md.start + L.pageSize - 1) % L.top),
    (L.trunc ((md.fin + 1) % L.top) + L.top - 1) % L.top⟩

def outer : MemRegion :=
  ⟨L.trunc md.start, (L.trunc ((md.fin + L.pageSize) % L.top) + L.top - 1) % L.top⟩

def isConventional : Bool := md.type = .conventional && !md.isVirtual

def isUsed : Bool :=
  (md.type = .reserved || md.type = .dedicated || md.type = .shared || md.type = .arch ||
    md.type = .bootloader) && !md.isVirtual

end MemDesc

structure Result (L : Layout) (n : ℕ) where
  map : MemRegionMap n
  availableSize : ℕ
  descs : List (MemDesc L)

variable {n : ℕ}

def turn (r : Result L n) (md : MemDesc L) : Option (Result L n) :=
  if !md.valid then some { r with descs := r.descs ++ [md.undefine] }
  else if md.isVirtual then some { r with descs := r.descs ++ [md] }
  else
    match md.type with
    | .conventional =>
      if md.inner.fin ≤ md.inner.start then some { r with descs := r.descs ++ [md] }
      else (r.map.add md.inner).map fun m =>
        ⟨m, (r.availableSize + (md.inner.fin - md.inner.start + 1)) % L.top, r.descs ++ [md]⟩
    | .reserved | .dedicated | .shared | .arch | .bootloader =>
      (r.map.sub md.outer).map fun m => { r with map := m, descs := r.descs ++ [md] }
    | _ => some { r with descs := r.descs ++ [md] }

def turns (r : Result L n) : List (MemDesc L) → Option (Result L n)
  | [] => some r
  | md :: mds => (turn r md).bind fun r' => turns r' mds

def createFreeMap (n : ℕ) (descs : List (MemDesc L)) : Option (Result L n) :=
  turns ⟨.empty, 0, []⟩ descs

namespace Layout

variable (L) in
theorem pageSize_pos : 0 < L.pageSize := Nat.two_pow_pos _

variable (L) in
theorem granule_dvd : 2 ^ 10 ∣ L.pageSize := pow_dvd_pow 2 L.granule

variable (L) in
theorem one_lt_pageSize : 1 < L.pageSize :=
  lt_of_lt_of_le (by norm_num) (le_of_dvd L.pageSize_pos L.granule_dvd)

variable (L) in
theorem pageSize_dvd_top : L.pageSize ∣ L.top := pow_dvd_pow 2 L.word.le

variable (L) in
theorem two_pages : L.pageSize + L.pageSize ≤ L.top := by
  have h : 2 ^ (L.pageShift + 1) ≤ 2 ^ L.bits := Nat.pow_le_pow_right (by norm_num) L.word
  rw [pageSize, top]
  omega

variable {x a : ℕ}

theorem trunc_le_iff : L.trunc x ≤ a ↔ x / L.pageSize ≤ a / L.pageSize :=
  (le_div_iff_mul_le L.pageSize_pos).symm

theorem lt_trunc_iff : a < L.trunc x ↔ a / L.pageSize < x / L.pageSize :=
  (div_lt_iff_lt_mul L.pageSize_pos).symm

theorem le_pred_trunc_iff (hx : x < L.top) : a ≤ (L.trunc x + L.top - 1) % L.top ↔
    a < L.top ∧ (a / L.pageSize < x / L.pageSize ∨ x / L.pageSize = 0) := by
  have hle : L.trunc x ≤ x := div_mul_le_self _ _
  by_cases h0 : x / L.pageSize = 0
  · have ht : L.trunc x = 0 := by rw [trunc, h0, zero_mul]
    rw [ht, mod_eq_of_lt (by omega)]
    simp only [h0, or_true, and_true]
    omega
  · have hpos : 0 < L.trunc x := mul_pos (pos_of_ne_zero h0) L.pageSize_pos
    have hmod : (L.trunc x + L.top - 1) % L.top = L.trunc x - 1 := by
      have : L.trunc x + L.top - 1 = L.trunc x - 1 + L.top := by omega
      rw [this, add_mod_right, mod_eq_of_lt (by omega)]
    rw [hmod, ← lt_trunc_iff]
    simp only [h0, or_false]
    omega

theorem page_end_le (h : a < L.top) : a / L.pageSize * L.pageSize + L.pageSize ≤ L.top := by
  obtain ⟨k, hk⟩ := L.pageSize_dvd_top
  have hlt : a / L.pageSize < k := by
    rw [div_lt_iff_lt_mul L.pageSize_pos, mul_comm, ← hk]
    exact h
  rw [hk, ← succ_mul, mul_comm]
  exact mul_le_mul_left _ hlt

end Layout

variable {md : MemDesc L}

namespace MemDesc

variable {p a : ℕ}

def Inside (md : MemDesc L) (p : ℕ) : Prop :=
  md.start ≤ p * L.pageSize ∧ p * L.pageSize + L.pageSize ≤ md.fin + 1
deriving Decidable

def Touches (md : MemDesc L) (p : ℕ) : Prop :=
  md.start < p * L.pageSize + L.pageSize ∧ p * L.pageSize ≤ md.fin
deriving Decidable

def Claims (md : MemDesc L) (p : ℕ) : Prop :=
  (md.start ≤ p * L.pageSize ∨ L.top - L.pageSize < md.start) ∧
    (p * L.pageSize + L.pageSize ≤ md.fin + 1 ∨ md.fin + 1 < L.pageSize)
deriving Decidable

theorem Inside.claims (h : md.Inside p) : md.Claims p := ⟨.inl h.1, .inl h.2⟩

variable (md) in
theorem start_lt : md.start < L.top := lt_of_le_of_lt (div_mul_le_self _ _) md.l_lt

variable (md) in
theorem fin_lt : md.fin < L.top := by
  obtain ⟨k, hk⟩ := L.granule_dvd.trans L.pageSize_dvd_top
  have hlt := md.h_lt
  rw [fin, hk]
  omega

open Layout

theorem mem_inner : a ∈ md.inner ↔ a < L.top ∧ md.Claims (a / L.pageSize) := by
  have hP := L.one_lt_pageSize
  have htwo := L.two_pages
  have hs := md.start_lt
  have hf := md.fin_lt
  have htop : 0 < L.top := Nat.two_pow_pos _
  rw [mem_iff, inner, trunc_le_iff, le_pred_trunc_iff (mod_lt _ htop),
    Claims]
  refine and_left_comm.trans (and_congr_right fun ha => and_congr ?_ ?_)
  · by_cases hw : L.top - L.pageSize < md.start
    · have hmod : (md.start + L.pageSize - 1) % L.top < L.pageSize := by
        rw [mod_eq_sub_mod (by omega), mod_eq_of_lt (by omega)]
        omega
      rw [div_eq_of_lt hmod]
      simp [hw]
    · rw [Nat.mod_eq_of_lt (by omega), ← Nat.lt_succ_iff, Nat.div_lt_iff_lt_mul L.pageSize_pos,
        succ_mul]
      simp only [hw, or_false]
      omega
  · by_cases hw : md.fin + 1 = L.top
    · have := page_end_le ha
      rw [hw, Nat.mod_self, Nat.zero_div]
      simp [this]
    · rw [mod_eq_of_lt (by omega), div_eq_zero_iff_lt L.pageSize_pos, ← succ_le_iff,
        le_div_iff_mul_le L.pageSize_pos, succ_mul]

theorem mem_outer : a ∈ md.outer ↔ a < L.top ∧ md.Touches (a / L.pageSize) := by
  have htwo := L.two_pages
  have hf := md.fin_lt
  have htop : 0 < L.top := Nat.two_pow_pos _
  rw [mem_iff, outer, trunc_le_iff, le_pred_trunc_iff (mod_lt _ htop),
    Touches]
  refine and_left_comm.trans (and_congr_right fun ha => and_congr ?_ ?_)
  · rw [← Nat.lt_succ_iff, Nat.div_lt_iff_lt_mul L.pageSize_pos, Nat.succ_mul]
  · by_cases hw : L.top ≤ md.fin + L.pageSize
    · have hmod : (md.fin + L.pageSize) % L.top < L.pageSize := by
        rw [mod_eq_sub_mod hw, mod_eq_of_lt (by omega)]
        omega
      have := page_end_le ha
      rw [div_eq_of_lt hmod]
      simp only [or_true, true_iff]
      omega
    · rw [mod_eq_of_lt (by omega), div_eq_zero_iff_lt L.pageSize_pos, ← succ_le_iff,
        le_div_iff_mul_le L.pageSize_pos, succ_mul]
      omega

theorem valid_of_pages {r : MemRegion} {Q : ℕ → Prop}
    (hr : ∀ a, a ∈ r ↔ a < L.top ∧ Q (a / L.pageSize)) (h : a ∈ r) : r.valid = true := by
  have hP := L.one_lt_pageSize
  obtain ⟨ha, hQ⟩ := (hr a).1 h
  have hend := page_end_le ha
  have hpage : ∀ b < L.pageSize, a / L.pageSize * L.pageSize + b ∈ r := by
    intro b hb
    have hdiv : (a / L.pageSize * L.pageSize + b) / L.pageSize = a / L.pageSize := by
      rw [mul_comm, mul_add_div L.pageSize_pos, div_eq_of_lt hb, add_zero]
    rw [hr, hdiv]
    exact ⟨by omega, hQ⟩
  have hfirst := (mem_iff.1 (hpage 0 L.pageSize_pos)).1
  have hsecond := (mem_iff.1 (hpage 1 hP)).2
  rw [valid_iff]
  omega

end MemDesc

variable {mds : List (MemDesc L)}

section Turns

variable {r r' : Result L n} {a p : ℕ}

def Kept (p : ℕ) : List (MemDesc L) → Prop
  | [] => False
  | md :: mds => (md.isConventional = true ∧ md.Claims p ∧
      ∀ u ∈ mds, u.isUsed = true → ¬u.Touches p) ∨ Kept p mds

open MemDesc

theorem turn_map (r : Result L n) (hmd : md.valid = true) : (turn r md).map Result.map =
    if md.isUsed then r.map.sub md.outer else
    if md.isConventional then r.map.add md.inner else some r.map := by
  rw [turn, hmd]
  cases hv : md.isVirtual
  case true => simp [isUsed, isConventional, hv]
  case false =>
    cases ht : md.type
    case conventional =>
      have hskip : md.inner.fin ≤ md.inner.start → r.map.add md.inner = some r.map := by
        intro hle
        have hno : ¬md.inner.valid = true := by
          rw [valid_iff]
          omega
        rw [add, dif_neg hno]
      by_cases hle : md.inner.fin ≤ md.inner.start
      · simp [isUsed, isConventional, hv, ht, hle, hskip hle]
      · simp [isUsed, isConventional, hv, ht, hle, Function.comp_def]
    all_goals simp [isUsed, isConventional, hv, ht, Function.comp_def]

theorem not_isConventional_of_isUsed (h : md.isUsed = true) : md.isConventional = false := by
  cases ht : md.type <;> simp_all [isUsed, isConventional]

theorem mem_turn (hmd : md.valid = true) (h : turn r md = some r') :
    a ∈ r'.map ↔ a ∈ r.map ∧ ¬(md.isUsed = true ∧ a < L.top ∧ md.Touches (a / L.pageSize)) ∨
      md.isConventional = true ∧ a < L.top ∧ md.Claims (a / L.pageSize) := by
  have hused : md.outer.valid = true ∧ a ∈ md.outer ↔ a < L.top ∧ md.Touches (a / L.pageSize) :=
    ⟨fun hm => mem_outer.1 hm.2, fun hm => by
      have ha := mem_outer.2 hm
      exact ⟨valid_of_pages (fun _ => mem_outer) ha, ha⟩⟩
  have hconv : md.inner.valid = true ∧ a ∈ md.inner ↔ a < L.top ∧ md.Claims (a / L.pageSize) :=
    ⟨fun hm => mem_inner.1 hm.2, fun hm => by
      have ha := mem_inner.2 hm
      exact ⟨valid_of_pages (fun _ => mem_inner) ha, ha⟩⟩
  have hmap := turn_map r hmd
  rw [h, map_some] at hmap
  by_cases hu : md.isUsed = true
  · rw [if_pos hu] at hmap
    rw [mem_sub hmap.symm, hused]
    simp [hu, not_isConventional_of_isUsed hu]
  rw [if_neg hu] at hmap
  by_cases hc : md.isConventional = true
  · rw [if_pos hc] at hmap
    rw [mem_add hmap.symm, hconv]
    simp [hu, hc]
  · rw [if_neg hc] at hmap
    rw [some.inj hmap]
    simp [hu, hc]

theorem mem_turns : ∀ {mds : List (MemDesc L)} {r r' : Result L n},
    (∀ md ∈ mds, md.valid = true) → turns r mds = some r' → a < L.top →
    (a ∈ r'.map ↔ Kept (a / L.pageSize) mds ∨
      a ∈ r.map ∧ ∀ u ∈ mds, u.isUsed = true → ¬u.Touches (a / L.pageSize))
  | [], r, r', _, h, _ => by
    cases h
    simp [Kept]
  | md :: mds, r, r', hv, h, ha => by
    obtain ⟨r₁, h₁, h₂⟩ := bind_eq_some_iff.1 h
    have hmd := hv md mem_cons_self
    have hmds : ∀ u ∈ mds, u.valid = true := fun u hu => hv u (mem_cons_of_mem _ hu)
    rw [mem_turns hmds h₂ ha, mem_turn hmd h₁, Kept]
    simp only [mem_cons, forall_eq_or_imp, ha, true_and]
    tauto

theorem lt_top_of_mem_turns : ∀ {mds : List (MemDesc L)} {r r' : Result L n},
    (∀ md ∈ mds, md.valid = true) → turns r mds = some r' →
    (∀ a ∈ r.map, a < L.top) → ∀ a ∈ r'.map, a < L.top
  | [], r, r', _, h, hr => by
    cases h
    exact hr
  | md :: mds, r, r', hv, h, hr => by
    obtain ⟨r₁, h₁, h₂⟩ := bind_eq_some_iff.1 h
    refine lt_top_of_mem_turns (fun u hu => hv u (mem_cons_of_mem _ hu)) h₂ ?_
    intro a ha
    rcases (mem_turn (hv md mem_cons_self) h₁).1 ha with hold | hnew
    · exact hr a hold.1
    · exact hnew.2.1

theorem mem_createFreeMap (hv : ∀ md ∈ mds, md.valid = true) (h : createFreeMap n mds = some r) :
    a ∈ r.map ↔ a < L.top ∧ Kept (a / L.pageSize) mds := by
  have hlt := lt_top_of_mem_turns hv h (fun a ha => absurd ha not_mem_empty) a
  constructor
  · intro ha
    rcases (mem_turns hv h (hlt ha)).1 ha with hk | hm
    · exact ⟨hlt ha, hk⟩
    · exact absurd hm.1 not_mem_empty
  · rintro ⟨ha, hk⟩
    exact (mem_turns hv h ha).2 (.inl hk)

end Turns

section Capacity

variable {k : ℕ} {r : Result L n} {u u' : Result L k} {mds p : List (MemDesc L)}

theorem turns_append (r : Result L n) (mds ms : List (MemDesc L)) :
    turns r (mds ++ ms) = (turns r mds).bind fun r' => turns r' ms := by
  induction mds generalizing r with
  | nil => rfl
  | cons md mds ih =>
    rw [cons_append, turns, turns, bind_assoc]
    simp only [ih]

theorem createFreeMap_concat : createFreeMap n (mds ++ [md]) =
    (createFreeMap n mds).bind fun r => turn r md := by
  rw [createFreeMap, turns_append, createFreeMap]
  simp [turns]

theorem exists_turn (hmd : md.valid = true) (h : r.map.regions.length < n) :
    ∃ r', turn r md = some r' ∧ r'.map.regions.length ≤ r.map.regions.length + 1 := by
  have hm : ∃ m, (turn r md).map Result.map = some m ∧
      m.regions.length ≤ r.map.regions.length + 1 := by
    rw [turn_map r hmd]
    split_ifs
    · exact exists_sub h
    · exact exists_add h
    · exact ⟨r.map, rfl, le_succ _⟩
  obtain ⟨m, hm, hlen⟩ := hm
  obtain ⟨r', hr', rfl⟩ := map_eq_some_iff.1 hm
  exact ⟨r', hr', hlen⟩

theorem turn_of_fits (hmd : md.valid = true) (hr : r.map.regions = u.map.regions)
    (h : turn u md = some u') (hn : u'.map.regions.length ≤ n) :
    ∃ r', turn r md = some r' ∧ r'.map.regions = u'.map.regions := by
  have hu := turn_map u hmd
  rw [h, map_some] at hu
  have hm : ∃ m, (turn r md).map Result.map = some m ∧ m.regions = u'.map.regions := by
    rw [turn_map r hmd]
    split_ifs at hu ⊢
    · exact sub_of_fits hr hu.symm hn
    · exact add_of_fits hr hu.symm hn
    · exact ⟨r.map, rfl, hr.trans (congrArg _ (some.inj hu).symm)⟩
  obtain ⟨m, hm, heq⟩ := hm
  obtain ⟨r', hr', rfl⟩ := map_eq_some_iff.1 hm
  exact ⟨r', hr', heq⟩

theorem exists_createFreeMap : ∀ mds : List (MemDesc L), (∀ md ∈ mds, md.valid = true) →
    mds.length ≤ n → ∃ r, createFreeMap n mds = some r ∧ r.map.regions.length ≤ mds.length := by
  intro mds
  induction mds using reverseRecOn with
  | nil => exact fun _ _ => ⟨_, rfl, le_refl 0⟩
  | append_singleton mds md ih =>
    intro hv hn
    rw [length_append, length_singleton] at hn ⊢
    obtain ⟨r, hr, hlen⟩ := ih (fun u hu => hv u (mem_append_left _ hu)) (by omega)
    have hmd := hv md (mem_append_right _ mem_cons_self)
    obtain ⟨r', hr', hlen'⟩ := exists_turn (r := r) hmd (by omega)
    refine ⟨r', ?_, by omega⟩
    rw [createFreeMap_concat, hr]
    exact hr'

theorem createFreeMap_mono (hnk : n ≤ k) : ∀ {mds : List (MemDesc L)} {r : Result L n},
    (∀ md ∈ mds, md.valid = true) → createFreeMap n mds = some r →
    ∃ u : Result L k, createFreeMap k mds = some u ∧ u.map.regions = r.map.regions := by
  intro mds
  induction mds using reverseRecOn with
  | nil =>
    rintro r - h
    cases h
    exact ⟨_, rfl, rfl⟩
  | append_singleton mds md ih =>
    intro r' hv h
    rw [createFreeMap_concat] at h
    obtain ⟨r, hr, hturn⟩ := bind_eq_some_iff.1 h
    obtain ⟨u, hu, heq⟩ := ih (fun u hu => hv u (mem_append_left _ hu)) hr
    have hmd := hv md (mem_append_right _ mem_cons_self)
    obtain ⟨u', hu', heq'⟩ := turn_of_fits hmd heq hturn (r'.map.fits.trans hnk)
    refine ⟨u', ?_, heq'⟩
    rw [createFreeMap_concat, hu]
    exact hu'

def regionCount (mds : List (MemDesc L)) : ℕ :=
  ((createFreeMap mds.length mds).map fun r => r.map.regions.length).getD 0

/-- The map has a slot for every region there is after any of the descriptors. -/
def Fits (n : ℕ) (mds : List (MemDesc L)) : Prop := ∀ p, p <+: mds → regionCount p ≤ n

theorem length_eq_regionCount (hv : ∀ md ∈ mds, md.valid = true)
    (h : createFreeMap n mds = some r) : r.map.regions.length = regionCount mds := by
  obtain ⟨u, hu, -⟩ := exists_createFreeMap (n := mds.length) mds hv le_rfl
  have hcount : regionCount mds = u.map.regions.length := by
    rw [regionCount, hu]
    rfl
  rw [hcount]
  rcases le_total n mds.length with hle | hle
  · obtain ⟨u', hu', heq⟩ := createFreeMap_mono hle hv h
    rw [hu] at hu'
    rw [some.inj hu', heq]
  · obtain ⟨r', hr', heq⟩ := createFreeMap_mono hle hv hu
    rw [h] at hr'
    rw [some.inj hr', heq]

theorem fits_concat : Fits n (mds ++ [md]) ↔ Fits n mds ∧ regionCount (mds ++ [md]) ≤ n := by
  simp only [Fits, prefix_concat_iff, or_imp, forall_and, forall_eq]
  exact and_comm

theorem exists_createFreeMap_iff : ∀ mds : List (MemDesc L), (∀ md ∈ mds, md.valid = true) →
    ((∃ r, createFreeMap n mds = some r) ↔ Fits n mds) := by
  intro mds
  induction mds using reverseRecOn with
  | nil =>
    intro _
    refine iff_of_true ⟨_, rfl⟩ fun p hp => ?_
    rw [prefix_nil.1 hp]
    exact zero_le n
  | append_singleton mds md ih =>
    intro hv
    have hmds : ∀ u ∈ mds, u.valid = true := fun u hu => hv u (mem_append_left _ hu)
    have hmd := hv md (mem_append_right _ mem_cons_self)
    rw [fits_concat, ← ih hmds]
    constructor
    · rintro ⟨r', h⟩
      have hcount := length_eq_regionCount hv h
      rw [createFreeMap_concat] at h
      obtain ⟨r, hr, -⟩ := bind_eq_some_iff.1 h
      exact ⟨⟨r, hr⟩, hcount ▸ r'.map.fits⟩
    · rintro ⟨⟨r, hr⟩, hle⟩
      -- a map with a slot to spare makes the turn, and what it gets fits into this one as well
      obtain ⟨u, hu, heq⟩ := createFreeMap_mono (le_succ n) hmds hr
      obtain ⟨u', hu', -⟩ := exists_turn (r := u) hmd (by rw [heq]; exact lt_succ_of_le r.map.fits)
      have hall : createFreeMap (n + 1) (mds ++ [md]) = some u' := by
        rw [createFreeMap_concat, hu]
        exact hu'
      have hlen := length_eq_regionCount hv hall
      obtain ⟨r', hr', -⟩ := turn_of_fits hmd heq.symm hu' (hlen ▸ hle)
      refine ⟨r', ?_⟩
      rw [createFreeMap_concat, hr]
      exact hr'

end Capacity

section Free

/-- The page is completely conventional memory and touches no memory in use. -/
def FreePage (mds : List (MemDesc L)) (p : ℕ) : Prop :=
  (∃ md ∈ mds, md.isConventional = true ∧ md.Inside p) ∧
    ∀ md ∈ mds, md.isUsed = true → ¬md.Touches p

/-- The map has exactly the addresses of the free pages, in sorted regions that are apart. -/
def Exact (mds : List (MemDesc L)) (m : MemRegionMap n) : Prop :=
  Sorted m.regions ∧ ∀ a, a ∈ m ↔ FreePage mds (a / L.pageSize)

/-- A page that a conventional descriptor claims is taken out by a later one of memory in use,
or it lies inside of conventional memory and no earlier one of memory in use touches it. -/
def Settled (mds : List (MemDesc L)) : Prop :=
  ∀ ms c us, mds = ms ++ c :: us → c.isConventional = true →
    ∀ p, p * L.pageSize < L.top → c.Claims p → (∀ u ∈ us, u.isUsed = true → ¬u.Touches p) →
      (∃ d ∈ mds, d.isConventional = true ∧ d.Inside p) ∧
        ∀ u ∈ ms, u.isUsed = true → ¬u.Touches p

theorem kept_iff {p : ℕ} : ∀ {mds : List (MemDesc L)}, Kept p mds ↔
    ∃ ms c us, mds = ms ++ c :: us ∧ c.isConventional = true ∧ c.Claims p ∧
      ∀ u ∈ us, u.isUsed = true → ¬u.Touches p
  | [] => by simp [Kept]
  | md :: mds => by
    rw [Kept, kept_iff]
    constructor
    · rintro (h | ⟨ms, c, us, rfl, h⟩)
      · exact ⟨[], md, mds, rfl, h⟩
      · exact ⟨md :: ms, c, us, rfl, h⟩
    · rintro ⟨_ | ⟨m, ms⟩, c, us, heq, h⟩
      · cases heq
        exact .inl h
      · cases heq
        exact .inr ⟨ms, c, us, rfl, h⟩

theorem settled_iff : Settled mds ↔
    ∀ p, p * L.pageSize < L.top → Kept p mds → FreePage mds p := by
  simp only [kept_iff]
  constructor
  · rintro h p hp ⟨ms, c, us, rfl, hc, hcl, hus⟩
    obtain ⟨hin, hms⟩ := h ms c us rfl hc p hp hcl hus
    refine ⟨hin, fun u hu hused => ?_⟩
    rcases mem_append.1 hu with hm | hm
    · exact hms u hm hused
    rcases mem_cons.1 hm with rfl | hm
    · rw [not_isConventional_of_isUsed hused] at hc
      cases hc
    · exact hus u hm hused
  · rintro h ms c us rfl hc p hp hcl hus
    obtain ⟨hin, hall⟩ := h p hp ⟨ms, c, us, rfl, hc, hcl, hus⟩
    exact ⟨hin, fun u hu => hall u (mem_append_left _ hu)⟩

theorem Kept.of_freePage : ∀ {mds : List (MemDesc L)} {p : ℕ}, FreePage mds p → Kept p mds
  | [], _, h => by simp [FreePage] at h
  | md :: mds, p, ⟨⟨c, hc, hconv, hin⟩, hu⟩ => by
    have hrest : ∀ u ∈ mds, u.isUsed = true → ¬u.Touches p :=
      fun u h => hu u (mem_cons_of_mem _ h)
    rcases mem_cons.1 hc with rfl | hc
    · exact .inl ⟨hconv, hin.claims, hrest⟩
    · exact .inr (Kept.of_freePage ⟨⟨c, hc, hconv, hin⟩, hrest⟩)

theorem FreePage.lt_top {a : ℕ} (h : FreePage mds (a / L.pageSize)) : a < L.top := by
  obtain ⟨md, -, -, hin⟩ := h.1
  have hfin := md.fin_lt
  have hlt := lt_div_mul_add L.pageSize_pos (a := a)
  have := hin.2
  omega

theorem createFreeMap_exact_iff (n : ℕ) (mds : List (MemDesc L))
    (hv : ∀ md ∈ mds, md.valid = true) :
    (∃ r, createFreeMap n mds = some r ∧ Exact mds r.map) ↔ Fits n mds ∧ Settled mds := by
  rw [← exists_createFreeMap_iff mds hv, settled_iff]
  constructor
  · rintro ⟨r, hr, -, hmem⟩
    refine ⟨⟨r, hr⟩, fun p hp hk => ?_⟩
    have hdiv : p * L.pageSize / L.pageSize = p := Nat.mul_div_cancel p L.pageSize_pos
    have ha : p * L.pageSize ∈ r.map := (mem_createFreeMap hv hr).2 ⟨hp, by rwa [hdiv]⟩
    have hfree := (hmem _).1 ha
    rwa [hdiv] at hfree
  · rintro ⟨⟨r, hr⟩, hs⟩
    refine ⟨r, hr, r.map.sorted, fun a => ?_⟩
    rw [mem_createFreeMap hv hr]
    constructor
    · rintro ⟨ha, hk⟩
      exact hs _ (lt_of_le_of_lt (div_mul_le_self _ _) ha) hk
    · exact fun hf => ⟨hf.lt_top, .of_freePage hf⟩

def amd64 : Layout := ⟨64, 12, by decide, by decide⟩

def conventional16K : MemDesc amd64 := ⟨0x1, 0x3fff, by decide, by decide⟩

def reservedPage : MemDesc amd64 := ⟨0x1002, 0x1fff, by decide, by decide⟩

theorem createFreeMap_reserved_last :
    ∃ r, createFreeMap 2 [conventional16K, reservedPage] = some r ∧
      Exact [conventional16K, reservedPage] r.map := by
  have hv : ∀ md ∈ [conventional16K, reservedPage], md.valid = true := by decide
  refine (createFreeMap_exact_iff 2 _ hv).2 ⟨?_, ?_⟩
  · obtain ⟨r, hr, -⟩ := exists_createFreeMap (n := 2) _ hv (by decide)
    exact (exists_createFreeMap_iff _ hv).1 ⟨r, hr⟩
  · rw [settled_iff]
    rintro p - (⟨hc, hcl, hu⟩ | ⟨hc, -⟩ | h)
    · have hno : conventional16K.isUsed = false := by decide
      refine ⟨⟨conventional16K, by simp, hc, ?_⟩, by simpa [hno] using hu⟩
      simp only [MemDesc.Claims, MemDesc.Inside, MemDesc.start, MemDesc.fin, conventional16K, Layout.pageSize,
        Layout.top, amd64] at hcl ⊢
      omega
    · cases hc
    · cases h

theorem createFreeMap_reserved_first :
    (∀ md ∈ [reservedPage, conventional16K], md.valid = true) ∧
      Fits 2 [reservedPage, conventional16K] ∧
      ∃ r, createFreeMap 2 [reservedPage, conventional16K] = some r ∧ 0x1000 ∈ r.map ∧
        ¬FreePage [reservedPage, conventional16K] (0x1000 / amd64.pageSize) ∧
        ¬Exact [reservedPage, conventional16K] r.map := by
  have hv : ∀ md ∈ [reservedPage, conventional16K], md.valid = true := by decide
  obtain ⟨r, hr, -⟩ := exists_createFreeMap (n := 2) _ hv (by decide)
  have hmem : 0x1000 ∈ r.map :=
    (mem_createFreeMap hv hr).2 ⟨by decide, .inr (.inl ⟨by decide, by decide, by simp⟩)⟩
  have hfree : ¬FreePage [reservedPage, conventional16K] (0x1000 / amd64.pageSize) :=
    fun h => h.2 reservedPage mem_cons_self (by decide) (by decide)
  exact ⟨hv, (exists_createFreeMap_iff _ hv).1 ⟨r, hr⟩, r, hr, hmem, hfree,
    fun h => hfree ((h.2 _).1 hmem)⟩

-- One KiB of conventional memory in the first page adds every page of the address space.
example : ∀ p ∈ [0, 1, 0x100000], (⟨0x1, 0x3ff, by decide, by decide⟩ : MemDesc amd64).Claims p ∧
    ¬(⟨0x1, 0x3ff, by decide, by decide⟩ : MemDesc amd64).Inside p := by decide

end Free

end Fiasco.FreeMap
