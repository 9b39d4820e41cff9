import Fiasco.Lib.Machine

/-!
# DMA spaces and the context entries of the IOMMUs

A `Dmar_space` is bound to requester ids: `op_bind` writes the root of its page table and its domain
id to the context entries of the ids, in tables that are allocated for one bus each.
`remove_from_all_iommus` sweeps the tables for entries with that root. The existence lock of a space
keeps `op_bind` and `op_unbind` apart from its destruction, so a history is a sequence of whole
operations. The invalidation of the caches of an IOMMU is left out.
-/

namespace Fiasco.Ia32.Dmar

open Function Option

structure Dev where
  kind : ℕ
  startBus : ℕ
  dev : ℕ
  func : ℕ
deriving DecidableEq, Repr

structure Iommu where
  segment : ℕ
  isDefaultPci : Bool
  devs : List Dev
  aw : ℕ
deriving DecidableEq, Repr

structure Cte where
  tt : ℕ
  slptptr : ℕ
  aw : ℕ
  did : ℕ
  os : ℕ
  present : Bool
deriving DecidableEq, Repr

def Cte.zero : Cte := ⟨0, 0, 0, 0, 0, false⟩

structure Config (Sp : Type) where
  iommus : List Iommu
  root : Sp → ℕ → ℕ
  root_pos : ∀ sp aw, root sp aw ≠ 0
  root_inj : ∀ aw sp sp', root sp aw = root sp' aw → sp = sp'
  maxDid : ℕ

structure State (Sp : Type) where
  ctx : ℕ → ℕ → Option (ℕ → Cte)
  did : Sp → ℕ
  used : ℕ → Bool
  /-- The existence lock of the space has not been invalidated. -/
  valid : Sp → Bool

variable {Sp : Type} [DecidableEq Sp]

def findMmu (iommus : List Iommu) (srcId : ℕ) (tryDefault : Bool) : Option ℕ :=
  let segment := srcId / 2 ^ 16 % 2 ^ 16
  let bus := srcId / 2 ^ 8 % 2 ^ 8
  let dev := srcId / 2 ^ 3 % 32
  let fn := srcId % 8
  iommus.findIdx? fun m => segment == m.segment &&
    (tryDefault && m.isDefaultPci ||
      m.devs.any fun d => d.kind == 1 && d.startBus == bus && d.dev == dev && d.func == fn)

structure Source where
  bus : ℕ
  dfs : ℕ
  dfe : ℕ
  mmu : ℕ
deriving DecidableEq, Repr

def parseSrcId (iommus : List Iommu) (srcId : ℕ) : Option Source :=
  let bus := srcId / 2 ^ 8 % 2 ^ 8
  let find := fun (src : ℕ) (dfs dfe : ℕ) =>
    match findMmu iommus (src % 2 ^ 16) false with
    | some m => some ⟨bus, dfs, dfe, m⟩
    | none => (findMmu iommus (src % 2 ^ 16) true).map fun m => ⟨bus, dfs, dfe, m⟩
  match srcId / 2 ^ 18 % 4 with
  | 1 => find (bus * 2 ^ 8 + srcId % 2 ^ 8) (srcId % 2 ^ 8) (srcId % 2 ^ 8 + 1)
  | 2 => find (bus * 2 ^ 8) 0 0x100
  | _ => none

section

variable (cfg : Config Sp) (s : State Sp)

def allocDid : Option ℕ :=
  (List.range' 2 (cfg.maxDid - 2)).find? fun did => !s.used did

def getDid (sp : Sp) : Option (State Sp) :=
  if s.did sp = 0 then
    match allocDid cfg s with
    | none => none
    | some did => some { s with
        did := update s.did sp did
        used := update s.used did true }
  else some s

def setEntry (table : ℕ → Cte) (df : ℕ) (cte : Cte) : ℕ → Cte := update table df cte

def bindLoop (cte : Cte) (table : ℕ → Cte) (df : ℕ) : ℕ → ℕ → Cte
  | 0 => table
  | n + 1 => bindLoop cte (setEntry table df cte) (df + 1) n

def unbindLoop (slptptr : ℕ) (table : ℕ → Cte) (df : ℕ) : ℕ → ℕ → Cte
  | 0 => table
  | n + 1 =>
    unbindLoop slptptr
      (if (table df).slptptr = slptptr then setEntry table df Cte.zero else table) (df + 1) n

def State.setTable (m bus : ℕ) (table : ℕ → Cte) : State Sp :=
  { s with ctx := update s.ctx m (update (s.ctx m) bus (some table)) }

def eInval : ℤ := 22

def eNomem : ℤ := 12

def Config.aw (m : ℕ) : ℕ :=
  match cfg.iommus[m]? with
  | some mmu => mmu.aw
  | none => 0

def opBind (srcId : ℕ) (sp : Sp) (mem : Bool) : State Sp × ℤ :=
  match parseSrcId cfg.iommus srcId with
  | none => (s, -eInval)
  | some src =>
    match getDid cfg s sp with
    | none => (s, -eNomem)
    | some s =>
      if s.valid sp = false then (s, -eInval)
      else
        let cte : Cte := ⟨0, cfg.root sp (cfg.aw src.mmu), cfg.aw src.mmu, s.did sp, 1, true⟩
        match s.ctx src.mmu src.bus with
        | some table =>
          (s.setTable src.mmu src.bus (bindLoop cte table src.dfs (src.dfe - src.dfs)), 0)
        | none =>
          if mem then
            (s.setTable src.mmu src.bus
              (bindLoop cte (fun _ => Cte.zero) src.dfs (src.dfe - src.dfs)), 0)
          else (s, -eNomem)

def opUnbind (srcId : ℕ) (sp : Sp) : State Sp × ℤ :=
  match parseSrcId cfg.iommus srcId with
  | none => (s, -eInval)
  | some src =>
    if s.valid sp = false then (s, -eInval)
    else match s.ctx src.mmu src.bus with
      | none => (s, 0)
      | some table =>
        (s.setTable src.mmu src.bus
          (unbindLoop (cfg.root sp (cfg.aw src.mmu)) table src.dfs (src.dfe - src.dfs)), 0)

def sweepFunctions (root : ℕ) (table : ℕ → Cte) (df : ℕ) : ℕ → ℕ → Cte
  | 0 => table
  | n + 1 =>
    sweepFunctions root
      (if (table df).slptptr ≠ root then table else setEntry table df Cte.zero) (df + 1) n

/-- The outer loop of the sweep, `n` buses from `bus` on. A bus without table is left at its
first function. -/
def sweepBuses (root : ℕ) (tables : ℕ → Option (ℕ → Cte)) (bus : ℕ) : ℕ → ℕ → Option (ℕ → Cte)
  | 0 => tables
  | n + 1 =>
    match tables bus with
    | none => sweepBuses root tables (bus + 1) n
    | some table =>
      sweepBuses root (update tables bus (some (sweepFunctions root table 0 255)))
        (bus + 1) n

def removeFromAllIommus (sp : Sp) : State Sp :=
  if s.did sp = 0 then s
  else { s with
    ctx := fun m => match cfg.iommus[m]? with
      | some mmu => sweepBuses (cfg.root sp mmu.aw) (s.ctx m) 0 255
      | none => s.ctx m
    did := update s.did sp 0
    used := update s.used (s.did sp) false }

inductive Op (Sp : Type) where
  | bind (srcId : ℕ) (sp : Sp) (mem : Bool)
  | unbind (srcId : ℕ) (sp : Sp)
  | invalidate (sp : Sp)
  | remove (sp : Sp)

def step : Op Sp → State Sp
  | .bind srcId sp mem => (opBind cfg s srcId sp mem).1
  | .unbind srcId sp => (opUnbind cfg s srcId sp).1
  | .invalidate sp => { s with valid := update s.valid sp false }
  | .remove sp => removeFromAllIommus cfg s sp

end

variable {table : ℕ → Cte} {df n : ℕ} {root : ℕ} {cfg : Config Sp} {s : State Sp}

theorem bindLoop_apply {cte : Cte} {x : ℕ} :
    bindLoop cte table df n x = if df ≤ x ∧ x < df + n then cte else table x := by
  induction n generalizing table df with
  | zero => rw [bindLoop, if_neg (by omega)]
  | succ n ih =>
    rw [bindLoop, ih, setEntry]
    by_cases hx : x = df
    · rw [hx, update_self, if_neg (by omega), if_pos (by omega)]
    · rw [update_of_ne hx]
      exact if_congr (by omega) rfl rfl

theorem unbindLoop_apply {x : ℕ} : unbindLoop root table df n x =
      if (df ≤ x ∧ x < df + n) ∧ (table x).slptptr = root then Cte.zero else table x := by
  induction n generalizing table df with
  | zero => rw [unbindLoop, if_neg (by omega)]
  | succ n ih =>
    have hother : ∀ {y : ℕ}, y ≠ df →
        (if (table df).slptptr = root then setEntry table df Cte.zero else table) y = table y := by
      intro y hy
      split
      · exact update_of_ne hy _ _
      · rfl
    rw [unbindLoop, ih]
    by_cases hx : x = df
    · subst hx
      rw [if_neg (by omega)]
      by_cases hr : (table x).slptptr = root
      · rw [if_pos hr, setEntry, update_self, if_pos ⟨by omega, hr⟩]
      · rw [if_neg hr, if_neg fun hc => hr hc.2]
    · rw [hother hx]
      exact if_congr (and_congr_left' (by omega)) rfl rfl

theorem sweepFunctions_eq : sweepFunctions root table df n = unbindLoop root table df n := by
  induction n generalizing table df with
  | zero => rfl
  | succ n ih => rw [sweepFunctions, unbindLoop, ih, ite_not]

theorem sweepBuses_apply {tables : ℕ → Option (ℕ → Cte)} {bus x : ℕ} :
    sweepBuses root tables bus n x =
      if bus ≤ x ∧ x < bus + n then (tables x).map fun t => sweepFunctions root t 0 255
      else tables x := by
  induction n generalizing tables bus with
  | zero => rw [sweepBuses, if_neg (by omega)]
  | succ n ih =>
    rw [sweepBuses]
    by_cases hx : x = bus
    · subst hx
      rw [if_pos (by omega)]
      cases ht : tables x with
      | none =>
        dsimp only
        rw [ih, if_neg (by omega), ht]
        rfl
      | some table =>
        dsimp only
        rw [ih, if_neg (by omega), update_self]
        rfl
    · cases ht : tables bus with
      | none =>
        dsimp only
        rw [ih]
        exact if_congr (by omega) rfl rfl
      | some table =>
        dsimp only
        rw [ih, update_of_ne hx]
        exact if_congr (by omega) rfl rfl

section

variable (cfg : Config Sp) (s : State Sp)

def State.entry (m bus df : ℕ) : Option Cte := (s.ctx m bus).map fun t => t df

def Entry (m bus df : ℕ) : Prop := m < cfg.iommus.length ∧ bus < 256 ∧ df < 256

def Foreign (m : ℕ) (cte : Cte) : Prop :=
  cte.did < 2 ∧ ∀ sp, cte.slptptr ≠ cfg.root sp (cfg.aw m)

def Owned (m : ℕ) (sp : Sp) (cte : Cte) : Prop :=
  cte.slptptr = cfg.root sp (cfg.aw m) ∧ cte.did = s.did sp ∧ s.did sp ≠ 0

omit [DecidableEq Sp] in
theorem foreign_zero (m : ℕ) : Foreign cfg m Cte.zero :=
  ⟨by decide, fun sp h => cfg.root_pos sp _ h.symm⟩

end

structure Inv (cfg : Config Sp) (s : State Sp) : Prop where
  entries : ∀ m bus df cte, Entry cfg m bus df → s.entry m bus df = some cte →
    Foreign cfg m cte ∨ ∃ sp, Owned cfg s m sp cte
  ids : ∀ sp, s.did sp = 0 ∨ 2 ≤ s.did sp
  used : ∀ sp, s.did sp ≠ 0 → s.used (s.did sp) = true
  inj : ∀ sp sp', s.did sp ≠ 0 → s.did sp = s.did sp' → sp = sp'

/-- The context tables after `enable_dmar`, with or without entries for passthrough. -/
structure Boot (cfg : Config Sp) where
  ctx : ℕ → ℕ → Option (ℕ → Cte)
  foreign : ∀ m bus table df, ctx m bus = some table → Foreign cfg m (table df)

def start {cfg : Config Sp} (b : Boot cfg) : State Sp :=
  ⟨b.ctx, fun _ => 0, fun _ => false, fun _ => true⟩

section

omit [DecidableEq Sp]

theorem start_inv (b : Boot cfg) : Inv cfg (start b) where
  entries m bus df cte _ h := by
    obtain ⟨table, ht, rfl⟩ := map_eq_some_iff.mp h
    exact .inl (b.foreign m bus table df ht)
  ids _ := .inl rfl
  used _ h := absurd rfl h
  inj _ _ h := absurd rfl h

theorem allocDid_spec {did : ℕ} (h : allocDid cfg s = some did) : 2 ≤ did ∧ s.used did = false := by
  have hmem := List.mem_of_find?_eq_some h
  have hfree := List.find?_some h
  exact ⟨(List.mem_range'_1.mp hmem).1, by simpa using hfree⟩

end

section Inv

variable {cfg : Config Sp} {s : State Sp} {sp : Sp} {m bus df : ℕ} {srcId : ℕ} {cte : Cte}

omit [DecidableEq Sp] in
theorem entry_setTable {m' bus' : ℕ} {table : ℕ → Cte} : (s.setTable m bus table).entry m' bus' df =
      if m' = m ∧ bus' = bus then some (table df) else s.entry m' bus' df := by
  unfold State.entry State.setTable
  by_cases hm : m' = m
  · by_cases hb : bus' = bus
    · simp [hm, hb]
    · simp [hm, hb]
  · simp [hm]

section

variable (hs : Inv cfg s)
include hs

theorem Inv.giveDid {did : ℕ} (hsp : s.did sp = 0) (hd : 2 ≤ did)
    (hfree : s.used did = false) : Inv cfg { s with
      did := update s.did sp did
      used := update s.used did true } where
  entries m bus df cte hm he := by
    rcases hs.entries m bus df cte hm he with hf | ⟨sp', hr, hdid, hne⟩
    · exact .inl hf
    · have hsp' : sp' ≠ sp := fun h => hne (h ▸ hsp)
      refine .inr ⟨sp', hr, ?_, ?_⟩
      · exact hdid.trans (update_of_ne hsp' _ _).symm
      · exact fun h => hne ((update_of_ne hsp' _ _).symm.trans h)
  ids sp' := by
    change update s.did sp did sp' = 0 ∨ 2 ≤ update s.did sp did sp'
    by_cases h : sp' = sp
    · rw [h, update_self]
      exact .inr hd
    · rw [update_of_ne h]
      exact hs.ids sp'
  used sp' hne := by
    by_cases h : sp' = sp
    · simp only [h, update_self]
    · simp only [update_of_ne h] at hne ⊢
      have hu := hs.used sp' hne
      have hdid : s.did sp' ≠ did := fun h => by
        rw [h, hfree] at hu
        cases hu
      rw [update_of_ne hdid, hu]
  inj sp₁ sp₂ hne heq := by
    -- the new id is in use for no other space
    have hnew : ∀ sp', sp' ≠ sp → s.did sp' ≠ 0 → s.did sp' ≠ did := by
      intro sp' _ h₀ h
      have hu := hs.used sp' h₀
      rw [h, hfree] at hu
      cases hu
    by_cases h₁ : sp₁ = sp <;> by_cases h₂ : sp₂ = sp
    · rw [h₁, h₂]
    · simp only [h₁, update_self, update_of_ne h₂] at hne heq
      exact absurd heq.symm (hnew sp₂ h₂ (heq ▸ hne))
    · simp only [h₂, update_self, update_of_ne h₁] at hne heq
      exact absurd heq (hnew sp₁ h₁ hne)
    · simp only [update_of_ne h₁, update_of_ne h₂] at hne heq
      exact hs.inj sp₁ sp₂ hne heq

theorem getDid_inv {s' : State Sp} (h : getDid cfg s sp = some s') :
    Inv cfg s' ∧ s'.did sp ≠ 0 := by
  unfold getDid at h
  split at h
  · next hsp =>
    cases ha : allocDid cfg s with
    | none =>
      rw [ha] at h
      cases h
    | some did =>
      rw [ha] at h
      cases h
      obtain ⟨hd, hfree⟩ := allocDid_spec ha
      refine ⟨hs.giveDid hsp hd hfree, ?_⟩
      simp only [update_self]
      omega
  · next hsp =>
    cases h
    exact ⟨hs, hsp⟩

omit [DecidableEq Sp] in
theorem setTable_inv {table : ℕ → Cte}
    (ht : ∀ df, Entry cfg m bus df → Foreign cfg m (table df) ∨ ∃ sp, Owned cfg s m sp (table df)) :
    Inv cfg (s.setTable m bus table) where
  entries m' bus' df cte hm he := by
    rw [entry_setTable] at he
    split at he
    · next h =>
      cases he
      rw [h.1, h.2] at hm
      rw [h.1]
      exact ht df hm
    · exact hs.entries m' bus' df cte hm he
  ids := hs.ids
  used := hs.used
  inj := hs.inj

theorem opBind_inv {mem : Bool} : Inv cfg (opBind cfg s srcId sp mem).1 := by
  unfold opBind
  split
  · exact hs
  · next src _ =>
    split
    · exact hs
    · next s₁ hd =>
      obtain ⟨hs₁, hne⟩ := getDid_inv hs hd
      split
      · exact hs₁
      · have hcte : ∀ table : ℕ → Cte, (∀ df, Entry cfg src.mmu src.bus df →
            Foreign cfg src.mmu (table df) ∨ ∃ sp, Owned cfg s₁ src.mmu sp (table df)) →
            Inv cfg (s₁.setTable src.mmu src.bus (bindLoop ⟨0, cfg.root sp (cfg.aw src.mmu),
              cfg.aw src.mmu, s₁.did sp, 1, true⟩ table src.dfs (src.dfe - src.dfs))) := by
          intro table ht
          refine setTable_inv hs₁ fun df hm => ?_
          rw [bindLoop_apply]
          split
          · exact .inr ⟨sp, rfl, rfl, hne⟩
          · exact ht df hm
        split
        · next table htab =>
          refine hcte table fun df hm => hs₁.entries _ src.bus df _ hm ?_
          rw [State.entry, htab]
          rfl
        · split
          · exact hcte _ fun _ _ => .inl (foreign_zero cfg _)
          · exact hs₁

omit [DecidableEq Sp] in
theorem opUnbind_inv : Inv cfg (opUnbind cfg s srcId sp).1 := by
  unfold opUnbind
  split
  · exact hs
  · next src _ =>
    split
    · exact hs
    · split
      · exact hs
      · next table htab =>
        refine setTable_inv hs fun df hm => ?_
        rw [unbindLoop_apply]
        split
        · exact .inl (foreign_zero cfg _)
        · refine hs.entries _ src.bus df _ hm ?_
          rw [State.entry, htab]
          rfl

end

structure Removed (cfg : Config Sp) (s s' : State Sp) (sp : Sp) : Prop where
  gone : ∀ m bus df cte, Entry cfg m bus df → s'.entry m bus df = some cte →
    cte.slptptr ≠ cfg.root sp (cfg.aw m) ∧ (s.did sp ≠ 0 → cte.did ≠ s.did sp)
  others : ∀ m bus df cte, Entry cfg m bus df → s.entry m bus df = some cte →
    cte.slptptr ≠ cfg.root sp (cfg.aw m) → s'.entry m bus df = some cte

def Reached (cfg : Config Sp) (s : State Sp) (sp : Sp) : Prop :=
  ∀ m bus df cte, Entry cfg m bus df → bus = 255 ∨ df = 255 →
    s.entry m bus df = some cte → cte.slptptr ≠ cfg.root sp (cfg.aw m)

theorem entry_remove (hm : m < cfg.iommus.length) (hne : s.did sp ≠ 0) :
    (removeFromAllIommus cfg s sp).entry m bus df = (s.entry m bus df).map fun cte =>
      if (bus < 255 ∧ df < 255) ∧ cte.slptptr = cfg.root sp (cfg.aw m) then Cte.zero else cte := by
  have haw : cfg.aw m = cfg.iommus[m].aw := by
    rw [Config.aw, List.getElem?_eq_getElem hm]
  rw [removeFromAllIommus, if_neg hne]
  simp only [State.entry, List.getElem?_eq_getElem hm, sweepBuses_apply, zero_le, true_and,
    zero_add, haw]
  by_cases hb : bus < 255
  · rw [if_pos hb]
    simp only [map_map, comp_def, sweepFunctions_eq, unbindLoop_apply,
      zero_le, true_and, zero_add, hb]
  · rw [if_neg hb]
    simp only [hb, false_and, if_false, map_map, comp_def]

variable (hs : Inv cfg s)
include hs

section

omit [DecidableEq Sp]

theorem Inv.did_ne_zero (hm : Entry cfg m bus df)
    (he : s.entry m bus df = some cte) (hr : cte.slptptr = cfg.root sp (cfg.aw m)) :
    cte.did = s.did sp ∧ s.did sp ≠ 0 := by
  rcases hs.entries m bus df cte hm he with hf | ⟨sp', hr', hdid, hne⟩
  · exact absurd hr (hf.2 sp)
  · obtain rfl := cfg.root_inj _ _ _ (hr.symm.trans hr')
    exact ⟨hdid, hne⟩

theorem Inv.root_of_did (hm : Entry cfg m bus df)
    (he : s.entry m bus df = some cte) (hne : s.did sp ≠ 0) (hd : cte.did = s.did sp) :
    cte.slptptr = cfg.root sp (cfg.aw m) := by
  rcases hs.entries m bus df cte hm he with hf | ⟨sp', hr, hdid, hne'⟩
  · have := hs.ids sp
    have := hf.1
    omega
  · obtain rfl := hs.inj _ _ hne' (hdid.symm.trans hd)
    exact hr

end

theorem removed_iff : Removed cfg s (removeFromAllIommus cfg s sp) sp ↔ Reached cfg s sp := by
  by_cases hne : s.did sp = 0
  · -- no entry refers to the space, and there is no sweep
    have hsame : removeFromAllIommus cfg s sp = s := if_pos hne
    have hnone : ∀ m bus df cte, Entry cfg m bus df → s.entry m bus df = some cte →
        cte.slptptr ≠ cfg.root sp (cfg.aw m) :=
      fun m bus df cte hm he hr => (hs.did_ne_zero hm he hr).2 hne
    rw [hsame]
    refine ⟨fun _ m bus df cte hm _ he => hnone m bus df cte hm he, fun _ => ⟨?_, ?_⟩⟩
    · exact fun m bus df cte hm he => ⟨hnone m bus df cte hm he, fun h => absurd hne h⟩
    · exact fun m bus df cte _ he _ => he
  · constructor
    · intro h m bus df cte hm hlast he
      refine (h.gone m bus df cte hm ?_).1
      rw [entry_remove hm.1 hne, he, map_some, if_neg (by omega)]
    · intro h
      refine ⟨fun m bus df cte hm he => ?_, fun m bus df cte hm he hr => ?_⟩
      · rw [entry_remove hm.1 hne] at he
        obtain ⟨old, hold, hcte⟩ := map_eq_some_iff.mp he
        split at hcte
        · rw [← hcte]
          exact ⟨fun hc => cfg.root_pos _ _ hc.symm, fun _ hc => hne hc.symm⟩
        · next hkeep =>
          subst hcte
          have hr : old.slptptr ≠ cfg.root sp (cfg.aw m) := by
            intro hr
            by_cases hin : bus < 255 ∧ df < 255
            · exact hkeep ⟨hin, hr⟩
            · exact h m bus df old hm (by have := hm.2; omega) hold hr
          exact ⟨hr, fun _ hdid => hr (hs.root_of_did hm hold hne hdid)⟩
      · rw [entry_remove hm.1 hne, he, map_some, if_neg fun hc => hr hc.2]

theorem remove_inv (h : Removed cfg s (removeFromAllIommus cfg s sp) sp) :
    Inv cfg (removeFromAllIommus cfg s sp) := by
  by_cases hne : s.did sp = 0
  · rw [removeFromAllIommus, if_pos hne]
    exact hs
  · have hdid : (removeFromAllIommus cfg s sp).did = update s.did sp 0 := by
      rw [removeFromAllIommus, if_neg hne]
    have hused : (removeFromAllIommus cfg s sp).used = update s.used (s.did sp) false := by
      rw [removeFromAllIommus, if_neg hne]
    refine ⟨fun m bus df cte hm he => ?_, fun sp' => ?_, fun sp' h₀ => ?_, fun sp₁ sp₂ h₀ heq => ?_⟩
    · have hgone := (h.gone m bus df cte hm he).1
      rw [entry_remove hm.1 hne] at he
      obtain ⟨old, hold, hcte⟩ := map_eq_some_iff.mp he
      split at hcte
      · rw [← hcte]
        exact .inl (foreign_zero cfg m)
      · subst hcte
        rcases hs.entries m bus df old hm hold with hf | ⟨sp', hr, hd, hd₀⟩
        · exact .inl hf
        · have hsp : sp' ≠ sp := fun hc => hgone (hc ▸ hr)
          refine .inr ⟨sp', hr, ?_, ?_⟩
          · rw [hdid, update_of_ne hsp, hd]
          · rw [hdid, update_of_ne hsp]
            exact hd₀
    · rw [hdid]
      by_cases hc : sp' = sp
      · rw [hc, update_self]
        exact .inl rfl
      · rw [update_of_ne hc]
        exact hs.ids sp'
    · rw [hdid] at h₀ ⊢
      by_cases hc : sp' = sp
      · rw [hc, update_self] at h₀
        exact absurd rfl h₀
      · rw [update_of_ne hc] at h₀ ⊢
        have hother : s.did sp' ≠ s.did sp := fun he => hc (hs.inj sp' sp h₀ he)
        rw [hused, update_of_ne hother]
        exact hs.used sp' h₀
    · rw [hdid] at h₀ heq
      by_cases h₁ : sp₁ = sp
      · rw [h₁, update_self] at h₀
        exact absurd rfl h₀
      · rw [update_of_ne h₁] at h₀ heq
        by_cases h₂ : sp₂ = sp
        · rw [h₂, update_self] at heq
          exact absurd heq h₀
        · rw [update_of_ne h₂] at heq
          exact hs.inj sp₁ sp₂ h₀ heq

end Inv

def Clean (cfg : Config Sp) (s : State Sp) : Op Sp → Prop
  | .remove sp => Removed cfg s (step cfg s (.remove sp)) sp
  | _ => True

/-- A step that removes a space finds no entry where the sweep does not look. -/
def InSweep (cfg : Config Sp) (s : State Sp) : Op Sp → Prop
  | .remove sp => Reached cfg s sp
  | _ => True

theorem step_inv {op : Op Sp} (hs : Inv cfg s) (h : Clean cfg s op) : Inv cfg (step cfg s op) := by
  cases op with
  | bind srcId sp mem => exact opBind_inv hs
  | unbind srcId sp => exact opUnbind_inv hs
  | invalidate sp => exact { hs with }
  | remove sp => exact remove_inv hs h

theorem removals_clean_iff (cfg : Config Sp) (b : Boot cfg) (ops : List (Op Sp)) :
    Machine.Along (step cfg) (Clean cfg) (start b) ops ↔
      Machine.Along (step cfg) (InSweep cfg) (start b) ops := by
  refine Machine.along_congr (I := Inv cfg) (fun s op hs h => step_inv hs h) ?_ (start_inv b)
  intro s op hs
  cases op with
  | remove sp => exact removed_iff hs
  | bind srcId sp mem | unbind srcId sp | invalidate sp => exact .rfl

def oneIommu : Config Bool where
  iommus := [⟨0, true, [], 2⟩]
  root sp _ := if sp then 0x2000 else 0x1000
  root_pos sp aw := by cases sp <;> decide
  root_inj aw sp sp' h := by revert h; cases sp <;> cases sp' <;> decide
  maxDid := 16

def noTables : Boot oneIommu := ⟨fun _ _ => none, fun _ _ _ _ h => by cases h⟩

def boundState (srcId : ℕ) : State Bool :=
  Machine.run (step oneIommu) (start noTables) [.bind srcId true true, .remove true]

theorem removal_forgets_last :
    (boundState 0x400ff).entry 0 0 255 = some ⟨0, 0x2000, 2, 2, 1, true⟩ ∧
    (boundState 0x4ff00).entry 0 255 0 = some ⟨0, 0x2000, 2, 2, 1, true⟩ := by
  decide +kernel

end Fiasco.Ia32.Dmar
