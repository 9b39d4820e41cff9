import Fiasco.Lib.Interleaving

/-!
# Vectors of the ia32 interrupt chips

A pin of a chip gets a vector, from the free list or a fixed one, and the entry stub of the vector
gets the Irq object. `valloc` holds the lock of the chip, the free list has one of its own, and both
`valloc` and `vfree` hold the lock of the object. What is done between two operations on these locks
is one step; a step that needs a lock that is taken does nothing. The gates of the IDT are left out:
nothing reads them.
-/
namespace Fiasco.Ia32.IrqChip

open Function Option List
open Interleaving (Inv System)

structure Config (C : Type) where
  irqs : C → ℕ
  fixed : C × ℕ → ℕ
  low : ∀ x, fixed x ≠ 0 → 0x20 ≤ fixed x ∧ fixed x < 0x34
  single : ∀ x y, fixed x ≠ 0 → fixed x = fixed y → x = y

structure Shared (C I : Type) where
  vec : C × ℕ → ℕ
  vectors : ℕ → ℕ
  first : ℕ
  stub : ℕ → Option I
  pin : I → Option (C × ℕ)
  entryLock : C → Bool
  irqLock : I → Bool
  /-- An array has been accessed out of its bounds, or an assertion has failed. -/
  fault : Bool
  /-- The free list. This is not part of the kernel. -/
  free : List ℕ

inductive Pc (C I : Type) where
  | idle
  | alloc (i : I) (x : C × ℕ)
  | setup (i : I) (x : C × ℕ) (v : ℕ)
  | free (i : I) (v : ℕ)
deriving DecidableEq

inductive Op (C I : Type) where
  | valloc (i : I) (x : C × ℕ) (own : Bool)
  | vfree (i : I)
  | reserve (x : C × ℕ)
  | irq (x : C × ℕ)

variable {P C I : Type}

section Exec

variable [DecidableEq P] [DecidableEq C] [DecidableEq I]

/-- The bounds of the stubs and of the free list; `APIC_IRQ_BASE` is `0xf8`. -/
def inRange (v : ℕ) : Bool := 0x20 ≤ v && v < 0xf0

section

variable (cfg : Config C) (g : Shared C I)

def Shared.access (v : ℕ) : Shared C I :=
  { g with fault := g.fault || !inRange v }

def Shared.unlock (i : I) (x : C × ℕ) : Shared C I :=
  { g with irqLock := update g.irqLock i false, entryLock := update g.entryLock x.1 false }

def addFree (start fin : ℕ) (g : Shared C I) : Shared C I :=
  { g with
    vectors := fun v =>
      if start ≤ v ∧ v + 1 < fin then v + 1 else if v + 1 = fin then g.first else g.vectors v
    first := start
    free := range' start (fin - start) ++ g.free }

def irq (x : C × ℕ) : Option I :=
  if cfg.irqs x.1 ≤ x.2 ∨ g.vec x = 0 then none else g.stub (g.vec x)

def begin : Op C I → Shared C I × Pc C I
  | .valloc i x own =>
    let vector := if own then cfg.fixed x else 0
    if g.irqLock i ∨ g.pin i ≠ none ∨ g.entryLock x.1 then (g, .idle)
    else if cfg.irqs x.1 ≤ x.2 ∨ 0xf0 ≤ vector ∨ g.vec x ≠ 0 then (g, .idle)
    else
      ({ g with irqLock := update g.irqLock i true, entryLock := update g.entryLock x.1 true },
        if vector = 0 then .alloc i x else .setup i x vector)
  | .vfree i =>
    match g.pin i with
    | none => (g, .idle)
    | some x =>
      if g.irqLock i then (g, .idle)
      else
        -- the object is unbound while its lock is held
        ({ g with
            fault := g.fault || !inRange (g.vec x) || g.stub (g.vec x) ≠ some i
            stub := update g.stub (g.vec x) none
            vec := update g.vec x 0
            pin := update g.pin i none
            irqLock := update g.irqLock i true }, .free i (g.vec x))
  | .reserve x =>
    (if cfg.irqs x.1 ≤ x.2 ∨ g.vec x ≠ 0 then g else { g with vec := update g.vec x 0xff }, .idle)
  | .irq x => (if cfg.irqs x.1 ≤ x.2 ∨ g.vec x = 0 then g else g.access (g.vec x), .idle)

def exec (op : Op C I) : Pc C I → Shared C I × Pc C I
  | .idle => begin cfg g op
  | .alloc i x =>
    if g.first = 0 then (g.unlock i x, .idle)
    else
      ({ g.access g.first with first := g.vectors g.first, free := g.free.tail },
        .setup i x g.first)
  | .setup i x v =>
    ({ (g.access v).unlock i x with
        vec := update g.vec x v, stub := update g.stub v (some i), pin := update g.pin i (some x) },
      .idle)
  | .free i v =>
    ({ g.access v with
        vectors := update g.vectors v g.first, first := v, free := v :: g.free
        irqLock := update g.irqLock i false }, .idle)

abbrev State (P C I : Type) := System P (Shared C I) (Pc C I)

def step (s : State P C I) (a : P × Op C I) : State P C I :=
  s.move a.1 (exec cfg s.shared a.2 (s.loc a.1))

end

def boot : State P C I where
  shared := addFree 0x34 0xf0 ⟨fun _ => 0, fun _ => 0, 0, fun _ => none, fun _ => none, fun _ => false,
    fun _ => false, false, []⟩
  loc := fun _ => .idle

end Exec

def Links (next : ℕ → ℕ) : ℕ → List ℕ → Prop
  | f, [] => f = 0
  | f, v :: l => f = v ∧ v ≠ 0 ∧ Links next (next v) l

def Shared.Assigned (g : Shared C I) (x : C × ℕ) : Prop := g.vec x ≠ 0 ∧ g.vec x ≠ 0xff

structure Right (cfg : Config C) (g : Shared C I) : Prop where
  fault : g.fault = false
  links : Links g.vectors g.first g.free
  nodup : g.free.Nodup
  single : ∀ x y, g.Assigned x → g.vec x = g.vec y → x = y
  apart : ∀ x, g.Assigned x → g.vec x ∉ g.free
  stub : ∀ x, g.Assigned x → ∃ i, g.stub (g.vec x) = some i ∧ g.pin i = some x
  irq : ∀ x i, irq cfg g x = some i ↔ g.pin i = some x

/-- No pin with a fixed vector is freed, and no reserved pin is asked for its object. -/
def Careful (s : State P C I) : P × Op C I → Prop
  | (t, .vfree i) => s.loc t = .idle → ∀ x ∈ s.shared.pin i, 0x34 ≤ s.shared.vec x
  | (t, .irq x) => s.loc t = .idle → s.shared.vec x ≠ 0xff
  | _ => True

instance [DecidableEq C] [DecidableEq I] (s : State P C I) : ∀ a, Decidable (Careful s a)
  | (_, .vfree _) | (_, .irq _) => inferInstanceAs (Decidable (_ → _))
  | (_, .valloc _ _ _) | (_, .reserve _) => isTrue trivial

def Fits (cfg : Config C) (x : C × ℕ) (v : ℕ) : Prop := 0x34 ≤ v ∧ v < 0xf0 ∨ v = cfg.fixed x ∧ v ≠ 0

structure Sound (cfg : Config C) (g : Shared C I) : Prop where
  fault : g.fault = false
  links : Links g.vectors g.first g.free
  nodup : g.free.Nodup
  range : ∀ v ∈ g.free, 0x34 ≤ v ∧ v < 0xf0 ∧ g.stub v = none
  pin : ∀ i x, g.pin i = some x → g.stub (g.vec x) = some i ∧ x.2 < cfg.irqs x.1
  stub : ∀ v i, g.stub v = some i → ∃ x, g.pin i = some x ∧ g.vec x = v ∧ Fits cfg x v
  vec : ∀ x, g.vec x = 0 ∨ g.vec x = 0xff ∨ ∃ i, g.pin i = some x

def Hand (g : Shared C I) (v : ℕ) : Prop := g.stub v = none ∧ v ∉ g.free

def Local (cfg : Config C) (g : Shared C I) : Pc C I → Prop
  | .idle => True
  | .alloc i x => g.irqLock i ∧ g.entryLock x.1 ∧ g.pin i = none ∧ x.2 < cfg.irqs x.1 ∧ ¬g.Assigned x
  | .setup i x v => (g.irqLock i ∧ g.entryLock x.1 ∧ g.pin i = none ∧ x.2 < cfg.irqs x.1 ∧
      ¬g.Assigned x) ∧ Hand g v ∧ Fits cfg x v
  | .free i v => g.irqLock i ∧ g.pin i = none ∧ Hand g v ∧ 0x34 ≤ v ∧ v < 0xf0

def Pc.irq : Pc C I → Option I
  | .idle => none
  | .alloc i _ | .setup i _ _ | .free i _ => some i

def Pc.chip : Pc C I → Option C
  | .alloc _ x | .setup _ x _ => some x.1
  | _ => none

def Pc.hand : Pc C I → Option ℕ
  | .setup _ _ v | .free _ v => some v
  | _ => none

def Apart (l m : Pc C I) : Prop :=
  (∀ i ∈ l.irq, i ∉ m.irq) ∧ (∀ c ∈ l.chip, c ∉ m.chip) ∧ ∀ v ∈ l.hand, v ∉ m.hand

structure Kept (cfg : Config C) (g : Shared C I) (l : Pc C I) (r : Shared C I × Pc C I) : Prop where
  sound : Sound cfg r.1
  loc : Local cfg r.1 r.2
  other : ∀ m, Local cfg g m → Apart l m → Local cfg r.1 m ∧ Apart r.2 m

section Steps

variable {cfg : Config C} {g g' : Shared C I} {l m : Pc C I} {i : I} {x : C × ℕ} {v : ℕ}

theorem Apart.symm (h : Apart l m) : Apart m l :=
  ⟨fun i hm hl => h.1 i hl hm, fun c hm hl => h.2.1 c hl hm, fun v hm hl => h.2.2 v hl hm⟩

theorem Local.frame (h : Local cfg g m)
    (hi : ∀ i ∈ m.irq, g.irqLock i → g'.irqLock i ∧ g'.pin i = g.pin i)
    (hc : ∀ x, x.1 ∈ m.chip → g.entryLock x.1 → g'.entryLock x.1 ∧ (g'.Assigned x → g.Assigned x))
    (hv : ∀ v ∈ m.hand, Hand g v → Hand g' v) : Local cfg g' m := by
  cases m <;> simp only [Pc.irq, Pc.chip, Pc.hand, mem_def, some.injEq] at hi hc hv <;>
    grind [Local]

theorem Local.taken (h : Local cfg g m) : (∀ i ∈ m.irq, g.irqLock i) ∧
    (∀ c ∈ m.chip, g.entryLock c) ∧ ∀ v ∈ m.hand, Hand g v := by
  cases m <;> simp only [Pc.irq, Pc.chip, Pc.hand, mem_def, some.injEq] <;>
    grind [Local]

theorem links_update {next : ℕ → ℕ} {w : ℕ} {l : List ℕ} (hv : v ∉ l) {f : ℕ} (h : Links next f l) :
    Links (update next v w) f l := by
  induction l generalizing f with
  | nil => exact h
  | cons u l ih =>
    rw [mem_cons, not_or] at hv
    refine ⟨h.1, h.2.1, ?_⟩
    rw [update_of_ne (Ne.symm hv.1)]
    exact ih hv.2 h.2.2

theorem Fits.bounds (h : Fits cfg x v) : 0x20 ≤ v ∧ v < 0xf0 := by
  have hlow := cfg.low x
  unfold Fits at h
  omega

open Shared

theorem access_eq (hv : 0x20 ≤ v ∧ v < 0xf0) : g.access v = g := by
  simp [access, inRange, hv.1, hv.2]

theorem Sound.assigned (h : Sound cfg g) (hx : g.stub (g.vec x) = some i) : g.Assigned x := by
  obtain ⟨y, -, -, hy⟩ := h.stub _ _ hx
  grind [Assigned, hy.bounds]

theorem Sound.right (h : Sound cfg g) : Right cfg g := by
  have hpin : ∀ x, g.Assigned x → ∃ i, g.stub (g.vec x) = some i ∧ g.pin i = some x := by
    intro x hx
    obtain ⟨i, hi⟩ := ((h.vec x).resolve_left hx.1).resolve_left hx.2
    exact ⟨i, (h.pin i x hi).1, hi⟩
  refine ⟨h.fault, h.links, h.nodup, fun x y hx hxy => ?_, fun x hx hv => ?_, hpin, fun x i => ?_⟩
  · obtain ⟨i, hi, hix⟩ := hpin x hx
    obtain ⟨j, hj, hjy⟩ := hpin y (by rwa [Assigned, ← hxy])
    grind
  · obtain ⟨i, hi, -⟩ := hpin x hx
    grind [(h.range _ hv).2.2]
  · have hout : ∀ j, g.stub (g.vec x) = some j → g.vec x ≠ 0 := fun _ hj => (h.assigned hj).1
    constructor
    · intro hi
      have hx : g.stub (g.vec x) = some i := by grind [irq]
      obtain ⟨j, hj, hjx⟩ := hpin x (h.assigned hx)
      grind
    · intro hi
      grind [irq, h.pin i x hi]

theorem Sound.fixed (h : Sound cfg g) (hv : cfg.fixed x ≠ 0) (hx : g.vec x = 0) :
    Hand g (cfg.fixed x) := by
  have hlow := cfg.low x hv
  constructor
  · rw [eq_none_iff_forall_ne_some]
    intro i hi
    obtain ⟨y, -, hy, hfit⟩ := h.stub _ _ hi
    grind [Fits, cfg.single x y hv]
  · intro hfree
    have hr := h.range _ hfree
    omega

theorem Local.not_fixed (h : Local cfg g m) (hv : cfg.fixed x ≠ 0) (hc : g.entryLock x.1 = false) :
    cfg.fixed x ∉ m.hand := by
  have hlow := cfg.low x hv
  cases m <;> simp only [Pc.hand, mem_def, some.injEq, reduceCtorEq, not_false_eq_true]
  · rename_i y w
    grind [Local, Fits, cfg.single x y hv]
  · grind [Local]

theorem Kept.stay (h : Sound cfg g) (hl : Local cfg g l) : Kept cfg g l (g, l) :=
  ⟨h, hl, fun _ hm hap => ⟨hm, hap⟩⟩

variable [DecidableEq C] [DecidableEq I]

section

variable (h : Sound cfg g) {op : Op C I}

include h

theorem Sound.valloc {own : Bool} : Kept cfg g .idle (begin cfg g (.valloc i x own)) := by
  simp only [begin]
  generalize hvec : (if own then cfg.fixed x else 0) = w
  split_ifs with hlock hfull hzero
  · exact .stay h trivial
  · exact .stay h trivial
  · refine ⟨{ h with }, by grind [Local, Assigned], fun m hm _ => ?_⟩
    have htaken := hm.taken
    refine ⟨hm.frame (by grind) (by grind [Assigned]) fun _ _ => id, ?_⟩
    grind [Apart, Pc.irq, Pc.chip, Pc.hand]
  · obtain rfl : cfg.fixed x = w := by grind
    have hhand := h.fixed hzero (by grind)
    refine ⟨{ h with }, by grind [Local, Assigned, Fits, Hand], fun m hm _ => ?_⟩
    have htaken := hm.taken
    have hnew := hm.not_fixed hzero (by grind)
    refine ⟨hm.frame (by grind) (by grind [Assigned]) fun _ _ => id, ?_⟩
    grind [Apart, Pc.irq, Pc.chip, Pc.hand]

theorem Sound.vfree (ha : ∀ x ∈ g.pin i, 0x34 ≤ g.vec x) :
    Kept cfg g .idle (begin cfg g (.vfree i)) := by
  simp only [begin]
  split
  · exact .stay h trivial
  · rename_i x hpin
    split_ifs with hlock
    · exact .stay h trivial
    · obtain ⟨hstub, hx⟩ := h.pin i x hpin
      obtain ⟨y, hy, -, hfit⟩ := h.stub _ i hstub
      have hb := hfit.bounds
      have hfree : g.vec x ∉ g.free := by grind [h.range]
      refine ⟨{ h with
        fault := by grind [h.fault, inRange]
        range := fun v hv => by grind [h.range v hv]
        pin := by grind [h.pin]
        stub := by grind [h.stub, h.pin]
        vec := fun z => ?_ }, by grind [Local, Hand], fun m hm _ => ?_⟩
      · obtain hz | hz | ⟨k, hk⟩ := h.vec z
        · grind
        · grind
        · by_cases hzx : z = x
          · grind
          · exact .inr (.inr ⟨k, by grind⟩)
      · have htaken := hm.taken
        refine ⟨hm.frame (by grind) (by grind [Assigned]) (by grind [Hand]), ?_⟩
        grind [Apart, Pc.irq, Pc.chip, Pc.hand, Hand]

theorem Sound.reserve : Kept cfg g .idle (begin cfg g (.reserve x)) := by
  simp only [begin]
  split_ifs with hfull
  · exact .stay h trivial
  · refine ⟨{ h with
      pin := fun k z hk => ?_
      stub := fun v k hk => ?_
      vec := by grind [h.vec] }, trivial, fun m hm hap => ⟨?_, hap⟩⟩
    · have hz := (h.assigned (h.pin k z hk).1).1
      grind [h.pin k z hk]
    · obtain ⟨z, hz, hzv, hfit⟩ := h.stub v k hk
      have hb := hfit.bounds
      exact ⟨z, hz, by grind, hfit⟩
    · exact hm.frame (by grind) (by grind [Assigned]) fun _ _ => id

theorem Sound.irq (ha : g.vec x ≠ 0xff) : Kept cfg g .idle (begin cfg g (.irq x)) := by
  simp only [begin]
  split_ifs with hfull
  · exact .stay h trivial
  · obtain ⟨i, hi⟩ := ((h.vec x).resolve_left (by grind)).resolve_left ha
    obtain ⟨y, -, -, hfit⟩ := h.stub _ i (h.pin i x hi).1
    rw [access_eq hfit.bounds]
    exact .stay h trivial

theorem Sound.alloc (hl : Local cfg g (.alloc i x)) :
    Kept cfg g (.alloc i x) (exec cfg g op (.alloc i x)) := by
  simp only [exec, unlock]
  split_ifs with hempty
  · refine ⟨{ h with }, trivial, fun m hm hap => ⟨hm.frame ?_ ?_ fun _ _ => id, ?_⟩⟩ <;>
      grind [Apart, Pc.irq, Pc.chip, Pc.hand, Assigned]
  · have hlinks := h.links
    have hnodup := h.nodup
    cases hfree : g.free with
    | nil => grind [Links]
    | cons v l =>
      rw [hfree] at hlinks hnodup
      obtain ⟨hv, -, hrest⟩ := hlinks
      have hr := h.range v (by simp [hfree])
      rw [hv, access_eq ⟨by omega, hr.2.1⟩]
      refine ⟨{ h with
        links := hrest
        nodup := hnodup.of_cons
        range := fun w hw => h.range w (by simp_all) },
        by grind [Local, Hand, Fits, Assigned], fun m hm hap => ?_⟩
      have htaken := hm.taken
      refine ⟨hm.frame (by grind) (by grind [Assigned]) (by grind [Hand]), ?_⟩
      grind [Apart, Pc.irq, Pc.chip, Pc.hand, Hand]

theorem Sound.setup (hl : Local cfg g (.setup i x v)) :
    Kept cfg g (.setup i x v) (exec cfg g op (.setup i x v)) := by
  obtain ⟨⟨-, -, hi, hx, hno⟩, hhand, hfit⟩ := hl
  have hne : ∀ k z, g.pin k = some z → z ≠ x :=
    fun k z hk heq => hno (heq ▸ h.assigned (h.pin k z hk).1)
  simp only [exec, unlock, access_eq hfit.bounds]
  refine ⟨{ h with
    range := fun w hw => by grind [h.range w hw, Hand]
    pin := fun k z hk => ?_
    stub := fun w k hk => ?_
    vec := fun z => ?_ }, trivial, fun m hm hap => ⟨hm.frame ?_ ?_ ?_, ?_⟩⟩
  · by_cases hki : k = i
    · grind
    · have hkz : g.pin k = some z := by grind
      grind [h.pin k z hkz, hne k z hkz, Hand]
  · by_cases hw : w = v
    · exact ⟨x, by grind⟩
    · obtain ⟨z, hz, hzw, hfit⟩ := h.stub w k (by grind)
      exact ⟨z, by grind [hne k z hz]⟩
  · by_cases hzx : z = x
    · exact .inr (.inr ⟨i, by grind⟩)
    · obtain hz | hz | ⟨k, hk⟩ := h.vec z
      · grind
      · grind
      · exact .inr (.inr ⟨k, by grind⟩)
  all_goals grind [Apart, Pc.irq, Pc.chip, Pc.hand, Assigned, Hand]

theorem Sound.push (hl : Local cfg g (.free i v)) :
    Kept cfg g (.free i v) (exec cfg g op (.free i v)) := by
  obtain ⟨-, -, ⟨hstub, hv⟩, hlow, hhigh⟩ := hl
  simp only [exec, access_eq (g := g) (v := v) ⟨by omega, hhigh⟩]
  refine ⟨{ h with
    links := ⟨rfl, by omega, by simpa only [update_self] using links_update hv h.links⟩
    nodup := nodup_cons.2 ⟨hv, h.nodup⟩
    range := fun w hw => ?_ }, trivial, fun m hm hap => ⟨hm.frame ?_ ?_ ?_, ?_⟩⟩
  · obtain rfl | hw := mem_cons.1 hw
    · exact ⟨hlow, hhigh, hstub⟩
    · exact h.range w hw
  all_goals grind [Apart, Pc.irq, Pc.chip, Pc.hand, Assigned, Hand]

end

end Steps

abbrev Good (cfg : Config C) (s : State P C I) : Prop := Inv (Sound cfg) (fun _ => Local cfg) Apart s

theorem links_boot (n : ℕ) {f : ℕ} (hf : 0x34 ≤ f) (h : f + n = 0xef) :
    Links (boot : State P C I).shared.vectors f (range' f (n + 1)) := by
  induction n generalizing f with
  | zero => grind [Links, boot, addFree, range']
  | succ n ih =>
    have hnext : (boot : State P C I).shared.vectors f = f + 1 := by grind [boot, addFree]
    rw [range'_succ]
    refine ⟨rfl, by omega, ?_⟩
    rw [hnext]
    exact ih (by omega) (by omega)

theorem good_boot {cfg : Config C} : Good cfg (boot : State P C I) where
  shared :=
    { fault := rfl
      links := by simpa [boot, addFree] using links_boot (P := P) (C := C) (I := I) 187 le_rfl rfl
      nodup := by simp [boot, addFree, nodup_range']
      range := fun v hv => by
        have hb : 0x34 ≤ v ∧ v < 0xf0 := by simpa [boot, addFree] using hv
        exact ⟨hb.1, hb.2, rfl⟩
      pin := nofun
      stub := nofun
      vec := fun _ => .inl rfl }
  loc := fun _ => trivial
  pair := fun _ _ _ => ⟨nofun, nofun, nofun⟩

section Run

variable [DecidableEq P] [DecidableEq C] [DecidableEq I] {cfg : Config C}

theorem good_step {s : State P C I} {a : P × Op C I} (hs : Good cfg s) (ha : Careful s a) :
    Good cfg (step cfg s a) := by
  obtain ⟨t, op⟩ := a
  have h := hs.shared
  have hl := hs.loc t
  have hkept : Kept cfg s.shared (s.loc t) (exec cfg s.shared op (s.loc t)) := by
    cases hpc : s.loc t with rw [hpc] at hl
    | idle =>
      cases op with
      | valloc => exact h.valloc
      | vfree => exact h.vfree (ha hpc)
      | reserve => exact h.reserve
      | irq => exact h.irq (ha hpc)
    | alloc => exact h.alloc hl
    | setup => exact h.setup hl
    | free => exact h.push hl
  exact hs.move (fun _ _ => Apart.symm) hkept.sound hkept.loc
    fun j hj => hkept.other _ (hs.loc j) (hs.pair t j hj.symm)

theorem vectors_right_of_careful {ops : List (P × Op C I)}
    (h : Machine.Along (step cfg) Careful boot ops) :
    Machine.Along (step cfg) (fun s a => Right cfg (step cfg s a).shared) boot ops := by
  apply Machine.Along.imp (I := Good cfg) _ _ good_boot h
  · intro s a hs ha
    exact good_step hs ha
  · intro s a hs ha
    exact (good_step hs ha).shared.right

end Run

def pic : Config Bool where
  irqs := fun _ => 4
  fixed := fun x => if x = (true, 0) then 0x20 else 0
  low := fun x => by grind
  single := fun x y => by grind

def bindOwn (i : Bool) : List (Unit × Op Bool Bool) :=
  [((), .valloc i (true, 0) true), ((), .irq (true, 0))]

def bindDynamic (i : Bool) : List (Unit × Op Bool Bool) :=
  [((), .valloc i (false, 0) false), ((), .irq (false, 0)), ((), .irq (false, 0))]

theorem right_bind : Machine.Along (step pic) (fun s a => Right pic (step pic s a).shared) boot
    (bindDynamic true ++ [((), .vfree true), ((), .vfree true)] ++ bindOwn true) := by
  apply vectors_right_of_careful
  decide

/-- The vector `0x20` goes to the free list, and two pins get it. For a reserved pin the address of
the stub lies behind the array of stubs. -/
theorem not_right_vfree :
    (¬Machine.Along (step pic) (fun s a => Right pic (step pic s a).shared) boot
      (bindOwn true ++ [((), .vfree true), ((), .vfree true)] ++ bindDynamic false ++
        bindOwn true)) ∧
    ¬Machine.Along (step pic) (fun s a => Right pic (step pic s a).shared)
      (boot : State Unit Bool Bool) [((), .reserve (true, 2)), ((), .irq (true, 2))] := by
  constructor <;> intro h
  · have hsame := h.2.2.2.2.2.2.2.2.1.single (true, 0) (false, 0) ⟨by decide, by decide⟩ (by decide)
    revert hsame
    decide
  · have hfault := h.2.1.fault
    revert hfault
    decide

end Fiasco.Ia32.IrqChip
