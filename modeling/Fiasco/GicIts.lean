import Fiasco.Lib.Machine

/-!
# The command queue of the ITS

CPUs write commands to a ring and tell the ITS by `GITS_CWRITER`; the ITS executes them in order and
tells how far it is by `GITS_CREADR`. A CPU waits for its own commands without the lock, and
compares the offset behind them with samples of `GITS_CREADR`. A CPU whose commands are queued
behind those of another one takes the backlog for a wrap-around, and does not wait at all.
-/

namespace Fiasco.GicIts

open Function

/-- Where a CPU is in `send_cmd`. The last number of `wait` is not part of the kernel: so many
commands had been written when the CPU told the ITS. -/
inductive Pc
  | idle
  | first (col : Bool)
  | sync
  | publish (num : ℕ)
  | wait (off num upto : ℕ)
deriving DecidableEq, Repr

inductive Op (C : Type)
  | send (i : C) (col : Bool)
  | go (i : C)
  | consume
deriving DecidableEq, Repr

structure State (C : Type) where
  slots : ℕ → Option ℕ
  writeOff : ℕ
  cwriter : ℕ
  creadr : ℕ
  lock : Option C
  pc : C → Pc
  /-- The numbers of commands that have been written, and that the ITS knows of, and the commands
  that it has executed. These and `seen` are not part of the kernel. -/
  written : ℕ
  published : ℕ
  consumed : List ℕ
  /-- The CPU has read `GITS_CREADR` since it was changed. -/
  seen : C → Bool

def queueSize : ℕ := 0x10000

def cmdSize : ℕ := 32

def isCmdComplete (readOff cmdOff numCmds : ℕ) : Bool :=
  if cmdOff ≤ readOff then decide (readOff - cmdOff < queueSize - numCmds * cmdSize)
  else decide (numCmds * cmdSize < cmdOff - readOff)

variable {C : Type} [DecidableEq C]

namespace State

def full (s : State C) : Bool := (s.writeOff + cmdSize) % queueSize == s.creadr

def enqueueCmd (s : State C) : State C :=
  { s with
    slots := update s.slots (s.writeOff / cmdSize) (some s.written)
    writeOff := (s.writeOff + cmdSize) % queueSize
    written := s.written + 1 }

def goto (s : State C) (i : C) (pc : Pc) : State C := { s with pc := update s.pc i pc }

def go (s : State C) (i : C) : State C :=
  match s.pc i with
  | .idle => s
  | .first col =>
    if s.full then s else s.enqueueCmd.goto i (if col then .sync else .publish 1)
  | .sync => if s.full then s else s.enqueueCmd.goto i (.publish 2)
  | .publish num =>
    { s with
      cwriter := s.writeOff
      published := s.written
      lock := none
      seen := update s.seen i false }.goto i (.wait s.writeOff num s.written)
  | .wait off num _ =>
    if isCmdComplete s.creadr off num then s.goto i .idle
    else { s with seen := update s.seen i true }

def consume (s : State C) : State C :=
  if s.creadr = s.cwriter then s
  else
    { s with
      creadr := (s.creadr + cmdSize) % queueSize
      consumed := (s.slots (s.creadr / cmdSize)).toList ++ s.consumed
      seen := fun _ => false }

end State

def step (s : State C) : Op C → State C
  | .send i col =>
    if s.lock = none ∧ s.pc i = .idle then { s with lock := some i }.goto i (.first col) else s
  | .go i => s.go i
  | .consume => s.consume

def init : State C :=
  ⟨fun _ => none, 0, 0, 0, none, fun _ => .idle, 0, 0, [], fun _ => false⟩

/-- A slot is written only if the command in it has been executed, the ITS finds the commands in
their order, and a wait ends only if the own commands have been executed. -/
def Right (s : State C) : Op C → Prop
  | .send _ _ => True
  | .go i =>
    match s.pc i with
    | .first _ | .sync =>
      s.full = false → ∀ id, s.slots (s.writeOff / cmdSize) = some id → id ∈ s.consumed
    | .wait off num upto => isCmdComplete s.creadr off num = true →
        ∀ id, upto - num ≤ id → id < upto → id ∈ s.consumed
    | _ => True
  | .consume => s.creadr ≠ s.cwriter →
      s.slots (s.creadr / cmdSize) = some s.consumed.length ∧ s.consumed.length ∉ s.consumed

/-- When a CPU looks at `GITS_CREADR`, no command in front of its own ones is left. -/
def Front (s : State C) : Op C → Prop
  | .go i =>
    match s.pc i with
    | .wait _ num upto => ∀ id, id < upto - num → id ∈ s.consumed
    | _ => True
  | _ => True

/-- All CPUs that wait have read a position before it changes. -/
def Observed (s : State C) : Op C → Prop
  | .consume => ∀ i off num upto, s.pc i = .wait off num upto → s.creadr ≠ s.cwriter →
      s.seen i = true
  | _ => True

def PcOk (lock : Option C) (written published : ℕ) (i : C) : Pc → Prop
  | .idle => True
  | .first _ => lock = some i ∧ written = published
  | .sync => lock = some i ∧ written = published + 1
  | .publish num => lock = some i ∧ written = published + num ∧ 1 ≤ num ∧ num ≤ 2
  | .wait off num upto => off = 32 * upto % 65536 ∧ 1 ≤ num ∧ num ≤ 2 ∧ num ≤ upto ∧ upto ≤ published

structure Inv (s : State C) : Prop where
  creadr : s.creadr = 32 * s.consumed.length % 65536
  writeOff : s.writeOff = 32 * s.written % 65536
  cwriter : s.cwriter = 32 * s.published % 65536
  known : s.consumed.length ≤ s.published ∧ s.published ≤ s.written
  room : s.written ≤ s.consumed.length + 2047
  slot : ∀ id, s.consumed.length ≤ id → id < s.written → s.slots (id % 2048) = some id
  old : ∀ j id, s.slots j = some id → id < s.written ∧ j = id % 2048
  order : ∀ id, id ∈ s.consumed ↔ id < s.consumed.length
  pc : ∀ i, PcOk s.lock s.written s.published i (s.pc i)
  free : s.lock = none → s.written = s.published

variable {s : State C} {i : C} {upto num : ℕ} {off : ℕ} {pc : Pc}

theorem isCmdComplete_ahead {r : ℕ} (hlt : r < upto) (hle : upto ≤ r + 2047) (h1 : 1 ≤ num)
    (h2 : num ≤ 2) :
    isCmdComplete (32 * r % 65536) (32 * upto % 65536) num = true ↔ r + num < upto := by
  rw [isCmdComplete]
  split_ifs <;> rw [decide_eq_true_iff, cmdSize]
  · rw [queueSize]
    omega
  · omega

theorem isCmdComplete_self (h : num ≤ 2) : isCmdComplete off off num = true := by
  rw [isCmdComplete, if_pos le_rfl, decide_eq_true_iff, queueSize, cmdSize]
  omega

omit [DecidableEq C] in
theorem Inv.mod_eq (h : Inv s) :
    s.writeOff / cmdSize = s.written % 2048 ∧ s.creadr / cmdSize = s.consumed.length % 2048 := by
  have h1 := h.writeOff
  have h2 := h.creadr
  simp only [cmdSize]
  omega

open State

omit [DecidableEq C] in
theorem Inv.stale (h : Inv s) (hf : s.full = false) :
    s.written < s.consumed.length + 2047 ∧
      ∀ id, s.slots (s.writeOff / cmdSize) = some id → id ∈ s.consumed := by
  have hroom : s.written < s.consumed.length + 2047 := by
    have hr := h.room
    simp only [full, h.writeOff, h.creadr, cmdSize, queueSize, beq_eq_false_iff_ne] at hf
    omega
  refine ⟨hroom, fun id hid => (h.order id).mpr ?_⟩
  obtain ⟨hlt, hmod⟩ := h.old _ _ hid
  rw [h.mod_eq.1] at hmod
  omega

theorem Inv.goto (h : Inv s) (hpc : PcOk s.lock s.written s.published i pc) :
    Inv (s.goto i pc) := by
  refine { h with pc := ?_ }
  intro j
  by_cases hj : j = i
  · subst hj
    simpa only [goto, update_self] using hpc
  · simpa only [State.goto, update_of_ne hj] using h.pc j

omit [DecidableEq C] in
theorem PcOk.other {lock : Option C} {w p w' p' : ℕ} {j : C} (h : PcOk (some i) w p j pc)
    (hj : j ≠ i) (hp : p ≤ p') : PcOk lock w' p' j pc := by
  cases pc with
  | idle => trivial
  | first _ | sync | publish _ => exact absurd (Option.some.inj h.1).symm hj
  | wait off num upto => exact ⟨h.1, h.2.1, h.2.2.1, h.2.2.2.1, h.2.2.2.2.trans hp⟩

section

variable (h : Inv s)
include h

theorem Inv.enqueueCmd (hf : s.full = false) (hl : s.lock = some i)
    (hpc : PcOk s.lock (s.written + 1) s.published i pc) : Inv (s.enqueueCmd.goto i pc) := by
  have hroom := (h.stale hf).1
  obtain ⟨h1, h2, h3, h4, h5, h6, h7, h8, h9, h10⟩ := h
  refine ⟨h1, ?_, h3, ⟨h4.1, h4.2.trans (Nat.le_succ _)⟩, hroom, ?_, ?_, h8, ?_, ?_⟩ <;>
    simp only [State.goto, State.enqueueCmd, cmdSize, queueSize, update_apply]
  · omega
  · intro id hle hlt
    split_ifs with he
    · congr 1
      omega
    · exact h6 id hle (by grind)
  · intro j id hid
    split_ifs at hid with he
    · grind
    · have := h7 j id hid
      omega
  · intro j
    split_ifs with hj
    · subst hj
      exact hpc
    · exact (hl ▸ h9 j).other hj le_rfl
  · intro hn
    simp [hl] at hn

omit [DecidableEq C] in
theorem Inv.head (hne : s.creadr ≠ s.cwriter) :
    s.consumed.length < s.published ∧ s.slots (s.creadr / cmdSize) = some s.consumed.length := by
  have hlt : s.consumed.length < s.published := by
    apply lt_of_le_of_ne h.known.1
    intro he
    rw [h.creadr, h.cwriter, he] at hne
    exact hne rfl
  refine ⟨hlt, ?_⟩
  rw [h.mod_eq.2]
  exact h.slot _ le_rfl (hlt.trans_le h.known.2)

omit [DecidableEq C] in
theorem consume_eq (hne : s.creadr ≠ s.cwriter) : s.consume = { s with
    creadr := (s.creadr + cmdSize) % queueSize
    consumed := s.consumed.length :: s.consumed
    seen := fun _ => false } := by
  rw [consume, if_neg hne, (h.head hne).2]
  rfl

omit [DecidableEq C] in
theorem Inv.consume : Inv s.consume := by
  by_cases hne : s.creadr = s.cwriter
  · rw [State.consume, if_pos hne]
    exact h
  · obtain ⟨hlt, hslot⟩ := h.head hne
    rw [consume_eq h hne]
    obtain ⟨h1, h2, h3, h4, h5, h6, h7, h8, h9, h10⟩ := h
    refine ⟨?_, h2, h3, ⟨hlt, h4.2⟩, ?_, fun id hle => h6 id (le_of_lt hle), h7, ?_, h9, h10⟩ <;>
      simp only [List.length_cons, List.mem_cons, cmdSize, queueSize]
    · omega
    · omega
    · intro id
      rw [h8]
      omega

theorem Inv.publish (hp : s.pc i = .publish num) : Inv (s.go i) := by
  have hpc := h.pc i
  rw [hp] at hpc
  obtain ⟨hl, hw, h1, h2⟩ := hpc
  have hk := h.known
  simp only [go, hp]
  refine ⟨h.creadr, h.writeOff, h.writeOff, ⟨hk.1.trans hk.2, le_rfl⟩, h.room, h.slot, h.old, h.order,
    ?_, fun _ => rfl⟩
  intro j
  simp only [State.goto, update_apply]
  split_ifs with hj
  · exact ⟨h.writeOff, h1, h2, by omega, le_rfl⟩
  · exact (hl ▸ h.pc j).other hj hk.2

theorem Inv.go (i : C) : Inv (s.go i) := by
  have hpc := h.pc i
  cases hp : s.pc i with
  | idle =>
    simp only [State.go, hp]
    exact h
  | first col =>
    rw [hp] at hpc
    simp only [State.go, hp]
    split_ifs with hf hc
    · exact h
    · exact h.enqueueCmd (by simpa using hf) hpc.1 ⟨hpc.1, by rw [hpc.2]⟩
    · exact h.enqueueCmd (by simpa using hf) hpc.1 ⟨hpc.1, by rw [hpc.2], le_rfl, by decide⟩
  | sync =>
    rw [hp] at hpc
    simp only [State.go, hp]
    split_ifs with hf
    · exact h
    · exact h.enqueueCmd (by simpa using hf) hpc.1 ⟨hpc.1, by rw [hpc.2], by decide, le_rfl⟩
  | publish num => exact h.publish hp
  | wait off num upto =>
    simp only [State.go, hp]
    split_ifs
    · exact h.goto trivial
    · exact { h with }

theorem Inv.step (op : Op C) : Inv (step s op) := by
  cases op with
  | send i col =>
    rw [GicIts.step]
    split_ifs with hc
    · have hw := h.free hc.1
      refine { h with pc := ?_, free := nofun }
      intro j
      simp only [State.goto, update_apply]
      split_ifs with hj
      · exact ⟨congrArg some hj.symm, hw⟩
      · have hj' := h.pc j
        rw [hc.1] at hj'
        cases hq : s.pc j <;> simp only [hq, PcOk] at hj' ⊢ <;> grind
    · exact h
  | go i => exact h.go i
  | consume => exact h.consume

end

omit [DecidableEq C] in
theorem Inv.init : Inv (init : State C) :=
  ⟨rfl, rfl, rfl, ⟨le_rfl, le_rfl⟩, Nat.zero_le _, nofun, nofun, fun _ => ⟨nofun, nofun⟩, fun _ => trivial,
    fun _ => rfl⟩

omit [DecidableEq C] in
theorem Inv.right_iff_front (h : Inv s) (op : Op C) : Right s op ↔ Front s op := by
  cases op with
  | send i col => exact .rfl
  | consume =>
    refine iff_of_true (fun hne => ⟨(h.head hne).2, ?_⟩) trivial
    rw [h.order]
    exact lt_irrefl _
  | go i =>
    have hpc := h.pc i
    simp only [Right, Front]
    cases hp : s.pc i with
    | idle | publish _ => exact .rfl
    | first col | sync => exact iff_of_true (fun hf => (h.stale hf).2) trivial
    | wait off num upto =>
      rw [hp] at hpc
      obtain ⟨rfl, h1, h2, h3, h4⟩ := hpc
      have hle : upto ≤ s.consumed.length + 2047 := h4.trans (h.known.2.trans h.room)
      simp only [h.order, h.creadr]
      by_cases hlt : s.consumed.length < upto
      · rw [isCmdComplete_ahead hlt hle h1 h2]
        constructor
        · intro hc id hid
          by_contra hno
          have := hc (by omega) (upto - 1) (by omega) (by omega)
          omega
        · intro hfr hn
          have := hfr s.consumed.length (by omega)
          omega
      · exact iff_of_true (fun _ id _ hid => by omega) fun id hid => by omega

def Early (s : State C) : Prop := ∀ i off num upto, s.pc i = .wait off num upto →
  s.consumed.length ≤ upto ∧ (s.seen i = true → s.consumed.length ≠ upto)

theorem go_of_ne {j : C} (hj : j ≠ i) :
    (s.go i).pc j = s.pc j ∧ (s.go i).seen j = s.seen j ∧ (s.go i).consumed = s.consumed := by
  fun_cases go s i <;> simp [goto, enqueueCmd, hj]

theorem go_wait (hp : s.pc i = .wait off num upto) :
    s.go i = if isCmdComplete s.creadr off num then s.goto i .idle
      else { s with seen := update s.seen i true } := by
  simp only [go, hp]

theorem Early.go (hi : Inv s) (h : Early s) : Early (s.go i) := by
  intro j off num upto hj
  by_cases hji : j = i
  · subst hji
    cases hp : s.pc j with
    | idle => simp [go, hp] at hj
    | first col =>
      simp only [go, hp] at hj
      split_ifs at hj <;> simp [goto, hp] at hj
    | sync =>
      simp only [go, hp] at hj
      split_ifs at hj <;> simp [goto, hp] at hj
    | publish k =>
      have hk := hi.known.1.trans hi.known.2
      simp only [go, hp, goto, update_self, Pc.wait.injEq] at hj ⊢
      obtain ⟨-, -, rfl⟩ := hj
      exact ⟨hk, nofun⟩
    | wait off' num' upto' =>
      rw [go_wait hp] at hj ⊢
      split_ifs at hj ⊢ with hc
      · simp [goto] at hj
      · have hpc := hi.pc j
        rw [hj] at hpc
        refine ⟨(h j _ _ _ hj).1, fun _ he => hc ?_⟩
        obtain ⟨rfl, rfl, rfl⟩ := Pc.wait.inj (hp.symm.trans hj)
        rw [hpc.1, hi.creadr, he]
        exact isCmdComplete_self hpc.2.2.1
  · obtain ⟨hpc, hseen, hcon⟩ := go_of_ne (s := s) hji
    rw [hpc] at hj
    rw [hseen, hcon]
    exact h j off num upto hj

theorem Early.step (hi : Inv s) (h : Early s) {op : Op C} (ho : Observed s op) :
    Early (step s op) := by
  cases op with
  | send i col =>
    rw [GicIts.step]
    split_ifs
    · intro j off num upto hj
      by_cases hji : j = i
      · simp [goto, hji] at hj
      · simp only [goto, update_of_ne hji] at hj
        exact h j off num upto hj
    · exact h
  | go i => exact h.go hi
  | consume =>
    rw [GicIts.step]
    by_cases hne : s.creadr = s.cwriter
    · rw [consume, if_pos hne]
      exact h
    · rw [consume_eq hi hne]
      intro j off num upto hj
      obtain ⟨hle, hno⟩ := h j off num upto hj
      exact ⟨lt_of_le_of_ne hle (hno (ho j off num upto hj hne)), nofun⟩

theorem length_step_le (s : State C) (op : Op C) :
    s.consumed.length ≤ (step s op).consumed.length := by
  cases op with
  | send i col =>
    rw [GicIts.step]
    split_ifs <;> exact le_rfl
  | go i =>
    rw [GicIts.step]
    fun_cases go s i <;> exact le_rfl
  | consume =>
    rw [GicIts.step, consume]
    split_ifs
    · exact le_rfl
    · simp

theorem step_wait (hp : s.pc i = .wait off num upto) (op : Op C) :
    (step s op).pc i = .wait off num upto ∨ (step s op).pc i = .idle := by
  cases op with
  | send j col =>
    rw [GicIts.step]
    split_ifs with hc
    · have hji : i ≠ j := by
        rintro rfl
        simp [hp] at hc
      simp only [goto, update_of_ne hji]
      exact .inl hp
    · exact .inl hp
  | go j =>
    by_cases hji : i = j
    · subst hji
      rw [GicIts.step, go_wait hp]
      split_ifs
      · exact .inr (update_self ..)
      · exact .inl hp
    · exact .inl ((go_of_ne hji).1.trans hp)
  | consume =>
    rw [GicIts.step, consume]
    split_ifs <;> exact .inl hp

section Runs

def before (ops : ℕ → Op C) (n : ℕ) : State C := Machine.trace step init ops n

variable {ops : ℕ → Op C} {off num upto : ℕ} {n : ℕ}

theorem before_inv (ops : ℕ → Op C) (n : ℕ) : Inv (before ops n) :=
  Machine.trace_invariant (P := fun _ _ => True) (fun _ a h _ => h.step a) Inv.init (fun _ => trivial) n

theorem length_before_mono : Monotone fun n => (before ops n).consumed.length :=
  monotone_nat_of_le_succ fun n => length_step_le (before ops n) (ops n)

theorem wait_of_not_idle (hp : (before ops n).pc i = .wait off num upto)
    (hno : ∀ m, n ≤ m → (before ops m).pc i ≠ .idle) {m : ℕ} (hm : n ≤ m) :
    (before ops m).pc i = .wait off num upto := by
  induction m, hm using Nat.le_induction with
  | base => exact hp
  | succ m hm ih => exact (step_wait ih (ops m)).resolve_right (hno _ (Nat.le_succ_of_le hm))

variable (ho : ∀ n, Observed (before ops n) (ops n))
include ho

theorem before_early (n : ℕ) : Early (before ops n) :=
  (Machine.trace_invariant (I := fun s => Inv s ∧ Early s) (fun _ a h ha => ⟨h.1.step a, h.2.step h.1 ha⟩)
    ⟨Inv.init, nofun⟩ ho n).2

theorem reaches
    (hits : ∀ n, ∃ m, n ≤ m ∧ ops m = .consume)
    (hw : ∀ m, n ≤ m → (before ops m).pc i = .wait off num upto) (d : ℕ) {m : ℕ} (hm : n ≤ m)
    (hd : upto ≤ (before ops m).consumed.length + d) :
    ∃ m', n ≤ m' ∧ (before ops m').consumed.length = upto := by
  induction d generalizing m with
  | zero => exact ⟨m, hm, le_antisymm (before_early ho m i _ _ _ (hw m hm)).1 hd⟩
  | succ d ih =>
    obtain ⟨k, hk, hop⟩ := hits m
    have hi := before_inv ops k
    have hwk := hw k (hm.trans hk)
    have hmono : (before ops m).consumed.length ≤ (before ops k).consumed.length := length_before_mono hk
    by_cases he : (before ops k).consumed.length = upto
    · exact ⟨k, hm.trans hk, he⟩
    · apply ih (Nat.le_succ_of_le (hm.trans hk))
      have hpc := hi.pc i
      rw [hwk] at hpc
      have hle := (before_early ho k i _ _ _ hwk).1
      have hne : (before ops k).creadr ≠ (before ops k).cwriter := by
        have h1 := hi.known
        have h2 := hi.room
        have h3 := hpc.2.2.2.2
        rw [hi.creadr, hi.cwriter]
        omega
      have hnext : before ops (k + 1) = (before ops k).consume := by
        rw [before, Machine.trace, hop]
        rfl
      rw [hnext, consume_eq hi hne, List.length_cons]
      omega

theorem ends (hits : ∀ n, ∃ m, n ≤ m ∧ ops m = .consume)
    (hgo : ∀ n, ∃ m, n ≤ m ∧ ops m = .go i) (hp : (before ops n).pc i = .wait off num upto)
    : ∃ m, n ≤ m ∧ (before ops m).pc i = .idle := by
  by_contra hno
  have hw : ∀ m, n ≤ m → (before ops m).pc i = .wait off num upto := fun m hm =>
    wait_of_not_idle hp (fun m hm he => hno ⟨m, hm, he⟩) hm
  obtain ⟨m, hm, he⟩ := reaches ho hits hw upto le_rfl (Nat.le_add_left _ _)
  obtain ⟨k, hk, hop⟩ := hgo m
  have hwk := hw k (hm.trans hk)
  have hpc := (before_inv ops k).pc i
  rw [hwk] at hpc
  -- the position is still the end of the commands when the CPU reads it
  have hmono : (before ops m).consumed.length ≤ (before ops k).consumed.length := length_before_mono hk
  have hk' := le_antisymm (before_early ho k i _ _ _ hwk).1 (he ▸ hmono)
  refine hno ⟨k + 1, Nat.le_succ_of_le (hm.trans hk), ?_⟩
  rw [before, Machine.trace, hop]
  change ((before ops k).go i).pc i = .idle
  rw [go_wait hwk, (before_inv ops k).creadr, hk', hpc.1, isCmdComplete_self hpc.2.2.1]
  exact update_self ..

end Runs

/-- In every run, waits end only when the commands of the CPU have been executed, and slots are free
when they are written, if and only if no CPU looks at `GITS_CREADR` while there are commands of
others in front of its own ones. If the CPUs see each position, all waits end. -/
theorem right_iff_front_and_ends (ops : ℕ → Op C) :
    ((∀ n, Right (before ops n) (ops n)) ↔ ∀ n, Front (before ops n) (ops n)) ∧
      ((∀ n, Observed (before ops n) (ops n)) → (∀ n, ∃ m, n ≤ m ∧ ops m = .consume) →
        ∀ i, (∀ n, ∃ m, n ≤ m ∧ ops m = .go i) → ∀ n off num upto,
          (before ops n).pc i = .wait off num upto → ∃ m, n ≤ m ∧ (before ops m).pc i = .idle) := by
  constructor
  · exact forall_congr' fun n => (before_inv ops n).right_iff_front (ops n)
  · intro ho hits i hgo n off num upto hp
    exact ends ho hits hgo hp

/-- The second CPU queues a command while the first one waits for a command and a SYNC, and tells
the ITS when those are executed. -/
def turns : List (Op Bool) :=
  [.send true true, .go true, .go true, .go true, .go true, .consume, .go true, .send false false,
    .go false, .consume, .go false, .go true, .go false, .consume, .go false]

def two (n : ℕ) : Op Bool :=
  if n < 15 then turns.getD n .consume else [.go false, .go true].getD (n % 3) .consume

theorem two_of_le {n : ℕ} (hn : 15 ≤ n) : two n = two (n % 3 + 15) := by
  rw [two, two, if_neg (not_lt.mpr hn), if_neg (Nat.not_lt.mpr (Nat.le_add_left ..)),
    show (n % 3 + 15) % 3 = n % 3 by omega]

theorem before_two {n : ℕ} (hn : 15 ≤ n) : before two n = before two 15 := by
  induction n, hn using Nat.le_induction with
  | base => rfl
  | succ n hn ih =>
    rw [before, Machine.trace]
    change step (before two n) (two n) = _
    rw [ih, two_of_le hn]
    have hlt : n % 3 < 3 := Nat.mod_lt n (by decide)
    interval_cases n % 3 <;> rfl

theorem forall_two {P : State Bool → Op Bool → Prop} (h : ∀ n < 18, P (before two n) (two n))
    (n : ℕ) : P (before two n) (two n) := by
  by_cases hn : n < 15
  · exact h n (by omega)
  · rw [before_two (not_lt.mp hn), two_of_le (not_lt.mp hn), ← before_two (Nat.le_add_left 15 (n % 3))]
    exact h _ (by omega)

theorem right_and_ends_two : (∀ n, Right (before two n) (two n)) ∧
    ∀ i, ∃ m, 11 ≤ m ∧ (before two m).pc i = .idle := by
  have hfront : ∀ n, Front (before two n) (two n) := by
    apply forall_two
    intro n hn
    interval_cases n
    case «12» => exact (by decide : ∀ id < 2, id ∈ [1, 0])
    case «14» => exact (by decide : ∀ id < 2, id ∈ [2, 1, 0])
    all_goals first | trivial | exact nofun
  have hobs : ∀ n, Observed (before two n) (two n) := by
    apply forall_two
    intro n hn
    interval_cases n
    case «5» | «9» | «13» => exact fun i _ _ _ hp _ => by cases i <;> first | rfl | cases hp
    case «17» => exact fun _ _ _ _ _ hne => absurd rfl hne
    all_goals trivial
  have hits (n : ℕ) : ∃ m, n ≤ m ∧ two m = .consume :=
    ⟨3 * n + 17, by omega, by rw [two_of_le (by omega), show (3 * n + 17) % 3 = 2 by omega]; rfl⟩
  have hgo (i : Bool) (n : ℕ) : ∃ m, n ≤ m ∧ two m = .go i := by
    cases i
    · exact ⟨3 * n + 15, by omega, by rw [two_of_le (by omega), Nat.mul_add_mod]; rfl⟩
    · exact ⟨3 * n + 16, by omega, by rw [two_of_le (by omega), Nat.mul_add_mod]; rfl⟩
  refine ⟨(right_iff_front_and_ends two).1.mpr hfront, ?_⟩
  rintro (_ | _)
  · exact (right_iff_front_and_ends two).2 hobs hits false (hgo false) 11 96 1 3 rfl
  · exact (right_iff_front_and_ends two).2 hobs hits true (hgo true) 11 64 2 2 rfl

def pair (n : ℕ) : Op Bool :=
  [.send false false, .go false, .go false, .send true false, .go true, .go true, .go true].getD n
    .consume

theorem not_right_pair : ¬∀ n, Right (before pair n) (pair n) := by
  intro h
  have hmem : 1 ∈ (before pair 6).consumed := h 6 rfl 1 le_rfl (by decide)
  cases hmem

end Fiasco.GicIts
