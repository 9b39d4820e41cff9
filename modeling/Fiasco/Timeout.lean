import Mathlib

/-!
# Timeouts

A CPU has eight queues of timeouts. A timeout is in the queue of its time slot, a slot is 4096
microseconds, and each queue is sorted. `do_timeouts` looks at the queues of the slots between the
time of its last call and the current time.
-/

namespace Fiasco.Timeout

open List Option Function
open BitVec (ofNat toNat_ofNat)

variable {T : Type}

structure Config where
  oneShot : Bool
  minInterval : ℕ
  maxInterval : ℕ
  gracePeriod : ℕ

theorem not_of_mem_dropWhile {R : T → T → Prop} {p : T → Bool} {xs : List T} (h : xs.Pairwise R)
    (hp : ∀ x y, R x y → p y = true → p x = true) {y : T} (hy : y ∈ xs.dropWhile p) :
    ¬ p y = true := by
  induction xs with
  | nil => cases hy
  | cons x xs ih =>
    rw [pairwise_cons] at h
    rw [dropWhile_cons] at hy
    split_ifs at hy with hx
    · exact ih h.2 hy
    · rcases mem_cons.mp hy with rfl | hy
      · exact hx
      · exact fun hc => hx (hp x y (h.1 y hy) hc)

inductive Event (T : Type)
  | armed (t : T) (wakeup : ℕ)
  | cancelled (t : T)
  | fired (t : T) (now : ℕ)

/-- The queues of a CPU, with the data of the timeouts and the history `log`. -/
structure TimeoutQ (T : Type) where
  q : ℕ → List T
  wakeup : T → ℕ
  hit : T → Bool
  current : ℕ
  oldClock : ℕ
  log : List (Event T)

inductive Op (T : Type)
  | set (t : T) (clock : ℕ)
  | setAgain (t : T)
  | reset (t : T)
  | doTimeouts (now : ℕ) (idle : Bool) (expired : T → Bool)

def slot (wakeup : ℕ) : ℕ := (wakeup >>> 12) % 8

namespace TimeoutQ

def boot : TimeoutQ T := ⟨fun _ => [], fun _ => 2 ^ 64 - 1, fun _ => false, 2 ^ 64 - 1, 0, []⟩

section

variable (c : Config) (s : TimeoutQ T)

def isSet (t : T) : Prop := ∃ b < 8, t ∈ s.q b

instance [DecidableEq T] (s : TimeoutQ T) (t : T) : Decidable (s.isSet t) :=
  inferInstanceAs (Decidable (∃ b < 8, t ∈ s.q b))

def programTimer (timeout : ℕ) : TimeoutQ T :=
  let least := (s.oldClock + c.minInterval) % 2 ^ 64
  { s with current := if timeout < least then least else timeout }

def nextTimeout (max : ℕ) : ℕ :=
  (range 8).foldl (fun next i =>
    match (s.q i).head? with
    | none => next
    | some t => if s.wakeup t < next then s.wakeup t else next) max

def updateTimer (max : ℕ) : TimeoutQ T :=
  if c.oneShot then s.programTimer c (s.nextTimeout max) else s

def updateTimerMaxOneshot (now : ℕ) (idle : Bool) : TimeoutQ T :=
  s.updateTimer c ((now + if idle then c.maxInterval else c.gracePeriod) % 2 ^ 64)

def insert (t : T) : TimeoutQ T :=
  let b := slot (s.wakeup t)
  let earlier := fun x => decide (s.wakeup x < s.wakeup t)
  { s with
    q := update s.q b ((s.q b).takeWhile earlier ++ t :: (s.q b).dropWhile earlier)
    log := s.log ++ [.armed t (s.wakeup t)] }

def enqueue (t : T) : TimeoutQ T :=
  let s := s.insert t
  if c.oneShot ∧ s.wakeup t < s.current then s.programTimer c (s.wakeup t) else s

end

variable [DecidableEq T]

section

variable (c : Config) (s : TimeoutQ T)

def set (t : T) (clock : ℕ) : TimeoutQ T :=
  if s.isSet t then s
  else enqueue c { s with wakeup := update s.wakeup t clock } t

def setAgain (t : T) : TimeoutQ T :=
  if s.isSet t ∨ s.hit t then s else s.enqueue c t

def reset (t : T) : TimeoutQ T :=
  if s.isSet t then { s with q := fun b => (s.q b).erase t, log := s.log ++ [.cancelled t] }
  else s

def due (now b : ℕ) : List T := (s.q b).takeWhile fun t => s.wakeup t ≤ now

def expireQueue (now b : ℕ) : TimeoutQ T :=
  { s with
    q := update s.q b ((s.q b).dropWhile fun t => s.wakeup t ≤ now)
    hit := fun t => s.hit t || decide (t ∈ s.due now b)
    log := s.log ++ (s.due now b).map (.fired · now) }

end

def scan (expired : T → Bool) (now : ℕ) :
    ℕ → ℕ → ℕ → TimeoutQ T × Bool → Option (TimeoutQ T × Bool)
  | 0, _, _, _ => none
  | fuel + 1, start, stop, (s, reschedule) =>
    let r := (s.expireQueue now start, reschedule || (s.due now start).any expired)
    let start := (start + 1) % 8
    if start = stop then some r else scan expired now fuel start stop r

def doTimeouts (c : Config) (s : TimeoutQ T) (now : ℕ) (idle : Bool) (expired : T → Bool) :
    Option (TimeoutQ T × Bool) :=
  let start := ofNat 32 (s.oldClock >>> 12)
  let diff := ofNat 32 (now >>> 12) - start
  let stop := (start + diff + 1#32) &&& 7#32
  let all := (8#32).sle diff
  (scan expired now 8 (if all then 0 else (start &&& 7#32).toNat) (if all then 0 else stop.toNat)
    ({ s with oldClock := now }, false)).map fun r => (r.1.updateTimerMaxOneshot c now idle, r.2)

/-- `none` is a loop that does not end. -/
def exec (c : Config) (s : TimeoutQ T) : Op T → Option (TimeoutQ T)
  | .set t clock => some (s.set c t clock)
  | .setAgain t => some (s.setAgain c t)
  | .reset t => some (s.reset t)
  | .doTimeouts now idle expired => (s.doTimeouts c now idle expired).map Prod.fst

def run (c : Config) (ops : List (Op T)) : Option (TimeoutQ T) := ops.foldlM (exec c) boot

end TimeoutQ

def slots (old now : ℕ) : ℕ := (now >>> 12 - old >>> 12) % 2 ^ 32

def visit (start : ℕ) : ℕ → List ℕ
  | 0 => []
  | n + 1 => start :: visit ((start + 1) % 8) n

def visited (old now : ℕ) : List ℕ :=
  if 8 ≤ slots old now ∧ slots old now < 2 ^ 31 then visit 0 8
  else visit (slot old) (slots old now % 8 + 1)

theorem mem_visit {start n b : ℕ} (hs : start < 8) :
    b ∈ visit start n ↔ ∃ i < n, b = (start + i) % 8 := by
  induction n generalizing start with
  | zero => simp [visit]
  | succ n ih =>
    rw [visit, mem_cons, ih (Nat.mod_lt _ (by decide))]
    constructor
    · rintro (rfl | ⟨i, hi, rfl⟩)
      · exact ⟨0, by omega, by omega⟩
      · exact ⟨i + 1, by omega, by omega⟩
    · rintro ⟨i, hi, rfl⟩
      cases i with
      | zero => exact .inl (by omega)
      | succ i => exact .inr ⟨i, by omega, by omega⟩

theorem slot_lt (w : ℕ) : slot w < 8 := Nat.mod_lt _ (by decide)

/-- No slot is skipped: the time between the calls is less than 2³¹ slots, or it happens to be one
for which all queues are looked at. -/
def Covered (old now : ℕ) : Prop :=
  now >>> 12 - old >>> 12 < 2 ^ 31 ∨ (7 ≤ slots old now ∧ slots old now < 2 ^ 31) ∨
    slots old now % 8 = 7
deriving Decidable

theorem shiftRight_mono {a b : ℕ} (h : a ≤ b) (n : ℕ) : a >>> n ≤ b >>> n := by
  rw [Nat.shiftRight_eq_div_pow, Nat.shiftRight_eq_div_pow]
  exact Nat.div_le_div_right h

variable {old now : ℕ}

theorem Covered.mem_visited {w : ℕ} (h : Covered old now) (ho : old ≤ w) (hn : w ≤ now) :
    slot w ∈ visited old now := by
  have h₁ := shiftRight_mono ho 12
  have h₂ := shiftRight_mono hn 12
  rw [visited]
  split_ifs with hall
  · rw [mem_visit (by decide)]
    refine ⟨slot w, slot_lt w, ?_⟩
    have hw := slot_lt w
    omega
  · rw [mem_visit (slot_lt old)]
    simp only [Covered, slots, slot] at h hall ⊢
    generalize old >>> 12 = a at *
    generalize now >>> 12 = b at *
    generalize w >>> 12 = x at *
    by_cases hall : (b - a) % 2 ^ 32 % 8 = 7
    · exact ⟨(x - a) % 8, by omega, by omega⟩
    · exact ⟨x - a, by omega, by omega⟩

theorem exists_not_mem_visited (h : ¬ Covered old now) :
    ∃ w, old ≤ w ∧ w ≤ now ∧ slot w ∉ visited old now := by
  refine ⟨(old / 4096 + slots old now % 8 + 1) * 4096, ?_, ?_, ?_⟩
  · omega
  · simp only [Covered, slots, Nat.shiftRight_eq_div_pow] at h ⊢
    omega
  · rw [visited, if_neg, mem_visit (slot_lt old)]
    · rintro ⟨i, hi, heq⟩
      simp only [Covered, slots, slot, Nat.shiftRight_eq_div_pow] at h hi heq
      omega
    · intro hall
      exact h (.inr (.inl ⟨by omega, hall.2⟩))

open TimeoutQ

theorem scan_eq [DecidableEq T] (expired : T → Bool) (now : ℕ) {fuel start stop : ℕ} (hs : start < 8)
    (he : stop < 8) (hfuel : (stop + 7 - start) % 8 < fuel) (r : TimeoutQ T × Bool) :
    scan expired now fuel start stop r = some
      ((visit start ((stop + 7 - start) % 8 + 1)).foldl (fun r b =>
        (r.1.expireQueue now b, r.2 || (r.1.due now b).any expired)) r) := by
  induction fuel generalizing start r with
  | zero => omega
  | succ fuel ih =>
    rw [scan]
    split_ifs with hstop
    · rw [show (stop + 7 - start) % 8 = 0 by omega]
      rfl
    · rw [ih (by omega) (by omega),
        show (stop + 7 - start) % 8 = (stop + 7 - (start + 1) % 8) % 8 + 1 by omega]
      rfl

theorem and_seven (x : BitVec 32) : (x &&& 7#32).toNat = x.toNat % 8 := by
  rw [BitVec.toNat_and]
  exact Nat.and_two_pow_sub_one_eq_mod x.toNat 3

def diff (old now : ℕ) : ℕ := (ofNat 32 (now >>> 12) - ofNat 32 (old >>> 12)).toNat

def looked (old now : ℕ) : List ℕ :=
  if 8 ≤ diff old now ∧ diff old now < 2 ^ 31 then visit 0 8
  else visit (slot old) (diff old now % 8 + 1)

theorem looked_eq (h : old ≤ now) : visited old now = looked old now := by
  have hdiff : diff old now = slots old now := by
    rw [diff, BitVec.toNat_sub, toNat_ofNat, toNat_ofNat, slots]
    have := shiftRight_mono h 12
    omega
  rw [visited, looked, hdiff]

theorem sle_eight (x : BitVec 32) : (8#32).sle x = decide (8 ≤ x.toNat ∧ x.toNat < 2 ^ 31) := by
  rw [BitVec.sle_eq_decide, BitVec.toInt_eq_toNat_cond, BitVec.toInt_eq_toNat_cond]
  simp only [toNat_ofNat]
  congr 1
  apply propext
  split_ifs <;> omega

variable [DecidableEq T]

omit [DecidableEq T] in
theorem TimeoutQ.updateTimerMaxOneshot_eq (c : Config) (s : TimeoutQ T) (now : ℕ) (idle : Bool) :
    ∃ n, s.updateTimerMaxOneshot c now idle = { s with current := n } := by
  rw [updateTimerMaxOneshot, updateTimer]
  by_cases hc : c.oneShot
  · rw [if_pos hc]
    exact ⟨_, rfl⟩
  · rw [if_neg hc]
    exact ⟨s.current, rfl⟩

def TimeoutQ.expireQueues (s : TimeoutQ T) (now : ℕ) (bs : List ℕ) : TimeoutQ T :=
  bs.foldl (fun s b => s.expireQueue now b) s

theorem TimeoutQ.doTimeouts_eq (c : Config) (s : TimeoutQ T) {bs : List ℕ}
    (h : bs = looked s.oldClock now) (idle : Bool) (expired : T → Bool) :
    ∃ n r, updateTimerMaxOneshot c (expireQueues { s with oldClock := now } now bs) now idle =
        { expireQueues { s with oldClock := now } now bs with current := n } ∧
      s.doTimeouts c now idle expired = some
        ({ expireQueues { s with oldClock := now } now bs with current := n }, r) := by
  have hfold : ∀ (bs : List ℕ) (r : TimeoutQ T × Bool),
      (bs.foldl (fun r b => (r.1.expireQueue now b, r.2 || (r.1.due now b).any expired)) r).1 =
        r.1.expireQueues now bs := by
    intro bs
    induction bs with
    | nil => exact fun r => rfl
    | cons b bs ih => exact fun r => ih _
  obtain ⟨n, hn⟩ := updateTimerMaxOneshot_eq c (expireQueues { s with oldClock := now } now bs) now idle
  refine ⟨n, ?_⟩
  rw [← hn]
  refine exists_and_left.mpr ⟨rfl, ?_⟩
  have hd : (ofNat 32 (now >>> 12) - ofNat 32 (s.oldClock >>> 12)).toNat = diff s.oldClock now := rfl
  simp only [doTimeouts, sle_eight, decide_eq_true_eq, hd]
  rw [h, looked]
  split_ifs with hall
  · rw [scan_eq expired now (by decide) (by decide) (by decide), map_some, hfold]
    exact ⟨_, rfl⟩
  · have hstart : (ofNat 32 (s.oldClock >>> 12) &&& 7#32).toNat = slot s.oldClock := by
      rw [and_seven, toNat_ofNat, slot]
      omega
    have hstop : ((ofNat 32 (s.oldClock >>> 12) + (ofNat 32 (now >>> 12) -
        ofNat 32 (s.oldClock >>> 12)) + 1#32) &&& 7#32).toNat =
        (slot s.oldClock + diff s.oldClock now + 1) % 8 := by
      rw [and_seven, BitVec.toNat_add, BitVec.toNat_add, hd, toNat_ofNat, toNat_ofNat, slot]
      omega
    have hs := slot_lt s.oldClock
    have hcount : ((slot s.oldClock + diff s.oldClock now + 1) % 8 + 7 - slot s.oldClock) % 8 =
        diff s.oldClock now % 8 := by omega
    rw [hstart, hstop, scan_eq expired now hs (Nat.mod_lt _ (by decide)) (by omega), hcount,
      map_some, hfold]
    exact ⟨_, rfl⟩

/-- The state of a timeout, which is the time it waits for, after an event. `none` is an event that
must not happen. -/
def Event.next (t : T) : Option ℕ → Event T → Option (Option ℕ)
  | st, .armed x w => if x = t then (if st = none then some (some w) else none) else some st
  | st, .cancelled x => if x = t then st.map fun _ => none else some st
  | st, .fired x now =>
    if x = t then st.bind fun w => if w ≤ now then some none else none else some st

def status (t : T) (log : List (Event T)) : Option (Option ℕ) := log.foldlM (Event.next t) none

theorem status_append (t : T) (log es : List (Event T)) :
    status t (log ++ es) = (status t log).bind fun st => es.foldlM (Event.next t) st := by
  rw [status, foldlM_append]
  rfl

theorem status_concat (t : T) (log : List (Event T)) (e : Event T) :
    status t (log ++ [e]) = (status t log).bind fun st => Event.next t st e := by
  rw [status_append]
  congr 1
  funext st
  exact bind_pure (Event.next t st e)

theorem foldlM_fired (t : T) (now : ℕ) {due : List T} (hd : due.Nodup) (st : Option ℕ) :
    (due.map (.fired · now)).foldlM (Event.next t) st =
      if t ∈ due then Event.next t st (.fired t now) else some st := by
  induction due generalizing st with
  | nil => rfl
  | cons x due ih =>
    obtain ⟨hx, hd⟩ := nodup_cons.mp hd
    rw [map_cons, foldlM_cons]
    by_cases hxt : x = t
    · subst hxt
      rw [if_pos mem_cons_self]
      cases hn : Event.next x st (.fired x now) with
      | none => rfl
      | some st' => rw [bind_eq_bind, bind_some, ih hd, if_neg hx]
    · rw [Event.next, if_neg hxt, bind_eq_bind, bind_some, ih hd]
      simp only [mem_cons, Ne.symm hxt, false_or]

structure Inv (s : TimeoutQ T) : Prop where
  slot : ∀ b, ∀ t ∈ s.q b, b = slot (s.wakeup t)
  sorted : ∀ b, (s.q b).Pairwise fun x y => s.wakeup x ≤ s.wakeup y
  nodup : ∀ b, (s.q b).Nodup
  status : ∀ t, status t s.log = some (if s.isSet t then some (s.wakeup t) else none)

variable {s : TimeoutQ T}

section Inv

variable {t x : T}

theorem Inv.isSet_iff (h : Inv s) : s.isSet t ↔ ∃ b, t ∈ s.q b := by
  constructor
  · rintro ⟨b, -, ht⟩
    exact ⟨b, ht⟩
  · rintro ⟨b, ht⟩
    refine ⟨b, ?_, ht⟩
    rw [h.slot b t ht]
    exact slot_lt _

theorem Inv.boot : Inv (boot : TimeoutQ T) := by
  refine ⟨fun b t ht => ?_, fun _ => .nil, fun _ => .nil, fun t => ?_⟩
  · cases ht
  · rw [if_neg]
    · rfl
    · rintro ⟨b, -, ht⟩
      cases ht

section

omit [DecidableEq T]

theorem mem_insert {b : ℕ} : x ∈ (s.insert t).q b ↔ x ∈ s.q b ∨ x = t ∧ b = slot (s.wakeup t) := by
  change x ∈ update s.q _ _ b ↔ _
  by_cases hb : b = slot (s.wakeup t)
  · rw [hb, update_self, mem_append, mem_cons, or_left_comm, ← mem_append,
      takeWhile_append_dropWhile, or_comm, and_iff_left rfl]
  · rw [update_of_ne hb, or_iff_left fun hc => hb hc.2]

theorem TimeoutQ.enqueue_eq (c : Config) (s : TimeoutQ T) (t : T) :
    ∃ n, s.enqueue c t = { s.insert t with current := n } := by
  rw [enqueue]
  split_ifs
  · exact ⟨_, rfl⟩
  · exact ⟨_, rfl⟩

end

section

variable (h : Inv s)
include h

theorem Inv.setCurrent (n : ℕ) : Inv { s with current := n } :=
  { h with }

theorem Inv.setClock (n : ℕ) : Inv { s with oldClock := n } :=
  { h with }

theorem Inv.setWakeup (ht : ¬ s.isSet t) (clock : ℕ) :
    Inv { s with wakeup := update s.wakeup t clock } := by
  have hne : ∀ b, ∀ x ∈ s.q b, x ≠ t := by
    rintro b x hx rfl
    exact ht (h.isSet_iff.mpr ⟨b, hx⟩)
  refine ⟨fun b x hx => ?_, fun b => ?_, h.nodup, fun x => ?_⟩
  · change b = Timeout.slot (update s.wakeup t clock x)
    rw [update_of_ne (hne b x hx)]
    exact h.slot b x hx
  · refine (h.sorted b).imp_of_mem fun {x y} hx hy hxy => ?_
    change update s.wakeup t clock x ≤ update s.wakeup t clock y
    rwa [update_of_ne (hne b x hx), update_of_ne (hne b y hy)]
  · change Timeout.status x s.log =
      some (if s.isSet x then some (update s.wakeup t clock x) else none)
    rw [h.status]
    by_cases hx : s.isSet x
    · rw [update_of_ne]
      rintro rfl
      exact ht hx
    · rw [if_neg hx, if_neg hx]

theorem Inv.insert (ht : ¬ s.isSet t) : Inv (s.insert t) := by
  have hout : ∀ b, t ∉ s.q b := fun b hb => ht (h.isSet_iff.mpr ⟨b, hb⟩)
  have hq : ∀ b, b ≠ Timeout.slot (s.wakeup t) → (s.insert t).q b = s.q b := fun b hb =>
    update_of_ne hb ..
  have hself : (s.insert t).q (Timeout.slot (s.wakeup t)) =
      (s.q (Timeout.slot (s.wakeup t))).takeWhile (fun x => decide (s.wakeup x < s.wakeup t)) ++
        t :: (s.q (Timeout.slot (s.wakeup t))).dropWhile fun x => decide (s.wakeup x < s.wakeup t) :=
    update_self ..
  refine ⟨fun b x hx => ?_, fun b => ?_, fun b => ?_, fun x => ?_⟩
  · rcases mem_insert.mp hx with hx | ⟨rfl, hb⟩
    · exact h.slot b x hx
    · exact hb
  · by_cases hb : b = Timeout.slot (s.wakeup t)
    · rw [hb, hself]
      have hs := h.sorted (Timeout.slot (s.wakeup t))
      generalize s.q (Timeout.slot (s.wakeup t)) = xs at hs
      have hsplit := hs
      rw [← takeWhile_append_dropWhile (p := fun x => decide (s.wakeup x < s.wakeup t)) (l := xs),
        pairwise_append] at hsplit
      rw [pairwise_append, pairwise_cons]
      refine ⟨hsplit.1, ⟨fun y hy => ?_, hsplit.2.1⟩, fun x hx y hy => ?_⟩
      · have hlate := not_of_mem_dropWhile hs (fun x y hxy hy => ?_) hy
        · exact le_of_not_gt fun hc => hlate (decide_eq_true hc)
        · simp only [decide_eq_true_eq] at hy ⊢
          omega
      · rcases mem_cons.mp hy with rfl | hy
        · have hlt := mem_takeWhile_imp hx
          exact (of_decide_eq_true hlt).le
        · exact hsplit.2.2 x hx y hy
    · rw [hq b hb]
      exact h.sorted b
  · by_cases hb : b = Timeout.slot (s.wakeup t)
    · rw [hb, hself, nodup_middle, takeWhile_append_dropWhile]
      exact nodup_cons.mpr ⟨hout _, h.nodup _⟩
    · rw [hq b hb]
      exact h.nodup b
  · have hset : (s.insert t).isSet x ↔ s.isSet x ∨ x = t := by
      constructor
      · rintro ⟨b, hb, hx⟩
        exact (mem_insert.mp hx).imp (fun hx => ⟨b, hb, hx⟩) And.left
      · rintro (⟨b, hb, hx⟩ | rfl)
        · exact ⟨b, hb, mem_insert.mpr (.inl hx)⟩
        · exact ⟨_, slot_lt _, mem_insert.mpr (.inr ⟨rfl, rfl⟩)⟩
    change Timeout.status x (s.log ++ [.armed t (s.wakeup t)]) =
      some (if _ then some (s.wakeup x) else none)
    rw [status_concat, h.status, bind_some, Event.next]
    by_cases hx : t = x
    · subst hx
      rw [if_pos rfl, if_neg ht, if_pos rfl, if_pos (hset.mpr (.inr rfl))]
    · rw [if_neg hx]
      simp only [hset, or_iff_left (Ne.symm hx)]

theorem Inv.reset (t : T) : Inv (s.reset t) := by
  rw [TimeoutQ.reset]
  split_ifs with ht
  · refine ⟨fun b x hx => h.slot b x (mem_of_mem_erase hx),
      fun b => (h.sorted b).sublist erase_sublist, fun b => (h.nodup b).erase t, fun x => ?_⟩
    rw [status_concat, h.status, bind_some, Event.next]
    by_cases hx : t = x
    · subst hx
      rw [if_pos rfl, if_pos ht, if_neg]
      · rfl
      · rintro ⟨b, -, hb⟩
        exact (h.nodup b).not_mem_erase hb
    · have hset : (∃ b < 8, x ∈ (s.q b).erase t) ↔ s.isSet x := by
        simp only [mem_erase_of_ne (Ne.symm hx), isSet]
      rw [if_neg hx]
      exact congrArg some (ite_congr (propext hset.symm) (fun _ => rfl) fun _ => rfl)
  · exact h

theorem Inv.mem_expireQueue {now b b' : ℕ} :
    t ∈ (s.expireQueue now b).q b' ↔ t ∈ s.q b' ∧ ¬ (b' = b ∧ s.wakeup t ≤ now) := by
  change t ∈ update s.q b _ b' ↔ _
  by_cases hb : b' = b
  · subst hb
    rw [update_self]
    constructor
    · refine fun ht => ⟨(dropWhile_sublist _).mem ht, fun hc => ?_⟩
      refine not_of_mem_dropWhile (h.sorted b') (fun x y hxy hy => ?_) ht (decide_eq_true hc.2)
      exact decide_eq_true (hxy.trans (of_decide_eq_true hy))
    · rintro ⟨ht, hn⟩
      rw [← takeWhile_append_dropWhile (p := fun t => decide (s.wakeup t ≤ now)) (l := s.q b'),
        mem_append] at ht
      exact ht.resolve_left fun hd => hn ⟨rfl, of_decide_eq_true (mem_takeWhile_imp (l := s.q b') hd)⟩
  · rw [update_of_ne hb, and_iff_left fun hc => hb hc.1]

theorem Inv.mem_due {now b : ℕ} : t ∈ s.due now b ↔ t ∈ s.q b ∧ s.wakeup t ≤ now := by
  constructor
  · intro hd
    have hle := mem_takeWhile_imp hd
    exact ⟨(takeWhile_sublist _).mem hd, of_decide_eq_true hle⟩
  · rintro ⟨ht, hle⟩
    have hnot : t ∉ (s.expireQueue now b).q b := fun hc => (h.mem_expireQueue.mp hc).2 ⟨rfl, hle⟩
    change t ∉ update s.q b _ b at hnot
    rw [update_self] at hnot
    rw [← takeWhile_append_dropWhile (p := fun t => decide (s.wakeup t ≤ now)) (l := s.q b),
      mem_append] at ht
    exact ht.resolve_right hnot

theorem Inv.expireQueue (now b : ℕ) : Inv (s.expireQueue now b) := by
  have hsub : ∀ b', ((s.expireQueue now b).q b').Sublist (s.q b') := by
    intro b'
    change (update s.q b _ b').Sublist _
    by_cases hb : b' = b
    · rw [hb, update_self]
      exact dropWhile_sublist _
    · rw [update_of_ne hb]
  have hset : ∀ t, (s.expireQueue now b).isSet t ↔ s.isSet t ∧ t ∉ s.due now b := by
    intro t
    rw [h.mem_due]
    constructor
    · rintro ⟨b', hb', ht⟩
      obtain ⟨ht, hn⟩ := h.mem_expireQueue.mp ht
      exact ⟨⟨b', hb', ht⟩, fun ⟨hb, hle⟩ => hn ⟨(h.slot b' t ht).trans (h.slot b t hb).symm, hle⟩⟩
    · rintro ⟨⟨b', hb', ht⟩, hd⟩
      refine ⟨b', hb', h.mem_expireQueue.mpr ⟨ht, ?_⟩⟩
      rintro ⟨rfl, hle⟩
      exact hd ⟨ht, hle⟩
  refine ⟨fun b' t ht => h.slot b' t ((hsub b').mem ht), fun b' => (h.sorted b').sublist (hsub b'),
    fun b' => (h.nodup b').sublist (hsub b'), fun t => ?_⟩
  change Timeout.status t (s.log ++ (s.due now b).map (.fired · now)) =
    some (if _ then some (s.wakeup t) else none)
  have hnodup : (s.due now b).Nodup := (h.nodup b).sublist (takeWhile_sublist _)
  rw [status_append, h.status, bind_some, foldlM_fired t now hnodup]
  by_cases hd : t ∈ s.due now b
  · obtain ⟨hmem, hw⟩ := h.mem_due.mp hd
    rw [if_pos hd, if_pos (h.isSet_iff.mpr ⟨b, hmem⟩), if_neg fun hc => ((hset t).mp hc).2 hd,
      Event.next, if_pos rfl, bind_some, if_pos hw]
  · rw [if_neg hd]
    simp only [hset, and_iff_left hd]

theorem Inv.expireQueues (now : ℕ) (bs : List ℕ) :
    Inv (s.expireQueues now bs) ∧ ∀ b t, t ∈ (s.expireQueues now bs).q b ↔
      t ∈ s.q b ∧ ¬ (b ∈ bs ∧ s.wakeup t ≤ now) := by
  induction bs generalizing s with
  | nil => exact ⟨h, fun b t => (and_iff_left fun hc => not_mem_nil hc.1).symm⟩
  | cons b bs ih =>
    obtain ⟨hinv, hmem⟩ := ih (h.expireQueue now b)
    refine ⟨hinv, fun b' t => (hmem b' t).trans ?_⟩
    rw [h.mem_expireQueue, mem_cons]
    change _ ∧ ¬ (_ ∧ s.wakeup t ≤ now) ↔ _
    tauto

end

theorem TimeoutQ.expireQueues_frame (s : TimeoutQ T) (now : ℕ) (bs : List ℕ) :
    (s.expireQueues now bs).wakeup = s.wakeup ∧ (s.expireQueues now bs).oldClock = s.oldClock ∧
      ∀ b ∉ bs, (s.expireQueues now bs).q b = s.q b := by
  induction bs generalizing s with
  | nil => exact ⟨rfl, rfl, fun _ _ => rfl⟩
  | cons b bs ih =>
    obtain ⟨hw, ho, hq⟩ := ih (s.expireQueue now b)
    refine ⟨hw, ho, fun b' hb' => ?_⟩
    rw [mem_cons, not_or] at hb'
    exact (hq b' hb'.2).trans (update_of_ne hb'.1 ..)

end Inv

variable {c : Config}

section Timer

omit [DecidableEq T] in
theorem foldl_next_le (s : TimeoutQ T) (is : List ℕ) (max : ℕ) :
    let next := is.foldl (fun next i =>
      match (s.q i).head? with
      | none => next
      | some t => if s.wakeup t < next then s.wakeup t else next) max
    next ≤ max ∧ ∀ i ∈ is, ∀ t ∈ (s.q i).head?, next ≤ s.wakeup t := by
  induction is generalizing max with
  | nil => exact ⟨le_rfl, fun _ hi => (not_mem_nil hi).elim⟩
  | cons i is ih =>
    rw [foldl_cons]
    generalize hm : (match (s.q i).head? with
      | none => max
      | some t => if s.wakeup t < max then s.wakeup t else max) = m
    have hle : m ≤ max ∧ ∀ t ∈ (s.q i).head?, m ≤ s.wakeup t := by
      rw [← hm]
      cases (s.q i).head? with
      | none => exact ⟨le_rfl, nofun⟩
      | some t =>
        simp only [mem_some_iff, forall_eq']
        split_ifs <;> omega
    obtain ⟨hmax, hall⟩ := ih m
    refine ⟨hmax.trans hle.1, fun j hj t ht => ?_⟩
    rcases mem_cons.mp hj with rfl | hj
    · exact hmax.trans (hle.2 t ht)
    · exact hall j hj t ht

theorem Inv.nextTimeout_le (h : Inv s) (max : ℕ) {b : ℕ} {t : T} (ht : t ∈ s.q b) :
    s.nextTimeout max ≤ s.wakeup t := by
  have hb : b < 8 := by
    rw [h.slot b t ht]
    exact slot_lt _
  have hnext := (foldl_next_le s (range 8) max).2 b (mem_range.mpr hb)
  have hs := h.sorted b
  cases hq : s.q b with
  | nil =>
    rw [hq] at ht
    cases ht
  | cons x xs =>
    rw [hq] at ht hs hnext
    have hx := hnext x rfl
    rcases mem_cons.mp ht with rfl | ht
    · exact hx
    · exact hx.trans ((pairwise_cons.mp hs).1 t ht)

def Armed (c : Config) (s : TimeoutQ T) : Prop :=
  ∀ b, ∀ t ∈ s.q b, s.current ≤ max (s.wakeup t) ((s.oldClock + c.minInterval) % 2 ^ 64)

section

omit [DecidableEq T]

theorem programTimer_le (c : Config) (s : TimeoutQ T) {n m : ℕ} (h : n ≤ m) :
    (s.programTimer c n).current ≤ max m ((s.oldClock + c.minInterval) % 2 ^ 64) := by
  rw [programTimer]
  split_ifs
  · exact le_max_right _ _
  · exact h.trans (le_max_left _ _)

theorem Armed.enqueue (h : Armed c s) (hc : c.oneShot) (t : T) : Armed c (s.enqueue c t) := by
  intro b x hx
  obtain ⟨n, hn⟩ := s.enqueue_eq c t
  have hx' : x ∈ (s.insert t).q b := by
    rw [hn] at hx
    exact hx
  rw [TimeoutQ.enqueue]
  split_ifs with hlt
  · rcases mem_insert.mp hx' with hx' | ⟨rfl, -⟩
    · -- the timer was not later before
      have hold := h b x hx'
      have hnew := programTimer_le c (s.insert t) (le_refl ((s.insert t).wakeup t))
      refine hnew.trans ?_
      have hcur : s.wakeup t < s.current := hlt.2
      change max (s.wakeup t) ((s.oldClock + c.minInterval) % 2 ^ 64) ≤
        max (s.wakeup x) ((s.oldClock + c.minInterval) % 2 ^ 64)
      omega
    · exact programTimer_le c (s.insert x) le_rfl
  · rcases mem_insert.mp hx' with hx' | ⟨rfl, -⟩
    · exact h b x hx'
    · have hle : s.current ≤ s.wakeup x := le_of_not_gt fun hgt => hlt ⟨hc, hgt⟩
      exact hle.trans (le_max_left _ _)

end

theorem Inv.armed_updateTimer (h : Inv s) (hc : c.oneShot) (now : ℕ) (idle : Bool) :
    Armed c (s.updateTimerMaxOneshot c now idle) := by
  intro b t ht
  rw [updateTimerMaxOneshot, updateTimer, if_pos hc] at ht ⊢
  exact programTimer_le c s (h.nextTimeout_le _ ht)

end Timer

def Allowed (s : TimeoutQ T) : Op T → Prop
  | .set t clock => ¬ s.isSet t ∧ s.oldClock ≤ clock ∧ clock < 2 ^ 64
  | .setAgain t => ¬ s.isSet t ∧ (s.hit t = false → s.oldClock ≤ s.wakeup t)
  | .reset _ => True
  | .doTimeouts now _ _ => s.oldClock ≤ now ∧ now < 2 ^ 64

def Admissible (c : Config) (ops : List (Op T)) : Prop :=
  ∀ before op after s, ops = before ++ op :: after → run c before = some s → Allowed s op

def clocks (ops : List (Op T)) : List ℕ :=
  ops.filterMap fun op =>
    match op with
    | .doTimeouts now _ _ => some now
    | _ => none

/-- The operations end, a timeout that is armed is cancelled, fires once and not before its time, or
is still in a queue, and `do_timeouts` leaves nothing whose time has come. -/
def Right (c : Config) (ops : List (Op T)) : Prop :=
  ∃ s, run c ops = some s ∧
    (∀ t, status t s.log = some (if s.isSet t then some (s.wakeup t) else none)) ∧
    ∀ before now idle expired, ops = before ++ [.doTimeouts now idle expired] →
      ∀ t, s.isSet t → now < s.wakeup t

def Future (s : TimeoutQ T) : Prop := ∀ b, ∀ t ∈ s.q b, s.oldClock ≤ s.wakeup t

section Step

variable {t : T}

omit [DecidableEq T] in
theorem Future.insert (h : Future s) (ht : s.oldClock ≤ s.wakeup t) : Future (s.insert t) := by
  intro b x hx
  rcases mem_insert.mp hx with hx | ⟨rfl, -⟩
  · exact h b x hx
  · exact ht

def Op.clock (old : ℕ) : Op T → ℕ
  | .doTimeouts now _ _ => now
  | _ => old

structure Timely (s : TimeoutQ T) : Prop where
  inv : Inv s
  future : Future s

theorem Timely.boot : Timely (boot : TimeoutQ T) :=
  ⟨Inv.boot, fun _ _ ht => (not_mem_nil ht).elim⟩

structure Kept (c : Config) (s : TimeoutQ T) (op : Op T) (s' : TimeoutQ T) : Prop where
  inv : Inv s'
  clock : s'.oldClock = op.clock s.oldClock
  armed : c.oneShot → Armed c s → Armed c s'
  future : Future s → Covered s.oldClock (op.clock s.oldClock) → Future s'

variable (h : Inv s)
include h

theorem Inv.enqueue (ht : ¬ s.isSet t) :
    Inv (s.enqueue c t) ∧ (s.enqueue c t).oldClock = s.oldClock ∧
      (Future s → s.oldClock ≤ s.wakeup t → Future (s.enqueue c t)) := by
  obtain ⟨n, hn⟩ := s.enqueue_eq c t
  rw [hn]
  exact ⟨(h.insert ht).setCurrent n, rfl, Future.insert⟩

theorem Inv.wakeup_set (ht : ¬ s.isSet t) (clock : ℕ) {b : ℕ} {x : T}
    (hx : x ∈ s.q b) : update s.wakeup t clock x = s.wakeup x := by
  refine update_of_ne ?_ ..
  rintro rfl
  exact ht (h.isSet_iff.mpr ⟨b, hx⟩)

theorem Inv.keeps (c : Config) (op : Op T) :
    ∃ s', s.exec c op = some s' ∧ Inv s' ∧ (c.oneShot → Armed c s → Armed c s') := by
  cases op with
  | set t clock =>
    refine ⟨_, rfl, ?_⟩
    rw [TimeoutQ.set]
    split_ifs with ht
    · exact ⟨h, fun _ => id⟩
    · refine ⟨((h.setWakeup ht clock).enqueue ht).1, fun hc harm => .enqueue (fun b x hx => ?_) hc t⟩
      change s.current ≤ max (update s.wakeup t clock x) _
      rw [h.wakeup_set ht clock hx]
      exact harm b x hx
  | setAgain t =>
    refine ⟨_, rfl, ?_⟩
    rw [setAgain]
    split_ifs with ht
    · exact ⟨h, fun _ => id⟩
    · exact ⟨(h.enqueue fun hc => ht (.inl hc)).1, fun hc harm => harm.enqueue hc t⟩
  | reset t =>
    refine ⟨_, rfl, h.reset t, fun _ harm => ?_⟩
    rw [TimeoutQ.reset]
    split_ifs
    · exact fun b x hx => harm b x (mem_of_mem_erase hx)
    · exact harm
  | doTimeouts now idle expired =>
    obtain ⟨n, r, htimer, hr⟩ := s.doTimeouts_eq c rfl idle expired
    have hinv := ((h.setClock now).expireQueues now (looked s.oldClock now)).1
    refine ⟨_, congrArg (Option.map Prod.fst) hr, hinv.setCurrent n, fun hc _ => ?_⟩
    rw [← htimer]
    exact hinv.armed_updateTimer hc now idle

theorem Inv.doTimeouts {now : ℕ} (hn : s.oldClock ≤ now) (idle : Bool) (expired : T → Bool) :
    ∃ s', s.exec c (.doTimeouts now idle expired) = some s' ∧ s'.oldClock = now ∧
      (Future s → Covered s.oldClock now → ∀ b, ∀ t ∈ s'.q b, now < s'.wakeup t) := by
  obtain ⟨n, r, -, hr⟩ := s.doTimeouts_eq c (looked_eq hn) idle expired
  obtain ⟨-, hmem⟩ := (h.setClock now).expireQueues now (visited s.oldClock now)
  obtain ⟨hw, hclock, -⟩ := expireQueues_frame { s with oldClock := now } now
    (visited s.oldClock now)
  refine ⟨_, congrArg (Option.map Prod.fst) hr, hclock, fun hf hc b t ht => ?_⟩
  change now < (TimeoutQ.expireQueues _ _ _).wakeup t
  rw [hw]
  obtain ⟨ht, hstay⟩ := (hmem b t).mp ht
  by_contra hle
  have hvisit := hc.mem_visited (hf b t ht) (Nat.le_of_not_lt hle)
  rw [← h.slot b t ht] at hvisit
  exact hstay ⟨hvisit, Nat.le_of_not_lt hle⟩

theorem Inv.exec {op : Op T} (ha : Allowed s op) :
    ∃ s', s.exec c op = some s' ∧ Kept c s op s' ∧
      ∀ now idle expired, op = .doTimeouts now idle expired → Future s → Covered s.oldClock now →
        ∀ t, s'.isSet t → now < s'.wakeup t := by
  obtain ⟨s', hs', hinv, harm⟩ := h.keeps c op
  refine ⟨s', hs', ?_⟩
  cases op with
  | set t clock =>
    cases hs'
    refine ⟨⟨hinv, ?_, harm, fun hf _ => ?_⟩, nofun⟩ <;> rw [TimeoutQ.set, if_neg ha.1]
    · exact ((h.setWakeup ha.1 clock).enqueue ha.1).2.1
    · refine ((h.setWakeup ha.1 clock).enqueue ha.1).2.2 (fun b x hx => ?_) ?_
      · change s.oldClock ≤ update s.wakeup t clock x
        rw [h.wakeup_set ha.1 clock hx]
        exact hf b x hx
      · change s.oldClock ≤ update s.wakeup t clock t
        rw [update_self]
        exact ha.2.1
  | setAgain t =>
    cases hs'
    refine ⟨⟨hinv, ?_, harm, fun hf _ => ?_⟩, nofun⟩ <;> rw [setAgain] <;>
      split_ifs with hset
    · rfl
    · exact (h.enqueue ha.1).2.1
    · exact hf
    · exact (h.enqueue ha.1).2.2 hf (ha.2 (Bool.eq_false_iff.mpr fun hc => hset (.inr hc)))
  | reset t =>
    cases hs'
    refine ⟨⟨hinv, ?_, harm, fun hf _ => ?_⟩, nofun⟩ <;> rw [TimeoutQ.reset] <;> split_ifs
    · rfl
    · rfl
    · exact fun b x hx => hf b x (mem_of_mem_erase hx)
    · exact hf
  | doTimeouts now idle expired =>
    obtain ⟨s'', hs'', hclock, hall⟩ := h.doTimeouts (c := c) ha.1 idle expired
    cases hs'.symm.trans hs''
    refine ⟨⟨hinv, hclock, harm, fun hf hc b t ht => hclock.trans_le (hall hf hc b t ht).le⟩,
      fun _ _ _ heq hf hc t ⟨b, _, ht⟩ => ?_⟩
    cases heq
    exact hall hf hc b t ht

end Step

section Run

variable {ops : List (Op T)} {op : Op T} {cs : List ℕ}

theorem TimeoutQ.run_concat (c : Config) (ops : List (Op T)) (op : Op T) :
    run c (ops ++ [op]) = (run c ops).bind fun s => s.exec c op := by
  rw [run, foldlM_append, ← run]
  congr 1
  funext s
  exact bind_pure (s.exec c op)

theorem Admissible.before (h : Admissible c (ops ++ [op])) : Admissible c ops := by
  intro before a after s hops hs
  apply h before a (after ++ [op]) s _ hs
  rw [hops, append_assoc, cons_append]

theorem Admissible.concat (h : Admissible c ops)
    (hop : ∀ s, run c ops = some s → Allowed s op) : Admissible c (ops ++ [op]) := by
  intro before a after s hops hs
  rcases eq_nil_or_concat' after with rfl | ⟨after, b, rfl⟩
  · obtain ⟨rfl, heq⟩ := append_inj' hops rfl
    cases heq
    exact hop s hs
  · rw [← cons_append, ← append_assoc] at hops
    obtain ⟨rfl, -⟩ := append_inj' hops rfl
    exact h before a after s rfl hs

omit [DecidableEq T] in
theorem clocks_concat (ops : List (Op T)) (op : Op T) (x : ℕ) :
    (clocks (ops ++ [op])).getLastD x = op.clock ((clocks ops).getLastD x) := by
  rw [clocks, filterMap_append]
  cases op with
  | doTimeouts now idle expired => exact getLastD_concat
  | _ => exact congrArg (getLastD · x) (append_nil _)

theorem isChain_cons_iff {R : ℕ → ℕ → Prop} {x : ℕ} {l : List ℕ} :
    (x :: l).IsChain R ↔ ∀ cs y, cs ++ [y] <+: l → R (cs.getLastD x) y := by
  induction l generalizing x with
  | nil =>
    refine iff_of_true (isChain_singleton x) fun cs y h => ?_
    simp at h
  | cons a l ih =>
    rw [isChain_cons_cons, ih]
    constructor
    · rintro ⟨ha, hl⟩ cs y h
      cases cs with
      | nil =>
        obtain ⟨rfl, -⟩ := cons_prefix_cons.mp h
        exact ha
      | cons b cs =>
        obtain ⟨rfl, hcs⟩ := cons_prefix_cons.mp h
        rw [getLastD_cons]
        exact hl cs y hcs
    · intro h
      refine ⟨h [] a (by simp), fun cs y hcs => ?_⟩
      have hb := h (a :: cs) y (cons_prefix_cons.mpr ⟨rfl, hcs⟩)
      rwa [getLastD_cons] at hb

/-- Whatever is set, reset and expired at which times, the timer is never later than a timeout that is
queued, or than the end of the least interval. -/
theorem armed_run (hc : c.oneShot) (ops : List (Op T)) :
    ∃ s, run c ops = some s ∧ Inv s ∧ Armed c s := by
  induction ops using reverseRecOn with
  | nil => exact ⟨_, rfl, .boot, fun _ _ ht => (not_mem_nil ht).elim⟩
  | append_singleton ops op ih =>
    obtain ⟨s, hs, hinv, harm⟩ := ih
    obtain ⟨s', hs', hinv', harm'⟩ := hinv.keeps c op
    refine ⟨s', ?_, hinv', harm' hc harm⟩
    rw [run_concat, hs, bind_some, hs']

theorem armed_run_past : ∃ s, run ⟨true, 200, 1000000, 2000⟩
    [.doTimeouts 5000 false fun _ => false, .set 7 4096, .set 8 9000] = some s ∧ Inv s ∧
      Armed ⟨true, 200, 1000000, 2000⟩ s :=
  armed_run rfl _

theorem covered_self (n : ℕ) : Covered n n := .inl (by rw [Nat.sub_self]; decide)

theorem timely_run (hcs : (0 :: cs).IsChain Covered) (ha : Admissible c ops)
    (hops : clocks ops <+: cs) :
    ∃ s, run c ops = some s ∧ Timely s ∧ s.oldClock = (clocks ops).getLastD 0 ∧
      ∀ before now idle expired, ops = before ++ [.doTimeouts now idle expired] →
        ∀ t, s.isSet t → now < s.wakeup t := by
  induction ops using reverseRecOn with
  | nil => exact ⟨_, rfl, .boot, rfl, fun before _ _ _ h => by simp at h⟩
  | append_singleton ops op ih =>
    have hbefore : clocks ops <+: cs := by
      rw [clocks, filterMap_append] at hops
      exact (prefix_append _ _).trans hops
    obtain ⟨s, hs, ht, hclock, -⟩ := ih ha.before hbefore
    have hc : Covered s.oldClock (op.clock s.oldClock) := by
      cases op with
      | doTimeouts now idle expired =>
        rw [clocks, filterMap_append] at hops
        rw [hclock]
        exact isChain_cons_iff.mp hcs _ _ hops
      | _ => exact covered_self _
    obtain ⟨s', hs', hkept, hlast⟩ := ht.inv.exec (c := c) (ha ops op [] s rfl hs)
    refine ⟨s', ?_, ⟨hkept.inv, hkept.future ht.future hc⟩, ?_, fun before now idle expired heq => ?_⟩
    · rw [run_concat, hs, bind_some, hs']
    · rw [hkept.clock, hclock, clocks_concat]
    · obtain ⟨-, heq⟩ := append_inj' heq rfl
      cases heq
      exact hlast now idle expired rfl ht.future hc

def ticks (cs : List ℕ) : List (Op T) := cs.map fun now => .doTimeouts now false fun _ => false

theorem run_ticks (hm : (0 :: cs).IsChain (· ≤ ·)) (hb : ∀ x ∈ cs, x < 2 ^ 64) :
    Admissible c (ticks cs : List (Op T)) ∧ ∃ s : TimeoutQ T, run c (ticks cs) = some s ∧
      Inv s ∧ (∀ b, s.q b = []) ∧ s.oldClock = cs.getLastD 0 := by
  induction cs using reverseRecOn with
  | nil => exact ⟨fun before _ _ _ h => by simp [ticks] at h, _, rfl, .boot, fun _ => rfl, rfl⟩
  | append_singleton cs now ih =>
    have hcs : (0 :: cs).IsChain (· ≤ ·) := by
      rw [← cons_append] at hm
      exact hm.left_of_append
    obtain ⟨ha, s, hs, hinv, hq, hclock⟩ := ih hcs fun x hx => hb x (mem_append_left _ hx)
    have hn : s.oldClock ≤ now := by
      rw [hclock]
      exact isChain_cons_iff.mp hm cs now (prefix_refl _)
    have hticks : (ticks (cs ++ [now]) : List (Op T)) =
        ticks cs ++ [.doTimeouts now false fun _ => false] := map_append
    rw [hticks]
    refine ⟨ha.concat fun s' hs' => ?_, ?_⟩
    · rw [hs] at hs'
      cases hs'
      exact ⟨hn, hb now (mem_append_right _ mem_cons_self)⟩
    · obtain ⟨n, r, -, hr⟩ := s.doTimeouts_eq c (looked_eq hn) false fun _ => false
      obtain ⟨hinv', hmem⟩ := (hinv.setClock now).expireQueues now (visited s.oldClock now)
      refine ⟨_, ?_, hinv'.setCurrent n, fun b => ?_, ?_⟩
      · rw [run_concat, hs, bind_some, exec, hr]
        rfl
      · refine eq_nil_iff_forall_not_mem.mpr fun t ht => ?_
        have hold := ((hmem b t).mp ht).1
        rw [hq b] at hold
        cases hold
      · rw [getLastD_concat]
        exact (expireQueues_frame { s with oldClock := now } now _).2.1

theorem run_ticks_set (hm : (0 :: cs).IsChain (· ≤ ·)) (hb : ∀ x ∈ cs, x < 2 ^ 64) (t : T) {w : ℕ}
    (hw : cs.getLastD 0 ≤ w) (hw' : w < 2 ^ 64) :
    Admissible c (ticks cs ++ [.set t w]) ∧ ∃ s, run c (ticks cs ++ [.set t w]) = some s ∧
      s.wakeup t = w ∧ s.oldClock = cs.getLastD 0 ∧ t ∈ s.q (slot w) := by
  obtain ⟨ha, s, hs, hinv, hq, hclock⟩ := run_ticks (T := T) (c := c) hm hb
  have hnew : ¬ s.isSet t := by
    rintro ⟨b, -, ht⟩
    rw [hq b] at ht
    cases ht
  refine ⟨ha.concat fun s' hs' => ?_, ?_⟩
  · rw [hs] at hs'
    cases hs'
    exact ⟨hnew, by rwa [hclock], hw'⟩
  · obtain ⟨n, hn⟩ := enqueue_eq c { s with wakeup := update s.wakeup t w } t
    have hself : update s.wakeup t w t = w := update_self ..
    have hrun : run c (ticks cs ++ [.set t w]) = some
        { insert { s with wakeup := update s.wakeup t w } t with current := n } := by
      rw [TimeoutQ.run_concat, hs, bind_some, TimeoutQ.exec, TimeoutQ.set, if_neg hnew, hn]
    exact ⟨_, hrun, hself, hclock, mem_insert.mpr (.inr ⟨rfl, congrArg slot hself.symm⟩)⟩

theorem not_right_of_skipped [Inhabited T] {now : ℕ} (hm : (0 :: (cs ++ [now])).IsChain (· ≤ ·))
    (hb : ∀ x ∈ cs ++ [now], x < 2 ^ 64) (hc : ¬ Covered (cs.getLastD 0) now) :
    ∃ ops : List (Op T), Admissible c ops ∧ clocks ops = cs ++ [now] ∧ ¬ Right c ops := by
  obtain ⟨w, hold, hnow, hskip⟩ := exists_not_mem_visited hc
  have hcs : (0 :: cs).IsChain (· ≤ ·) := by
    rw [← cons_append] at hm
    exact hm.left_of_append
  have hnow' : now < 2 ^ 64 := hb now (mem_append_right _ mem_cons_self)
  obtain ⟨ha, s, hs, hw, hclock, hmem⟩ := run_ticks_set (c := c) hcs
    (fun x hx => hb x (mem_append_left _ hx)) (default : T) hold (hnow.trans_lt hnow')
  have hle : s.oldClock ≤ now := by
    rw [hclock]
    exact hold.trans hnow
  refine ⟨ticks cs ++ [.set default w] ++ [.doTimeouts now false fun _ => false], ?_, ?_, ?_⟩
  · refine ha.concat fun s' hs' => ?_
    rw [hs] at hs'
    cases hs'
    exact ⟨hle, hnow'⟩
  · simp [clocks, ticks, filterMap_map]
  · rintro ⟨s', hs', -, hlast⟩
    obtain ⟨n, r, -, hr⟩ := s.doTimeouts_eq c (looked_eq hle) false fun _ => false
    obtain ⟨hwake, -, hstay⟩ := expireQueues_frame { s with oldClock := now } now
      (visited s.oldClock now)
    rw [run_concat, hs, bind_some, exec, hr] at hs'
    cases hs'
    rw [← hclock] at hskip
    have hlate := hlast _ now false _ rfl default ⟨slot w, slot_lt w, by
      rw [hstay _ hskip]
      exact hmem⟩
    rw [hwake] at hlate
    change now < s.wakeup default at hlate
    omega

theorem right_iff_covered [Inhabited T] (c : Config) (cs : List ℕ)
    (hm : (0 :: cs).IsChain (· ≤ ·)) (hb : ∀ x ∈ cs, x < 2 ^ 64) :
    (∀ ops : List (Op T), Admissible c ops → clocks ops <+: cs → Right c ops) ↔
      (0 :: cs).IsChain Covered := by
  constructor
  · intro h
    refine isChain_cons_iff.mpr fun before now hpre => ?_
    by_contra hc
    obtain ⟨after, rfl⟩ := hpre
    rw [← cons_append] at hm
    obtain ⟨ops, ha, hclocks, hright⟩ := not_right_of_skipped (T := T) (c := c) hm.left_of_append
      (fun x hx => hb x (mem_append_left _ hx)) hc
    exact hright (h ops ha (by rw [hclocks]; exact prefix_append _ _))
  · intro hcs ops ha hops
    obtain ⟨s, hs, ht, -, hlast⟩ := timely_run hcs ha hops
    exact ⟨s, hs, ht.inv.status, hlast⟩

end Run

theorem right_ninetyDays :
    [0, 1000, 200000, 8000000000000].IsChain Covered ∧
    ∀ ops : List (Op ℕ), Admissible ⟨true, 200, 1000000, 2000⟩ ops →
      clocks ops <+: [1000, 200000, 8000000000000] → Right ⟨true, 200, 1000000, 2000⟩ ops := by
  have hcs : [0, 1000, 200000, 8000000000000].IsChain Covered := by decide
  exact ⟨hcs, (right_iff_covered _ _ (by decide) (by decide)).mpr hcs⟩

/-- 2³² slots, which are 203 days, look like none: `do_timeouts` looks at one queue only, and the
timeout in the next one is late. -/
def skipped : List (Op ℕ) :=
  [.doTimeouts 0 false fun _ => false, .set 7 4096, .doTimeouts (2 ^ 44) false fun _ => false]

theorem late_skipped :
    ∃ s : TimeoutQ ℕ, run ⟨false, 0, 0, 0⟩ skipped = some s ∧ s.isSet 7 ∧
      s.wakeup 7 = 4096 ∧ s.oldClock = 2 ^ 44 := by
  refine ⟨_, rfl, ?_, ?_, ?_⟩ <;> decide

end Fiasco.Timeout
