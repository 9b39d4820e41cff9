import Fiasco.Ipc.SenderList
import Fiasco.Lib.Interleaving

/-!
# Senders and a receiver

One receiver, and any number of senders on other CPUs. The receiver announces itself with
`Thread_receive_wait` and then looks into its list of senders; a sender enters the list and
then looks at the state of the receiver. Each access of `_do_ipc`, `try_receive`, `check_send`,
`check_sender` and `sender_ok` to what they share is one step. There are no timeouts.
-/

namespace Fiasco.Ipc.Handshake

open List SenderList

variable {S : Type*}

inductive Rcv where
  | none
  | wait
  | inProgress
deriving DecidableEq

inductive After (S : Type*) where
  | prepare
  | fetched (closed : Option S)
deriving DecidableEq

/-- Where the receiver is; `closed` is the partner of a closed wait. -/
inductive Rpc (S : Type*) where
  | idle
  | mark (e : S) (a : After S)
  | load (e : S) (a : After S)
  | store (e : S) (a : After S) (queued : Bool)
  | resetPoi
  | addWait (closed : Option S)
  | first (closed : Option S)
  | top (closed next : Option S)
  | look (closed : Option S)
  | block (closed : Option S)
  | check (closed : Option S) (n : S)
  | take (closed : Option S) (n : S)
  | claim (closed : Option S) (n : S)
  | transfer (n : S)
  | requeue (closed : Option S) (n : S)
  | retry (closed : Option S)
  | asleep (closed : Option S)
  | finish
deriving DecidableEq

/-- Where a sender is; `again` after it has entered the list. -/
inductive Spc where
  | idle
  | state (again : Bool)
  | poi (again : Bool)
  | empty (again : Bool)
  | head (again : Bool)
  | swap (again : Bool)
  | refused
  | enqueue
  | dequeue
  | waiting
  | deliver
  | activate
deriving DecidableEq

structure Shared (S : Type*) where
  list : SenderList S
  rcv : Rcv
  ready : Bool
  pc : Rpc S

def Rpc.holds (n : S) : Rpc S → Prop
  | .mark e (.fetched _) | .load e (.fetched _) | .store e (.fetched _) _ => e = n
  | .claim _ e | .transfer e | .requeue _ e => e = n
  | _ => False

def Rpc.missed (n : S) : Rpc S → Prop
  | .store e _ q => e = n ∧ q = false
  | _ => False

variable [DecidableEq S]

open Rpc

instance {n : S} {r : Rpc S} : Decidable (r.missed n) := by
  cases r <;> unfold missed <;> infer_instance

instance {n : S} (r : Rpc S) : Decidable (r.holds n) := by
  unfold holds
  split <;> infer_instance

def nextSender (l : SenderList S) : Option S → Option S
  | some e => if l.inSenderList e then some e else none
  | none => l.elems.head?

def receive (g : Shared S) (closed : Option S) : Shared S :=
  match g.pc with
  | .idle =>
    { g with pc := match closed with
        | some e => .mark e .prepare
        | none => .resetPoi }
  | .mark e a => { g with list := { g.list with poi := some (e, .busy) }, pc := .load e a }
  | .load e a => { g with pc := .store e a (e ∈ g.list.elems) }
  | .store e a queued =>
    { g with
      list := { g.list with poi := some (e, if queued then .queued else .clear) }
      pc := match a with
        | .prepare => .addWait (some e)
        | .fetched k => .claim k e }
  | .resetPoi => { g with list := { g.list with poi := none }, pc := .addWait none }
  | .addWait k => { g with rcv := .wait, pc := .first k }
  | .first k => { g with pc := .top k (nextSender g.list k) }
  | .top k next =>
    match g.rcv with
    | .inProgress => { g with ready := false, pc := .asleep k }
    | .none => { g with pc := .idle }
    | .wait =>
      { g with pc := match next with
          | some n => .check k n
          | none => .look k }
  | .look k =>
    { g with pc := match nextSender g.list k with
        | some n => .check k n
        | none => .block k }
  | .block k =>
    match g.rcv with
    | .wait => { g with ready := false, pc := .asleep k }
    | .none => { g with pc := .idle }
    | .inProgress => { g with pc := .top k none }
  | .check k n => { g with pc := if g.list.inSenderList n then .take k n else .top k none }
  | .take k n =>
    match g.list.dequeue n with
    | some l => { g with list := l, pc := .mark n (.fetched k) }
    | none => { g with pc := .top k none }
  | .claim k n =>
    if g.rcv = .wait then { g with rcv := .inProgress, pc := .transfer n }
    else { g with pc := .requeue k n }
  | .transfer _ => { g with rcv := .none, pc := .idle }
  | .requeue k n =>
    { g with list := (g.list.insert n (g.list.prio n)).getD g.list, pc := .retry k }
  | .retry k => { g with pc := if g.rcv = .none then .idle else .top k none }
  | .asleep k =>
    { g with pc := if !g.ready then .asleep k else if g.rcv = .none then .idle else .finish }
  | .finish => { g with rcv := .none, pc := .idle }

structure Choice where
  zero : Bool
  prio : ℕ

def Spc.ok (again : Bool) : Spc := if again then .dequeue else .swap false

def Spc.no (again : Bool) : Spc := if again then .waiting else .refused

def send (irq : S → Bool) (s : S) (g : Shared S) (c : Choice) : Spc → Shared S × Spc
  | .idle => (g, .state false)
  | .state again => (g, if g.rcv = .wait then .poi again else .no again)
  | .poi again =>
    (g, match g.list.poi with
      | none => .empty again
      | some (e, _) => if e = s then .ok again else .no again)
  | .empty again => (g, if g.list.elems = [] then .ok again else .head again)
  | .head again => (g, if g.list.elems.head? = some s then .ok again else .no again)
  | .swap again =>
    if g.rcv = .wait then ({ g with rcv := .inProgress }, .deliver)
    else (g, if again then .enqueue else .refused)
  | .refused => (g, if c.zero then .idle else .enqueue)
  | .enqueue =>
    match g.list.insert s c.prio with
    | some l => ({ g with list := l }, .state true)
    | none => (g, .idle)
  | .dequeue =>
    match g.list.dequeue s with
    | some l => ({ g with list := l }, .swap true)
    | none => (g, .waiting)
  | .waiting => (g, if s ∈ g.list.elems ∨ g.pc.holds s then .waiting else .idle)
  | .deliver =>
    if irq s then ({ g with rcv := .none, ready := true }, .idle)
    else ({ g with rcv := if g.rcv = .inProgress then .none else g.rcv }, .activate)
  | .activate =>
    ({ g with rcv := if g.rcv = .inProgress then .none else g.rcv, ready := true }, .idle)

abbrev State (S : Type*) := Interleaving.System S (Shared S) Spc

inductive Act (S : Type*) where
  | receive (closed : Option S)
  | send (s : S) (c : Choice)

def step (irq : S → Bool) (s : State S) : Act S → State S
  | .receive closed => { s with shared := receive s.shared closed }
  | .send e c => s.move e (send irq e s.shared c (s.loc e))

def boot : State S := ⟨⟨.empty, .none, true, .idle⟩, fun _ => .idle⟩

/-- A sender is not put into the list between the load and the last store of a `set_poi` for it. -/
def Tidy (s : State S) : Act S → Prop
  | .receive _ => True
  | .send e _ => s.loc e = .enqueue → ¬s.shared.pc.missed e

instance (s : State S) : ∀ a, Decidable (Tidy s a)
  | .receive _ => isTrue trivial
  | .send _ _ => inferInstanceAs (Decidable (_ → _))

omit [DecidableEq S] in
def Stuck (s : State S) : Prop :=
  ∃ k, s.shared.pc = .asleep k ∧ s.shared.rcv = .wait ∧ s.shared.ready = false ∧
    (∃ e ∈ s.shared.list.elems, (k = none ∨ k = some e) ∧ s.loc e = .waiting) ∧
    ∀ e, s.loc e = .idle ∨ s.loc e = .waiting

namespace Spc

def listed : Spc → Bool
  | .state again | .poi again | .empty again | .head again => again
  | .dequeue | .waiting => true
  | _ => false

def active : Spc → Bool
  | .state again | .poi again | .empty again | .head again => again
  | .dequeue => true
  | _ => false

def eager : Spc → Bool
  | .state again | .poi again => again
  | .dequeue => true
  | _ => false

def promises : Spc → Bool
  | .swap _ => true
  | _ => false

end Spc

def Rpc.key : Rpc S → Option (Option S)
  | .first k | .top k _ | .look k | .block k | .check k _ | .take k _ | .asleep k => some k
  | _ => none

def Rpc.committed (k : Option S) (r : Rpc S) : Prop := r = .block k ∨ r = .asleep k

structure Shared.Sound (g : Shared S) : Prop where
  nodup : g.list.elems.Nodup
  tracks : g.list.Tracks
  busy : ∀ e, g.list.poi = some (e, .busy) → (∃ a, g.pc = .load e a) ∨ ∃ a q, g.pc = .store e a q
  missed : ∀ e, g.pc.missed e → e ∉ g.list.elems
  held : ∀ e, g.pc.holds e → e ∉ g.list.elems
  addWait : ∀ k, g.pc = .addWait k → g.list.ptr = k
  key : ∀ k, g.pc.key = some k → g.rcv = .wait → g.list.ptr = k
  lost : ∀ k, (∃ n, g.pc = .requeue k n) ∨ g.pc = .retry k → g.rcv ≠ .wait

structure Keeps (e : S) (g : Shared S) (l : Spc) : Prop where
  member : e ∈ g.list.elems → l.listed
  held : g.pc.holds e → l.listed
  closed : g.rcv = .wait → g.pc.committed (some e) → e ∈ g.list.elems → l.eager

def Shared.Open (g : Shared S) : Prop :=
  g.rcv = .wait ∧ g.pc.committed none ∧ g.list.elems ≠ []

def Answers (e : S) (g : Shared S) (l : Spc) : Prop :=
  l.promises ∨ l.active ∧ g.list.elems.head? = some e

structure Inv (s : State S) : Prop where
  base : Interleaving.Inv Shared.Sound Keeps (fun _ _ => True) s
  awake : Interleaving.Answered Shared.Open Answers s

variable {s : State S}

omit [DecidableEq S] in
theorem Inv.not_stuck (h : Inv s) : ¬Stuck s := by
  rintro ⟨k, hpc, hw, -, ⟨e, he, hk, hwait⟩, hrest⟩
  rcases hk with rfl | rfl
  · obtain ⟨i, hi⟩ := h.awake ⟨hw, .inr hpc, ne_nil_of_mem he⟩
    rcases hrest i with hr | hr <;> simp [Answers, hr, Spc.promises, Spc.active] at hi
  · have := (h.base.loc e).closed hw (.inr hpc) he
    simp [hwait, Spc.eager] at this

section Receiver

variable {g : Shared S} {e : S} {l : Spc} {k c : Option S} {list : SenderList S} {rcv : Rcv}
  {ready : Bool} {pc pc' : Rpc S}

omit [DecidableEq S]

theorem Shared.Sound.not_busy (h : g.Sound) (hl : ∀ e a, g.pc ≠ .load e a)
    (hs : ∀ e a q, g.pc ≠ .store e a q) (e : S) : g.list.poi ≠ some (e, .busy) := by
  intro hp
  rcases h.busy e hp with ⟨a, ha⟩ | ⟨a, q, ha⟩
  · exact hl e a ha
  · exact hs e a q ha

def Rpc.free : Rpc S → Bool
  | .idle | .mark _ .prepare | .resetPoi | .finish => true
  | _ => false

section

variable (hn : list.elems.Nodup) (ht : list.Tracks)
include hn ht

theorem Shared.Sound.free
    (hb : ∀ e, list.poi ≠ some (e, .busy)) (hf : pc.free = true) :
    Shared.Sound ⟨list, rcv, ready, pc⟩ where
  nodup := hn
  tracks := ht
  busy := fun e he => absurd he (hb e)
  missed := fun e he => by cases pc <;> simp_all [Rpc.missed, Rpc.free]
  held := fun e he => by
    cases pc with
    | mark e a => cases a <;> simp_all [Rpc.holds, Rpc.free]
    | _ => simp_all [Rpc.holds, Rpc.free]
  addWait := fun k hp => by simp only at hp; simp [hp, Rpc.free] at hf
  key := fun k hk => by cases pc <;> simp_all [Rpc.key, Rpc.free]
  lost := fun k hk => by
    rcases hk with ⟨n, hk⟩ | hk <;> simp only at hk <;> simp [hk, Rpc.free] at hf

theorem Shared.Sound.loop
    (hb : ∀ e, list.poi ≠ some (e, .busy)) (hk : pc.key = some k)
    (hptr : rcv = .wait → list.ptr = k) : Shared.Sound ⟨list, rcv, ready, pc⟩ where
  nodup := hn
  tracks := ht
  busy := fun e he => absurd he (hb e)
  missed := fun e he => by cases pc <;> simp_all [Rpc.missed, Rpc.key]
  held := fun e he => by
    cases pc <;> simp_all [Rpc.holds, Rpc.key]
  addWait := fun k hp => by simp only at hp; simp [hp, Rpc.key] at hk
  key := fun k' hk' hw => by
    simp only at hk'
    rw [hk] at hk'
    cases hk'
    exact hptr hw
  lost := fun k hl => by
    rcases hl with ⟨n, hl⟩ | hl <;> simp only at hl <;> simp [hl, Rpc.key] at hk

theorem Shared.Sound.hold
    (hb : ∀ u, list.poi = some (u, .busy) → pc = .load u (.fetched k)) (he : e ∉ list.elems)
    (hpc : pc = .mark e (.fetched k) ∨ pc = .load e (.fetched k) ∨ pc = .claim k e ∨
      pc = .transfer e ∨ pc = .requeue k e ∧ rcv ≠ .wait) :
    Shared.Sound ⟨list, rcv, ready, pc⟩ where
  nodup := hn
  tracks := ht
  busy := fun u hu => .inl ⟨_, hb u hu⟩
  missed := fun u hu => by
    rcases hpc with rfl | rfl | rfl | rfl | ⟨rfl, -⟩ <;> exact hu.elim
  held := fun u hu => by
    rcases hpc with rfl | rfl | rfl | rfl | ⟨rfl, -⟩ <;> (cases hu; exact he)
  addWait := fun k hp => by simp only at hp; simp [hp] at hpc
  key := fun k hk => by
    rcases hpc with rfl | rfl | rfl | rfl | ⟨rfl, -⟩ <;> cases hk
  lost := fun k hl => by
    rcases hl with ⟨n, hl⟩ | hl <;> simp only at hl <;> simp [hl] at hpc
    exact hpc.2

end

end Receiver

variable {g : Shared S} {e : S} {l : Spc} {c : Option S}

theorem receive_sound (h : g.Sound) (c : Option S) : (receive g c).Sound := by
  have hnb := h.not_busy
  obtain ⟨list, rcv, ready, pc⟩ := g
  have hn := h.nodup
  have ht := h.tracks
  cases pc with
  | idle =>
    have hb := hnb (by simp) (by simp)
    cases c with
    | some e | none => exact .free hn ht hb rfl
  | mark e a =>
    have hb : ∀ u, some (e, Tag.busy) = some (u, .busy) → load e a = .load u a := by
      intro u hu
      cases hu
      rfl
    refine ⟨hn, fun u t hp _ => ?_, fun u hu => .inl ⟨a, hb u hu⟩, fun u hu => hu.elim,
      fun u hu => h.held u ?_, by simp [receive], by simp [receive, key], by simp [receive]⟩
    · cases hp
      exact .inr rfl
    · cases a <;> exact hu
  | load e a =>
    refine ⟨hn, ht, fun u hu => .inr ?_, fun u hu => ?_, fun u hu => h.held u ?_, by simp [receive],
      by simp [receive, key], by simp [receive]⟩
    · rcases h.busy u hu with ⟨a', ha⟩ | ⟨a', q, ha⟩ <;> cases ha
      exact ⟨_, _, rfl⟩
    · obtain ⟨rfl, hq⟩ := hu
      exact of_decide_eq_false hq
    · cases a <;> exact hu
  | store e a q =>
    have htag : ∀ u t, some (e, if q = true then Tag.queued else .clear) = some (u, t) →
        u ∈ list.elems → t = .queued ∨ t = .busy := by
      intro u t hp hu
      cases hp
      cases q with
      | true => exact .inl rfl
      | false => exact absurd hu (h.missed e ⟨rfl, rfl⟩)
    have hb : ∀ u, some (e, if q = true then Tag.queued else .clear) ≠ some (u, .busy) := by
      cases q <;> simp
    cases a with
    | prepare =>
      refine ⟨hn, htag, fun u hu => absurd hu (hb u), fun u hu => hu.elim, fun u hu => hu.elim,
        fun k hk => ?_, by simp [receive, key], by simp [receive]⟩
      cases hk
      rfl
    | fetched k => exact .hold (k := k) hn htag (fun u hu => absurd hu (hb u)) (h.held e rfl) (by simp)
  | resetPoi =>
    refine ⟨hn, fun u t hp => (by cases hp), fun u hu => (by cases hu), fun u hu => hu.elim,
      fun u hu => hu.elim, fun k hk => ?_, by simp [receive, key], by simp [receive]⟩
    cases hk
    rfl
  | addWait k =>
    exact .loop hn ht (hnb (by simp) (by simp)) rfl fun _ => h.addWait k rfl
  | first k =>
    exact .loop hn ht (hnb (by simp) (by simp)) rfl fun hw => h.key k rfl hw
  | top k next =>
    have hb := hnb (by simp) (by simp)
    cases rcv with
    | inProgress => exact .loop (k := k) hn ht hb rfl (by simp)
    | none => exact .free hn ht hb rfl
    | wait =>
      have hptr := h.key k rfl rfl
      cases next with
      | some n | none => exact .loop (k := k) hn ht hb rfl fun _ => hptr
  | look k | check k n =>
    have hb := hnb (by simp) (by simp)
    simp only [receive]
    split
    · exact .loop (k := k) hn ht hb rfl fun hw => h.key k rfl hw
    · exact .loop (k := k) hn ht hb rfl fun hw => h.key k rfl hw
  | block k =>
    have hb := hnb (by simp) (by simp)
    cases rcv with
    | inProgress => exact .loop (k := k) hn ht hb rfl (by simp)
    | none => exact .free hn ht hb rfl
    | wait => exact .loop (k := k) hn ht hb rfl fun _ => h.key k rfl rfl
  | take k n =>
    have hb := hnb (by simp) (by simp)
    simp only [receive, dequeue]
    split_ifs with hm
    · refine .hold (k := k) (hn.erase _) (ht.unlink hn) (fun u hu => ?_) hn.not_mem_erase (by simp)
      exact absurd (busy_unlink.1 hu) (hb u)
    · exact .loop (k := k) hn ht hb rfl fun hw => h.key k rfl hw
  | claim k n =>
    have hb := hnb (by simp) (by simp)
    simp only [receive]
    split
    · exact .hold (k := k) hn ht (fun u hu => absurd hu (hb u)) (h.held n rfl) (by simp)
    · next hw => exact .hold (k := k) hn ht (fun u hu => absurd hu (hb u)) (h.held n rfl) (by simp [hw])
  | transfer n | finish => exact .free hn ht (hnb (by simp) (by simp)) rfl
  | requeue k n =>
    have hb := hnb (by simp) (by simp)
    have hm : n ∉ list.elems := h.held n rfl
    simp only [receive, SenderList.insert, if_neg hm, Option.getD_some]
    refine ⟨SenderList.nodup_link hn hm, ht.link, fun u hu => ?_, fun u hu => hu.elim, fun u hu => hu.elim,
      by simp, by simp [key], fun _ _ => h.lost k (.inl ⟨n, rfl⟩)⟩
    exact absurd (SenderList.busy_link.1 hu) (hb u)
  | retry k =>
    have hb := hnb (by simp) (by simp)
    simp only [receive]
    split
    · exact .free hn ht hb rfl
    · exact .loop (k := k) hn ht hb rfl fun hw => absurd hw (h.lost k (.inr rfl))
  | asleep k =>
    have hb := hnb (by simp) (by simp)
    simp only [receive]
    split_ifs
    · exact .loop (k := k) hn ht hb rfl fun hw => h.key k rfl hw
    · exact .free hn ht hb rfl
    · exact .free hn ht hb rfl

theorem mem_receive (h : e ∈ (receive g c).list.elems) : e ∈ g.list.elems ∨ g.pc.holds e := by
  obtain ⟨list, rcv, ready, pc⟩ := g
  cases pc with
  | take k n =>
    simp only [receive, dequeue] at h
    split_ifs at h
    · exact .inl (mem_of_mem_erase h)
    · exact .inl h
  | requeue k n =>
    simp only [receive, SenderList.insert] at h
    split_ifs at h
    · exact .inl h
    · rcases mem_link.1 h with rfl | h
      · exact .inr rfl
      · exact .inl h
  | _ =>
    simp only [receive] at h
    (repeat' split at h) <;> exact .inl h

theorem holds_receive (h : (receive g c).pc.holds e) : g.pc.holds e ∨ e ∈ g.list.elems := by
  obtain ⟨list, rcv, ready, pc⟩ := g
  cases pc with
  | mark u a | load u a | store u a q => cases a <;> exact .inl h
  | take k n =>
    simp only [receive, dequeue] at h
    split_ifs at h with hm
    · cases h
      exact .inr hm
    · exact h.elim
  | _ =>
    simp only [receive] at h
    (repeat' split at h) <;> first | exact .inl h | exact h.elim

theorem committed_receive {k : Option S} (hw : (receive g c).rcv = .wait)
    (h : (receive g c).pc.committed k) : (receive g c).list = g.list ∧ g.rcv = .wait ∧
      (g.pc.committed k ∨ g.pc = .look k ∧ nextSender g.list k = none) := by
  obtain ⟨list, rcv, ready, pc⟩ := g
  cases pc with
  | top k' next => cases rcv <;> cases next <;> simp [receive, committed] at h hw
  | look k' =>
    simp only [receive] at h
    split at h <;> simp only [committed, reduceCtorEq, or_false, or_self, block.injEq] at h
    next hs =>
      subst h
      exact ⟨rfl, hw, .inr ⟨rfl, hs⟩⟩
  | block k' =>
    cases rcv <;> simp [receive, committed] at h hw
    subst h
    exact ⟨rfl, rfl, .inl (.inl rfl)⟩
  | asleep k' =>
    simp only [receive] at h
    split_ifs at h <;> simp [committed] at h
    subst h
    exact ⟨rfl, hw, .inl (.inr rfl)⟩
  | _ =>
    simp only [receive] at h
    (repeat' split at h) <;> simp [committed] at h

theorem Shared.Sound.not_mem_of_look (h : g.Sound) (hw : g.rcv = .wait) (hpc : g.pc = .look (some e))
    (hn : nextSender g.list (some e) = none) : e ∉ g.list.elems := by
  intro he
  have hptr := h.key (some e) (by rw [hpc]; rfl) hw
  obtain ⟨⟨u, t⟩, hp, rfl⟩ := Option.map_eq_some_iff.1 hptr
  rcases h.tracks u t hp he with rfl | rfl
  · simp [nextSender, inSenderList, hp] at hn
  · exact h.not_busy (by simp [hpc]) (by simp [hpc]) u hp

theorem Keeps.receive (h : Keeps e g l) (hg : g.Sound) : Keeps e (receive g c) l where
  member := fun he => (mem_receive he).elim h.member h.held
  held := fun he => (holds_receive he).elim h.held h.member
  closed := fun hw hc he => by
    obtain ⟨hl, hw, hc | ⟨hpc, hn⟩⟩ := committed_receive hw hc
    · exact h.closed hw hc (hl ▸ he)
    · exact absurd (hl ▸ he) (hg.not_mem_of_look hw hpc hn)

theorem Inv.receive (h : Inv s) (c : Option S) : Inv { s with shared := receive s.shared c } where
  base := ⟨receive_sound h.base.shared c, fun i => (h.base.loc i).receive h.base.shared,
    fun _ _ _ => trivial⟩
  awake := by
    rintro ⟨hw, hc, hne⟩
    obtain ⟨hl, hw, hc | ⟨hpc, hn⟩⟩ := committed_receive hw hc
    · obtain ⟨i, hi⟩ := h.awake ⟨hw, hc, hl ▸ hne⟩
      exact ⟨i, hi.imp_right fun ha => ⟨ha.1, hl ▸ ha.2⟩⟩
    · exact absurd (head?_eq_none_iff.1 hn) (hl ▸ hne)

variable {irq : S → Bool} {d : Choice} {g' : Shared S} {l' : Spc} {u : S}

inductive Touch (e : S) (g : Shared S) : Shared S → Prop where
  | same : Touch e g g
  | link (n : ℕ) (h : e ∉ g.list.elems) : Touch e g { g with list := g.list.link e n }
  | unlink (h : e ∈ g.list.elems) : Touch e g { g with list := g.list.unlink e }
  | rcv (r : Rcv) (b : Bool) (h : r = .wait → g.rcv = .wait) :
      Touch e g { g with rcv := r, ready := b }

theorem send_touch : Touch e g (send irq e g d l).1 := by
  cases l with
  | swap again =>
    rw [send]
    split
    · exact .rcv _ _ (by simp)
    · exact .same
  | enqueue =>
    rw [send, SenderList.insert]
    split_ifs with h
    · exact .same
    · exact .link _ h
  | dequeue =>
    rw [send, dequeue]
    split_ifs with h
    · exact .unlink h
    · exact .same
  | deliver =>
    rw [send]
    split_ifs with hi hr
    · exact .rcv _ _ (by simp)
    · exact .rcv _ _ (by simp)
    · exact .same
  | activate =>
    rw [send]
    refine .rcv _ _ fun h => ?_
    split_ifs at h
    exact h
  | _ => exact .same

section

variable (h : Touch e g g')
include h

theorem Touch.pc : g'.pc = g.pc := by
  cases h <;> rfl

theorem Touch.wait (hw : g'.rcv = .wait) : g.rcv = .wait := by
  cases h with
  | rcv r b h => exact h hw
  | _ => exact hw

theorem Touch.mem_of_ne (hne : u ≠ e) : u ∈ g'.list.elems ↔ u ∈ g.list.elems := by
  cases h with
  | link n h =>
    rw [mem_link]
    exact or_iff_right hne
  | unlink h => exact mem_erase_of_ne hne
  | _ => exact .rfl

theorem Touch.sound (hg : g.Sound) (hh : e ∉ g.list.elems → e ∈ g'.list.elems →
    ¬g.pc.holds e ∧ ¬g.pc.missed e) : g'.Sound := by
  cases h with
  | same => exact hg
  | link n he =>
    obtain ⟨hnh, hns⟩ := hh he (mem_link.2 (.inl rfl))
    refine ⟨SenderList.nodup_link hg.nodup he, hg.tracks.link,
      fun u hu => hg.busy u (SenderList.busy_link.1 hu), fun u hp hu => ?_, fun u hu hm => ?_,
      fun k hk => ptr_link.trans (hg.addWait k hk),
      fun k hk hw => ptr_link.trans (hg.key k hk hw), hg.lost⟩
    · rcases mem_link.1 hu with rfl | hu
      · exact hns hp
      · exact hg.missed u hp hu
    · rcases mem_link.1 hm with rfl | hm
      · exact hnh hu
      · exact hg.held u hu hm
  | unlink he =>
    exact ⟨hg.nodup.erase _, hg.tracks.unlink hg.nodup,
      fun u hu => hg.busy u (busy_unlink.1 hu),
      fun u hp hu => hg.missed u hp (mem_of_mem_erase hu),
      fun u hu hm => hg.held u hu (mem_of_mem_erase hm),
      fun k hk => ptr_unlink.trans (hg.addWait k hk),
      fun k hk hw => ptr_unlink.trans (hg.key k hk hw), hg.lost⟩
  | rcv r b hr =>
    exact { hg with
      key := fun k hk hw => hg.key k hk (hr hw), lost := fun k hk hw => hg.lost k hk (hr hw) }

end

theorem Keeps.touch (h : Keeps u g l) (ht : Touch e g g') (hne : u ≠ e) : Keeps u g' l where
  member := fun hu => h.member ((ht.mem_of_ne hne).1 hu)
  held := fun hu => h.held (ht.pc ▸ hu)
  closed := fun hw hc hu => h.closed (ht.wait hw) (ht.pc ▸ hc) ((ht.mem_of_ne hne).1 hu)

theorem mem_send (hn : e ∉ g.list.elems) (h : e ∈ (send irq e g d l).1.list.elems) :
    l = .enqueue := by
  cases l with
  | enqueue => rfl
  | dequeue =>
    rw [send, dequeue, if_neg hn] at h
    exact absurd h hn
  | _ =>
    simp only [send] at h
    (repeat' split at h) <;> exact absurd h hn

omit [DecidableEq S] in
theorem Keeps.out (he : e ∉ g.list.elems) (hh : ¬g.pc.holds e) : Keeps e g l :=
  ⟨fun h => absurd h he, fun h => absurd h hh, fun _ _ h => absurd h he⟩

theorem Keeps.send (h : Keeps e g l) (hg : g.Sound) :
    Keeps e (send irq e g d l).1 (send irq e g d l).2 := by
  have hout : l.listed = false → e ∉ g.list.elems ∧ ¬g.pc.holds e := by
    intro hl
    exact ⟨fun he => by simp [h.member he] at hl, fun he => by simp [h.held he] at hl⟩
  -- the first round is outside of the list
  have hfirst : ∀ m, l.listed = false → Keeps e g m := fun m hl => .out (hout hl).1 (hout hl).2
  cases l with
  | idle | refused => exact hfirst _ rfl
  | state again =>
    cases again with
    | false => exact hfirst _ rfl
    | true =>
      rw [Handshake.send]
      split_ifs with hw
      · exact ⟨fun _ => rfl, fun _ => rfl, fun _ _ _ => rfl⟩
      · exact ⟨fun _ => rfl, fun _ => rfl, fun hw' => absurd hw' hw⟩
  | poi again =>
    cases again with
    | false => exact hfirst _ rfl
    | true =>
      rw [Handshake.send]
      refine ⟨?_, ?_, ?_⟩
      · intro _
        split
        · rfl
        · split <;> rfl
      · intro _
        split
        · rfl
        · split <;> rfl
      · intro hw hc he
        -- the receiver waits for this sender
        have hptr : g.list.ptr = some e := hg.key (some e) (by rcases hc with hc | hc <;> rw [hc] <;> rfl) hw
        obtain ⟨⟨v, t⟩, hp, rfl⟩ := Option.map_eq_some_iff.1 hptr
        simp [hp, Spc.ok, Spc.eager]
  | empty again | head again =>
    cases again with
    | false => exact hfirst _ rfl
    | true =>
      rw [Handshake.send]
      refine ⟨fun _ => ?_, fun _ => ?_, fun hw hc he => absurd (h.closed hw hc he) (by simp [Spc.eager])⟩
      · split <;> rfl
      · split <;> rfl
  | swap again =>
    obtain ⟨he, hh⟩ := hout rfl
    rw [Handshake.send]
    split
    · exact .out he hh
    · exact .out he hh
  | enqueue =>
    obtain ⟨he, hh⟩ := hout rfl
    rw [Handshake.send, SenderList.insert, if_neg he]
    exact ⟨fun _ => rfl, fun _ => rfl, fun _ _ _ => rfl⟩
  | dequeue =>
    rw [Handshake.send, dequeue]
    split_ifs with he
    · exact .out hg.nodup.not_mem_erase fun hh => hg.held e hh he
    · exact ⟨fun _ => rfl, fun _ => rfl, fun _ _ h => absurd h he⟩
  | waiting =>
    rw [Handshake.send]
    split_ifs with hm
    · exact h
    · exact .out (fun he => hm (.inl he)) fun hh => hm (.inr hh)
  | deliver =>
    obtain ⟨he, hh⟩ := hout rfl
    rw [Handshake.send]
    split_ifs <;> exact .out he hh
  | activate =>
    obtain ⟨he, hh⟩ := hout rfl
    exact .out he hh

omit [DecidableEq S] in
theorem Shared.Open.poi (h : g.Open) (hg : g.Sound) : g.list.poi = none := by
  have hptr := hg.key none (by rcases h.2.1 with hc | hc <;> rw [hc] <;> rfl) h.1
  exact Option.map_eq_none_iff.1 hptr

theorem answers_send (hg : g.Sound) (hneed : (send irq e g d l).1.Open)
    (hno : ¬Answers e (send irq e g d l).1 (send irq e g d l).2) :
    g.Open ∧ ¬Answers e g l ∧ ∀ u m, u ≠ e → Answers u g m → Answers u (send irq e g d l).1 m := by
  cases l with
  | idle | refused | waiting => exact ⟨hneed, by simp [Answers, Spc.promises, Spc.active], fun _ _ _ h => h⟩
  | state again =>
    have hw : g.rcv = .wait := hneed.1
    cases again with
    | false => exact ⟨hneed, by simp [Answers, Spc.promises, Spc.active], fun _ _ _ h => h⟩
    | true =>
      rw [send, if_pos hw] at hno
      exact ⟨hneed, hno, fun _ _ _ h => h⟩
  | poi again =>
    cases again with
    | false => exact ⟨hneed, by simp [Answers, Spc.promises, Spc.active], fun _ _ _ h => h⟩
    | true =>
      have hp : g.list.poi = none := Shared.Open.poi (g := g) hneed hg
      simp only [send, hp] at hno
      exact ⟨hneed, hno, fun _ _ _ h => h⟩
  | empty again =>
    have hne : g.list.elems ≠ [] := hneed.2.2
    cases again with
    | false => exact ⟨hneed, by simp [Answers, Spc.promises, Spc.active], fun _ _ _ h => h⟩
    | true =>
      rw [send, if_neg hne] at hno
      exact ⟨hneed, hno, fun _ _ _ h => h⟩
  | head again =>
    cases again with
    | false => exact ⟨hneed, by simp [Answers, Spc.promises, Spc.active], fun _ _ _ h => h⟩
    | true =>
      refine ⟨hneed, ?_, fun _ _ _ h => h⟩
      rintro (hp | ⟨-, hh⟩)
      · cases hp
      · rw [send, if_pos hh] at hno
        exact hno (.inr ⟨rfl, hh⟩)
  | swap again =>
    rw [send] at hneed
    split at hneed
    · cases hneed.1
    · next hw => exact absurd hneed.1 hw
  | enqueue =>
    rw [send, SenderList.insert] at hneed hno ⊢
    split_ifs with he
    · rw [if_pos he] at hneed
      exact ⟨hneed, by simp [Answers, Spc.promises, Spc.active], fun _ _ _ h => h⟩
    · rw [if_neg he] at hneed hno
      -- the new one is not the first, so the first one stays
      rcases head_link (l := g.list) (e := e) (n := d.prio) with hh | ⟨hne, hh⟩
      · exact absurd (.inr ⟨rfl, hh⟩) hno
      · refine ⟨⟨hneed.1, hneed.2.1, hne⟩, by simp [Answers, Spc.promises, Spc.active], ?_⟩
        intro u m _ ha
        exact ha.imp_right fun hc => ⟨hc.1, hh.trans hc.2⟩
  | dequeue =>
    rw [send, dequeue] at hneed hno ⊢
    split_ifs with he
    · rw [if_pos he] at hno
      exact absurd (.inl rfl) hno
    · rw [if_neg he] at hneed
      refine ⟨hneed, ?_, fun _ _ _ h => h⟩
      rintro (hp | ⟨-, hh⟩)
      · cases hp
      · exact he (mem_of_mem_head? hh)
  | deliver =>
    rw [send] at hneed ⊢
    split_ifs at hneed ⊢
    · cases hneed.1
    · cases hneed.1
    · exact ⟨hneed, by simp [Answers, Spc.promises, Spc.active], fun _ _ _ h => h⟩
  | activate =>
    have hw : g.rcv = .wait := send_touch.wait hneed.1
    exact ⟨⟨hw, hneed.2⟩, by simp [Answers, Spc.promises, Spc.active], fun _ _ _ h => h⟩

theorem Inv.send (h : Inv s) (ha : Tidy s (.send e d)) :
    Inv (s.move e (send irq e s.shared d (s.loc e))) where
  base := by
    have hl := h.base.loc e
    refine h.base.move (fun _ _ h => h) (send_touch.sound h.base.shared fun hn hm => ?_)
      (hl.send h.base.shared) fun j hj => ⟨(h.base.loc j).touch send_touch hj, trivial⟩
    have henq := mem_send hn hm
    refine ⟨fun hh => ?_, ha henq⟩
    have hlisted := hl.held hh
    simp [henq, Spc.listed] at hlisted
  awake := h.awake.move fun hneed hno => by
    obtain ⟨hopen, hself, hrest⟩ := answers_send h.base.shared hneed hno
    exact ⟨hopen, hself, fun j hj => hrest j _ hj⟩

theorem Inv.step {a : Act S} (h : Inv s) (ha : Tidy s a) : Inv (step irq s a) := by
  cases a with
  | receive c => exact h.receive c
  | send e d => exact h.send ha

omit [DecidableEq S] in
theorem boot_inv : Inv (boot : State S) where
  base := by
    refine ⟨.free nodup_nil (fun e t hp => by cases hp) (fun e hp => by cases hp) rfl,
      fun i => .out (by simp [boot, empty]) (fun h => h), fun _ _ _ => trivial⟩
  awake := fun h => absurd rfl h.2.2

theorem not_stuck_of_tidy {as : List (Act S)} (h : Machine.Along (step irq) Tidy boot as) :
    Machine.Along (step irq) (fun s a => ¬Stuck (step irq s a)) boot as :=
  Machine.Along.imp (fun _ _ => Inv.step) (fun _ _ hs ha => (hs.step ha).not_stuck) boot_inv h

theorem not_stuck_receive_send : Machine.Along (step fun _ => false)
    (fun s a => ¬Stuck (step (fun _ => false) s a)) (boot : State Unit)
    (replicate 9 (.receive (some ())) ++ replicate 6 (.send () ⟨false, 0⟩)) := by
  apply not_stuck_of_tidy
  decide

theorem stuck_set_poi : Stuck (Machine.run (step fun _ => false) (boot : State Unit)
    (replicate 3 (.receive (some ())) ++ replicate 5 (.send () ⟨false, 0⟩) ++
      replicate 6 (.receive (some ())))) :=
  ⟨some (), rfl, rfl, rfl, ⟨(), by decide, .inr rfl, rfl⟩, fun _ => .inr rfl⟩

end Fiasco.Ipc.Handshake
