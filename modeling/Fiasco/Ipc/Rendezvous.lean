import Fiasco.Ipc.WaitQueue
import Fiasco.Lib.Custody

/-!
# Senders and receivers meet in the wait queue

Whoever takes a participant out of the wait queue holds it until it has completed the message. A
participant in the queue, or held by another one, is in its blocking place with the state that
belongs to it, or is just about to set it.
-/

namespace Fiasco.Ipc.WaitQueue

open SenderList Bool
open Interleaving (Custody Free)

variable {T : Type*}

def Pc.asleep : Pc T → Bool
  | .receiverAsleep | .sendAsleep _ | .senderAsleep | .replyAsleep => true
  | _ => false

def AtRest (s : State T) : Prop :=
  ∀ t, s.loc t = .idle ∨ s.loc t = .failed ∨ (s.loc t).asleep = true ∧ (s.shared.tcb t).ready = false

instance [Fintype T] [DecidableEq T] (s : State T) : Decidable (AtRest s) :=
  inferInstanceAs (Decidable (∀ _, _))

def Stuck (irq : T → Bool) (s : State T) : Prop :=
  AtRest s ∧ ∃ r, s.loc r = .receiverAsleep ∧ ∃ t,
    (t ∈ s.shared.waitQ.elems ∧ (irq t = true ∨ s.loc t = .senderAsleep)) ∨
      some t ∈ (s.shared.tcb r).list.elems

def Lost (s : State T) : Prop :=
  ∃ t, (s.shared.tcb t).transferred = true ∧
    (s.loc t = .failed ∨ AtRest s ∧ (s.loc t = .senderAsleep ∨ ∃ r, s.loc t = .sendAsleep r))

structure Settled (irq : T → Bool) (s : State T) : Prop where
  not_stuck : ¬Stuck irq s
  not_lost : ¬Lost s

def Pc.second : Pc T → Option T
  | .meet r (.state true) => some r
  | _ => none

def Pc.completes : Pc T → Option T
  | .serve e (.complete true) => some e
  | _ => none

/-- A sender does not look at a receiver before it has set `Thread_receive_wait`, and a receiver
does not complete a message before its sender has set `Thread_send_wait`. -/
def Timely (s : State T) : Act T → Prop
  | .move t _ => (∀ r ∈ (s.loc t).second, (s.shared.tcb r).receiveWait = true) ∧
      ∀ e ∈ (s.loc t).completes, s.loc e ≠ .senderQueued
  | .reply _ => True

instance [DecidableEq T] (s : State T) : ∀ a, Decidable (Timely s a)
  | .move _ _ => inferInstanceAs (Decidable (_ ∧ _))
  | .reply _ => isTrue trivial

def Pc.holds : Pc T → Option T
  | .serve e _ => some e
  | .meet r _ => some r
  | _ => none

namespace Tcb

structure Clear (b : Tcb T) : Prop where
  sendWait : b.sendWait = false
  sendInProgress : b.sendInProgress = false
  receiveWait : b.receiveWait = false
  receiveInProgress : b.receiveInProgress = false
  transferFailed : b.transferFailed = false
  list : b.list.elems = []

structure Replies (b : Tcb T) : Prop where
  sendWait : b.sendWait = false
  sendInProgress : b.sendInProgress = false
  receiveWait : b.receiveWait = true → b.prepared = true
  receiveInProgress : b.receiveInProgress = false
  transferFailed : b.transferFailed = false
  list : b.list.elems = []

structure Sends (b : Tcb T) (l : Pc T) (progress sent : Bool) : Prop where
  pc : l = .senderQueued ∨ l = .test ∨ l = .senderAsleep
  wait : l ≠ .senderQueued → b.sendWait = true
  progress : b.sendInProgress = progress
  receiveWait : b.receiveWait = false
  transferFailed : b.transferFailed = false
  list : b.list.elems = []
  sent : b.transferred = sent

def Asks (irq : Bool) (b : Tcb T) (l : Pc T) : Prop :=
  if irq then l = .idle ∧ b.queued = true ∧ b.Clear else b.Sends l false false

structure Listens (b : Tcb T) (l : Pc T) : Prop where
  pc : l = .receiverQueued ∧ b.receiveWait = false ∨
    l = .receiverAsleep ∧ b.receiveWait = true ∧ b.ready = false
  sendWait : b.sendWait = false
  sendInProgress : b.sendInProgress = false
  receiveInProgress : b.receiveInProgress = false
  transferFailed : b.transferFailed = false

structure Met (b : Tcb T) (l : Pc T) (t : T) (listed : Bool) : Prop where
  listens : b.Listens l
  ptr : b.list.ptr = some (some t)
  list : b.list.elems = if listed then [some t] else []

structure Claimed (b : Tcb T) (l : Pc T) (progress : Bool) : Prop where
  pc : l = .receiverAsleep
  ready : b.ready = false
  sendWait : b.sendWait = false
  sendInProgress : b.sendInProgress = false
  receiveWait : b.receiveWait = false
  receiveInProgress : b.receiveInProgress = progress
  transferFailed : b.transferFailed = false
  list : b.list.elems = []

def Out (irq : Bool) (b : Tcb T) : Pc T → Prop
  | .idle => b.Clear
  | .failed => irq = false ∧ b.Clear ∧ b.transferred = false
  | .dequeueSender | .resetPoi | .enqueueReceiver => irq = false ∧ b.Clear
  | .serve _ _ | .delMask => irq = false ∧ b.transferFailed = false ∧ b.list.elems = []
  | .wake waiting => irq = false ∧ waiting = false ∧ b.Clear
  | .dequeueReceiver | .prepareSend | .enqueueSender =>
    b.Clear ∧ b.transferred = false ∧ (irq = true → b.queued = true)
  | .meet _ p =>
    match p with
    | .delProgress ok | .change ok =>
      irq = false ∧ b.transferFailed = false ∧ b.list.elems = [] ∧ b.transferred = ok
    | .activate ok => irq = false ∧ b.Replies ∧ b.transferred = ok ∧ (ok = false → b.receiveWait = false)
    | .finish => irq = true ∧ b.Clear
    | .addWait | .delWait =>
      irq = false ∧ b.transferFailed = false ∧ b.list.elems = [] ∧ b.transferred = false
    | _ => b.transferFailed = false ∧ b.list.elems = [] ∧ b.transferred = false ∧ (irq = true → b.Clear)
  | .dequeue wait failed =>
    irq = false ∧ wait = false ∧ failed = false ∧ b.Replies ∧ b.transferred = true
  | .replyTest => irq = false ∧ b.Replies
  | .replyAsleep => irq = false ∧ b.Replies ∧ (b.ready = true → b.receiveWait = false)
  | _ => False

structure Broken (b : Tcb T) (l : Pc T) : Prop where
  pc : l = .senderQueued ∨ l = .test ∨ l = .senderAsleep
  sendInProgress : b.sendInProgress = true
  sent : b.transferred = false

structure Served (b : Tcb T) (l : Pc T) : Prop where
  pc : l = .test ∨ l = .senderAsleep ∧ b.ready = true
  replies : b.Replies
  sent : b.transferred = true

end Tcb

structure View (T : Type*) where
  tcb : Tcb T
  place : Option Bool

inductive Stand (irq : Bool) (v : View T) (l : Pc T) : Prop where
  | out (hp : v.place = none) (h : v.tcb.Out irq l)
  | asks (hp : v.place = some true) (h : v.tcb.Asks irq l)
  | listens (hp : v.place = some false) (hi : irq = false) (h : v.tcb.Listens l)
      (hl : v.tcb.list.elems = [])
  | served (hp : v.place = none) (hi : irq = false) (h : v.tcb.Served l)
  | woken (hp : v.place = none) (hi : irq = false) (hl : l = .receiverAsleep)
      (hr : v.tcb.ready = true) (h : v.tcb.Clear)
  | broken (hp : v.place = none) (hi : irq = false) (h : v.tcb.Broken l)

def Hold (irq : Bool) (t : T) (b : Tcb T) (l : Pc T) : Pc T → Prop
  | .serve _ p =>
    match p with
    | .prepare | .addProgress | .mark => b.Asks irq l
    | .transfer => irq = false ∧ b.Sends l true false
    | .complete ok => irq = false ∧ b.Sends l true ok
  | .meet _ p =>
    irq = false ∧
      match p with
      | .setPartner => b.Listens l ∧ b.list.elems = []
      | .state again | .poi again => b.Met l t again
      | .swap _ | .addWait | .insert => b.Met l t false
      | .remove => b.Met l t true
      | .delWait | .deliver | .delProgress _ | .finish => b.Claimed l true
      | .change _ | .activate _ => b.Claimed l false
      | .empty _ | .head _ => False
  | _ => False

theorem Stand.asks_of_place {k : Bool} (h : Stand k v l) (hp : v.place = some true) :
    v.tcb.Asks k l := by
  cases h with
  | asks _ h => exact h
  | out hn | listens hn | served hn | woken hn | broken hn => simp [hp] at hn

theorem Stand.listens_of_place {k : Bool} (h : Stand k v l)
    (hp : v.place = some false) : k = false ∧ v.tcb.Listens l ∧ v.tcb.list.elems = [] := by
  cases h with
  | listens _ hi h hl => exact ⟨hi, h, hl⟩
  | out hn | asks hn | served hn | woken hn | broken hn => simp [hp] at hn

variable [DecidableEq T]

def view (t : T) (g : Shared T) : View T :=
  ⟨g.tcb t, if t ∈ g.waitQ.elems then some g.hasSenders else none⟩

structure Inv (irq : T → Bool) (s : State T) : Prop where
  nodup : s.shared.waitQ.elems.Nodup
  custody : Custody Pc.holds view (fun x => Stand (irq x))
    (fun t lt x v l => v.place = none ∧ Hold (irq x) t v.tcb l lt) s

def Pc.blocks (irq : Bool) : Pc T → Bool
  | .idle => irq
  | .receiverQueued | .receiverAsleep | .senderQueued | .test | .senderAsleep => true
  | _ => false

section Places

omit [DecidableEq T]

variable {irq : Bool} {t : T} {b : Tcb T} {v : View T} {l m : Pc T} {s : State T}

theorem Tcb.Sends.blocks {progress sent : Bool} (h : b.Sends l progress sent) :
    l.blocks irq = true := by
  rcases h.pc with rfl | rfl | rfl <;> rfl

theorem Tcb.Asks.blocks (h : b.Asks irq l) : l.blocks irq = true := by
  cases irq with
  | true =>
    rw [h.1]
    rfl
  | false => exact Tcb.Sends.blocks h

theorem Tcb.Asks.pc (h : b.Asks irq l) :
    l = .idle ∨ l = .senderQueued ∨ l = .test ∨ l = .senderAsleep := by
  cases irq with
  | true => exact .inl h.1
  | false => exact .inr (Tcb.Sends.pc h)

theorem Tcb.Listens.blocks (h : b.Listens l) : l.blocks irq = true := by
  rcases h.pc with ⟨rfl, -⟩ | ⟨rfl, -⟩ <;> rfl

theorem Tcb.Claimed.blocks {progress : Bool} (h : b.Claimed l progress) : l.blocks irq = true := by
  rw [h.pc]
  rfl

theorem Hold.kinds (h : Hold irq t b l m) : b.Asks irq l ∨ irq = false ∧
    ((∃ pr sent, b.Sends l pr sent) ∨ b.Listens l ∨ ∃ pr, b.Claimed l pr) := by
  cases m with
  | serve e p =>
    cases p with
    | prepare | addProgress | mark => exact .inl h
    | transfer | complete => exact .inr ⟨h.1, .inl ⟨_, _, h.2⟩⟩
  | meet r p =>
    obtain ⟨hi, h⟩ := h
    refine .inr ⟨hi, .inr ?_⟩
    cases p with
    | setPartner => exact .inl h.1
    | state | poi | swap | addWait | insert | remove => exact .inl h.listens
    | delWait | deliver | delProgress | finish | change | activate => exact .inr ⟨_, h⟩
    | empty | head => exact h.elim
  | _ => exact h.elim

theorem Hold.blocks (h : Hold irq t b l m) : l.blocks irq = true := by
  rcases h.kinds with h | ⟨-, ⟨_, _, h⟩ | h | ⟨_, h⟩⟩
  · exact h.blocks
  · exact h.blocks
  · exact h.blocks
  · exact h.blocks

theorem Hold.holds (h : Hold irq t b l m) : m.holds ≠ none := by
  cases m with
  | serve e p => exact Option.some_ne_none e
  | meet r p => exact Option.some_ne_none r
  | _ => exact h.elim

theorem Hold.asks (h : Hold true t b l m) : b.Asks true l := by
  rcases h.kinds with h | ⟨hi, -⟩
  · exact h
  · simp at hi

theorem Stand.out_or_asks (h : Stand true v l) : v.place = none ∧ v.tcb.Out true l ∨ v.tcb.Asks true l := by
  cases h with
  | out hp h => exact .inl ⟨hp, h⟩
  | asks _ h => exact .inr h
  | listens _ hn | served _ hn | woken _ hn | broken _ hn => exact absurd hn (by simp)

theorem Stand.out_of_blocks (h : Stand irq v l) (hl : l.blocks irq = false) :
    v.place = none ∧ v.tcb.Out irq l := by
  cases h with
  | out hp h => exact ⟨hp, h⟩
  | asks _ h | listens _ _ h => simp [h.blocks] at hl
  | served _ _ h => rcases h.pc with rfl | ⟨rfl, -⟩ <;> simp [Pc.blocks] at hl
  | woken _ _ h => simp [h, Pc.blocks] at hl
  | broken _ _ h => rcases h.pc with rfl | rfl | rfl <;> simp [Pc.blocks] at hl

theorem Tcb.Replies.clear (h : b.Replies) (hw : b.receiveWait = false) : b.Clear :=
  { h with receiveWait := hw }

theorem Stand.senderAsleep (h : Stand irq v .senderAsleep) :
    v.tcb.transferred = false ∨ v.tcb.ready = true := by
  cases h with
  | out _ h => exact h.elim
  | asks _ h =>
    cases irq with
    | true => simpa using h.1
    | false => exact .inl (Tcb.Sends.sent h)
  | listens _ _ h => simpa using h.pc
  | served _ _ h => exact .inr (by simpa using h.pc)
  | woken _ _ h => simp at h
  | broken _ _ h => exact .inl h.sent

theorem Stand.receiverAsleep (h : Stand irq v .receiverAsleep) :
    v.place = some false ∧ v.tcb.list.elems = [] ∨ v.tcb.ready = true := by
  cases h with
  | out _ h => exact h.elim
  | asks _ h => exact absurd h.pc (by simp)
  | listens hp _ _ hl => exact .inl ⟨hp, hl⟩
  | served _ _ h | broken _ _ h => simpa using h.pc
  | woken _ _ _ hr => exact .inr hr

theorem Stand.receiver (h : Stand irq v l) (hp : v.place = some false) :
    irq = false ∧ l ≠ .senderAsleep := by
  cases h with
  | listens _ hi h => exact ⟨hi, by rcases h.pc with ⟨rfl, -⟩ | ⟨rfl, -⟩ <;> simp⟩
  | out hn | asks hn | served hn | woken hn | broken hn => simp [hp] at hn

theorem AtRest.holds_eq_none (h : AtRest s) (i : T) : (s.loc i).holds = none := by
  rcases h i with h | h | ⟨h, -⟩
  · rw [h]
    rfl
  · rw [h]
    rfl
  · cases hl : s.loc i <;> simp [hl, Pc.asleep, Pc.holds] at h ⊢

theorem AtRest.not_ready (h : AtRest s) (hl : (s.loc t).asleep = true) :
    (s.shared.tcb t).ready = false := by
  rcases h t with h | h | h
  · simp [h, Pc.asleep] at hl
  · simp [h, Pc.asleep] at hl
  · exact h.2

end Places

variable {irq : T → Bool} {s : State T} {i x : T} {g : Shared T} {l l' : Pc T} {c : Choice}
  {f : Tcb T → Tcb T} {v : View T}

structure Aside (irq : T → Bool) (s : State T) (i : T) (l : Pc T) : Prop where
  loc : s.loc i = l
  free : Free Pc.holds s i
  place : (view i s.shared).place = none
  out : (s.shared.tcb i).Out (irq i) l

theorem Inv.aside (h : Inv irq s) (hl : s.loc i = l) (hb : l.blocks (irq i) = false) :
    Aside irq s i l := by
  subst hl
  rcases h.custody.cases i with ⟨t, -, -, hh⟩ | ⟨hf, hs⟩
  · simp [hh.blocks] at hb
  · obtain ⟨hp, ho⟩ := hs.out_of_blocks hb
    exact ⟨rfl, hf, hp, ho⟩

theorem Inv.stand (h : Inv irq s) (hr : AtRest s) (x : T) :
    Stand (irq x) (view x s.shared) (s.loc x) :=
  h.custody.own x fun i hi => by simp [hr.holds_eq_none i] at hi

theorem Inv.settled (h : Inv irq s) : Settled irq s where
  not_stuck := by
    rintro ⟨hr, r, hl, t, ht⟩
    have hs := h.stand hr r
    rw [hl] at hs
    rcases hs.receiverAsleep with ⟨hp, hlist⟩ | hready
    · rcases ht with ⟨hq, ht⟩ | ht
      · have hsend : s.shared.hasSenders = false := by
          simp only [view] at hp
          split at hp
          · exact Option.some.inj hp
          · simp at hp
        obtain ⟨hi, hne⟩ := (h.stand hr t).receiver (by simp [view, hq, hsend])
        rcases ht with ht | ht
        · simp [hi] at ht
        · exact hne ht
      · change (s.shared.tcb r).list.elems = [] at hlist
        simp [hlist] at ht
    · have := hr.not_ready (t := r) (by rw [hl]; rfl)
      exact absurd hready (by simp [view, this])
  not_lost := by
    rintro ⟨t, ht, hl | ⟨hr, hl | ⟨r, hl⟩⟩⟩
    · have := (h.aside hl rfl).out.2.2
      simp [ht] at this
    · have hs := h.stand hr t
      rw [hl] at hs
      rcases hs.senderAsleep with h | h
      · exact absurd h (by simp [view, ht])
      · have := hr.not_ready (t := t) (by rw [hl]; rfl)
        exact absurd h (by simp [view, this])
    · exact (h.aside hl rfl).out

theorem view_congr {g' : Shared T} (hq : g'.waitQ = g.waitQ) (hs : g'.hasSenders = g.hasSenders)
    (ht : g'.tcb x = g.tcb x) : view x g' = view x g := by
  simp only [view, hq, hs, ht]

theorem tcb_modify_self : (g.modify x f).tcb x = f (g.tcb x) :=
  Function.update_self ..

theorem tcb_modify_of_ne (h : i ≠ x) : (g.modify x f).tcb i = g.tcb i :=
  Function.update_of_ne h ..

theorem modify_id : g.modify x id = g := by
  simp only [Shared.modify, id_eq, Function.update_eq_self]

section

variable (h : Inv irq s)
include h

section

variable (ha : Aside irq s i l)
include ha

theorem Inv.own_step (f : Tcb T → Tcb T) (hh : l'.holds = l.holds)
    (hout : (s.shared.tcb i).Out (irq i) l → (f (s.shared.tcb i)).Out (irq i) l')
    (hheld : ∀ x, x ≠ i → l.holds = some x → Hold (irq x) i (s.shared.tcb x) (s.loc x) l →
      Hold (irq x) i (s.shared.tcb x) (s.loc x) l') :
    Inv irq (s.move i (s.shared.modify i f, l')) := by
  obtain ⟨hl, hf, hp, ho⟩ := ha
  refine ⟨h.nodup, h.custody.keep hf (by rw [hl]; exact hh) (.out hp ?_) (fun x hx hlx => ?_)
    fun j hj _ => view_congr rfl rfl (tcb_modify_of_ne hj)⟩
  · change ((s.shared.modify i f).tcb i).Out _ _
    rw [tcb_modify_self]
    exact hout ho
  · obtain ⟨hpx, hx'⟩ := h.custody.held i x hlx
    rw [hl] at hx' hlx
    refine ⟨hpx, ?_⟩
    change Hold _ _ ((s.shared.modify i f).tcb x) _ _
    rw [tcb_modify_of_ne hx]
    exact hheld x hx hlx hx'

theorem Inv.go_step
    (hh : l'.holds = l.holds) (hout : (s.shared.tcb i).Out (irq i) l → (s.shared.tcb i).Out (irq i) l')
    (hheld : ∀ x, x ≠ i → l.holds = some x → Hold (irq x) i (s.shared.tcb x) (s.loc x) l →
      Hold (irq x) i (s.shared.tcb x) (s.loc x) l') : Inv irq (s.move i (s.shared, l')) := by
  have hstep := h.own_step ha id hh hout hheld
  rwa [modify_id] at hstep

theorem Inv.held_step
    (hx : l.holds = some x) (f : Tcb T → Tcb T) (hh : l'.holds = some x)
    (hout : (s.shared.tcb i).Out (irq i) l → (s.shared.tcb i).Out (irq i) l')
    (hheld : Hold (irq x) i (s.shared.tcb x) (s.loc x) l →
      Hold (irq x) i (f (s.shared.tcb x)) (s.loc x) l') :
    Inv irq (s.move i (s.shared.modify x f, l')) := by
  obtain ⟨hl, hf, hp, ho⟩ := ha
  rw [← hl] at hx
  have hne : i ≠ x := fun heq => hf i (heq ▸ hx)
  refine ⟨h.nodup, h.custody.keep hf (by rw [hx]; exact hh) (.out hp ?_) (fun y _ hy => ?_)
    fun j _ hn => view_congr rfl rfl (tcb_modify_of_ne fun heq => hn (heq ▸ hx))⟩
  · change ((s.shared.modify x f).tcb i).Out _ _
    rw [tcb_modify_of_ne hne]
    exact hout ho
  · cases hx.symm.trans hy
    obtain ⟨hpx, hx'⟩ := h.custody.held i x hx
    rw [hl] at hx'
    refine ⟨hpx, ?_⟩
    change Hold _ _ ((s.shared.modify x f).tcb x) _ _
    rw [tcb_modify_self]
    exact hheld hx'

theorem Inv.last_step
    (hx : l.holds = some x) (f : Tcb T → Tcb T) (hh : l'.holds = none)
    (hout : (s.shared.tcb i).Out (irq i) l → (s.shared.tcb i).Out (irq i) l')
    (hheld : Hold (irq x) i (s.shared.tcb x) (s.loc x) l →
      Stand (irq x) ⟨f (s.shared.tcb x), none⟩ (s.loc x)) :
    Inv irq (s.move i (s.shared.modify x f, l')) := by
  obtain ⟨hl, hf, hp, ho⟩ := ha
  rw [← hl] at hx
  have hne : i ≠ x := fun heq => hf i (heq ▸ hx)
  obtain ⟨hpx, hx'⟩ := h.custody.held i x hx
  rw [hl] at hx'
  refine ⟨h.nodup, h.custody.release hf hx hh (.out hp ?_) ?_
    fun j _ hj => view_congr rfl rfl (tcb_modify_of_ne hj)⟩
  · change ((s.shared.modify x f).tcb i).Out _ _
    rw [tcb_modify_of_ne hne]
    exact hout ho
  · have hv : view x (s.shared.modify x f) = ⟨f (s.shared.tcb x), none⟩ := by
      simp only [view, tcb_modify_self]
      congr 1
    rw [hv]
    exact hheld hx'

end

theorem Inv.wait_step (hl : s.loc i = l) (hn : l.holds = none)
    (f : Tcb T → Tcb T) (hh : l'.holds = none)
    (hown : ∀ p, Stand (irq i) ⟨s.shared.tcb i, p⟩ l → Stand (irq i) ⟨f (s.shared.tcb i), p⟩ l')
    (hheld : ∀ t m, Hold (irq i) t (s.shared.tcb i) l m → Hold (irq i) t (f (s.shared.tcb i)) l' m) :
    Inv irq (s.move i (s.shared.modify i f, l')) := by
  have hv : view i (s.shared.modify i f) = ⟨f (s.shared.tcb i), (view i s.shared).place⟩ := by
    simp only [view, tcb_modify_self]
    rfl
  refine ⟨h.nodup, h.custody.self (by rw [hl]; exact hn) hh (fun hf => ?_) (fun t ht => ?_)
    fun j hj => view_congr rfl rfl (tcb_modify_of_ne hj)⟩
  · rw [hv]
    refine hown _ ?_
    have := h.custody.own i hf
    rwa [hl] at this
  · obtain ⟨hp, ht'⟩ := h.custody.held t i ht
    rw [hl] at ht'
    rw [hv]
    exact ⟨hp, hheld t _ ht'⟩

theorem Inv.take (ha : Aside irq s i l)
    (hn : l.holds = none) (hq : x ∈ s.shared.waitQ.elems) (hh : l'.holds = some x)
    (hout : (s.shared.tcb i).Out (irq i) l → (s.shared.tcb i).Out (irq i) l')
    (hheld : Stand (irq x) (view x s.shared) (s.loc x) →
      Hold (irq x) i (s.shared.tcb x) (s.loc x) l') :
    Inv irq (s.move i ({ s.shared with waitQ := s.shared.waitQ.unlink x }, l')) := by
  obtain ⟨hl, hf, hp, ho⟩ := ha
  have hplace : (view x s.shared).place = some s.shared.hasSenders := by simp [view, hq]
  have hfx : Free Pc.holds s x := by
    intro t ht
    simp [(h.custody.held t x ht).1] at hplace
  have hne : x ≠ i := by
    rintro rfl
    simp [hp] at hplace
  have hgone : x ∉ (s.shared.waitQ.unlink x).elems := h.nodup.not_mem_erase
  refine ⟨h.nodup.erase x, h.custody.take hf (by rw [hl]; exact hn) hh hfx hne (.out ?_ (hout ho)) ⟨?_, ?_⟩
    fun j _ hj => ?_⟩
  · have : i ∉ (s.shared.waitQ.unlink x).elems := by
      intro hi
      have := List.mem_of_mem_erase hi
      simp [view, this] at hp
    simp [view, this]
  · simp [view, hgone]
  · exact hheld (h.custody.own x hfx)
  · have : j ∈ (s.shared.waitQ.unlink x).elems ↔ j ∈ s.shared.waitQ.elems :=
      List.mem_erase_of_ne hj
    simp only [view, this]

theorem Inv.enter (ha : Aside irq s i l)
    (hn : l.holds = none) (hh : l'.holds = none) {senders : Bool} {prio : ℕ}
    (hq : s.shared.hasSenders = senders ∨ s.shared.waitQ.elems = [])
    (hstand : (s.shared.tcb i).Out (irq i) l → Stand (irq i) ⟨s.shared.tcb i, some senders⟩ l') :
    Inv irq (s.move i
      ({ s.shared with hasSenders := senders, waitQ := s.shared.waitQ.link i prio }, l')) := by
  obtain ⟨hl, hf, hp, ho⟩ := ha
  have hnew : i ∉ s.shared.waitQ.elems := by
    intro hi
    simp [view, hi] at hp
  refine ⟨nodup_link h.nodup hnew, h.custody.self (by rw [hl]; exact hn) hh (fun _ => ?_)
    (fun t ht => absurd ht (hf t)) fun j hj => ?_⟩
  · have : i ∈ (s.shared.waitQ.link i prio).elems := mem_link.2 (.inl rfl)
    simp only [view, this, if_true]
    exact hstand ho
  · have : j ∈ (s.shared.waitQ.link i prio).elems ↔ j ∈ s.shared.waitQ.elems := by
      rw [mem_link]
      exact or_iff_right hj
    simp only [view, this]
    rcases hq with hq | hq
    · rw [hq]
    · simp [hq]

theorem Inv.aside_irq (hl : s.loc i = .idle) (hi : irq i = true)
    (hq : (s.shared.tcb i).queued = false) : Aside irq s i .idle := by
  have hasks : ¬(s.shared.tcb i).Asks true .idle := by simp [Tcb.Asks, hq]
  rcases h.custody.cases i with ⟨t, -, -, hh⟩ | ⟨hf, hs⟩
  · rw [hl, hi] at hh
    exact absurd hh.asks hasks
  · rw [hl, hi] at hs
    rcases hs.out_or_asks with ⟨hp, ho⟩ | ho
    · exact ⟨hl, hf, hp, by rwa [hi]⟩
    · exact absurd ho hasks

theorem Inv.start (hl : s.loc i = l) (hs : l = .idle ∨ l = .failed) :
    Inv irq (s.move i (start irq i s.shared c l)) := by
  have hclear : Aside irq s i l → (s.shared.tcb i).Clear := by
    intro ha
    rcases hs with rfl | rfl
    · exact ha.out
    · exact ha.out.2.1
  have hnone : l.holds = none := by
    rcases hs with rfl | rfl <;> rfl
  simp only [WaitQueue.start]
  split_ifs with hi hq hsend
  · rw [← hl, Interleaving.System.move_same]
    exact h
  · have ha : Aside irq s i l := by
      rcases hs with rfl | rfl
      · exact h.aside_irq hl hi (by simpa using hq)
      · exact h.aside hl rfl
    have hb := hclear ha
    exact h.own_step ha _ hnone.symm
      (fun _ => ⟨{ hb with }, rfl, fun _ => rfl⟩)
      (fun _ _ _ hh => absurd hnone hh.holds)
  all_goals
    have ha : Aside irq s i l := h.aside hl (by rcases hs with rfl | rfl <;> simp [Pc.blocks, hi])
    have hb := hclear ha
  · exact h.own_step ha _ hnone.symm
      (fun _ => ⟨{ hb with }, rfl, fun hn => absurd hn hi⟩)
      (fun _ _ _ hh => absurd hnone hh.holds)
  · exact h.go_step ha hnone.symm (fun _ => ⟨by simpa using hi, hb⟩) fun x _ hx => by simp [hnone] at hx

end

theorem dequeueFirst_cases (g : Shared T) : g.dequeueFirst = (none, g) ∧ g.waitQ.elems = [] ∨
    ∃ x ∈ g.waitQ.elems, g.dequeueFirst = (some x, { g with waitQ := g.waitQ.unlink x }) := by
  simp only [Shared.dequeueFirst]
  cases hq : g.waitQ.elems with
  | nil => exact .inl ⟨rfl, rfl⟩
  | cons e es => exact .inr ⟨e, by simp, rfl⟩

theorem Inv.serve (h : Inv irq s) {e : T} {p : Serve} (hl : s.loc i = .serve e p)
    (ht : p = .complete true → s.loc e ≠ .senderQueued) :
    Inv irq (s.move i (serve irq i e s.shared c p)) := by
  have ha := h.aside hl rfl
  cases p with
  | prepare | addProgress => exact h.own_step ha _ rfl id fun _ _ _ => id
  | mark =>
    simp only [WaitQueue.serve]
    split_ifs with he
    · refine h.last_step ha rfl _ rfl id fun hh => ?_
      change (s.shared.tcb e).Asks (irq e) (s.loc e) at hh
      simp only [Tcb.Asks, he, if_true] at hh
      obtain ⟨hidle, -, hc⟩ := hh
      rw [hidle]
      exact .out rfl { hc with }
    · refine h.held_step ha rfl _ rfl id fun hh => ?_
      change (s.shared.tcb e).Asks (irq e) (s.loc e) at hh
      simp only [Tcb.Asks, he] at hh
      exact ⟨by simpa using he, { hh with progress := rfl }⟩
  | transfer =>
    refine h.held_step ha rfl _ rfl id fun ⟨he, hh⟩ => ?_
    exact ⟨he, { hh with sent := rfl }⟩
  | complete ok =>
    refine h.last_step ha rfl _ rfl id fun ⟨he, hh⟩ => ?_
    cases ok with
    | true =>
      refine .served rfl he ⟨?_, ⟨rfl, rfl, id, rfl, hh.transferFailed, hh.list⟩, hh.sent⟩
      rcases hh.pc with hq | hq | hq
      · exact absurd hq (ht rfl)
      · exact .inl hq
      · exact .inr ⟨hq, rfl⟩
    | false => exact .broken rfl he ⟨hh.pc, hh.progress, hh.sent⟩

theorem Inv.meet (h : Inv irq s) {r : T} {p : Meet} (hl : s.loc i = .meet r p)
    (ht : p = .state true → (s.shared.tcb r).receiveWait = true) :
    Inv irq (s.move i (meet irq i r s.shared c p)) := by
  have ha := h.aside hl rfl
  have hr : Hold (irq r) i (s.shared.tcb r) (s.loc r) (.meet r p) := by
    have := (h.custody.held i r (by rw [hl]; rfl)).2
    rwa [hl] at this
  -- back to the list, as long as the receiver is not claimed
  have henter : ∀ l' : Pc T, l' = .meet r (.enter (irq i)) →
      ((s.shared.tcb i).Out (irq i) (.meet r p) →
        (s.shared.tcb i).Out (irq i) (.meet r .insert)) →
      (Hold (irq r) i (s.shared.tcb r) (s.loc r) (.meet r p) →
        Hold (irq r) i (s.shared.tcb r) (s.loc r) (.meet r .insert)) →
      Inv irq (s.move i (s.shared, l')) := by
    rintro l' rfl hout hheld
    cases hi : irq i with
    | true =>
      refine h.go_step ha rfl (fun ho => hout ho) fun x _ hx hh => ?_
      cases hx
      exact hheld hh
    | false =>
      refine h.go_step ha rfl (fun ho => ?_) fun x _ hx hh => ?_
      · obtain ⟨h1, h2, h3, -⟩ := hout ho
        exact ⟨hi, h1, h2, h3⟩
      · cases hx
        exact hheld hh
  cases p with
  | setPartner =>
    obtain ⟨hr, hlist⟩ : (s.shared.tcb r).Listens (s.loc r) ∧ _ := hr.2
    refine h.held_step ha rfl _ rfl id fun ⟨hi, _⟩ => ⟨hi, { hr with }, rfl, ?_⟩
    exact hlist
  | state again =>
    have hr : (s.shared.tcb r).Met (s.loc r) i again := hr.2
    simp only [WaitQueue.meet]
    split_ifs with hw
    · refine h.go_step ha rfl id fun x _ hx hh => ?_
      cases hx
      exact hh
    · cases again with
      | true =>
        have hwait := ht rfl
        simp [hwait, hr.listens.sendWait, hr.listens.sendInProgress, hr.listens.receiveInProgress] at hw
      | false => exact henter _ rfl id id
  | poi again =>
    have hr : (s.shared.tcb r).Met (s.loc r) i again := hr.2
    simp only [WaitQueue.meet, hr.ptr, if_true]
    refine h.go_step ha rfl ?_ fun x _ hx hh => ?_
    · cases again <;> exact id
    · cases hx
      cases again <;> exact hh
  | empty again | head again => exact hr.2.elim
  | swap again =>
    have hr : (s.shared.tcb r).Met (s.loc r) i false := hr.2
    simp only [WaitQueue.meet]
    split
    · next hw =>
      have hasleep : s.loc r = .receiverAsleep ∧ (s.shared.tcb r).ready = false := by
        rcases hr.listens.pc with ⟨-, hn⟩ | ⟨hl, -, hn⟩
        · simp [hw] at hn
        · exact ⟨hl, hn⟩
      have hclaim : Tcb.Claimed
          { s.shared.tcb r with receiveWait := false, receiveInProgress := true } (s.loc r) true :=
        ⟨hasleep.1, hasleep.2, hr.listens.sendWait, hr.listens.sendInProgress, rfl, rfl,
          hr.listens.transferFailed, hr.list⟩
      split_ifs with hd
      · refine h.held_step ha rfl _ rfl (fun ⟨h1, h2, h3, _⟩ => ⟨?_, h1, h2, h3⟩) fun ⟨hi, _⟩ => ⟨hi, hclaim⟩
        simpa using (and_eq_true_iff.1 hd).2
      · exact h.held_step ha rfl _ rfl id fun ⟨hi, _⟩ => ⟨hi, hclaim⟩
    · exact henter _ rfl id id
  | addWait | delWait =>
    refine h.own_step ha _ rfl (fun ⟨hi, h1, h2, h3⟩ => ⟨h1, h2, h3, fun hn => ?_⟩) fun _ _ _ => id
    simp [hi] at hn
  | insert =>
    have hr : (s.shared.tcb r).Met (s.loc r) i false := hr.2
    have hlist : (s.shared.tcb r).list.elems = [] := hr.list
    simp only [WaitQueue.meet, SenderList.insert, hlist, List.not_mem_nil, if_false]
    refine h.held_step ha rfl _ rfl id fun ⟨hi, _⟩ =>
      ⟨hi, { hr.listens with }, SenderList.ptr_link.trans hr.ptr, ?_⟩
    simp [SenderList.link, hlist]
  | remove =>
    have hr : (s.shared.tcb r).Met (s.loc r) i true := hr.2
    have hlist : (s.shared.tcb r).list.elems = [some i] := hr.list
    simp only [WaitQueue.meet, dequeue, hlist, List.mem_singleton, if_true]
    refine h.held_step ha rfl _ rfl id fun hh =>
      ⟨hh.1, { hr.listens with }, ptr_unlink.trans hr.ptr, ?_⟩
    simp [unlink, hlist]
  | deliver =>
    simp only [WaitQueue.meet]
    split_ifs with hi
    · refine h.own_step ha _ rfl (fun ho => ⟨hi, ?_⟩) fun _ _ _ => id
      exact { ho.2.2.2 hi with }
    · refine h.own_step ha _ rfl (fun ho => ?_) fun _ _ _ => id
      exact ⟨by simpa using hi, ho.1, ho.2.1, rfl⟩
  | delProgress ok =>
    exact h.held_step ha rfl _ rfl id fun hh =>
      ⟨hh.1, { hh.2 with receiveInProgress := rfl }⟩
  | change ok =>
    refine h.own_step ha _ rfl ?_ fun _ _ _ => id
    rintro ⟨hi, h1, h2, h3⟩
    refine ⟨hi, ⟨rfl, rfl, ?_, rfl, h1, h2⟩, h3, ?_⟩
    · exact fun hw => (and_eq_true_iff.1 hw).2
    · rintro rfl
      rfl
  | activate ok =>
    have hwake : Hold (irq r) i (s.shared.tcb r) (s.loc r) (.meet r (.activate ok)) →
        Stand (irq r) ⟨{ s.shared.tcb r with receiveInProgress := false, ready := true }, none⟩ (s.loc r) :=
      fun hh => .woken rfl hh.1 hh.2.pc rfl
        { hh.2 with receiveInProgress := rfl }
    simp only [WaitQueue.meet]
    split_ifs with hok hprep
    · refine h.last_step ha rfl _ rfl ?_ hwake
      rintro ⟨hi, ho, hs, hn⟩
      refine ⟨hi, ?_, ?_⟩
      · exact ho.clear (hn (by simpa using hok))
      · rw [hs]
        simpa using hok
    · exact h.last_step ha rfl _ rfl (fun ho => ⟨ho.1, ho.2.1⟩) hwake
    · refine h.last_step ha rfl _ rfl ?_ hwake
      rintro ⟨-, ho, -⟩
      have hwait : (s.shared.tcb i).receiveWait = false := by
        by_contra hw
        exact hprep (ho.receiveWait (by simpa using hw))
      exact ho.clear hwait
  | finish =>
    exact h.last_step ha rfl _ rfl And.right fun hh =>
      .woken rfl hh.1 hh.2.pc rfl ⟨rfl, rfl, rfl, rfl, hh.2.transferFailed, hh.2.list⟩

section Waiting

omit [DecidableEq T]

variable {k : Bool} {t : T} {b b' : Tcb T} {q : Option Bool} {m : Pc T}

theorem Hold.sender (h : Hold k t b l m) (hl : l = .senderQueued ∨ l = .test ∨ l = .senderAsleep)
    (hs : ∀ p q, b.Sends l p q → b'.Sends l' p q) : Hold k t b' l' m := by
  cases m with
  | serve e p =>
    cases p with
    | prepare | addProgress | mark =>
      cases k with
      | true =>
        rw [h.1] at hl
        simp at hl
      | false => exact hs _ _ h
    | transfer | complete => exact ⟨h.1, hs _ _ h.2⟩
  | meet r p =>
    have hlisten : ¬b.Listens l := by
      intro hh
      rcases hh.pc with ⟨rfl, -⟩ | ⟨rfl, -⟩ <;> simp at hl
    have hclaim : ∀ pr, ¬b.Claimed l pr := by
      intro pr hh
      rw [hh.pc] at hl
      simp at hl
    obtain ⟨-, h⟩ := h
    cases p with
    | setPartner => exact absurd h.1 hlisten
    | state | poi | swap | addWait | insert | remove => exact absurd h.listens hlisten
    | delWait | deliver | delProgress | finish | change | activate => exact absurd h (hclaim _)
    | empty | head => exact h.elim
  | _ => exact h.elim

theorem Stand.sender (h : Stand k ⟨b, q⟩ l) (hl : l = .senderQueued ∨ l = .test ∨ l = .senderAsleep)
    (hs : ∀ p q, b.Sends l p q → b'.Sends l' p q) (hserved : b.Served l → b'.Served l')
    (hbroken : b.Broken l → b'.Broken l') : Stand k ⟨b', q⟩ l' := by
  cases h with
  | out _ h => rcases hl with rfl | rfl | rfl <;> exact h.elim
  | asks hp h =>
    cases k with
    | true =>
      rw [h.1] at hl
      simp at hl
    | false => exact .asks hp (hs _ _ h)
  | listens _ _ h => rcases h.pc with ⟨rfl, -⟩ | ⟨rfl, -⟩ <;> simp at hl
  | served hp hi h => exact .served hp hi (hserved h)
  | woken _ _ h =>
    rw [h] at hl
    simp at hl
  | broken hp hi h => exact .broken hp hi (hbroken h)

theorem Tcb.Listens.block (h : b.Listens l) :
    Tcb.Listens { b with ready := false, receiveWait := true } .receiverAsleep :=
  ⟨.inr ⟨rfl, rfl, rfl⟩, h.2, h.3, h.4, h.5⟩

theorem Hold.block (h : Hold k t b .receiverQueued m) :
    Hold k t { b with ready := false, receiveWait := true } .receiverAsleep m := by
  cases m with
  | serve e p =>
    cases p with
    | prepare | addProgress | mark => exact absurd (Tcb.Asks.pc h) (by simp)
    | transfer | complete => exact absurd h.2.pc (by simp)
  | meet r p =>
    obtain ⟨hi, h⟩ := h
    refine ⟨hi, ?_⟩
    cases p with
    | setPartner => exact ⟨h.1.block, h.2⟩
    | state | poi | swap | addWait | insert | remove => exact ⟨h.listens.block, h.ptr, h.list⟩
    | delWait | deliver | delProgress | finish | change | activate => exact absurd h.pc (by simp)
    | empty | head => exact h.elim
  | _ => exact h.elim

theorem Stand.block (h : Stand k ⟨b, q⟩ .receiverQueued) :
    Stand k ⟨{ b with ready := false, receiveWait := true }, q⟩ .receiverAsleep := by
  cases h with
  | out _ h => exact h.elim
  | asks _ h | served _ _ h | broken _ _ h => exact absurd h.pc (by simp)
  | listens hp hi h hl => exact .listens hp hi h.block hl
  | woken _ _ h => exact absurd h (by simp)

theorem Hold.not_ready (h : Hold k t b .receiverAsleep m) : b.ready = false := by
  rcases h.kinds with h | ⟨-, ⟨_, _, h⟩ | h | ⟨_, h⟩⟩
  · exact absurd h.pc (by simp)
  · exact absurd h.pc (by simp)
  · rcases h.pc with ⟨hn, -⟩ | ⟨-, -, hr⟩
    · simp at hn
    · exact hr
  · exact h.ready

end Waiting

section

variable (h : Inv irq s)
include h

theorem Inv.stay (hl : s.loc i = l) : Inv irq (s.move i (s.shared, l)) := by
  rw [← hl, Interleaving.System.move_same]
  exact h

theorem Inv.sender_step (hl : s.loc i = l)
    (hpc : l = .senderQueued ∨ l = .test ∨ l = .senderAsleep) (f : Tcb T → Tcb T)
    (hh : l'.holds = none)
    (hs : ∀ p q, (s.shared.tcb i).Sends l p q → (f (s.shared.tcb i)).Sends l' p q)
    (hserved : (s.shared.tcb i).Served l → (f (s.shared.tcb i)).Served l')
    (hbroken : (s.shared.tcb i).Broken l → (f (s.shared.tcb i)).Broken l') :
    Inv irq (s.move i (s.shared.modify i f, l')) := by
  refine h.wait_step hl ?_ f hh (fun p hst => hst.sender hpc hs hserved hbroken)
    fun t m hhold => hhold.sender hpc hs
  rcases hpc with rfl | rfl | rfl <;> rfl

theorem Inv.served_of_test (hl : s.loc i = .test)
    (hc : ¬((s.shared.tcb i).sendWait && !(s.shared.tcb i).transferFailed ||
      (s.shared.tcb i).sendInProgress) = true) :
    Free Pc.holds s i ∧ (view i s.shared).place = none ∧ irq i = false ∧
      (s.shared.tcb i).Served .test := by
  have hsends : ∀ p q, ¬(s.shared.tcb i).Sends .test p q := by
    intro p q hs
    simp [hs.wait (by simp), hs.transferFailed] at hc
  have hasks : ¬(s.shared.tcb i).Asks (irq i) .test := by
    cases hi : irq i with
    | true => simp [Tcb.Asks]
    | false => exact hsends _ _
  rcases h.custody.cases i with ⟨t, -, -, hh⟩ | ⟨hf, hs⟩
  · rw [hl] at hh
    rcases hh.kinds with hh | ⟨-, ⟨p, q, hh⟩ | hh | ⟨_, hh⟩⟩
    · exact absurd hh hasks
    · exact absurd hh (hsends p q)
    · exact absurd hh.pc (by simp)
    · exact absurd hh.pc (by simp)
  · rw [hl] at hs
    cases hs with
    | out _ ho => exact ho.elim
    | asks _ ho => exact absurd ho hasks
    | listens _ _ ho => exact absurd ho.pc (by simp)
    | served hp hi ho => exact ⟨hf, hp, hi, ho⟩
    | woken _ _ ho => exact absurd ho (by simp)
    | broken _ _ ho =>
      have : (s.shared.tcb i).sendInProgress = true := ho.sendInProgress
      simp [this] at hc

theorem Inv.woken_of_ready (hl : s.loc i = .receiverAsleep) (hr : (s.shared.tcb i).ready = true) :
    Free Pc.holds s i ∧ (view i s.shared).place = none ∧ irq i = false ∧ (s.shared.tcb i).Clear := by
  rcases h.custody.cases i with ⟨t, -, -, hh⟩ | ⟨hf, hs⟩
  · rw [hl] at hh
    have : (s.shared.tcb i).ready = false := hh.not_ready
    simp [hr] at this
  · rw [hl] at hs
    cases hs with
    | out _ ho => exact ho.elim
    | asks _ ho | served _ _ ho | broken _ _ ho => exact absurd ho.pc (by simp)
    | listens _ _ ho =>
      rcases ho.pc with ⟨hn, -⟩ | ⟨-, -, hn⟩
      · simp at hn
      · change (s.shared.tcb i).ready = false at hn
        simp [hr] at hn
    | woken hp hi _ _ ho => exact ⟨hf, hp, hi, ho⟩

theorem Inv.leave (hl : s.loc i = l) (hn : l.holds = none)
    (hf : Free Pc.holds s i) (hp : (view i s.shared).place = none) (hh : l'.holds = none)
    (ho : (s.shared.tcb i).Out (irq i) l') : Inv irq (s.move i (s.shared, l')) :=
  ⟨h.nodup, h.custody.self (by rw [hl]; exact hn) hh (fun _ => .out hp ho)
    (fun t ht => absurd ht (hf t)) fun _ _ => rfl⟩

theorem Inv.find (ha : Aside irq s i l) (hn : l.holds = none)
    {found : T → Pc T} {nobody : Pc T} (hfound : ∀ x, (found x).holds = some x)
    (hnobody : nobody.holds = none)
    (hout : ∀ x, (s.shared.tcb i).Out (irq i) l → (s.shared.tcb i).Out (irq i) (found x))
    (hstay : s.shared.waitQ.elems = [] → (s.shared.tcb i).Out (irq i) l →
      (s.shared.tcb i).Out (irq i) nobody)
    (hheld : ∀ x, (view x s.shared).place = some s.shared.hasSenders →
      Stand (irq x) (view x s.shared) (s.loc x) →
      Hold (irq x) i (s.shared.tcb x) (s.loc x) (found x)) :
    Inv irq (s.move i (proceed found nobody s.shared.dequeueFirst)) := by
  rcases dequeueFirst_cases s.shared with ⟨hd, hq⟩ | ⟨x, hx, hd⟩
  · rw [hd]
    exact h.go_step ha (by rw [hn]; exact hnobody) (hstay hq) fun x _ hx => by simp [hn] at hx
  · rw [hd]
    refine h.take ha hn hx (hfound x) (hout x) (hheld x ?_)
    simp [view, hx]

theorem Inv.exec (ht : Timely s (.move i c)) :
    Inv irq (s.move i (exec irq i s.shared c (s.loc i))) := by
  have hasks : s.shared.hasSenders = true → ∀ x,
      (view x s.shared).place = some s.shared.hasSenders →
      Stand (irq x) (view x s.shared) (s.loc x) →
      Hold (irq x) i (s.shared.tcb x) (s.loc x) (.serve x .prepare) := by
    intro hs x hp hst
    exact hst.asks_of_place (by rw [hp, hs])
  have hlistens : s.shared.hasSenders = false → ∀ x,
      (view x s.shared).place = some s.shared.hasSenders →
      Stand (irq x) (view x s.shared) (s.loc x) →
      Hold (irq x) i (s.shared.tcb x) (s.loc x) (.meet x .setPartner) := by
    intro hs x hp hst
    exact hst.listens_of_place (by rw [hp, hs])
  cases hl : s.loc i with
  | idle => exact h.start hl (.inl rfl)
  | failed => exact h.start hl (.inr rfl)
  | dequeueSender =>
    have ha := h.aside hl rfl
    simp only [WaitQueue.exec, Shared.dequeueSender]
    split_ifs with hs
    · exact h.go_step ha rfl id fun x _ hx => by cases hx
    · exact h.find ha rfl (fun _ => rfl) rfl (fun _ ⟨hi, hc⟩ => ⟨hi, hc.transferFailed, hc.list⟩)
        (fun _ => id) (hasks (by simpa using hs))
  | resetPoi =>
    exact h.own_step (h.aside hl rfl) _ rfl (fun ⟨hi, hc⟩ => ⟨hi, { hc with }⟩)
      fun _ _ _ hh => hh.elim
  | enqueueReceiver =>
    have ha := h.aside hl rfl
    simp only [WaitQueue.exec, Shared.enqueueReceiver]
    split_ifs with hs
    · obtain ⟨hs, hne⟩ := and_eq_true_iff.1 hs
      exact h.find ha rfl (fun _ => rfl) rfl (fun _ ⟨hi, hc⟩ => ⟨hi, hc.transferFailed, hc.list⟩)
        (fun hq => by simp [hq] at hne) (hasks hs)
    · refine h.enter ha rfl rfl ?_ fun ⟨hi, hc⟩ => .listens rfl hi ⟨.inl ⟨rfl, hc.receiveWait⟩, hc.sendWait,
        hc.sendInProgress, hc.receiveInProgress, hc.transferFailed⟩ hc.list
      by_cases hq : s.shared.waitQ.elems = []
      · exact .inr hq
      · exact .inl (by simpa [hq] using hs)
  | serve e p =>
    refine h.serve hl ?_
    rintro rfl
    exact ht.2 e (by rw [hl]; rfl)
  | delMask =>
    exact h.own_step (h.aside hl rfl) _ rfl (fun ⟨_, h1, h2⟩ => ⟨rfl, rfl, rfl, rfl, h1, h2⟩)
      fun _ _ _ hh => hh.elim
  | receiverQueued =>
    exact h.wait_step hl rfl _ rfl (fun _ => Stand.block) fun _ _ => Hold.block
  | receiverAsleep =>
    simp only [WaitQueue.exec]
    split_ifs with hr
    · obtain ⟨hf, hp, hi, hc⟩ := h.woken_of_ready hl hr
      exact h.leave hl rfl hf hp rfl ⟨hi, hc.receiveWait, hc⟩
    · exact h.stay hl
  | wake waiting =>
    have ha := h.aside hl rfl
    obtain ⟨-, rfl, -⟩ := ha.out
    exact h.own_step ha _ rfl (fun ⟨_, _, hc⟩ => { hc with })
      fun _ _ _ hh => hh.elim
  | abortReceive | abortDequeue | sendWait r | sendAsleep r | fail => exact (h.aside hl rfl).out.elim
  | dequeueReceiver =>
    have ha := h.aside hl rfl
    simp only [WaitQueue.exec, Shared.dequeueReceiver]
    split_ifs with hs
    · exact h.go_step ha rfl id fun x _ hx => by cases hx
    · exact h.find ha rfl (fun _ => rfl) rfl
        (fun _ ⟨hc, hsent, _⟩ => ⟨hc.transferFailed, hc.list, hsent, fun _ => hc⟩) (fun _ => id)
        (hlistens (by simpa using hs))
  | prepareSend =>
    refine h.own_step (h.aside hl rfl) _ rfl (fun ⟨hc, hsent, hq⟩ => ?_) fun _ _ _ hh => hh.elim
    split_ifs
    · exact ⟨{ hc with }, hsent, hq⟩
    · exact ⟨hc, hsent, hq⟩
  | enqueueSender =>
    have ha := h.aside hl rfl
    have hnone : (if irq i then .idle else .senderQueued : Pc T).holds = none := by
      split <;> rfl
    simp only [WaitQueue.exec, Shared.enqueueSender]
    by_cases hs : (!s.shared.hasSenders && !s.shared.waitQ.elems.isEmpty) = true
    · rw [if_pos hs]
      obtain ⟨hs, hne⟩ := and_eq_true_iff.1 hs
      exact h.find ha rfl (fun _ => rfl) hnone
        (fun _ ⟨hc, hsent, _⟩ => ⟨hc.transferFailed, hc.list, hsent, fun _ => hc⟩)
        (fun hq => by simp [hq] at hne) (hlistens (by simpa using hs))
    · rw [if_neg hs]
      refine h.enter ha rfl hnone ?_ fun ⟨hc, hsent, hq⟩ => .asks rfl ?_
      · by_cases hq : s.shared.waitQ.elems = []
        · exact .inr hq
        · exact .inl (by simpa [hq] using hs)
      · cases hi : irq i with
        | true => exact ⟨rfl, hq hi, hc⟩
        | false =>
          exact { hc with
            pc := .inl rfl, wait := fun hn => absurd rfl hn, progress := hc.sendInProgress, sent := hsent }
  | meet r p =>
    refine h.meet hl ?_
    rintro rfl
    exact ht.1 r (by rw [hl]; rfl)
  | senderQueued =>
    refine h.sender_step hl (.inl rfl) _ rfl (fun p q hs => ?_) (fun hs => ?_) fun hb => ?_
    · exact { hs with pc := .inr (.inl rfl), wait := fun _ => rfl }
    · exact absurd hs.pc (by simp)
    · exact { hb with pc := .inr (.inl rfl) }
  | test =>
    simp only [WaitQueue.exec]
    split_ifs with hc
    · refine h.sender_step hl (.inr (.inl rfl)) _ rfl (fun p q hs => ?_) (fun hs => ?_) fun hb => ?_
      · exact { hs with pc := .inr (.inr rfl), wait := fun _ => hs.wait (by simp) }
      · simp [hs.replies.sendWait, hs.replies.sendInProgress] at hc
      · exact { hb with pc := .inr (.inr rfl) }
    · obtain ⟨hf, hp, hi, hs⟩ := h.served_of_test hl hc
      exact h.leave hl rfl hf hp rfl
        ⟨hi, hs.replies.sendWait, hs.replies.transferFailed, hs.replies, hs.sent⟩
  | senderAsleep =>
    simp only [WaitQueue.exec]
    split_ifs with hr
    · have : Inv irq (s.move i (s.shared.modify i id, .test)) := h.sender_step hl (.inr (.inr rfl)) id rfl
        (fun p q hs => { hs with pc := .inr (.inl rfl), wait := fun _ => hs.wait (by simp) })
        (fun hs => ⟨.inl rfl, hs.replies, hs.sent⟩)
        (fun hb => { hb with pc := .inr (.inl rfl) })
      rwa [modify_id] at this
    · exact h.stay hl
  | dequeue wait failed =>
    have ha := h.aside hl rfl
    obtain ⟨-, rfl, rfl, -⟩ := ha.out
    have hq : s.shared.waitQ.dequeue i = none := by
      have hp := ha.place
      simp only [view] at hp
      split at hp
      · simp at hp
      · next hn => simp [dequeue, hn]
    simp only [WaitQueue.exec, hq, Option.getD_none]
    split_ifs with hn hr
    · simp at hn
    · exact h.go_step ha rfl (fun ⟨hi, _, _, ho, _⟩ => ⟨hi, ho⟩) fun x _ hx => by cases hx
    · refine h.go_step ha rfl (fun ⟨_, _, _, ho, _⟩ => ho.clear ?_) fun x _ hx => by cases hx
      by_contra hw
      have hw : (s.shared.tcb i).receiveWait = true := by simpa using hw
      simp [hw, ho.receiveWait hw] at hr
  | replyTest =>
    have ha := h.aside hl rfl
    simp only [WaitQueue.exec]
    split_ifs with hfail hr
    · have := ha.out.2.transferFailed
      simp [hfail] at this
    · refine h.own_step ha _ rfl (fun ⟨hi, ho⟩ => ⟨hi, ?_, fun hn => by simp at hn⟩) fun _ _ _ hh => hh.elim
      exact { ho with }
    · exact h.go_step ha rfl (fun ⟨_, ho⟩ => ho.clear (by simp_all)) fun x _ hx => by cases hx
  | replyAsleep =>
    have ha := h.aside hl rfl
    simp only [WaitQueue.exec]
    split_ifs with hr
    · exact h.go_step ha rfl (fun ⟨_, ho, hw⟩ => ho.clear (hw hr)) fun x _ hx => by cases hx
    · exact h.stay hl

theorem Inv.reply : Inv irq (s.move i (reply irq i s.shared (s.loc i))) := by
  simp only [WaitQueue.reply]
  split_ifs with hc
  · simp only [and_eq_true, not_eq_true'] at hc
    obtain ⟨⟨hi, hsend⟩, hw⟩ := hc
    have hreplies : (s.shared.tcb i).Replies →
        Tcb.Replies { s.shared.tcb i with receiveWait := false, ready := true } :=
      fun ho => { ho with receiveWait := nofun }
    have hwait : ∀ l', s.loc i = l' → (l' = .senderQueued ∨ l' = .test ∨ l' = .senderAsleep) →
        Inv irq (s.move i (s.shared.modify i fun b => { b with receiveWait := false, ready := true }, l')) := by
      intro l' hl hpc
      refine h.sender_step hl hpc _ (by rcases hpc with rfl | rfl | rfl <;> rfl) (fun p q hs => ?_)
        (fun hs => ⟨hs.pc.imp id fun hp => ⟨hp.1, rfl⟩, hreplies hs.replies, hs.sent⟩)
        fun hb => { hb with }
      have := hs.receiveWait
      simp [hw] at this
    cases hl : s.loc i with
    | senderQueued => exact hwait _ hl (.inl rfl)
    | test => exact hwait _ hl (.inr (.inl rfl))
    | senderAsleep => exact hwait _ hl (.inr (.inr rfl))
    | dequeue wait failed =>
      exact h.own_step (h.aside hl rfl) _ rfl (fun ⟨hi, h1, h2, ho, hs⟩ => ⟨hi, h1, h2, hreplies ho, hs⟩)
        fun _ _ _ => id
    | replyTest =>
      exact h.own_step (h.aside hl rfl) _ rfl (fun ⟨hi, ho⟩ => ⟨hi, hreplies ho⟩) fun _ _ _ => id
    | replyAsleep =>
      exact h.own_step (h.aside hl rfl) _ rfl (fun ⟨hi, ho, _⟩ => ⟨hi, hreplies ho, fun _ => rfl⟩)
        fun _ _ _ => id
    | meet r p =>
      refine h.own_step (h.aside hl rfl) _ rfl (fun ho => ?_) fun _ _ _ => id
      cases p with
      | delProgress | change | addWait | delWait => exact ho
      | activate ok => exact ⟨hi, hreplies ho.2.1, ho.2.2.1, fun _ => rfl⟩
      | finish =>
        have := ho.1
        simp [hi] at this
      | setPartner | state | poi | empty | head | swap | insert | remove | deliver =>
        exact ⟨ho.1, ho.2.1, ho.2.2.1, fun hn => by simp [hi] at hn⟩
    | _ =>
      rw [hl] at hsend
      simp [Pc.sends] at hsend
  · exact h.stay rfl

end

theorem boot_inv : Inv irq boot where
  nodup := List.nodup_nil
  custody := {
    unique := fun _ _ _ hi => by cases hi
    held := fun _ _ hi => by cases hi
    own := fun _ _ => .out rfl ⟨rfl, rfl, rfl, rfl, rfl, rfl⟩ }

theorem Inv.step (h : Inv irq s) (a : Act T) (ha : Timely s a) : Inv irq (step irq s a) := by
  cases a with
  | move t c => exact h.exec ha
  | reply t => exact h.reply

theorem settled_of_timely (irq : T → Bool) (as : List (Act T))
    (h : Machine.Along (step irq) Timely boot as) :
    Machine.Along (step irq) (fun s a => Settled irq (step irq s a)) boot as :=
  h.imp (fun _ a hs ha => hs.step a ha) (fun _ a hs ha => (hs.step a ha).settled) boot_inv

theorem settled_receive_send :
    let go (t : Fin 2) : Act (Fin 2) := .move t ⟨decide (t = 1), false, 0, true⟩
    let as := [0, 0, 0, 0, 0, 1, 1, 1, 1, 1, 1, 1, 1, 1, 1, 0, 0].map go
    Machine.Along (step fun _ => false) Timely boot as ∧
      Machine.Along (step fun _ => false) (fun s a => Settled (fun _ => false) (step (fun _ => false) s a))
        boot as :=
  ⟨by decide, settled_of_timely _ _ (by decide)⟩

theorem exclusive_of_timely {as : List (Act T)} (h : Machine.Along (step irq) Timely boot as) :
    let s := Machine.run (step irq) boot as
    (s.loc i).holds = some x → x ∉ s.shared.waitQ.elems ∧ ∀ j, (s.loc j).holds = some x → j = i := by
  intro s hi
  have hinv : Inv irq s := h.invariant (fun _ a hs ha => hs.step a ha) boot_inv
  refine ⟨fun hm => ?_, fun j hj => hinv.custody.unique j i x hj hi⟩
  simpa [view, hm] using (hinv.custody.held i x hi).1

theorem exclusive_meet :
    0 ∉ (Machine.run (step fun _ => false) boot ([0, 0, 0, 0, 1, 1].map fun t : Fin 2 =>
      .move t ⟨decide (t = 1), false, 0, true⟩)).shared.waitQ.elems :=
  (exclusive_of_timely (i := 1) (by decide) (by decide)).1

/-- A sender takes the receiver out of the queue before it blocks, and both sleep. A receiver
completes a message before the sender blocks, and the sender sleeps. -/
theorem not_settled_before_block :
    let go (t : Fin 2) : Act (Fin 2) := .move t ⟨decide (t = 1), false, 0, true⟩
    ¬Settled (fun _ => false) (Machine.run (step fun _ => false) boot
      ([0, 0, 0, 0, 1, 1, 1, 1, 1, 1, 1, 1, 0].map go)) ∧
    ¬Settled (fun _ => false) (Machine.run (step fun _ => false) boot
      ([1, 1, 1, 1, 0, 0, 0, 0, 0, 0, 0, 0, 1, 1].map go)) := by
  refine ⟨fun h => h.not_stuck ⟨by decide, 0, by decide, 1, .inr (by decide)⟩,
    fun h => h.not_lost ⟨1, by decide, .inr ⟨by decide, .inl (by decide)⟩⟩⟩

end Fiasco.Ipc.WaitQueue
