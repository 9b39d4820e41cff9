import Fiasco.Ipc.ReplyCap
import Fiasco.Lib.Machine

/-!
# Calls and replies

The IPC operations as far as they touch the reply capabilities: `_do_ipc` with its send and its
receive phase, the transfer of a message, aborts, and the operations of wait queues. A thread
is in one phase at a time. The phases follow each other without interruption here; which thread
gets on next, which transfers fail, and which waits are aborted is free.
-/

namespace Fiasco.Ipc

open Machine Function List

variable {T W : Type*}

inductive Poi (T W : Type*) where
  | null
  | thread (t : T)
  | queue (w : W)
deriving DecidableEq

def Poi.ofSender : Option T → Poi T W
  | none => .null
  | some t => .thread t

inductive Phase (T W : Type*) where
  | running
  | send (partner : T) (sender : Option T)
  | receive (sender partner : Option T)
  /-- `Wait_queue::do_send_ipc`, until a receiver takes the message -/
  | queued (w : W)
  | reply
  | wait (w : W)
deriving DecidableEq

def Phase.receives : Phase T W → Bool
  | .receive _ _ | .reply | .wait _ => true
  | _ => false

def Phase.waits : Phase T W → Bool
  | .wait _ => true
  | _ => false

structure State (T W : Type*) where
  links : Links T
  rcvPrepared : T → Bool
  wantReplyCap : T → Bool
  poi : T → Poi T W
  phase : T → Phase T W
  prio : T → ℕ
  queue : W → List T
  hasSenders : W → Bool

def State.boot : State T W :=
  ⟨.none, fun _ => false, fun _ => false, fun _ => .null, fun _ => .running, fun _ => 0,
    fun _ => [], fun _ => false⟩

namespace State

variable [DecidableEq T] [DecidableEq W]

section

variable (s : State T W) (w : W) (t : T)

def setPoi (p : Poi T W) : State T W :=
  { s with poi := update s.poi t p }

def setPhase (p : Phase T W) : State T W :=
  { s with phase := update s.phase t p }

def setRcvRegs (haveReceive want : Bool) : State T W :=
  { s with
    rcvPrepared := update s.rcvPrepared t haveReceive
    wantReplyCap := update s.wantReplyCap t (haveReceive && want) }

def prepareReceive (haveReceive want : Bool) (partner : Option T) :
    State T W :=
  (s.setRcvRegs t haveReceive want).setPoi t (.ofSender partner)

def doIpc (partner : Option T) (haveReceive want : Bool)
    (sender : Option T) : State T W :=
  let s := s.prepareReceive t haveReceive want sender
  match partner with
  | some p => { s with links := s.links.resetCallerOf t p }.setPhase t (.send p sender)
  | none => s.setPhase t (.receive sender none)

def transferMsg (t r : T) (rights : Fin 4) (success : Bool) : State T W :=
  { s with
    links := if success && s.poi t = .thread r then
      s.links.setReplyCap (s.wantReplyCap r) r t rights else s.links }

def received (r : T) : State T W :=
  { s with
    poi := if (s.phase r).waits then update s.poi r .null else s.poi
    phase := update s.phase r .running }

def insert (prio : ℕ) (senders : Bool) : State T W :=
  let p := update s.prio t prio
  { s with
    prio := p
    queue := update s.queue w ((s.queue w).orderedInsert (fun t u => p u < p t) t)
    hasSenders := update s.hasSenders w senders }

def dequeue : State T W :=
  { s with queue := update s.queue w ((s.queue w).erase t) }

def front (senders : Bool) : Option T :=
  if s.hasSenders w = senders then (s.queue w).head? else none

end

end State

inductive Event (T W : Type*) where
  /-- `Thread_object::invoke`, the reply of `Wait_queue::invoke`, and `Thread_ipc::do_send_ipc`, which
  passes the receiver as `sender` also if there is no receive phase -/
  | ipc (t : T) (partner : Option T) (haveReceive : Bool) (sender : Option T)
  /-- the message of `t` gets to its partner; `passive` if the partner found it in its list,
  `vcpu` if it is a vCPU that takes messages while it runs -/
  | send (t : T) (rights : Fin 4) (success passive vcpu : Bool)
  | abort (t : T)
  | wqSend (t : T) (w : W) (haveRecv : Bool) (prio : ℕ)
  | wqReceive (t : T) (w : W) (prio : ℕ) (rights : Fin 4) (success : Bool)

namespace State

variable [DecidableEq T] [DecidableEq W]

section

variable (s : State T W)

def accepts (r t : T) : Bool :=
  (s.phase r).receives && (s.poi r = .null || s.poi r = .thread t)

def handOver (t r : T) (rights : Fin 4) (success : Bool) (next : Phase T W) :
    State T W :=
  ((s.transferMsg t r rights success).received r).setPhase t
    (if success && s.rcvPrepared t then next else .running)

def sendTo (t r : T) (sender : Option T) (rights : Fin 4) (success passive : Bool) :
    State T W :=
  (if passive then s.setPoi r (.thread t) else s).handOver t r rights success
    (.receive sender (some r))

def abort (t : T) : State T W :=
  match s.phase t with
  | .running => s
  | .send _ _ | .reply => s.setPhase t .running
  | .receive sender partner =>
    let s := if sender.isSome && sender = partner then
      { s with links := s.links.resetPartnerReplyCap t } else s
    s.setPhase t .running
  | .queued w => (s.dequeue w t).setPhase t .running
  | .wait w => ((s.setPoi t .null).dequeue w t).setPhase t .running

def wqSend (t : T) (w : W) (haveRecv : Bool) (prio : ℕ) : State T W :=
  match s.front w false with
  | some r =>
    ((s.dequeue w r).setPoi r (.thread t)).doIpc t (some r) haveRecv false
      (if haveRecv then some r else none)
  | none =>
    let s := s.setRcvRegs t haveRecv false
    let s := if haveRecv then s.setPoi t (.queue w) else s
    (s.insert w t prio true).setPhase t (.queued w)

def ipcSendMsg (t r : T) (rights : Fin 4) (success : Bool) : State T W :=
  (if s.poi t = .null then s else s.setPoi t (.thread r)).handOver t r rights success .reply

def wqReceive (r : T) (w : W) (prio : ℕ) (rights : Fin 4) (success : Bool) :
    State T W :=
  match s.front w true with
  | some t => ((s.dequeue w t).prepareReceive r true true (some t)).ipcSendMsg t r rights success
  | none =>
    (((s.setRcvRegs r true true).setPoi r (.queue w)).insert w r prio false).setPhase r (.wait w)

end

end State

variable {t r u : T} {w : W}

section Names

variable {s s' : State T W}

def State.Awaits (s : State T W) (c r : T) : Prop :=
  s.poi c = .thread r ∧ ((∃ x y, s.phase c = .receive x y) ∨ s.phase c = .reply)

structure State.Good (s : State T W) : Prop where
  linked : s.links.Linked
  awaits : ∀ r c, s.links.Names r c → s.Awaits c r

structure State.Fine (s : State T W) (t : T) : Prop where
  waits : ∀ r, s.links.Names r t → s.poi t = .thread r ∧
    (s.phase t = .receive (some r) (some r) ∨ s.phase t = .reply)
  send : ∀ p x, s.phase t = .send p x → ¬s.links.Names t p ∧ s.poi t = .ofSender x
  queued : ∀ w, s.phase t = .queued w → s.rcvPrepared t → s.poi t ≠ .null

def State.Stands (s : State T W) (w : W) (t : T) : Prop :=
  if s.hasSenders w then s.phase t = .queued w else s.phase t = .wait w ∧ s.poi t = .queue w

structure State.Inv (s : State T W) : Prop where
  linked : s.links.Linked
  fine : ∀ t, s.Fine t
  member : ∀ w, ∀ t ∈ s.queue w, s.Stands w t
  nodup : ∀ w, (s.queue w).Nodup

namespace State

theorem Inv.good (h : s.Inv) : s.Good where
  linked := h.linked
  awaits := fun r c hn => by
    obtain ⟨hp, hw⟩ := (h.fine c).waits r hn
    exact ⟨hp, hw.imp (fun hr => ⟨_, _, hr⟩) id⟩

theorem Fine.not_named (h : s.Fine t) (hp : (s.phase t).receives = false) : ¬s.links.Names r t := by
  intro hn
  rcases (h.waits r hn).2 with hr | hr <;> simp [hr, Phase.receives] at hp

theorem Fine.congr (h : s.Fine t) (hpoi : s'.poi t = s.poi t) (hphase : s'.phase t = s.phase t)
    (hprep : s'.rcvPrepared t = s.rcvPrepared t) (hn : ∀ r, s'.links.Names r t → s.links.Names r t)
    (hn' : ∀ p, s'.links.Names t p → s.links.Names t p) : s'.Fine t where
  waits := fun r hr => by
    rw [hpoi, hphase]
    exact h.waits r (hn r hr)
  send := fun p x hp => by
    rw [hphase] at hp
    rw [hpoi]
    obtain ⟨hno, hx⟩ := h.send p x hp
    exact ⟨fun hc => hno (hn' p hc), hx⟩
  queued := fun w hw => by
    rw [hphase] at hw
    rw [hpoi, hprep]
    exact h.queued w hw

theorem Fine.of_not_named (hn : ∀ r, ¬s.links.Names r t)
    (hs : ∀ p x, s.phase t ≠ .send p x) (hq : ∀ w, s.phase t ≠ .queued w) : s.Fine t where
  waits := fun r hr => absurd hr (hn r)
  send := fun p x h => absurd h (hs p x)
  queued := fun w h => absurd h (hq w)

theorem Inv.not_mem (h : s.Inv)
    (hw : ∀ w, s.phase t ≠ .queued w ∧ (s.phase t = .wait w → s.poi t ≠ .queue w)) (w : W) :
    t ∉ s.queue w := by
  intro hm
  have hp := h.member w t hm
  rw [Stands] at hp
  split_ifs at hp
  · exact (hw w).1 hp
  · exact (hw w).2 hp.1 hp.2

theorem Inv.of_fine (h : s.Inv) (hl : s'.links.Linked) (hf : ∀ u, s'.Fine u)
    (hq : s'.queue = s.queue) (hs : s'.hasSenders = s.hasSenders)
    (hp : ∀ u, (∃ w, u ∈ s.queue w) → s'.phase u = s.phase u ∧ s'.poi u = s.poi u) : s'.Inv where
  linked := hl
  fine := hf
  member := fun w u hu => by
    rw [hq] at hu
    rw [Stands, hs, (hp u ⟨w, hu⟩).1, (hp u ⟨w, hu⟩).2]
    exact h.member w u hu
  nodup := fun w => by
    rw [hq]
    exact h.nodup w

theorem keeps_of_inv {C : Prop} (hc : C) (h : s.Inv) : Keeps Good Inv C s := .of_inv hc h.good h

theorem boot_inv : (boot : State T W).Inv where
  linked := Links.linked_none
  fine := fun t => .of_not_named (fun r hn => by simp [boot, Links.Names, Links.none] at hn)
    (by simp [boot]) (by simp [boot])
  member := by simp [boot]
  nodup := by simp [boot]

end State

end Names

variable [DecidableEq T] [DecidableEq W]

/-- A thread starts an operation only if it runs; a message gets through only if the partner
accepts it. -/
def step (s : State T W) : Event T W → State T W
  | .ipc t partner haveReceive sender =>
    if s.phase t = .running ∧ (partner.isSome ∨ haveReceive) then
      s.doIpc t partner haveReceive sender.isNone sender
    else s
  | .send t rights success passive vcpu =>
    match s.phase t with
    | .send r sender =>
      if vcpu && s.phase r = .running then
        (s.prepareReceive r true true (some t)).sendTo t r sender rights success passive
      else if s.accepts r t then s.sendTo t r sender rights success passive
      else s
    | _ => s
  | .abort t => s.abort t
  | .wqSend t w haveRecv prio =>
    if s.phase t = .running then s.wqSend t w haveRecv prio else s
  | .wqReceive t w prio rights success =>
    if s.phase t = .running then s.wqReceive t w prio rights success else s

variable {rights : Fin 4} {success : Bool} {s : State T W}

namespace State

variable {senders : Bool}

section Threads

omit [DecidableEq W]

theorem received_poi_of_ne (h : u ≠ r) : (s.received r).poi u = s.poi u := by
  simp only [received]
  split
  · exact update_of_ne h ..
  · rfl

variable (h : s.Inv)
include h

theorem Inv.doIpc (ht : s.phase t = .running) {partner sender : Option T}
    {haveReceive want : Bool} : (s.doIpc t partner haveReceive want sender).Inv := by
  have hnot : ∀ r, ¬s.links.Names r t := fun r => (h.fine t).not_named (by simp [ht, Phase.receives])
  have hmem : ∀ u, (∃ w, u ∈ s.queue w) → u ≠ t := by
    rintro u ⟨w, hu⟩ rfl
    exact h.not_mem (by simp [ht]) _ hu
  cases partner with
  | none =>
    refine h.of_fine h.linked (fun u => ?_) rfl rfl fun u hu =>
      ⟨update_of_ne (hmem u hu) .., update_of_ne (hmem u hu) ..⟩
    by_cases hu : u = t
    · subst hu
      exact .of_not_named hnot (by simp [doIpc, setPhase]) (by simp [doIpc, setPhase])
    · exact (h.fine u).congr (update_of_ne hu ..) (update_of_ne hu ..)
        (update_of_ne hu ..) (fun _ h => h) (fun _ h => h)
  | some p =>
    have hnames : ∀ r c, (s.links.resetCallerOf t p).Names r c → s.links.Names r c :=
      fun r c hn => (h.linked.names_resetCallerOf.1 hn).1
    refine h.of_fine h.linked.resetCallerOf (fun u => ?_) rfl rfl fun u hu =>
      ⟨update_of_ne (hmem u hu) .., update_of_ne (hmem u hu) ..⟩
    by_cases hu : u = t
    · subst hu
      refine ⟨fun r hr => absurd (hnames r u hr) (hnot r), fun q x hq => ?_, fun w hw => ?_⟩
      · simp only [doIpc, setPhase, update_self, Phase.send.injEq] at hq
        obtain ⟨rfl, rfl⟩ := hq
        exact ⟨fun hn => (h.linked.names_resetCallerOf.1 hn).2 ⟨rfl, rfl⟩, update_self ..⟩
      · simp [doIpc, setPhase] at hw
    · exact (h.fine u).congr (update_of_ne hu ..) (update_of_ne hu ..)
        (update_of_ne hu ..) (fun r => hnames r u) (fun r => hnames u r)

theorem Inv.setPoi {p : Poi T W} (hn : ∀ q, ¬s.links.Names q r)
    (hs : ∀ p x, s.phase r ≠ .send p x) (hq : p = .null → ∀ w, s.phase r ≠ .queued w)
    (hm : ∀ w, r ∉ s.queue w) : (s.setPoi r p).Inv := by
  refine h.of_fine h.linked (fun u => ?_) rfl rfl ?_
  · by_cases hu : u = r
    · subst hu
      refine ⟨fun q hq => absurd hq (hn q), fun q x hp => absurd hp (hs q x), fun w hw _ hp => ?_⟩
      have hself : (s.setPoi u p).poi u = p := update_self ..
      exact hq (hself.symm.trans hp) w hw
    · exact (h.fine u).congr (update_of_ne hu ..) rfl rfl (fun _ h => h) (fun _ h => h)
  · rintro u ⟨w, hu⟩
    have hne : u ≠ r := by
      rintro rfl
      exact hm w hu
    exact ⟨rfl, update_of_ne hne ..⟩

theorem Inv.setRcvRegs (ht : s.phase t = .running) (haveReceive want : Bool) :
    (s.setRcvRegs t haveReceive want).Inv := by
  refine h.of_fine h.linked (fun u => ?_) rfl rfl fun _ _ => ⟨rfl, rfl⟩
  by_cases hu : u = t
  · subst hu
    refine .of_not_named (fun q => (h.fine u).not_named (by rw [ht]; rfl)) ?_ ?_
    · simp [setRcvRegs, ht]
    · simp [setRcvRegs, ht]
  · exact (h.fine u).congr rfl rfl (update_of_ne hu ..) (fun _ h => h) (fun _ h => h)

theorem Inv.setRunning (hn : ∀ q, ¬s.links.Names q t) (hq : ∀ w, t ∉ s.queue w) :
    (s.setPhase t .running).Inv := by
  refine h.of_fine h.linked (fun u => ?_) rfl rfl ?_
  · by_cases hu : u = t
    · subst hu
      exact .of_not_named hn (by simp [setPhase]) (by simp [setPhase])
    · exact (h.fine u).congr rfl (update_of_ne hu ..) rfl (fun _ h => h) (fun _ h => h)
  · rintro u ⟨w, hu⟩
    have hne : u ≠ t := by
      rintro rfl
      exact hq w hu
    exact ⟨update_of_ne hne .., rfl⟩

theorem Inv.resetPartner (t : T) :
    ({ s with links := s.links.resetPartnerReplyCap t } : State T W).Inv :=
  h.of_fine h.linked.resetPartner
    (fun u => (h.fine u).congr rfl rfl rfl (fun _ hn => (h.linked.names_resetPartner.1 hn).1)
      (fun _ hn => (h.linked.names_resetPartner.1 hn).1))
    rfl rfl fun _ _ => ⟨rfl, rfl⟩

theorem Inv.prepareReceive (hr : s.phase r = .running) (x : Option T) :
    (s.prepareReceive r true true x).Inv :=
  (h.setRcvRegs hr true true).setPoi (fun q => (h.fine r).not_named (by rw [hr]; rfl))
    (by simp [State.setRcvRegs, hr]) (by simp [State.setRcvRegs, hr])
    (h.not_mem (by simp [hr]))

end Threads

theorem names_transferMsg {q c : T} :
    (s.transferMsg t r rights success).links.Names q c ↔
      if success = true ∧ s.poi t = .thread r ∧ s.wantReplyCap r = true ∧ q = r then c = t
      else s.links.Names q c := by
  rw [transferMsg]
  cases success
  case false => simp
  case true =>
    by_cases hp : s.poi t = .thread r
    · cases hw : s.wantReplyCap r
      · simp [hp, Links.setReplyCap]
      · simp [hp, Links.names_setReplyCap]
    · simp [hp]

theorem linked_transferMsg (hl : s.links.Linked)
    (hn : ∀ q, ¬s.links.Names q t) : (s.transferMsg t r rights success).links.Linked := by
  simp only [transferMsg]
  split_ifs
  · cases s.wantReplyCap r
    · exact hl
    · exact hl.setReplyCap_iff.2 fun q hq => absurd hq (hn q)
  · exact hl

section HandOver

variable {next : Phase T W}

theorem phase_handOver_self : (s.handOver t r rights success next).phase t =
    if success && s.rcvPrepared t then next else .running :=
  update_self ..

theorem phase_handOver_of_ne (h : u ≠ t) (hr : u ≠ r) :
    (s.handOver t r rights success next).phase u = s.phase u :=
  (update_of_ne h ..).trans (update_of_ne hr ..)

theorem phase_handOver_rcv (h : t ≠ r) :
    (s.handOver t r rights success next).phase r = .running :=
  (update_of_ne h.symm ..).trans (update_self ..)

theorem poi_handOver_of_ne (h : u ≠ r) : (s.handOver t r rights success next).poi u = s.poi u :=
  received_poi_of_ne h

theorem Inv.handOver (h : s.Inv) (hne : t ≠ r) (ht : ∀ q, ¬s.links.Names q t)
    (hr : ∀ q, ¬s.links.Names q r) (htq : ∀ w, t ∉ s.queue w) (hrq : ∀ w, r ∉ s.queue w)
    (hnext : (∃ x y, next = .receive x y) ∨ next = .reply)
    (hlink : success = true → s.poi t = .thread r → s.wantReplyCap r = true →
      s.rcvPrepared t = true ∧ (next = .receive (some r) (some r) ∨ next = .reply)) :
    (s.handOver t r rights success next).Inv := by
  have hnames : ∀ q c, (s.handOver t r rights success next).links.Names q c ↔ _ :=
    fun q c => names_transferMsg
  refine h.of_fine (linked_transferMsg h.linked ht) (fun u => ?_) rfl rfl ?_
  · by_cases hut : u = t
    · subst hut
      refine ⟨fun q hq => ?_, fun p x hp => ?_, fun w hw => ?_⟩
      · rw [hnames] at hq
        split_ifs at hq with hc
        · obtain ⟨hsucc, hp, hw, rfl⟩ := hc
          obtain ⟨hprep, hn⟩ := hlink hsucc hp hw
          rw [poi_handOver_of_ne hne, phase_handOver_self, hsucc, hprep]
          exact ⟨hp, hn⟩
        · exact absurd hq (ht q)
      · rw [phase_handOver_self] at hp
        rcases hnext with ⟨x', y', rfl⟩ | rfl <;> split_ifs at hp
      · rw [phase_handOver_self] at hw
        rcases hnext with ⟨x', y', rfl⟩ | rfl <;> split_ifs at hw
    by_cases hur : u = r
    · subst hur
      refine .of_not_named (fun q hq => ?_) ?_ ?_
      · rw [hnames] at hq
        split_ifs at hq
        · exact hut hq
        · exact hr q hq
      · simp [phase_handOver_rcv hne]
      · simp [phase_handOver_rcv hne]
    · refine (h.fine u).congr (poi_handOver_of_ne hur) (phase_handOver_of_ne hut hur) rfl
        (fun q hq => ?_) (fun p hp => ?_)
      · rw [hnames] at hq
        split_ifs at hq
        · exact absurd hq hut
        · exact hq
      · rw [hnames] at hp
        split_ifs at hp with hc
        · exact absurd hc.2.2.2 hur
        · exact hp
  · rintro u ⟨w, hu⟩
    have hut : u ≠ t := by
      rintro rfl
      exact htq w hu
    have hur : u ≠ r := by
      rintro rfl
      exact hrq w hu
    exact ⟨phase_handOver_of_ne hut hur, poi_handOver_of_ne hur⟩

theorem sendTo_keeps (h : s.Inv) {x : Option T} {passive : Bool} (ht : s.phase t = .send r x)
    (hne : t ≠ r) (hr : ∀ q, ¬s.links.Names q r) (hs : ∀ p x, s.phase r ≠ .send p x)
    (hm : ∀ w, r ∉ s.queue w) :
    Keeps Good Inv
      (success = true → x = some r → s.wantReplyCap r = true → s.rcvPrepared t = true)
      (s.sendTo t r x rights success passive) := by
  obtain ⟨-, hpoi⟩ := (h.fine t).send r x ht
  have htn : ∀ q, ¬s.links.Names q t := fun q => (h.fine t).not_named (by rw [ht]; rfl)
  have htq : ∀ w, t ∉ s.queue w := h.not_mem (by simp [ht])
  -- what the message is handed over with, found in the list or not
  obtain ⟨s', hs', hinv, hpoi', hwant, hprep, hlinks, hqueue⟩ : ∃ s' : State T W,
      s.sendTo t r x rights success passive = s'.handOver t r rights success (.receive x (some r)) ∧
      s'.Inv ∧ s'.poi t = .ofSender x ∧ s'.wantReplyCap = s.wantReplyCap ∧
      s'.rcvPrepared = s.rcvPrepared ∧ s'.links = s.links ∧ s'.queue = s.queue := by
    cases passive with
    | true => exact ⟨s.setPoi r (.thread t), rfl, h.setPoi hr hs (by simp) hm,
        (update_of_ne hne ..).trans hpoi, rfl, rfl, rfl, rfl⟩
    | false => exact ⟨s, rfl, h, hpoi, rfl, rfl, rfl, rfl⟩
  have hx : s'.poi t = .thread r ↔ x = some r := by
    rw [hpoi']
    cases x <;> simp [Poi.ofSender]
  rw [hs', ← hwant, ← hprep]
  rw [← hlinks] at htn hr
  rw [← hqueue] at htq hm
  by_cases hc : success = true → x = some r → s'.wantReplyCap r = true → s'.rcvPrepared t = true
  · refine keeps_of_inv hc (hinv.handOver hne htn hr htq hm (.inl ⟨_, _, rfl⟩) fun hsucc hp hw => ?_)
    rw [hx] at hp
    exact ⟨hc hsucc hp hw, .inl (by rw [hp])⟩
  · -- the sender goes on, and the receiver names it
    simp only [Classical.not_imp] at hc
    obtain ⟨hsucc, hp, hw, hno⟩ := hc
    refine Keeps.of_not (fun hc => hno (hc hsucc hp hw)) fun hg => ?_
    have hname : (s'.handOver t r rights success (.receive x (some r))).links.Names r t :=
      names_transferMsg.2 (by simp [hsucc, hx.mpr hp, hw])
    obtain ⟨-, hwaits⟩ := hg.awaits r t hname
    rw [phase_handOver_self] at hwaits
    simp [hno] at hwaits

end HandOver

theorem Inv.dequeue (h : s.Inv) (w : W) (t : T) : (s.dequeue w t).Inv := by
  have hsub : ∀ v, ((s.dequeue w t).queue v).Sublist (s.queue v) := by
    intro v
    by_cases hv : v = w
    · subst hv
      simp only [State.dequeue, update_self]
      exact erase_sublist
    · simp only [State.dequeue, update_of_ne hv]
      exact List.Sublist.refl _
  exact ⟨h.linked, fun u => (h.fine u).congr rfl rfl rfl (fun _ h => h) (fun _ h => h),
    fun v u hu => h.member v u ((hsub v).mem hu), fun v => (hsub v).nodup (h.nodup v)⟩

omit [DecidableEq T] [DecidableEq W] in
theorem Stands.unique {v : W} (h : s.Stands w t) (h' : s.Stands v t) : v = w := by
  rw [Stands] at h h'
  split_ifs at h h'
  · rw [h] at h'
    cases h'
    rfl
  · rw [h] at h'
    cases h'.1
  · rw [h.1] at h'
    cases h'
  · rw [h.1] at h'
    cases h'.1
    rfl

theorem Inv.not_mem_dequeue (h : s.Inv) (hw : ∀ v, s.Stands v t → v = w) (v : W) :
    t ∉ (s.dequeue w t).queue v := by
  intro hm
  by_cases hv : v = w
  · subst hv
    simp only [State.dequeue, update_self] at hm
    exact (h.nodup v).not_mem_erase hm
  · simp only [State.dequeue, update_of_ne hv] at hm
    exact hv (hw v (h.member v t hm))

section

omit [DecidableEq T] [DecidableEq W]

theorem mem_of_front (h : s.front w senders = some t) :
    t ∈ s.queue w ∧ s.hasSenders w = senders := by
  rw [front] at h
  split_ifs at h with hs
  exact ⟨mem_of_mem_head? h, hs⟩

theorem hasSenders_of_front (h : s.front w (!senders) = none)
    (hu : u ∈ s.queue w) : s.hasSenders w = senders := by
  rw [front] at h
  split_ifs at h with hs
  · rw [head?_eq_none_iff.1 h] at hu
    cases hu
  · exact (Bool.not_eq_not.1 hs)

end

theorem Inv.join (h : s.Inv) (senders : Bool) {prio : ℕ} (ht : ∀ q, ¬s.links.Names q t)
    (htq : ∀ v, t ∉ s.queue v) (hf : s.front w (!senders) = none)
    (hprep : senders = true → s.rcvPrepared t = true → s.poi t ≠ .null)
    (hpoi : senders = false → s.poi t = .queue w) :
    ((s.insert w t prio senders).setPhase t (if senders then .queued w else .wait w)).Inv := by
  have hphase : ∀ u, u ≠ t → ((s.insert w t prio senders).setPhase t
      (if senders then .queued w else .wait w)).phase u = s.phase u :=
    fun u hu => update_of_ne hu ..
  have hself : ((s.insert w t prio senders).setPhase t
      (if senders then .queued w else .wait w)).phase t = if senders then .queued w else .wait w :=
    update_self ..
  refine ⟨h.linked, fun u => ?_, fun v u hu => ?_, fun v => ?_⟩
  · by_cases hut : u = t
    · subst hut
      refine ⟨fun q hq => absurd hq (ht q), fun p x hp => ?_, fun v hv hp => ?_⟩
      · rw [hself] at hp
        split_ifs at hp
      · rw [hself] at hv
        split_ifs at hv with hs
        exact hprep hs hp
    · exact (h.fine u).congr rfl (hphase u hut) rfl (fun _ h => h) (fun _ h => h)
  · by_cases hv : v = w
    · subst hv
      have hsend : ((s.insert v t prio senders).setPhase t
          (if senders then .queued v else .wait v)).hasSenders v = senders :=
        update_self ..
      simp only [setPhase, insert, update_self, mem_orderedInsert] at hu
      rw [Stands, hsend]
      rcases hu with rfl | hu
      · rw [hself]
        cases senders with
        | true => rfl
        | false => exact ⟨rfl, hpoi rfl⟩
      · have hut : u ≠ t := by
          rintro rfl
          exact htq v hu
        have hm := h.member v u hu
        rw [Stands, hasSenders_of_front hf hu] at hm
        rw [hphase u hut]
        exact hm
    · simp only [setPhase, insert, update_of_ne hv] at hu
      have hut : u ≠ t := by
        rintro rfl
        exact htq v hu
      have hsend : ((s.insert w t prio senders).setPhase t
          (if senders then .queued w else .wait w)).hasSenders v = s.hasSenders v :=
        update_of_ne hv ..
      rw [Stands, hsend, hphase u hut]
      exact h.member v u hu
  · by_cases hv : v = w
    · subst hv
      simp only [setPhase, insert, update_self]
      exact (perm_orderedInsert _ _ _).nodup_iff.2 (nodup_cons.2 ⟨htq v, h.nodup v⟩)
    · simp only [setPhase, insert, update_of_ne hv]
      exact h.nodup v

end State

def State.takesCaller (s : State T W) (r t : T) (vcpu : Bool) : Bool :=
  if vcpu && s.phase r = .running then true else s.accepts r t && s.wantReplyCap r

/-- The reply wait of a sender that was in a wait queue is not aborted while a receiver names it,
and a message without a receive phase gets from a wait queue or through an IPC gate to nobody who
takes the sender for its caller. -/
def Clean (s : State T W) : Event T W → Prop
  | .send t _ success _ vcpu => success = true → ∀ r, s.phase t = .send r (some r) →
    s.takesCaller r t vcpu = true → s.rcvPrepared t = true
  | .abort t => s.phase t = .reply → s.links.partnerReplyCap t = none
  | .wqReceive r w _ _ success => s.phase r = .running → success = true →
    ∀ t, s.front w true = some t → s.rcvPrepared t = true ∨ s.poi t = .null
  | _ => True

namespace State

variable {prio : ℕ}

variable (h : s.Inv)
include h

theorem abort_keeps (t : T) :
    Keeps Good Inv (s.phase t = .reply → s.links.partnerReplyCap t = none) (s.abort t) := by
  rw [abort]
  split
  · next ht => exact keeps_of_inv (by simp [ht]) h
  · next p x ht =>
    exact keeps_of_inv (by simp [ht]) (h.setRunning (fun q => (h.fine t).not_named (by rw [ht]; rfl))
      (h.not_mem (by simp [ht])))
  · next ht =>
    have hq : ∀ w, t ∉ s.queue w := h.not_mem (by simp [ht])
    cases hp : s.links.partnerReplyCap t with
    | none =>
      refine keeps_of_inv (fun _ => rfl) (h.setRunning (fun q hn => ?_) hq)
      rw [h.linked, hp] at hn
      cases hn
    | some q =>
      -- the caller does not wait any more, and `q` still names it
      refine Keeps.of_not (fun hc => by cases hc ht) fun hg => ?_
      obtain ⟨-, hw⟩ := hg.awaits q t ((h.linked q t).2 hp)
      simp [setPhase] at hw
  · next x y ht =>
    have hq : ∀ w, t ∉ s.queue w := h.not_mem (by simp [ht])
    refine keeps_of_inv (by simp [ht]) ?_
    split_ifs with hxy
    · exact (h.resetPartner t).setRunning
        (fun q hn => (h.linked.names_resetPartner.1 hn).2 rfl) hq
    · refine h.setRunning (fun q hn => hxy ?_) hq
      rcases ((h.fine t).waits q hn).2 with hr | hr
      · rw [ht] at hr
        cases hr
        simp
      · rw [ht] at hr
        cases hr
  · next w ht =>
    refine keeps_of_inv (by simp [ht]) ((h.dequeue w t).setRunning
      (fun q => (h.fine t).not_named (by rw [ht]; rfl)) (h.not_mem_dequeue fun v hv => ?_))
    rw [Stands, ht] at hv
    split_ifs at hv
    · cases hv
      rfl
    · cases hv.1
  · next w ht =>
    have hn : ∀ q, ¬s.links.Names q t := by
      intro q hn
      rcases ((h.fine t).waits q hn).2 with hr | hr <;> simp [ht] at hr
    have hm : ∀ v, t ∉ (s.dequeue w t).queue v := by
      refine h.not_mem_dequeue fun v hv => ?_
      rw [Stands, ht] at hv
      split_ifs at hv
      · cases hv.1
        rfl
    have hp : ((s.dequeue w t).setPoi t .null).Inv :=
      (h.dequeue w t).setPoi hn (by simp [dequeue, ht]) (by simp [dequeue, ht]) hm
    exact keeps_of_inv (by simp [ht]) (hp.setRunning hn hm)

theorem Inv.takeReceiver (hr : s.front w false = some r) (p : Poi T W) :
    ((s.dequeue w r).setPoi r p).Inv := by
  obtain ⟨hm, hs⟩ := mem_of_front hr
  have hst := h.member w r hm
  have hp : s.phase r = .wait w := by
    rw [Stands, hs] at hst
    exact hst.1
  refine (h.dequeue w r).setPoi (fun q hn => ?_) (by simp [State.dequeue, hp])
    (by simp [State.dequeue, hp]) (h.not_mem_dequeue fun v hv => hst.unique hv)
  rcases ((h.fine r).waits q hn).2 with hr | hr <;> simp [hp] at hr

theorem Inv.wqSend (ht : s.phase t = .running) {haveRecv : Bool} :
    (s.wqSend t w haveRecv prio).Inv := by
  rw [State.wqSend]
  split
  · next r hr =>
    exact (h.takeReceiver hr _).doIpc ht
  · next hf =>
    have hq : ∀ w, t ∉ s.queue w := h.not_mem (by simp [ht])
    have hn : ∀ q, ¬s.links.Names q t := fun q => (h.fine t).not_named (by rw [ht]; rfl)
    have hregs := h.setRcvRegs ht haveRecv false
    cases haveRecv with
    | true =>
      have hpoi : ((s.setRcvRegs t true false).setPoi t (.queue w)).Inv :=
        hregs.setPoi hn (by simp [State.setRcvRegs, ht]) (by simp) hq
      exact hpoi.join true hn hq hf (fun _ _ => by simp [State.setPoi]) (by simp)
    | false =>
      exact hregs.join true hn hq hf (by simp [State.setRcvRegs]) (by simp)

theorem ipcSendMsg_keeps (hr : s.phase r = .running)
    (ht : s.phase t = .queued w) (hq : ∀ v, t ∉ s.queue v) (hwant : s.wantReplyCap r = true) :
    Keeps Good Inv (success = true → s.rcvPrepared t = true ∨ s.poi t = .null)
      (s.ipcSendMsg t r rights success) := by
  have hne : t ≠ r := by
    rintro rfl
    rw [ht] at hr
    cases hr
  have htn : ∀ q, ¬s.links.Names q t := fun q => (h.fine t).not_named (by rw [ht]; rfl)
  have hrn : ∀ q, ¬s.links.Names q r := fun q => (h.fine r).not_named (by rw [hr]; rfl)
  have hrq : ∀ v, r ∉ s.queue v := h.not_mem (by simp [hr])
  rw [ipcSendMsg]
  by_cases hp : s.poi t = .null
  · rw [if_pos hp]
    refine keeps_of_inv (fun _ => .inr hp) (h.handOver hne htn hrn hq hrq (.inr rfl) fun _ hp' => ?_)
    rw [hp] at hp'
    cases hp'
  rw [if_neg hp]
  by_cases hc : success = true → s.rcvPrepared t = true
  · have hpoi : (s.setPoi t (.thread r)).Inv := h.setPoi htn (by simp [ht]) (by simp) hq
    exact keeps_of_inv (fun hs => .inl (hc hs))
      (hpoi.handOver hne htn hrn hq hrq (.inr rfl) fun hs _ _ => ⟨hc hs, .inr rfl⟩)
  · -- the sender goes on, and the receiver names it
    obtain ⟨hs, hprep⟩ := Classical.not_imp.1 hc
    refine Keeps.of_not (fun h => (h hs).elim hprep hp) fun hg => ?_
    have hname : ((s.setPoi t (.thread r)).handOver t r rights success .reply).links.Names r t :=
      names_transferMsg.2 (by simp [hs, setPoi, hwant])
    obtain ⟨-, hw⟩ := hg.awaits r t hname
    rw [phase_handOver_self] at hw
    simp [setPoi, hprep] at hw

theorem wqReceive_keeps (hr : s.phase r = .running) : Keeps Good Inv (success = true →
      ∀ t, s.front w true = some t → s.rcvPrepared t = true ∨ s.poi t = .null)
      (s.wqReceive r w prio rights success) := by
  rw [wqReceive]
  split
  · next t hf =>
    obtain ⟨hm, hs⟩ := mem_of_front hf
    have hst := h.member w t hm
    have ht : s.phase t = .queued w := by
      rw [Stands, hs] at hst
      exact hst
    have hne : t ≠ r := by
      rintro rfl
      rw [ht] at hr
      cases hr
    have hprep : ((s.dequeue w t).prepareReceive r true true (some t)).rcvPrepared t =
        s.rcvPrepared t := update_of_ne hne ..
    have hpoi : ((s.dequeue w t).prepareReceive r true true (some t)).poi t = s.poi t :=
      update_of_ne hne ..
    refine (ipcSendMsg_keeps ((h.dequeue w t).prepareReceive hr (some t)) hr ht
      (h.not_mem_dequeue fun v hv => hst.unique hv) (update_self ..)).congr ?_
    rw [hprep, hpoi, hf]
    simp
  · next hf =>
    have hq : ∀ w, r ∉ s.queue w := h.not_mem (by simp [hr])
    have hn : ∀ q, ¬s.links.Names q r := fun q => (h.fine r).not_named (by rw [hr]; rfl)
    have hpoi : ((s.setRcvRegs r true true).setPoi r (.queue w)).Inv :=
      (h.setRcvRegs hr true true).setPoi hn (by simp [setRcvRegs, hr]) (by simp) hq
    exact keeps_of_inv (by simp [hf])
      (hpoi.join false hn hq hf (by simp) fun _ => update_self ..)

theorem Inv.not_named_of_accepts {x : Option T} (ht : s.phase t = .send r x)
    (ha : s.accepts r t = true) (q : T) : ¬s.links.Names q r := by
  intro hn
  obtain ⟨hp, -⟩ := (h.fine r).waits q hn
  simp only [accepts, hp, Bool.and_eq_true, Bool.or_eq_true, decide_eq_true_eq, reduceCtorEq,
    false_or, Poi.thread.injEq] at ha
  obtain ⟨-, rfl⟩ := ha
  exact ((h.fine q).send r x ht).1 hn

theorem step_keeps (e : Event T W) : Keeps Good Inv (Clean s e) (step s e) := by
  cases e with
  | ipc t partner haveReceive sender =>
    rw [step]
    split_ifs with hc
    · exact keeps_of_inv trivial (h.doIpc hc.1)
    · exact keeps_of_inv trivial h
  | send t rights success passive vcpu =>
    rw [step]
    split
    · next r x ht =>
      have hclean : ∀ b : Bool, s.takesCaller r t vcpu = b →
          ((success = true → x = some r → b = true → s.rcvPrepared t = true) ↔
            Clean s (.send t rights success passive vcpu)) := by
        rintro b rfl
        simp only [Clean, ht, Phase.send.injEq]
        refine ⟨fun hc hs r' hr ht => ?_, fun hc hs hx ht => hc hs r ⟨rfl, hx⟩ ht⟩
        obtain ⟨rfl, hx⟩ := hr
        exact hc hs hx ht
      have hne : s.phase r = .running ∨ (s.phase r).receives = true → t ≠ r := by
        rintro hr rfl
        rw [ht] at hr
        rcases hr with hr | hr <;> cases hr
      split_ifs with hv ha
      · have hr : s.phase r = .running := by simpa using (Bool.and_eq_true_iff.mp hv).2
        refine (sendTo_keeps (h.prepareReceive hr (some t)) ht (hne (.inl hr))
          (fun q => (h.fine r).not_named (by rw [hr]; rfl)) ?_ (h.not_mem (by simp [hr]))).congr ?_
        · simp [prepareReceive, setRcvRegs, setPoi, hr]
        · have hwant : (s.prepareReceive r true true (some t)).wantReplyCap r = true := update_self ..
          have hprep : (s.prepareReceive r true true (some t)).rcvPrepared t = s.rcvPrepared t :=
            update_of_ne (hne (.inl hr)) ..
          rw [hwant, hprep]
          exact hclean true (by rw [takesCaller, if_pos hv])
      · have hacc := ha
        simp only [accepts, Bool.and_eq_true, Bool.or_eq_true, decide_eq_true_eq] at hacc
        refine (sendTo_keeps h ht (hne (.inr hacc.1)) (h.not_named_of_accepts ht ha)
          (fun p y hp => by simp [hp, Phase.receives] at hacc)
          (h.not_mem fun v => ⟨fun hp => ?_, fun _ hp => ?_⟩)).congr
            (hclean _ (by rw [takesCaller, if_neg hv, ha, Bool.true_and]))
        · simp [hp, Phase.receives] at hacc
        · simp [hp] at hacc
      · have hno : s.takesCaller r t vcpu = false := by
          rw [takesCaller, if_neg hv, Bool.eq_false_iff.mpr ha, Bool.false_and]
        exact keeps_of_inv ((hclean _ hno).mp nofun) h
    · next hno =>
      exact keeps_of_inv (fun _ r hr => absurd hr (hno r (some r))) h
  | abort t => exact abort_keeps h t
  | wqSend t w haveRecv prio =>
    rw [step]
    split_ifs with ht
    · exact keeps_of_inv trivial (h.wqSend ht)
    · exact keeps_of_inv trivial h
  | wqReceive r w prio rights success =>
    rw [step]
    split_ifs with hr
    · exact (wqReceive_keeps h hr).congr ⟨fun hc _ => hc, fun hc => hc hr⟩
    · exact keeps_of_inv (fun h => absurd h hr) h

end State

theorem reply_good_iff (es : List (Event T W)) :
    Along step (fun s e => (step s e).Good) State.boot es ↔
      Along step Clean State.boot es :=
  along_good_iff (fun _ e h => State.step_keeps h e) State.boot_inv

/-- Thread 0 calls through a wait queue, thread 1 takes the message, and thread 0 gives up. It calls
again, and thread 2 takes the message. -/
def callsAgain : List (Event (Fin 3) Unit) :=
  [.wqSend 0 () true 0, .wqReceive 1 () 0 3 true, .abort 0, .wqSend 0 () true 0,
    .wqReceive 2 () 0 3 true]

/-- Thread 0 sends two messages through an IPC gate, without waiting for a reply. -/
def sendsTwice : List (Event (Fin 3) Unit) :=
  [.ipc 1 none true none, .ipc 2 none true none, .ipc 0 (some 1) false (some 1),
    .send 0 3 true false false, .ipc 0 (some 2) false (some 2), .send 0 3 true false false]

def NamedTwice (s : State (Fin 3) Unit) : Prop :=
  s.links.Names 1 0 ∧ s.links.Names 2 0 ∧ s.links.partnerReplyCap 0 = some 2 ∧ ¬s.Good

theorem namedTwice {s : State (Fin 3) Unit} (h₁ : s.links.replyCap 1 = some ⟨0, 3⟩)
    (h₂ : s.links.replyCap 2 = some ⟨0, 3⟩) (hp : s.links.partnerReplyCap 0 = some 2) :
    NamedTwice s :=
  ⟨⟨3, h₁⟩, ⟨3, h₂⟩, hp, fun h => absurd (h.linked.caller_unique ⟨3, h₁⟩ ⟨3, h₂⟩) (by decide)⟩

theorem reply_two_receivers :
    NamedTwice (run step .boot callsAgain) ∧ NamedTwice (run step .boot sendsTwice) := by
  constructor <;> apply namedTwice <;> decide

-- A message without a receive phase: thread 1 can reply to thread 0, which does not wait.
example : (run step (.boot : State (Fin 3) Unit)
    [.ipc 0 (some 2) true (some 2), .abort 0, .wqSend 0 () false 0,
      .wqReceive 1 () 0 3 true]).links.replyCap 1 = some ⟨0, 3⟩ := by decide

end Fiasco.Ipc
