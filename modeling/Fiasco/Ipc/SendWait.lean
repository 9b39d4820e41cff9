import Fiasco.Lib.Machine

/-!
# A sender that waits

A sender in the list of its partner waits in `do_send_wait`. The partner, on another CPU, takes it
out of the list, and either transfers the message with `ipc_send_msg` or puts it back. A timeout
or a cancel makes the sender give up with `abort_send`. Each access to the list and to the state
of the sender is one step.
-/
namespace Fiasco.Ipc.SendWait

open Machine

structure Bits where
  ready : Bool
  sendWait : Bool
  receiveWait : Bool
  sendInProgress : Bool
  transferFailed : Bool
  cancel : Bool
  timeout : Bool
deriving DecidableEq

def Bits.delFull (b : Bits) : Bits := ⟨b.ready, false, false, false, false, false, false⟩

inductive Error where
  | canceled
  | timeout
deriving DecidableEq

inductive Result where
  | success
  | aborted (e : Error)
  | transferFailed
deriving DecidableEq

inductive Spc where
  | start
  | loop
  | asleep
  | decide (seen : Bits)
  | delFailed
  | abort (e : Error)
  | delAborted (e : Error)
  | spin
  | spinAsleep
  | delDone
  | returned (r : Result)
deriving DecidableEq

inductive Rpc where
  | idle
  | claim
  | requeue
  | mark
  | transfer
  | complete (success : Bool)
  | wake
deriving DecidableEq

/-- `transferred` tells whether the receiver has got the whole message. -/
structure State where
  bits : Bits
  queued : Bool
  spc : Spc
  rpc : Rpc
  expiring : Bool
  transferred : Bool
deriving DecidableEq

def boot : State :=
  ⟨⟨true, true, false, false, false, false, false⟩, true, .start, .idle, false, false⟩

/-- A step of the sender; `expired` if the timeout is zero or in the past at the start. -/
def sender (s : State) (expired : Bool) : State :=
  match s.spc with
  | .start => { s with spc := if expired then .abort .timeout else .loop }
  | .loop =>
    if s.bits.sendWait && !(s.bits.transferFailed || s.bits.cancel || s.bits.timeout) then
      { s with bits := { s.bits with ready := false }, spc := .asleep }
    else { s with spc := .decide s.bits }
  | .asleep => { s with spc := if s.bits.ready then .loop else .asleep }
  | .decide b =>
    { s with spc :=
        if !(b.sendWait || b.transferFailed || b.cancel || b.timeout) then .returned .success
        else if b.transferFailed then .delFailed
        else if b.cancel then .abort .canceled
        else if b.timeout then .abort .timeout
        else .returned .success }
  | .delFailed => { s with bits := s.bits.delFull, spc := .returned .transferFailed }
  | .abort e =>
    if s.queued then { s with queued := false, spc := .delAborted e } else { s with spc := .spin }
  | .delAborted e => { s with bits := s.bits.delFull, spc := .returned (.aborted e) }
  | .spin =>
    if s.bits.sendInProgress then
      { s with bits := { s.bits with ready := false }, spc := .spinAsleep }
    else { s with spc := .delDone }
  | .spinAsleep => { s with spc := if s.bits.ready then .spin else .spinAsleep }
  | .delDone => { s with bits := s.bits.delFull, spc := .returned .success }
  | .returned _ => s

/-- A step of the receiver. With `ok` it takes the sender out of the list, gets into
`Thread_receive_in_progress`, and transfers the whole message. `prepared` if the sender has a
receive phase. -/
def receiver (prepared : Bool) (s : State) (ok : Bool) : State :=
  match s.rpc with
  | .idle => if s.queued && ok then { s with queued := false, rpc := .claim } else s
  | .claim => { s with rpc := if ok then .mark else .requeue }
  | .requeue => { s with queued := true, rpc := .idle }
  | .mark => { s with bits := { s.bits with sendInProgress := true }, rpc := .transfer }
  | .transfer => { s with transferred := s.transferred || ok, rpc := .complete ok }
  | .complete success =>
    if success then
      { s with
        bits := { s.bits with
          ready := true, sendWait := false, sendInProgress := false, receiveWait := prepared }
        rpc := .wake }
    else { s with bits := { s.bits with ready := true, transferFailed := true }, rpc := .wake }
  | .wake => { s with rpc := .idle }

def expire (s : State) : State :=
  if s.expiring then
    { s with bits := { s.bits with ready := true, timeout := true }, expiring := false }
  else { s with expiring := s.bits.sendWait || s.bits.receiveWait || s.bits.sendInProgress }

def cancel (s : State) : State := { s with bits := { s.bits with ready := true, cancel := true } }

inductive Act where
  | sender (expired : Bool)
  | receiver (ok : Bool)
  | expire
  | cancel

def step (prepared : Bool) (s : State) : Act → State
  | .sender expired => sender s expired
  | .receiver ok => receiver prepared s ok
  | .expire => expire s
  | .cancel => cancel s

def Rpc.free : Rpc → Bool
  | .idle | .wake => true
  | _ => false

def Rpc.early : Rpc → Bool
  | .claim | .requeue | .mark => true
  | _ => false

def Spc.result : Spc → Option Result
  | .delFailed => some .transferFailed
  | .delAborted e => some (.aborted e)
  | .delDone => some .success
  | .returned r => some r
  | _ => none

/-- A success is reported only for a message that was transferred, an abort only for one that was
not, and the receiver has nothing more to do with the sender. -/
structure Honest (s : State) : Prop where
  success : s.spc.result = some .success → s.transferred = true
  aborted : ∀ e, s.spc.result = some (.aborted e) → s.transferred = false
  left : s.spc.result ≠ none → s.rpc.free = true ∧ s.queued = false

/-- `abort_send` does not find `Thread_send_in_progress` missing while the sender is in the list,
or with a receiver that is still to set it. -/
def Patient (s : State) : Act → Prop
  | .sender _ => s.spc = .spin → s.bits.sendInProgress = false →
      s.queued = false ∧ s.rpc.early = false
  | _ => True

instance (s : State) (a : Act) : Decidable (Patient s a) := by
  cases a <;> unfold Patient <;> infer_instance

def Spc.pending : Spc → Bool
  | .start | .loop | .asleep | .decide _ | .abort _ | .spin | .spinAsleep => true
  | _ => false

def Bits.Waits (b : Bits) (inProgress : Bool) : Prop :=
  b.sendWait = true ∧ b.transferFailed = false ∧ b.sendInProgress = inProgress

inductive Stage (s : State) : Prop where
  | queued (hq : s.queued = true) (hr : s.rpc.free = true) (ht : s.transferred = false)
      (hs : s.spc.pending = true) (hb : s.bits.Waits false)
  | held (hq : s.queued = false) (hr : s.rpc.early = true) (ht : s.transferred = false)
      (hs : s.spc.pending = true) (hb : s.bits.Waits false)
  | moving (hq : s.queued = false) (hr : s.rpc = .transfer) (ht : s.transferred = false)
      (hs : s.spc.pending = true) (hb : s.bits.Waits true)
  | moved (ok : Bool) (hq : s.queued = false) (hr : s.rpc = .complete ok) (ht : s.transferred = ok)
      (hs : s.spc.pending = true) (hb : s.bits.Waits true)
  | sent (hq : s.queued = false) (hr : s.rpc.free = true) (ht : s.transferred = true)
      (hs : (s.spc.pending = true ∧ s.bits.sendWait = false ∧ s.bits.transferFailed = false ∧
        s.bits.sendInProgress = false) ∨ s.spc = .delDone ∨ s.spc = .returned .success)
  | failed (hq : s.queued = false) (hr : s.rpc.free = true) (ht : s.transferred = false)
      (hs : (s.spc.pending = true ∧ s.bits.sendWait = true ∧ s.bits.transferFailed = true ∧
        s.bits.sendInProgress = true) ∨ s.spc = .delFailed ∨ s.spc = .returned .transferFailed)
  | dropped (e : Error) (hq : s.queued = false) (hr : s.rpc.free = true) (ht : s.transferred = false)
      (hs : s.spc = .delAborted e ∨ s.spc = .returned (.aborted e))

def Seen (s : State) : Prop := ∀ b, s.spc = .decide b →
  (b.sendWait = false → s.bits.sendWait = false) ∧
    (b.transferFailed = true → s.bits.transferFailed = true) ∧
    (b.sendWait = true → b.transferFailed = true ∨ b.cancel = true ∨ b.timeout = true)

structure Inv (s : State) : Prop where
  stage : Stage s
  seen : Seen s

section Steps

variable {s : State} {prepared ok expired : Bool} {t : State}

open Spc

theorem Stage.honest (h : Stage s) : Honest s := by
  have hopen : s.spc.pending = true → s.spc.result = none := by
    intro hp
    cases hs : s.spc <;> simp [hs, pending, result] at hp ⊢
  cases h with
  | queued hq hr ht hs hb | held hq hr ht hs hb | moving hq hr ht hs hb | moved ok hq hr ht hs hb =>
    have hres := hopen hs
    exact ⟨by simp [hres], by simp [hres], by simp [hres]⟩
  | sent hq hr ht hs =>
    refine ⟨fun _ => ht, fun e h => ?_, fun _ => ⟨hr, hq⟩⟩
    rcases hs with ⟨hp, -⟩ | hs | hs <;> simp_all [result]
  | failed hq hr ht hs =>
    refine ⟨fun h => ?_, fun _ _ => ht, fun _ => ⟨hr, hq⟩⟩
    rcases hs with ⟨hp, -⟩ | hs | hs <;> simp_all [result]
  | dropped e hq hr ht hs =>
    refine ⟨fun h => ?_, fun _ _ => ht, fun _ => ⟨hr, hq⟩⟩
    rcases hs with hs | hs <;> simp [hs, result] at h

theorem Stage.congr (h : Stage s) (hq : t.queued = s.queued) (hr : t.rpc = s.rpc)
    (ht : t.transferred = s.transferred)
    (hs : t.spc = s.spc ∨ t.spc.pending = true ∧ s.spc.pending = true)
    (hw : t.bits.sendWait = s.bits.sendWait) (hf : t.bits.transferFailed = s.bits.transferFailed)
    (hp : t.bits.sendInProgress = s.bits.sendInProgress) : Stage t := by
  have hpend : s.spc.pending = true → t.spc.pending = true := by
    rcases hs with hs | ⟨hs, -⟩
    · rw [hs]
      exact id
    · exact fun _ => hs
  have hclosed : ∀ c : Spc, c.pending = false → s.spc = c → t.spc = c := by
    intro c hc h
    rcases hs with hs | ⟨-, hs⟩
    · rw [hs, h]
    · simp [h, hc] at hs
  have hwaits : ∀ b, s.bits.Waits b → t.bits.Waits b := by
    intro b hb
    rw [Bits.Waits, hw, hf, hp]
    exact hb
  cases h with
  | queued hq' hr' ht' hs' hb =>
    exact .queued (hq.trans hq') (hr ▸ hr') (ht.trans ht') (hpend hs') (hwaits _ hb)
  | held hq' hr' ht' hs' hb =>
    exact .held (hq.trans hq') (hr ▸ hr') (ht.trans ht') (hpend hs') (hwaits _ hb)
  | moving hq' hr' ht' hs' hb =>
    exact .moving (hq.trans hq') (hr.trans hr') (ht.trans ht') (hpend hs') (hwaits _ hb)
  | moved ok hq' hr' ht' hs' hb =>
    exact .moved ok (hq.trans hq') (hr.trans hr') (ht.trans ht') (hpend hs') (hwaits _ hb)
  | sent hq' hr' ht' hs' =>
    refine .sent (hq.trans hq') (hr ▸ hr') (ht.trans ht') ?_
    rw [hw, hf, hp]
    exact hs'.imp (fun h => ⟨hpend h.1, h.2⟩) (.imp (hclosed _ rfl) (hclosed _ rfl))
  | failed hq' hr' ht' hs' =>
    refine .failed (hq.trans hq') (hr ▸ hr') (ht.trans ht') ?_
    rw [hw, hf, hp]
    exact hs'.imp (fun h => ⟨hpend h.1, h.2⟩) (.imp (hclosed _ rfl) (hclosed _ rfl))
  | dropped e hq' hr' ht' hs' =>
    exact .dropped e (hq.trans hq') (hr ▸ hr') (ht.trans ht') (hs'.imp (hclosed _ rfl) (hclosed _ rfl))

theorem Seen.congr (h : Seen s) (hs : t.spc = s.spc)
    (hw : s.bits.sendWait = false → t.bits.sendWait = false)
    (hf : s.bits.transferFailed = true → t.bits.transferFailed = true) : Seen t := by
  intro b hb
  obtain ⟨h1, h2, h3⟩ := h b (hs ▸ hb)
  exact ⟨fun h => hw (h1 h), fun h => hf (h2 h), h3⟩

/-! The stages in which the receiver works on the sender. -/

section

variable (h : Stage s)
include h

theorem Stage.of_early (hr : s.rpc.early = true) : s.queued = false ∧
    s.transferred = false ∧ s.spc.pending = true ∧ s.bits.Waits false := by
  cases h with
  | held hq _ ht hs hb => exact ⟨hq, ht, hs, hb⟩
  | _ => cases hrpc : s.rpc <;> simp_all [Rpc.early, Rpc.free]

theorem Stage.of_transfer (hr : s.rpc = .transfer) : s.queued = false ∧
    s.transferred = false ∧ s.spc.pending = true ∧ s.bits.Waits true := by
  cases h with
  | moving hq _ ht hs hb => exact ⟨hq, ht, hs, hb⟩
  | _ => simp_all [Rpc.early, Rpc.free]

theorem Stage.of_complete (hr : s.rpc = .complete ok) : s.queued = false ∧
    s.transferred = ok ∧ s.spc.pending = true ∧ s.bits.Waits true := by
  cases h with
  | moved _ hq hr' ht hs hb =>
    cases hr.symm.trans hr'
    exact ⟨hq, ht, hs, hb⟩
  | _ => simp_all [Rpc.early, Rpc.free]

theorem Stage.of_queued (hq : s.queued = true) : s.rpc.free = true ∧
    s.transferred = false ∧ s.spc.pending = true ∧ s.bits.Waits false := by
  cases h with
  | queued _ hr ht hs hb => exact ⟨hr, ht, hs, hb⟩
  | _ => simp_all

theorem Stage.wake (hr : s.rpc = .wake) : Stage { s with rpc := .idle } := by
  cases h with
  | queued hq _ ht hs hb => exact .queued hq rfl ht hs hb
  | held _ hr' => simp [hr, Rpc.early] at hr'
  | moving _ hr' | moved _ _ hr' => simp [hr] at hr'
  | sent hq _ ht hs => exact .sent hq rfl ht hs
  | failed hq _ ht hs => exact .failed hq rfl ht hs
  | dropped e hq _ ht hs => exact .dropped e hq rfl ht hs

end

theorem Inv.expire (h : Inv s) : Inv (expire s) := by
  rw [SendWait.expire]
  split_ifs
  · exact ⟨h.stage.congr rfl rfl rfl (.inl rfl) rfl rfl rfl, h.seen.congr rfl id id⟩
  · exact ⟨h.stage.congr rfl rfl rfl (.inl rfl) rfl rfl rfl, h.seen.congr rfl id id⟩

theorem Inv.cancel (h : Inv s) : Inv (cancel s) :=
  ⟨h.stage.congr rfl rfl rfl (.inl rfl) rfl rfl rfl, h.seen.congr rfl id id⟩

theorem Inv.receiver (h : Inv s) : Inv (receiver prepared s ok) := by
  obtain ⟨hst, hseen⟩ := h
  cases hr : s.rpc with
  | idle =>
    simp only [SendWait.receiver, hr]
    split_ifs with hc
    · obtain ⟨-, ht, hs, hb⟩ := hst.of_queued (by simp_all)
      exact ⟨.held rfl rfl ht hs hb, hseen.congr rfl id id⟩
    · exact ⟨hst, hseen⟩
  | claim =>
    obtain ⟨hq, ht, hs, hb⟩ := hst.of_early (by rw [hr]; rfl)
    simp only [SendWait.receiver, hr]
    exact ⟨.held hq (by cases ok <;> rfl) ht hs hb, hseen.congr rfl id id⟩
  | requeue =>
    obtain ⟨-, ht, hs, hb⟩ := hst.of_early (by rw [hr]; rfl)
    simp only [SendWait.receiver, hr]
    exact ⟨.queued rfl rfl ht hs hb, hseen.congr rfl id id⟩
  | mark =>
    obtain ⟨hq, ht, hs, hb⟩ := hst.of_early (by rw [hr]; rfl)
    simp only [SendWait.receiver, hr]
    exact ⟨.moving hq rfl ht hs ⟨hb.1, hb.2.1, rfl⟩, hseen.congr rfl id id⟩
  | transfer =>
    obtain ⟨hq, ht, hs, hb⟩ := hst.of_transfer hr
    simp only [SendWait.receiver, hr]
    exact ⟨.moved ok hq rfl (by simp [ht]) hs hb, hseen.congr rfl id id⟩
  | complete success =>
    obtain ⟨hq, ht, hs, hb⟩ := hst.of_complete hr
    simp only [SendWait.receiver, hr]
    cases success with
    | true =>
      exact ⟨.sent hq rfl ht (.inl ⟨hs, rfl, hb.2.1, rfl⟩), hseen.congr rfl (fun _ => rfl) id⟩
    | false =>
      exact ⟨.failed hq rfl ht (.inl ⟨hs, hb.1, rfl, hb.2.2⟩), hseen.congr rfl id fun _ => rfl⟩
  | wake =>
    simp only [SendWait.receiver, hr]
    exact ⟨hst.wake hr, hseen.congr rfl id id⟩

/-! The sender moves on, and gives up or returns. -/

section

variable (h : Stage s) (hs : s.spc.pending = true)
include h hs

theorem Stage.of_sent (hw : s.bits.sendWait = false) :
    s.queued = false ∧ s.rpc.free = true ∧ s.transferred = true := by
  cases h with
  | sent hq hr ht _ => exact ⟨hq, hr, ht⟩
  | dropped _ _ _ _ h => rcases h with h | h <;> simp [h, pending] at hs
  | failed _ _ _ h => rcases h with h | h | h <;> simp_all [pending]
  | _ => simp_all [Bits.Waits]

theorem Stage.of_failed
    (hf : s.bits.transferFailed = true) :
    s.queued = false ∧ s.rpc.free = true ∧ s.transferred = false := by
  cases h with
  | failed hq hr ht _ => exact ⟨hq, hr, ht⟩
  | dropped _ _ _ _ h => rcases h with h | h <;> simp [h, pending] at hs
  | sent _ _ _ h => rcases h with h | h | h <;> simp_all [pending]
  | _ => simp_all [Bits.Waits]

theorem Stage.of_not_inProgress
    (hp : s.bits.sendInProgress = false) (hq : s.queued = false) (he : s.rpc.early = false) :
    s.rpc.free = true ∧ s.transferred = true := by
  cases h with
  | sent _ hr ht _ => exact ⟨hr, ht⟩
  | dropped _ _ _ _ h => rcases h with h | h <;> simp [h, pending] at hs
  | failed _ _ _ h => rcases h with h | h | h <;> simp_all [pending]
  | _ => simp_all [Bits.Waits]

end

theorem Stage.settled (h : Stage s) (hs : s.spc.pending = false) : s.queued = false ∧
    s.rpc.free = true ∧ (s.transferred = true ∧ s.spc.result = some .success ∨
      s.transferred = false ∧ (s.spc.result = some .transferFailed ∨
        ∃ e, s.spc.result = some (.aborted e))) := by
  cases h with
  | queued _ _ _ hp | held _ _ _ hp | moving _ _ _ hp | moved _ _ _ _ hp => simp [hs] at hp
  | sent hq hr ht h =>
    refine ⟨hq, hr, .inl ⟨ht, ?_⟩⟩
    rcases h with h | h | h <;> simp_all [result]
  | failed hq hr ht h =>
    refine ⟨hq, hr, .inr ⟨ht, .inl ?_⟩⟩
    rcases h with h | h | h <;> simp_all [result]
  | dropped e hq hr ht h =>
    refine ⟨hq, hr, .inr ⟨ht, .inr ⟨e, ?_⟩⟩⟩
    rcases h with h | h <;> (rw [h]; rfl)

theorem Stage.return (h : Stage s) {r : Result} (hs : s.spc.pending = false)
    (hr : s.spc.result = some r) : Stage { s with bits := s.bits.delFull, spc := .returned r } := by
  obtain ⟨hq, hf, ⟨ht, hres⟩ | ⟨ht, hres | ⟨e, hres⟩⟩⟩ := h.settled hs
  all_goals
    rw [hr] at hres
    cases hres
  · exact .sent hq hf ht (.inr (.inr rfl))
  · exact .failed hq hf ht (.inr (.inr rfl))
  · exact .dropped e hq hf ht (.inr rfl)

theorem keeps_of_inv {C : Prop} (hc : C) (h : Inv s) : Keeps Honest Inv C s :=
  .of_inv hc h.stage.honest h

theorem sender_keeps (h : Inv s) :
    Keeps Honest Inv (Patient s (.sender expired)) (sender s expired) := by
  obtain ⟨hst, hseen⟩ := h
  -- a step on to a place where nothing has been read and nothing is settled
  have hgo : ∀ (c : Spc) (b : Bool), c.pending = true → (∀ b, c ≠ .decide b) →
      s.spc.pending = true → Inv { s with bits := { s.bits with ready := b }, spc := c } := by
    intro c b hc hd hp
    exact ⟨hst.congr rfl rfl rfl (.inr ⟨hc, hp⟩) rfl rfl rfl, fun b hb => absurd hb (hd b)⟩
  have hsettle : ∀ t : State, Stage t → (∀ b, t.spc ≠ .decide b) → Inv t :=
    fun t ht hd => ⟨ht, fun b hb => absurd hb (hd b)⟩
  cases hs : s.spc with
  | start | asleep | spinAsleep =>
    simp only [sender, hs]
    refine keeps_of_inv (by simp [Patient, hs]) ?_
    split
    · exact hgo _ s.bits.ready rfl (by simp) (by rw [hs]; rfl)
    · exact hgo _ s.bits.ready rfl (by simp) (by rw [hs]; rfl)
  | loop =>
    simp only [sender, hs]
    split
    · exact keeps_of_inv (by simp [Patient, hs]) (hgo _ false rfl (by simp) (by rw [hs]; rfl))
    · next hc =>
      refine keeps_of_inv (by simp [Patient, hs])
        ⟨hst.congr rfl rfl rfl (.inr ⟨rfl, by rw [hs]; rfl⟩) rfl rfl rfl, fun b hb => ?_⟩
      cases hb
      refine ⟨id, id, fun hw => ?_⟩
      simpa [hw, or_assoc, Decidable.or_iff_not_imp_left] using hc
  | decide b =>
    have hp : s.spc.pending = true := by
      rw [hs]
      rfl
    obtain ⟨hw, hf, habort⟩ := hseen b hs
    simp only [sender, hs]
    refine keeps_of_inv (by simp [Patient, hs]) ?_
    split_ifs with h0 h1 h2 h3
    · obtain ⟨hq, hr, ht⟩ := hst.of_sent hp (hw (by simp_all))
      exact hsettle _ (.sent hq hr ht (.inr (.inr rfl))) (by simp)
    · obtain ⟨hq, hr, ht⟩ := hst.of_failed hp (hf h1)
      exact hsettle _ (.failed hq hr ht (.inr (.inl rfl))) (by simp)
    · exact hgo _ s.bits.ready rfl (by simp) hp
    · exact hgo _ s.bits.ready rfl (by simp) hp
    · exfalso
      simp_all
  | delFailed | delAborted e | delDone =>
    simp only [sender, hs]
    refine keeps_of_inv (by simp [Patient, hs]) (hsettle _ (hst.return ?_ ?_) (by simp)) <;>
      (rw [hs]; rfl)
  | abort e =>
    simp only [sender, hs]
    refine keeps_of_inv (by simp [Patient, hs]) ?_
    split
    · next hq =>
      obtain ⟨hr, ht, -, -⟩ := hst.of_queued hq
      exact hsettle _ (.dropped e rfl hr ht (.inl rfl)) (by simp)
    · exact hgo _ s.bits.ready rfl (by simp) (by rw [hs]; rfl)
  | spin =>
    have hp : s.spc.pending = true := by
      rw [hs]
      rfl
    simp only [sender, hs]
    split
    · next hi => exact keeps_of_inv (by simp [Patient, hs, hi]) (hgo _ false rfl (by simp) hp)
    · next hi =>
      have hi' : s.bits.sendInProgress = false := by simpa using hi
      by_cases hc : s.queued = false ∧ s.rpc.early = false
      · obtain ⟨hr, ht⟩ := hst.of_not_inProgress hp hi' hc.1 hc.2
        exact keeps_of_inv (fun _ _ => hc) (hsettle _ (.sent hc.1 hr ht (.inr (.inl rfl))) (by simp))
      · -- a success for a message that nobody has transferred
        refine Keeps.of_not (fun h => hc (h hs hi')) fun hg => ?_
        have ht : s.transferred = true := hg.success rfl
        cases hq : s.queued with
        | true =>
          have := (hst.of_queued hq).2.1
          simp [ht] at this
        | false =>
          have he : s.rpc.early = true := by simpa [hq] using hc
          have := (hst.of_early he).2.1
          simp [ht] at this
  | returned r =>
    simp only [sender, hs]
    exact keeps_of_inv (by simp [Patient, hs]) ⟨hst, hseen⟩

theorem step_keeps (h : Inv s) (a : Act) : Keeps Honest Inv (Patient s a) (step prepared s a) := by
  cases a with
  | sender expired => exact sender_keeps h
  | receiver ok => exact keeps_of_inv trivial h.receiver
  | expire => exact keeps_of_inv trivial h.expire
  | cancel => exact keeps_of_inv trivial h.cancel

end Steps

theorem boot_inv : Inv boot :=
  ⟨.queued rfl rfl rfl rfl ⟨rfl, rfl, rfl⟩, fun _ hb => by cases hb⟩

theorem honest_iff_patient (prepared : Bool) (as : List Act) :
    Along (step prepared) (fun s a => Honest (step prepared s a)) boot as ↔
      Along (step prepared) Patient boot as :=
  along_good_iff (fun _ a h => step_keeps h a) boot_inv

/-- The timeout hits when the receiver has taken the sender out of the list: success is reported,
and then the message is transferred. -/
theorem success_before_transfer :
    let s := run (step false) boot [.sender false, .sender false, .receiver true, .expire,
      .expire, .sender false, .sender false, .sender false, .sender false, .sender false, .sender false]
    s.spc = .returned .success ∧ s.transferred = false ∧ s.rpc = .claim ∧ ¬Honest s ∧
      (run (step false) s [.receiver true, .receiver true, .receiver true]).transferred = true := by
  refine ⟨by decide, by decide, by decide, fun h => ?_, by decide⟩
  have ht := h.success (by decide)
  revert ht
  decide

end Fiasco.Ipc.SendWait
