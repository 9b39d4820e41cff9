import Fiasco.Ipc.Handshake
import Fiasco.Ipc.Reply
import Fiasco.Ipc.SendWait
import Fiasco.Ipc.WaitQueue
import Fiasco.Irq.Masking
import Fiasco.Irq.Sender
import Fiasco.WaitQueue.Model

/-!
# Functions that are in several models

`ipc_send_msg`, `check_send` and the counting of hits are in several models, each time with the state
that the results there are about. The models agree on the state they have in common.
-/
namespace Fiasco.Ipc.Agreement

open Function

variable {T : Type}

section Serve

open Fiasco.WaitQueue

structure Same (b : Tcb T) (b' : WaitQueue.Tcb T) : Prop where
  ready : b.ready = b'.ready
  sendWait : b.sendWait = b'.sendWait
  sendInProgress : b.sendInProgress = b'.sendInProgress
  receiveWait : b.receiveWait = b'.receiveWait
  receiveInProgress : b.receiveInProgress = b'.receiveInProgress
  transferFailed : b.transferFailed = b'.transferFailed
  prepared : b.prepared = b'.prepared
  queued : b.queued = b'.queued

def place : Serve → WaitQueue.Serve
  | .prepare => .prepare
  | .addProgress => .addProgress
  | .mark => .mark
  | .transfer => .transfer
  | .complete ok => .complete ok

def bits (b : Tcb T) : SendWait.Bits :=
  ⟨b.ready, b.sendWait, b.receiveWait, b.sendInProgress, b.transferFailed, b.cancel, b.timeout⟩

def rpc : Pc T → SendWait.Rpc
  | .serve _ .mark => .mark
  | .serve _ .transfer => .transfer
  | .serve _ (.complete ok) => .complete ok
  | .delMask => .wake
  | _ => .idle

def poi : Option (Option T) → Poi T Unit
  | none => .null
  | some none => .queue ()
  | some (some t) => .thread t

variable [DecidableEq T] {irq : T → Bool} {t e : T} {g : Shared T} {g' : WaitQueue.Shared T}
  {c : Choice}

theorem same_modify (h : ∀ u, Same (g.tcb u) (g'.tcb u)) {f : Tcb T → Tcb T}
    {f' : WaitQueue.Tcb T → WaitQueue.Tcb T} (hf : ∀ {b b'}, Same b b' → Same (f b) (f' b')) (u : T) :
    Same ((g.modify e f).tcb u) ((g'.modify e f').tcb u) := by
  rw [Shared.modify, WaitQueue.Shared.modify]
  by_cases hu : u = e
  · subst hu
    simpa only [update_self] using hf (h u)
  · simpa only [update_of_ne hu] using h u

theorem serve_agrees {c' : WaitQueue.Choice} (h : ∀ u, Same (g.tcb u) (g'.tcb u)) (p : Serve) (u : T) :
    Same ((serve irq t e g c p).1.tcb u) ((WaitQueue.serve irq t e g' c' (place p)).1.tcb u) := by
  cases p <;> simp only [place, serve, WaitQueue.serve]
  case prepare =>
    refine same_modify h ?_ u
    exact fun hs => { hs with }
  case addProgress =>
    refine same_modify h ?_ u
    exact fun hs => { hs with receiveInProgress := rfl }
  case mark =>
    split_ifs <;> dsimp only <;> refine same_modify h ?_ u
    · exact fun hs => { hs with queued := rfl }
    · exact fun hs => { hs with sendInProgress := rfl }
  case transfer =>
    have hu : Same ((g.modify e id).tcb u)
        ((g'.modify e fun b => { b with transferred := c'.ok }).tcb u) := by
      refine same_modify h ?_ u
      exact fun hs => { hs with }
    rwa [Shared.modify, id, update_eq_self] at hu
  case complete ok =>
    refine same_modify h ?_ u
    intro b b' hs
    split_ifs
    · exact ⟨rfl, rfl, rfl, hs.prepared, rfl, hs.transferFailed, hs.prepared, hs.queued⟩
    · exact { hs with transferFailed := rfl, ready := rfl }

theorem receiver_agrees {s : SendWait.State} {p : Serve} (hi : irq e = false)
    (hb : bits (g.tcb e) = s.bits) (hp : s.rpc = rpc (.serve e p)) (hne : s.rpc ≠ .idle) :
    bits ((serve irq t e g c p).1.tcb e) = (SendWait.receiver (g.tcb e).prepared s c.ok).bits ∧
      rpc (serve irq t e g c p).2 = (SendWait.receiver (g.tcb e).prepared s c.ok).rpc := by
  cases p with
  | prepare | addProgress => exact absurd hp hne
  | mark => simp [serve, SendWait.receiver, hp, rpc, hi, ← hb, Shared.modify, bits]
  | transfer => simp [serve, SendWait.receiver, hp, rpc, ← hb]
  | complete ok =>
    cases ok <;> simp [serve, SendWait.receiver, hp, rpc, ← hb, Shared.modify, bits, Tcb.delIpc]

theorem poi_agrees {s : Ipc.State T Unit} (hi : irq e = false) (hne : e ≠ t)
    (h : s.poi e = poi (g.tcb e).poi) (rights : Fin 4) (success : Bool) :
    (s.ipcSendMsg e t rights success).poi e = poi ((serve irq t e g c .mark).1.tcb e).poi := by
  have hand (x : Ipc.State T Unit) : (x.handOver e t rights success .reply).poi e = x.poi e := by
    cases hw : (x.phase t).waits <;>
      simp [State.handOver, State.setPhase, State.received, State.transferMsg, hw, hne]
  rw [State.ipcSendMsg, hand, h]
  simp only [serve, hi, Shared.modify]
  rcases hp : (g.tcb e).poi with _ | _ | _ <;> simp [h, hp, poi, State.setPoi]

end Serve

section Meet

open Ipc.WaitQueue

variable {r : T} {g : WaitQueue.Shared T} {again : Bool}

/-- The receiver `r` as a sender sees it. -/
def receiver (g : WaitQueue.Shared T) (r : T) : Handshake.Shared (Option T) where
  list := (g.tcb r).list
  rcv := if (g.tcb r).receiveInProgress then .inProgress
    else if (g.tcb r).receiveWait then .wait else .none
  ready := (g.tcb r).ready
  pc := .idle

def spc (again : Bool) : WaitQueue.Pc T → Handshake.Spc
  | .meet _ (.state a) => .state a
  | .meet _ (.poi a) => .poi a
  | .meet _ (.empty a) => .empty a
  | .meet _ (.head a) => .head a
  | .meet _ (.swap a) => .swap a
  | .meet _ .remove => .dequeue
  | .meet _ .delWait | .meet _ .deliver => .deliver
  | .meet _ _ => if again then .enqueue else .refused
  | _ => .waiting

theorem spc_ok : spc again (.meet r (.ok again)) = .ok again := by
  cases again <;> rfl

theorem spc_no (i : Bool) : spc again (.no i r again) = .no again := by
  cases i <;> cases again <;> rfl

theorem rcv_wait (hr : (g.tcb r).receiveWait = true → (g.tcb r).receiveInProgress = false) :
    (receiver g r).rcv = .wait ↔ (g.tcb r).receiveWait = true := by
  cases h1 : (g.tcb r).receiveWait <;> cases h2 : (g.tcb r).receiveInProgress <;>
    simp_all [receiver]

theorem meet_agrees [DecidableEq T] {t : T} {irq : T → Bool} {irq' : Option T → Bool}
    {c : WaitQueue.Choice} {c' : Handshake.Choice} {p : Meet}
    (hp : p ∈ [.state again, .poi again, .empty again, .head again, .swap again])
    (hs : (g.tcb r).sendWait = false ∧ (g.tcb r).sendInProgress = false)
    (hr : (g.tcb r).receiveWait = true → (g.tcb r).receiveInProgress = false) :
    (receiver (meet irq t r g c p).1 r, spc again (meet irq t r g c p).2) =
      Handshake.send irq' (some t) (receiver g r) c' (spc again (.meet r p)) := by
  simp only [List.mem_cons, List.not_mem_nil, or_false] at hp
  have hlist : (receiver g r).list = (g.tcb r).list := rfl
  rcases hp with rfl | rfl | rfl | rfl | rfl <;> rw [meet, spc, Handshake.send]
  · by_cases hw : (g.tcb r).receiveWait = true
    · rw [if_pos (by simp [hw, hr hw, hs]), if_pos ((rcv_wait hr).mpr hw)]
      rfl
    · rw [if_neg (by simp [hw]), if_neg (mt (rcv_wait hr).mp hw), spc_no]
  · rw [SenderList.ptr, hlist]
    cases (g.tcb r).list.poi with
    | none => rfl
    | some q =>
      dsimp only [Option.map_some]
      by_cases he : q.1 = some t
      · rw [if_pos he, if_pos he, spc_ok]
      · rw [if_neg he, if_neg he, spc_no]
  · rw [hlist]
    by_cases hl : (g.tcb r).list.elems = []
    · rw [if_pos hl, if_pos hl, spc_ok]
    · rw [if_neg hl, if_neg hl]
      rfl
  · rw [hlist]
    by_cases hl : (g.tcb r).list.elems.head? = some (some t)
    · rw [if_pos hl, if_pos hl, spc_ok]
    · rw [if_neg hl, if_neg hl, spc_no]
  · by_cases hw : (g.tcb r).receiveWait = true
    · rw [if_pos hw, if_pos ((rcv_wait hr).mpr hw)]
      cases again <;> cases irq t <;> simp [receiver, WaitQueue.Shared.modify, spc]
    · rw [if_neg hw, if_neg (mt (rcv_wait hr).mp hw)]
      cases again <;> cases irq t <;> rfl

end Meet

section Hits

open Irq

variable {E : Type} [DecidableEq E] {wq : E → Bool}

def pin (g : Sender E) : Masking.Pin := ⟨g.queued, g.masked, g.queue.isSome⟩

def pc : Irq.Pc E → Masking.Pc
  | .handler _ => .handler
  | .count _ _ => .count
  | .consume _ => .consume
  | .consumeLoop old _ => .consumeLoop old
  | _ => .rest

/-- In the model of the sender the access to the chip goes with the step. -/
def settle (c : Masking.Choice) (q : Masking.Pin × Masking.Pc) : Masking.Pin :=
  match q.2 with
  | .refuse | .mask | .unmask => (Masking.exec q.1 q.2 c).1
  | _ => q.1

theorem hit_agrees {g : Sender E} {c : Irq.Choice wq} {c' : Masking.Choice} {l : Irq.Pc E}
    (he : g.hitFunc.edge = true) (hl : pc l ≠ .rest)
    (hf : ∀ f, l = .handler f ∨ (∃ t, l = .count f t) → f.edge = true)
    (ht : c'.target = true ↔ ∃ t, g.target = .ep t) :
    pin (go wq g c l).1 = settle c' (Masking.exec (pin g) (pc l) c') := by
  cases l with
  | handler f =>
    have hedge := hf f (.inl rfl)
    cases hg : g.target <;> simp_all [go, Masking.exec, settle, pin, pc]
  | count f t =>
    have hedge := hf f (.inr ⟨t, rfl⟩)
    by_cases h0 : g.queued = 0 <;> simp [go, Masking.exec, settle, pin, pc, h0, hedge]
  | consume r => rfl
  | consumeLoop old r =>
    by_cases ho : g.queued = old
    · by_cases h2 : 2 ≤ old <;> simp [go, Masking.exec, settle, pin, pc, ho, h2, Sender.unmaskIf, he]
    · simp [go, Masking.exec, settle, pin, pc, ho]
  | _ => exact absurd rfl hl

end Hits

end Fiasco.Ipc.Agreement
