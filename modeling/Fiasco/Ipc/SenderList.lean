import Mathlib

/-!
# Lists of senders

A list sorted by priority, and the element of interest, whose membership is tracked in the low bits
of the pointer to it. `insert` and `dequeue` run under the lock of the list; `set_poi` does not, and
works in three accesses.
-/
namespace Fiasco.Ipc

variable {S : Type*}

inductive Tag where
  | clear
  | queued
  | busy
deriving DecidableEq

structure SenderList (S : Type*) where
  elems : List S
  prio : S → ℕ
  poi : Option (S × Tag)

namespace SenderList

def empty : SenderList S := ⟨[], fun _ => 0, none⟩

variable [DecidableEq S] {l l' : SenderList S} {e u : S} {t : Tag} {n : ℕ}

section

variable (l : SenderList S) (e : S)

def link (n : ℕ) : SenderList S where
  elems := l.elems.orderedInsert
    (fun a b => Function.update l.prio e n b < Function.update l.prio e n a) e
  prio := Function.update l.prio e n
  poi := if l.poi = some (e, .clear) then some (e, .queued) else l.poi

def unlink : SenderList S where
  elems := l.elems.erase e
  prio := l.prio
  poi := if l.poi = some (e, .queued) then some (e, .clear) else l.poi

def insert (n : ℕ) : Option (SenderList S) :=
  if e ∈ l.elems then none else some (l.link e n)

def dequeue : Option (SenderList S) :=
  if e ∈ l.elems then some (l.unlink e) else none

def inSenderList : Bool :=
  match l.poi with
  | some (p, t) => if p = e then t = .queued else e ∈ l.elems
  | none => e ∈ l.elems

def ptr : Option S := l.poi.map Prod.fst

end

def Tracks (l : SenderList S) : Prop :=
  ∀ e t, l.poi = some (e, t) → e ∈ l.elems → t = .queued ∨ t = .busy

theorem mem_link : u ∈ (l.link e n).elems ↔ u = e ∨ u ∈ l.elems := List.mem_orderedInsert _

theorem ptr_link : (l.link e n).ptr = l.ptr := by
  simp only [ptr, link]
  split_ifs with hp <;> simp [hp]

theorem head_link : (l.link e n).elems.head? = some e ∨
    l.elems ≠ [] ∧ (l.link e n).elems.head? = l.elems.head? := by
  simp only [link]
  cases hl : l.elems with
  | nil => exact .inl rfl
  | cons a as =>
    rw [List.orderedInsert]
    split_ifs <;> simp

theorem Tracks.link (ht : l.Tracks) : (l.link e n).Tracks := by
  intro u t hp hu
  simp only [SenderList.link] at hp
  split_ifs at hp with hc
  · cases hp
    exact .inl rfl
  · rcases mem_link.1 hu with rfl | hu
    · cases t with
      | clear => exact absurd hp hc
      | queued => exact .inl rfl
      | busy => exact .inr rfl
    · exact ht u t hp hu

theorem ptr_unlink : (l.unlink e).ptr = l.ptr := by
  simp only [ptr, unlink]
  split_ifs with hp <;> simp [hp]

theorem Tracks.unlink (ht : l.Tracks) (hn : l.elems.Nodup) : (l.unlink e).Tracks := by
  intro u t hp hu
  simp only [SenderList.unlink] at hp
  split_ifs at hp with hc
  · cases hp
    exact absurd hu hn.not_mem_erase
  · exact ht u t hp (List.mem_of_mem_erase hu)

theorem busy_link : (l.link e n).poi = some (u, .busy) ↔ l.poi = some (u, .busy) := by
  simp only [link]
  split_ifs with hp <;> simp [hp]

theorem busy_unlink : (l.unlink e).poi = some (u, .busy) ↔ l.poi = some (u, .busy) := by
  simp only [unlink]
  split_ifs with hp <;> simp [hp]

theorem nodup_link (h : l.elems.Nodup) (he : e ∉ l.elems) : (l.link e n).elems.Nodup :=
  (List.perm_orderedInsert _ _ _).nodup_iff.2 (List.nodup_cons.2 ⟨he, h⟩)

end SenderList

end Fiasco.Ipc
