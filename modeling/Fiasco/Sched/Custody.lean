import Fiasco.Lib.Handover
import Fiasco.Sched.Model

/-!
# Migrations and requests are used up once

A migration that was passed to `migrate` is in the `_migration` field of the context, with the CPU that
has taken it from there, or done. A request is in the queue of the context, with a CPU, or executed.
-/
namespace Fiasco.Sched

open Handover Shared

variable {Cpu M D : Type}

def Pc.migration : Pc Cpu M D → Option M
  | .exchange m | .stale m | .compare _ m | .sameDone _ m => some m
  | .awayLock _ m | .awayHome _ m | .awayDone _ m => some m
  | _ => none

def Pc.drq : Pc Cpu M D → Option D
  | .drqFirst d | .drqRun d | .drqEnq d => some d
  | .deqCheck d _ | .deqClear d _ | .deqRun d _ | .drqsRun d _ => some d
  | _ => none

def Shared.pending (g : Shared Cpu M D) : List M := g.migration.toList

def Migrations (s : State Cpu M D) : Prop :=
  Once pending Pc.migration done migrations s

def Requests (s : State Cpu M D) : Prop :=
  Once drqs Pc.drq executed requests s

structure Bare (g : Shared Cpu M D) (r : Shared Cpu M D × Pc Cpu M D) : Prop where
  migration : r.1.migration = g.migration
  done : r.1.done = g.done
  migrations : r.1.migrations = g.migrations
  drqs : r.1.drqs = g.drqs
  executed : r.1.executed = g.executed
  requests : r.1.requests = g.requests
  noMigration : r.2.migration = none
  noDrq : r.2.drq = none

section Bare

variable {p : Cpu} {g : Shared Cpu M D} {l : Pc Cpu M D}

theorem From.finish_migration (f : From) : (f.finish : Pc Cpu M D).migration = none := by
  cases f <;> rfl

theorem From.finish_drq (f : From) : (f.finish : Pc Cpu M D).drq = none := by
  cases f <;> rfl

variable [DecidableEq Cpu]

theorem Bare.source (s : Source Cpu) : Bare g (s.finish g) := by
  cases s with
  | home f => exact ⟨rfl, rfl, rfl, rfl, rfl, rfl, f.finish_migration, f.finish_drq⟩
  | remote q => exact ⟨rfl, rfl, rfl, rfl, rfl, rfl, rfl, rfl⟩

variable [DecidableEq M] [DecidableEq D]

def Pc.plain : Pc Cpu M D → Prop
  | .readHome | .xcpuLock _ | .xcpuCheck _ | .startLoad _ => True
  | .awayUnlock _ _ | .toLock _ _ | .toFirst _ _ | .toSecond _ _ | .send _ _ => True
  | .irqLoop _ _ | .request _ _ | .requestAfter | .requestDrq _ _ | .irqEnd _ _ | .irqFinal _ => True
  | .drqHome _ | .drqLock _ _ | .drqCheck _ _ | .drqs _ | .drqsClear _ => True
  | _ => False

theorem Bare.exec (target : M → Cpu) (c : Choice Cpu M D) (hl : l.plain) :
    Bare g (exec target p g c l) := by
  cases l <;> simp only [Pc.plain] at hl <;>
    simp only [Sched.exec, dequeueFirst, spin, enqueue, Source.finish, Ret.finish] <;>
    (repeat' split) <;> constructor <;>
    first | rfl | exact From.finish_migration _ | exact From.finish_drq _

end Bare

section Step

variable [DecidableEq Cpu] {p : Cpu} {s : State Cpu M D} {l : Pc Cpu M D}
  {r : Shared Cpu M D × Pc Cpu M D}

theorem Migrations.same (h : Migrations s) (hl : s.loc p = l)
    (hm : r.1.migration = s.shared.migration) (hd : r.1.done = s.shared.done)
    (hi : r.1.migrations = s.shared.migrations) (hh : r.2.migration = l.migration) :
    Migrations (s.move p r) := by
  refine h.keep ?_ hd hi
  rw [stock, stock, pending, pending, hm, hh, hl]

theorem Requests.same (h : Requests s) (hl : s.loc p = l) (hq : r.1.drqs = s.shared.drqs)
    (he : r.1.executed = s.shared.executed) (hi : r.1.requests = s.shared.requests)
    (hh : r.2.drq = l.drq) : Requests (s.move p r) := by
  refine h.keep ?_ he hi
  rw [stock, stock, hq, hh, hl]

theorem Migrations.use [DecidableEq M] {m : M} (h : Migrations s) (hl : s.loc p = l)
    (hlm : l.migration = some m) (hm : r.1.migration = s.shared.migration)
    (hd : r.1.done = (s.shared.setDone m).done) (hi : r.1.migrations = s.shared.migrations)
    (hh : r.2.migration = none) : Migrations (s.move p r) := by
  refine Once.use (x := m) h ?_ hd hi
  rw [stock, stock, pending, pending, hm, hh, hl, hlm]
  rfl

theorem Requests.use [DecidableEq D] {d : D} (h : Requests s) (hl : s.loc p = l)
    (hld : l.drq = some d) (hq : r.1.drqs = s.shared.drqs)
    (he : r.1.executed = (s.shared.execute d).executed) (hi : r.1.requests = s.shared.requests)
    (hh : r.2.drq = none) : Requests (s.move p r) := by
  refine Once.use (x := d) h ?_ he hi
  rw [stock, stock, hq, hh, hl, hld]
  rfl

variable [DecidableEq M] [DecidableEq D]

theorem Migrations.start (h : Migrations s) (hl : s.loc p = .rest) (curr : Bool) (op : Op Cpu M D) :
    Migrations (s.move p (start p s.shared curr op)) := by
  cases op with
  | migrate m =>
    rw [Sched.start]
    split_ifs with hm
    · exact h.same hl rfl rfl rfl rfl
    · refine Once.issue (x := m) h hm ?_ rfl rfl
      rw [hl]
      exact .refl _
  | _ =>
    rw [Sched.start]
    split_ifs <;> exact h.same hl rfl rfl rfl rfl

section

variable (target : M → Cpu)

theorem Migrations.exchange {m : M} (h : Migrations s)
    (hl : s.loc p = .exchange m) (c : Choice Cpu M D) :
    Migrations (s.move p (exec target p s.shared c (.exchange m))) := by
  refine h.keep ?_ rfl rfl
  rw [hl, exec, stock, stock, pending, pending]
  cases s.shared.migration with
  | none => exact .refl _
  | some old => exact .swap m old []

theorem Migrations.startCas {o : Source Cpu} {m : M} (h : Migrations s)
    (hl : s.loc p = .startCas o m) (c : Choice Cpu M D) :
    Migrations (s.move p (exec target p s.shared c (.startCas o m))) := by
  rw [exec]
  split_ifs with hm
  · refine h.keep ?_ rfl rfl
    rw [hl, stock, stock, pending, pending, hm]
    exact .refl _
  · have hb : Bare s.shared (o.finish s.shared) := .source o
    exact h.same hl hb.migration hb.done hb.migrations hb.noMigration

theorem Migrations.exec (h : Migrations s) (c : Choice Cpu M D) :
    Migrations (s.move p (exec target p s.shared c (s.loc p))) := by
  cases hl : s.loc p with
  | rest => exact h.start hl c.curr c.op
  | exchange m => exact h.exchange target hl c
  | stale old | awayDone o m => exact h.use hl rfl rfl rfl rfl rfl
  | startCas o m => exact h.startCas target hl c
  | sameDone o m =>
    have hb : Bare (s.shared.setDone m) (o.finish (s.shared.setDone m)) := .source o
    exact h.use hl rfl hb.migration hb.done hb.migrations hb.noMigration
  | compare _ _ | awayLock _ _ | awayHome _ _ | drqFirst _ | drqRun _ | drqEnq _ | deqTake _ _
  | deqCheck _ _ | deqClear _ _ | deqRun _ _ | drqsLoop _ | drqsRun _ _ =>
    simp only [Sched.exec, spin]
    (repeat' split) <;> exact h.same hl rfl rfl rfl rfl
  | _ =>
    have hb := Bare.exec (p := p) (g := s.shared) target c (l := s.loc p) (by rw [hl]; trivial)
    rw [hl] at hb
    exact h.same hl hb.migration hb.done hb.migrations hb.noMigration

theorem Requests.start (h : Requests s) (hl : s.loc p = .rest) (curr : Bool) (op : Op Cpu M D) :
    Requests (s.move p (start p s.shared curr op)) := by
  cases op with
  | drq d =>
    rw [Sched.start]
    split_ifs with hd
    · exact h.same hl rfl rfl rfl rfl
    · refine Once.issue (x := d) h hd ?_ rfl rfl
      rw [hl]
      exact .refl _
  | _ =>
    rw [Sched.start]
    split_ifs <;> exact h.same hl rfl rfl rfl rfl

theorem Requests.deqTake {d : D} {o : Option Cpu} (h : Requests s)
    (hl : s.loc p = .deqTake d o) (c : Choice Cpu M D) :
    Requests (s.move p (exec target p s.shared c (.deqTake d o))) := by
  have htake (hd : d ∈ s.shared.drqs) :
      Requests (s.move p ({ s.shared with drqs := s.shared.drqs.erase d }, .deqCheck d o)) := by
    refine h.keep ?_ rfl rfl
    rw [hl]
    exact (List.perm_cons_erase hd).symm
  cases o with
  | none | some q =>
    rw [exec]
    split_ifs with hd
    · exact htake hd
    · exact h.same hl rfl rfl rfl rfl

theorem Requests.exec (h : Requests s) (c : Choice Cpu M D) :
    Requests (s.move p (exec target p s.shared c (s.loc p))) := by
  cases hl : s.loc p with
  | rest => exact h.start hl c.curr c.op
  | exchange _ | stale _ | compare _ _ | awayLock _ _ | awayHome _ _ | awayDone _ _ | drqFirst _
  | deqCheck _ _ | deqClear _ _ =>
    simp only [Sched.exec, spin]
    (repeat' split) <;> exact h.same hl rfl rfl rfl rfl
  | startCas o m =>
    rw [Sched.exec]
    split_ifs with hm
    · exact h.same hl rfl rfl rfl rfl
    · have hb : Bare s.shared (o.finish s.shared) := .source o
      exact h.same hl hb.drqs hb.executed hb.requests hb.noDrq
  | sameDone o m =>
    have hb : Bare (s.shared.setDone m) (o.finish (s.shared.setDone m)) := .source o
    exact h.same hl hb.drqs hb.executed hb.requests hb.noDrq
  | drqRun d | drqsRun d k => exact h.use hl rfl rfl rfl rfl rfl
  | drqEnq d =>
    refine h.keep ?_ rfl rfl
    rw [hl]
    exact List.perm_append_singleton d s.shared.drqs
  | deqTake d o => exact h.deqTake target hl c
  | deqRun d o => cases o <;> exact h.use hl rfl rfl rfl rfl rfl
  | drqsLoop k =>
    rw [Sched.exec]
    split
    next d ds hd =>
      refine h.keep ?_ rfl rfl
      rw [hl, stock, stock, hd]
      exact .refl _
    next => exact h.same hl rfl rfl rfl rfl
  | _ =>
    have hb := Bare.exec (p := p) (g := s.shared) target c (l := s.loc p) (by rw [hl]; trivial)
    rw [hl] at hb
    exact h.same hl hb.drqs hb.executed hb.requests hb.noDrq

theorem Migrations.step (h : Migrations s) (a : Cpu × Choice Cpu M D) :
    Migrations (step target s a) := by
  rw [Sched.step]
  split_ifs
  · exact h.exec target a.2
  · exact h

theorem Requests.step (h : Requests s) (a : Cpu × Choice Cpu M D) : Requests (step target s a) := by
  rw [Sched.step]
  split_ifs
  · exact h.exec target a.2
  · exact h

end

end Step

theorem Migrations.boot (home : Cpu) (online : Cpu → Bool) :
    Migrations (boot home online : State Cpu M D) :=
  ⟨fun _ => List.nodup_nil, nofun, nofun, nofun, fun _ _ => rfl⟩

theorem Requests.boot (home : Cpu) (online : Cpu → Bool) :
    Requests (boot home online : State Cpu M D) :=
  ⟨fun _ => List.nodup_nil, nofun, nofun, nofun, fun _ _ => rfl⟩

end Fiasco.Sched
