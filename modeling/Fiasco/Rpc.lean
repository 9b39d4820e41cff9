import Mathlib

/-!
# Messages to kernel objects

`Ko::Msg<ARGS...>::call` decodes the message of a system call for an operation with the given
arguments: input data at fixed places of the message words, capabilities from the items behind the
words, and output data at fixed places of the output UTCB. The tag of the message is an in-out
parameter: it is the result if the decoding fails.

The type of an argument is given by its size and alignment.
-/
namespace Fiasco.Rpc

structure Tag where
  words : BitVec 6
  items : BitVec 6
  flags : BitVec 4
  proto : ℤ
deriving DecidableEq, Repr

/-- An argument of an operation. Alignments are given by their logarithm. -/
inductive Arg (T : Type)
  | data (size align : ℕ)
  | out (size align : ℕ)
  | cap (type : T) (expected : BitVec 4)
deriving DecidableEq, Repr

inductive Val (O : Type)
  | data (bytes : List ℕ)
  | out (pos : ℕ)
  | cap (obj : O)
deriving DecidableEq, Repr

structure Capability (O : Type) where
  obj : Option O
  rights : BitVec 2

/-- The size of a machine word, the objects of the current space, and their types. There is no
capability at an index if there is no page for it in the capability table. -/
structure Env (T O : Type) where
  wordBytes : ℕ
  wordBytes_pos : 0 < wordBytes
  lookupLocal : ℕ → Option (Capability O)
  isA : T → O → Bool

variable {T O : Type}

def eNoent : ℤ := 2

def eInval : ℤ := 22

def eMsgtooshort : ℤ := 1001

def commitResult (error : ℤ) : Tag := ⟨0, 0, 0, error⟩

def commitError : Tag := ⟨0, 0, 8, 0⟩

def Tag.hasError (t : Tag) : Bool := t.flags.getLsbD 3

def Tag.doSwitch (t : Tag) : Bool := !t.flags.getLsbD 1

def maxWords : ℕ := 63

def alignUp (pos align : ℕ) : ℕ := (pos + 2 ^ align - 1) / 2 ^ align * 2 ^ align

structure Layout where
  inSize : ℕ
  outSize : ℕ
  inItems : ℕ
deriving DecidableEq, Repr

def Layout.add (l : Layout) : Arg T → Layout
  | .data size align => { l with inSize := alignUp l.inSize align + size }
  | .out size align => { l with outSize := alignUp l.outSize align + size }
  | .cap _ _ => { l with inItems := l.inItems + 1 }

section

variable (env : Env T O) (values : ℕ → ℕ)

def Env.start : Layout := ⟨env.wordBytes, 0, 0⟩

def Layout.total (l : Layout) (args : List (Arg T)) : Layout := args.foldl Layout.add l

def Env.messageWords (bytes : ℕ) : ℕ := (bytes + env.wordBytes - 1) / env.wordBytes

def Env.checkMessageSize (tag : Tag) (size : ℕ) : Bool :=
  decide (env.messageWords size ≤ tag.words.toNat) &&
    decide (tag.words.toNat + tag.items.toNat ≤ maxWords)

def Env.nextCap (buf : ℕ) : Except Tag (Option (Capability O)) :=
  if maxWords ≤ buf then .error (commitResult (-eInval))
  else if values buf = 0 ∨ maxWords ≤ buf + 1 then .error (commitResult (-eInval))
  else if values (buf + 1) / 2 ^ 4 % 4 ≠ 3 then .error commitError
  else .ok (env.lookupLocal (values (buf + 1) / 2 ^ 12))

def fulfills (rights : BitVec 2) (expected : BitVec 4) : Bool :=
  rights.setWidth 4 &&& expected == expected

/-- `deref_nocheck`, and the check of the rights. An error comes with the new tag, if there is
one. -/
def Env.deref (c : Capability O) (type : T) (expected : BitVec 4) :
    Except (Option Tag) O :=
  match c.obj with
  | none => .error (some (commitResult (-eNoent)))
  | some o =>
    if env.isA type o = false then .error (some (commitResult (-eInval)))
    else if fulfills c.rights expected = false then .error none
    else .ok o

def Env.readCap (buf : ℕ) (type : T) (expected : BitVec 4) :
    Except (Option Tag) O :=
  match env.nextCap values buf with
  | .error tag => .error (some tag)
  | .ok none => .error none
  | .ok (some c) => env.deref c type expected

def Env.readItems (env : Env T O) (values : ℕ → ℕ) :
    ℕ → List (Arg T) → Except (Option Tag) (List O)
  | _, [] => .ok []
  | buf, .data _ _ :: args => env.readItems values buf args
  | buf, .out _ _ :: args => env.readItems values buf args
  | buf, .cap type expected :: args =>
    match env.readCap values buf type expected with
    | .error e => .error e
    | .ok o =>
      match env.readItems values (buf + 2) args with
      | .error e => .error e
      | .ok os => .ok (o :: os)

def Env.byte (pos : ℕ) : ℕ :=
  values (pos / env.wordBytes) / 2 ^ (8 * (pos % env.wordBytes)) % 2 ^ 8

def Env.readData (env : Env T O) (values : ℕ → ℕ) :
    Layout → List (Arg T) → List O → List (Val O)
  | _, [], _ => []
  | l, .data size align :: args, os =>
    .data ((List.range size).map fun i => env.byte values (alignUp l.inSize align + i)) ::
      env.readData values (l.add (.data size align : Arg T)) args os
  | l, .out size align :: args, os =>
    .out (alignUp l.outSize align) :: env.readData values (l.add (.out size align : Arg T)) args os
  | l, .cap _ _ :: args, o :: os => .cap o :: env.readData values l args os
  | l, .cap _ _ :: args, [] => env.readData values l args []

def Env.read (args : List (Arg T)) (tag : Tag) (values : ℕ → ℕ) :
    Except Tag (List (Val O)) :=
  let total := env.start.total args
  if env.checkMessageSize tag total.inSize = false ∨ total.inItems ≠ 0 ∧ tag.items = 0 then
    .error (commitResult (-eMsgtooshort))
  else if total.inItems ≠ 0 then
    match env.readItems values tag.words.toNat args with
    | .error (some tag) => .error tag
    | .error none => .error tag
    | .ok os => .ok (env.readData values env.start args os)
  else .ok (env.readData values env.start args [])

def Env.answer (args : List (Arg T)) (t : Tag) : Tag :=
  if t.hasError || !t.doSwitch then t
  else if t.proto < 0 then t
  else
    { t with
      words := t.words ||| BitVec.ofNat 6 (env.messageWords (env.start.total args).outSize) }

structure Outcome (O : Type) where
  tag : Tag
  called : Option (List (Val O))

def Env.call (args : List (Arg T)) (tag : Tag) (values : ℕ → ℕ)
    (func : List (Val O) → Tag) : Outcome O :=
  match env.read args tag values with
  | .error tag => ⟨tag, none⟩
  | .ok vals => ⟨env.answer args (func vals), some vals⟩

def inputs : Layout → List (Arg T) → List (ℕ × ℕ)
  | _, [] => []
  | l, .data size align :: args =>
    (alignUp l.inSize align, size) :: inputs (l.add (.data size align : Arg T)) args
  | l, a :: args => inputs (l.add a) args

def Refers (pos idx : ℕ) : Prop :=
  pos + 1 < maxWords ∧ values pos ≠ 0 ∧ values (pos + 1) / 2 ^ 4 % 4 = 3 ∧
    values (pos + 1) / 2 ^ 12 = idx

def Env.Grants (c : Capability O) (type : T) (expected : BitVec 4) (o : O) : Prop :=
  c.obj = some o ∧ env.isA type o = true ∧ fulfills c.rights expected = true

def Env.Names (pos : ℕ) (type : T) (expected : BitVec 4)
    (o : O) : Prop :=
  ∃ idx c, Refers values pos idx ∧ env.lookupLocal idx = some c ∧ env.Grants c type expected o

def Env.AllNamed (env : Env T O) (values : ℕ → ℕ) : ℕ → List (Arg T) → Prop
  | _, [] => True
  | pos, .cap type expected :: args =>
    (∃ o, env.Names values pos type expected o) ∧ env.AllNamed values (pos + 2) args
  | pos, _ :: args => env.AllNamed values pos args

structure Env.Accepts (env : Env T O) (args : List (Arg T)) (tag : Tag) (values : ℕ → ℕ) :
    Prop where
  words : ∀ w ∈ inputs env.start args, w.1 + w.2 ≤ tag.words.toNat * env.wordBytes
  items : (env.start.total args).inItems ≤ tag.items.toNat
  caps : env.AllNamed values tag.words.toNat args

def KernelError (t : Tag) : Prop :=
  t.words = 0 ∧ t.items = 0 ∧ (t.proto < 0 ∨ t.hasError = true)
deriving Decidable

structure Env.Proper (env : Env T O) (args : List (Arg T)) (tag : Tag) (values : ℕ → ℕ)
    (out : Outcome O) : Prop where
  called : ∀ vals, out.called = some vals → env.Accepts args tag values
  refused : out.called = none → KernelError out.tag

def Env.Heard (pos : ℕ) (type : T) (expected : BitVec 4) : Prop :=
  ∀ idx, Refers values pos idx → ∃ c, env.lookupLocal idx = some c ∧
    ∀ o, c.obj = some o → env.isA type o = true → env.Grants c type expected o

def Env.AllHeard (env : Env T O) (values : ℕ → ℕ) : ℕ → List (Arg T) → Prop
  | _, [] => True
  | pos, .cap type expected :: args =>
    env.Heard values pos type expected ∧
      ((∃ o, env.Names values pos type expected o) → env.AllHeard values (pos + 2) args)
  | pos, _ :: args => env.AllHeard values pos args

/-- For a message of the right size with items: the first capability argument that is not accepted
sets an error, and if there is none then the tag declares all the items. -/
def Env.Guarded (args : List (Arg T)) (tag : Tag) (values : ℕ → ℕ) : Prop :=
  let total := env.start.total args
  env.checkMessageSize tag total.inSize = true → total.inItems ≠ 0 → tag.items ≠ 0 →
    env.AllHeard values tag.words.toNat args ∧
      (env.AllNamed values tag.words.toNat args → total.inItems ≤ tag.items.toNat)

end

variable {env : Env T O} {values : ℕ → ℕ} {args : List (Arg T)} {tag : Tag} {l : Layout} {pos : ℕ}
  {type : T} {expected : BitVec 4} {t : Tag}

theorem le_alignUp (pos align : ℕ) : pos ≤ alignUp pos align := by
  have hpos : 0 < 2 ^ align := Nat.two_pow_pos align
  have hdiv := Nat.div_add_mod (pos + 2 ^ align - 1) (2 ^ align)
  rw [Nat.mul_comm] at hdiv
  rw [alignUp]
  omega

theorem inSize_add (l : Layout) (a : Arg T) : l.inSize ≤ (l.add a).inSize := by
  cases a with
  | data size align => exact le_trans (le_alignUp _ _) (Nat.le_add_right _ _)
  | out size align | cap type expected => exact le_rfl

theorem inSize_total (l : Layout) (args : List (Arg T)) : l.inSize ≤ (l.total args).inSize := by
  induction args generalizing l with
  | nil => exact le_rfl
  | cons a args ih => exact le_trans (inSize_add l a) (ih (l.add a))

theorem inputs_le (l : Layout) (args : List (Arg T)) :
    ∀ w ∈ inputs l args, w.1 + w.2 ≤ (l.total args).inSize := by
  induction args generalizing l with
  | nil => simp [inputs]
  | cons a args ih =>
    cases a with
    | data size align =>
      intro w hw
      rcases List.mem_cons.mp hw with rfl | hw
      · exact inSize_total (l.add (.data size align : Arg T)) args
      · exact ih _ w hw
    | out size align | cap type expected => exact ih _

theorem inputs_inside (h : env.checkMessageSize tag (env.start.total args).inSize = true) :
    ∀ w ∈ inputs env.start args, w.1 + w.2 ≤ tag.words.toNat * env.wordBytes := by
  intro w hw
  have hsize := inputs_le env.start args w hw
  simp only [Env.checkMessageSize, Bool.and_eq_true, decide_eq_true_eq] at h
  have hwords := Nat.div_le_iff_le_mul_add_pred env.wordBytes_pos |>.mp h.1
  have hcomm := Nat.mul_comm env.wordBytes tag.words.toNat
  have hpos := env.wordBytes_pos
  omega

theorem nextCap_ok {r : Option (Capability O)} (h : env.nextCap values pos = .ok r) :
    Refers values pos (values (pos + 1) / 2 ^ 12) ∧
      r = env.lookupLocal (values (pos + 1) / 2 ^ 12) := by
  rw [Env.nextCap] at h
  split_ifs at h with h1 h2 h3
  push Not at h2 h3
  exact ⟨⟨h2.2, h2.1, h3, rfl⟩, (Except.ok.inj h).symm⟩

theorem nextCap_error (h : env.nextCap values pos = .error t) :
    KernelError t ∧ ∀ idx, ¬Refers values pos idx := by
  rw [Env.nextCap] at h
  split_ifs at h with h1 h2 h3
  · obtain rfl := Except.error.inj h
    exact ⟨by decide, fun idx hr => by have := hr.1; omega⟩
  · obtain rfl := Except.error.inj h
    exact ⟨by decide, fun idx hr => h2.elim hr.2.1 fun hm => by have := hr.1; omega⟩
  · obtain rfl := Except.error.inj h
    exact ⟨by decide, fun idx hr => h3 hr.2.2.1⟩

theorem refers_inj {idx idx' : ℕ} (h : Refers values pos idx) (h' : Refers values pos idx') :
    idx = idx' :=
  h.2.2.2.symm.trans h'.2.2.2

theorem deref_spec (env : Env T O) (c : Capability O) (type : T) (expected : BitVec 4) :
    (∃ o, env.deref c type expected = .ok o ∧ env.Grants c type expected o) ∨
    (∃ t, env.deref c type expected = .error (some t) ∧ KernelError t ∧
      ∀ o, c.obj = some o → env.isA type o = false) ∨
    (∃ o, env.deref c type expected = .error none ∧ c.obj = some o ∧ env.isA type o = true ∧
      ¬env.Grants c type expected o) := by
  rw [Env.deref]
  cases ho : c.obj with
  | none => exact .inr (.inl ⟨commitResult (-eNoent), rfl, by decide, by simp⟩)
  | some o =>
    by_cases hty : env.isA type o = false
    · refine .inr (.inl ⟨commitResult (-eInval), if_pos hty, by decide, fun o' h => ?_⟩)
      rw [← Option.some.inj h]
      exact hty
    · rw [Bool.not_eq_false] at hty
      by_cases hf : fulfills c.rights expected = false
      · refine .inr (.inr ⟨o, by simp [hty, hf], rfl, hty, fun h => ?_⟩)
        exact absurd h.2.2 (by simp [hf])
      · rw [Bool.not_eq_false] at hf
        exact .inl ⟨o, by simp [hty, hf], ho, hty, hf⟩

theorem readCap_spec (env : Env T O) (values : ℕ → ℕ) (pos : ℕ) (type : T) (expected : BitVec 4) :
    (∃ o, env.readCap values pos type expected = .ok o ∧ env.Names values pos type expected o ∧
      env.Heard values pos type expected) ∨
    (∃ t, env.readCap values pos type expected = .error (some t) ∧ KernelError t ∧
      env.Heard values pos type expected ∧ ¬∃ o, env.Names values pos type expected o) ∨
    (env.readCap values pos type expected = .error none ∧
      ¬env.Heard values pos type expected ∧ ¬∃ o, env.Names values pos type expected o) := by
  rw [Env.readCap]
  cases hn : env.nextCap values pos with
  | error t =>
    obtain ⟨ht, hr⟩ := nextCap_error hn
    refine .inr (.inl ⟨t, rfl, ht, fun idx h => absurd h (hr idx), ?_⟩)
    rintro ⟨o, idx, c, h, -⟩
    exact hr idx h
  | ok r =>
    obtain ⟨hr, hl⟩ := nextCap_ok hn
    cases r with
    | none =>
      refine .inr (.inr ⟨rfl, fun hh => ?_, ?_⟩)
      · obtain ⟨c, hc, -⟩ := hh _ hr
        exact absurd (hl.trans hc) (by simp)
      · rintro ⟨o, idx, c, h, hc, -⟩
        rw [refers_inj h hr] at hc
        exact absurd (hl.trans hc) (by simp)
    | some c =>
      have hidx : ∀ idx, Refers values pos idx → env.lookupLocal idx = some c := by
        intro idx h
        rw [refers_inj h hr]
        exact hl.symm
      have hnames : ∀ o, env.Names values pos type expected o ↔ env.Grants c type expected o := by
        intro o
        constructor
        · rintro ⟨idx, c', h, hc, hg⟩
          obtain rfl := Option.some.inj (hc.symm.trans (hidx idx h))
          exact hg
        · intro hg
          exact ⟨_, c, hr, hl.symm, hg⟩
      have hheard : env.Heard values pos type expected ↔
          ∀ o, c.obj = some o → env.isA type o = true → env.Grants c type expected o := by
        constructor
        · intro hh
          obtain ⟨c', hc, hg⟩ := hh _ hr
          obtain rfl := Option.some.inj (hc.symm.trans (hidx _ hr))
          exact hg
        · intro hg idx h
          exact ⟨c, hidx idx h, hg⟩
      simp only [hnames, hheard]
      have hobj : ∀ o o', c.obj = some o → c.obj = some o' → o = o' :=
        fun o o' h h' => Option.some.inj (h.symm.trans h')
      rcases deref_spec env c type expected with ⟨o, he, hg⟩ | ⟨t, he, ht, hno⟩ | ⟨o, he, ho, hty, hng⟩
      · refine .inl ⟨o, he, hg, fun o' h _ => ?_⟩
        rw [hobj o' o h hg.1]
        exact hg
      · refine .inr (.inl ⟨t, he, ht, fun o h hty => ?_, ?_⟩)
        · exact absurd hty (by simp [hno o h])
        · rintro ⟨o, hg⟩
          exact absurd hg.2.1 (by simp [hno o hg.1])
      · refine .inr (.inr ⟨he, fun hh => hng (hh o ho hty), ?_⟩)
        rintro ⟨o', hg⟩
        rw [hobj o' o hg.1 ho] at hg
        exact hng hg

theorem readItems_spec (env : Env T O) (values : ℕ → ℕ) (pos : ℕ) (args : List (Arg T)) :
    (∃ os, env.readItems values pos args = .ok os ∧ env.AllNamed values pos args ∧
      env.AllHeard values pos args) ∨
    (∃ t, env.readItems values pos args = .error (some t) ∧ KernelError t ∧
      env.AllHeard values pos args ∧ ¬env.AllNamed values pos args) ∨
    (env.readItems values pos args = .error none ∧ ¬env.AllHeard values pos args) := by
  induction args generalizing pos with
  | nil => exact .inl ⟨[], rfl, trivial, trivial⟩
  | cons a args ih =>
    cases a with
    | data size align | out size align => exact ih pos
    | cap type expected =>
      simp only [Env.readItems, Env.AllNamed, Env.AllHeard]
      rcases readCap_spec env values pos type expected with
        ⟨o, he, hn, hh⟩ | ⟨t, he, ht, hh, hn⟩ | ⟨he, hh, hn⟩
      · simp only [he]
        rcases ih (pos + 2) with ⟨os, hs, hns, hhs⟩ | ⟨t, hs, ht, hhs, hns⟩ | ⟨hs, hhs⟩
        · exact .inl ⟨o :: os, by rw [hs], ⟨⟨o, hn⟩, hns⟩, hh, fun _ => hhs⟩
        · exact .inr (.inl ⟨t, by rw [hs], ht, ⟨hh, fun _ => hhs⟩, fun h => hns h.2⟩)
        · exact .inr (.inr ⟨by rw [hs], fun h => hhs (h.2 ⟨o, hn⟩)⟩)
      · simp only [he]
        exact .inr (.inl ⟨t, rfl, ht, ⟨hh, fun h => absurd h hn⟩, fun h => hn h.1⟩)
      · simp only [he]
        exact .inr (.inr ⟨trivial, fun h => hh h.1⟩)

theorem inItems_total (l : Layout) (args : List (Arg T)) : l.inItems ≤ (l.total args).inItems := by
  induction args generalizing l with
  | nil => exact le_rfl
  | cons a args ih =>
    refine le_trans ?_ (ih (l.add a))
    cases a with
    | data size align | out size align => exact le_rfl
    | cap type expected => exact Nat.le_succ _

theorem allNamed_of_inItems (h : (l.total args).inItems = l.inItems) (pos : ℕ) :
    env.AllNamed values pos args := by
  induction args generalizing l with
  | nil => trivial
  | cons a args ih =>
    cases a with
    | data size align => exact ih (l := l.add (.data size align : Arg T)) h
    | out size align => exact ih (l := l.add (.out size align : Arg T)) h
    | cap type expected =>
      have hle := inItems_total (l.add (.cap type expected)) args
      have hadd : (l.add (.cap type expected)).inItems = l.inItems + 1 := rfl
      have htotal : ((l.add (.cap type expected)).total args).inItems = l.inItems := h
      omega

theorem proper_of_error (ht : KernelError t) : env.Proper args tag values ⟨t, none⟩ :=
  ⟨fun _ h => absurd h (by simp), fun _ => ht⟩

theorem not_proper_of_items (h : tag.items ≠ 0) : ¬env.Proper args tag values ⟨tag, none⟩ :=
  fun hp => h (hp.refused rfl).2.1

theorem proper_called_iff {vals : List (Val O)}
    (hsize : env.checkMessageSize tag (env.start.total args).inSize = true)
    (hn : env.AllNamed values tag.words.toNat args) :
    env.Proper args tag values ⟨t, some vals⟩ ↔
      (env.start.total args).inItems ≤ tag.items.toNat := by
  constructor
  · intro h
    exact (h.called vals rfl).items
  · intro h
    exact ⟨fun _ _ => ⟨inputs_inside hsize, h, hn⟩, fun h => absurd h (by simp)⟩

theorem call_proper_iff (env : Env T O) (args : List (Arg T)) (tag : Tag) (values : ℕ → ℕ)
    (func : List (Val O) → Tag) :
    env.Proper args tag values (env.call args tag values func) ↔ env.Guarded args tag values := by
  simp only [Env.call, Env.read, Env.Guarded]
  by_cases hs : env.checkMessageSize tag (env.start.total args).inSize = false ∨
      (env.start.total args).inItems ≠ 0 ∧ tag.items = 0
  · rw [if_pos hs]
    refine iff_of_true (proper_of_error (by decide)) fun hsize hitems htag => ?_
    rcases hs with hs | hs
    · exact absurd hsize (by simp [hs])
    · exact absurd hs.2 htag
  · rw [if_neg hs]
    rw [not_or, Bool.not_eq_false, not_and] at hs
    by_cases hi : (env.start.total args).inItems ≠ 0
    · rw [if_pos hi]
      have htag := hs.2 hi
      rcases readItems_spec env values tag.words.toNat args with
        ⟨os, he, hn, hh⟩ | ⟨t, he, ht, hh, hn⟩ | ⟨he, hh⟩
      · rw [he, proper_called_iff hs.1 hn]
        exact ⟨fun h _ _ _ => ⟨hh, fun _ => h⟩, fun h => (h hs.1 hi htag).2 hn⟩
      · rw [he]
        exact iff_of_true (proper_of_error ht) fun _ _ _ => ⟨hh, fun h => absurd h hn⟩
      · rw [he]
        exact iff_of_false (not_proper_of_items htag) fun h => hh (h hs.1 hi htag).1
    · rw [if_neg hi]
      rw [not_not] at hi
      rw [proper_called_iff hs.1 (allNamed_of_inItems (l := env.start) hi _), hi]
      exact iff_of_true (Nat.zero_le _) fun _ h => absurd rfl h

def oneIrq : Env Unit Unit where
  wordBytes := 8
  wordBytes_pos := Nat.succ_pos 7
  lookupLocal := fun idx => if idx = 0 then some ⟨some (), 0⟩ else none
  isA := fun _ _ => true

def icuBind : List (Arg Unit) := [.data 8 3, .cap () 1]

def bindMessage (idx : ℕ) : ℕ → ℕ
  | 2 => 1
  | 3 => idx * 2 ^ 12 + 3 * 2 ^ 4
  | _ => 0

/-- Neither a capability without the right nor an index without a page sets an error: the tag of
the request is the answer. -/
theorem icuBind_returns_request :
    oneIrq.call icuBind ⟨2, 1, 0, -1⟩ (bindMessage 0) (fun _ => commitResult 0) =
        ⟨⟨2, 1, 0, -1⟩, none⟩ ∧
      oneIrq.call icuBind ⟨2, 1, 0, -1⟩ (bindMessage 1) (fun _ => commitResult 0) =
        ⟨⟨2, 1, 0, -1⟩, none⟩ ∧
      ¬KernelError ⟨2, 1, 0, -1⟩ :=
  ⟨rfl, rfl, by decide⟩

end Fiasco.Rpc
