/-
# Pipelines with `StreamThreadedBuffer`s: threads, stacks, queues

`include/cppdatastream/DataStream.hpp`, lines 255-283 and 326-376.  The threads are
the one that pushes at the entry and the workers of the buffers; a buffer starts a
worker when it finds `_thread_started` unset.  Each thread runs the code of
`pushData` and `run` on a call stack of its own, and the state is otherwise shared.

A `Frame` is a program point of a call together with its local variables, and
`exec` runs the topmost one up to the next access of shared state: the `_had_error`
test, `processData` with the error test on its output, one call of a visitor, one
call of `pushData`, the `_thread_started` test, the construction of the
`std::thread`, its assignment to `_thread`, the assignment to `_thread_started`,
one attempt to enqueue, `wait_dequeue`, the call in `run`, the end-of-processing
test.  The construction and the assignment are two steps: the new thread runs from
the construction on, and the assignment calls `std::terminate` if `_thread` is
joinable already.  A `wait_enqueue_timed` that times out changes nothing and is
tried again (`Step.timeout`).  The queue is a bounded FIFO of capacity `maxBlocks`.
Visitors return; what they are called with is in the log.

`Exec` lists what a frame can do, one constructor for each outcome, and is what
every invariant is derived from (`step_cases`).
-/

import CppDataStream.Graph
import Mathlib.Logic.Relation

namespace CppDataStream

/-- A pipeline: `maxBlocks c` is the capacity of a `StreamThreadedBuffer`, `none`
for a `StreamProcessor` with the `pushData` of the base class.  `processData` of a
buffer is final and returns its argument. -/
structure Pipeline (ι V T σ : Type*) extends Graph ι V T σ where
  maxBlocks : ι → Option ℕ
  entry : ι
  processData_buffer : ∀ c, maxBlocks c ≠ none → ∀ st sdb, processData c st sdb = (st, sdb)

/-- The thread that pushes at the entry, and the `i`-th thread that buffer `c` has
constructed. -/
inductive Thread (ι : Type*) where
  | pusher
  | worker (c : ι) (i : ℕ)
  deriving DecidableEq

/-- A program point of a call, with its local variables. -/
inductive Frame (ι T : Type*) where
  /-- The application, with the blocks still to push. -/
  | main (todo : List (SharedDataBlock T))
  /-- `StreamProcessor::pushData` before the test of `_had_error`. -/
  | hadError (n : ι) (sdb : SharedDataBlock T)
  /-- Before the call of `processData`. -/
  | process (n : ι) (sdb : SharedDataBlock T)
  /-- In the loop over `visitors`, at position `k`. -/
  | visit (n : ι) (k : ℕ) (output : SharedDataBlock T)
  /-- In the loop over `processors`, at position `k`. -/
  | forward (n : ι) (k : ℕ) (output : SharedDataBlock T)
  /-- `StreamThreadedBuffer::pushData` before the test of `_thread_started`. -/
  | startTest (c : ι) (sdb : SharedDataBlock T)
  /-- Before the construction of the `std::thread`. -/
  | start (c : ι) (sdb : SharedDataBlock T)
  /-- Before its assignment to `_thread`. -/
  | assign (c : ι) (sdb : SharedDataBlock T)
  /-- Before `_thread_started = true`. -/
  | started (c : ι) (sdb : SharedDataBlock T)
  /-- In the loop around `wait_enqueue_timed`. -/
  | enqueue (c : ι) (sdb : SharedDataBlock T)
  /-- `run` before `wait_dequeue`. -/
  | dequeue (c : ι)
  /-- Before the call of `StreamProcessor::pushData`. -/
  | deliver (c : ι) (sdb : SharedDataBlock T)
  /-- Before the end-of-processing test. -/
  | eopTest (c : ι) (sdb : SharedDataBlock T)
  deriving DecidableEq

/-- What the threads share: the members of the elements, and whether
`std::terminate` was called.  `created c` counts the threads that `c` has
constructed. -/
structure Shared (ι T σ : Type*) where
  priv : ι → σ
  hadError : ι → Bool
  threadStarted : ι → Bool
  joinable : ι → Bool
  created : ι → ℕ
  queue : ι → List (SharedDataBlock T)
  terminated : Bool

/-- What a frame does: the shared state it leaves, the frames that replace it, the
events, and the thread it has constructed. -/
structure Effect (ι V T σ : Type*) where
  shared : Shared ι T σ
  frames : List (Frame ι T)
  events : List (Event ι V T)
  spawned : Option (ι × ℕ)

/-- The state of a run, and its log. -/
structure State (ι V T σ : Type*) where
  shared : Shared ι T σ
  stack : Thread ι → List (Frame ι T)
  log : List (Event ι V T)

namespace Pipeline

variable {ι V T σ : Type*}

/-- `c` is a `StreamThreadedBuffer`. -/
def IsBuffer (P : Pipeline ι V T σ) (c : ι) : Prop := P.maxBlocks c ≠ none

instance (P : Pipeline ι V T σ) (c : ι) : Decidable (P.IsBuffer c) :=
  match h : P.maxBlocks c with
  | none => isFalse fun hc => hc h
  | some _ => isTrue fun hc => nomatch h.symm.trans hc

/-- The first frame of a call of the virtual `pushData`. -/
def pushFrame (P : Pipeline ι V T σ) (n : ι) (sdb : SharedDataBlock T) : Frame ι T :=
  if P.IsBuffer n then .startTest n sdb else .hadError n sdb

variable [DecidableEq ι]

/-- `processData` and the error test on the shared state. -/
def process (P : Pipeline ι V T σ) (n : ι) (sdb : SharedDataBlock T) (sh : Shared ι T σ) :
    Shared ι T σ × SharedDataBlock T :=
  let (priv', output) := P.processData n (sh.priv n) sdb
  ({ sh with
      priv := Function.update sh.priv n priv'
      hadError := if output.isEopError then Function.update sh.hadError n true else sh.hadError },
    output)

/-- One step of the topmost frame of a thread; `none` if it waits. -/
def exec (P : Pipeline ι V T σ) (sh : Shared ι T σ) : Frame ι T → Option (Effect ι V T σ)
  | .main [] => some ⟨sh, [], [], none⟩
  | .main (sdb :: todo) =>
      some ⟨sh, [P.pushFrame P.entry sdb, .main todo], [.call .external P.entry sdb], none⟩
  | .hadError n sdb =>
      if sh.hadError n then some ⟨sh, [], [.skip n sdb], none⟩
      else some ⟨sh, [.process n sdb], [], none⟩
  | .process n sdb =>
      some ⟨(P.process n sdb sh).1, [.visit n 0 (P.process n sdb sh).2],
        [.process n sdb (P.process n sdb sh).2], none⟩
  | .visit n k output =>
      match (P.visitors n)[k]? with
      | some v => some ⟨sh, [.visit n (k + 1) output], [.visit n k v output], none⟩
      | none => some ⟨sh, [.forward n 0 output], [], none⟩
  | .forward n k output =>
      match (P.processors n)[k]? with
      | some c => some ⟨sh, [P.pushFrame c output, .forward n (k + 1) output],
          [.call (.connection n k) c output], none⟩
      | none => some ⟨sh, [], [], none⟩
  | .startTest c sdb =>
      if sh.threadStarted c then some ⟨sh, [.enqueue c sdb], [], none⟩
      else some ⟨sh, [.start c sdb], [], none⟩
  | .start c sdb =>
      some ⟨{ sh with created := Function.update sh.created c (sh.created c + 1) }, [.assign c sdb], [],
        some (c, sh.created c)⟩
  | .assign c sdb =>
      if sh.joinable c then some ⟨{ sh with terminated := true }, [.assign c sdb], [], none⟩
      else some ⟨{ sh with joinable := Function.update sh.joinable c true }, [.started c sdb], [], none⟩
  | .started c sdb =>
      some ⟨{ sh with threadStarted := Function.update sh.threadStarted c true }, [.enqueue c sdb], [],
        none⟩
  | .enqueue c sdb =>
      if (sh.queue c).length < (P.maxBlocks c).getD 0 then
        some ⟨{ sh with queue := Function.update sh.queue c (sh.queue c ++ [sdb]) }, [],
          [.enqueue c sdb], none⟩
      else none
  | .dequeue c =>
      match sh.queue c with
      | [] => none
      | sdb :: sdbs => some ⟨{ sh with queue := Function.update sh.queue c sdbs }, [.deliver c sdb],
          [.dequeue c sdb], none⟩
  | .deliver c sdb => some ⟨sh, [.hadError c sdb, .eopTest c sdb], [.deliver c sdb], none⟩
  | .eopTest c sdb =>
      if sdb.isEndOfProcessing then some ⟨sh, [], [], none⟩ else some ⟨sh, [.dequeue c], [], none⟩

/-- A constructed thread starts in `run`. -/
def spawn (stack : Thread ι → List (Frame ι T)) : Option (ι × ℕ) → Thread ι → List (Frame ι T)
  | none => stack
  | some (c, i) => Function.update stack (.worker c i) [.dequeue c]

/-- One step of thread `t`, if it can make one. -/
def step (P : Pipeline ι V T σ) (t : Thread ι) (S : State ι V T σ) : Option (State ι V T σ) :=
  match S.stack t with
  | [] => none
  | f :: rest =>
      if S.shared.terminated then none
      else (P.exec S.shared f).map fun e =>
        { shared := e.shared
          stack := spawn (Function.update S.stack t (e.frames ++ rest)) e.spawned
          log := S.log ++ e.events }

/-- One step of some thread. -/
def Progress (P : Pipeline ι V T σ) (S S' : State ι V T σ) : Prop := ∃ t, P.step t S = some S'

omit [DecidableEq ι] in
/-- A thread is in the loop around `wait_enqueue_timed`, so an attempt may time
out. -/
def Waiting (S : State ι V T σ) : Prop := ∃ t c sdb rest, S.stack t = .enqueue c sdb :: rest

/-- One step of the system: of a thread, or a timed-out attempt to enqueue, which
changes nothing. -/
inductive Step (P : Pipeline ι V T σ) : State ι V T σ → State ι V T σ → Prop
  | thread {S S' : State ι V T σ} (h : P.Progress S S') : Step P S S'
  | timeout {S : State ι V T σ} (h : Waiting S) : Step P S S

/-- Before the blocks `bs` are pushed at the entry of a fresh pipeline. -/
def init (priv : ι → σ) (bs : List (SharedDataBlock T)) : State ι V T σ where
  shared := ⟨priv, fun _ => false, fun _ => false, fun _ => false, fun _ => 0, fun _ => [], false⟩
  stack t := if t = .pusher then [.main bs] else []
  log := []

/-- The states of all interleavings. -/
def Reachable (P : Pipeline ι V T σ) (priv : ι → σ) (bs : List (SharedDataBlock T)) :
    State ι V T σ → Prop :=
  Relation.ReflTransGen P.Step (init priv bs)

/-- The steps of the threads of a schedule, one after the other. -/
def run (P : Pipeline ι V T σ) : List (Thread ι) → State ι V T σ → Option (State ι V T σ)
  | [], S => some S
  | t :: ts, S => (P.step t S).bind (P.run ts)

/-- A schedule leads from a reachable state to one. -/
theorem Reachable.run {P : Pipeline ι V T σ} {priv : ι → σ} {bs : List (SharedDataBlock T)} :
    ∀ {ts : List (Thread ι)} {S S' : State ι V T σ}, P.Reachable priv bs S → P.run ts S = some S' →
      P.Reachable priv bs S'
  | [], _, _, hS, h => Option.some.inj h ▸ hS
  | t :: ts, S, S', hS, h => by
      obtain ⟨S₁, h₁, h⟩ := Option.bind_eq_some_iff.mp h
      have hS₁ : P.Reachable priv bs S₁ := hS.tail (.thread ⟨t, h₁⟩)
      exact hS₁.run h

/-! ### What a frame can do -/

/-- The outcomes of a frame. -/
inductive Exec (P : Pipeline ι V T σ) (sh : Shared ι T σ) : Frame ι T → Effect ι V T σ → Prop
  | returned : Exec P sh (.main []) ⟨sh, [], [], none⟩
  | push (sdb todo) : Exec P sh (.main (sdb :: todo))
      ⟨sh, [P.pushFrame P.entry sdb, .main todo], [.call .external P.entry sdb], none⟩
  | skip (n sdb) (h : sh.hadError n = true) : Exec P sh (.hadError n sdb) ⟨sh, [], [.skip n sdb], none⟩
  | pass (n sdb) (h : sh.hadError n = false) :
      Exec P sh (.hadError n sdb) ⟨sh, [.process n sdb], [], none⟩
  | process (n sdb) : Exec P sh (.process n sdb)
      ⟨(P.process n sdb sh).1, [.visit n 0 (P.process n sdb sh).2],
        [.process n sdb (P.process n sdb sh).2], none⟩
  | visit (n k output v) (h : (P.visitors n)[k]? = some v) :
      Exec P sh (.visit n k output) ⟨sh, [.visit n (k + 1) output], [.visit n k v output], none⟩
  | visited (n k output) (h : (P.visitors n)[k]? = none) :
      Exec P sh (.visit n k output) ⟨sh, [.forward n 0 output], [], none⟩
  | forward (n k output c) (h : P.Conn n k c) : Exec P sh (.forward n k output)
      ⟨sh, [P.pushFrame c output, .forward n (k + 1) output], [.call (.connection n k) c output], none⟩
  | forwarded (n k output) (h : (P.processors n)[k]? = none) :
      Exec P sh (.forward n k output) ⟨sh, [], [], none⟩
  | isStarted (c sdb) (h : sh.threadStarted c = true) :
      Exec P sh (.startTest c sdb) ⟨sh, [.enqueue c sdb], [], none⟩
  | notStarted (c sdb) (h : sh.threadStarted c = false) :
      Exec P sh (.startTest c sdb) ⟨sh, [.start c sdb], [], none⟩
  | start (c sdb) : Exec P sh (.start c sdb)
      ⟨{ sh with created := Function.update sh.created c (sh.created c + 1) }, [.assign c sdb], [],
        some (c, sh.created c)⟩
  | terminate (c sdb) (h : sh.joinable c = true) :
      Exec P sh (.assign c sdb) ⟨{ sh with terminated := true }, [.assign c sdb], [], none⟩
  | assign (c sdb) (h : sh.joinable c = false) : Exec P sh (.assign c sdb)
      ⟨{ sh with joinable := Function.update sh.joinable c true }, [.started c sdb], [], none⟩
  | started (c sdb) : Exec P sh (.started c sdb)
      ⟨{ sh with threadStarted := Function.update sh.threadStarted c true }, [.enqueue c sdb], [], none⟩
  | enqueue (c sdb) (h : (sh.queue c).length < (P.maxBlocks c).getD 0) : Exec P sh (.enqueue c sdb)
      ⟨{ sh with queue := Function.update sh.queue c (sh.queue c ++ [sdb]) }, [], [.enqueue c sdb], none⟩
  | dequeue (c sdb sdbs) (h : sh.queue c = sdb :: sdbs) : Exec P sh (.dequeue c)
      ⟨{ sh with queue := Function.update sh.queue c sdbs }, [.deliver c sdb], [.dequeue c sdb], none⟩
  | deliver (c sdb) : Exec P sh (.deliver c sdb)
      ⟨sh, [.hadError c sdb, .eopTest c sdb], [.deliver c sdb], none⟩
  | exit (c sdb) (h : sdb.isEndOfProcessing = true) : Exec P sh (.eopTest c sdb) ⟨sh, [], [], none⟩
  | again (c sdb) (h : sdb.isEndOfProcessing = false) :
      Exec P sh (.eopTest c sdb) ⟨sh, [.dequeue c], [], none⟩

variable {P : Pipeline ι V T σ} {S S' : State ι V T σ}

/-- **What a step can do**, one case for each program point. -/
theorem exec_cases {sh : Shared ι T σ} {f : Frame ι T} {e : Effect ι V T σ}
    (h : P.exec sh f = some e) : Exec P sh f e := by
  cases f with
  | main todo =>
      cases todo <;> (obtain rfl := Option.some.inj h; constructor)
  | hadError n sdb =>
      rw [exec] at h
      split_ifs at h with he <;> obtain rfl := Option.some.inj h
      · exact .skip n sdb he
      · exact .pass n sdb (by simpa using he)
  | process n sdb => obtain rfl := Option.some.inj h; constructor
  | visit n k output =>
      rw [exec] at h
      split at h <;> obtain rfl := Option.some.inj h
      · exact .visit n k output _ ‹_›
      · exact .visited n k output ‹_›
  | forward n k output =>
      rw [exec] at h
      split at h <;> obtain rfl := Option.some.inj h
      · exact .forward n k output _ ‹_›
      · exact .forwarded n k output ‹_›
  | startTest c sdb =>
      rw [exec] at h
      split_ifs at h with he <;> obtain rfl := Option.some.inj h
      · exact .isStarted c sdb he
      · exact .notStarted c sdb (by simpa using he)
  | start c sdb => obtain rfl := Option.some.inj h; constructor
  | assign c sdb =>
      rw [exec] at h
      split_ifs at h with he <;> obtain rfl := Option.some.inj h
      · exact .terminate c sdb he
      · exact .assign c sdb (by simpa using he)
  | started c sdb => obtain rfl := Option.some.inj h; constructor
  | enqueue c sdb =>
      rw [exec] at h
      split_ifs at h with he
      obtain rfl := Option.some.inj h
      exact .enqueue c sdb he
  | dequeue c =>
      rw [exec] at h
      split at h
      · exact absurd h (by simp)
      · obtain rfl := Option.some.inj h
        exact .dequeue c _ _ ‹_›
  | deliver c sdb => obtain rfl := Option.some.inj h; constructor
  | eopTest c sdb =>
      rw [exec] at h
      split_ifs at h with he <;> obtain rfl := Option.some.inj h
      · exact .exit c sdb he
      · exact .again c sdb (by simpa using he)

/-- **What a step does**: the topmost frame of one thread is replaced, and a thread
may be constructed. -/
theorem step_cases {t : Thread ι} (h : P.step t S = some S') :
    ∃ f rest e, S.stack t = f :: rest ∧ S.shared.terminated = false ∧ Exec P S.shared f e ∧
      S' = ⟨e.shared, spawn (Function.update S.stack t (e.frames ++ rest)) e.spawned,
        S.log ++ e.events⟩ := by
  unfold step at h
  split at h
  · exact absurd h (by simp)
  · rename_i f rest hstack
    split_ifs at h with hterm
    obtain ⟨e, he, rfl⟩ := Option.map_eq_some_iff.mp h
    exact ⟨f, rest, e, hstack, by simpa using hterm, exec_cases he, rfl⟩

/-- **Invariants**: what holds at first and is kept by every step of a thread holds
in every reachable state. -/
theorem Reachable.induct {priv : ι → σ} {bs : List (SharedDataBlock T)} {I : State ι V T σ → Prop}
    (init : I (init priv bs))
    (step : ∀ S t f rest e, Reachable P priv bs S → I S → S.stack t = f :: rest →
      Exec P S.shared f e →
      Reachable P priv bs
        ⟨e.shared, spawn (Function.update S.stack t (e.frames ++ rest)) e.spawned, S.log ++ e.events⟩ →
      I ⟨e.shared, spawn (Function.update S.stack t (e.frames ++ rest)) e.spawned, S.log ++ e.events⟩)
    {S : State ι V T σ} (h : Reachable P priv bs S) : I S := by
  induction h with
  | refl => exact init
  | @tail S S' hS hstep ih =>
      have hS' : P.Reachable priv bs S' := Relation.ReflTransGen.tail hS hstep
      cases hstep with
      | timeout => exact ih
      | thread hp =>
          obtain ⟨t, ht⟩ := hp
          obtain ⟨f, rest, e, hstack, -, hexec, rfl⟩ := step_cases ht
          exact step S t f rest e hS ih hstack hexec hS'

/-! ### What a thread can wait for -/

/-- A frame waits for space in a queue, or for a block. -/
theorem exec_eq_none {sh : Shared ι T σ} {f : Frame ι T} (h : P.exec sh f = none) :
    (∃ c sdb, f = .enqueue c sdb ∧ (P.maxBlocks c).getD 0 ≤ (sh.queue c).length) ∨
      ∃ c, f = .dequeue c ∧ sh.queue c = [] := by
  cases f with
  | enqueue c sdb =>
      rw [exec] at h
      split_ifs at h with hlt
      exact Or.inl ⟨c, sdb, rfl, Nat.le_of_not_lt hlt⟩
  | dequeue c =>
      rw [exec] at h
      split at h
      · exact Or.inr ⟨c, rfl, ‹_›⟩
      · exact absurd h (by simp)
  | main todo => cases todo <;> exact absurd h (by simp [exec])
  | visit | forward => rw [exec] at h; split at h <;> exact absurd h (by simp)
  | hadError | startTest | assign | eopTest => rw [exec] at h; split_ifs at h
  | process | start | started | deliver => exact absurd h (by simp [exec])

/-- No thread can make a step. -/
def Stuck (P : Pipeline ι V T σ) (S : State ι V T σ) : Prop := ∀ S', ¬ P.Progress S S'

/-- In a stuck state every thread that has not returned waits. -/
theorem Stuck.waits (h : P.Stuck S) (hterm : S.shared.terminated = false) {t : Thread ι}
    {f : Frame ι T} {rest : List (Frame ι T)} (hstack : S.stack t = f :: rest) :
    (∃ c sdb, f = .enqueue c sdb ∧ (P.maxBlocks c).getD 0 ≤ (S.shared.queue c).length) ∨
      ∃ c, f = .dequeue c ∧ S.shared.queue c = [] := by
  refine exec_eq_none ?_
  by_contra hsome
  obtain ⟨e, he⟩ := Option.ne_none_iff_exists'.mp hsome
  exact h _ ⟨t, by rw [step, hstack]; simp [hterm, he]; rfl⟩

/-- Nothing happens any more in a stuck state. -/
theorem Stuck.eq (h : P.Stuck S) (hsteps : Relation.ReflTransGen P.Step S S') : S' = S := by
  induction hsteps with
  | refl => rfl
  | tail _ hstep ih =>
      subst ih
      cases hstep with
      | thread hp => exact absurd hp (h _)
      | timeout => rfl

end Pipeline
end CppDataStream
