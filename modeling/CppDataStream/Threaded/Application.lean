/-
# Applications that drive a pipeline

`CppDataStream.Threaded.Machine` is given the blocks that are pushed.  An application
decides on them while it runs, from what other threads and the outside world do, and it
takes part in the pipeline in other ways: it waits for a `StreamSink`, and its
destructors join the workers.

An `Application` is a transition system of its own, for all its threads.  Its steps are
labelled with what the pipeline has to do with them (`Action`), and the two make such a
step together (`Pipeline.Sync`): the pushing thread calls `pushData` of the entry when
the call before has returned, `wait` returns when the sink has been shown an
end-of-processing block, a join returns when the worker has.  Everything else
interleaves.

At every moment the pipeline is in a state that it could have reached had it been given
the blocks pushed so far (`Application.RunsTo.reachable`).  So what holds of every run
of a pipeline holds here (`Application.online_refines_synchronous`).  Runs are bounded if those
of the application are (`Application.exists_bound`); and where no thread can make a step
the pushing thread is not inside a push, and everything is completed if the stream is
(`Pipeline.IsTree.pusher_of_halted`, `Pipeline.IsTree.completed_of_halted`).
-/

import CppDataStream.Threaded.Refinement
import CppDataStream.Threaded.Deadlock
import CppDataStream.Threaded.Guard

namespace CppDataStream

open Transitions Streams

/-- What the threads of an application do, as far as the pipeline takes part. -/
inductive Action (ι V T : Type*) where
  /-- Something that does not concern the pipeline. -/
  | internal
  /-- The pushing thread calls `pushData(sdb)` of the entry. -/
  | call (sdb : SharedDataBlock T)
  /-- This call has returned. -/
  | ret
  /-- The pushing thread is done with its pushes. -/
  | exit
  /-- `wait` of the sink `v` returns `eop`. -/
  | wait (v : V) (eop : EopStatus)
  /-- `if(_thread.joinable()) _thread.join();` of the buffer `c` returns. -/
  | join (c : ι)

/-- The blocks that are pushed in a step. -/
def Action.blocks {ι V T : Type*} : Action ι V T → List (SharedDataBlock T)
  | .call sdb => [sdb]
  | _ => []

/-- An application: its threads, and what the outside world does to it. -/
structure Application (α ι V T : Type*) where
  init : α
  Step : Action ι V T → α → α → Prop
  Outside : α → α → Prop

/-- The promise of the sink `v`, as the calls of its `visitData` have left it. -/
def sinkPromise {ι V T : Type*} [DecidableEq V] (v : V) (log : List (Event ι V T)) :
    Except Exn (Option EopStatus) :=
  (foldVisits .StreamSink ⟨none, ()⟩ (seenBy v log)).map VisitorState.promise

/-- It holds the status of the one end-of-processing block that the sink was shown. -/
theorem sinkPromise_eq {ι V T : Type*} [DecidableEq V] (v : V) (log : List (Event ι V T)) :
    sinkPromise v log = if (seenBy v log).countP SharedDataBlock.isEndOfProcessing ≤ 1 then
      .ok ((seenBy v log).findSome? SharedDataBlock.eop) else .error .future_error := by
  rw [sinkPromise, foldVisits_StreamSink rfl]
  split_ifs <;> rfl

/-- A promise that is set stays as it is, unless a later call throws. -/
theorem sinkPromise_of_isPrefix {ι V T : Type*} [DecidableEq V] {v : V} {log log' : List (Event ι V T)}
    (h : log <+: log') {eop : EopStatus} (hset : sinkPromise v log = .ok (some eop))
    {promise : Option EopStatus} (hok : sinkPromise v log' = .ok promise) :
    sinkPromise v log' = .ok (some eop) := by
  obtain ⟨rest, rfl⟩ := h
  rw [sinkPromise_eq] at hset hok ⊢
  split_ifs at hset hok ⊢
  rw [seenBy_append, List.findSome?_append, Except.ok.inj hset]
  rfl

namespace Pipeline

variable {ι V T σ : Type*} [DecidableEq ι] [DecidableEq V]

omit [DecidableEq V] in
/-- The pushing thread has called `pushData(sdb)` of the entry. -/
def pushEntry (P : Pipeline ι V T σ) (sdb : SharedDataBlock T) (S : State ι V T σ) : State ι V T σ :=
  { S with
    stack := Function.update S.stack .pusher [P.pushFrame P.entry sdb, .main []]
    log := S.log ++ [.call .external P.entry sdb] }

omit [DecidableEq V] in
/-- The pushing thread has left the application. -/
def leave (S : State ι V T σ) : State ι V T σ :=
  { S with stack := Function.update S.stack .pusher [] }

omit [DecidableEq V] in
/-- The pushing thread is gone. -/
@[simp] theorem leave_pusher (S : State ι V T σ) : (leave S).stack .pusher = [] := by
  simp [leave]

omit [DecidableEq V] in
/-- The workers are as they were. -/
@[simp] theorem leave_worker (S : State ι V T σ) (c : ι) (i : ℕ) :
    (leave S).stack (.worker c i) = S.stack (.worker c i) := by
  simp [leave]

/-- What the pipeline does in a step of the application. -/
inductive Sync (P : Pipeline ι V T σ) : Action ι V T → State ι V T σ → State ι V T σ → Prop
  | internal (S) : Sync P .internal S S
  | call (S) (sdb) (h : S.stack .pusher = [.main []]) : Sync P (.call sdb) S (P.pushEntry sdb S)
  | ret (S) (h : S.stack .pusher = [.main []]) : Sync P .ret S S
  | exit (S) (h : S.stack .pusher = [.main []]) : Sync P .exit S (leave S)
  | wait (S) (v) (eop) (h : sinkPromise v S.log = .ok (some eop)) : Sync P (.wait v eop) S S
  | join (S) (c) (h : S.shared.joinable c = true → ∀ i, S.stack (.worker c i) = []) :
      Sync P (.join c) S S

end Pipeline

namespace Application

variable {α ι V T σ : Type*} [DecidableEq ι] [DecidableEq V]

omit [DecidableEq ι] [DecidableEq V] in
/-- A step of the application as such. -/
def Moves (A : Application α ι V T) (a a' : α) : Prop := ∃ x, A.Step x a a'

/-- A step of a thread.  The pushing thread runs the pipeline while it is in a push. -/
inductive Progress (A : Application α ι V T) (P : Pipeline ι V T σ) :
    α × State ι V T σ → α × State ι V T σ → Prop
  | act {a a' : α} {S S' : State ι V T σ} {x : Action ι V T} (hterm : S.shared.terminated = false)
      (h : A.Step x a a') (hS : P.Sync x S S') : Progress A P (a, S) (a', S')
  | thread {a : α} {S S' : State ι V T σ} {t : Thread ι} (h : P.step t S = some S')
      (hidle : S.stack t ≠ [.main []]) : Progress A P (a, S) (a, S')

omit [DecidableEq ι] [DecidableEq V] in
/-- A step of the outside world, or a timed-out attempt to enqueue. -/
inductive Idle (A : Application α ι V T) : α × State ι V T σ → α × State ι V T σ → Prop
  | outside {a a' : α} {S : State ι V T σ} (h : A.Outside a a') : Idle A (a, S) (a', S)
  | timeout {a : α} {S : State ι V T σ} (h : Pipeline.Waiting S) : Idle A (a, S) (a, S)

/-- An interleaving with `k` steps of threads that ends in `a` and `S`. -/
def RunsTo (A : Application α ι V T) (P : Pipeline ι V T σ) (priv : ι → σ) (k : ℕ) (a : α)
    (S : State ι V T σ) : Prop :=
  Runs (A.Progress P) A.Idle (A.init, Pipeline.init priv []) k (a, S)

end Application

/-! ### The pipeline, given the blocks pushed so far -/

namespace Frame

/-- Only the application has blocks to push. -/
theorem more_eq {ι T : Type*} {f : Frame ι T} (hf : ∀ todo, f ≠ .main todo)
    (bs : List (SharedDataBlock T)) : f.more bs = f := by
  cases f with
  | main todo => exact absurd rfl (hf todo)
  | _ => rfl

end Frame

namespace Pipeline

variable {ι V T σ : Type*} [DecidableEq ι] {P : Pipeline ι V T σ} {priv : ι → σ}
  {bs : List (SharedDataBlock T)} {S S' : State ι V T σ}

/-- The blocks that the application has pushed. -/
def blocks (P : Pipeline ι V T σ) (S : State ι V T σ) : List (SharedDataBlock T) :=
  inputsFrom P.entry .external S.log

/-- One more block was pushed. -/
@[simp] theorem blocks_pushEntry (sdb : SharedDataBlock T) :
    P.blocks (P.pushEntry sdb S) = P.blocks S ++ [sdb] := by
  simp [blocks, pushEntry, inputsFrom]

/-- Only the pushing thread runs the application. -/
theorem Reachable.eq_pusher (h : P.Reachable priv bs S) {t : Thread ι} {todo : List (SharedDataBlock T)}
    (hmain : .main todo ∈ S.stack t) : t = .pusher := by
  rcases (h.bottom t).call_or_eq hmain with hcall | ⟨hbot, -⟩
  · exact absurd hcall id
  · cases hbot
    rfl

/-- More blocks to push change nothing in the stacks of the workers. -/
theorem Reachable.map_more_worker (h : P.Reachable priv bs S) (bs' : List (SharedDataBlock T)) {c : ι}
    {i : ℕ} : (S.stack (.worker c i)).map (Frame.more bs') = S.stack (.worker c i) := by
  conv_rhs => rw [← List.map_id (S.stack (.worker c i))]
  refine List.map_congr_left fun f hf => Frame.more_eq (fun todo hmain => ?_) bs'
  subst hmain
  exact absurd (h.eq_pusher hf) (by simp)

/-- **A push that begins when the one before has returned** leads to a state that is
reached when one block more is to push. -/
theorem Reachable.pushEntry (h : P.Reachable priv bs S) (hterm : S.shared.terminated = false)
    (hidle : S.stack .pusher = [.main []]) (sdb : SharedDataBlock T) :
    P.Reachable priv (bs ++ [sdb]) (P.pushEntry sdb S) := by
  obtain ⟨S', hS', hshared, hlog, hstacks⟩ := h.more [sdb]
  have hpusher : S'.stack .pusher = [.main [sdb]] := by
    rcases hstacks .pusher with hs | ⟨-, hs⟩
    · rw [hs, hidle]
      rfl
    · exact absurd (hidle.symm.trans hs) (by simp)
  have hworker : ∀ c i, S'.stack (.worker c i) = S.stack (.worker c i) := fun c i => by
    rcases hstacks (.worker c i) with hs | ⟨ht, -⟩
    · rw [hs, h.map_more_worker]
    · exact absurd ht (by simp)
  have hstack : Function.update S'.stack .pusher [P.pushFrame P.entry sdb, .main []] =
      Function.update S.stack .pusher [P.pushFrame P.entry sdb, .main []] := by
    funext t
    cases t with
    | pusher => simp
    | worker c i => simp [hworker c i]
  have hstep : P.step .pusher S' = some (P.pushEntry sdb S) := by
    rw [step, hpusher]
    simp [hshared, hterm, exec, Pipeline.pushEntry, spawn, hstack, hlog]
  exact hS'.tail (.thread ⟨_, hstep⟩)

/-- A step of a thread begins no push if nothing is left to push. -/
theorem Reachable.blocks_step (h : P.Reachable priv (P.blocks S) S) {t : Thread ι}
    (hstep : P.step t S = some S') : P.blocks S' = P.blocks S := by
  have hpushed := Reachable.pushed (h.tail (.thread ⟨t, hstep⟩))
  obtain ⟨f, rest, e, -, -, -, rfl⟩ := step_cases hstep
  have hmore : P.blocks ⟨e.shared, spawn (Function.update S.stack t (e.frames ++ rest)) e.spawned,
      S.log ++ e.events⟩ = P.blocks S ++ inputsFrom P.entry .external e.events :=
    inputsFrom_append ..
  change P.blocks _ ++ _ = _ at hpushed
  rw [hmore, List.append_assoc] at hpushed
  rw [hmore, (List.append_eq_nil_iff.mp (List.append_right_eq_self.mp hpushed)).1, List.append_nil]

/-- The pushing thread may leave when its last push has returned. -/
theorem Reachable.leave (h : P.Reachable priv bs S) (hterm : S.shared.terminated = false)
    (hidle : S.stack .pusher = [.main []]) : P.Reachable priv bs (leave S) := by
  have hstep : P.step .pusher S = some (Pipeline.leave S) := by
    rw [step, hidle]
    simp [hterm, exec, spawn, Pipeline.leave]
  exact h.tail (.thread ⟨_, hstep⟩)

/-- The pushing thread stays on its stack until it leaves. -/
theorem Reachable.pusher_ne_nil (h : P.Reachable priv (P.blocks S) S) {t : Thread ι}
    (hstep : P.step t S = some S') (hidle : S.stack t ≠ [.main []]) (hs : S.stack .pusher ≠ []) :
    S'.stack .pusher ≠ [] := by
  obtain ⟨f, rest, e, hstack, -, hexec, rfl⟩ := step_cases hstep
  rcases stack_cases S.stack t (e.frames ++ rest) e.spawned .pusher with
    ⟨c, i, -, heq, -⟩ | ⟨rfl, hs'⟩ | ⟨-, hs'⟩
  · exact absurd heq (by simp)
  · have hbot := h.bottom .pusher
    rw [hstack] at hbot
    simp only [hs']
    by_cases hcall : f.Call
    · exact List.append_ne_nil_of_right_ne_nil _ (hbot.ne_nil hcall)
    · -- the application itself is on top, and has nothing to push
      obtain ⟨hmain, rfl⟩ := hbot.eq_nil hcall
      cases hmain with
      | main todo =>
          have hpushed := h.pushed
          rw [hstack, List.flatMap_singleton] at hpushed
          obtain rfl : todo = [] := List.append_right_eq_self.mp hpushed
          exact absurd hstack hidle
  · simpa only [hs'] using hs

/-- A thread that has left makes no step. -/
theorem pusher_eq_nil {t : Thread ι} (hstep : P.step t S = some S') (hs : S.stack .pusher = []) :
    S'.stack .pusher = [] := by
  obtain ⟨f, rest, e, hstack, -, -, rfl⟩ := step_cases hstep
  rcases stack_cases S.stack t (e.frames ++ rest) e.spawned .pusher with
    ⟨c, i, -, heq, -⟩ | ⟨rfl, -⟩ | ⟨-, hs'⟩
  · exact absurd heq (by simp)
  · exact absurd (hstack.symm.trans hs) (by simp)
  · simpa only [hs'] using hs

/-- What was logged stays. -/
theorem log_isPrefix_step {t : Thread ι} (hstep : P.step t S = some S') : S.log <+: S'.log :=
  log_isPrefix (.single ⟨t, hstep⟩)

/-- The worker of a buffer at the entry is joinable once the pushing thread has left. -/
theorem Reachable.joinable_entry (h : P.Reachable priv bs S)
    (hroot : ¬ Relation.TransGen P.Adj P.entry P.entry) (hs : S.stack .pusher = [])
    (hcreated : S.shared.created P.entry ≠ 0) : S.shared.joinable P.entry = true := by
  have hagrees := h.startProtocol P.entry [] (uniform_entry hroot) .entry
  rw [threadBelow_nil, hs] at hagrees
  exact hagrees.elim (fun hnone => absurd hnone.1 hcreated) fun hstarted => hstarted.2.1

/-! ### Where no thread of the pipeline can make a step -/

/-- A thread makes the step of the frame at the top of its stack. -/
theorem Exec.step_eq {t : Thread ι} {f : Frame ι T} {rest : List (Frame ι T)} {e : Effect ι V T σ}
    (h : Exec P S.shared f e) (hs : S.stack t = f :: rest) (hterm : S.shared.terminated = false) :
    P.step t S = some ⟨e.shared, spawn (Function.update S.stack t (e.frames ++ rest)) e.spawned,
      S.log ++ e.events⟩ := by
  rw [Pipeline.step, hs]
  simp [hterm, h.exec_eq]

/-- No thread can make a step, unless it is the pushing thread that is done. -/
def Halted (P : Pipeline ι V T σ) (S : State ι V T σ) : Prop :=
  ∀ t S', P.step t S = some S' → S.stack t = [.main []]

/-- **The pushing thread is not inside a push** where no thread can make a step, if the
stream can be completed. -/
theorem IsTree.pusher_of_halted [Finite ι] (hT : P.IsTree)
    (hcapacity : ∀ c maxBlocks, P.maxBlocks c = some maxBlocks → 1 ≤ maxBlocks)
    (hproto : ∀ n, ¬ P.IsBuffer n → KeepsProtocol (P.processData n))
    (h : P.Reachable priv (P.blocks S) S) {rest : List (SharedDataBlock T)}
    (hrest : Ended SharedDataBlock.isEndOfProcessing (P.blocks S ++ rest)) (hhalted : P.Halted S) :
    S.stack .pusher = [] ∨ S.stack .pusher = [.main []] := by
  by_contra hbusy
  rw [not_or] at hbusy
  obtain ⟨S', hS', hshared, -, hstacks⟩ := h.more rest
  have hmap : ∀ t, S'.stack t = (S.stack t).map (Frame.more rest) := fun t =>
    (hstacks t).resolve_right fun ⟨ht, hs⟩ => hbusy.1 (ht ▸ hs)
  have hstuck : P.Stuck S' := by
    rintro S'' ⟨t, ht⟩
    obtain ⟨f', fs', e, hs', hterm, hexec, -⟩ := step_cases ht
    obtain ⟨f, fs, hs, rfl, -⟩ := List.map_eq_cons_iff.mp ((hmap t).symm.trans hs')
    rw [hshared] at hterm hexec
    by_cases hmain : ∃ todo, f = .main todo
    · -- the pushing thread is between two pushes
      obtain ⟨todo, rfl⟩ := hmain
      obtain rfl := h.eq_pusher (hs ▸ List.mem_cons_self ..)
      have hbot := h.bottom .pusher
      rw [hs] at hbot
      obtain ⟨-, rfl⟩ := hbot.eq_nil id
      have hpushed := h.pushed
      rw [hs, List.flatMap_singleton] at hpushed
      obtain rfl : todo = [] := List.append_right_eq_self.mp hpushed
      exact hbusy.2 hs
    · -- with fewer blocks to push the frame does the same
      push Not at hmain
      rw [Frame.more_eq hmain] at hexec
      have hidle := hhalted t _ (hexec.step_eq hs hterm)
      exact hmain [] (List.cons.inj (hs.symm.trans hidle)).1
  have hdone := (hT.completed_of_stuck hcapacity hproto hrest hS' hstuck).pusher
  rw [hmap] at hdone
  exact hbusy.1 (List.map_eq_nil_iff.mp hdone)

/-- **Everything is completed** where no thread can make a step, if the stream is
complete, but for the pushing thread that may not have left the application. -/
theorem IsTree.completed_of_halted [Finite ι] (hT : P.IsTree)
    (hcapacity : ∀ c maxBlocks, P.maxBlocks c = some maxBlocks → 1 ≤ maxBlocks)
    (hproto : ∀ n, ¬ P.IsBuffer n → KeepsProtocol (P.processData n))
    (h : P.Reachable priv (P.blocks S) S)
    (hbs : Ended SharedDataBlock.isEndOfProcessing (P.blocks S)) (hhalted : P.Halted S) :
    P.Reachable priv (P.blocks S) (leave S) ∧ Completed P (leave S) := by
  have hS : P.Reachable priv (P.blocks S) (leave S) := by
    have hrest : Ended SharedDataBlock.isEndOfProcessing (P.blocks S ++ []) := by rwa [List.append_nil]
    rcases hT.pusher_of_halted hcapacity hproto h hrest hhalted with hs | hs
    · rw [leave, ← hs, Function.update_eq_self]
      exact h
    · exact h.leave (hT.not_terminated h) hs
  refine ⟨hS, hT.completed_of_stuck hcapacity hproto hbs hS ?_⟩
  rintro S' ⟨t, ht⟩
  obtain ⟨f, fs, e, hs, hterm, hexec, -⟩ := step_cases ht
  cases t with
  | pusher => exact absurd hs (by simp)
  | worker c i =>
      rw [leave_worker] at hs
      have hidle := hhalted _ _ (Exec.step_eq hexec hs hterm)
      exact absurd (h.eq_pusher (hidle ▸ List.mem_singleton_self _)) (by simp)

/-- Changing one stack. -/
theorem WorkLe.update [Fintype ι] {β : ι → ℕ} {N M : ℕ} (h : WorkLe P β S N) {t : Thread ι}
    {fs : List (Frame ι T)} (hfs : stackWork P β fs ≤ stackWork P β (S.stack t) + M)
    {log : List (Event ι V T)} :
    WorkLe P β { S with stack := Function.update S.stack t fs, log := log } (N + M) := by
  obtain ⟨ts, hempty, hle⟩ := h
  have hsum := sum_apply_update (insert t ts) (fun _ fs => stackWork P β fs) S.stack
    (Finset.mem_insert_self ..) fs
  have hinsert : ∑ u ∈ insert t ts, stackWork P β (S.stack u) = ∑ u ∈ ts, stackWork P β (S.stack u) :=
    Finset.sum_insert_of_eq_zero_if_notMem fun ht => by rw [hempty t ht, stackWork_nil]
  refine ⟨insert t ts, fun u hu => ?_, ?_⟩
  · rw [Finset.mem_insert, not_or] at hu
    simp only [Function.update_of_ne hu.1]
    exact hempty u hu.2
  · simp only
    omega

end Pipeline

namespace Application

variable {α ι V T σ : Type*} [DecidableEq ι] [DecidableEq V] {A : Application α ι V T}
  {P : Pipeline ι V T σ} {priv : ι → σ} {k : ℕ} {a a' : α} {S S' : State ι V T σ}

/-- **Invariants** of an application and the pipeline that it drives. -/
theorem RunsTo.induct {I : α → State ι V T σ → Prop} (init : I A.init (Pipeline.init priv []))
    (act : ∀ {k a a' S S' x}, A.RunsTo P priv k a S → A.RunsTo P priv (k + 1) a' S' → I a S →
      S.shared.terminated = false → A.Step x a a' → P.Sync x S S' → I a' S')
    (thread : ∀ {k a S S' t}, A.RunsTo P priv k a S → A.RunsTo P priv (k + 1) a S' → I a S →
      P.step t S = some S' → S.stack t ≠ [.main []] → I a S')
    (outside : ∀ {k a a' S}, A.RunsTo P priv k a S → I a S → A.Outside a a' → I a' S)
    (h : A.RunsTo P priv k a S) : I a S := by
  suffices hall : ∀ x, Runs (A.Progress P) A.Idle (A.init, Pipeline.init priv []) k x → I x.1 x.2 from
    hall _ h
  clear h
  intro x hx
  induction hx with
  | refl => exact init
  | progress hrun hstep ih =>
      cases hstep with
      | act hterm h hS => exact act hrun (.progress hrun (.act hterm h hS)) ih hterm h hS
      | thread h hidle => exact thread hrun (.progress hrun (.thread h hidle)) ih h hidle
  | idle hrun hidle ih =>
      cases hidle with
      | outside h => exact outside hrun ih h
      | timeout => exact ih

/-- The log of a pipeline only grows. -/
theorem log_isPrefix_sync {x : Action ι V T} (hS : P.Sync x S S') : S.log <+: S'.log := by
  cases hS with
  | call => exact List.prefix_append _ _
  | _ => exact List.prefix_rfl

/-- Only `exit` takes the pushing thread from its stack. -/
theorem pusher_sync {x : Action ι V T} (hS : P.Sync x S S') (hx : x ≠ .exit)
    (hs : S.stack .pusher ≠ []) : S'.stack .pusher ≠ [] := by
  cases hS with
  | call => simp [Pipeline.pushEntry]
  | exit => exact absurd rfl hx
  | _ => exact hs

/-- The application pushes the blocks of its calls. -/
theorem blocks_sync {x : Action ι V T} (hS : P.Sync x S S') : P.blocks S' = P.blocks S ++ x.blocks := by
  cases hS with
  | call _ sdb => exact Pipeline.blocks_pushEntry sdb
  | _ => exact (List.append_nil _).symm

/-- What a step of the application does keeps to the runs of the pipeline. -/
theorem reachable_sync {x : Action ι V T} (h : P.Reachable priv (P.blocks S) S)
    (hterm : S.shared.terminated = false) (hS : P.Sync x S S') :
    P.Reachable priv (P.blocks S') S' := by
  cases hS with
  | internal | ret | wait | join => exact h
  | call _ sdb hidle =>
      rw [Pipeline.blocks_pushEntry]
      exact h.pushEntry hterm hidle sdb
  | exit _ hidle => exact h.leave hterm hidle

/-- **The pipeline is in a state that it reaches when it is given the blocks pushed so
far.** -/
theorem RunsTo.reachable (h : A.RunsTo P priv k a S) : P.Reachable priv (P.blocks S) S := by
  refine h.induct (I := fun _ S => P.Reachable priv (P.blocks S) S) .refl
    (fun _ _ ih hterm _ hS => reachable_sync ih hterm hS) (fun _ _ ih hstep _ => ?_) fun _ ih _ => ih
  rw [ih.blocks_step hstep]
  exact ih.tail (.thread ⟨_, hstep⟩)

/-! ### What visitors see -/

/-- **Applications change nothing that a visitor sees.**  On a finite tree of processors
that keep the protocol and of buffers, with every visitor connected once, let `bs` end
with its one end-of-processing block.  However the application came to push them: as
long as what it has pushed is part of `bs`, every visitor has been shown a prefix of what
it is shown when `bs` is pushed into the pipeline without buffers, and all of it once all
of `bs` was pushed and every thread has returned. -/
theorem online_refines_synchronous [Finite ι] {ν : Type*} {s₀ : PushState ι V σ ν}
    {bs : List (SharedDataBlock T)} (A : Application α ι V T) (hT : P.IsTree)
    (hproto : ∀ n, ¬ P.IsBuffer n → KeepsProtocol (P.processData n))
    (hbs : Ended SharedDataBlock.isEndOfProcessing bs)
    (honce : ∀ v, ∃ n k, ConnectedOnce P.unbuffered v n k) (vis : V → StreamVisitor T ν)
    (hnoError : ∀ n, s₀.hadError n = false) (hunset : ∀ v, (s₀.visitor v).promise = none) :
    ∃ fuel r, pushSequence P.unbuffered vis fuel (bs.map fun b => (P.entry, b)) s₀ = some r ∧
      r.thrown = none ∧ ∀ k a S, A.RunsTo P s₀.priv k a S → P.blocks S <+: bs → ∀ v,
        seenBy v S.log <+: seenBy v r.events ∧
          (P.blocks S = bs → Pipeline.Finished S → seenBy v S.log = seenBy v r.events) := by
  rw [Pipeline.unbuffered_eq] at honce ⊢
  obtain ⟨fuel, r, hr, ht, hsync⟩ := hT.exists_sync_run hproto hbs honce vis hnoError hunset
  refine ⟨fuel, r, hr, ht, fun k a S h hpart v => ?_⟩
  obtain ⟨rest, hrest⟩ := hpart
  obtain ⟨n, j, hv⟩ := honce v
  obtain ⟨l, hl⟩ := hT.exists_streamAt s₀.priv bs n
  rw [hsync v n j l hv hl]
  obtain ⟨S', hS', -, hlog, -⟩ := h.reachable.more rest
  rw [hrest] at hS'
  refine ⟨hlog ▸ (hT.seenBy_isPrefix hproto hbs hS' hv hl).1, fun hall hfin => ?_⟩
  exact (hT.seenBy_isPrefix hproto hbs (hall ▸ h.reachable) hv hl).2 hfin

/-- An application that pushes blocks when it likes, until it has pushed them all. -/
def pushing (todo : List (SharedDataBlock T)) : Application (List (SharedDataBlock T)) ι V T where
  init := todo
  Step x a a' := a = x.blocks ++ a'
  Outside _ _ := False

/-- The tree of four, with a sink on every element. -/
theorem online_refines_synchronous_bufferedTree :
    ∃ fuel r, pushSequence Pipeline.bufferedTree.unbuffered (fun _ => .StreamSink) fuel
        ([⟨some 1, none⟩, ⟨some 2, none⟩, ⟨none, some {}⟩].map fun b => (.root, b))
        (⟨fun _ => 0, fun _ => false, fun _ => ⟨none, ()⟩⟩ : PushState TreeElement TreeElement ℕ Unit) =
          some r ∧
      r.thrown = none ∧ ∀ k a S,
        (pushing [⟨some 1, none⟩, ⟨some 2, none⟩, ⟨none, some {}⟩]).RunsTo Pipeline.bufferedTree
            (fun _ => 0) k a S →
          Pipeline.bufferedTree.blocks S <+: [⟨some 1, none⟩, ⟨some 2, none⟩, ⟨none, some {}⟩] →
            ∀ v, seenBy v S.log <+: seenBy v r.events ∧
              (Pipeline.bufferedTree.blocks S = [⟨some 1, none⟩, ⟨some 2, none⟩, ⟨none, some {}⟩] →
                Pipeline.Finished S → seenBy v S.log = seenBy v r.events) := by
  refine online_refines_synchronous _ Pipeline.isTree_bufferedTree
    (fun n _ => Pipeline.keepsProtocol_bufferedTree n)
    ⟨[⟨some 1, none⟩, ⟨some 2, none⟩], ⟨none, some {}⟩, rfl, by decide, rfl⟩
    (fun v => ⟨v, 0, rfl, fun n k h => ?_⟩) (fun _ => .StreamSink) (fun _ => rfl) (fun _ => rfl)
  rcases k with _ | k
  · exact ⟨Option.some.inj h, rfl⟩
  · exact absurd h (by simp [Pipeline.unbuffered, Pipeline.bufferedTree])

/-- Where nothing can make a step, no thread of the pipeline can. -/
theorem halted_of_stuck (h : ∀ x, ¬ A.Progress P (a, S) x) : P.Halted S := fun _ _ hstep =>
  by_contra fun hidle => h _ (.thread hstep hidle)

/-! ### Bounded runs -/

/-- A bound on the application and one on the pipeline make one on both. -/
theorem budget [Fintype ι] {β : ι → ℕ} (hβ : P.Weight β) {B : α → ℕ → Prop}
    (hB : Budget A.Moves A.Outside B) :
    Budget (A.Progress P) A.Idle fun x N =>
      ∃ m n, B x.1 m ∧ Pipeline.WorkLe P β x.2 n ∧ m * (β P.entry + 9) + n ≤ N where
  progress := by
    rintro x y N ⟨m, n, hm, hn, hle⟩ hstep
    cases hstep with
    | act hterm h hS =>
        obtain ⟨m', hlt, hm'⟩ := hB.progress hm ⟨_, h⟩
        have hmul : m' * (β P.entry + 9) + (β P.entry + 9) ≤ m * (β P.entry + 9) := by
          rw [← Nat.succ_mul]
          exact Nat.mul_le_mul_right _ hlt
        cases hS with
        | internal | ret | wait | join => exact ⟨_, by omega, m', n, hm', hn, le_rfl⟩
        | call _ sdb hidle =>
            have hpush := Pipeline.work_pushFrame_le P β P.entry sdb
            refine ⟨m' * (β P.entry + 9) + (n + (β P.entry + 8)), by omega, m', _, hm',
              hn.update ?_, le_rfl⟩
            simp only [hidle, stackWork_cons, stackWork_nil]
            omega
        | exit _ hidle =>
            exact ⟨m' * (β P.entry + 9) + (n + 0), by omega, m', _, hm', hn.update (Nat.zero_le _),
              le_rfl⟩
    | thread h hidle =>
        obtain ⟨n', hlt, hn'⟩ := Pipeline.Progress.workLe hβ ⟨_, h⟩ hn
        exact ⟨_, by omega, m, n', hm, hn', le_rfl⟩
  idle := by
    rintro x y N ⟨m, n, hm, hn, hle⟩ hidle
    cases hidle with
    | outside h => exact ⟨m, n, hB.idle hm h, hn, hle⟩
    | timeout => exact ⟨m, n, hm, hn, hle⟩

/-- **An application with a budget has one together with an acyclic pipeline.** -/
theorem exists_budget [Finite ι] (hac : DirectedGraph.Acyclic P.Adj) {B : α → ℕ → Prop}
    (hB : Budget A.Moves A.Outside B) {m : ℕ} (hm : B A.init m) (priv : ι → σ) :
    ∃ B' N, Budget (A.Progress P) A.Idle B' ∧ B' (A.init, Pipeline.init priv []) N := by
  cases nonempty_fintype ι
  obtain ⟨β, hβ⟩ := P.exists_weight hac
  obtain ⟨n, hn⟩ := Pipeline.workLe_init P β priv []
  exact ⟨_, _, budget hβ hB, m, n, hm, hn, le_rfl⟩

/-- **Runs are bounded** if those of the application are, short of what the outside world
does and of timed-out attempts. -/
theorem exists_bound [Finite ι] (hac : DirectedGraph.Acyclic P.Adj) {B : α → ℕ → Prop}
    (hB : Budget A.Moves A.Outside B) {m : ℕ} (hm : B A.init m) (priv : ι → σ) :
    ∃ N, ∀ k a S, A.RunsTo P priv k a S → k ≤ N := by
  obtain ⟨B', N, hB', hN⟩ := exists_budget hac hB hm priv
  exact ⟨N, fun k a S h => h.le_budget hB' hN⟩

/-- **What cannot stop short of a goal reaches it.** -/
theorem RunsTo.exists_goal [Finite ι] (hac : DirectedGraph.Acyclic P.Adj) {B : α → ℕ → Prop}
    (hB : Budget A.Moves A.Outside B) {m : ℕ} (hm : B A.init m) {Q : α → State ι V T σ → Prop}
    (hQ : ∀ {k a S}, A.RunsTo P priv k a S → ¬ Q a S → ∃ x, A.Progress P (a, S) x)
    (h : A.RunsTo P priv k a S) :
    ∃ k' a' S', Relation.ReflTransGen (A.Progress P) (a, S) (a', S') ∧ A.RunsTo P priv k' a' S' ∧
      Q a' S' := by
  obtain ⟨B', N, hB', hN⟩ := exists_budget hac hB hm priv
  obtain ⟨N', -, hN'⟩ := Runs.budget hB' h hN
  obtain ⟨⟨a', S'⟩, hsteps, ⟨k', hrun⟩, hgoal⟩ := exists_reachable hB'
    (I := fun x => ∃ k, A.RunsTo P priv k x.1 x.2) (Q := fun x => Q x.1 x.2)
    (fun x hx hnot => by
      obtain ⟨k, hx⟩ := hx
      obtain ⟨y, hy⟩ := hQ hx hnot
      exact ⟨y, hy, k + 1, .progress hx hy⟩) hN' ⟨k, h⟩
  exact ⟨k', a', S', hsteps, hrun, hgoal⟩

end Application
end CppDataStream
