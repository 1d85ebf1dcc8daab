/-
# Applications that drive a pipeline over circular buffers

`Threaded.Application` over `Threaded.Queued`: the pushing thread and the workers run the
operations of the circular buffers step by step, interleaved with everything that the
threads of the application and the outside world do.

An application does here what it does over queues, and all of it
(`Application.queued_equivalent`).  A state that is reached stands for one that is reached
there, with the same state of the application (`Application.QueuedRunsTo.stands`); and
what the threads can do from there on, they can do here in some steps
(`Application.exists_queued_run`).  So what is shown of an application over queues holds
over circular buffers too.
-/

import CppDataStream.Threaded.QueuedProgress
import CppDataStream.Threaded.Application

namespace CppDataStream

open Transitions

namespace Pipeline

variable {ι V T σ : Type*} [DecidableEq ι]

/-- The pushing thread has called `pushData(sdb)` of the entry. -/
def queuedPushEntry (P : Pipeline ι V T σ) (sdb : SharedDataBlock T) (F : QueuedState ι V T σ) :
    QueuedState ι V T σ :=
  { F with
    stack := Function.update F.stack .pusher [P.pushFrame P.entry sdb, .main []]
    log := F.log ++ [.call .external P.entry sdb] }

/-- The pushing thread has left the application. -/
def queuedLeave (F : QueuedState ι V T σ) : QueuedState ι V T σ :=
  { F with stack := Function.update F.stack .pusher [] }

/-- What the pipeline does in a step of the application. -/
inductive QueuedSync [DecidableEq V] (P : Pipeline ι V T σ) :
    Action ι V T → QueuedState ι V T σ → QueuedState ι V T σ → Prop
  | internal (F) : QueuedSync P .internal F F
  | call (F) (sdb) (h : F.stack .pusher = [.main []]) :
      QueuedSync P (.call sdb) F (P.queuedPushEntry sdb F)
  | ret (F) (h : F.stack .pusher = [.main []]) : QueuedSync P .ret F F
  | exit (F) (h : F.stack .pusher = [.main []]) : QueuedSync P .exit F (queuedLeave F)
  | wait (F) (v) (eop) (h : sinkPromise v F.log = .ok (some eop)) : QueuedSync P (.wait v eop) F F
  | join (F) (c) (h : F.shared.joinable c = true → ∀ i, F.stack (.worker c i) = []) :
      QueuedSync P (.join c) F F

/-! ### What the application can tell of the pipeline -/

variable {P : Pipeline ι V T σ} {owner : ι → Thread ι} {F F' : QueuedState ι V T σ}
  {S S' : State ι V T σ} {t : Thread ι}

/-- A thread at the top level is there on both sides. -/
theorem Stands.eq_main (h : P.Stands owner F S) (hs : F.stack t = [.main []]) :
    F.point t = .outside ∧ S.stack t = [.main []] := by
  have hstands := h.stack t
  rw [hs] at hstands
  exact hstands.eq_of_top id

/-- A thread has returned on both sides or on neither. -/
theorem Stands.eq_nil_iff (h : P.Stands owner F S) : F.stack t = [] ↔ S.stack t = [] := by
  refine ⟨fun hs => ?_, fun hs => ?_⟩
  · exact ((h.stack t).of_nil (Or.inl hs)).2.trans hs
  · exact ((h.stack t).of_nil (Or.inr hs)).2.symm.trans hs

/-- The same workers are joinable on both sides. -/
theorem Stands.joinable_eq (h : P.Stands owner F S) : S.shared.joinable = F.shared.joinable := by
  rw [h.shared]

/-- The elements have the same members. -/
theorem Stands.priv_eq (h : P.Stands owner F S) : S.shared.priv = F.shared.priv := by
  rw [h.shared]

/-- The visitors have seen the same. -/
theorem Stands.seenBy_eq [DecidableEq V] (h : P.Stands owner F S) (v : V) :
    seenBy v F.log = seenBy v S.log := by
  rw [h.log, seenBy_filter]

/-- The sinks hold the same. -/
theorem Stands.sinkPromise_eq [DecidableEq V] (h : P.Stands owner F S) (v : V) :
    sinkPromise v F.log = sinkPromise v S.log := by
  rw [sinkPromise, h.seenBy_eq, ← sinkPromise]

/-- The same blocks were pushed. -/
theorem Stands.blocks_eq (h : P.Stands owner F S) : P.blocks F.toState = P.blocks S := by
  rw [blocks, blocks, QueuedState.toState, h.log, inputsFrom, inputsFrom, List.filterMap_filter]
  refine List.filterMap_congr fun e _ => ?_
  cases e <;> rfl

/-- What a thread does outside the queues. -/
theorem Stands.update_stack (h : P.Stands owner F S) (hp : F.point t = .outside) (fs : List (Frame ι T))
    {evs : List (Event ι V T)} (hevs : ∀ e ∈ evs, e.ofQueue = false) :
    P.Stands owner { F with stack := Function.update F.stack t fs, log := F.log ++ evs }
      { S with stack := Function.update S.stack t fs, log := S.log ++ evs } where
  shared := h.shared
  log := by
    rw [List.filter_append, ← h.log, List.filter_eq_self.mpr fun e he => by simp [hevs e he]]
  stack u := by
    by_cases hu : u = t
    · subst hu
      simpa [hp] using StackStands.outside fs
    · simpa [hu] using h.stack u
  live := h.live
  buffer := h.buffer

/-- To call `pushData` is the same on both sides. -/
theorem Stands.pushEntry (h : P.Stands owner F S) (hp : F.point .pusher = .outside)
    (sdb : SharedDataBlock T) : P.Stands owner (P.queuedPushEntry sdb F) (P.pushEntry sdb S) :=
  h.update_stack hp _ (by simp [Event.ofQueue])

/-- So it is to leave. -/
theorem Stands.leave (h : P.Stands owner F S) (hp : F.point .pusher = .outside) :
    P.Stands owner (queuedLeave F) (leave S) := by
  simpa only [queuedLeave, Pipeline.leave, List.append_nil] using
    h.update_stack hp [] (List.forall_mem_nil _)

variable [DecidableEq V]

/-- **What an application does over circular buffers it does over queues.** -/
theorem Stands.sync (h : P.Stands owner F S) {x : Action ι V T} (hF : P.QueuedSync x F F') :
    ∃ S', P.Sync x S S' ∧ P.Stands owner F' S' := by
  cases hF with
  | internal => exact ⟨S, .internal S, h⟩
  | call _ sdb hs =>
      obtain ⟨hp, hs'⟩ := h.eq_main hs
      exact ⟨_, .call S sdb hs', h.pushEntry hp sdb⟩
  | ret _ hs => exact ⟨S, .ret S (h.eq_main hs).2, h⟩
  | exit _ hs =>
      obtain ⟨hp, hs'⟩ := h.eq_main hs
      exact ⟨_, .exit S hs', h.leave hp⟩
  | wait _ v eop hset => exact ⟨S, .wait S v eop (h.sinkPromise_eq v ▸ hset), h⟩
  | join _ c hjoin =>
      exact ⟨S, .join S c fun hc i => h.eq_nil_iff.mp (hjoin (h.joinable_eq ▸ hc) i), h⟩

/-- The converse, once the last push has returned here too. -/
theorem Stands.lift_sync (h : P.Stands owner F S) (ht : (F.point .pusher).trailing = 0)
    {x : Action ι V T} (hS : P.Sync x S S') : ∃ F', P.QueuedSync x F F' ∧ P.Stands owner F' S' := by
  have hmain (hs : S.stack .pusher = [.main []]) : F.stack .pusher = [.main []] :=
    (h.stack_eq ht).symm.trans hs
  cases hS with
  | internal => exact ⟨F, .internal F, h⟩
  | call _ sdb hs => exact ⟨_, .call F sdb (hmain hs), h.pushEntry (h.eq_main (hmain hs)).1 sdb⟩
  | ret _ hs => exact ⟨F, .ret F (hmain hs), h⟩
  | exit _ hs => exact ⟨_, .exit F (hmain hs), h.leave (h.eq_main (hmain hs)).1⟩
  | wait _ v eop hset => exact ⟨F, .wait F v eop ((h.sinkPromise_eq v).trans hset), h⟩
  | join _ c hjoin =>
      exact ⟨F, .join F c fun hc i => h.eq_nil_iff.mpr (hjoin (h.joinable_eq.symm ▸ hc) i), h⟩

omit [DecidableEq V] in
/-- A thread that has left makes no step. -/
theorem queued_pusher_eq_nil {granted : Bool} (hstep : P.QueuedStep t granted F F')
    (hs : F.stack .pusher = []) : F'.stack .pusher = [] := by
  have hne {f : Frame ι T} {rest : List (Frame ι T)} (h : F.stack t = f :: rest) : .pusher ≠ t := by
    rintro rfl
    exact absurd (hs.symm.trans h) (by simp)
  cases hstep with
  | callEnqueue | enqueue | callDequeue | dequeue => exact hs
  | enqueued h | dequeued h => exact (Function.update_of_ne (hne h) _ _).trans hs
  | exec h hf he =>
      rename_i e
      rcases stack_cases F.stack t (e.frames ++ _) e.spawned .pusher with
        ⟨c, i, -, heq, -⟩ | ⟨heq, -⟩ | ⟨-, hs'⟩
      · exact absurd heq (by simp)
      · exact absurd heq (hne h)
      · exact hs'.trans hs

omit [DecidableEq V] in
/-- With nothing to push, the pushing thread leaves. -/
theorem queued_leave {granted : Bool} (hstep : P.QueuedStep t granted F F') (hp : F.point t = .outside)
    (hs : F.stack t = [.main []]) : F'.stack t = [] := by
  cases hstep with
  | callEnqueue h | enqueued h | callDequeue h | dequeued h => exact absurd (hs.symm.trans h) (by simp)
  | enqueue h | dequeue h => exact absurd (hp.symm.trans h) (by simp)
  | exec h hf he =>
      obtain ⟨rfl, rfl⟩ := List.cons.inj (h.symm.trans hs)
      obtain rfl := Option.some.inj he
      simp [spawn]

end Pipeline

namespace Application

variable {α ι V T σ : Type*} [DecidableEq ι] [DecidableEq V]

/-- A step of a thread of the application or of the pipeline. -/
inductive QueuedProgress (A : Application α ι V T) (P : Pipeline ι V T σ) :
    α × QueuedState ι V T σ → α × QueuedState ι V T σ → Prop
  | act {a a' : α} {F F' : QueuedState ι V T σ} {x : Action ι V T} (hterm : F.shared.terminated = false)
      (h : A.Step x a a') (hF : P.QueuedSync x F F') : QueuedProgress A P (a, F) (a', F')
  | thread {a : α} {F F' : QueuedState ι V T σ} {t : Thread ι} {granted : Bool}
      (hterm : F.shared.terminated = false) (h : P.QueuedStep t granted F F')
      (hidle : F.stack t ≠ [.main []]) : QueuedProgress A P (a, F) (a, F')

omit [DecidableEq ι] [DecidableEq V] in
/-- A step of the outside world. -/
inductive QueuedIdle (A : Application α ι V T) :
    α × QueuedState ι V T σ → α × QueuedState ι V T σ → Prop
  | outside {a a' : α} {F : QueuedState ι V T σ} (h : A.Outside a a') : QueuedIdle A (a, F) (a', F)

/-- An interleaving with `k` steps of threads that ends in `a` and `F`. -/
def QueuedRunsTo (A : Application α ι V T) (P : Pipeline ι V T σ) (priv : ι → σ) (k : ℕ) (a : α)
    (F : QueuedState ι V T σ) : Prop :=
  Runs (A.QueuedProgress P) A.QueuedIdle (A.init, P.queuedInit priv []) k (a, F)

/-- A run can be continued by steps of threads. -/
theorem QueuedRunsTo.trans {A : Application α ι V T} {P : Pipeline ι V T σ} {priv : ι → σ} {k : ℕ}
    {a a' : α} {F F' : QueuedState ι V T σ} (h : A.QueuedRunsTo P priv k a F)
    (hsteps : Relation.ReflTransGen (A.QueuedProgress P) (a, F) (a', F')) :
    ∃ k', A.QueuedRunsTo P priv k' a' F' :=
  Runs.trans h hsteps

/-- What an application and a pipeline over circular buffers stand for: the same
application, and a pipeline over queues that is reached with it. -/
structure StandsFor (A : Application α ι V T) (P : Pipeline ι V T σ) (owner : ι → Thread ι)
    (priv : ι → σ) (x : α × QueuedState ι V T σ) (y : α × State ι V T σ) : Prop where
  app : x.1 = y.1
  stands : P.Stands owner x.2 y.2
  reached : ∃ k, A.RunsTo P priv k y.1 y.2

variable {A : Application α ι V T} {P : Pipeline ι V T σ} {owner : ι → Thread ι} {priv : ι → σ} {k : ℕ}
  {a a' : α} {F F' : QueuedState ι V T σ} {S S' : State ι V T σ}

/-- At first the queues are empty. -/
theorem standsFor_init (hcap : ∀ c m, P.maxBlocks c = some m → m < 2 ^ 63) (owner : ι → Thread ι)
    (priv : ι → σ) :
    StandsFor A P owner priv (A.init, P.queuedInit priv []) (A.init, Pipeline.init priv []) :=
  ⟨rfl, Pipeline.stands_init hcap owner priv [], 0, .refl⟩

section Simulation

variable (hspsc : ∀ bs S, P.Reachable priv bs S → P.Spsc owner S)

include hspsc

/-- Every queue has one producer and one consumer, whatever is pushed. -/
theorem StandsFor.spsc {x : α × QueuedState ι V T σ} {y : α × State ι V T σ}
    (h : StandsFor A P owner priv x y) : P.Spsc owner y.2 := by
  obtain ⟨k, hrun⟩ := h.reached
  exact hspsc _ _ hrun.reachable

/-- **Every step of a thread is one over queues, or nothing there.** -/
theorem refines_progress :
    Refines (A.QueuedProgress P) (A.Progress P) (StandsFor A P owner priv) := by
  rintro ⟨a, F⟩ ⟨a', F'⟩ ⟨b, S⟩ hR hstep
  have hS := hR.spsc hspsc
  obtain ⟨heq, hF, k, hrun⟩ := hR
  obtain rfl : a = b := heq
  cases hstep with
  | act hterm h hsync =>
      obtain ⟨S', hS', hF'⟩ := hF.sync hsync
      have hprogress : A.Progress P (a, S) (a', S') := .act (hF.terminated_eq.trans hterm) h hS'
      exact Or.inr ⟨(a', S'), hprogress, rfl, hF', k + 1, hrun.progress hprogress⟩
  | thread hterm h hidle =>
      rcases hF.step_thread hS (hF.terminated_eq.trans hterm) h with hF' | ⟨S', hS', hsame, hF'⟩
      · exact Or.inl ⟨rfl, hF', k, hrun⟩
      · have hprogress : A.Progress P (a, S) (a, S') := .thread hS' (hsame ▸ hidle)
        exact Or.inr ⟨(a, S'), hprogress, rfl, hF', k + 1, hrun.progress hprogress⟩

omit hspsc in
/-- The outside world does the same to both. -/
theorem refines_idle : Refines (A.QueuedIdle (σ := σ)) A.Idle (StandsFor A P owner priv) := by
  rintro ⟨a, F⟩ ⟨a', F'⟩ ⟨b, S⟩ ⟨heq, hF, k, hrun⟩ hstep
  obtain rfl : a = b := heq
  cases hstep with
  | outside h => exact Or.inr ⟨(a', S), .outside h, rfl, hF, k, hrun.idle (.outside h)⟩

/-- **Every run stands for one over queues**, with as many steps at most. -/
theorem QueuedRunsTo.stands (hcap : ∀ c m, P.maxBlocks c = some m → m < 2 ^ 63)
    (h : A.QueuedRunsTo P priv k a F) :
    ∃ k' ≤ k, ∃ S, A.RunsTo P priv k' a S ∧ P.Stands owner F S := by
  obtain ⟨k', hle, ⟨b, S⟩, hrun, heq, hF, -⟩ :=
    (refines_progress hspsc).runs refines_idle (standsFor_init hcap owner priv) h
  obtain rfl : a = b := heq
  exact ⟨k', hle, S, hrun, hF⟩

/-! ### The converse -/

/-- Steps of the pipeline alone are steps of the whole, if the pushing thread has not left
in them. -/
theorem exists_pipeline_run {y : α × State ι V T σ} (hR : StandsFor A P owner priv (a, F) y)
    (hsteps : Relation.ReflTransGen P.QueuedProgress F F')
    (hs : F'.stack .pusher = [] → F.stack .pusher = []) :
    Relation.ReflTransGen (A.QueuedProgress P) (a, F) (a, F') := by
  induction hsteps using Relation.ReflTransGen.head_induction_on generalizing y with
  | refl => exact .refl
  | @head F F₁ hstep hsteps ih =>
      obtain ⟨hterm, t, granted, hstep⟩ := hstep
      have hkeep : ∀ F₂, Relation.ReflTransGen P.QueuedProgress F₁ F₂ → F₁.stack .pusher = [] →
          F₂.stack .pusher = [] := fun F₂ h hnil => by
        induction h with
        | refl => exact hnil
        | tail _ h ih =>
            obtain ⟨-, t, granted, h⟩ := h
            exact Pipeline.queued_pusher_eq_nil h ih
      have hidle : F.stack t ≠ [.main []] := fun hmain => by
        -- only the pushing thread has left on its own
        obtain ⟨hp, hmain'⟩ := hR.stands.eq_main hmain
        obtain ⟨k, hrun⟩ := hR.reached
        obtain rfl := hrun.reachable.eq_pusher (hmain' ▸ List.mem_singleton_self _)
        have hnil := hs (hkeep F' hsteps (Pipeline.queued_leave hstep hp hmain))
        exact absurd (hnil.symm.trans hmain) (by simp)
      have hprogress : A.QueuedProgress P (a, F) (a, F₁) := .thread hterm hstep hidle
      have hs₁ : F'.stack .pusher = [] → F₁.stack .pusher = [] := fun hnil =>
        Pipeline.queued_pusher_eq_nil hstep (hs hnil)
      rcases refines_progress hspsc _ _ _ hR hprogress with hR₁ | ⟨y', -, hR₁⟩
      · exact (ih hR₁ hs₁).head hprogress
      · exact (ih hR₁ hs₁).head hprogress

/-- **Every step over queues is some steps over circular buffers.** -/
theorem lift_progress {x : α × QueuedState ι V T σ} {y y' : α × State ι V T σ}
    (hR : StandsFor A P owner priv x y) (hstep : A.Progress P y y') :
    ∃ x', Relation.ReflTransGen (A.QueuedProgress P) x x' ∧ StandsFor A P owner priv x' y' := by
  have hS := hR.spsc hspsc
  obtain ⟨a, F⟩ := x
  obtain ⟨heq, hF, k, hrun⟩ := id hR
  cases hstep with
  | @act b b' S S' z hterm h hsync =>
      obtain rfl : a = b := heq
      -- the last push returns here too
      obtain ⟨F₁, hsteps, hF₁, ht, -⟩ := hF.settle hS hterm .pusher
      have hrun₁ := exists_pipeline_run hspsc hR hsteps fun hnil =>
        hF.eq_nil_iff.mpr (hF₁.eq_nil_iff.mp hnil)
      obtain ⟨F₂, hsync₂, hF₂⟩ := hF₁.lift_sync ht hsync
      have hterm₁ : F₁.shared.terminated = false := hF₁.terminated_eq ▸ hterm
      exact ⟨(b', F₂), hrun₁.tail (.act hterm₁ h hsync₂), rfl, hF₂, k + 1,
        hrun.progress (.act hterm h hsync)⟩
  | @thread b S S' t h hidle =>
      obtain rfl : a = b := heq
      obtain ⟨F₁, hsteps, hF₁⟩ := hF.lift hS ⟨t, h⟩
      have hrun₁ := exists_pipeline_run hspsc hR hsteps fun hnil => by
        by_contra hne
        have hne' : S.stack .pusher ≠ [] := fun hs => hne (hF.eq_nil_iff.mpr hs)
        exact hrun.reachable.pusher_ne_nil h hidle hne' (hF₁.eq_nil_iff.mp hnil)
      exact ⟨(a, F₁), hrun₁, rfl, hF₁, k + 1, hrun.progress (.thread h hidle)⟩

/-- **Every run over queues is one over circular buffers.** -/
theorem exists_queued_run (hF : P.Stands owner F S) (hrun : A.RunsTo P priv k a S)
    (hsteps : Relation.ReflTransGen (A.Progress P) (a, S) (a', S')) :
    ∃ F', Relation.ReflTransGen (A.QueuedProgress P) (a, F) (a', F') ∧ P.Stands owner F' S' := by
  have hlift : ∀ (x : α × QueuedState ι V T σ) (y y' : α × State ι V T σ),
      StandsFor A P owner priv x y → A.Progress P y y' →
        ∃ x', Relation.ReflTransGen (A.QueuedProgress P) x x' ∧ StandsFor A P owner priv x' y' :=
    fun _ _ _ hR hstep => lift_progress hspsc hR hstep
  have hR : StandsFor A P owner priv (a, F) (a, S) := ⟨rfl, hF, k, hrun⟩
  obtain ⟨⟨b, F'⟩, hrun', heq, hF', -⟩ := exists_run_of_lifts hlift hR hsteps
  obtain rfl : b = a' := heq
  exact ⟨F', hrun', hF'⟩

end Simulation

/-- **Over circular buffers an application does what it does over queues, and all of it.**
If all paths to a buffer lead through the same buffers, every state that is reached, in
every interleaving of the steps in and outside the queue operations with those of the
application and the outside world, stands for one that is reached over queues with the
same state of the application; and whatever the threads can do from there on, they can do
over the circular buffers. -/
theorem queued_equivalent (A : Application α ι V T) (hcap : ∀ c m, P.maxBlocks c = some m → m < 2 ^ 63)
    (huni : ∀ c, P.IsBuffer c → P.Uniform c) (priv : ι → σ) :
    ∃ owner, ∀ k a F, A.QueuedRunsTo P priv k a F → ∃ k' ≤ k, ∃ S, A.RunsTo P priv k' a S ∧
      P.Stands owner F S ∧ ∀ a' S', Relation.ReflTransGen (A.Progress P) (a, S) (a', S') →
        ∃ F', Relation.ReflTransGen (A.QueuedProgress P) (a, F) (a', F') ∧ P.Stands owner F' S' := by
  obtain ⟨owner, hspsc⟩ := Pipeline.exists_spsc huni priv
  refine ⟨owner, fun k a F h => ?_⟩
  obtain ⟨k', hle, S, hrun, hF⟩ := h.stands hspsc hcap
  exact ⟨k', hle, S, hrun, hF, fun a' S' hsteps => exists_queued_run hspsc hF hrun hsteps⟩

/-- The tree of four, and an application that pushes two blocks. -/
theorem queued_equivalent_bufferedTree :
    let A : Application (List (SharedDataBlock ℕ)) TreeElement TreeElement ℕ :=
      pushing [⟨some 1, none⟩, ⟨none, some {}⟩]
    ∃ owner, ∀ k a F, A.QueuedRunsTo Pipeline.bufferedTree (fun _ => 0) k a F →
      ∃ k' ≤ k, ∃ S, A.RunsTo Pipeline.bufferedTree (fun _ => 0) k' a S ∧
        Pipeline.bufferedTree.Stands owner F S ∧ ∀ a' S',
          Relation.ReflTransGen (A.Progress Pipeline.bufferedTree) (a, S) (a', S') →
            ∃ F', Relation.ReflTransGen (A.QueuedProgress Pipeline.bufferedTree) (a, F) (a', F') ∧
              Pipeline.bufferedTree.Stands owner F' S' :=
  queued_equivalent _ (fun c m hm => (Pipeline.maxBlocks_bufferedTree c m hm).2)
    (fun c _ => Pipeline.isTree_bufferedTree.uniform c) _

end Application
end CppDataStream
