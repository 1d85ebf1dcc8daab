/-
# Pipelines over circular buffers complete

The converse of `Stands.step`: what a pipeline of `Threaded.Machine` can do, one over
circular buffers can do in some steps (`Stands.lift`).  A thread first leaves an
operation that is past its point (`Stands.settle`), and so does the thread at the other
end of the queue, which may owe it a signal.  Then the step of a queue is some steps of
an operation, each of which but the last brings it nearer to its point
(`Moodycamel.Inv.exists_stepEnqueue`, `Moodycamel.Inv.exists_stepTake`).

So on a tree every run can be continued until every thread has returned, and then no
block is left in a buffer (`QueuedReachable.completes`); and visitors see what they see
without buffers (`queued_refines_synchronous`).
-/

import CppDataStream.Threaded.QueuedSimulation
import CppDataStream.Threaded.Refinement
import CppDataStream.Threaded.Deadlock
import CppDataStream.Moodycamel.Progress

namespace CppDataStream

open Moodycamel Linearizability BoundedQueue Transitions Streams

namespace QueuePoint

variable {ι T : Type*}

/-- The steps to the return of an operation past its point. -/
def trailing : QueuePoint ι T → ℕ
  | .outside => 0
  | .enqueue _ _ p => p.trailing enqueueMode
  | .dequeue _ p => p.trailing dequeueMode.mode

/-- How far an operation is from its point. -/
def leading : QueuePoint ι T → ℕ
  | .outside => 8
  | .enqueue _ _ p => p.leading
  | .dequeue _ p => p.leading

variable [DecidableEq ι]

/-- A thread that is not past the point of an operation owes no signal. -/
theorem sig_producer_ne {x : QueuePoint ι T} (h : x.trailing = 0) (c : ι) :
    (x.producer c).sig ≠ .semaSignal := by
  cases x with
  | outside | dequeue => simp [QueuePoint.producer, Producer.sig]
  | enqueue c' sdb p =>
      rw [QueuePoint.producer]
      split_ifs
      · cases p with
        | signal g =>
            obtain rfl := SignalPoint.trailing_eq_zero.mp h
            simp
        | acquire | construct | returning => simp
      · simp [Producer.sig]

/-- It owes none as a consumer either. -/
theorem sig_consumer_ne {x : QueuePoint ι T} (h : x.trailing = 0) (c : ι) :
    (x.consumer c).sig ≠ .semaSignal := by
  cases x with
  | outside | enqueue => simp [QueuePoint.consumer, Consumer.sig]
  | dequeue c' p =>
      rw [QueuePoint.consumer]
      split_ifs
      · cases p with
        | signal r g =>
            obtain rfl := SignalPoint.trailing_eq_zero.mp h
            simp
        | acquire | take | destroy | returning => simp
      · simp [Consumer.sig]

end QueuePoint

namespace Pipeline

variable {ι V T σ : Type*} [DecidableEq ι] {P : Pipeline ι V T σ} {owner : ι → Thread ι}
  {F F' : QueuedState ι V T σ} {S S' : State ι V T σ} {t : Thread ι} {c : ι}

/-! ### Past the point -/

/-- Where no operation is past its point, the stacks are the same. -/
theorem Stands.stack_eq (h : P.Stands owner F S) (ht : (F.point t).trailing = 0) :
    S.stack t = F.stack t := by
  have hs := h.stack t
  generalize F.point t = x at hs ht
  generalize F.stack t = fs at hs
  generalize S.stack t = fs' at hs
  cases hs with
  | outside | enqueuing | dequeuing => rfl
  | enqueued _ hjoined =>
      exact absurd ((EnqueuePoint.trailing_eq_zero.mp ht).symm.trans hjoined) (by simp)
  | dequeued _ hvalue =>
      exact absurd ((TakePoint.trailing_eq_zero.mp ht).symm.trans hvalue) (by simp)

/-- A step of an operation past its point. -/
theorem Stands.exists_trailing (h : P.Stands owner F S) (hS : P.Spsc owner S)
    (hterm : S.shared.terminated = false) (ht : (F.point t).trailing ≠ 0) :
    ∃ F', P.QueuedProgress F F' ∧ P.Stands owner F' S ∧
      (F'.point t).trailing < (F.point t).trailing ∧ ∀ u, u ≠ t → F'.point u = F.point u := by
  have hF : F.shared.terminated = false := h.terminated_eq ▸ hterm
  have hs := h.stack t
  cases hp : F.point t with
  | outside => exact absurd (hp ▸ ht) fun h => h rfl
  | enqueue c sdb p =>
      rw [hp] at hs ht
      obtain ⟨-, rest, hfs, -⟩ := hs.of_enqueue
      rcases exists_stepEnqueue_of_trailing sdb (F.buffer c) ht with ⟨r, rfl⟩ | ⟨b', p', hstep, hlt⟩
      · refine ⟨_, ⟨hF, t, true, .enqueued hfs hp⟩, h.enqueued hS hfs hp, ?_,
          fun u hu => Function.update_of_ne hu _ _⟩
        simp only [Function.update_self]
        exact Nat.zero_lt_one
      · have hstands := (h.enqueue hS hterm hp hstep).resolve_right fun ⟨_, _, hnone, _⟩ =>
          ht (EnqueuePoint.trailing_eq_zero.mpr hnone)
        refine ⟨_, ⟨hF, t, true, .enqueue hp hstep⟩, hstands, ?_,
          fun u hu => Function.update_of_ne hu _ _⟩
        simp only [Function.update_self]
        exact hlt
  | dequeue c p =>
      rw [hp] at hs ht
      obtain ⟨-, rest, hfs, hrest⟩ := hs.of_dequeue
      rcases exists_stepTake_of_trailing (F.buffer c) ht with ⟨r, rfl⟩ | ⟨b', p', hstep, hlt⟩
      · obtain ⟨sdb, hvalue, -⟩ := hrest.resolve_left (by simp)
        obtain rfl := Option.some.inj hvalue
        refine ⟨_, ⟨hF, t, true, .dequeued hfs hp⟩, h.dequeued hS hfs hp, ?_,
          fun u hu => Function.update_of_ne hu _ _⟩
        simp only [Function.update_self]
        exact Nat.zero_lt_one
      · have hstands := (h.dequeue hS hterm hp hstep).resolve_right fun ⟨_, _, hnone, _⟩ =>
          ht (TakePoint.trailing_eq_zero.mpr hnone)
        refine ⟨_, ⟨hF, t, true, .dequeue hp hstep⟩, hstands, ?_,
          fun u hu => Function.update_of_ne hu _ _⟩
        simp only [Function.update_self]
        exact hlt

/-- **An operation past its point can return**, and this changes nothing in the state
that `F` stands for. -/
theorem Stands.settle (h : P.Stands owner F S) (hS : P.Spsc owner S)
    (hterm : S.shared.terminated = false) (t : Thread ι) :
    ∃ F', Relation.ReflTransGen P.QueuedProgress F F' ∧ P.Stands owner F' S ∧
      (F'.point t).trailing = 0 ∧ ∀ u, u ≠ t → F'.point u = F.point u := by
  induction hn : (F.point t).trailing using Nat.strongRecOn generalizing F with
  | ind n ih =>
      by_cases hzero : (F.point t).trailing = 0
      · exact ⟨F, .refl, h, hzero, fun _ _ => rfl⟩
      · obtain ⟨F₁, hstep, h₁, hlt, hother⟩ := h.exists_trailing hS hterm hzero
        obtain ⟨F₂, hsteps, h₂, hsettled, hother₂⟩ := ih _ (hn ▸ hlt) h₁ rfl
        exact ⟨F₂, hsteps.head hstep, h₂, hsettled, fun u hu => (hother₂ u hu).trans (hother u hu)⟩

/-! ### Steps -/

/-- A step of a frame that is not of a queue. -/
theorem Stands.lift_exec (h : P.Stands owner F S) (ht : (F.point t).trailing = 0) {f : Frame ι T}
    {rest : List (Frame ι T)} (hs : S.stack t = f :: rest) (hf : ¬ f.OfQueue)
    (hstep : P.step t S = some S') : ∃ F', P.QueuedProgress F F' ∧ P.Stands owner F' S' := by
  obtain ⟨f', rest', -, hs', hterm, -, -⟩ := step_cases hstep
  obtain ⟨e, he⟩ : ∃ e, P.exec S.shared f = some e := by
    rw [Pipeline.step, hs] at hstep
    obtain ⟨e, he, -⟩ := Option.map_eq_some_iff.mp (by simpa [hterm] using hstep)
    exact ⟨e, he⟩
  have hfs : F.stack t = f :: rest := (h.stack_eq ht).symm.trans hs
  have hshared : { S.shared with queue := F.shared.queue } = F.shared :=
    congrArg (fun sh : Shared ι T σ => { sh with queue := F.shared.queue }) h.shared
  have he' := (exec_queue hf he F.shared.queue).1
  rw [hshared] at he'
  obtain ⟨S'', hS'', h'⟩ := h.exec hterm hfs hf he'
  obtain rfl := Option.some.inj (hS''.symm.trans hstep)
  have hF : F.shared.terminated = false := h.terminated_eq ▸ hterm
  exact ⟨_, ⟨hF, t, true, .exec hfs hf he'⟩, h'⟩

/-- A step of the producer towards its point. -/
theorem Stands.exists_enqueue (h : P.Stands owner F S) (hS : P.Spsc owner S)
    (ht : (F.point t).trailing = 0) (hc : (F.point (.worker c 0)).trailing = 0)
    {sdb : SharedDataBlock T} {rest : List (Frame ι T)} (hs : S.stack t = .enqueue c sdb :: rest)
    (hterm : S.shared.terminated = false) (hlt : (S.shared.queue c).length < (P.maxBlocks c).getD 0)
    (hstep : P.step t S = some S') :
    ∃ F', P.QueuedProgress F F' ∧ (P.Stands owner F' S' ∨ P.Stands owner F' S ∧
      (F'.point t).trailing = 0 ∧ (F'.point t).leading < (F.point t).leading ∧
        ∀ u, u ≠ t → F'.point u = F.point u) := by
  have hF : F.shared.terminated = false := h.terminated_eq ▸ hterm
  have hfs : F.stack t = .enqueue c sdb :: rest := (h.stack_eq ht).symm.trans hs
  have hstands := h.stack t
  cases hp : F.point t with
  | outside =>
      refine ⟨_, ⟨hF, t, true, .callEnqueue hfs hp⟩, Or.inr ⟨h.callEnqueue hS hfs hp, ?_⟩⟩
      simp only [Function.update_self]
      exact ⟨rfl, by simp [QueuePoint.leading, EnqueuePoint.leading, LightweightSemaphore.rank],
        fun u hu => Function.update_of_ne hu _ _⟩
  | enqueue c' sdb' p =>
      rw [hp] at hstands ht
      obtain ⟨-, rest', hfs', -⟩ := hstands.of_enqueue
      obtain ⟨hframe, rfl⟩ := List.cons.inj (hfs.symm.trans hfs')
      obtain ⟨rfl, rfl⟩ := Frame.enqueue.inj hframe
      obtain ⟨rfl, k, n, hinv⟩ := h.producer hp
      obtain ⟨b', p', hq, hnear⟩ := hinv.exists_stepEnqueue (QueuePoint.sig_consumer_ne hc c) hlt ht
      refine ⟨_, ⟨hF, _, true, .enqueue hp hq⟩, ?_⟩
      rcases h.enqueue hS hterm hp hq with h' | ⟨S'', hS'', -, h'⟩
      · -- the block has not joined the queue, as it is still on the stack
        have hs' : StackStands owner (owner c)
            (Function.update F.point (owner c) (.enqueue c sdb p') (owner c)) (F.stack (owner c))
            (S.stack (owner c)) := h'.stack (owner c)
        rw [Function.update_self, hs, hfs] at hs'
        obtain ⟨-, rest'', heq, hjoined⟩ := hs'.of_enqueue
        obtain ⟨-, rfl⟩ := List.cons.inj heq
        have hnot : ¬ Joined T p' := hjoined.elim And.left fun h =>
          absurd (congrArg List.length h.2.1) (by simp)
        obtain ⟨hzero, hlead⟩ := hnear.resolve_right hnot
        simp only [Function.update_self]
        exact Or.inr ⟨h', hzero, hlead, fun u hu => Function.update_of_ne hu _ _⟩
      · obtain rfl := Option.some.inj (hS''.symm.trans hstep)
        exact Or.inl h'
  | dequeue c' p =>
      rw [hp] at hstands
      obtain ⟨-, rest', hfs', -⟩ := hstands.of_dequeue
      exact absurd (hfs.symm.trans hfs') (by simp)

/-- A step of the consumer towards its point. -/
theorem Stands.exists_dequeue (h : P.Stands owner F S) (hS : P.Spsc owner S)
    (ht : (F.point t).trailing = 0) (hc : (F.point (owner c)).trailing = 0)
    {rest : List (Frame ι T)} (hs : S.stack t = .dequeue c :: rest)
    (hterm : S.shared.terminated = false) (hq : S.shared.queue c ≠ []) (hstep : P.step t S = some S') :
    ∃ F', P.QueuedProgress F F' ∧ (P.Stands owner F' S' ∨ P.Stands owner F' S ∧
      (F'.point t).trailing = 0 ∧ (F'.point t).leading < (F.point t).leading ∧
        ∀ u, u ≠ t → F'.point u = F.point u) := by
  have hF : F.shared.terminated = false := h.terminated_eq ▸ hterm
  have hfs : F.stack t = .dequeue c :: rest := (h.stack_eq ht).symm.trans hs
  have hstands := h.stack t
  cases hp : F.point t with
  | outside =>
      refine ⟨_, ⟨hF, t, true, .callDequeue hfs hp⟩, Or.inr ⟨h.callDequeue hS hfs hp, ?_⟩⟩
      simp only [Function.update_self]
      exact ⟨rfl, by simp [QueuePoint.leading, TakePoint.leading, LightweightSemaphore.rank],
        fun u hu => Function.update_of_ne hu _ _⟩
  | enqueue c' sdb p =>
      rw [hp] at hstands
      obtain ⟨-, rest', hfs', -⟩ := hstands.of_enqueue
      exact absurd (hfs.symm.trans hfs') (by simp)
  | dequeue c' p =>
      rw [hp] at hstands ht
      obtain ⟨-, rest', hfs', -⟩ := hstands.of_dequeue
      obtain ⟨hframe, rfl⟩ := List.cons.inj (hfs.symm.trans hfs')
      obtain rfl := Frame.dequeue.inj hframe
      obtain ⟨rfl, k, n, hinv⟩ := h.consumer hp
      obtain ⟨b', p', hq, hnear⟩ := hinv.exists_stepTake (QueuePoint.sig_producer_ne hc c) hq ht
      refine ⟨_, ⟨hF, _, true, .dequeue hp hq⟩, ?_⟩
      rcases h.dequeue hS hterm hp hq with h' | ⟨S'', hS'', -, h'⟩
      · have hs' : StackStands owner (.worker c 0)
            (Function.update F.point (.worker c 0) (.dequeue c p') (.worker c 0))
            (F.stack (.worker c 0)) (S.stack (.worker c 0)) := h'.stack (.worker c 0)
        rw [Function.update_self, hs, hfs] at hs'
        obtain ⟨-, rest'', -, hanswer⟩ := hs'.of_dequeue
        have hnone : p'.answer dequeueMode = none := by
          rcases hanswer with ⟨hnone, -⟩ | ⟨_, -, heq⟩
          · exact hnone
          · exact absurd heq (by simp)
        have hzero := TakePoint.trailing_eq_zero.mpr hnone
        simp only [Function.update_self]
        exact Or.inr ⟨h', hzero, hnear hzero, fun u hu => Function.update_of_ne hu _ _⟩
      · obtain rfl := Option.some.inj (hS''.symm.trans hstep)
        exact Or.inl h'

/-- What can come nearer to a step of `t` can make it. -/
theorem lift_of_nearer {u : Thread ι} (hstep : ∀ F, P.Stands owner F S → (F.point t).trailing = 0 →
      (F.point u).trailing = 0 → ∃ F', P.QueuedProgress F F' ∧ (P.Stands owner F' S' ∨
        P.Stands owner F' S ∧ (F'.point t).trailing = 0 ∧ (F'.point t).leading < (F.point t).leading ∧
          ∀ u, u ≠ t → F'.point u = F.point u))
    (h : P.Stands owner F S) (ht : (F.point t).trailing = 0) (hu : (F.point u).trailing = 0) :
    ∃ F', Relation.ReflTransGen P.QueuedProgress F F' ∧ P.Stands owner F' S' := by
  induction hn : (F.point t).leading using Nat.strongRecOn generalizing F with
  | ind n ih =>
      obtain ⟨F₁, hF₁, h₁ | ⟨h₁, ht₁, hlt, hother⟩⟩ := hstep F h ht hu
      · exact ⟨F₁, .single hF₁, h₁⟩
      · have hu₁ : (F₁.point u).trailing = 0 := by
          by_cases hut : u = t
          · rwa [hut]
          · rwa [hother u hut]
        obtain ⟨F₂, hF₂, h₂⟩ := ih _ (hn ▸ hlt) h₁ ht₁ hu₁ rfl
        exact ⟨F₂, hF₂.head hF₁, h₂⟩

/-- Two threads that are settled. -/
theorem Stands.settle_both (h : P.Stands owner F S) (hS : P.Spsc owner S)
    (hterm : S.shared.terminated = false) (t u : Thread ι) :
    ∃ F', Relation.ReflTransGen P.QueuedProgress F F' ∧ P.Stands owner F' S ∧
      (F'.point t).trailing = 0 ∧ (F'.point u).trailing = 0 := by
  obtain ⟨F₁, hF₁, h₁, ht₁, -⟩ := h.settle hS hterm t
  obtain ⟨F₂, hF₂, h₂, hu₂, hother⟩ := h₁.settle hS hterm u
  refine ⟨F₂, hF₁.trans hF₂, h₂, ?_, hu₂⟩
  by_cases htu : t = u
  · rwa [htu]
  · rwa [hother t htu]

/-- **Every step of the abstract pipeline is some steps of the pipeline over circular
buffers.** -/
theorem Stands.lift (h : P.Stands owner F S) (hS : P.Spsc owner S) (hstep : P.Progress S S') :
    ∃ F', Relation.ReflTransGen P.QueuedProgress F F' ∧ P.Stands owner F' S' := by
  obtain ⟨t, ht⟩ := hstep
  obtain ⟨f, rest, e, hs, hterm, hexec, -⟩ := step_cases ht
  by_cases hf : f.OfQueue
  · cases hexec with
    | enqueue c sdb hlt =>
        obtain ⟨F₁, hF₁, h₁, ht₁, hc₁⟩ := h.settle_both hS hterm t (.worker c 0)
        obtain ⟨F₂, hF₂, h₂⟩ := lift_of_nearer (fun F h ht₀ hc =>
          h.exists_enqueue hS ht₀ hc hs hterm hlt ht) h₁ ht₁ hc₁
        exact ⟨F₂, hF₁.trans hF₂, h₂⟩
    | dequeue c sdb sdbs hq =>
        obtain ⟨F₁, hF₁, h₁, ht₁, hc₁⟩ := h.settle_both hS hterm t (owner c)
        obtain ⟨F₂, hF₂, h₂⟩ := lift_of_nearer (fun F h ht₀ hc =>
          h.exists_dequeue hS ht₀ hc hs hterm (hq ▸ List.cons_ne_nil _ _) ht) h₁ ht₁ hc₁
        exact ⟨F₂, hF₁.trans hF₂, h₂⟩
    | _ => exact hf.elim
  · obtain ⟨F₁, hF₁, h₁, ht₁, -⟩ := h.settle hS hterm t
    obtain ⟨F₂, hF₂, h₂⟩ := h₁.lift_exec ht₁ hs hf ht
    exact ⟨F₂, hF₁.tail hF₂, h₂⟩

/-! ### Runs to the end -/

variable {priv : ι → σ} {bs : List (SharedDataBlock T)}

/-- Every run of the abstract pipeline is one of the pipeline over circular buffers. -/
theorem Stands.lift_run (hspsc : ∀ S, P.Reachable priv bs S → P.Spsc owner S)
    (hS : P.Reachable priv bs S) (h : P.Stands owner F S)
    (hrun : Relation.ReflTransGen P.Progress S S') :
    ∃ F', Relation.ReflTransGen P.QueuedProgress F F' ∧ P.Reachable priv bs S' ∧
      P.Stands owner F' S' := by
  refine exists_run_of_lifts (R := fun F S => P.Reachable priv bs S ∧ P.Stands owner F S)
    (fun F S S' ⟨hS, hF⟩ hprogress => ?_) ⟨hS, h⟩ hrun
  obtain ⟨F', hF', h'⟩ := hF.lift (hspsc S hS) hprogress
  exact ⟨F', hF', hS.tail (.thread hprogress), h'⟩

/-- Where every thread has returned, no block is in a queue. -/
theorem IsTree.queue_eq_nil (hT : P.IsTree)
    (hproto : ∀ n, ¬ P.IsBuffer n → KeepsProtocol (P.processData n))
    (hbs : Ended SharedDataBlock.isEndOfProcessing bs) (h : P.Reachable priv bs S) (hfin : Finished S)
    (c : ι) : S.shared.queue c = [] := by
  have hq : Quiet S := fun t => Or.inl (hfin t)
  by_cases hbuf : P.IsBuffer c
  · obtain ⟨r, hr⟩ := hT.exists_upstream c
    obtain ⟨l, hl⟩ := hT.exists_streamAt priv bs c
    have hended := hl.ended hproto hbs
    obtain ⟨htaken, -⟩ := hT.quiet_buffer h hq hbuf hended (hT.quiet hproto hbs h hq hl).inputs
    have hdelivered := h.delivered_taken_add (hT.uniform c) hr hbuf
    rw [hfin, List.flatMap_nil, List.append_nil, htaken] at hdelivered
    by_contra hne
    exact hT.not_exited hproto hbs h hbuf hne (hdelivered ▸ hended)
  · have hlen := (h.queue c).2
    rw [not_not.mp hbuf] at hlen
    exact List.length_eq_zero_iff.mp (Nat.le_zero.mp hlen)

end Pipeline

/-- A state without its buffers. -/
def QueuedState.toState {ι V T σ : Type*} (F : QueuedState ι V T σ) : State ι V T σ :=
  ⟨F.shared, F.stack, F.log⟩

namespace Pipeline

variable {ι V T σ ν : Type*} [DecidableEq ι] {P : Pipeline ι V T σ} {owner : ι → Thread ι}
  {F : QueuedState ι V T σ} {S : State ι V T σ} {priv : ι → σ} {bs : List (SharedDataBlock T)}

/-- What stands for a completed state is completed, and no thread is in an operation. -/
theorem Stands.completed (h : P.Stands owner F S) (hS : Completed P S) :
    Completed P F.toState ∧ ∀ t, F.point t = .outside := by
  have hnil (t : Thread ι) : S.stack t = [] := by
    cases t with
    | pusher => exact hS.pusher
    | worker c i => exact hS.exited c i
  have hF (t : Thread ι) : F.point t = .outside ∧ S.stack t = F.stack t :=
    (h.stack t).of_nil (Or.inr (hnil t))
  refine ⟨⟨(hF _).2.symm.trans hS.pusher, fun c hc => ?_,
      fun c i => (hF _).2.symm.trans (hS.exited c i)⟩,
    fun t => (hF t).1⟩
  rw [← hS.started c hc, h.shared]
  rfl

/-- Where no thread is in an operation, the cells of an empty queue are raw memory. -/
theorem Stands.cells_eq_raw (h : P.Stands owner F S) (houtside : ∀ t, F.point t = .outside) {c : ι}
    (hq : S.shared.queue c = []) : ∀ j ≤ (F.buffer c).mask, (F.buffer c).cells j = .raw := by
  intro j hj
  obtain ⟨k, n, hinv⟩ := h.buffer c
  rw [houtside, houtside, hq] at hinv
  have hcells : Ring (2 ^ k) .raw n (F.buffer c).cells [] := hinv.cells
  rw [hinv.mask] at hj
  have := Nat.two_pow_pos k
  exact hcells.eq_of_nil (by omega)

/-- **Pipelines over circular buffers complete.**  On a finite tree of processors that
keep the protocol and of buffers that hold at least one block, when the blocks pushed end
with their one end-of-processing block, every run can be continued until every worker has
been started and every thread has returned; and then no cell of a buffer holds a block. -/
theorem QueuedReachable.completes [Finite ι] (hT : P.IsTree)
    (hcapacity : ∀ c m, P.maxBlocks c = some m → 1 ≤ m ∧ m < 2 ^ 63)
    (hproto : ∀ n, ¬ P.IsBuffer n → KeepsProtocol (P.processData n))
    (hbs : Ended SharedDataBlock.isEndOfProcessing bs) (h : P.QueuedReachable priv bs F) :
    ∃ F', Relation.ReflTransGen P.QueuedProgress F F' ∧ Completed P F'.toState ∧
      (∀ t, F'.point t = .outside) ∧ ∀ c, ∀ j ≤ (F'.buffer c).mask, (F'.buffer c).cells j = .raw := by
  obtain ⟨owner, hspsc⟩ := exists_spsc (fun c _ => hT.uniform c) priv
  obtain ⟨S, hS, hF⟩ := h.stands (fun c m hm => (hcapacity c m hm).2) (hspsc bs)
  have hsteps : ∀ S, P.Reachable priv bs S → ¬ Completed P S → ∃ S', P.Progress S S' := by
    intro S h hnot
    by_contra hnone
    push Not at hnone
    exact hnot (hT.completed_of_stuck (fun c m hm => (hcapacity c m hm).1) hproto hbs h hnone)
  obtain ⟨S', hprogress, -, hdone⟩ := hS.exists_goal hT.acyclic hsteps
  obtain ⟨F', hrun, hS', hF'⟩ := hF.lift_run (hspsc bs) hS hprogress
  obtain ⟨hcompleted, houtside⟩ := hF'.completed hdone
  refine ⟨F', hrun, hcompleted, houtside, fun c => hF'.cells_eq_raw houtside ?_⟩
  refine hT.queue_eq_nil hproto hbs hS' (fun t => ?_) c
  cases t with
  | pusher => exact hdone.pusher
  | worker c i => exact hdone.exited c i

/-- The tree of four, where a processor beside the buffer fails in mid-stream. -/
theorem completes_bufferedTree :
    ∃ F', Relation.ReflTransGen bufferedTree.QueuedProgress
        (bufferedTree.queuedInit (fun _ => 0) [⟨some 1, none⟩, ⟨some 2, none⟩, ⟨none, some {}⟩]) F' ∧
      Completed bufferedTree F'.toState ∧ (∀ t, F'.point t = .outside) ∧
        ∀ c, ∀ j ≤ (F'.buffer c).mask, (F'.buffer c).cells j = .raw :=
  QueuedReachable.completes isTree_bufferedTree maxBlocks_bufferedTree
    (fun n _ => keepsProtocol_bufferedTree n)
    ⟨[⟨some 1, none⟩, ⟨some 2, none⟩], ⟨none, some {}⟩, rfl, by decide, rfl⟩ .refl

/-! ### What visitors see -/

variable [DecidableEq V] {vis : V → StreamVisitor T ν} {s₀ : PushState ι V σ ν}

omit [DecidableEq ι] in
/-- The events of queues are no calls of visitors. -/
theorem seenBy_filter (v : V) (log : List (Event ι V T)) :
    seenBy v (log.filter fun e => !e.ofQueue) = seenBy v log := by
  rw [seenBy, List.filterMap_filter]
  refine List.filterMap_congr fun e _ => ?_
  cases e <;> rfl

/-- **Pipelines over circular buffers refine synchronous ones.**  In every interleaving
of the steps of the threads in and outside the queues, every visitor has been shown a
prefix of what it is shown in the pipeline without buffers, and all of it once every
thread has returned. -/
theorem queued_refines_synchronous [Finite ι] (hT : P.IsTree)
    (hcap : ∀ c m, P.maxBlocks c = some m → m < 2 ^ 63)
    (hproto : ∀ n, ¬ P.IsBuffer n → KeepsProtocol (P.processData n))
    (hbs : Ended SharedDataBlock.isEndOfProcessing bs)
    (honce : ∀ v, ∃ n k, ConnectedOnce P.unbuffered v n k) (vis : V → StreamVisitor T ν)
    (hnoError : ∀ n, s₀.hadError n = false) (hunset : ∀ v, (s₀.visitor v).promise = none) :
    ∃ fuel r, pushSequence P.unbuffered vis fuel (bs.map fun b => (P.entry, b)) s₀ = some r ∧
      r.thrown = none ∧ ∀ F, P.QueuedReachable s₀.priv bs F → ∀ v,
        seenBy v F.log <+: seenBy v r.events ∧
          (Finished F.toState → seenBy v F.log = seenBy v r.events) := by
  rw [unbuffered_eq] at honce ⊢
  obtain ⟨fuel, r, hr, ht, hsync⟩ := hT.exists_sync_run hproto hbs honce vis hnoError hunset
  obtain ⟨owner, hspsc⟩ := exists_spsc (fun c _ => hT.uniform c) s₀.priv
  refine ⟨fuel, r, hr, ht, fun F h v => ?_⟩
  obtain ⟨S, hS, hF⟩ := h.stands hcap (hspsc bs)
  obtain ⟨n, k, hv⟩ := honce v
  obtain ⟨l, hl⟩ := hT.exists_streamAt s₀.priv bs n
  have hseen := hT.seenBy_isPrefix hproto hbs hS hv hl
  rw [hsync v n k l hv hl, hF.log, seenBy_filter]
  exact ⟨hseen.1, fun hfin => hseen.2 fun t => ((hF.stack t).of_nil (Or.inl (hfin t))).2.trans (hfin t)⟩

/-- A sink on every element of the tree of four. -/
theorem queued_refines_synchronous_bufferedTree :
    ∃ fuel r, pushSequence bufferedTree.unbuffered (fun _ => .StreamSink) fuel
        ([⟨some 1, none⟩, ⟨some 2, none⟩, ⟨none, some {}⟩].map fun b => (.root, b))
        (⟨fun _ => 0, fun _ => false, fun _ => ⟨none, ()⟩⟩ : PushState TreeElement TreeElement ℕ Unit) =
          some r ∧
      r.thrown = none ∧
      ∀ F, bufferedTree.QueuedReachable (fun _ => 0)
          [⟨some 1, none⟩, ⟨some 2, none⟩, ⟨none, some {}⟩] F →
        ∀ v, seenBy v F.log <+: seenBy v r.events ∧
          (Finished F.toState → seenBy v F.log = seenBy v r.events) := by
  refine queued_refines_synchronous isTree_bufferedTree
    (fun c m hm => (maxBlocks_bufferedTree c m hm).2) (fun n _ => keepsProtocol_bufferedTree n)
    ⟨[⟨some 1, none⟩, ⟨some 2, none⟩], ⟨none, some {}⟩, rfl, by decide, rfl⟩
    (fun v => ⟨v, 0, rfl, fun n k h => ?_⟩) (fun _ => .StreamSink) (fun _ => rfl) (fun _ => rfl)
  rcases k with _ | k
  · exact ⟨Option.some.inj h, rfl⟩
  · exact absurd h (by simp [unbuffered, bufferedTree])

end Pipeline
end CppDataStream
