/-
# What a pipeline over circular buffers stands for

`Stands` says which state of `Threaded.Machine` a state of `Threaded.Queued` stands for:
one with the queues that the buffers stand for (`Moodycamel.Inv`), in which an operation
of a queue takes place at its point.  A step is a step there, or nothing
(`Stands.step`).

That needs one producer and one consumer for every queue (`Spsc`), which is so if all
paths to a buffer lead through the same buffers (`exists_spsc`).
-/

import CppDataStream.Threaded.Queued
import CppDataStream.Threaded.Tree
import CppDataStream.Library.Transitions

namespace CppDataStream

open Moodycamel Linearizability BoundedQueue Transitions

/-! ### Which state it stands for -/

section Views

variable {ι T : Type*}

/-- The producer of `c`, as a thread at this point plays it. -/
def QueuePoint.producer [DecidableEq ι] (c : ι) : QueuePoint ι T → Producer (SharedDataBlock T)
  | .enqueue c' sdb p => if c' = c then .enqueue enqueueMode sdb p else .idle
  | .outside | .dequeue .. => .idle

/-- The consumer of `c`. -/
def QueuePoint.consumer [DecidableEq ι] (c : ι) : QueuePoint ι T → Consumer (SharedDataBlock T)
  | .dequeue c' p => if c' = c then .take dequeueMode p else .idle
  | .outside | .enqueue .. => .idle

/-- A point of the producer of `c`, or outside. -/
def QueuePoint.AtProducer (c : ι) : QueuePoint ι T → Prop
  | .outside => True
  | .enqueue c' _ _ => c' = c
  | .dequeue .. => False

/-- A point of the consumer of `c`, or outside. -/
def QueuePoint.AtConsumer (c : ι) : QueuePoint ι T → Prop
  | .outside => True
  | .enqueue .. => False
  | .dequeue c' _ => c' = c

/-- The producer of `c` consumes nothing, and produces for no other buffer. -/
theorem QueuePoint.AtProducer.view [DecidableEq ι] {c : ι} {x : QueuePoint ι T} (h : x.AtProducer c) :
    (∀ c', x.consumer c' = .idle) ∧ ∀ c', c' ≠ c → x.producer c' = .idle := by
  cases x with
  | outside => exact ⟨fun _ => rfl, fun _ _ => rfl⟩
  | enqueue c' sdb p =>
      obtain rfl : c' = c := h
      exact ⟨fun _ => rfl, fun _ hc => if_neg hc.symm⟩
  | dequeue => exact h.elim

/-- The consumer of `c` produces nothing, and consumes from no other buffer. -/
theorem QueuePoint.AtConsumer.view [DecidableEq ι] {c : ι} {x : QueuePoint ι T} (h : x.AtConsumer c) :
    (∀ c', x.producer c' = .idle) ∧ ∀ c', c' ≠ c → x.consumer c' = .idle := by
  cases x with
  | outside => exact ⟨fun _ => rfl, fun _ _ => rfl⟩
  | enqueue => exact h.elim
  | dequeue c' p =>
      obtain rfl : c' = c := h
      exact ⟨fun _ => rfl, fun _ hc => if_neg hc.symm⟩

/-- The event is one of a queue. -/
def Event.ofQueue {V : Type*} : Event ι V T → Bool
  | .enqueue .. | .dequeue .. => true
  | _ => false

/-- The block is in the queue. -/
def Joined (T : Type*) (p : EnqueuePoint) : Prop :=
  p.answer enqueueMode = some (.ok : Ret (SharedDataBlock T))

/-- What the thread `t` has on its stack, and what it has there in the state it stands
for: an operation past its point has taken place. -/
inductive StackStands (owner : ι → Thread ι) (t : Thread ι) :
    QueuePoint ι T → List (Frame ι T) → List (Frame ι T) → Prop
  | outside (fs) : StackStands owner t .outside fs fs
  | enqueuing {c sdb p rest} (ht : t = owner c) (h : ¬ Joined T p) :
      StackStands owner t (.enqueue c sdb p) (.enqueue c sdb :: rest) (.enqueue c sdb :: rest)
  | enqueued {c sdb p rest} (ht : t = owner c) (h : Joined T p) (hrest : rest ≠ []) :
      StackStands owner t (.enqueue c sdb p) (.enqueue c sdb :: rest) rest
  | dequeuing {c p rest} (ht : t = .worker c 0) (h : p.answer dequeueMode = none) :
      StackStands owner t (.dequeue c p) (.dequeue c :: rest) (.dequeue c :: rest)
  | dequeued {c p sdb rest} (ht : t = .worker c 0) (h : p.answer dequeueMode = some (.value sdb)) :
      StackStands owner t (.dequeue c p) (.dequeue c :: rest) (.deliver c sdb :: rest)

section Inversion

variable {owner : ι → Thread ι} {t : Thread ι} {c : ι} {fs fs' : List (Frame ι T)}

/-- Outside the operations both stacks are the same. -/
theorem StackStands.of_outside (h : StackStands owner t .outside fs fs') : fs' = fs := by
  cases h
  rfl

/-- In an `enqueue` the frame is gone on the other side once the block is in the queue. -/
theorem StackStands.of_enqueue {sdb : SharedDataBlock T} {p : EnqueuePoint}
    (h : StackStands owner t (.enqueue c sdb p) fs fs') :
    t = owner c ∧ ∃ rest, fs = .enqueue c sdb :: rest ∧
      (¬ Joined T p ∧ fs' = fs ∨ Joined T p ∧ fs' = rest ∧ rest ≠ []) := by
  cases h with
  | enqueuing ht h => exact ⟨ht, _, rfl, Or.inl ⟨h, rfl⟩⟩
  | enqueued ht h hrest => exact ⟨ht, _, rfl, Or.inr ⟨h, rfl, hrest⟩⟩

/-- In a `dequeue` the other side has the block as soon as the thread has it. -/
theorem StackStands.of_dequeue {p : TakePoint (SharedDataBlock T)}
    (h : StackStands owner t (.dequeue c p) fs fs') :
    t = .worker c 0 ∧ ∃ rest, fs = .dequeue c :: rest ∧
      (p.answer dequeueMode = none ∧ fs' = fs ∨
        ∃ sdb, p.answer dequeueMode = some (.value sdb) ∧ fs' = .deliver c sdb :: rest) := by
  cases h with
  | dequeuing ht h => exact ⟨ht, _, rfl, Or.inl ⟨h, rfl⟩⟩
  | dequeued ht h => exact ⟨ht, _, rfl, Or.inr ⟨_, h, rfl⟩⟩

/-- A thread that has returned on one side has returned on both. -/
theorem StackStands.of_nil {x : QueuePoint ι T} (h : StackStands owner t x fs fs')
    (hnil : fs = [] ∨ fs' = []) : x = .outside ∧ fs' = fs := by
  cases h with
  | outside => exact ⟨rfl, rfl⟩
  | enqueued _ _ hrest => exact absurd (hnil.resolve_left (List.cons_ne_nil _ _)) hrest
  | enqueuing | dequeuing | dequeued => simp at hnil

/-- Frames of no queue are the same on both sides. -/
theorem StackStands.eq_of_top {x : QueuePoint ι T} {f : Frame ι T}
    (h : StackStands owner t x (f :: fs) fs') (hf : ¬ f.OfQueue) : x = .outside ∧ fs' = f :: fs := by
  cases h with
  | outside => exact ⟨rfl, rfl⟩
  | enqueuing | enqueued | dequeuing | dequeued => exact absurd trivial hf

end Inversion

end Views

namespace Pipeline

variable {ι V T σ : Type*} [DecidableEq ι]

/-- `F` stands for `S`, when `owner c` is the producer of `c`. -/
structure Stands (P : Pipeline ι V T σ) (owner : ι → Thread ι) (F : QueuedState ι V T σ)
    (S : State ι V T σ) : Prop where
  shared : S.shared = { F.shared with queue := S.shared.queue }
  log : F.log = S.log.filter fun e => !e.ofQueue
  stack : ∀ t, StackStands owner t (F.point t) (F.stack t) (S.stack t)
  /-- Only constructed threads are in an operation. -/
  live : ∀ c i, F.shared.created c ≤ i → F.point (.worker c i) = .outside
  buffer : ∀ c, ∃ k n, Inv ((P.maxBlocks c).getD 0) k n (F.buffer c) ((F.point (owner c)).producer c)
    ((F.point (.worker c 0)).consumer c) (S.shared.queue c)

/-- Every queue has one producer, and one consumer. -/
structure Spsc (P : Pipeline ι V T σ) (owner : ι → Thread ι) (S : State ι V T σ) : Prop
    extends P.WellFormed S where
  bottom : ∀ t, Bottomed t (S.stack t)
  producer : ∀ t c sdb, .enqueue c sdb ∈ S.stack t → t = owner c
  consumer : ∀ t c, .dequeue c ∈ S.stack t → t = .worker c 0

variable {P : Pipeline ι V T σ} {owner : ι → Thread ι} {F F' : QueuedState ι V T σ} {S : State ι V T σ}
  {t : Thread ι} {c : ι}

/-- `std::terminate` was called on both sides or on neither. -/
theorem Stands.terminated_eq (h : P.Stands owner F S) : S.shared.terminated = F.shared.terminated := by
  rw [h.shared]

/-- At first the queues are empty. -/
theorem stands_init (hcap : ∀ c m, P.maxBlocks c = some m → m < 2 ^ 63) (owner : ι → Thread ι)
    (priv : ι → σ) (bs : List (SharedDataBlock T)) :
    P.Stands owner (P.queuedInit priv bs) (init priv bs) where
  shared := rfl
  log := rfl
  stack _ := .outside _
  live _ _ _ := rfl
  buffer c := by
    have hlt : (P.maxBlocks c).getD 0 < 2 ^ 63 := by
      cases h : P.maxBlocks c with
      | none => exact Nat.two_pow_pos 63
      | some m => exact hcap c m h
    exact System.init_abstracts hlt

/-! ### Steps of the queues -/

/-- What a thread's point looks like from elsewhere is unchanged if its new point looks
the same. -/
theorem update_view {β : Type*} {point : Thread ι → QueuePoint ι T} {x : QueuePoint ι T}
    (g : QueuePoint ι T → β) (h : g x = g (point t)) (t' : Thread ι) :
    g (Function.update point t x t') = g (point t') := by
  by_cases ht : t' = t
  · rw [ht, Function.update_self, h]
  · rw [Function.update_of_ne ht]

/-- What one thread does in the buffer `c`. -/
theorem Stands.update (h : P.Stands owner F S) (hS : P.Spsc owner S)
    {b : CircularBuffer (SharedDataBlock T)} {x : QueuePoint ι T} {fs fs' : List (Frame ι T)}
    {q : List (SharedDataBlock T)} {evs : List (Event ι V T)}
    (hlive : x ≠ .outside → S.stack t ≠ [] ∨ F.point t ≠ .outside)
    (hstack : StackStands owner t x fs fs') (hevs : ∀ e ∈ evs, e.ofQueue = true)
    (hview : ∀ c', c' ≠ c →
      x.producer c' = (F.point t).producer c' ∧ x.consumer c' = (F.point t).consumer c')
    (hbuffer : ∃ k n, Inv ((P.maxBlocks c).getD 0) k n b
      ((Function.update F.point t x (owner c)).producer c)
      ((Function.update F.point t x (.worker c 0)).consumer c) q) :
    P.Stands owner
      { F with
        buffer := Function.update F.buffer c b
        stack := Function.update F.stack t fs
        point := Function.update F.point t x }
      { shared := { S.shared with queue := Function.update S.shared.queue c q }
        stack := Function.update S.stack t fs'
        log := S.log ++ evs } where
  shared := congrArg (fun sh : Shared ι T σ => { sh with queue := Function.update S.shared.queue c q })
    h.shared
  log := by
    have hnil : evs.filter (fun e => !e.ofQueue) = [] := by simpa using hevs
    rw [List.filter_append, hnil, List.append_nil]
    exact h.log
  stack t' := by
    by_cases ht : t' = t
    · subst ht
      simpa using hstack
    · simpa [ht] using h.stack t'
  live c' i hle := by
    change Function.update F.point t x (.worker c' i) = .outside
    by_cases ht : .worker c' i = t
    · subst ht
      rw [Function.update_self]
      by_contra hne
      rcases hlive hne with hne | hne
      · have hlt := hS.live c' i hne
        rw [h.shared] at hlt
        exact absurd hle (Nat.not_le_of_lt hlt)
      · exact hne (h.live c' i hle)
    · rw [Function.update_of_ne ht]
      exact h.live c' i hle
  buffer c' := by
    by_cases hc : c' = c
    · subst hc
      simpa using hbuffer
    · obtain ⟨hproducer, hconsumer⟩ := hview c' hc
      simp only [Function.update_of_ne hc]
      rw [update_view (QueuePoint.producer c') hproducer, update_view (QueuePoint.consumer c') hconsumer]
      exact h.buffer c'

/-- What the producer of the buffer `c` does. -/
theorem Stands.updateProducer (h : P.Stands owner F S) (hS : P.Spsc owner S)
    {b : CircularBuffer (SharedDataBlock T)} {x : QueuePoint ι T} {fs fs' : List (Frame ι T)}
    {q : List (SharedDataBlock T)} {evs : List (Event ι V T)}
    (hstack : StackStands owner (owner c) x fs fs') (hp : (F.point (owner c)).AtProducer c)
    (hx : x.AtProducer c) (hlive : x ≠ .outside → S.stack (owner c) ≠ [] ∨ F.point (owner c) ≠ .outside)
    (hevs : ∀ e ∈ evs, e.ofQueue = true)
    (hbuffer : ∃ k n, Inv ((P.maxBlocks c).getD 0) k n b (x.producer c)
      ((F.point (.worker c 0)).consumer c) q) :
    P.Stands owner
      { F with
        buffer := Function.update F.buffer c b
        stack := Function.update F.stack (owner c) fs
        point := Function.update F.point (owner c) x }
      { shared := { S.shared with queue := Function.update S.shared.queue c q }
        stack := Function.update S.stack (owner c) fs'
        log := S.log ++ evs } := by
  have hconsumer (c' : ι) : x.consumer c' = (F.point (owner c)).consumer c' := by
    rw [hx.view.1, hp.view.1]
  refine h.update hS hlive hstack hevs (fun c' hc => ⟨?_, hconsumer c'⟩) ?_
  · rw [hx.view.2 c' hc, hp.view.2 c' hc]
  · rwa [Function.update_self, update_view (QueuePoint.consumer c) (hconsumer c)]

/-- What the consumer of the buffer `c` does. -/
theorem Stands.updateConsumer (h : P.Stands owner F S) (hS : P.Spsc owner S)
    {b : CircularBuffer (SharedDataBlock T)} {x : QueuePoint ι T} {fs fs' : List (Frame ι T)}
    {q : List (SharedDataBlock T)} {evs : List (Event ι V T)}
    (hstack : StackStands owner (.worker c 0) x fs fs') (hp : (F.point (.worker c 0)).AtConsumer c)
    (hx : x.AtConsumer c)
    (hlive : x ≠ .outside → S.stack (.worker c 0) ≠ [] ∨ F.point (.worker c 0) ≠ .outside)
    (hevs : ∀ e ∈ evs, e.ofQueue = true)
    (hbuffer : ∃ k n, Inv ((P.maxBlocks c).getD 0) k n b ((F.point (owner c)).producer c)
      (x.consumer c) q) :
    P.Stands owner
      { F with
        buffer := Function.update F.buffer c b
        stack := Function.update F.stack (.worker c 0) fs
        point := Function.update F.point (.worker c 0) x }
      { shared := { S.shared with queue := Function.update S.shared.queue c q }
        stack := Function.update S.stack (.worker c 0) fs'
        log := S.log ++ evs } := by
  have hproducer (c' : ι) : x.producer c' = (F.point (.worker c 0)).producer c' := by
    rw [hx.view.1, hp.view.1]
  refine h.update hS hlive hstack hevs (fun c' hc => ⟨hproducer c', ?_⟩) ?_
  · rw [hx.view.2 c' hc, hp.view.2 c' hc]
  · rwa [Function.update_self, update_view (QueuePoint.producer c) (hproducer c)]

omit [DecidableEq ι] in
/-- Nothing is logged. -/
theorem forall_mem_nil_ofQueue : ∀ e ∈ ([] : List (Event ι V T)), e.ofQueue = true :=
  fun _ he => absurd he List.not_mem_nil

/-- **The call of an `enqueue`** is nothing over queues. -/
theorem Stands.callEnqueue (h : P.Stands owner F S) (hS : P.Spsc owner S)
    {sdb : SharedDataBlock T} {rest : List (Frame ι T)} (hstack : F.stack t = .enqueue c sdb :: rest)
    (hp : F.point t = .outside) :
    P.Stands owner { F with point := Function.update F.point t (.enqueue c sdb (.acquire .tryWait)) }
      S := by
  have heq : S.stack t = .enqueue c sdb :: rest := by
    have hs := h.stack t
    rw [hp] at hs
    exact hs.of_outside.trans hstack
  obtain rfl := hS.producer t c sdb (heq ▸ List.mem_cons_self ..)
  obtain ⟨k, n, hinv⟩ := h.buffer c
  rw [hp] at hinv
  have hstack' : StackStands owner (owner c) (.enqueue c sdb (.acquire .tryWait)) (F.stack (owner c))
      (S.stack (owner c)) := by
    rw [hstack, heq]
    exact .enqueuing rfl (by simp [Joined])
  have hinv' : Inv ((P.maxBlocks c).getD 0) k n (F.buffer c)
      ((QueuePoint.enqueue c sdb (.acquire .tryWait)).producer c)
      ((F.point (.worker c 0)).consumer c) (S.shared.queue c) := by
    rw [QueuePoint.producer, if_pos rfl]
    exact { hinv with slots := hinv.slots.of_outside rfl rfl }
  simpa only [Function.update_eq_self, List.append_nil] using
    h.updateProducer hS hstack' (hp ▸ trivial) rfl (fun _ => Or.inl (heq ▸ List.cons_ne_nil _ _))
      forall_mem_nil_ofQueue ⟨k, n, hinv'⟩

/-- **A step of an `enqueue`** is that of the queue if the block joins it, and else
nothing. -/
theorem Stands.enqueue (h : P.Stands owner F S) (hS : P.Spsc owner S)
    (hterm : S.shared.terminated = false) {sdb : SharedDataBlock T} {p p' : EnqueuePoint}
    {granted : Bool} {b' : CircularBuffer (SharedDataBlock T)} (hp : F.point t = .enqueue c sdb p)
    (hstep : stepEnqueue enqueueMode sdb granted (F.buffer c) p = some (b', p')) :
    (P.Stands owner
      { F with
        buffer := Function.update F.buffer c b'
        point := Function.update F.point t (.enqueue c sdb p') } S) ∨
    ∃ S', P.step t S = some S' ∧ p.answer enqueueMode = (none : Option (Ret (SharedDataBlock T))) ∧
      P.Stands owner
        { F with
          buffer := Function.update F.buffer c b'
          point := Function.update F.point t (.enqueue c sdb p') } S' := by
  have hs := h.stack t
  rw [hp] at hs
  obtain ⟨rfl, rest, hfs, hrest⟩ := hs.of_enqueue
  obtain ⟨k, n, hinv⟩ := h.buffer c
  rw [hp, QueuePoint.producer, if_pos rfl] at hinv
  obtain ⟨q', hinv', hmove⟩ := hinv.stepEnqueue Moodycamel.Party.producer hstep
  have hbuffer : Inv ((P.maxBlocks c).getD 0) k n b' ((QueuePoint.enqueue c sdb p').producer c)
      ((F.point (.worker c 0)).consumer c) q' := by
    rwa [QueuePoint.producer, if_pos rfl]
  have hAt : (F.point (owner c)).AtProducer c := hp ▸ rfl
  have hlive : QueuePoint.enqueue c sdb p' ≠ .outside →
      S.stack (owner c) ≠ [] ∨ F.point (owner c) ≠ .outside := fun _ => Or.inr (by rw [hp]; simp)
  -- the step is not the point at which the block joins the queue
  have hstutter (hq : q' = S.shared.queue c) (hjoined : Joined T p' ↔ Joined T p) :
      P.Stands owner
        { F with
          buffer := Function.update F.buffer c b'
          point := Function.update F.point (owner c) (.enqueue c sdb p') } S := by
    subst hq
    have hstack : StackStands owner (owner c) (.enqueue c sdb p') (F.stack (owner c))
        (S.stack (owner c)) := by
      rw [hfs]
      rcases hrest with ⟨hnot, heq⟩ | ⟨hjoin, heq, hne⟩
      · rw [heq, hfs]
        exact .enqueuing rfl fun h => hnot (hjoined.mp h)
      · rw [heq]
        exact .enqueued rfl (hjoined.mpr hjoin) hne
    simpa only [Function.update_eq_self, List.append_nil] using
      h.updateProducer hS hstack hAt rfl hlive forall_mem_nil_ofQueue ⟨k, n, hbuffer⟩
  rcases opPhase_moves hmove with ⟨rfl, hans⟩ | ⟨hnone, r, hr, hlegal⟩
  · exact Or.inl (hstutter rfl (by rw [Joined, hans, Joined]))
  have hnot : ¬ Joined T p := fun h => absurd (hnone.symm.trans h) (by simp)
  rcases hlegal.of_push with ⟨rfl, hlt, rfl⟩ | ⟨rfl, rfl⟩
  · have heq : S.stack (owner c) = F.stack (owner c) :=
      hrest.elim And.right fun h => absurd h.1 hnot
    have hstack : StackStands owner (owner c) (.enqueue c sdb p') (F.stack (owner c)) rest := by
      rw [hfs]
      have hbot := hS.bottom (owner c)
      rw [heq, hfs] at hbot
      exact .enqueued rfl hr (hbot.ne_nil trivial)
    have hevs : ∀ e ∈ [(.enqueue c sdb : Event ι V T)], e.ofQueue = true :=
      List.forall_mem_singleton.mpr rfl
    have hstands := h.updateProducer hS hstack hAt rfl hlive hevs ⟨k, n, hbuffer⟩
    rw [Function.update_eq_self] at hstands
    refine Or.inr ⟨_, ?_, hnone, hstands⟩
    rw [Pipeline.step, heq, hfs]
    simp [hterm, exec, hlt, Pipeline.spawn]
  · exact Or.inl (hstutter rfl ⟨fun h => absurd (hr.symm.trans h) (by simp), fun h => absurd h hnot⟩)

/-- The loop of `pushData` ends, or goes on. -/
theorem Stands.enqueued (h : P.Stands owner F S) (hS : P.Spsc owner S) {sdb : SharedDataBlock T}
    {rest : List (Frame ι T)} {b : Bool} (hfs : F.stack t = .enqueue c sdb :: rest)
    (hp : F.point t = .enqueue c sdb (.returning b)) :
    P.Stands owner
      { F with
        stack := Function.update F.stack t (if b then rest else F.stack t)
        point := Function.update F.point t .outside } S := by
  have hs := h.stack t
  rw [hp] at hs
  obtain ⟨rfl, rest', hfs', hrest⟩ := hs.of_enqueue
  obtain ⟨-, rfl⟩ := List.cons.inj (hfs.symm.trans hfs')
  obtain ⟨k, n, hinv⟩ := h.buffer c
  rw [hp, QueuePoint.producer, if_pos rfl] at hinv
  have hidle : Inv ((P.maxBlocks c).getD 0) k n (F.buffer c)
      ((QueuePoint.outside : QueuePoint ι T).producer c) ((F.point (.worker c 0)).consumer c)
      (S.shared.queue c) := { hinv with }
  have hstack : StackStands owner (owner c) .outside (if b then rest else F.stack (owner c))
      (S.stack (owner c)) := by
    cases b with
    | true =>
        rw [(hrest.resolve_left fun h => h.1 rfl).2.1]
        exact .outside _
    | false =>
        have heq : S.stack (owner c) = F.stack (owner c) :=
          hrest.elim And.right fun h => absurd h.1 (by simp [Joined])
        rw [heq]
        exact .outside _
  simpa only [Function.update_eq_self, List.append_nil] using
    h.updateProducer hS hstack (hp ▸ rfl) trivial (fun h => absurd rfl h) forall_mem_nil_ofQueue
      ⟨k, n, hidle⟩

/-- **The call of a `dequeue`** is nothing over queues. -/
theorem Stands.callDequeue (h : P.Stands owner F S) (hS : P.Spsc owner S)
    {rest : List (Frame ι T)} (hstack : F.stack t = .dequeue c :: rest) (hp : F.point t = .outside) :
    P.Stands owner { F with point := Function.update F.point t (.dequeue c (.acquire .tryWait)) }
      S := by
  have heq : S.stack t = .dequeue c :: rest := by
    have hs := h.stack t
    rw [hp] at hs
    exact hs.of_outside.trans hstack
  obtain rfl := hS.consumer t c (heq ▸ List.mem_cons_self ..)
  obtain ⟨k, n, hinv⟩ := h.buffer c
  rw [hp] at hinv
  have hstack' : StackStands owner (.worker c 0) (.dequeue c (.acquire .tryWait))
      (F.stack (.worker c 0)) (S.stack (.worker c 0)) := by
    rw [hstack, heq]
    exact .dequeuing rfl rfl
  have hinv' : Inv ((P.maxBlocks c).getD 0) k n (F.buffer c) ((F.point (owner c)).producer c)
      ((QueuePoint.dequeue c (.acquire .tryWait)).consumer c) (S.shared.queue c) := by
    rw [QueuePoint.consumer, if_pos rfl]
    exact { hinv with items := hinv.items.of_outside rfl rfl }
  simpa only [Function.update_eq_self, List.append_nil] using
    h.updateConsumer hS hstack' (hp ▸ trivial) rfl (fun _ => Or.inl (heq ▸ List.cons_ne_nil _ _))
      forall_mem_nil_ofQueue ⟨k, n, hinv'⟩

/-- **A step of a `dequeue`** is that of the queue if it takes a block out, and else
nothing. -/
theorem Stands.dequeue (h : P.Stands owner F S) (hS : P.Spsc owner S)
    (hterm : S.shared.terminated = false) {p p' : TakePoint (SharedDataBlock T)} {granted : Bool}
    {b' : CircularBuffer (SharedDataBlock T)} (hp : F.point t = .dequeue c p)
    (hstep : stepTake dequeueMode granted (F.buffer c) p = some (b', p')) :
    (P.Stands owner
      { F with
        buffer := Function.update F.buffer c b'
        point := Function.update F.point t (.dequeue c p') } S) ∨
    ∃ S', P.step t S = some S' ∧ p.answer dequeueMode = none ∧ P.Stands owner
      { F with
        buffer := Function.update F.buffer c b'
        point := Function.update F.point t (.dequeue c p') } S' := by
  have hs := h.stack t
  rw [hp] at hs
  obtain ⟨rfl, rest, hfs, hrest⟩ := hs.of_dequeue
  obtain ⟨k, n, hinv⟩ := h.buffer c
  rw [hp, QueuePoint.consumer, if_pos rfl] at hinv
  obtain ⟨n', q', hinv', hmove⟩ := hinv.stepTake Moodycamel.Party.consumer hstep
  have hbuffer : Inv ((P.maxBlocks c).getD 0) k n' b' ((F.point (owner c)).producer c)
      ((QueuePoint.dequeue c p').consumer c) q' := by
    rwa [QueuePoint.consumer, if_pos rfl]
  have hAt : (F.point (.worker c 0)).AtConsumer c := hp ▸ rfl
  have hlive : QueuePoint.dequeue c p' ≠ .outside →
      S.stack (.worker c 0) ≠ [] ∨ F.point (.worker c 0) ≠ .outside := fun _ => Or.inr (by rw [hp]; simp)
  rcases opPhase_moves hmove with ⟨rfl, hans⟩ | ⟨hnone, r, hr, hlegal⟩
  · have hstack : StackStands owner (.worker c 0) (.dequeue c p') (F.stack (.worker c 0))
        (S.stack (.worker c 0)) := by
      rw [hfs]
      rcases hrest with ⟨hnone, heq⟩ | ⟨sdb, hvalue, heq⟩
      · rw [heq, hfs]
        exact .dequeuing rfl (hans.trans hnone)
      · rw [heq]
        exact .dequeued rfl (hans.trans hvalue)
    have hstands := h.updateConsumer hS hstack hAt rfl hlive forall_mem_nil_ofQueue ⟨k, n', hbuffer⟩
    simp only [Function.update_eq_self, List.append_nil] at hstands
    exact Or.inl hstands
  · -- the point at which the block leaves the queue
    obtain ⟨sdb, rfl, hq⟩ := hlegal.of_pull
    have heq : S.stack (.worker c 0) = F.stack (.worker c 0) :=
      hrest.elim And.right fun ⟨_, h, _⟩ => absurd (hnone.symm.trans h) (by simp)
    have hstack : StackStands owner (.worker c 0) (.dequeue c p') (F.stack (.worker c 0))
        (.deliver c sdb :: rest) := by
      rw [hfs]
      exact .dequeued rfl hr
    have hevs : ∀ e ∈ [(.dequeue c sdb : Event ι V T)], e.ofQueue = true :=
      List.forall_mem_singleton.mpr rfl
    have hstands := h.updateConsumer hS hstack hAt rfl hlive hevs ⟨k, n', hbuffer⟩
    rw [Function.update_eq_self] at hstands
    refine Or.inr ⟨_, ?_, hnone, hstands⟩
    rw [Pipeline.step, heq, hfs]
    simp [hterm, exec, hq, Pipeline.spawn]

/-- **The return of a `dequeue`** is nothing over queues, where it took place before. -/
theorem Stands.dequeued (h : P.Stands owner F S) (hS : P.Spsc owner S) {sdb : SharedDataBlock T}
    {rest : List (Frame ι T)} (hfs : F.stack t = .dequeue c :: rest)
    (hp : F.point t = .dequeue c (.returning (.value sdb))) :
    P.Stands owner
      { F with
        stack := Function.update F.stack t (.deliver c sdb :: rest)
        point := Function.update F.point t .outside } S := by
  have hs := h.stack t
  rw [hp] at hs
  obtain ⟨rfl, rest', hfs', hrest⟩ := hs.of_dequeue
  obtain ⟨-, rfl⟩ := List.cons.inj (hfs.symm.trans hfs')
  obtain ⟨k, n, hinv⟩ := h.buffer c
  rw [hp, QueuePoint.consumer, if_pos rfl] at hinv
  have hidle : Inv ((P.maxBlocks c).getD 0) k n (F.buffer c) ((F.point (owner c)).producer c)
      ((QueuePoint.outside : QueuePoint ι T).consumer c) (S.shared.queue c) := { hinv with }
  have hstack : StackStands owner (.worker c 0) .outside (.deliver c sdb :: rest)
      (S.stack (.worker c 0)) := by
    obtain ⟨sdb', hvalue, heq⟩ := hrest.resolve_left (by simp)
    obtain rfl := Ret.value.inj (Option.some.inj hvalue)
    rw [heq]
    exact .outside _
  simpa only [Function.update_eq_self, List.append_nil] using
    h.updateConsumer hS hstack (hp ▸ rfl) trivial (fun h => absurd rfl h) forall_mem_nil_ofQueue
      ⟨k, n, hidle⟩

/-! ### The other steps -/

/-- What a frame does that is not of a queue does not depend on the queues. -/
theorem exec_queue {sh : Shared ι T σ} {f : Frame ι T} {e : Effect ι V T σ} (hf : ¬ f.OfQueue)
    (he : P.exec sh f = some e) (q : ι → List (SharedDataBlock T)) :
    P.exec { sh with queue := q } f = some { e with shared := { e.shared with queue := q } } ∧
      (∀ ev ∈ e.events, ev.ofQueue = false) := by
  cases f with
  | main todo => cases todo <;> (obtain rfl := Option.some.inj he; simp [exec, Event.ofQueue])
  | hadError n sdb | startTest c sdb | assign c sdb | eopTest c sdb =>
      rw [exec] at he
      split_ifs at he with h <;> obtain rfl := Option.some.inj he <;> simp [exec, h, Event.ofQueue]
  | visit n k output | forward n k output =>
      rw [exec] at he
      split at he <;> obtain rfl := Option.some.inj he <;> simp [exec, *, Event.ofQueue]
  | process | start | started | deliver =>
      obtain rfl := Option.some.inj he
      simp [exec, Pipeline.process, Event.ofQueue]
  | enqueue | dequeue => exact absurd trivial hf

/-- A worker that is constructed begins alike on both sides. -/
theorem StackStands.spawn {point : Thread ι → QueuePoint ι T}
    {stack stack' : Thread ι → List (Frame ι T)} {o : Option (ι × ℕ)}
    (h : ∀ t', StackStands owner t' (point t') (stack t') (stack' t'))
    (ho : ∀ c i, o = some (c, i) → point (.worker c i) = .outside) (t' : Thread ι) :
    StackStands owner t' (point t') (Pipeline.spawn stack o t') (Pipeline.spawn stack' o t') := by
  rcases o with _ | ⟨c, i⟩
  · exact h t'
  · by_cases ht : t' = .worker c i
    · subst ht
      rw [ho c i rfl, Pipeline.spawn, Pipeline.spawn, Function.update_self, Function.update_self]
      exact .outside _
    · rw [Pipeline.spawn, Pipeline.spawn, Function.update_of_ne ht, Function.update_of_ne ht]
      exact h t'

/-- **A step outside the queues** is the same step over queues. -/
theorem Stands.exec (h : P.Stands owner F S) (hterm : S.shared.terminated = false) {f : Frame ι T}
    {rest : List (Frame ι T)} {e : Effect ι V T σ} (hfs : F.stack t = f :: rest) (hf : ¬ f.OfQueue)
    (he : P.exec F.shared f = some e) :
    ∃ S', P.step t S = some S' ∧ P.Stands owner
      { F with
        shared := e.shared
        stack := spawn (Function.update F.stack t (e.frames ++ rest)) e.spawned
        log := F.log ++ e.events } S' := by
  have hs := h.stack t
  rw [hfs] at hs
  obtain ⟨hp, heq⟩ := hs.eq_of_top hf
  obtain ⟨hexec, hevs⟩ := exec_queue hf he S.shared.queue
  rw [← h.shared] at hexec
  have hcreated := (exec_cases he).created_le
  refine ⟨⟨{ e.shared with queue := S.shared.queue },
    Pipeline.spawn (Function.update S.stack t (e.frames ++ rest)) e.spawned, S.log ++ e.events⟩,
    by rw [Pipeline.step, heq]; simp [hterm, hexec], rfl, ?_, fun t' => ?_, ?_, h.buffer⟩
  · rw [List.filter_append, ← h.log, List.filter_eq_self.mpr fun ev hev => by simp [hevs ev hev]]
  · refine StackStands.spawn (fun t' => ?_) (fun c i ho => ?_) t'
    · by_cases ht : t' = t
      · subst ht
        rw [hp, Function.update_self, Function.update_self]
        exact .outside _
      · rw [Function.update_of_ne ht, Function.update_of_ne ht]
        exact h.stack t'
    · obtain ⟨-, rfl, -⟩ := (exec_cases he).spawned ho
      exact h.live c _ le_rfl
  · exact fun c' i hle => h.live c' i ((hcreated c').trans hle)

/-- **Every step of a thread is its step in the abstract pipeline, or nothing there.** -/
theorem Stands.step_thread (h : P.Stands owner F S) (hS : P.Spsc owner S)
    (hterm : S.shared.terminated = false) {granted : Bool} (hstep : P.QueuedStep t granted F F') :
    P.Stands owner F' S ∨ ∃ S', P.step t S = some S' ∧ S.stack t = F.stack t ∧ P.Stands owner F' S' := by
  have hs := h.stack t
  cases hstep with
  | callEnqueue hfs hp => exact Or.inl (h.callEnqueue hS hfs hp)
  | enqueue hp hstep =>
      refine (h.enqueue hS hterm hp hstep).imp_right fun ⟨S', hS', hnone, h'⟩ => ⟨S', hS', ?_, h'⟩
      rw [hp] at hs
      obtain ⟨-, rest, -, hrest⟩ := hs.of_enqueue
      exact hrest.elim And.right fun h => absurd (hnone.symm.trans h.1) (by simp)
  | enqueued hfs hp => exact Or.inl (h.enqueued hS hfs hp)
  | callDequeue hfs hp => exact Or.inl (h.callDequeue hS hfs hp)
  | dequeue hp hstep =>
      refine (h.dequeue hS hterm hp hstep).imp_right fun ⟨S', hS', hnone, h'⟩ => ⟨S', hS', ?_, h'⟩
      rw [hp] at hs
      obtain ⟨-, rest, -, hrest⟩ := hs.of_dequeue
      exact hrest.elim And.right fun ⟨_, h, _⟩ => absurd (hnone.symm.trans h) (by simp)
  | dequeued hfs hp => exact Or.inl (h.dequeued hS hfs hp)
  | exec hfs hf he =>
      obtain ⟨S', hS', h'⟩ := h.exec hterm hfs hf he
      rw [hfs] at hs
      exact Or.inr ⟨S', hS', (hs.eq_of_top hf).2.trans hfs.symm, h'⟩

/-- **Every step is a step of the abstract pipeline, or nothing there.** -/
theorem Stands.step (h : P.Stands owner F S) (hS : P.Spsc owner S)
    (hstep : P.QueuedProgress F F') :
    P.Stands owner F' S ∨ ∃ S', P.Progress S S' ∧ P.Stands owner F' S' := by
  obtain ⟨hterm, t, granted, hstep⟩ := hstep
  exact (h.step_thread hS (h.terminated_eq ▸ hterm) hstep).imp_right
    fun ⟨S', hS', _, h'⟩ => ⟨S', ⟨t, hS'⟩, h'⟩

/-! ### Reachable states -/

/-- If all paths to a buffer lead through the same buffers, its queue has one producer
and one consumer. -/
theorem exists_spsc (huni : ∀ c, P.IsBuffer c → P.Uniform c) (priv : ι → σ) :
    ∃ owner : ι → Thread ι, ∀ bs S, P.Reachable priv bs S → P.Spsc owner S := by
  have hexists (c : ι) : ∃ t, ∀ l, P.IsBuffer c → P.Upstream c l → t = threadBelow l := by
    by_cases hl : ∃ l, P.Upstream c l
    · obtain ⟨l, hl⟩ := hl
      exact ⟨threadBelow l, fun l' hbuf hl' => by rw [huni c hbuf l l' hl hl']⟩
    · exact ⟨.pusher, fun l _ hl' => absurd ⟨l, hl'⟩ hl⟩
  choose owner hspscer using hexists
  refine ⟨owner, fun bs S h => { h.wellFormed with
    bottom := h.bottom
    producer := fun t c sdb hf => ?_
    consumer := fun t c hf => ?_ }⟩
  · obtain ⟨l, ⟨hbuf, hl⟩, -⟩ := h.wellFormed.located t _ hf
    rw [hspscer c l hbuf hl]
    exact (h.confined (huni c hbuf) hl).producer t _ hf rfl
  · rcases (h.bottom t).call_or_eq hf with hcall | ⟨hb, -⟩
    · exact hcall.elim
    · cases hb with
      | dequeue c i =>
          have hbuf := h.wellFormed.isBuffer (List.ne_nil_of_mem hf)
          obtain ⟨-, ⟨l, hl, -⟩, -⟩ := h.wellFormed.located _ _ hf
          rw [(h.confined (huni c hbuf) hl).base _ _ hf rfl, under, if_pos hbuf, threadBelow,
            List.getLast?_concat]

variable {priv : ι → σ} {bs : List (SharedDataBlock T)}

/-- **Every reachable state stands for a reachable state.** -/
theorem QueuedReachable.stands (hcap : ∀ c m, P.maxBlocks c = some m → m < 2 ^ 63)
    (hspsc : ∀ S, P.Reachable priv bs S → P.Spsc owner S) (h : P.QueuedReachable priv bs F) :
    ∃ S, P.Reachable priv bs S ∧ P.Stands owner F S := by
  have hrefines : Refines P.QueuedProgress P.Step fun F S =>
      P.Reachable priv bs S ∧ P.Stands owner F S := by
    rintro F F' S ⟨hS, hF⟩ hstep
    rcases hF.step (hspsc S hS) hstep with hF' | ⟨S', hprogress, hF'⟩
    · exact Or.inl ⟨hS, hF'⟩
    · exact Or.inr ⟨S', .thread hprogress, hS.tail (.thread hprogress), hF'⟩
  obtain ⟨S, -, hS⟩ := hrefines.reachable ⟨.refl, stands_init hcap owner priv bs⟩ h
  exact ⟨S, hS⟩

/-! ### The cells -/

/-- A thread in an `enqueue` is the producer, as the invariant of the buffer sees it. -/
theorem Stands.producer (h : P.Stands owner F S) {sdb : SharedDataBlock T} {p : EnqueuePoint}
    (hp : F.point t = .enqueue c sdb p) :
    t = owner c ∧ ∃ k n, Inv ((P.maxBlocks c).getD 0) k n (F.buffer c) (.enqueue enqueueMode sdb p)
      ((F.point (.worker c 0)).consumer c) (S.shared.queue c) := by
  have hs := h.stack t
  rw [hp] at hs
  obtain ⟨rfl, -⟩ := hs.of_enqueue
  obtain ⟨k, n, hinv⟩ := h.buffer c
  rw [hp, QueuePoint.producer, if_pos rfl] at hinv
  exact ⟨rfl, k, n, hinv⟩

/-- A thread in a `dequeue` is the consumer, as the invariant of the buffer sees it. -/
theorem Stands.consumer (h : P.Stands owner F S) {p : TakePoint (SharedDataBlock T)}
    (hp : F.point t = .dequeue c p) :
    t = .worker c 0 ∧ ∃ k n, Inv ((P.maxBlocks c).getD 0) k n (F.buffer c)
      ((F.point (owner c)).producer c) (.take dequeueMode p) (S.shared.queue c) := by
  have hs := h.stack t
  rw [hp] at hs
  obtain ⟨rfl, -⟩ := hs.of_dequeue
  obtain ⟨k, n, hinv⟩ := h.buffer c
  rw [hp, QueuePoint.consumer, if_pos rfl] at hinv
  exact ⟨rfl, k, n, hinv⟩

end Pipeline

/-- The cell of a buffer that a thread is about to access. -/
def QueuedState.access {ι V T σ : Type*} (F : QueuedState ι V T σ) (t : Thread ι) : Option (ι × ℕ) :=
  match F.point t with
  | .outside => none
  | .enqueue c sdb p => ((Producer.enqueue enqueueMode sdb p).access (F.buffer c)).map fun i => (c, i)
  | .dequeue c p => ((Consumer.take dequeueMode p).access (F.buffer c)).map fun i => (c, i)

/-- The queues are used as they must be. -/
structure QueuedState.Safe {ι V T σ : Type*} (F : QueuedState ι V T σ) : Prop where
  /-- One thread at a time enqueues, and one dequeues. -/
  producer : ∀ t u c sdb sdb' p p', F.point t = .enqueue c sdb p → F.point u = .enqueue c sdb' p' → t = u
  consumer : ∀ t u c p p', F.point t = .dequeue c p → F.point u = .dequeue c p' → t = u
  /-- No two threads are about to access one cell. -/
  race : ∀ t u a, F.access t = some a → F.access u = some a → t = u
  /-- A block is constructed in raw memory. -/
  raw : ∀ t c sdb, F.point t = .enqueue c sdb .construct →
    (F.buffer c).cells ((F.buffer c).nextSlot &&& (F.buffer c).mask) = .raw
  /-- Every access is defined. -/
  enqueue : ∀ t c sdb p, F.point t = .enqueue c sdb p →
    stepEnqueue enqueueMode sdb true (F.buffer c) p = none →
      (∃ r, p = .returning r) ∨ p = .acquire .semaWait ∧ (F.buffer c).slots.sema = 0
  dequeue : ∀ t c p, F.point t = .dequeue c p → stepTake dequeueMode true (F.buffer c) p = none →
    (∃ r, p = .returning r) ∨ p = .acquire .semaWait ∧ (F.buffer c).items.sema = 0

namespace Pipeline

variable {ι V T σ : Type*} [DecidableEq ι] {P : Pipeline ι V T σ} {owner : ι → Thread ι}
  {F : QueuedState ι V T σ} {S : State ι V T σ} {t u : Thread ι} {priv : ι → σ}
  {bs : List (SharedDataBlock T)}

/-- The producer and the consumer of a buffer are about to access different cells. -/
theorem Stands.access_ne (h : P.Stands owner F S) {c : ι} {sdb : SharedDataBlock T} {p : EnqueuePoint}
    {p' : TakePoint (SharedDataBlock T)} (ht : F.point t = .enqueue c sdb p)
    (hu : F.point u = .dequeue c p') {i : ℕ}
    (hi : (Producer.enqueue enqueueMode sdb p).access (F.buffer c) = some i) :
    (Consumer.take dequeueMode p').access (F.buffer c) ≠ some i := by
  intro hj
  obtain ⟨rfl, k, n, hinv⟩ := h.producer ht
  obtain ⟨rfl, -⟩ := h.consumer hu
  rw [hu, QueuePoint.consumer, if_pos rfl] at hinv
  obtain ⟨hlt, hmod, -⟩ := hinv.producer_access hi
  obtain ⟨hne, hmod', -⟩ := hinv.consumer_access hj
  exact hne (List.length_eq_zero_iff.mp
    (Masks.add_mod_inj hlt (Nat.two_pow_pos k) (hmod.symm.trans hmod')))

/-- **What stands for a state over queues is safe**, by the invariants of its buffers. -/
theorem Stands.safe (h : P.Stands owner F S) : F.Safe where
  producer t u c sdb sdb' p p' ht hu := (h.producer ht).1.trans (h.producer hu).1.symm
  consumer t u c p p' ht hu := (h.consumer ht).1.trans (h.consumer hu).1.symm
  race t u a ha ha' := by
    rw [QueuedState.access] at ha ha'
    split at ha <;> rename_i ht
    · exact absurd ha (by simp)
    · rename_i c sdb p
      obtain ⟨i, hi, rfl⟩ := Option.map_eq_some_iff.mp ha
      split at ha' <;> rename_i hu
      · exact absurd ha' (by simp)
      · obtain ⟨j, -, heq⟩ := Option.map_eq_some_iff.mp ha'
        obtain ⟨rfl, -⟩ := Prod.mk.inj heq
        exact (h.producer ht).1.trans (h.producer hu).1.symm
      · obtain ⟨j, hj, heq⟩ := Option.map_eq_some_iff.mp ha'
        obtain ⟨rfl, rfl⟩ := Prod.mk.inj heq
        exact absurd hj (h.access_ne ht hu hi)
    · rename_i c p
      obtain ⟨i, hi, rfl⟩ := Option.map_eq_some_iff.mp ha
      split at ha' <;> rename_i hu
      · exact absurd ha' (by simp)
      · obtain ⟨j, hj, heq⟩ := Option.map_eq_some_iff.mp ha'
        obtain ⟨rfl, rfl⟩ := Prod.mk.inj heq
        exact absurd hi (h.access_ne hu ht hj)
      · obtain ⟨j, -, heq⟩ := Option.map_eq_some_iff.mp ha'
        obtain ⟨rfl, -⟩ := Prod.mk.inj heq
        exact (h.consumer ht).1.trans (h.consumer hu).1.symm
  raw t c sdb ht := by
    obtain ⟨-, k, n, hinv⟩ := h.producer ht
    exact (hinv.producer_access rfl).2.2
  enqueue t c sdb p _ hnone := stepEnqueue_eq_none hnone
  dequeue t c p ht hnone := by
    obtain ⟨-, k, n, hinv⟩ := h.consumer ht
    exact hinv.stepTake_eq_none hnone

/-- **The queues of a pipeline are used as they must be**, in every reachable state, if
all paths to a buffer lead through the same buffers: one thread enqueues and one
dequeues, no two threads access one cell, and every access is defined. -/
theorem QueuedReachable.queues_safe (hcap : ∀ c m, P.maxBlocks c = some m → m < 2 ^ 63)
    (huni : ∀ c, P.IsBuffer c → P.Uniform c) (h : P.QueuedReachable priv bs F) : F.Safe := by
  obtain ⟨owner, hspsc⟩ := exists_spsc huni priv
  obtain ⟨S, -, hS⟩ := h.stands hcap (hspsc bs)
  exact hS.safe

/-- The capacities of the tree of four can be constructed. -/
theorem maxBlocks_bufferedTree (c : TreeElement) (m : ℕ) (hm : bufferedTree.maxBlocks c = some m) :
    1 ≤ m ∧ m < 2 ^ 63 := by
  cases c with
  | buffer =>
      obtain rfl := Option.some.inj (show some 1 = some m from hm)
      exact ⟨le_rfl, by decide⟩
  | _ => exact absurd (show none = some m from hm) (by simp)

/-- The buffer in the tree of four. -/
theorem queues_safe_bufferedTree :
    bufferedTree.IsBuffer .buffer ∧
      ∀ F, bufferedTree.QueuedReachable (fun _ => 0) [⟨some 1, none⟩, ⟨none, some {}⟩] F → F.Safe :=
  ⟨by decide, fun _ h => h.queues_safe (fun c m hm => (maxBlocks_bufferedTree c m hm).2)
    fun c _ => isTree_bufferedTree.uniform c⟩

end Pipeline
end CppDataStream
