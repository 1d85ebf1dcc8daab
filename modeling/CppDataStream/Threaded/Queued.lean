/-
# Pipelines over the circular buffer

`include/cppdatastream/DataStream.hpp`, lines 341-371.  In `Threaded.Machine` the queue
of a buffer is a list, and one attempt to enqueue and `wait_dequeue` are one step each.
Here every `StreamThreadedBuffer` has a `BlockingReaderWriterCircularBuffer`, and a
thread runs `wait_enqueue_timed` and `wait_dequeue` on it step by step (`stepEnqueue`,
`stepTake`), interleaved with the steps of all other threads.  The frames and all steps
that are not of a queue are those of `Threaded.Machine`.

`wait_enqueue_timed` is called with one millisecond, again and again until it returns
`true`; the kernel may refuse to wait at any moment (`granted`).  The member `queue` of
the shared state is not used, and the log has no events of queues.

That these pipelines refine those of `Threaded.Machine` is shown in
`Threaded.QueuedSimulation`, and that they complete in `Threaded.QueuedProgress`.
-/

import CppDataStream.Threaded.Machine
import CppDataStream.Moodycamel.BoundedFifo

namespace CppDataStream

open Moodycamel Linearizability BoundedQueue

/-- Where a thread is in an operation of a queue, with the operation's arguments. -/
inductive QueuePoint (ι T : Type*) where
  | outside
  | enqueue (c : ι) (sdb : SharedDataBlock T) (p : EnqueuePoint)
  | dequeue (c : ι) (p : TakePoint (SharedDataBlock T))

/-- The state of a run over the circular buffers. -/
structure QueuedState (ι V T σ : Type*) where
  shared : Shared ι T σ
  buffer : ι → CircularBuffer (SharedDataBlock T)
  stack : Thread ι → List (Frame ι T)
  point : Thread ι → QueuePoint ι T
  log : List (Event ι V T)

/-- `std::chrono::milliseconds(1)` in microseconds. -/
def enqueueMode : Mode := .timed 1000

def dequeueMode : Take := .dequeue .wait

namespace Frame

variable {ι T : Type*}

/-- The frame is in an operation of a queue. -/
def OfQueue : Frame ι T → Prop
  | .enqueue .. | .dequeue _ => True
  | _ => False

end Frame

namespace Pipeline

variable {ι V T σ : Type*} [DecidableEq ι]

/-- A step of the thread `t`. -/
inductive QueuedStep (P : Pipeline ι V T σ) (t : Thread ι) (granted : Bool)
    (F : QueuedState ι V T σ) : QueuedState ι V T σ → Prop
  | callEnqueue {c sdb rest} (h : F.stack t = .enqueue c sdb :: rest) (hp : F.point t = .outside) :
      QueuedStep P t granted F
        { F with point := Function.update F.point t (.enqueue c sdb (.acquire .tryWait)) }
  | enqueue {c sdb p b' p'} (hp : F.point t = .enqueue c sdb p)
      (hstep : stepEnqueue enqueueMode sdb granted (F.buffer c) p = some (b', p')) :
      QueuedStep P t granted F
        { F with
          buffer := Function.update F.buffer c b'
          point := Function.update F.point t (.enqueue c sdb p') }
  | enqueued {c sdb rest b} (h : F.stack t = .enqueue c sdb :: rest)
      (hp : F.point t = .enqueue c sdb (.returning b)) :
      QueuedStep P t granted F
        { F with
          stack := Function.update F.stack t (if b then rest else F.stack t)
          point := Function.update F.point t .outside }
  | callDequeue {c rest} (h : F.stack t = .dequeue c :: rest) (hp : F.point t = .outside) :
      QueuedStep P t granted F
        { F with point := Function.update F.point t (.dequeue c (.acquire .tryWait)) }
  | dequeue {c p b' p'} (hp : F.point t = .dequeue c p)
      (hstep : stepTake dequeueMode granted (F.buffer c) p = some (b', p')) :
      QueuedStep P t granted F
        { F with
          buffer := Function.update F.buffer c b'
          point := Function.update F.point t (.dequeue c p') }
  | dequeued {c rest sdb} (h : F.stack t = .dequeue c :: rest)
      (hp : F.point t = .dequeue c (.returning (.value sdb))) :
      QueuedStep P t granted F
        { F with
          stack := Function.update F.stack t (.deliver c sdb :: rest)
          point := Function.update F.point t .outside }
  | exec {f rest e} (h : F.stack t = f :: rest) (hf : ¬ f.OfQueue) (he : P.exec F.shared f = some e) :
      QueuedStep P t granted F
        { F with
          shared := e.shared
          stack := spawn (Function.update F.stack t (e.frames ++ rest)) e.spawned
          log := F.log ++ e.events }

/-- A step of the system. -/
def QueuedProgress (P : Pipeline ι V T σ) (F F' : QueuedState ι V T σ) : Prop :=
  F.shared.terminated = false ∧ ∃ t granted, P.QueuedStep t granted F F'

/-- Before the blocks `bs` are pushed at the entry of a fresh pipeline. -/
def queuedInit (P : Pipeline ι V T σ) (priv : ι → σ) (bs : List (SharedDataBlock T)) :
    QueuedState ι V T σ where
  shared := (init priv bs : State ι V T σ).shared
  buffer c := .init ((P.maxBlocks c).getD 0)
  stack := (init priv bs : State ι V T σ).stack
  point _ := .outside
  log := []

/-- The states of all interleavings. -/
def QueuedReachable (P : Pipeline ι V T σ) (priv : ι → σ) (bs : List (SharedDataBlock T)) :
    QueuedState ι V T σ → Prop :=
  Relation.ReflTransGen P.QueuedProgress (P.queuedInit priv bs)

end Pipeline

end CppDataStream
