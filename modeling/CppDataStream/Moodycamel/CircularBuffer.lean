/-
# `BlockingReaderWriterCircularBuffer`

`include/cppdatastream/moodycamel/readerwritercircularbuffer.h`.  One thread enqueues,
one dequeues, any thread may ask for `size_approx`.  A step of a thread runs up to the
next access of shared state: one step of a semaphore, the construction of an element in
its cell, the move out of a cell, the destruction of an element, the load in
`availableApprox`.  `nextSlot` belongs to the producer and `nextItem` to the consumer.

A cell is raw memory, a living element, or an element that was moved from.  A step is
`none` where the thread has returned or the kernel lets it wait, and where C++ leaves
the behaviour undefined: a read or a destruction of what is no element.  The indices
wrap at `2 ^ 64`.  Left out: that `malloc` fails or that its argument overflows, and an
element type whose operations throw.

The answers are those of a bounded queue (`BoundedQueue.Ret`): `refused` for `false` and
`nullptr`, `value v` for an item, also for one that `peek` points to.
-/

import CppDataStream.Library.BoundedQueue
import CppDataStream.Library.Ring
import CppDataStream.Moodycamel.LightweightSemaphore

namespace CppDataStream
namespace Moodycamel

open Linearizability BoundedQueue

variable {α : Type*}

/-! ### The buffer -/

inductive Cell (α : Type*) where
  | raw
  | live (v : α)
  | moved

/-- The value that a read or a move of an element finds. -/
def Cell.value : Cell α → Option α
  | .live v => some v
  | .raw | .moved => none

/-- The destruction of an element. -/
def Cell.destroy : Cell α → Option (Cell α)
  | .live _ | .moved => some .raw
  | .raw => none

/-- The members; `cells` is the memory at `data`. -/
structure CircularBuffer (α : Type*) where
  maxcap : ℕ
  mask : ℕ
  cells : ℕ → Cell α
  slots : LightweightSemaphore
  items : LightweightSemaphore
  nextSlot : ℕ
  nextItem : ℕ

/-- The mask that the constructor computes, in `size_t` arithmetic. -/
def roundMask (capacity : ℕ) : ℕ :=
  let c := if capacity = 0 then 2 ^ 64 - 1 else capacity - 1
  let c := c ||| c >>> 1
  let c := c ||| c >>> 2
  let c := c ||| c >>> 4
  -- the values of `i` in the loop
  [1, 2, 4].foldl (fun c i => c ||| c >>> (i <<< 3)) c

/-- The constructor, which casts the capacity to `ssize_t`. -/
def CircularBuffer.init (capacity : ℕ) : CircularBuffer α where
  maxcap := capacity
  mask := roundMask capacity
  cells _ := .raw
  slots := .init (Int.bmod capacity (2 ^ 64))
  items := .init 0
  nextSlot := 0
  nextItem := 0

/-- Which of `try_`, `wait_` and `wait_..._timed` was called. -/
inductive Mode where
  | try
  | wait
  | timed (usecs : ℤ)
  deriving DecidableEq, Repr

/-- The call of the semaphore. -/
def Mode.acquire : Mode → Acquire
  | .try => .tryWait
  | .wait => .wait (-1)
  | .timed usecs => .wait usecs

/-- The call is repeated until it returns `true`. -/
def Mode.repeats : Mode → Bool
  | .wait => true
  | .try | .timed _ => false

/-! ### The producer -/

/-- A program point of `try_enqueue`, `wait_enqueue` and `wait_enqueue_timed`. -/
inductive EnqueuePoint where
  /-- In `slots_->tryWait()` or `slots_->wait`. -/
  | acquire (w : WaitPoint)
  /-- `inner_enqueue`: before the construction, and in `items->signal()`. -/
  | construct
  | signal (g : SignalPoint)
  | returning (b : Bool)

/-- One step of the producer. -/
def stepEnqueue (mode : Mode) (item : α) (granted : Bool) (b : CircularBuffer α) :
    EnqueuePoint → Option (CircularBuffer α × EnqueuePoint)
  | .acquire (.returned true) => some (b, .construct)
  | .acquire (.returned false) =>
      some (b, if mode.repeats then .acquire .tryWait else .returning false)
  | .acquire w =>
      (b.slots.stepWait mode.acquire granted w).map fun p => ({ b with slots := p.1 }, .acquire p.2)
  | .construct =>
      some ({ b with
        nextSlot := (b.nextSlot + 1) % 2 ^ 64
        cells := Function.update b.cells (b.nextSlot &&& b.mask) (.live item) }, .signal .add)
  | .signal .returned => some (b, .returning true)
  | .signal g => (b.items.stepSignal 1 g).map fun p => ({ b with items := p.1 }, .signal p.2)
  | .returning _ => none

/-! ### The consumer -/

/-- What takes an element: `try_dequeue`, `wait_dequeue` and `wait_dequeue_timed`, or
`try_pop`. -/
inductive Take where
  | dequeue (mode : Mode)
  | pop

def Take.mode : Take → Mode
  | .dequeue mode => mode
  | .pop => .try

/-- A program point of what takes an element. -/
inductive TakePoint (α : Type*) where
  /-- In `items->tryWait()` or `items->wait`. -/
  | acquire (w : WaitPoint)
  /-- `inner_dequeue` before the move, `inner_pop` before the destruction. -/
  | take
  /-- `inner_dequeue` before the destruction of element `i`. -/
  | destroy (i : ℕ) (item : α)
  /-- In `slots_->signal()`, with what is to be returned. -/
  | signal (r : Ret α) (g : SignalPoint)
  | returning (r : Ret α)

/-- One step of the consumer in what takes an element. -/
def stepTake (call : Take) (granted : Bool) (b : CircularBuffer α) :
    TakePoint α → Option (CircularBuffer α × TakePoint α)
  | .acquire (.returned true) => some (b, .take)
  | .acquire (.returned false) =>
      some (b, if call.mode.repeats then .acquire .tryWait else .returning .refused)
  | .acquire w =>
      (b.items.stepWait call.mode.acquire granted w).map fun p =>
        ({ b with items := p.1 }, .acquire p.2)
  | .take =>
      match call with
      | .dequeue _ =>
          (b.cells (b.nextItem &&& b.mask)).value.map fun v =>
            ({ b with
              nextItem := (b.nextItem + 1) % 2 ^ 64
              cells := Function.update b.cells (b.nextItem &&& b.mask) .moved }, .destroy b.nextItem v)
      | .pop =>
          (b.cells (b.nextItem &&& b.mask)).destroy.map fun c =>
            ({ b with
              nextItem := (b.nextItem + 1) % 2 ^ 64
              cells := Function.update b.cells (b.nextItem &&& b.mask) c }, .signal .ok .add)
  | .destroy i item =>
      (b.cells (i &&& b.mask)).destroy.map fun c =>
        ({ b with cells := Function.update b.cells (i &&& b.mask) c }, .signal (.value item) .add)
  | .signal r .returned => some (b, .returning r)
  | .signal r g => (b.slots.stepSignal 1 g).map fun p => ({ b with slots := p.1 }, .signal r p.2)
  | .returning _ => none

/-- A program point of `peek`: before the load, and before the pointer is followed. -/
inductive PeekPoint (α : Type*) where
  | load
  | read
  | returning (r : Ret α)

/-- One step of the consumer in `peek`. -/
def stepPeek (b : CircularBuffer α) : PeekPoint α → Option (PeekPoint α)
  | .load => some (if b.items.availableApprox = 0 then .returning .refused else .read)
  | .read => (b.cells (b.nextItem &&& b.mask)).value.map fun v => .returning (.value v)
  | .returning _ => none

/-! ### The threads -/

/-- Where the producer is. -/
inductive Producer (α : Type*) where
  | idle
  | enqueue (mode : Mode) (item : α) (p : EnqueuePoint)

/-- Where the consumer is. -/
inductive Consumer (α : Type*) where
  | idle
  | take (call : Take) (p : TakePoint α)
  | peek (p : PeekPoint α)

inductive Party where
  | producer
  | consumer
  | observer (i : ℕ)
  deriving DecidableEq

/-- A buffer and its threads. -/
structure System (α : Type*) where
  buffer : CircularBuffer α
  producer : Producer α
  consumer : Consumer α
  observer : ℕ → LightweightSemaphore.Observer

/-- A new buffer. -/
def System.init (capacity : ℕ) : System α := ⟨.init capacity, .idle, .idle, fun _ => .idle⟩

/-- The operation of the bounded queue that is called. -/
def Take.op : Take → Op α
  | .dequeue mode => .pull mode.repeats
  | .pop => .drop

/-- A step of one thread. -/
inductive System.Step : System α → Option (Visible Party (Op α) (Ret α)) → System α → Prop
  | callEnqueue {S : System α} (mode item) (h : S.producer = .idle) :
      Step S (some (.call .producer (.push item mode.repeats)))
        { S with producer := .enqueue mode item (.acquire .tryWait) }
  | enqueue {S : System α} {mode item p b' p'} (granted) (h : S.producer = .enqueue mode item p)
      (hstep : stepEnqueue mode item granted S.buffer p = some (b', p')) :
      Step S none { S with buffer := b', producer := .enqueue mode item p' }
  | answerEnqueue {S : System α} {mode item b} (h : S.producer = .enqueue mode item (.returning b)) :
      Step S (some (.answer .producer (if b then .ok else .refused))) { S with producer := .idle }
  | callTake {S : System α} (call) (h : S.consumer = .idle) :
      Step S (some (.call .consumer call.op)) { S with consumer := .take call (.acquire .tryWait) }
  | take {S : System α} {call p b' p'} (granted) (h : S.consumer = .take call p)
      (hstep : stepTake call granted S.buffer p = some (b', p')) :
      Step S none { S with buffer := b', consumer := .take call p' }
  | answerTake {S : System α} {call r} (h : S.consumer = .take call (.returning r)) :
      Step S (some (.answer .consumer r)) { S with consumer := .idle }
  | callPeek {S : System α} (h : S.consumer = .idle) :
      Step S (some (.call .consumer .peek)) { S with consumer := .peek .load }
  | peek {S : System α} {p p'} (h : S.consumer = .peek p) (hstep : stepPeek S.buffer p = some p') :
      Step S none { S with consumer := .peek p' }
  | answerPeek {S : System α} {r} (h : S.consumer = .peek (.returning r)) :
      Step S (some (.answer .consumer r)) { S with consumer := .idle }
  | callSize {S : System α} (i) (h : S.observer i = .idle) :
      Step S (some (.call (.observer i) .size))
        { S with observer := Function.update S.observer i .load }
  | load {S : System α} (i) (h : S.observer i = .load) :
      Step S none
        { S with observer := Function.update S.observer i (.loaded S.buffer.items.availableApprox) }
  | answerSize {S : System α} (i n) (h : S.observer i = .loaded n) :
      Step S (some (.answer (.observer i) (.size n)))
        { S with observer := Function.update S.observer i .idle }

/-! ### The destructor -/

/-- The loop of the destructor: `n` elements from `nextItem + i` on. -/
def CircularBuffer.destroyFrom (b : CircularBuffer α) : ℕ → ℕ → Option (CircularBuffer α)
  | _, 0 => some b
  | i, n + 1 =>
      let j := (b.nextItem + i) % 2 ^ 64 &&& b.mask
      (b.cells j).destroy.bind fun c =>
        ({ b with cells := Function.update b.cells j c } : CircularBuffer α).destroyFrom (i + 1) n

/-- The destructor, up to the `free` of the memory. -/
def CircularBuffer.destroy (b : CircularBuffer α) : Option (CircularBuffer α) :=
  b.destroyFrom 0 b.items.availableApprox

end Moodycamel
end CppDataStream
