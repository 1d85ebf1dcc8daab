/-
# Processor graphs and what can be observed of a run

`include/cppdatastream/DataStream.hpp`, lines 235-290.  A `StreamProcessor` has a
vector of visitors and a vector of downstream elements, filled by `connect` in
order, a pure virtual `processData` and the flag `_had_error`.  Both vectors hold
elements of `IN_T` and are handed `SharedDataBlock<OUT_T>`, so a graph that
compiles has one block type `T`.  A graph gives, for every processor `n : ι`, its
`processData` on the private state `σ` of the derived class, and the two vectors;
the same element may be connected any number of times.

`Event` records what an execution does, in order, and the functions below read
single streams off such a log: what a processor was given, what it emitted, what
went through one visitor connection.
-/

import CppDataStream.Block
import Mathlib.Logic.Function.Basic
import Mathlib.Data.List.Basic

namespace CppDataStream

/-- Who calls `pushData`: the application, or the loop over `processors` of
element `m` at position `k`. -/
inductive Source (ι : Type*) where
  | external
  | connection (m : ι) (k : ℕ)
  deriving DecidableEq

/-- What an execution does to element `n`.  The last three belong to
`StreamThreadedBuffer`. -/
inductive Event (ι V T : Type*) where
  /-- `pushData` of `n` is called. -/
  | call (src : Source ι) (n : ι) (sdb : SharedDataBlock T)
  /-- `StreamProcessor::pushData` returns at its `_had_error` test. -/
  | skip (n : ι) (sdb : SharedDataBlock T)
  /-- `processData(sdb)` returns `output`. -/
  | process (n : ι) (sdb output : SharedDataBlock T)
  /-- `visitData(output)` is called on the visitor `v` at position `k`. -/
  | visit (n : ι) (k : ℕ) (v : V) (output : SharedDataBlock T)
  /-- `wait_enqueue_timed` succeeds. -/
  | enqueue (n : ι) (sdb : SharedDataBlock T)
  /-- `wait_dequeue` returns. -/
  | dequeue (n : ι) (sdb : SharedDataBlock T)
  /-- `run` calls `StreamProcessor::pushData`. -/
  | deliver (n : ι) (sdb : SharedDataBlock T)
  deriving DecidableEq

/-- A graph of stream processors. -/
structure Graph (ι V T σ : Type*) where
  processData : ι → σ → SharedDataBlock T → σ × SharedDataBlock T
  visitors : ι → List V
  processors : ι → List ι

namespace Graph

variable {ι V T σ : Type*}

/-- The connection at position `k` of `m` leads to `n`. -/
def Conn (G : Graph ι V T σ) (m : ι) (k : ℕ) (n : ι) : Prop := (G.processors m)[k]? = some n

/-- `n` is connected to `m`. -/
def Adj (G : Graph ι V T σ) (m n : ι) : Prop := n ∈ G.processors m

/-- A connection makes two processors adjacent. -/
theorem Conn.adj {G : Graph ι V T σ} {m n : ι} {k : ℕ} (h : G.Conn m k n) : G.Adj m n :=
  List.mem_of_getElem? h

/-- `connect` of a `StreamPushable`: the new element comes last. -/
def connect [DecidableEq ι] (G : Graph ι V T σ) (m n : ι) : Graph ι V T σ :=
  { G with processors := Function.update G.processors m (G.processors m ++ [n]) }

/-- `connect` of a `StreamVisitor`. -/
def connectVisitor [DecidableEq ι] (G : Graph ι V T σ) (m : ι) (v : V) : Graph ι V T σ :=
  { G with visitors := Function.update G.visitors m (G.visitors m ++ [v]) }

/-- A chain of `connect` calls fills the vector of `m` in call order. -/
theorem processors_foldl_connect [DecidableEq ι] (G : Graph ι V T σ) (m : ι) (ns : List ι) :
    (ns.foldl (fun G n => G.connect m n) G).processors m = G.processors m ++ ns := by
  induction ns generalizing G with
  | nil => simp
  | cons n ns ih => rw [List.foldl_cons, ih]; simp [connect]

end Graph

/-! ### Streams of a log -/

section Log

variable {ι V T : Type*} [DecidableEq ι]

/-- The blocks `pushData` of `n` was called with. -/
def inputs (n : ι) (log : List (Event ι V T)) : List (SharedDataBlock T) :=
  log.filterMap fun
    | .call _ n' sdb => if n' = n then some sdb else none
    | _ => none

/-- Those among them that came from `src`. -/
def inputsFrom (n : ι) (src : Source ι) (log : List (Event ι V T)) : List (SharedDataBlock T) :=
  log.filterMap fun
    | .call src' n' sdb => if n' = n ∧ src' = src then some sdb else none
    | _ => none

/-- The calls of `pushData` of `n`: who called, and the block. -/
def callsOf (n : ι) (log : List (Event ι V T)) : List (Source ι × SharedDataBlock T) :=
  log.filterMap fun
    | .call src n' sdb => if n' = n then some (src, sdb) else none
    | _ => none

/-- The blocks that have passed the `_had_error` test of `n`, one way or the
other. -/
def taken (n : ι) (log : List (Event ι V T)) : List (SharedDataBlock T) :=
  log.filterMap fun
    | .skip n' sdb => if n' = n then some sdb else none
    | .process n' sdb _ => if n' = n then some sdb else none
    | _ => none

/-- The blocks `n` has emitted: the results of its `processData`. -/
def outputs (n : ι) (log : List (Event ι V T)) : List (SharedDataBlock T) :=
  log.filterMap fun
    | .process n' _ output => if n' = n then some output else none
    | _ => none

/-- The blocks passed through visitor connection `k` of `n`. -/
def seen (n : ι) (k : ℕ) (log : List (Event ι V T)) : List (SharedDataBlock T) :=
  log.filterMap fun
    | .visit n' k' _ output => if n' = n ∧ k' = k then some output else none
    | _ => none

/-- The blocks the visitor `v` was called with, through whichever connection. -/
def seenBy {ι V T : Type*} [DecidableEq V] (v : V) (log : List (Event ι V T)) :
    List (SharedDataBlock T) :=
  log.filterMap fun
    | .visit _ _ v' output => if v' = v then some output else none
    | _ => none

/-- The blocks enqueued in buffer `n`. -/
def enqueued (n : ι) (log : List (Event ι V T)) : List (SharedDataBlock T) :=
  log.filterMap fun
    | .enqueue n' sdb => if n' = n then some sdb else none
    | _ => none

/-- The blocks dequeued from buffer `n`. -/
def dequeued (n : ι) (log : List (Event ι V T)) : List (SharedDataBlock T) :=
  log.filterMap fun
    | .dequeue n' sdb => if n' = n then some sdb else none
    | _ => none

/-- The blocks `run` of buffer `n` has handed to `StreamProcessor::pushData`. -/
def delivered (n : ι) (log : List (Event ι V T)) : List (SharedDataBlock T) :=
  log.filterMap fun
    | .deliver n' sdb => if n' = n then some sdb else none
    | _ => none

variable (n : ι) (k : ℕ) (src : Source ι) (log log' : List (Event ι V T))

/-- The blocks given in two logs are those of the first, then those of the second. -/
@[simp] theorem inputs_append : inputs n (log ++ log') = inputs n log ++ inputs n log' :=
  List.filterMap_append

/-- The same of the blocks given through one connection. -/
@[simp] theorem inputsFrom_append :
    inputsFrom n src (log ++ log') = inputsFrom n src log ++ inputsFrom n src log' :=
  List.filterMap_append

/-- The same of the blocks taken past the error test. -/
@[simp] theorem taken_append : taken n (log ++ log') = taken n log ++ taken n log' :=
  List.filterMap_append

/-- The same of the blocks emitted. -/
@[simp] theorem outputs_append : outputs n (log ++ log') = outputs n log ++ outputs n log' :=
  List.filterMap_append

/-- The same of the blocks that a visitor connection carries. -/
@[simp] theorem seen_append : seen n k (log ++ log') = seen n k log ++ seen n k log' :=
  List.filterMap_append

omit [DecidableEq ι] in
/-- The same of the blocks that a visitor sees. -/
@[simp] theorem seenBy_append [DecidableEq V] (v : V) :
    seenBy v (log ++ log') = seenBy v log ++ seenBy v log' :=
  List.filterMap_append

/-- The same of the blocks enqueued. -/
@[simp] theorem enqueued_append : enqueued n (log ++ log') = enqueued n log ++ enqueued n log' :=
  List.filterMap_append

/-- The same of the blocks dequeued. -/
@[simp] theorem dequeued_append : dequeued n (log ++ log') = dequeued n log ++ dequeued n log' :=
  List.filterMap_append

/-- The same of the blocks delivered. -/
@[simp] theorem delivered_append :
    delivered n (log ++ log') = delivered n log ++ delivered n log' :=
  List.filterMap_append

variable {n src log} in
/-- What an element is called with comes from one source. -/
theorem inputs_eq_inputsFrom (h : ∀ src' b, .call src' n b ∈ log → src' = src) :
    inputs n log = inputsFrom n src log := by
  refine List.filterMap_congr fun e he => ?_
  cases e with
  | call src' n' b =>
      by_cases hn : n' = n
      · subst hn
        simp [h src' b he]
      · simp [hn]
  | _ => rfl

end Log

end CppDataStream
