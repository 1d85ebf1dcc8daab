/-
# Blocks: `SharedDataBlock`, `WritableDataBlock` and `EopStatus`

`include/cppdatastream/DataStream.hpp`, lines 130-212.  A block carries a shared
pointer to its data, which may be null, and an optional end-of-processing (EOP)
status; it may carry both or neither.  The pipeline itself looks at the status
only: `StreamProcessor::pushData` tests whether an output is an EOP block of type
`EopError`, `StreamThreadedBuffer::run` and the visitors whether a block is an
EOP block at all.

Copies of a block share its data, but nothing writes to shared data: `setData` makes
the pointer of one block point to a new object.  So a block is a value here, and
copying one, assigning it and slicing a `WritableDataBlock` are all the same.
`build` runs a program of these operations; every block is built by one
(`exists_build`).
-/

import Mathlib.Logic.Function.Basic
import Mathlib.Tactic.Common

namespace CppDataStream

/-- `enum EopStatusType`. -/
inductive EopStatusType where
  | EopSuccess
  | EopCancelled
  | EopError
  deriving DecidableEq, Repr

/-- `struct EopStatus`. -/
structure EopStatus where
  type : EopStatusType := .EopSuccess
  message : String := ""
  deriving DecidableEq, Repr

/-- `class SharedDataBlock`: `none` is the null pointer, respectively the empty
`std::optional`. -/
structure SharedDataBlock (T : Type*) where
  data : Option T := none
  eop : Option EopStatus := none
  deriving DecidableEq, Repr

namespace SharedDataBlock

variable {T : Type*}

/-- `isEndOfProcessing`. -/
def isEndOfProcessing (sdb : SharedDataBlock T) : Bool := sdb.eop.isSome

/-- `eopStatus`. -/
def eopStatus (sdb : SharedDataBlock T) : Option EopStatus := sdb.eop

/-- The error test of `StreamProcessor::pushData`:
`output.isEndOfProcessing() && output.eopStatus().value().type == EopError`. -/
def isEopError (output : SharedDataBlock T) : Bool :=
  output.isEndOfProcessing && output.eopStatus.any fun eop => eop.type == .EopError

/-- An error block is an EOP block. -/
theorem isEndOfProcessing_of_isEopError {sdb : SharedDataBlock T} (h : sdb.isEopError = true) :
    sdb.isEndOfProcessing = true := by
  rw [isEopError, Bool.and_eq_true] at h
  exact h.1

/-- So a block that is no EOP block is no error block. -/
theorem isEopError_eq_false {sdb : SharedDataBlock T} (h : sdb.isEndOfProcessing = false) :
    sdb.isEopError = false := by
  rw [isEopError, h, Bool.false_and]

/-- An end-of-processing block has a status. -/
theorem exists_eop {sdb : SharedDataBlock T} (h : sdb.isEndOfProcessing = true) :
    ∃ eop, sdb.eop = some eop :=
  Option.isSome_iff_exists.mp h

/-- `isEmpty`, which returns `_data.operator bool()`. -/
def isEmpty (sdb : SharedDataBlock T) : Bool := sdb.data.isSome

/-- `data`, which returns `*_data`; `none` is the dereference of a null pointer. -/
def derefData (sdb : SharedDataBlock T) : Option T := sdb.data

end SharedDataBlock

/-- `class WritableDataBlock`. -/
structure WritableDataBlock (T : Type*) extends SharedDataBlock T

namespace WritableDataBlock

variable {T : Type*}

/-- `setEndOfProcessing`. -/
def setEndOfProcessing (wb : WritableDataBlock T) (eop : EopStatus) : WritableDataBlock T :=
  { wb with eop := some eop }

/-- `setData`: a new shared pointer to a copy of `data`. -/
def setData (wb : WritableDataBlock T) (data : T) : WritableDataBlock T :=
  { wb with data := some data }

/-- `asShared`. -/
def asShared (wb : WritableDataBlock T) : SharedDataBlock T := wb.toSharedDataBlock

/-- `createEos`. -/
def createEos (eop : EopStatus) : WritableDataBlock T := setEndOfProcessing {} eop

end WritableDataBlock

/-! ### Programs that build blocks -/

/-- The operations on variables of the two classes.  A copy is a copy construction or
an assignment. -/
inductive BlockOp (T : Type*) where
  /-- `WritableDataBlock<T> x;` -/
  | construct (x : ℕ)
  /-- `SharedDataBlock<T> s;` -/
  | constructShared (s : ℕ)
  /-- `x.setData(data);` -/
  | setData (x : ℕ) (data : T)
  /-- `x.setEndOfProcessing(eop);` -/
  | setEndOfProcessing (x : ℕ) (eop : EopStatus)
  /-- `x = WritableDataBlock<T>::createEos(eop);` -/
  | createEos (x : ℕ) (eop : EopStatus)
  /-- `x = y;` -/
  | copy (x y : ℕ)
  /-- `s = r;` -/
  | copyShared (s r : ℕ)
  /-- `s = x.asShared();` or `s = x;` -/
  | asShared (s x : ℕ)

/-- The values of the variables. -/
structure BlockVars (T : Type*) where
  writable : ℕ → WritableDataBlock T
  shared : ℕ → SharedDataBlock T

/-- A variable that is passed to `pushData`. -/
inductive BlockVar where
  | writable (x : ℕ)
  | shared (s : ℕ)

namespace BlockVars

variable {T : Type*}

def exec (vars : BlockVars T) : BlockOp T → BlockVars T
  | .construct x => { vars with writable := Function.update vars.writable x {} }
  | .constructShared s => { vars with shared := Function.update vars.shared s {} }
  | .setData x data =>
      { vars with writable := Function.update vars.writable x ((vars.writable x).setData data) }
  | .setEndOfProcessing x eop =>
      { vars with
        writable := Function.update vars.writable x ((vars.writable x).setEndOfProcessing eop) }
  | .createEos x eop =>
      { vars with writable := Function.update vars.writable x (.createEos eop) }
  | .copy x y => { vars with writable := Function.update vars.writable x (vars.writable y) }
  | .copyShared s r => { vars with shared := Function.update vars.shared s (vars.shared r) }
  | .asShared s x =>
      { vars with shared := Function.update vars.shared s (vars.writable x).asShared }

def get (vars : BlockVars T) : BlockVar → SharedDataBlock T
  | .writable x => (vars.writable x).asShared
  | .shared s => vars.shared s

end BlockVars

/-- The block that a program builds in the variable `v`. -/
def build {T : Type*} (ops : List (BlockOp T)) (v : BlockVar) : SharedDataBlock T :=
  (ops.foldl BlockVars.exec ⟨fun _ => {}, fun _ => {}⟩).get v

/-- **Every block is built by a program**: one with data only, with an EOP status
only, with both and with neither. -/
theorem exists_build {T : Type*} (sdb : SharedDataBlock T) : ∃ ops v, build ops v = sdb := by
  obtain ⟨data, eop⟩ := sdb
  refine ⟨(data.toList.map (.setData 0)) ++ eop.toList.map (.setEndOfProcessing 0), .writable 0, ?_⟩
  cases data <;> cases eop <;> rfl

end CppDataStream
