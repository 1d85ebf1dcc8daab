/-
# `SimpleSource`

`src/examples/Source.cpp`, lines 27-105.  A source pushes `_num_blocks` data blocks
and then one EOP block, from a thread of its own.  `stop()` and `cancel()` store into
the atomic `_stop_flag`, which the thread loads at every loop test and once more for
the status of the EOP block.

`runStep` is one step of the thread, with one access of the flag or one call of
`pushData`.  Between any two steps the other threads may call `stop()` and `cancel()`
as often as they like.  The log holds what happened, in order; the flag holds the last
value stored (`SimpleSource.Inv`).  Downstream is only what it is sent: pushes
return.  The block counter stays below `_num_blocks`, so it does not overflow.

`Stage` says what the log looks like at each program point, and every result is read
off it: the source sends a stream that ends with its only EOP block, and the status
of this block agrees with the calls that came before the last load of the flag
(`SimpleSource.emits`).
-/

import CppDataStream.Block
import CppDataStream.Library.Streams
import CppDataStream.Library.Transitions

namespace CppDataStream

open Streams Transitions

/-- `class SimpleSource`: its parameters. -/
structure SimpleSource where
  numBlocks : ℕ
  numBytesPerBlock : ℕ

/-- What the threads do to the flag and to downstream. -/
inductive SourceEvent where
  /-- `stop()` stores 1. -/
  | stop
  /-- `cancel()` stores 2. -/
  | cancel
  /-- A loop test, with the value it loads if it comes to that. -/
  | test (loaded : Option UInt8)
  /-- `pushData(sdb)` begins. -/
  | push (sdb : SharedDataBlock (List UInt8))
  /-- The load after the loop. -/
  | load (stopFlag : UInt8)

namespace SourceEvent

def isStore : SourceEvent → Bool
  | stop | cancel => true
  | _ => false

def isTest : SourceEvent → Bool
  | test _ => true
  | _ => false

/-- The flag is loaded. -/
def isLoad : SourceEvent → Bool
  | test loaded => loaded.isSome
  | load _ => true
  | _ => false

def pushed : SourceEvent → Option (SharedDataBlock (List UInt8))
  | push sdb => some sdb
  | _ => none

/-- The push of a block that is not an EOP block begins. -/
def isDataPush : SourceEvent → Bool
  | push sdb => !sdb.isEndOfProcessing
  | _ => false

/-- The flag after an event. -/
def store (stopFlag : UInt8) : SourceEvent → UInt8
  | stop => 1
  | cancel => 2
  | _ => stopFlag

end SourceEvent

/-- The program points of `run`. -/
inductive RunPoint where
  /-- At the loop test. -/
  | test (numBlocks : ℕ)
  /-- In the loop, with the block to push. -/
  | push (numBlocks : ℕ)
  /-- In the loop, inside `pushData`. -/
  | pushing (numBlocks : ℕ)
  /-- At the load after the loop. -/
  | load
  /-- With the EOP block to push. -/
  | pushEop (stopFlag : UInt8)
  /-- Inside the last `pushData`. -/
  | pushingEop
  | returned

structure SourceState where
  stopFlag : UInt8 := 0
  point : RunPoint := .test 0
  log : List SourceEvent := []

namespace SourceState

/-- `stop`. -/
def stop (S : SourceState) : SourceState := { S with stopFlag := 1, log := S.log ++ [.stop] }

/-- `cancel`. -/
def cancel (S : SourceState) : SourceState := { S with stopFlag := 2, log := S.log ++ [.cancel] }

end SourceState

/-- The status for a value of the flag. -/
def stopStatus (stopFlag : UInt8) : EopStatus :=
  if 0 = stopFlag ∨ 1 = stopFlag then { type := .EopSuccess }
  else if 2 = stopFlag then { type := .EopCancelled }
  else { type := .EopError, message := "Unknown stop flag" }

/-- The EOP block for a value of the flag. -/
def eopBlock (stopFlag : UInt8) : SharedDataBlock (List UInt8) :=
  (WritableDataBlock.setEndOfProcessing {} (stopStatus stopFlag)).asShared

namespace SimpleSource

/-- The block pushed in the loop. -/
def dataBlock (source : SimpleSource) : SharedDataBlock (List UInt8) :=
  (WritableDataBlock.setData {} (List.replicate source.numBytesPerBlock 1)).asShared

/-- One step of `run`. -/
def runStep (source : SimpleSource) (S : SourceState) : Option SourceState :=
  match S.point with
  | .test numBlocks =>
      if numBlocks < source.numBlocks then
        some { S with
          point := if S.stopFlag = 0 then .push numBlocks else .load
          log := S.log ++ [.test (some S.stopFlag)] }
      else some { S with point := .load, log := S.log ++ [.test none] }
  | .push numBlocks =>
      some { S with point := .pushing numBlocks, log := S.log ++ [.push source.dataBlock] }
  | .pushing numBlocks => some { S with point := .test (numBlocks + 1) }
  | .load => some { S with point := .pushEop S.stopFlag, log := S.log ++ [.load S.stopFlag] }
  | .pushEop stopFlag =>
      some { S with point := .pushingEop, log := S.log ++ [.push (eopBlock stopFlag)] }
  | .pushingEop => some { S with point := .returned }
  | .returned => none

/-- A step of the thread of `run`. -/
def Progress (source : SimpleSource) (S S' : SourceState) : Prop := source.runStep S = some S'

/-- A call from another thread. -/
def Call (S S' : SourceState) : Prop := S' = S.stop ∨ S' = S.cancel

/-- An interleaving with `n` steps of `run` that ends in `S`. -/
def RunsTo (source : SimpleSource) (n : ℕ) (S : SourceState) : Prop :=
  Runs source.Progress Call {} n S

end SimpleSource

/-! ### The flag and the log -/

/-- The blocks pushed. -/
def pushes (log : List SourceEvent) : List (SharedDataBlock (List UInt8)) :=
  log.filterMap SourceEvent.pushed

/-- The last value stored. -/
def stored (log : List SourceEvent) : UInt8 := log.foldl SourceEvent.store 0

/-- One more event, and the block it pushes if it does. -/
theorem pushes_concat (log : List SourceEvent) (e : SourceEvent) :
    pushes (log ++ [e]) = pushes log ++ e.pushed.toList := by
  cases h : e.pushed <;> simp [pushes, h]

/-- One more event, and the flag as it leaves it. -/
@[simp] theorem stored_concat (log : List SourceEvent) (e : SourceEvent) :
    stored (log ++ [e]) = e.store (stored log) := by
  simp [stored]

/-- An event that stores nothing leaves the flag as it is. -/
theorem stored_concat_of_not (log : List SourceEvent) {e : SourceEvent} (he : e.isStore = false) :
    stored (log ++ [e]) = stored log := by
  cases e with
  | stop | cancel => cases he
  | test | push | load => exact stored_concat log _

/-- The flag is 0 if nothing was stored, and else says who stored last. -/
theorem stored_cases (log : List SourceEvent) :
    (stored log = 0 ∧ ∀ e ∈ log, e.isStore = false) ∨ (stored log = 1 ∧ .stop ∈ log) ∨
      (stored log = 2 ∧ .cancel ∈ log) := by
  induction log using List.reverseRecOn with
  | nil => exact Or.inl ⟨rfl, by simp⟩
  | append_singleton log e ih =>
      rw [stored_concat]
      cases e with
      | stop => exact Or.inr (Or.inl ⟨rfl, by simp⟩)
      | cancel => exact Or.inr (Or.inr ⟨rfl, by simp⟩)
      | test | push | load => simpa [SourceEvent.store, SourceEvent.isStore, or_imp, forall_and] using ih

/-- Where the flag is 0, nothing was stored. -/
theorem not_isStore_of_stored {log : List SourceEvent} (h : stored log = 0) :
    ∀ e ∈ log, e.isStore = false := by
  rcases stored_cases log with ⟨-, hlog⟩ | ⟨h', -⟩ | ⟨h', -⟩
  · exact hlog
  · rw [h] at h'
    cases h'
  · rw [h] at h'
    cases h'

/-- Where it is not, something was. -/
theorem exists_isStore_of_stored {log : List SourceEvent} (h : stored log ≠ 0) :
    ∃ e ∈ log, e.isStore = true := by
  rcases stored_cases log with ⟨h', -⟩ | ⟨-, hlog⟩ | ⟨-, hlog⟩
  · exact absurd h' h
  · exact ⟨_, hlog, rfl⟩
  · exact ⟨_, hlog, rfl⟩

/-! ### The log at each program point -/

/-- After any store at most `n` data blocks begin to be pushed. -/
def Late (n : ℕ) (log : List SourceEvent) : Prop :=
  AtMostAfter SourceEvent.isStore SourceEvent.isDataPush n log

/-- The loop has ended after `numBlocks` rounds; `tested` is what came before its last
test. -/
structure LoopEnded (source : SimpleSource) (log : List SourceEvent) (numBlocks : ℕ)
    (tested : List SourceEvent) : Prop where
  le : numBlocks ≤ source.numBlocks
  lastTest : BeforeLast SourceEvent.isTest tested log
  early : numBlocks < source.numBlocks → ∃ e ∈ tested, e.isStore = true

/-- The flag has been loaded after the loop; `loaded` is what came before. -/
structure FlagLoaded (source : SimpleSource) (log : List SourceEvent) (numBlocks : ℕ)
    (tested loaded : List SourceEvent) : Prop
    extends LoopEnded source log numBlocks tested where
  finalLoad : BeforeLast SourceEvent.isLoad loaded log
  isPrefix : tested <+: loaded

/-- The log where `run` is at a program point. -/
inductive Stage (source : SimpleSource) (log : List SourceEvent) : RunPoint → Prop
  | test {numBlocks : ℕ} (hpushes : pushes log = List.replicate numBlocks source.dataBlock)
      (hle : numBlocks ≤ source.numBlocks) (hlate : Late 1 log) : Stage source log (.test numBlocks)
  | push {numBlocks : ℕ} (hpushes : pushes log = List.replicate numBlocks source.dataBlock)
      (hlt : numBlocks < source.numBlocks) (hlate : Late 0 log) : Stage source log (.push numBlocks)
  | pushing {numBlocks : ℕ}
      (hpushes : pushes log = List.replicate (numBlocks + 1) source.dataBlock)
      (hlt : numBlocks < source.numBlocks) (hlate : Late 1 log) :
      Stage source log (.pushing numBlocks)
  | load {numBlocks : ℕ} {tested : List SourceEvent}
      (hpushes : pushes log = List.replicate numBlocks source.dataBlock)
      (hended : LoopEnded source log numBlocks tested) (hlate : Late 1 log) : Stage source log .load
  | pushEop {numBlocks : ℕ} {tested loaded : List SourceEvent}
      (hpushes : pushes log = List.replicate numBlocks source.dataBlock)
      (hloaded : FlagLoaded source log numBlocks tested loaded) (hlate : Late 1 log) :
      Stage source log (.pushEop (stored loaded))
  | pushingEop {numBlocks : ℕ} {tested loaded : List SourceEvent}
      (hpushes : pushes log =
        List.replicate numBlocks source.dataBlock ++ [eopBlock (stored loaded)])
      (hloaded : FlagLoaded source log numBlocks tested loaded) (hlate : Late 1 log) :
      Stage source log .pushingEop
  | returned {numBlocks : ℕ} {tested loaded : List SourceEvent}
      (hpushes : pushes log =
        List.replicate numBlocks source.dataBlock ++ [eopBlock (stored loaded)])
      (hloaded : FlagLoaded source log numBlocks tested loaded) (hlate : Late 1 log) :
      Stage source log .returned

variable {source : SimpleSource} {log tested loaded : List SourceEvent} {numBlocks : ℕ}

/-- An event that is no loop test comes after the last one. -/
theorem LoopEnded.concat (h : LoopEnded source log numBlocks tested) {e : SourceEvent}
    (he : e.isTest = false) : LoopEnded source (log ++ [e]) numBlocks tested :=
  ⟨h.le, h.lastTest.concat he, h.early⟩

/-- An event that is no load comes after the last one. -/
theorem FlagLoaded.concat (h : FlagLoaded source log numBlocks tested loaded) {e : SourceEvent}
    (htest : e.isTest = false) (hload : e.isLoad = false) :
    FlagLoaded source (log ++ [e]) numBlocks tested loaded :=
  ⟨h.toLoopEnded.concat htest, h.finalLoad.concat hload, h.isPrefix⟩

/-- What is not a push of a data block keeps the bound on late ones. -/
theorem Late.concat {n : ℕ} (h : Late n log) {e : SourceEvent} (he : e.isDataPush = false) :
    Late n (log ++ [e]) := by
  simpa [Late, he] using AtMostAfter.append h [e]

/-- A call of `stop()` or `cancel()` may come at any point. -/
theorem Stage.store {point : RunPoint} (h : Stage source log point) {e : SourceEvent}
    (he : e = .stop ∨ e = .cancel) : Stage source (log ++ [e]) point := by
  have hquiet : e.pushed = none ∧ e.isTest = false ∧ e.isLoad = false ∧ e.isDataPush = false := by
    rcases he with rfl | rfl <;> exact ⟨rfl, rfl, rfl, rfl⟩
  obtain ⟨hpushed, htest, hload, hdata⟩ := hquiet
  have hsame : pushes (log ++ [e]) = pushes log := by simp [pushes_concat, hpushed]
  cases h with
  | test hpushes hle hlate => exact .test (hsame.trans hpushes) hle (hlate.concat hdata)
  | push hpushes hlt hlate => exact .push (hsame.trans hpushes) hlt (hlate.concat hdata)
  | pushing hpushes hlt hlate => exact .pushing (hsame.trans hpushes) hlt (hlate.concat hdata)
  | load hpushes hended hlate =>
      exact .load (hsame.trans hpushes) (hended.concat htest) (hlate.concat hdata)
  | pushEop hpushes hloaded hlate =>
      exact .pushEop (hsame.trans hpushes) (hloaded.concat htest hload) (hlate.concat hdata)
  | pushingEop hpushes hloaded hlate =>
      exact .pushingEop (hsame.trans hpushes) (hloaded.concat htest hload) (hlate.concat hdata)
  | returned hpushes hloaded hlate =>
      exact .returned (hsame.trans hpushes) (hloaded.concat htest hload) (hlate.concat hdata)

/-- A loop test.  If it loads 0, nothing was stored before; if it ends the loop early,
something was. -/
theorem Stage.loopTest (h : Stage source log (.test numBlocks)) :
    if numBlocks < source.numBlocks then
      Stage source (log ++ [.test (some (stored log))])
        (if stored log = 0 then .push numBlocks else .load)
    else Stage source (log ++ [.test none]) .load := by
  cases h with
  | test hpushes hle hlate =>
      split_ifs with hlt hzero
      · have hnone : Late 0 log := atMostAfter_of_forall (not_isStore_of_stored hzero) 0
        exact .push (by simpa [pushes_concat, SourceEvent.pushed] using hpushes) hlt (hnone.concat rfl)
      · exact .load (by simpa [pushes_concat, SourceEvent.pushed] using hpushes)
          ⟨hle, beforeLast_concat rfl log, fun _ => exists_isStore_of_stored hzero⟩
          (hlate.concat rfl)
      · exact .load (by simpa [pushes_concat, SourceEvent.pushed] using hpushes)
          ⟨hle, beforeLast_concat rfl log, fun h => absurd h hlt⟩ (hlate.concat rfl)

/-- The invariant of the states that an interleaving reaches. -/
structure SimpleSource.Inv (source : SimpleSource) (S : SourceState) : Prop where
  stage : Stage source S.log S.point
  stopFlag_eq : S.stopFlag = stored S.log

/-- The source begins at its first loop test. -/
theorem SimpleSource.inv_init (source : SimpleSource) : source.Inv {} where
  stage := .test rfl (Nat.zero_le _) (atMostAfter_of_forall (by simp) 1)
  stopFlag_eq := rfl

/-- A step of `run` keeps the invariant. -/
theorem SimpleSource.Inv.runStep {S S' : SourceState} (h : source.Inv S)
    (hstep : source.runStep S = some S') : source.Inv S' := by
  obtain ⟨hstage, hflag⟩ := h
  obtain ⟨stopFlag, point, log⟩ := S
  simp only at hstage hflag
  subst hflag
  cases point with
  | test numBlocks =>
      have htest := hstage.loopTest
      simp only [SimpleSource.runStep] at hstep
      split_ifs at hstep htest <;> cases hstep
      · exact ⟨htest, (stored_concat_of_not log rfl).symm⟩
      · exact ⟨htest, (stored_concat_of_not log rfl).symm⟩
      · exact ⟨htest, (stored_concat_of_not log rfl).symm⟩
  | push numBlocks =>
      cases hstep
      cases hstage with
      | push hpushes hlt hlate =>
          refine ⟨.pushing ?_ hlt (hlate.append [_]), (stored_concat_of_not log rfl).symm⟩
          rw [pushes_concat, hpushes, List.replicate_succ']
          rfl
  | pushing numBlocks =>
      cases hstep
      cases hstage with
      | pushing hpushes hlt hlate => exact ⟨.test hpushes hlt hlate, rfl⟩
  | load =>
      cases hstep
      cases hstage with
      | load hpushes hended hlate =>
          refine ⟨.pushEop ?_ ⟨hended.concat rfl, beforeLast_concat rfl log, hended.lastTest.isPrefix⟩
            (hlate.concat rfl), (stored_concat_of_not log rfl).symm⟩
          simpa [pushes_concat, SourceEvent.pushed] using hpushes
  | pushEop =>
      cases hstep
      cases hstage with
      | pushEop hpushes hloaded hlate =>
          refine ⟨.pushingEop ?_ (hloaded.concat rfl rfl) (hlate.concat rfl),
            (stored_concat_of_not log rfl).symm⟩
          rw [pushes_concat, hpushes]
          rfl
  | pushingEop =>
      cases hstep
      cases hstage with
      | pushingEop hpushes hloaded hlate => exact ⟨.returned hpushes hloaded hlate, rfl⟩
  | returned => cases hstep

/-- A call of `stop()` or `cancel()` keeps the invariant. -/
theorem SimpleSource.Inv.call {S S' : SourceState} (h : source.Inv S)
    (hcall : SimpleSource.Call S S') : source.Inv S' := by
  rcases hcall with rfl | rfl
  · exact ⟨h.stage.store (Or.inl rfl), (stored_concat S.log .stop).symm⟩
  · exact ⟨h.stage.store (Or.inr rfl), (stored_concat S.log .cancel).symm⟩

/-- **Every interleaving keeps the invariant.** -/
theorem SimpleSource.RunsTo.inv {n : ℕ} {S : SourceState} (h : source.RunsTo n S) :
    source.Inv S := by
  induction h with
  | refl => exact source.inv_init
  | progress _ hstep ih => exact ih.runStep hstep
  | idle _ hcall ih => exact ih.call hcall

/-! ### Steps of `run` -/

/-- The steps that are left, were the flag never stored. -/
def SimpleSource.remaining (source : SimpleSource) : RunPoint → ℕ
  | .test numBlocks => 3 * (source.numBlocks - numBlocks) + 4
  | .push numBlocks => 3 * (source.numBlocks - numBlocks) + 3
  | .pushing numBlocks => 3 * (source.numBlocks - numBlocks) + 2
  | .load => 3
  | .pushEop _ => 2
  | .pushingEop => 1
  | .returned => 0

/-- Every step of `run` leaves fewer to make. -/
theorem SimpleSource.remaining_lt {S S' : SourceState} (hinv : source.Inv S)
    (hstep : source.runStep S = some S') : source.remaining S'.point < source.remaining S.point := by
  obtain ⟨hstage, -⟩ := hinv
  obtain ⟨stopFlag, point, log⟩ := S
  simp only at hstage
  cases point with
  | test numBlocks =>
      simp only [SimpleSource.runStep] at hstep
      split_ifs at hstep <;> cases hstep <;> simp only [SimpleSource.remaining] <;> omega
  | pushing numBlocks =>
      cases hstep
      cases hstage with
      | pushing _ hlt => simp only [SimpleSource.remaining]; omega
  | push | load | pushEop | pushingEop => cases hstep; simp [SimpleSource.remaining]
  | returned => cases hstep

/-- `run` makes a bounded number of steps, however it is called upon to stop. -/
theorem SimpleSource.budget (source : SimpleSource) :
    Budget source.Progress SimpleSource.Call fun S N =>
      source.Inv S ∧ source.remaining S.point ≤ N where
  progress h hstep :=
    ⟨_, (SimpleSource.remaining_lt h.1 hstep).trans_le h.2, h.1.runStep hstep, le_rfl⟩
  idle h hcall := by
    refine ⟨h.1.call hcall, ?_⟩
    rcases hcall with rfl | rfl
    · exact h.2
    · exact h.2

/-- `run` can make a step until it has returned. -/
theorem SimpleSource.exists_runStep (source : SimpleSource) {S : SourceState}
    (h : S.point ≠ .returned) : ∃ S', source.runStep S = some S' := by
  obtain ⟨stopFlag, point, log⟩ := S
  cases point with
  | test numBlocks =>
      simp only [SimpleSource.runStep]
      split_ifs <;> exact ⟨_, rfl⟩
  | push | pushing | load | pushEop | pushingEop => exact ⟨_, rfl⟩
  | returned => exact absurd rfl h

/-! ### The stream of the source -/

/-- The status is `EopCancelled` if `cancel()` stored last, and else `EopSuccess`. -/
theorem type_stopStatus_stored (log : List SourceEvent) :
    (stopStatus (stored log)).type = if stored log = 2 then .EopCancelled else .EopSuccess := by
  rcases stored_cases log with ⟨h, -⟩ | ⟨h, -⟩ | ⟨h, -⟩ <;> rw [h] <;> rfl

/-- The run of a source that has returned: the blocks it pushed, what happened before
its last loop test, and what happened before its last load of the flag. -/
structure SimpleSource.Emitted (source : SimpleSource) (log : List SourceEvent) (numBlocks : ℕ)
    (eop : EopStatus) (tested loaded : List SourceEvent) : Prop where
  /-- Data blocks, then one EOP block, then nothing. -/
  pushes_eq : pushes log = List.replicate numBlocks source.dataBlock ++ [⟨none, some eop⟩]
  le : numBlocks ≤ source.numBlocks
  lastTest : BeforeLast SourceEvent.isTest tested log
  finalLoad : BeforeLast SourceEvent.isLoad loaded log
  /-- Blocks are left out only after a store. -/
  early : numBlocks < source.numBlocks → ∃ e ∈ tested, e.isStore = true
  noError : eop.type ≠ .EopError
  cancelled : eop.type = .EopCancelled → .cancel ∈ loaded
  /-- Success is reported with blocks left out only after a `stop()`. -/
  success : eop.type = .EopSuccess → numBlocks < source.numBlocks → .stop ∈ loaded
  /-- Without a `stop()`, a loop that ends after a `cancel()` is reported as cancelled. -/
  onlyCancel : .stop ∉ loaded → .cancel ∈ tested → eop.type = .EopCancelled
  /-- The assumption of `StreamThreadedBuffer::run`. -/
  ended : Ended SharedDataBlock.isEndOfProcessing (pushes log)

/-- What every interleaving of `run` with calls of `stop()` and `cancel()` keeps to. -/
structure SimpleSource.Emits (source : SimpleSource) : Prop where
  /-- `run` makes a bounded number of steps, -/
  bounded : ∀ {n S}, source.RunsTo n S → n ≤ 3 * source.numBlocks + 4
  /-- can make one until it returns, -/
  progress : ∀ {n S}, source.RunsTo n S → S.point ≠ .returned → ∃ S', source.runStep S = some S'
  /-- pushes data blocks and then at most one EOP block, -/
  always : ∀ {n S}, source.RunsTo n S → ∃ numBlocks eop, numBlocks ≤ source.numBlocks ∧
    pushes S.log <+: List.replicate numBlocks source.dataBlock ++ [⟨none, some eop⟩]
  /-- begins to push at most one data block after any store, -/
  late : ∀ {n S}, source.RunsTo n S → Late 1 S.log
  /-- and has pushed a complete stream when it returns. -/
  returned : ∀ {n S}, source.RunsTo n S → S.point = .returned →
    ∃ numBlocks eop tested loaded, source.Emitted S.log numBlocks eop tested loaded

/-- The status of the EOP block agrees with what was stored before the flag was loaded. -/
theorem FlagLoaded.emitted (h : FlagLoaded source log numBlocks tested loaded)
    (hpushes : pushes log =
      List.replicate numBlocks source.dataBlock ++ [eopBlock (stored loaded)]) :
    source.Emitted log numBlocks (stopStatus (stored loaded)) tested loaded where
  pushes_eq := hpushes
  le := h.le
  lastTest := h.lastTest
  finalLoad := h.finalLoad
  early := h.early
  noError := by
    rw [type_stopStatus_stored]
    split_ifs <;> decide
  cancelled htype := by
    rw [type_stopStatus_stored] at htype
    rcases stored_cases loaded with ⟨h', -⟩ | ⟨h', -⟩ | ⟨-, hmem⟩
    · simp [h'] at htype
    · simp [h'] at htype
    · exact hmem
  success htype hlt := by
    rw [type_stopStatus_stored] at htype
    rcases stored_cases loaded with ⟨-, hquiet⟩ | ⟨-, hmem⟩ | ⟨h', -⟩
    · obtain ⟨e, he, hstore⟩ := h.early hlt
      exact absurd hstore (by simp [hquiet e (h.isPrefix.subset he)])
    · exact hmem
    · simp [h'] at htype
  onlyCancel hstop hcancel := by
    rw [type_stopStatus_stored]
    rcases stored_cases loaded with ⟨-, hquiet⟩ | ⟨-, hmem⟩ | ⟨h', -⟩
    · cases hquiet _ (h.isPrefix.subset hcancel)
    · exact absurd hmem hstop
    · rw [if_pos h']
  ended := ⟨_, _, hpushes, fun _ hb => List.eq_of_mem_replicate hb ▸ rfl, rfl⟩

/-- At every program point, what was pushed is part of a complete stream. -/
theorem Stage.pushes_isPrefix {point : RunPoint} (h : Stage source log point) :
    ∃ numBlocks eop, numBlocks ≤ source.numBlocks ∧
      pushes log <+: List.replicate numBlocks source.dataBlock ++ [⟨none, some eop⟩] := by
  cases h with
  | test hpushes hle => exact ⟨_, {}, hle, ⟨_, congrArg (· ++ _) hpushes⟩⟩
  | push hpushes hlt => exact ⟨_, {}, hlt.le, ⟨_, congrArg (· ++ _) hpushes⟩⟩
  | pushing hpushes hlt => exact ⟨_, {}, hlt, ⟨_, congrArg (· ++ _) hpushes⟩⟩
  | load hpushes hended => exact ⟨_, {}, hended.le, ⟨_, congrArg (· ++ _) hpushes⟩⟩
  | pushEop hpushes hloaded => exact ⟨_, {}, hloaded.le, ⟨_, congrArg (· ++ _) hpushes⟩⟩
  | pushingEop hpushes hloaded | returned hpushes hloaded =>
      exact ⟨_, stopStatus _, hloaded.le, ⟨[], (List.append_nil _).trans hpushes⟩⟩

/-- At every point, at most one data block was pushed after the flag was set. -/
theorem Stage.late {point : RunPoint} (h : Stage source log point) : Late 1 log := by
  cases h with
  | push _ _ hlate =>
      exact fun before e after hlog he => (hlate before e after hlog he).trans (Nat.zero_le 1)
  | test _ _ hlate | pushing _ _ hlate | load _ _ hlate => exact hlate
  | pushEop _ _ hlate | pushingEop _ _ hlate | returned _ _ hlate => exact hlate

/-- Where `run` has returned, it has emitted its stream. -/
theorem Stage.emitted (h : Stage source log .returned) :
    ∃ numBlocks eop tested loaded, source.Emitted log numBlocks eop tested loaded := by
  cases h with
  | returned hpushes hloaded => exact ⟨_, _, _, _, hloaded.emitted hpushes⟩

/-- **The source emits a well-formed stream**, for every number of blocks and every
interleaving of its thread with calls of `stop()` and `cancel()`. -/
theorem SimpleSource.emits (source : SimpleSource) : source.Emits where
  bounded h := h.le_budget source.budget ⟨source.inv_init, le_rfl⟩
  progress _ hpoint := source.exists_runStep hpoint
  always h := h.inv.stage.pushes_isPrefix
  late h := h.inv.stage.late
  returned h hpoint := (hpoint ▸ h.inv.stage).emitted

/-- A `stop()` between the loop test and the push is followed by one data block. -/
example : ∃ S, SimpleSource.RunsTo ⟨1, 0⟩ 2 S ∧
    S.log = [.test (some 0), .stop, .push (SimpleSource.dataBlock ⟨1, 0⟩)] :=
  ⟨_, .progress (.idle (.progress .refl rfl) (Or.inl rfl)) rfl, rfl⟩

end CppDataStream
