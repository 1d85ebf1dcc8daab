/-
# `LightweightSemaphore`

`include/cppdatastream/moodycamel/atomicops.h`, lines 677-759: a counter in front of a
kernel semaphore.  One thread waits, one signals, any thread may ask for
`availableApprox`.  A `WaitPoint` is a program point of the waiting thread in
`tryWait` and `waitWithPartialSpinning`, a `SignalPoint` one of the signalling thread
in `signal`; a step runs up to the next access of `m_count` or `m_sema`.  The accesses
are taken in one order that all threads see.

`m_count` is a `ssize_t` of 64 bits that wraps around (`ssize`).  The kernel semaphore is
a number: `wait`, `timed_wait` and `try_wait` take one from it, `signal(1)` adds one.
`granted = false` is a call of `wait` or `timed_wait` that fails: `timed_wait` may time out
at any moment, also at one at which it could have taken.

The number of signals that no wait has consumed is `tokens`: `m_count`, or one more
while the waiting thread counts as waiting.  A signal that finds the thread waiting
owes the kernel semaphore one, and `Inv` says that this is paid exactly once.

What is shown of the semaphore as an object is under what its users have to keep to
(`Fits`): they do not call `signal(0)`, which wakes a waiting thread that has nothing to
consume (`exists_run_signal_zero`), and never have more signals outstanding than a
`ssize_t` can count.
-/

import CppDataStream.Library.Linearizability
import Mathlib.Algebra.BigOperators.Group.List.Basic
import Mathlib.Algebra.Ring.Nat
import Mathlib.Data.Int.Notation

namespace CppDataStream
namespace Moodycamel

/-- The result of `ssize_t` arithmetic. -/
def ssize (z : ℤ) : ℤ := z.bmod (2 ^ 64)

/-- Between the bounds of `ssize_t` nothing wraps. -/
theorem ssize_eq {z : ℤ} (hle : -2 ^ 63 ≤ z) (hlt : z < 2 ^ 63) : ssize z = z :=
  Int.bmod_eq_of_le (by omega) (by omega)

/-- `m_count`, and the value of `m_sema`. -/
structure LightweightSemaphore where
  count : ℤ
  sema : ℕ
  deriving DecidableEq, Repr

/-- What the waiting thread has called: `tryWait()`, or `wait(timeout_usecs)`, where
`wait()` is `wait(-1)`. -/
inductive Acquire where
  | tryWait
  | wait (timeoutUsecs : ℤ)
  deriving DecidableEq, Repr

/-- A program point of the waiting thread. -/
inductive WaitPoint where
  /-- `tryWait` before the load, and before the `fetch_add_acquire(-1)`. -/
  | tryWait
  | tryTake
  /-- In the loop over `spin`, before its test; and before the `fetch_add_acquire(-1)`. -/
  | spin (n : ℕ)
  | spinTake
  /-- Before the `fetch_add_acquire(-1)` after the loop. -/
  | decrement
  /-- Before `m_sema.wait()` or `m_sema.timed_wait`. -/
  | semaWait
  /-- In the last loop: before `fetch_add_release(1)`, `fetch_add_acquire(-1)` and
  `m_sema.try_wait()`. -/
  | restore
  | retake
  | semaTryWait
  | returned (b : Bool)
  deriving DecidableEq, Repr

/-- A program point of the signalling thread: before `fetch_add_release(count)`, before
`m_sema.signal(1)`, and after. -/
inductive SignalPoint where
  | add
  | semaSignal
  | returned
  deriving DecidableEq, Repr

namespace LightweightSemaphore

/-- The constructor. -/
def init (initialCount : ℤ) : LightweightSemaphore := ⟨initialCount, 0⟩

def availableApprox (s : LightweightSemaphore) : ℕ := if s.count > 0 then s.count.toNat else 0

/-- One step of the waiting thread; `none` if it has returned or the kernel lets it
wait. -/
def stepWait (call : Acquire) (granted : Bool) (s : LightweightSemaphore) :
    WaitPoint → Option (LightweightSemaphore × WaitPoint)
  | .tryWait =>
      if s.count > 0 then some (s, .tryTake)
      else match call with
        | .tryWait => some (s, .returned false)
        | .wait _ => some (s, .spin 1024)
  | .tryTake => some ({ s with count := ssize (s.count - 1) }, .returned true)
  | .spin 0 => some (s, .decrement)
  | .spin (n + 1) => if s.count > 0 then some (s, .spinTake) else some (s, .spin n)
  | .spinTake => some ({ s with count := ssize (s.count - 1) }, .returned true)
  | .decrement =>
      some ({ s with count := ssize (s.count - 1) },
        if s.count > 0 then .returned true else if call = .wait 0 then .restore else .semaWait)
  | .semaWait =>
      if !granted then some (s, .restore)
      else if s.sema > 0 then some ({ s with sema := s.sema - 1 }, .returned true)
      else none
  | .restore =>
      some ({ s with count := ssize (s.count + 1) }, if s.count < 0 then .returned false else .retake)
  | .retake =>
      some ({ s with count := ssize (s.count - 1) }, if s.count > 0 then .semaTryWait else .restore)
  | .semaTryWait =>
      if s.sema > 0 then some ({ s with sema := s.sema - 1 }, .returned true) else some (s, .restore)
  | .returned _ => none

/-- One step of the signalling thread in `signal(count)`. -/
def stepSignal (count : ℕ) (s : LightweightSemaphore) :
    SignalPoint → Option (LightweightSemaphore × SignalPoint)
  | .add =>
      some ({ s with count := ssize (s.count + count) }, if s.count < 0 then .semaSignal else .returned)
  | .semaSignal => some ({ s with sema := s.sema + 1 }, .returned)
  | .returned => none

end LightweightSemaphore

/-! ### The invariant -/

/-- The thread has taken one from `m_count` and may have to wait for it. -/
@[simp] def WaitPoint.registered : WaitPoint → Bool
  | .semaWait | .restore | .semaTryWait => true
  | _ => false

/-- The thread has put back what it took, and was signalled before it did. -/
@[simp] def WaitPoint.retaking : WaitPoint → Bool
  | .retake => true
  | _ => false

/-- The thread has seen that `m_count` is positive. -/
@[simp] def WaitPoint.sure : WaitPoint → Bool
  | .tryTake | .spinTake | .retake => true
  | _ => false

namespace LightweightSemaphore

variable {s s' : LightweightSemaphore} {w w' : WaitPoint} {g g' : SignalPoint} {call : Acquire}
  {granted : Bool}

/-- The signals that no wait has consumed. -/
def tokens (s : LightweightSemaphore) (w : WaitPoint) : ℤ := s.count + if w.registered then 1 else 0

/-- What the signalling thread still owes to the kernel semaphore. -/
def owed (g : SignalPoint) : ℕ := if g = .semaSignal then 1 else 0

/-- What holds between the counter, the kernel semaphore and the two threads. -/
structure Inv (s : LightweightSemaphore) (w : WaitPoint) (g : SignalPoint) : Prop where
  nonneg : 0 ≤ s.tokens w
  /-- The signals can be counted. -/
  lt : s.tokens w < 2 ^ 63
  sure : w.sure → 0 < s.tokens w
  sema : s.sema + owed g = if (w.registered || w.retaking) ∧ 0 < s.tokens w then 1 else 0

/-- A new semaphore. -/
theorem inv_init {n : ℤ} (hle : 0 ≤ n) (hlt : n < 2 ^ 63) (b : Bool) :
    (init n).Inv (.returned b) .returned :=
  ⟨by simpa [tokens, init] using hle, by simpa [tokens, init] using hlt, by simp, by simp [init, owed]⟩

/-- The invariant in one line, for `omega`. -/
theorem inv_iff : s.Inv w g ↔ 0 ≤ s.tokens w ∧ s.tokens w < 2 ^ 63 ∧ (w.sure → 0 < s.tokens w) ∧
    s.sema + owed g = if (w.registered || w.retaking) ∧ 0 < s.tokens w then 1 else 0 :=
  ⟨fun h => ⟨h.1, h.2, h.3, h.4⟩, fun h => ⟨h.1, h.2.1, h.2.2.1, h.2.2.2⟩⟩

/-- Points that are none of the special ones are alike. -/
theorem Inv.of_outside (h : s.Inv w g) (hw : (w.registered || w.retaking || w.sure) = false)
    (hw' : (w'.registered || w'.retaking || w'.sure) = false) : s.Inv w' g := by
  rw [inv_iff] at h ⊢
  simp_all [tokens]

/-- What the signalling thread owes is all that matters of it. -/
theorem Inv.of_owed (h : s.Inv w g) (hg : owed g = owed g') : s.Inv w g' := by
  rw [inv_iff] at h ⊢
  rwa [hg] at h

/-- The counter is at least `-1`, as `signal` asserts. -/
theorem Inv.neg_one_le (h : s.Inv w g) : -1 ≤ s.count := by
  have hnonneg := h.nonneg
  rw [tokens] at hnonneg
  split_ifs at hnonneg <;> omega

/-- The waiting thread does not wrap the counter when it takes one. -/
theorem Inv.ssize_pred (h : s.Inv w g) : ssize (s.count - 1) = s.count - 1 := by
  have hlt := h.lt
  have hge := h.neg_one_le
  rw [tokens] at hlt
  exact ssize_eq (by omega) (by split_ifs at hlt <;> omega)

/-- It does not wrap it when it puts one back. -/
theorem Inv.ssize_succ (h : s.Inv w g) (hw : w.registered) : ssize (s.count + 1) = s.count + 1 := by
  have hlt := h.lt
  have hge := h.neg_one_le
  rw [tokens, if_pos hw] at hlt
  exact ssize_eq (by omega) hlt

/-- **What a step of the waiting thread does**: it consumes a signal and returns
`true`, or there is none and it returns `false`, or it leaves their number alone. -/
theorem Inv.stepWait (h : s.Inv w g) (hstep : s.stepWait call granted w = some (s', w')) :
    s'.Inv w' g ∧
      (w' = .returned true ∧ 0 < s.tokens w ∧ s'.tokens w' = s.tokens w - 1 ∨
        w' = .returned false ∧ s.tokens w = 0 ∧ s'.tokens w' = 0 ∨
        (∀ b, w' ≠ .returned b) ∧ s'.tokens w' = s.tokens w) := by
  have hpred := h.ssize_pred
  have hsucc := h.ssize_succ
  rw [inv_iff] at h ⊢
  cases w with
  | tryWait =>
      simp only [LightweightSemaphore.stepWait] at hstep
      split_ifs at hstep with hpos
      · obtain ⟨rfl, rfl⟩ := Prod.mk.inj (Option.some.inj hstep)
        simp_all [tokens]
      · cases call <;> (obtain ⟨rfl, rfl⟩ := Prod.mk.inj (Option.some.inj hstep); simp_all [tokens])
        omega
  | spin n =>
      cases n with
      | zero =>
          obtain ⟨rfl, rfl⟩ := Prod.mk.inj (Option.some.inj hstep)
          simp_all [tokens]
      | succ n =>
          simp only [LightweightSemaphore.stepWait] at hstep
          split_ifs at hstep <;> obtain ⟨rfl, rfl⟩ := Prod.mk.inj (Option.some.inj hstep) <;>
            simp_all [tokens]
  | tryTake | spinTake =>
      obtain ⟨rfl, rfl⟩ := Prod.mk.inj (Option.some.inj hstep)
      rw [hpred]
      simp_all [tokens]
      omega
  | decrement =>
      obtain ⟨rfl, rfl⟩ := Prod.mk.inj (Option.some.inj hstep)
      rw [hpred]
      split_ifs <;> simp_all [tokens]
      all_goals omega
  | semaWait | semaTryWait =>
      rw [LightweightSemaphore.stepWait] at hstep
      by_cases htok : 0 < s.count + 1 <;> split_ifs at hstep <;>
        (obtain ⟨rfl, rfl⟩ := Prod.mk.inj (Option.some.inj hstep); simp_all [tokens])
      all_goals omega
  | restore =>
      obtain ⟨rfl, rfl⟩ := Prod.mk.inj (Option.some.inj hstep)
      rw [hsucc rfl]
      split_ifs <;> simp_all [tokens]
      all_goals omega
  | retake =>
      obtain ⟨rfl, rfl⟩ := Prod.mk.inj (Option.some.inj hstep)
      rw [hpred]
      split_ifs <;> simp_all [tokens]
  | returned b => exact absurd hstep (by simp [LightweightSemaphore.stepWait])

/-- **What a step of the signalling thread does**: it adds its signals, or pays what it
owes.  The assertion `oldCount >= -1` holds. -/
theorem Inv.stepSignal {count : ℕ} (h : s.Inv w g)
    (hfits : g = .add → 0 < count ∧ s.tokens w + count < 2 ^ 63)
    (hstep : s.stepSignal count g = some (s', g')) :
    s'.Inv w g' ∧ -1 ≤ s.count ∧ (g = .add ∧ s'.tokens w = s.tokens w + count ∨
      g = .semaSignal ∧ g' = .returned ∧ s'.tokens w = s.tokens w) := by
  have hge := h.neg_one_le
  cases g with
  | add =>
      obtain ⟨hpos, hlt⟩ := hfits rfl
      have hadd : ssize (s.count + count) = s.count + count := by
        rw [tokens] at hlt
        exact ssize_eq (by omega) (by split_ifs at hlt <;> omega)
      obtain ⟨rfl, rfl⟩ := Prod.mk.inj (Option.some.inj hstep)
      rw [inv_iff] at h ⊢
      rw [hadd]
      split_ifs <;> cases w <;> simp_all [tokens, owed] <;> omega
  | semaSignal =>
      obtain ⟨rfl, rfl⟩ := Prod.mk.inj (Option.some.inj hstep)
      rw [inv_iff] at h ⊢
      cases w <;> simp_all [tokens, owed]
  | returned => exact absurd hstep (by simp [LightweightSemaphore.stepSignal])

/-- A signal is added once. -/
theorem ne_add_of_stepSignal {count : ℕ} (h : s.stepSignal count g = some (s', g')) : g' ≠ .add := by
  cases g with
  | add =>
      obtain ⟨-, rfl⟩ := Prod.mk.inj (Option.some.inj h)
      split_ifs <;> decide
  | semaSignal =>
      obtain ⟨-, rfl⟩ := Prod.mk.inj (Option.some.inj h)
      decide
  | returned => exact absurd h (by simp [LightweightSemaphore.stepSignal])

/-- The waiting thread is held up only in the kernel. -/
theorem stepWait_eq_none (h : s.stepWait call true w = none) (hw : ∀ b, w ≠ .returned b) :
    w = .semaWait ∧ s.sema = 0 := by
  cases w with
  | returned b => exact absurd rfl (hw b)
  | semaWait => simpa [LightweightSemaphore.stepWait] using h
  | tryWait => cases call <;> simp only [LightweightSemaphore.stepWait] at h <;> split_ifs at h
  | spin n =>
      cases n with
      | zero => exact absurd h (by simp [LightweightSemaphore.stepWait])
      | succ n => simp only [LightweightSemaphore.stepWait] at h; split_ifs at h
  | semaTryWait => simp only [LightweightSemaphore.stepWait] at h; split_ifs at h
  | tryTake | spinTake | decrement | restore | retake =>
      exact absurd h (by simp [LightweightSemaphore.stepWait])

/-- **No lost wake-up.**  A thread that waits in the kernel for nothing has no signal
to consume, or the signalling thread is about to wake it. -/
theorem Inv.no_lost_wakeup (h : s.Inv .semaWait g) (hsema : s.sema = 0) :
    s.tokens .semaWait = 0 ∨ g = .semaSignal := by
  rw [inv_iff] at h
  by_contra hne
  rw [not_or] at hne
  simp_all [owed]
  omega

/-- What a thread is told of the number of signals. -/
theorem Inv.availableApprox (h : s.Inv w g) :
    s.availableApprox ≤ s.tokens w ∧ s.tokens w ≤ s.availableApprox + 1 ∧
      (w.registered = false → s.availableApprox = s.tokens w) := by
  have hnonneg := h.nonneg
  rw [LightweightSemaphore.availableApprox]
  rw [tokens] at hnonneg ⊢
  split_ifs at hnonneg ⊢ <;> simp_all
  all_goals omega

/-- How many steps the waiting thread is from `returned true` when there is a signal
for it. -/
def rank : WaitPoint → ℕ
  | .returned _ => 0
  | .tryTake | .spinTake | .decrement | .semaWait | .semaTryWait => 1
  | .tryWait | .spin _ | .retake => 2
  | .restore => 3

/-- A thread with a signal to consume is not held up, unless the signal must still be
paid. -/
theorem Inv.exists_stepWait (h : s.Inv w g) (hg : g ≠ .semaSignal) (htok : 0 < s.tokens w)
    (hw : ∀ b, w ≠ .returned b) (call : Acquire) :
    ∃ s' w', s.stepWait call true w = some (s', w') ∧ rank w' < rank w := by
  rw [inv_iff] at h
  cases w with
  | spin n => cases n <;> simp_all [LightweightSemaphore.stepWait, tokens, rank]
  | restore =>
      have hcount : ¬ s.count < 0 := by
        simp only [tokens, WaitPoint.registered, ↓reduceIte] at htok
        omega
      simp [LightweightSemaphore.stepWait, rank, hcount]
  | returned b => exact absurd rfl (hw b)
  | _ => simp_all [LightweightSemaphore.stepWait, tokens, rank, owed]

end LightweightSemaphore

/-! ### The semaphore as an object -/

namespace LightweightSemaphore

open Linearizability

/-- The threads. -/
inductive Party where
  | waiter
  | signaller
  | observer (i : ℕ)
  deriving DecidableEq

inductive Op where
  | wait (call : Acquire)
  | signal (count : ℕ)
  | availableApprox

inductive Ret where
  | returned (b : Bool)
  | signalled
  | available (n : ℕ)
  deriving DecidableEq

/-- A counting semaphore, as a sequential object: a wait fails only at zero. -/
inductive Counting : ℕ → Op → Ret → ℕ → Prop
  | wait {n call} : Counting (n + 1) (.wait call) (.returned true) n
  | fail {call} : Counting 0 (.wait call) (.returned false) 0
  | signal {n count} : Counting n (.signal count) .signalled (n + count)
  | available {n m} (h : m ≤ n) (h' : n ≤ m + 1) : Counting n .availableApprox (.available m) n

/-- A thread in `availableApprox` or `size_approx`: before the load, and after. -/
inductive Observer where
  | idle
  | load
  | loaded (n : ℕ)

/-- A semaphore and its threads. -/
structure System where
  sem : LightweightSemaphore
  waiter : Option (Acquire × WaitPoint)
  /-- With the argument of `signal`. -/
  signaller : Option (ℕ × SignalPoint)
  observer : ℕ → Observer

/-- A step of one thread. -/
inductive System.Step : System → Option (Visible Party Op Ret) → System → Prop
  | callWait {S : System} (call) (h : S.waiter = none) :
      Step S (some (.call .waiter (.wait call))) { S with waiter := some (call, .tryWait) }
  | wait {S : System} {call w s' w'} (granted) (h : S.waiter = some (call, w))
      (hstep : S.sem.stepWait call granted w = some (s', w')) :
      Step S none { S with sem := s', waiter := some (call, w') }
  | answerWait {S : System} {call b} (h : S.waiter = some (call, .returned b)) :
      Step S (some (.answer .waiter (.returned b))) { S with waiter := none }
  | callSignal {S : System} (count) (h : S.signaller = none) :
      Step S (some (.call .signaller (.signal count))) { S with signaller := some (count, .add) }
  | signal {S : System} {count g s' g'} (h : S.signaller = some (count, g))
      (hstep : S.sem.stepSignal count g = some (s', g')) :
      Step S none { S with sem := s', signaller := some (count, g') }
  | answerSignal {S : System} {count} (h : S.signaller = some (count, .returned)) :
      Step S (some (.answer .signaller .signalled)) { S with signaller := none }
  | callAvailable {S : System} (i) (h : S.observer i = .idle) :
      Step S (some (.call (.observer i) .availableApprox))
        { S with observer := Function.update S.observer i .load }
  | load {S : System} (i) (h : S.observer i = .load) :
      Step S none
        { S with observer := Function.update S.observer i (.loaded S.sem.availableApprox) }
  | answerAvailable {S : System} (i n) (h : S.observer i = .loaded n) :
      Step S (some (.answer (.observer i) (.available n)))
        { S with observer := Function.update S.observer i .idle }

/-- A new semaphore. -/
def System.init (initialCount : ℤ) : System := ⟨.init initialCount, none, none, fun _ => .idle⟩

/-! ### What the threads are doing -/

/-- Where the thread of a call is in `stepWait`; it has returned if there is no call. -/
def waitPoint : Option (Acquire × WaitPoint) → WaitPoint
  | none => .returned true
  | some (_, w) => w

/-- Where the thread of a call is in `stepSignal`. -/
def signalPoint : Option (ℕ × SignalPoint) → SignalPoint
  | none => .returned
  | some (_, g) => g

/-- What the signalling thread is about to add. -/
def adding : Option (ℕ × SignalPoint) → ℕ
  | some (count, .add) => count
  | _ => 0

def waiterPhase : Option (Acquire × WaitPoint) → Phase Op Ret
  | none => .idle
  | some (call, .returned b) => .done (.wait call) (.returned b)
  | some (call, _) => .called (.wait call)

def signallerPhase : Option (ℕ × SignalPoint) → Phase Op Ret
  | none => .idle
  | some (count, .add) => .called (.signal count)
  | some (count, _) => .done (.signal count) .signalled

def Observer.phase : Observer → Phase Op Ret
  | .idle => .idle
  | .load => .called .availableApprox
  | .loaded n => .done .availableApprox (.available n)

/-- Where the threads are in the eyes of the atomic object. -/
def System.phase (S : System) : Party → Phase Op Ret
  | .waiter => waiterPhase S.waiter
  | .signaller => signallerPhase S.signaller
  | .observer i => (S.observer i).phase

/-- A wait that has not returned is called. -/
theorem waiterPhase_eq_called {w : WaitPoint} (hw : ∀ b, w ≠ .returned b) (call : Acquire) :
    waiterPhase (some (call, w)) = .called (.wait call) := by
  cases w with
  | returned b => exact absurd rfl (hw b)
  | _ => rfl

/-- A thread that has returned makes no step. -/
theorem ne_returned_of_stepWait {s s' : LightweightSemaphore} {w w' : WaitPoint} {call : Acquire}
    {granted : Bool} (h : s.stepWait call granted w = some (s', w')) (b : Bool) : w ≠ .returned b := by
  rintro rfl
  exact absurd h (by simp [LightweightSemaphore.stepWait])

/-- The first step of a signal is its point. -/
theorem signaller_stepSignal {s s' : LightweightSemaphore} {count : ℕ} {g g' : SignalPoint}
    (h : s.stepSignal count g = some (s', g')) :
    signallerPhase (some (count, g')) = .done (.signal count) .signalled ∧
      adding (some (count, g')) = 0 := by
  cases g' with
  | add => exact absurd rfl (ne_add_of_stepSignal h)
  | semaSignal | returned => exact ⟨rfl, rfl⟩

/-- A step of the waiting thread moves nobody else. -/
theorem System.phase_waiter (S : System) (s : LightweightSemaphore) (x : Option (Acquire × WaitPoint)) :
    System.phase { S with sem := s, waiter := x } =
      Function.update S.phase .waiter (waiterPhase x) := by
  funext t
  cases t <;> rfl

/-- A step of the signalling thread moves nobody else. -/
theorem System.phase_signaller (S : System) (s : LightweightSemaphore) (x : Option (ℕ × SignalPoint)) :
    System.phase { S with sem := s, signaller := x } =
      Function.update S.phase .signaller (signallerPhase x) := by
  funext t
  cases t <;> rfl

/-- A step of an observer moves nobody else. -/
theorem System.phase_observer (S : System) (i : ℕ) (x : Observer) :
    System.phase { S with observer := Function.update S.observer i x } =
      Function.update S.phase (.observer i) x.phase := by
  funext t
  cases t with
  | observer j =>
      rcases eq_or_ne j i with rfl | hne
      · simp [System.phase]
      · simp [System.phase, hne]
  | waiter | signaller => rfl

/-! ### What its users keep to -/

/-- The signals that an operation is called with. -/
def Op.count : Op → ℕ
  | .signal count => count
  | .wait _ | .availableApprox => 0

/-- The signals that were called for. -/
def signalled (h : List (Visible Party Op Ret)) : ℕ := ((ops .signaller h).map Op.count).sum

/-- The waits that were told that they consumed one. -/
def succeeded (h : List (Visible Party Op Ret)) : ℕ := (answers .waiter h).count (.returned true)

/-- The users of a semaphore of `n` keep to what it can do: no `signal(0)`, and never more
signals outstanding than a `ssize_t` can count. -/
structure Fits (n : ℕ) (h : List (Visible Party Op Ret)) : Prop where
  pos : ∀ count, .call .signaller (.signal count) ∈ h → 0 < count
  lt : n + signalled h < 2 ^ 63 + succeeded h

/-- What two histories signal adds up. -/
theorem signalled_append (h h' : List (Visible Party Op Ret)) :
    signalled (h ++ h') = signalled h + signalled h' := by
  rw [signalled, ops_append, List.map_append, List.sum_append, ← signalled, ← signalled]

/-- That is so at all times if a `ssize_t` can count all the signals. -/
theorem Fits.of_total {n : ℕ} {h : List (Visible Party Op Ret)}
    (hpos : ∀ count, .call .signaller (.signal count) ∈ h → 0 < count) (hlt : n + signalled h < 2 ^ 63) :
    ∀ h', h' <+: h → Fits n h' := by
  rintro h' ⟨rest, rfl⟩
  rw [signalled_append] at hlt
  exact ⟨fun count hmem => hpos count (List.mem_append_left _ hmem), by omega⟩

/-- The waits that consumed a signal, each counted from its point on. -/
def consumed (S : System) (h : List (Visible Party Op Ret)) : ℕ :=
  ((answers .waiter h ++ (waiterPhase S.waiter).unanswered.map Prod.snd)).count (.returned true)

/-- Signals are neither lost nor consumed twice. -/
structure Accounts (n : ℕ) (S : System) (h : List (Visible Party Op Ret)) : Prop where
  pos : ∀ count, S.signaller = some (count, .add) → 0 < count
  total : S.sem.tokens (waitPoint S.waiter) + consumed S h + adding S.signaller = n + signalled h

/-- There is room for the signals that are about to be added. -/
theorem Accounts.room {n : ℕ} {S : System} {h : List (Visible Party Op Ret)} (hacc : Accounts n S h)
    (hfits : Fits n h) (count : ℕ) (hadd : S.signaller = some (count, .add)) :
    0 < count ∧ S.sem.tokens (waitPoint S.waiter) + count < 2 ^ 63 := by
  refine ⟨hacc.pos count hadd, ?_⟩
  have htotal := hacc.total
  have hlt := hfits.lt
  have hle : succeeded h ≤ consumed S h := by
    rw [succeeded, consumed, List.count_append]
    exact Nat.le_add_right ..
  rw [hadd] at htotal
  change _ + _ + (count : ℤ) = _ at htotal
  omega

/-! ### Every step is one of the counting semaphore -/

/-- The counting semaphore that a system stands for is at `m`. -/
structure Abstracts (S : System) (m : ℕ) : Prop where
  inv : S.sem.Inv (waitPoint S.waiter) (signalPoint S.signaller)
  tokens : S.sem.tokens (waitPoint S.waiter) = m

/-- A step keeps the account. -/
theorem Accounts.step {n m : ℕ} {S S' : System} {h : List (Visible Party Op Ret)}
    {l : Option (Visible Party Op Ret)} (hacc : Accounts n S h) (hS : Abstracts S m) (hfits : Fits n h)
    (hfits' : Fits n (h ++ l.toList)) (hstep : System.Step S l S') : Accounts n S' (h ++ l.toList) := by
  have htotal := hacc.total
  have hinv := hS.inv
  cases hstep with
  | callWait call h =>
      refine ⟨hacc.pos, ?_⟩
      simp_all [answers, consumed, waitPoint, waiterPhase, Phase.unanswered, tokens, signalled, ops]
  | @wait call w s' w' granted h hstep =>
      refine ⟨hacc.pos, ?_⟩
      rw [h, waitPoint] at hinv
      rw [consumed, h, waiterPhase_eq_called (ne_returned_of_stepWait hstep), waitPoint] at htotal
      rw [Option.toList_none, List.append_nil, consumed]
      obtain ⟨-, ⟨rfl, -, htok⟩ | ⟨rfl, hzero, htok⟩ | ⟨hne, htok⟩⟩ := hinv.stepWait hstep
      · simp [waitPoint, waiterPhase, Phase.unanswered, htok] at htotal ⊢
        omega
      · simp_all [waitPoint, waiterPhase, Phase.unanswered]
      · simp_all [waitPoint, waiterPhase_eq_called hne, Phase.unanswered]
  | answerWait h =>
      refine ⟨hacc.pos, ?_⟩
      simp_all [answers, consumed, waitPoint, waiterPhase, Phase.unanswered, tokens, signalled, ops]
  | callSignal count h =>
      refine ⟨fun count' heq => ?_, ?_⟩
      · obtain ⟨rfl, -⟩ := Prod.mk.inj (Option.some.inj heq)
        exact hfits'.pos count (List.mem_append_right _ (List.mem_singleton_self _))
      · simp_all [answers, consumed, adding, signalled, ops, Op.count]
        omega
  | @signal count g s' g' h hstep =>
      obtain ⟨-, hadd⟩ := signaller_stepSignal hstep
      rw [Option.toList_none, List.append_nil]
      rw [h] at hinv htotal
      obtain ⟨-, -, htok⟩ := Inv.stepSignal hinv (fun hg => hacc.room hfits count (hg ▸ h)) hstep
      refine ⟨fun count' heq => ?_, ?_⟩
      · obtain ⟨-, rfl⟩ := Prod.mk.inj (Option.some.inj heq)
        exact absurd rfl (ne_add_of_stepSignal hstep)
      · change s'.tokens (waitPoint S.waiter) + consumed S _ + adding _ = _
        rw [hadd, ← htotal]
        rcases htok with ⟨rfl, htok⟩ | ⟨rfl, rfl, htok⟩
        · simp only [htok, adding]
          omega
        · rw [htok]
          rfl
  | answerSignal h =>
      refine ⟨fun count' heq => absurd heq (by simp), ?_⟩
      simp_all [answers, consumed, adding, signalled, ops]
  | callAvailable i h | load i h | answerAvailable i m h =>
      refine ⟨hacc.pos, ?_⟩
      simpa [answers, consumed, signalled, ops] using htotal

/-- **The semaphore is a counting semaphore**: it follows every step of the threads. -/
theorem System.moves {S S' : System} {m : ℕ} {l : Option (Visible Party Op Ret)} (hS : Abstracts S m)
    (hroom : ∀ count, S.signaller = some (count, .add) →
      0 < count ∧ S.sem.tokens (waitPoint S.waiter) + count < 2 ^ 63) (hstep : System.Step S l S') :
    ∃ t m' p', Moves Counting t l m (S.phase t) m' p' ∧ S'.phase = Function.update S.phase t p' ∧
      Abstracts S' m' := by
  obtain ⟨hinv, htok⟩ := hS
  cases hstep with
  | callWait call h =>
      rw [h, waitPoint] at hinv htok
      refine ⟨.waiter, m, _, ?_, S.phase_waiter S.sem _, hinv.of_outside rfl rfl, htok⟩
      rw [System.phase, h]
      exact .call ..
  | @wait call w s' w' granted h hstep =>
      rw [h, waitPoint] at hinv htok
      have hphase : S.phase .waiter = .called (.wait call) := by
        rw [System.phase, h, waiterPhase_eq_called (ne_returned_of_stepWait hstep)]
      obtain ⟨hinv', ⟨rfl, hpos, htok'⟩ | ⟨rfl, hzero, htok'⟩ | ⟨hne, htok'⟩⟩ := hinv.stepWait hstep
      · obtain ⟨m, rfl⟩ : ∃ m', m = m' + 1 := ⟨m - 1, by omega⟩
        refine ⟨.waiter, m, _, ?_, S.phase_waiter s' _, hinv', ?_⟩
        · rw [hphase]
          exact .point .wait
        · exact htok'.trans (by omega)
      · obtain rfl : m = 0 := by omega
        refine ⟨.waiter, 0, _, ?_, S.phase_waiter s' _, hinv', htok'⟩
        rw [hphase]
        exact .point .fail
      · refine ⟨.waiter, m, _, ?_, S.phase_waiter s' _, hinv', htok'.trans htok⟩
        rw [hphase, waiterPhase_eq_called hne]
        exact .stay ..
  | @answerWait call b h =>
      rw [h, waitPoint] at hinv htok
      refine ⟨.waiter, m, _, ?_, S.phase_waiter S.sem _, hinv.of_outside rfl rfl, htok⟩
      rw [System.phase, h]
      exact .answer ..
  | callSignal count h =>
      rw [h] at hinv
      refine ⟨.signaller, m, _, ?_, S.phase_signaller S.sem _, hinv.of_owed rfl, htok⟩
      rw [System.phase, h]
      exact .call ..
  | @signal count g s' g' h hstep =>
      rw [h] at hinv
      obtain ⟨hinv', -, ⟨rfl, htok'⟩ | ⟨rfl, rfl, htok'⟩⟩ :=
        Inv.stepSignal hinv (fun hg => hroom count (hg ▸ h)) hstep
      · refine ⟨.signaller, m + count, _, ?_, S.phase_signaller s' _, hinv', htok'.trans (by omega)⟩
        rw [System.phase, h, (signaller_stepSignal hstep).1]
        exact .point .signal
      · refine ⟨.signaller, m, _, ?_, S.phase_signaller s' _, hinv', htok'.trans htok⟩
        rw [System.phase, h]
        exact .stay ..
  | answerSignal h =>
      rw [h] at hinv
      refine ⟨.signaller, m, _, ?_, S.phase_signaller S.sem _, hinv.of_owed rfl, htok⟩
      rw [System.phase, h]
      exact .answer ..
  | callAvailable i h =>
      refine ⟨.observer i, m, _, ?_, S.phase_observer i _, hinv, htok⟩
      rw [System.phase, h]
      exact .call ..
  | load i h =>
      obtain ⟨hle, hge, -⟩ := hinv.availableApprox
      refine ⟨.observer i, m, _, ?_, S.phase_observer i _, hinv, htok⟩
      rw [System.phase, h]
      exact .point (.available (by omega) (by omega))
  | answerAvailable i k h =>
      refine ⟨.observer i, m, _, ?_, S.phase_observer i _, hinv, htok⟩
      rw [System.phase, h]
      exact .answer ..

/-- What a system and its history stand for, if its users keep to what it can do. -/
structure Represents (n : ℕ) (x : System × List (Visible Party Op Ret)) (m : ℕ) : Prop
    extends Abstracts x.1 m, Accounts n x.1 x.2 where
  fits : Fits n x.2

/-- Then every step can be followed. -/
theorem simulates (n : ℕ) : Simulates (WithHistory System.Step (Fits n)) Counting fun x c =>
    Represents n x c.obj ∧ c.phase = x.1.phase := by
  refine simulates_of_moves fun x m l y hx ⟨hstep, hhist, hfits⟩ => ?_
  obtain ⟨t, m', p', hmoves, hphase, hS⟩ :=
    System.moves hx.toAbstracts (hx.toAccounts.room hx.fits) hstep
  have hacc := hx.toAccounts.step hx.toAbstracts hx.fits (hhist ▸ hfits) hstep
  rw [← hhist] at hacc
  exact ⟨t, m', p', hmoves, hphase, { hS, hacc with fits := hfits }⟩

/-- A new semaphore stands for what it was constructed with. -/
theorem represents_init {n : ℕ} (hfits : Fits n []) : Represents n (System.init n, []) n where
  inv := by
    have hlt : n < 2 ^ 63 := hfits.lt
    exact inv_init (Int.natCast_nonneg n) (by exact_mod_cast hlt) true
  tokens := Int.add_zero _
  pos count h := absurd h (by simp [System.init])
  total := by
    simp [System.init, LightweightSemaphore.init, LightweightSemaphore.tokens, waitPoint, consumed,
      adding, signalled, answers, ops, waiterPhase, Phase.unanswered]
  fits := hfits

/-- At first it has called nothing either. -/
theorem represents_init_phase {n : ℕ} {h : List (Visible Party Op Ret)}
    (hfits : ∀ h', h' <+: h → Fits n h') :
    Represents n (System.init n, []) (Atomic.init n : Atomic Party Op Ret ℕ).obj ∧
      (Atomic.init n : Atomic Party Op Ret ℕ).phase = (System.init n).phase :=
  ⟨represents_init (hfits [] (List.nil_prefix ..)), funext fun t => by cases t <;> rfl⟩

/-- **The semaphore is linearizable.**  Every history of one waiting thread, one
signalling thread and any number of observers is one of a counting semaphore, if its
users keep to what it can do. -/
theorem System.counting_linearizable {n : ℕ} {h : List (Visible Party Op Ret)} {S : System}
    (hrun : Run System.Step (System.init n) h S) (hfits : ∀ h', h' <+: h → Fits n h') :
    Linearizable Counting n h :=
  (simulates n).linearizable (represents_init_phase hfits) (hrun.withHistory hfits)

/-- Two signals in one call while a thread is in `wait`, which consumes one of them, and
so does a `tryWait` after it. -/
theorem exists_run_signal_wait : ∃ S : System, Run System.Step (System.init 0)
    [.call .waiter (.wait (.wait (-1))), .call .signaller (.signal 2), .answer .signaller .signalled,
      .answer .waiter (.returned true), .call .waiter (.wait .tryWait), .answer .waiter (.returned true)]
    S := by
  have h₀ : Run System.Step (System.init 0) [.call Party.waiter (Op.wait (.wait (-1)))] _ :=
    Run.refl.tail (System.Step.callWait (.wait (-1)) rfl)
  have h₁ := h₀.tail (System.Step.wait true rfl rfl)
  have h₂ := h₁.tail (System.Step.callSignal 2 rfl)
  have h₃ := h₂.tail (System.Step.signal rfl rfl)
  have h₄ := h₃.tail (System.Step.answerSignal rfl)
  have h₅ := h₄.tail (System.Step.wait true rfl rfl)
  have h₆ := h₅.tail (System.Step.wait true rfl rfl)
  have h₇ := h₆.tail (System.Step.answerWait rfl)
  have h₈ := h₇.tail (System.Step.callWait .tryWait rfl)
  have h₉ := h₈.tail (System.Step.wait true rfl rfl)
  have h₁₀ := h₉.tail (System.Step.wait true rfl rfl)
  exact ⟨_, h₁₀.tail (System.Step.answerWait rfl)⟩

/-- A wait that overlaps a signal of two. -/
theorem counting_linearizable_signal_wait : Linearizable Counting 0
    [.call Party.waiter (.wait (.wait (-1))), .call .signaller (.signal 2),
      .answer .signaller .signalled, .answer .waiter (.returned true),
      .call .waiter (.wait .tryWait), .answer .waiter (.returned true)] := by
  obtain ⟨S, hrun⟩ := exists_run_signal_wait
  exact System.counting_linearizable hrun (Fits.of_total (by simp) (by decide))

/-- **What the semaphore guarantees in every reachable state**, if its users keep to what
it can do: the assertion of `signal` holds; the kernel semaphore is at most one; and if the
waiting thread is kept waiting by the kernel, then every signal made so far has been
consumed, but for those that a call is about to add, unless a signal that has been counted
is just about to wake it. -/
theorem System.guarantees {n : ℕ} {h : List (Visible Party Op Ret)} {S : System}
    (hrun : Run System.Step (System.init n) h S) (hfits : ∀ h', h' <+: h → Fits n h') :
    -1 ≤ S.sem.count ∧ S.sem.sema ≤ 1 ∧
      ∀ call, S.waiter = some (call, .semaWait) → S.sem.sema = 0 →
        succeeded h + adding S.signaller = n + signalled h ∨
          ∃ count, S.signaller = some (count, .semaSignal) := by
  obtain ⟨-, c, -, -, hS, -⟩ :=
    (simulates n).run (represents_init_phase hfits) (hrun.withHistory hfits)
  have hinv : S.sem.Inv (waitPoint S.waiter) (signalPoint S.signaller) := hS.inv
  have htotal := hS.total
  refine ⟨hinv.neg_one_le, ?_, fun call hwait hsema => ?_⟩
  · have := hinv.sema
    split_ifs at this <;> omega
  · rw [hwait, waitPoint] at hinv
    simp only [consumed, hwait, waitPoint] at htotal
    obtain hzero | howed := hinv.no_lost_wakeup hsema
    · left
      simp [waiterPhase, Phase.unanswered, hzero] at htotal
      rw [succeeded]
      omega
    · right
      cases hg : S.signaller with
      | none => exact absurd howed (by simp [hg, signalPoint])
      | some x =>
          rw [hg, signalPoint] at howed
          exact ⟨x.1, congrArg some (Prod.ext rfl howed)⟩

/-- The loop over `spin` where there is nothing to take. -/
theorem run_spin {S₀ S : System} {call : Acquire} {h : List (Visible Party Op Ret)}
    (hcount : S.sem.count ≤ 0) : ∀ n, Run System.Step S₀ h { S with waiter := some (call, .spin n) } →
      Run System.Step S₀ h { S with waiter := some (call, .spin 0) }
  | 0, hrun => hrun
  | n + 1, hrun => by
      have hstep : S.sem.stepWait call true (.spin (n + 1)) = some (S.sem, .spin n) := by
        rw [LightweightSemaphore.stepWait, if_neg (by omega)]
      have hnext := hrun.tail (.wait true rfl hstep)
      rw [Option.toList_none, List.append_nil] at hnext
      exact run_spin hcount n hnext

/-- The waiting thread is kept waiting. -/
theorem exists_run_semaWait : ∃ S : System,
    Run System.Step (System.init 0) [.call .waiter (.wait (.wait (-1)))] S ∧
      S.waiter = some (.wait (-1), .semaWait) ∧ S.signaller = none ∧ S.sem = ⟨-1, 0⟩ := by
  have h₀ : Run System.Step (System.init 0) [.call Party.waiter (Op.wait (.wait (-1)))] _ :=
    Run.refl.tail (System.Step.callWait (.wait (-1)) rfl)
  have h₁ := h₀.tail (System.Step.wait true rfl rfl)
  have h₂ := run_spin (Int.le_refl 0) 1024 h₁
  have h₃ := h₂.tail (System.Step.wait true rfl rfl)
  exact ⟨_, h₃.tail (System.Step.wait true rfl rfl), rfl, rfl, rfl⟩

/-- A thread waits for the first token. -/
theorem guarantees_semaWait : ∃ S : System, S.waiter = some (.wait (-1), .semaWait) ∧ S.sem.sema = 0 ∧
    -1 ≤ S.sem.count ∧ S.sem.sema ≤ 1 ∧
      ∀ call, S.waiter = some (call, .semaWait) → S.sem.sema = 0 →
        succeeded [.call .waiter (.wait (.wait (-1)))] + adding S.signaller =
            0 + signalled [.call .waiter (.wait (.wait (-1)))] ∨
          ∃ count, S.signaller = some (count, .semaSignal) := by
  obtain ⟨S, hrun, hwaiter, -, hsem⟩ := exists_run_semaWait
  exact ⟨S, hwaiter, by rw [hsem], System.guarantees hrun (Fits.of_total (by simp) (by decide))⟩

/-- Why `signal(0)` is left out: it wakes a waiting thread that has nothing to consume, and
leaves the counter as if the thread were still waiting. -/
theorem exists_run_signal_zero : ∃ S : System, Run System.Step (System.init 0)
    [.call .waiter (.wait (.wait (-1))), .call .signaller (.signal 0), .answer .signaller .signalled,
      .answer .waiter (.returned true)] S ∧ S.waiter = none ∧ S.sem.count = -1 := by
  obtain ⟨S₀, h₀, hwaiter, hsignaller, hsem⟩ := exists_run_semaWait
  obtain ⟨sem, waiter, signaller, observer⟩ := S₀
  obtain rfl : waiter = _ := hwaiter
  obtain rfl : signaller = _ := hsignaller
  obtain rfl : sem = _ := hsem
  have h₁ := h₀.tail (System.Step.callSignal 0 rfl)
  have h₂ := h₁.tail (System.Step.signal rfl rfl)
  have h₃ := h₂.tail (System.Step.signal rfl rfl)
  have h₄ := h₃.tail (System.Step.answerSignal rfl)
  have h₅ := h₄.tail (System.Step.wait true rfl rfl)
  exact ⟨_, h₅.tail (System.Step.answerWait rfl), rfl, rfl⟩

end LightweightSemaphore
end Moodycamel
end CppDataStream
