/-
# Operations of the circular buffer come to an end

A thread that is past the point of its operation returns in at most three steps,
whatever the others do (`trailing`).  One that is not has a step that brings it nearer
to its point (`leading`), if there is room for its element, or an element for it, and
the thread at the other end does not owe it a signal (`Inv.exists_stepEnqueue`,
`Inv.exists_stepTake`).
-/

import CppDataStream.Moodycamel.BoundedFifo

namespace CppDataStream
namespace Moodycamel

open BoundedQueue

variable {α : Type*}

/-! ### Past the point -/

def SignalPoint.trailing : SignalPoint → ℕ
  | add => 0
  | semaSignal => 3
  | returned => 2

/-- The steps to the return of an operation past its point. -/
def EnqueuePoint.trailing (mode : Mode) : EnqueuePoint → ℕ
  | acquire w => if w = .returned false ∧ mode.repeats = false then 2 else 0
  | construct => 0
  | signal g => g.trailing
  | returning _ => 1

def TakePoint.trailing (mode : Mode) : TakePoint α → ℕ
  | acquire w => if w = .returned false ∧ mode.repeats = false then 2 else 0
  | take | destroy .. => 0
  | signal _ g => g.trailing
  | returning _ => 1

/-- The point of a signal is its `fetch_add`. -/
theorem SignalPoint.trailing_eq_zero {g : SignalPoint} : g.trailing = 0 ↔ g = .add := by
  cases g <;> simp [trailing]

/-- An `enqueue` is past its point when its answer is known. -/
theorem EnqueuePoint.trailing_eq_zero {mode : Mode} {p : EnqueuePoint} :
    p.trailing mode = 0 ↔ p.answer mode = (none : Option (Ret α)) := by
  cases p <;> simp [trailing, SignalPoint.trailing_eq_zero]

/-- An operation that takes an element is past its point when its answer is known. -/
theorem TakePoint.trailing_eq_zero {call : Take} {p : TakePoint α} :
    p.trailing call.mode = 0 ↔ p.answer call = none := by
  cases p <;> simp [trailing, SignalPoint.trailing_eq_zero]

/-- A signal past its point goes on. -/
theorem exists_stepSignal {s : LightweightSemaphore} {g : SignalPoint} (hg : g.trailing ≠ 0)
    (hne : g ≠ .returned) : ∃ s' g', s.stepSignal 1 g = some (s', g') ∧ g'.trailing < g.trailing := by
  cases g with
  | add => exact absurd rfl hg
  | semaSignal => exact ⟨_, _, rfl, by decide⟩
  | returned => exact absurd rfl hne

/-- **An operation past its point returns**, whatever the other threads do. -/
theorem exists_stepEnqueue_of_trailing {mode : Mode} (item : α) (b : CircularBuffer α) {p : EnqueuePoint}
    (hp : p.trailing mode ≠ 0) :
    (∃ r, p = .returning r) ∨ ∃ b' p', stepEnqueue mode item true b p = some (b', p') ∧
      p'.trailing mode < p.trailing mode := by
  cases p with
  | acquire w =>
      rw [EnqueuePoint.trailing] at hp
      split_ifs at hp with hw
      · obtain ⟨rfl, hmode⟩ := hw
        refine Or.inr ⟨b, .returning false, by simp [stepEnqueue, hmode], ?_⟩
        simp [EnqueuePoint.trailing, hmode]
      · exact absurd rfl hp
  | construct => exact absurd rfl hp
  | signal g =>
      refine Or.inr ?_
      by_cases hg : g = .returned
      · subst hg
        exact ⟨b, .returning true, rfl, Nat.lt_succ_self 1⟩
      · obtain ⟨s', g', hstep, hlt⟩ := @exists_stepSignal b.items g hp hg
        exact ⟨_, .signal g', by rw [stepEnqueue_signal hg, hstep]; rfl, hlt⟩
  | returning r => exact Or.inl ⟨r, rfl⟩

/-- The same for an operation that takes an element. -/
theorem exists_stepTake_of_trailing {call : Take} (b : CircularBuffer α) {p : TakePoint α}
    (hp : p.trailing call.mode ≠ 0) :
    (∃ r, p = .returning r) ∨ ∃ b' p', stepTake call true b p = some (b', p') ∧
      p'.trailing call.mode < p.trailing call.mode := by
  cases p with
  | acquire w =>
      rw [TakePoint.trailing] at hp
      split_ifs at hp with hw
      · obtain ⟨rfl, hmode⟩ := hw
        refine Or.inr ⟨b, .returning .refused, by simp [stepTake, hmode], ?_⟩
        simp [TakePoint.trailing, hmode]
      · exact absurd rfl hp
  | take | destroy => exact absurd rfl hp
  | signal r g =>
      refine Or.inr ?_
      by_cases hg : g = .returned
      · subst hg
        exact ⟨b, .returning r, rfl, Nat.lt_succ_self 1⟩
      · obtain ⟨s', g', hstep, hlt⟩ := @exists_stepSignal b.slots g hp hg
        exact ⟨_, .signal r g', by rw [stepTake_signal hg, hstep]; rfl, hlt⟩
  | returning r => exact Or.inl ⟨r, rfl⟩

/-! ### Before the point -/

/-- How far an operation is from its point, when nothing holds it up. -/
def EnqueuePoint.leading : EnqueuePoint → ℕ
  | acquire w => if w = .returned false then 6 else LightweightSemaphore.rank w + 3
  | construct => 2
  | signal _ => 1
  | returning _ => 0

def TakePoint.leading : TakePoint α → ℕ
  | acquire w => if w = .returned false then 7 else LightweightSemaphore.rank w + 4
  | take => 3
  | destroy .. => 2
  | signal .. => 1
  | returning _ => 0

/-- A thread with a signal to consume comes nearer to it. -/
theorem exists_stepWait {s : LightweightSemaphore} {w : WaitPoint} {g : SignalPoint} (h : s.Inv w g)
    (hg : g ≠ .semaSignal) (htok : 0 < s.tokens w) (hw : ∀ r, w ≠ .returned r) (call : Acquire) :
    ∃ s' w', s.stepWait call true w = some (s', w') ∧ w' ≠ .returned false ∧
      LightweightSemaphore.rank w' < LightweightSemaphore.rank w := by
  obtain ⟨s', w', hstep, hlt⟩ := h.exists_stepWait hg htok hw call
  refine ⟨s', w', hstep, ?_, hlt⟩
  rintro rfl
  obtain ⟨-, ⟨heq, -⟩ | ⟨-, hzero, -⟩ | ⟨hne, -⟩⟩ := h.stepWait hstep
  · exact absurd heq (by decide)
  · omega
  · exact hne false rfl

section Steps

variable {cap k n : ℕ} {b : CircularBuffer α} {P : Producer α} {C : Consumer α} {q : List α}

/-- **The producer comes nearer to its point** when the queue is not full and the
consumer does not owe it a signal; and at its point its element joins the queue. -/
theorem Inv.exists_stepEnqueue {mode : Mode} {item : α} {p : EnqueuePoint}
    (h : Inv cap k n b (.enqueue mode item p) C q) (hC : C.sig ≠ .semaSignal) (hlt : q.length < cap)
    (hp : p.trailing mode = 0) :
    ∃ b' p', Moodycamel.stepEnqueue mode item true b p = some (b', p') ∧
      (p'.trailing mode = 0 ∧ p'.leading < p.leading ∨ p'.answer mode = some (.ok : Ret α)) := by
  cases p with
  | acquire w =>
      by_cases hw : ∃ r, w = .returned r
      · obtain ⟨r, rfl⟩ := hw
        cases r with
        | true => exact ⟨_, _, rfl, Or.inl ⟨rfl, by decide⟩⟩
        | false =>
            have hmode : mode.repeats = true := by simpa [EnqueuePoint.trailing] using hp
            refine ⟨_, _, rfl, Or.inl ?_⟩
            rw [hmode]
            exact ⟨rfl, by decide⟩
      · rw [not_exists] at hw
        have hfree := h.free
        have htok : 0 < b.slots.tokens w := by
          simp [hw] at hfree
          omega
        have hslots : b.slots.Inv w C.sig := h.slots
        obtain ⟨s', w', hstep, hne, hrank⟩ := exists_stepWait hslots hC htok hw mode.acquire
        refine ⟨_, .acquire w', by rw [stepEnqueue_acquire hw, hstep]; rfl, Or.inl ⟨?_, ?_⟩⟩
        · simp [EnqueuePoint.trailing, hne]
        · rw [EnqueuePoint.leading, EnqueuePoint.leading, if_neg hne, if_neg (hw false)]
          omega
  | construct => exact ⟨_, _, rfl, Or.inl ⟨rfl, by decide⟩⟩
  | signal g =>
      obtain rfl := SignalPoint.trailing_eq_zero.mp hp
      refine ⟨_, _, rfl, Or.inr ?_⟩
      split_ifs <;> rfl
  | returning r => exact absurd hp Nat.one_ne_zero

/-- **The consumer comes nearer to its point** when the queue is not empty and the
producer does not owe it a signal. -/
theorem Inv.exists_stepTake {call : Take} {p : TakePoint α} (h : Inv cap k n b P (.take call p) q)
    (hP : P.sig ≠ .semaSignal) (hq : q ≠ []) (hp : p.trailing call.mode = 0) :
    ∃ b' p', Moodycamel.stepTake call true b p = some (b', p') ∧
      (p'.trailing call.mode = 0 → p'.leading < p.leading) := by
  cases p with
  | acquire w =>
      by_cases hw : ∃ r, w = .returned r
      · obtain ⟨r, rfl⟩ := hw
        cases r with
        | true => exact ⟨_, _, rfl, fun _ => by simp [TakePoint.leading, LightweightSemaphore.rank]⟩
        | false =>
            have hmode : call.mode.repeats = true := by simpa [TakePoint.trailing] using hp
            refine ⟨_, _, rfl, fun _ => ?_⟩
            rw [hmode]
            simp [TakePoint.leading, LightweightSemaphore.rank]
      · rw [not_exists] at hw
        have hstored := h.stored
        have hpos := List.length_pos_iff.mpr hq
        have htok : 0 < b.items.tokens w := by
          simp [hw] at hstored
          omega
        have hitems : b.items.Inv w P.sig := h.items
        obtain ⟨s', w', hstep, hne, hrank⟩ := exists_stepWait hitems hP htok hw call.mode.acquire
        refine ⟨_, .acquire w', by rw [stepTake_acquire hw, hstep]; rfl, fun _ => ?_⟩
        rw [TakePoint.leading, TakePoint.leading, if_neg hne, if_neg (hw false)]
        omega
  | take =>
      have hne : Moodycamel.stepTake call true b .take ≠ none := fun hnone =>
        by simpa using h.stepTake_eq_none hnone
      obtain ⟨⟨b', p'⟩, hstep⟩ := Option.ne_none_iff_exists'.mp hne
      refine ⟨b', p', hstep, fun _ => ?_⟩
      cases call <;> (obtain ⟨_, -, heq⟩ := Option.map_eq_some_iff.mp hstep
                      obtain ⟨-, rfl⟩ := Prod.mk.inj heq
                      simp [TakePoint.leading])
  | destroy i v =>
      have hne : Moodycamel.stepTake call true b (.destroy i v) ≠ none := fun hnone =>
        by simpa using h.stepTake_eq_none hnone
      obtain ⟨⟨b', p'⟩, hstep⟩ := Option.ne_none_iff_exists'.mp hne
      refine ⟨b', p', hstep, fun _ => ?_⟩
      obtain ⟨_, -, heq⟩ := Option.map_eq_some_iff.mp hstep
      obtain ⟨-, rfl⟩ := Prod.mk.inj heq
      simp [TakePoint.leading]
  | signal r g =>
      obtain rfl := SignalPoint.trailing_eq_zero.mp hp
      refine ⟨_, _, rfl, fun h => ?_⟩
      have hadd := SignalPoint.trailing_eq_zero.mp h
      split_ifs at hadd
  | returning r => exact absurd hp Nat.one_ne_zero

end Steps

end Moodycamel
end CppDataStream
