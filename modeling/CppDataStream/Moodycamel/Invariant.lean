/-
# The circular buffer stands for a bounded queue

`Inv cap k n b P C q`: with the producer at `P` and the consumer at `C`, the buffer `b`
of capacity `cap` and mask `2 ^ k - 1`, from which `n` elements have been taken, stands
for the queue `q`.  An element joins the queue when the producer counts it in `items`,
and leaves it when the consumer counts its cell in `slots`; these are the points of the
operations.  The two semaphores count the elements and the free cells, less those that a
thread has acquired already (`held`), and the cells from `n` on hold the queue, where the
consumer may have emptied the first cell (`front`), and after it perhaps an element that
the producer has built (`built`).

A step of the producer, and of the consumer, keeps this and is a move of its thread
(`Inv.stepEnqueue`, `Inv.stepTake`, `Inv.stepPeek`).
-/

import CppDataStream.Moodycamel.CircularBuffer

namespace CppDataStream
namespace Moodycamel

open Linearizability BoundedQueue

variable {α : Type*}

/-! ### What the program points say -/

namespace EnqueuePoint

@[simp] def wait : EnqueuePoint → WaitPoint
  | acquire w => w
  | construct | signal _ | returning _ => .returned true

@[simp] def sig : EnqueuePoint → SignalPoint
  | signal g => g
  | acquire _ | construct | returning _ => .returned

/-- A free cell that the producer has acquired. -/
@[simp] def held : EnqueuePoint → ℕ
  | acquire w => if w = .returned true then 1 else 0
  | construct => 1
  | signal g => if g = .add then 1 else 0
  | returning _ => 0

/-- An element that is in its cell and not yet in the queue. -/
@[simp] def built (item : α) : EnqueuePoint → List (Cell α)
  | signal g => if g = .add then [.live item] else []
  | acquire _ | construct | returning _ => []

/-- What is returned, once it is decided. -/
@[simp] def answer (mode : Mode) : EnqueuePoint → Option (Ret α)
  | acquire w => if w = .returned false ∧ mode.repeats = false then some .refused else none
  | construct => none
  | signal g => if g = .add then none else some .ok
  | returning b => some (if b then .ok else .refused)

end EnqueuePoint

namespace TakePoint

@[simp] def wait : TakePoint α → WaitPoint
  | acquire w => w
  | take | destroy .. | signal .. | returning _ => .returned true

@[simp] def sig : TakePoint α → SignalPoint
  | signal _ g => g
  | acquire _ | take | destroy .. | returning _ => .returned

/-- An element that the consumer has acquired. -/
@[simp] def held : TakePoint α → ℕ
  | acquire w => if w = .returned true then 1 else 0
  | take | destroy .. => 1
  | signal _ g => if g = .add then 1 else 0
  | returning _ => 0

/-- The consumer has counted the element in `nextItem`. -/
@[simp] def counted : TakePoint α → ℕ
  | destroy .. => 1
  | signal _ g => if g = .add then 1 else 0
  | acquire _ | take | returning _ => 0

/-- The cells of the queue. -/
@[simp] def front (q : List α) : TakePoint α → List (Cell α)
  | destroy .. => .moved :: q.tail.map .live
  | signal _ g => if g = .add then .raw :: q.tail.map .live else q.map .live
  | acquire _ | take | returning _ => q.map .live

@[simp] def answer (call : Take) : TakePoint α → Option (Ret α)
  | acquire w => if w = .returned false ∧ call.mode.repeats = false then some .refused else none
  | take | destroy .. => none
  | signal r g => if g = .add then none else some r
  | returning r => some r

/-- What the consumer has in its local variables is the front of the queue. -/
@[simp] def Local (n : ℕ) (q : List α) (call : Take) : TakePoint α → Prop
  | destroy i v => (∃ mode, call = .dequeue mode) ∧ i = n % 2 ^ 64 ∧ q.head? = some v
  | signal r g => g = .add → match call with
      | .dequeue _ => ∃ v, q.head? = some v ∧ r = .value v
      | .pop => r = .ok
  | acquire _ | take | returning _ => True

end TakePoint

/-- An operation that takes an element may be refused by an empty queue, unless it
waits. -/
theorem Take.legal_refused {cap : ℕ} {call : Take} (h : call.mode.repeats = false) :
    Legal cap ([] : List α) call.op .refused [] := by
  cases call with
  | dequeue mode =>
      rw [Take.op, show mode.repeats = false from h]
      exact .empty
  | pop => exact .dropEmpty

/-- What an operation is to answer for the element it has taken is what a queue may
answer. -/
theorem Take.legal_taken {cap : ℕ} (n : ℕ) {call : Take} {v : α} {q : List α} {r : Ret α}
    (h : (TakePoint.signal r .add).Local n (v :: q) call) : Legal cap (v :: q) call.op r q := by
  cases call with
  | dequeue mode =>
      obtain ⟨w, hw, rfl⟩ := h rfl
      obtain rfl := Option.some.inj hw
      exact .pull
  | pop =>
      obtain rfl := h rfl
      exact .drop

@[simp] def PeekPoint.answer : PeekPoint α → Option (Ret α)
  | .returning r => some r
  | .load | .read => none

/-- The phase of a thread in an operation. -/
def opPhase (op : Op α) : Option (Ret α) → Phase (Op α) (Ret α)
  | none => .called op
  | some r => .done op r

/-- A step inside an operation is its point, or leaves its answer as it was. -/
theorem opPhase_moves {κ Q : Type*} {spec : Q → Op α → Ret α → Q → Prop} {t : κ} {op : Op α}
    {a a' : Option (Ret α)} {q q' : Q} (h : Moves spec t none q (opPhase op a) q' (opPhase op a')) :
    (q' = q ∧ a' = a) ∨ (a = none ∧ ∃ r, a' = some r ∧ spec q op r q') := by
  generalize hp : opPhase op a = p at h
  generalize hp' : opPhase op a' = p' at h
  cases h with
  | point hspec =>
      cases a with
      | some r => exact absurd hp (by simp [opPhase])
      | none =>
          cases a' with
          | none => exact absurd hp' (by simp [opPhase])
          | some r' =>
              obtain rfl := Phase.called.inj hp
              obtain ⟨-, rfl⟩ := Phase.done.inj hp'
              exact Or.inr ⟨rfl, _, rfl, hspec⟩
  | stay =>
      have heq : opPhase op a' = opPhase op a := hp'.trans hp.symm
      refine Or.inl ⟨rfl, ?_⟩
      cases a with
      | none => cases a' with
        | none => rfl
        | some r' => exact absurd heq (by simp [opPhase])
      | some r => cases a' with
        | none => exact absurd heq (by simp [opPhase])
        | some r' => rw [(Phase.done.inj heq).2]

namespace Producer

def wait : Producer α → WaitPoint
  | idle => .returned true
  | enqueue _ _ p => p.wait

def sig : Producer α → SignalPoint
  | idle => .returned
  | enqueue _ _ p => p.sig

def held : Producer α → ℕ
  | idle => 0
  | enqueue _ _ p => p.held

def built : Producer α → List (Cell α)
  | idle => []
  | enqueue _ item p => p.built item

def phase : Producer α → Phase (Op α) (Ret α)
  | idle => .idle
  | enqueue mode item p => opPhase (.push item mode.repeats) (p.answer mode)

variable (mode : Mode) (item : α) (p : EnqueuePoint)

/-- The views of a producer in an operation are those of its point. -/
@[simp] theorem wait_enqueue : (enqueue mode item p).wait = p.wait := rfl
@[simp] theorem sig_enqueue : (enqueue mode item p).sig = p.sig := rfl
@[simp] theorem held_enqueue : (enqueue mode item p).held = p.held := rfl
@[simp] theorem built_enqueue : (enqueue mode item p).built = p.built item := rfl
@[simp] theorem phase_enqueue :
    (enqueue mode item p).phase = opPhase (.push item mode.repeats) (p.answer mode) := rfl

/-- A cell is constructed only with a slot held. -/
theorem length_built_le (P : Producer α) : P.built.length ≤ P.held := by
  cases P with
  | idle => exact le_rfl
  | enqueue mode item p =>
      cases p <;> simp
      split_ifs <;> simp

end Producer

namespace Consumer

def wait : Consumer α → WaitPoint
  | take _ p => p.wait
  | idle | peek _ => .returned true

def sig : Consumer α → SignalPoint
  | take _ p => p.sig
  | idle | peek _ => .returned

def held : Consumer α → ℕ
  | take _ p => p.held
  | idle | peek _ => 0

def counted : Consumer α → ℕ
  | take _ p => p.counted
  | idle | peek _ => 0

def front (q : List α) : Consumer α → List (Cell α)
  | take _ p => p.front q
  | idle | peek _ => q.map .live

def Local (n : ℕ) (q : List α) : Consumer α → Prop
  | take call p => p.Local n q call
  | peek .read => q ≠ []
  | idle | peek _ => True

def phase : Consumer α → Phase (Op α) (Ret α)
  | idle => .idle
  | take call p => opPhase call.op (p.answer call)
  | peek p => opPhase .peek p.answer

variable (call : Take) (p : TakePoint α) (q : List α) (n : ℕ)

/-- The views of a consumer in such an operation are those of its point. -/
@[simp] theorem wait_take : (take call p).wait = p.wait := rfl
@[simp] theorem sig_take : (take call p).sig = p.sig := rfl
@[simp] theorem held_take : (take call p).held = p.held := rfl
@[simp] theorem counted_take : (take call p).counted = p.counted := rfl
@[simp] theorem front_take : (take call p).front q = p.front q := rfl
@[simp] theorem local_take : (take call p).Local n q = p.Local n q call := rfl
@[simp] theorem phase_take : (take call p).phase = opPhase call.op (p.answer call) := rfl

end Consumer

/-! ### The invariant -/

/-- The buffer stands for the queue `q`. -/
structure Inv (cap k n : ℕ) (b : CircularBuffer α) (P : Producer α) (C : Consumer α) (q : List α) :
    Prop where
  width : k ≤ 64
  /-- The constructor of a semaphore asserts it. -/
  bound : cap < 2 ^ 63
  fits : cap ≤ 2 ^ k
  mask : b.mask = 2 ^ k - 1
  slots : b.slots.Inv P.wait C.sig
  items : b.items.Inv C.wait P.sig
  free : b.slots.tokens P.wait + P.held + q.length = cap
  stored : b.items.tokens C.wait + C.held = q.length
  nextItem : b.nextItem = (n + C.counted) % 2 ^ 64
  nextSlot : b.nextSlot = (n + (C.front q ++ P.built).length) % 2 ^ 64
  cells : Ring (2 ^ k) .raw n b.cells (C.front q ++ P.built)
  loc : C.Local n q

section Steps

variable {κ : Type*} {cap k n : ℕ} {b b' : CircularBuffer α} {P : Producer α} {C : Consumer α}
  {q : List α} {mode : Mode} {item : α} {granted : Bool}

/-- An index of the buffer is taken modulo the number of cells. -/
theorem Inv.and_mask (h : Inv cap k n b P C q) (i : ℕ) : i % 2 ^ 64 &&& b.mask = i % 2 ^ k := by
  rw [h.mask, Masks.wrap_and_mask h.width]

/-- What the consumer holds is in the queue. -/
theorem Inv.ne_nil (h : Inv cap k n b P C q) (hC : 0 < C.held) : q ≠ [] := by
  rintro rfl
  have hstored := h.stored
  have hnonneg := h.items.nonneg
  rw [List.length_nil] at hstored
  omega

/-- As many cells from `nextItem` on are accounted for as there are elements. -/
theorem Inv.length_front (h : Inv cap k n b P C q) : (C.front q).length = q.length := by
  rcases q with _ | ⟨v, q⟩
  · have hnil (hC : 0 < C.held) : False := h.ne_nil hC rfl
    cases C with
    | take call p => cases p <;> simp_all
    | idle | peek => rfl
  · cases C with
    | take call p =>
        cases p <;> simp
        split_ifs <;> simp
    | idle | peek => simp [Consumer.front]

/-- A new last element does not touch the front. -/
theorem Inv.concat (h : Inv cap k n b P C q) (v : α) :
    C.front (q ++ [v]) = C.front q ++ [.live v] ∧ C.Local n (q ++ [v]) := by
  have hloc := h.loc
  rcases q with _ | ⟨u, q⟩
  · have hnil (hC : 0 < C.held) : False := h.ne_nil hC rfl
    cases C with
    | take call p => cases p <;> simp_all
    | idle => exact ⟨rfl, trivial⟩
    | peek p => cases p <;> simp_all [Consumer.front, Consumer.Local]
  · cases C with
    | take call p =>
        cases p <;> simp_all
        split_ifs <;> simp
    | idle => exact ⟨by simp [Consumer.front], trivial⟩
    | peek p => cases p <;> simp [Consumer.front, Consumer.Local]

/-! ### The steps of the producer -/

/-- To acquire a slot is to wait for the semaphore `slots_`. -/
theorem stepEnqueue_acquire {w : WaitPoint} (hw : ∀ r, w ≠ .returned r) :
    stepEnqueue mode item granted b (.acquire w) =
      (b.slots.stepWait mode.acquire granted w).map fun p =>
        ({ b with slots := p.1 }, .acquire p.2) := by
  cases w with
  | returned r => exact absurd rfl (hw r)
  | _ => rfl

/-- To publish an element is to signal the semaphore `items`. -/
theorem stepEnqueue_signal {g : SignalPoint} (hg : g ≠ .returned) :
    stepEnqueue mode item granted b (.signal g) =
      (b.items.stepSignal 1 g).map fun p => ({ b with items := p.1 }, .signal p.2) := by
  cases g with
  | returned => exact absurd rfl hg
  | add | semaSignal => rfl

/-- **A step of the producer.** -/
theorem Inv.stepEnqueue {p p' : EnqueuePoint} (t : κ) (h : Inv cap k n b (.enqueue mode item p) C q)
    (hstep : stepEnqueue mode item granted b p = some (b', p')) :
    ∃ q', Inv cap k n b' (.enqueue mode item p') C q' ∧
      Moves (Legal cap) t none q (Producer.enqueue mode item p).phase q'
        (Producer.enqueue mode item p').phase := by
  cases p with
  | acquire w =>
      by_cases hw : ∃ r, w = .returned r
      · obtain ⟨r, rfl⟩ := hw
        cases r with
        | true =>
            obtain ⟨rfl, rfl⟩ := Prod.mk.inj (Option.some.inj hstep)
            exact ⟨q, { h with }, .stay ..⟩
        | false =>
            obtain ⟨rfl, rfl⟩ := Prod.mk.inj (Option.some.inj hstep)
            cases hmode : mode.repeats with
            | true =>
                refine ⟨q, { h with slots := h.slots.of_outside rfl rfl }, ?_⟩
                simp [hmode]
                exact .stay ..
            | false =>
                refine ⟨q, { h with slots := h.slots.of_outside rfl rfl }, ?_⟩
                simp [hmode]
                exact .stay ..
      · rw [not_exists] at hw
        rw [stepEnqueue_acquire hw] at hstep
        obtain ⟨⟨s', w'⟩, hwait, heq⟩ := Option.map_eq_some_iff.mp hstep
        obtain ⟨rfl, rfl⟩ := Prod.mk.inj heq
        have hfree := h.free
        obtain ⟨hslots, ⟨rfl, -, htok⟩ | ⟨rfl, hzero, htok⟩ | ⟨hne, htok⟩⟩ := h.slots.stepWait hwait
        · refine ⟨q, { h with slots := hslots, free := ?_ }, ?_⟩
          · simp [hw] at htok hfree ⊢
            omega
          · simp [hw]
            exact .stay ..
        · refine ⟨q, { h with slots := hslots, free := ?_ }, ?_⟩
          · simp [hw] at hzero htok hfree ⊢
            omega
          · cases hmode : mode.repeats with
            | true =>
                simp [hw, hmode]
                exact .stay ..
            | false =>
                simp [hw, hmode]
                exact .point (.full (by simp [hw] at hzero hfree; omega))
        · refine ⟨q, { h with slots := hslots, free := ?_ }, ?_⟩
          · simp [hw, hne] at htok hfree ⊢
            omega
          · simp [hw, hne]
            exact .stay ..
  | construct =>
      obtain ⟨rfl, rfl⟩ := Prod.mk.inj (Option.some.inj hstep)
      have hlen : (C.front q).length < 2 ^ k := by
        have hfree := h.free
        have hnonneg := h.slots.nonneg
        have hfits := h.fits
        have hfront := h.length_front
        simp only [Producer.held_enqueue, EnqueuePoint.held] at hfree
        omega
      have hring := h.cells
      have hslot := h.nextSlot
      simp only [Producer.built_enqueue, EnqueuePoint.built, List.append_nil] at hring hslot
      refine ⟨q, { h with items := h.items.of_owed rfl, nextSlot := ?_, cells := ?_ }, .stay ..⟩
      · simp only [Producer.built_enqueue, EnqueuePoint.built, if_true, List.length_append,
          List.length_singleton, hslot, Nat.mod_add_mod, Nat.add_assoc]
      · rw [hslot, h.and_mask]
        exact hring.append hlen _
  | signal g =>
      cases g with
      | add =>
          rw [stepEnqueue_signal (by decide), Option.map_eq_some_iff] at hstep
          obtain ⟨⟨s', g'⟩, hsig, heq⟩ := hstep
          obtain ⟨rfl, rfl⟩ := Prod.mk.inj heq
          have hg' := LightweightSemaphore.ne_add_of_stepSignal hsig
          have hfree := h.free
          have hnonneg : 0 ≤ b.slots.tokens (.returned true) := h.slots.nonneg
          have hstored := h.stored
          have hring := h.cells
          have hslot := h.nextSlot
          obtain ⟨hfront, hloc⟩ := h.concat item
          have hbound := h.bound
          simp at hfree hring hslot
          have hroom : b.items.tokens C.wait + (1 : ℕ) < 2 ^ 63 := by omega
          obtain ⟨hitems, -, ⟨-, htok⟩ | ⟨hg, -⟩⟩ :=
            h.items.stepSignal (fun _ => ⟨Nat.one_pos, hroom⟩) hsig
          · refine ⟨q ++ [item], { h with
              items := hitems
              free := ?_
              stored := ?_
              nextSlot := ?_
              cells := ?_
              loc := hloc }, ?_⟩
            · simp [hg']
              omega
            · simp at htok ⊢
              omega
            · simpa [hg', hfront] using hslot
            · simpa [hg', hfront] using hring
            · simp [hg']
              refine .point (.push ?_)
              omega
          · exact absurd hg (by simp)
      | semaSignal =>
          rw [stepEnqueue_signal (by decide), Option.map_eq_some_iff] at hstep
          obtain ⟨⟨s', g'⟩, hsig, heq⟩ := hstep
          obtain ⟨rfl, rfl⟩ := Prod.mk.inj heq
          obtain ⟨hitems, -, ⟨hg, -⟩ | ⟨-, rfl, htok⟩⟩ :=
            h.items.stepSignal (fun hg => absurd hg (by simp)) hsig
          · exact absurd hg (by simp)
          · refine ⟨q, { h with items := hitems, stored := ?_ }, .stay ..⟩
            rw [htok]
            exact h.stored
      | returned =>
          obtain ⟨rfl, rfl⟩ := Prod.mk.inj (Option.some.inj hstep)
          exact ⟨q, { h with }, .stay ..⟩
  | returning r => exact absurd hstep (by simp [Moodycamel.stepEnqueue])

/-! ### The steps of the consumer -/

/-- To acquire an element is to wait for the semaphore `items`. -/
theorem stepTake_acquire {call : Take} {w : WaitPoint} (hw : ∀ r, w ≠ .returned r) :
    stepTake call granted b (.acquire w) =
      (b.items.stepWait call.mode.acquire granted w).map fun p =>
        ({ b with items := p.1 }, .acquire p.2) := by
  cases w with
  | returned r => exact absurd rfl (hw r)
  | _ => rfl

/-- To give a slot back is to signal the semaphore `slots_`. -/
theorem stepTake_signal {call : Take} {r : Ret α} {g : SignalPoint} (hg : g ≠ .returned) :
    stepTake call granted b (.signal r g) =
      (b.slots.stepSignal 1 g).map fun p => ({ b with slots := p.1 }, .signal r p.2) := by
  cases g with
  | returned => exact absurd rfl hg
  | add | semaSignal => rfl

/-- With what the producer has built, the queue fits into the cells. -/
theorem Inv.length_lt {v : α} (h : Inv cap k n b P C (v :: q)) {l : List (Cell α)}
    (hl : l = q.map .live) : (l ++ P.built).length < 2 ^ k := by
  have hfree := h.free
  have hfits := h.fits
  have hnonneg := h.slots.nonneg
  have hbuilt := P.length_built_le
  simp only [hl, List.length_append, List.length_map, List.length_cons] at hfree ⊢
  omega

/-- The consumer that has acquired an element finds it in its cell. -/
theorem Inv.front_cell (h : Inv cap k n b P C q) {c : Cell α} {l : List (Cell α)}
    (hl : C.front q ++ P.built = c :: l) : b.cells (n % 2 ^ k) = c := by
  have hcells := h.cells
  rw [hl] at hcells
  exact hcells 0 (Nat.two_pow_pos k)

/-- **A step of the consumer that takes an element.** -/
theorem Inv.stepTake {call : Take} {p p' : TakePoint α} (t : κ) (h : Inv cap k n b P (.take call p) q)
    (hstep : stepTake call granted b p = some (b', p')) :
    ∃ n' q', Inv cap k n' b' P (.take call p') q' ∧
      Moves (Legal cap) t none q (Consumer.take call p).phase q' (Consumer.take call p').phase := by
  cases p with
  | acquire w =>
      by_cases hw : ∃ r, w = .returned r
      · obtain ⟨r, rfl⟩ := hw
        cases r with
        | true =>
            obtain ⟨rfl, rfl⟩ := Prod.mk.inj (Option.some.inj hstep)
            exact ⟨n, q, { h with }, .stay ..⟩
        | false =>
            obtain ⟨rfl, rfl⟩ := Prod.mk.inj (Option.some.inj hstep)
            cases hmode : call.mode.repeats with
            | true =>
                refine ⟨n, q, { h with items := h.items.of_outside rfl rfl }, ?_⟩
                simp [hmode]
                exact .stay ..
            | false =>
                refine ⟨n, q, { h with items := h.items.of_outside rfl rfl }, ?_⟩
                simp [hmode]
                exact .stay ..
      · rw [not_exists] at hw
        rw [stepTake_acquire hw] at hstep
        obtain ⟨⟨s', w'⟩, hwait, heq⟩ := Option.map_eq_some_iff.mp hstep
        obtain ⟨rfl, rfl⟩ := Prod.mk.inj heq
        have hstored := h.stored
        obtain ⟨hitems, ⟨rfl, -, htok⟩ | ⟨rfl, hzero, htok⟩ | ⟨hne, htok⟩⟩ := h.items.stepWait hwait
        · refine ⟨n, q, { h with items := hitems, stored := ?_ }, ?_⟩
          · simp [hw] at htok hstored ⊢
            omega
          · simp [hw]
            exact .stay ..
        · refine ⟨n, q, { h with items := hitems, stored := ?_ }, ?_⟩
          · simp [hw] at hzero htok hstored ⊢
            omega
          · cases hmode : call.mode.repeats with
            | true =>
                simp [hw, hmode]
                exact .stay ..
            | false =>
                obtain rfl : q = [] := by
                  simp [hw] at hzero hstored
                  exact List.length_eq_zero_iff.mp (by omega)
                simp [hw, hmode]
                exact .point (call.legal_refused hmode)
        · refine ⟨n, q, { h with items := hitems, stored := ?_ }, ?_⟩
          · simp [hw, hne] at htok hstored ⊢
            omega
          · simp [hw, hne]
            exact .stay ..
  | take =>
      obtain ⟨v, q, rfl⟩ := List.exists_cons_of_ne_nil (h.ne_nil (by simp))
      have hcells : Ring (2 ^ k) .raw n b.cells (.live v :: (q.map .live ++ P.built)) := h.cells
      have hslot := h.nextSlot
      have hitem : b.nextItem &&& b.mask = n % 2 ^ k := by
        rw [h.nextItem, h.and_mask]
        rfl
      have hnext : (b.nextItem + 1) % 2 ^ 64 = (n + 1) % 2 ^ 64 := by
        rw [h.nextItem, Nat.mod_add_mod]
        rfl
      cases call with
      | dequeue mode =>
          rw [Moodycamel.stepTake, hitem, h.front_cell rfl] at hstep
          obtain ⟨rfl, rfl⟩ := Prod.mk.inj (Option.some.inj hstep)
          refine ⟨n, v :: q, { h with
            nextItem := hnext
            nextSlot := ?_
            cells := hcells.set_head (Nat.two_pow_pos k) _
            loc := ⟨⟨mode, rfl⟩, h.nextItem, rfl⟩ }, .stay ..⟩
          simpa using hslot
      | pop =>
          rw [Moodycamel.stepTake, hitem, h.front_cell rfl] at hstep
          obtain ⟨rfl, rfl⟩ := Prod.mk.inj (Option.some.inj hstep)
          refine ⟨n, v :: q, { h with
            slots := h.slots.of_owed rfl
            nextItem := hnext
            nextSlot := ?_
            cells := hcells.set_head (Nat.two_pow_pos k) _
            loc := fun _ => rfl }, .stay ..⟩
          simpa using hslot
  | destroy i v =>
      obtain ⟨⟨mode, rfl⟩, rfl, hhead⟩ := h.loc
      obtain ⟨q, rfl⟩ := List.head?_eq_some_iff.mp hhead
      have hcells : Ring (2 ^ k) .raw n b.cells (.moved :: (q.map .live ++ P.built)) := h.cells
      have hslot := h.nextSlot
      rw [Moodycamel.stepTake, h.and_mask, h.front_cell rfl] at hstep
      obtain ⟨rfl, rfl⟩ := Prod.mk.inj (Option.some.inj hstep)
      refine ⟨n, v :: q, { h with
        slots := h.slots.of_owed rfl
        nextSlot := ?_
        cells := hcells.set_head (Nat.two_pow_pos k) _
        loc := fun _ => ⟨v, rfl, rfl⟩ }, .stay ..⟩
      simpa using hslot
  | signal r g =>
      cases g with
      | add =>
          rw [stepTake_signal (by decide), Option.map_eq_some_iff] at hstep
          obtain ⟨⟨s', g'⟩, hsig, heq⟩ := hstep
          obtain ⟨rfl, rfl⟩ := Prod.mk.inj heq
          have hg' := LightweightSemaphore.ne_add_of_stepSignal hsig
          obtain ⟨v, q, rfl⟩ := List.exists_cons_of_ne_nil (h.ne_nil (by simp))
          have hfree := h.free
          have hstored := h.stored
          have hslot := h.nextSlot
          have hcells : Ring (2 ^ k) .raw n b.cells (.raw :: (q.map .live ++ P.built)) := h.cells
          have hbound := h.bound
          have hroom : b.slots.tokens P.wait + (1 : ℕ) < 2 ^ 63 := by
            rw [List.length_cons] at hfree
            omega
          obtain ⟨hslots, -, ⟨-, htok⟩ | ⟨hg, -⟩⟩ :=
            h.slots.stepSignal (fun _ => ⟨Nat.one_pos, hroom⟩) hsig
          · refine ⟨n + 1, q, { h with
              slots := hslots
              free := ?_
              stored := ?_
              nextItem := ?_
              nextSlot := ?_
              cells := ?_
              loc := fun h => absurd h hg' }, ?_⟩
            · simp at hfree ⊢
              omega
            · simp [hg'] at hstored ⊢
              omega
            · simpa [hg'] using h.nextItem
            · simpa [hg', Nat.add_assoc, Nat.add_comm 1] using hslot
            · simpa [hg'] using hcells.tail (h.length_lt rfl)
            · simp [hg']
              exact .point (Take.legal_taken n h.loc)
          · exact absurd hg (by simp)
      | semaSignal =>
          rw [stepTake_signal (by decide), Option.map_eq_some_iff] at hstep
          obtain ⟨⟨s', g'⟩, hsig, heq⟩ := hstep
          obtain ⟨rfl, rfl⟩ := Prod.mk.inj heq
          obtain ⟨hslots, -, ⟨hg, -⟩ | ⟨-, rfl, htok⟩⟩ :=
            h.slots.stepSignal (fun hg => absurd hg (by simp)) hsig
          · exact absurd hg (by simp)
          · refine ⟨n, q, { h with slots := hslots, free := ?_, loc := by simp }, .stay ..⟩
            rw [htok]
            exact h.free
      | returned =>
          obtain ⟨rfl, rfl⟩ := Prod.mk.inj (Option.some.inj hstep)
          exact ⟨n, q, { h with loc := trivial }, .stay ..⟩
  | returning r => exact absurd hstep (by simp [Moodycamel.stepTake])

/-- **A step of the consumer in `peek`.** -/
theorem Inv.stepPeek {p p' : PeekPoint α} (t : κ) (h : Inv cap k n b P (.peek p) q)
    (hstep : stepPeek b p = some p') :
    Inv cap k n b P (.peek p') q ∧
      Moves (Legal cap) t none q (Consumer.peek p).phase q (Consumer.peek p').phase := by
  cases p with
  | load =>
      obtain rfl := Option.some.inj hstep
      have havail : b.items.availableApprox = q.length := by
        have hstored := h.stored
        have havail := h.items.availableApprox.2.2 rfl
        simp only [Consumer.held] at hstored
        omega
      rw [havail]
      cases q with
      | nil => exact ⟨{ h with loc := trivial }, .point .peekEmpty⟩
      | cons v q => exact ⟨{ h with loc := List.cons_ne_nil v q }, .stay ..⟩
  | read =>
      obtain ⟨v, q, rfl⟩ := List.exists_cons_of_ne_nil h.loc
      rw [Moodycamel.stepPeek, h.nextItem, h.and_mask] at hstep
      rw [Consumer.counted, Nat.add_zero, h.front_cell rfl] at hstep
      obtain rfl := Option.some.inj hstep
      exact ⟨{ h with loc := trivial }, .point .peek⟩
  | returning r => exact absurd hstep (by simp [Moodycamel.stepPeek])

end Steps

end Moodycamel
end CppDataStream
