/-
# The circular buffer is a bounded queue

What `Inv` says about the runs of one producer, one consumer and any number of
observers: every history is one of a bounded queue of the capacity that was asked for
(`System.queue_linearizable`), so elements come out in the order in which they went in,
none lost and none twice (`System.first_in_first_out`).  No run reaches an undefined
access of a cell, and the two threads are never about to access the same cell
(`System.cells_safe`).  A thread that the kernel keeps waiting has a reason, and the two
are never both kept waiting (`System.waits_for_reason`).  When both are done the
destructor destroys what is left, and only that (`System.destroys_what_is_left`).

The capacity that the constructor rounds up to is the least power of two that is large
enough (`roundMask_spec`).
-/

import CppDataStream.Moodycamel.Invariant
import Mathlib.Algebra.Ring.Nat

namespace CppDataStream
namespace Moodycamel

open Linearizability BoundedQueue

variable {α : Type*}

/-! ### The mask -/

/-- **The shifts fill a power of two**: the mask has all bits below the size of the number
they start from. -/
theorem roundMask_eq_size {capacity : ℕ} (hlt : capacity < 2 ^ 64) :
    roundMask capacity = 2 ^ (if capacity = 0 then 2 ^ 64 - 1 else capacity - 1).size - 1 := by
  have hpred : (if capacity = 0 then 2 ^ 64 - 1 else capacity - 1) < 2 ^ 64 := by
    split_ifs <;> omega
  rw [roundMask]
  generalize (if capacity = 0 then 2 ^ 64 - 1 else capacity - 1) = c at hpred ⊢
  have h₁ := (Masks.Smeared.refl c).or_shift (s := 1) (by decide)
  have h₂ := h₁.or_shift (s := 2) (by decide)
  have h₃ := h₂.or_shift (s := 4) (by decide)
  have h₄ := h₃.or_shift (s := 1 <<< 3) (by decide)
  have h₅ := h₄.or_shift (s := 2 <<< 3) (by decide)
  exact (h₅.or_shift (s := 4 <<< 3) (by decide)).eq_mask hpred

/-- **The mask of the constructor.**  The buffer has the least power of two that is not
less than the capacity as its number of cells, and an index that wraps at `2 ^ 64` is
taken modulo this number. -/
theorem roundMask_spec {capacity : ℕ} (hpos : 0 < capacity) (hlt : capacity < 2 ^ 64) :
    ∃ k ≤ 64, roundMask capacity + 1 = 2 ^ k ∧ (∀ k', capacity ≤ 2 ^ k' ↔ k ≤ k') ∧
      ∀ i, i % 2 ^ 64 &&& roundMask capacity = i % (roundMask capacity + 1) := by
  have hsize : (capacity - 1).size ≤ 64 := Nat.size_le.mpr (by omega)
  have hmask : roundMask capacity = 2 ^ (capacity - 1).size - 1 := by
    rw [roundMask_eq_size hlt, if_neg hpos.ne']
  have hcells : roundMask capacity + 1 = 2 ^ (capacity - 1).size := by
    rw [hmask, Nat.sub_add_cancel Nat.one_le_two_pow]
  refine ⟨_, hsize, hcells, fun k' => (Masks.size_pred_le_iff hpos).symm, fun i => ?_⟩
  rw [hcells, hmask, Masks.wrap_and_mask hsize]

/-- The capacity of `Source.cpp`. -/
theorem roundMask_spec_hundred :
    ∃ k ≤ 64, roundMask 100 + 1 = 2 ^ k ∧ (∀ k', 100 ≤ 2 ^ k' ↔ k ≤ k') ∧
      ∀ i, i % 2 ^ 64 &&& roundMask 100 = i % (roundMask 100 + 1) :=
  roundMask_spec (by decide) (by decide)

/-! ### The memory -/

/-- `align_for`. -/
def alignFor (alignment ptr : ℕ) : ℕ := ptr + (alignment - ptr % alignment) % alignment

/-- The bytes that the constructor asks for, in `size_t` arithmetic. -/
def allocated (capacity size alignment : ℕ) : ℕ :=
  ((roundMask capacity + 1) * size + alignment - 1) % 2 ^ 64

/-- The address of the element of index `i`. -/
def elementAddress (capacity size alignment rawData i : ℕ) : ℕ :=
  alignFor alignment rawData + (i &&& roundMask capacity) * size

/-- `align_for` yields the least aligned address from the pointer on. -/
theorem alignFor_spec {alignment : ℕ} (h : 0 < alignment) (ptr : ℕ) :
    alignment ∣ alignFor alignment ptr ∧ ptr ≤ alignFor alignment ptr ∧
      alignFor alignment ptr < ptr + alignment := by
  have hlt := Nat.mod_lt ptr h
  have hdiv := Nat.div_add_mod ptr alignment
  refine ⟨?_, Nat.le_add_right .., Nat.add_lt_add_left (Nat.mod_lt _ h) _⟩
  rcases Nat.eq_zero_or_pos (ptr % alignment) with hzero | hpos
  · rw [alignFor, hzero, Nat.sub_zero, Nat.mod_self, Nat.add_zero]
    exact Nat.dvd_of_mod_eq_zero hzero
  · refine ⟨ptr / alignment + 1, ?_⟩
    rw [alignFor, Nat.mod_eq_of_lt (Nat.sub_lt h hpos), Nat.mul_succ]
    omega

/-- **Elements lie in the memory that was asked for**, aligned, and elements of different
cells do not overlap, if the number of bytes does not wrap. -/
theorem elementAddress_spec {capacity size alignment : ℕ} (halign : 0 < alignment)
    (hsize : alignment ∣ size) (hwrap : (roundMask capacity + 1) * size + alignment - 1 < 2 ^ 64)
    (rawData i j : ℕ) :
    alignment ∣ elementAddress capacity size alignment rawData i ∧
      rawData ≤ elementAddress capacity size alignment rawData i ∧
      elementAddress capacity size alignment rawData i + size ≤
        rawData + allocated capacity size alignment ∧
      (i &&& roundMask capacity < j &&& roundMask capacity →
        elementAddress capacity size alignment rawData i + size ≤
          elementAddress capacity size alignment rawData j) := by
  obtain ⟨hdvd, hge, hlt⟩ := alignFor_spec halign rawData
  have hmul {a b : ℕ} (h : a < b) : a * size + size ≤ b * size := by
    rw [← Nat.succ_mul]
    exact Nat.mul_le_mul_right size h
  have hcell := hmul (Nat.lt_add_one_of_le (Nat.and_le_right (n := i) (m := roundMask capacity)))
  rw [elementAddress, elementAddress, allocated, Nat.mod_eq_of_lt hwrap]
  refine ⟨Nat.dvd_add hdvd (hsize.mul_left _), by omega, by omega, fun hij => ?_⟩
  have := hmul hij
  omega

/-- Cells of 24 bytes behind a pointer that is not aligned. -/
theorem elementAddress_spec_hundred :
    8 ∣ elementAddress 100 24 8 4100 3 ∧ 4100 ≤ elementAddress 100 24 8 4100 3 ∧
      elementAddress 100 24 8 4100 3 + 24 ≤ 4100 + allocated 100 24 8 ∧
      (3 &&& roundMask 100 < 4 &&& roundMask 100 →
        elementAddress 100 24 8 4100 3 + 24 ≤ elementAddress 100 24 8 4100 4) :=
  elementAddress_spec (by decide) (by decide) (by decide) 4100 3 4

/-! ### The runs -/

/-- Where the threads are in the eyes of the bounded queue. -/
def System.phase (S : System α) : Party → Phase (Op α) (Ret α)
  | .producer => S.producer.phase
  | .consumer => S.consumer.phase
  | .observer i => match S.observer i with
    | .idle => .idle
    | .load => .called .size
    | .loaded n => .done .size (.size n)

/-- The system stands for the queue `q`. -/
def System.Abstracts (cap : ℕ) (S : System α) (q : List α) : Prop :=
  ∃ k n, Inv cap k n S.buffer S.producer S.consumer q

/-- A step of the producer changes no other thread's phase. -/
theorem System.phase_producer (S : System α) (b : CircularBuffer α) (P : Producer α) :
    System.phase { S with buffer := b, producer := P } =
      Function.update S.phase .producer P.phase := by
  funext t
  cases t <;> rfl

/-- A step of the consumer changes no other thread's phase. -/
theorem System.phase_consumer (S : System α) (b : CircularBuffer α) (C : Consumer α) :
    System.phase { S with buffer := b, consumer := C } =
      Function.update S.phase .consumer C.phase := by
  funext t
  cases t <;> rfl

/-- A step of an observer changes no other thread's phase. -/
theorem System.phase_observer (S : System α) (i : ℕ) (x : LightweightSemaphore.Observer) :
    System.phase { S with observer := Function.update S.observer i x } =
      Function.update S.phase (.observer i) (match x with
        | .idle => .idle
        | .load => .called .size
        | .loaded n => .done .size (.size n)) := by
  funext t
  cases t with
  | observer j =>
      rcases eq_or_ne j i with rfl | hne
      · simp [System.phase]
      · simp [System.phase, hne]
  | producer | consumer => rfl

/-- What is seen of the number of elements. -/
theorem Inv.size_le {cap k n : ℕ} {b : CircularBuffer α} {P : Producer α} {C : Consumer α} {q : List α}
    (h : Inv cap k n b P C q) :
    b.items.availableApprox ≤ q.length ∧ q.length ≤ b.items.availableApprox + 1 := by
  obtain ⟨hle, hge, heq⟩ := h.items.availableApprox
  have hstored := h.stored
  have hheld : C.held = 0 ∨ C.held = 1 ∧ C.wait.registered = false := by
    cases C with
    | take call p =>
        cases p with
        | acquire w => by_cases hw : w = .returned true <;> simp [hw]
        | signal r g => by_cases hg : g = .add <;> simp [hg]
        | take | destroy | returning => simp
    | idle | peek => exact Or.inl rfl
  rcases hheld with h₀ | ⟨h₁, hreg⟩
  · omega
  · have := heq hreg
    omega

/-- **Every step is one of a bounded queue**, or leaves it as it is. -/
theorem System.moves {cap : ℕ} {S S' : System α} {q : List α}
    {l : Option (Visible Party (Op α) (Ret α))} (h : S.Abstracts cap q) (hstep : System.Step S l S') :
    ∃ t q' p', Moves (Legal cap) t l q (S.phase t) q' p' ∧ S'.phase = Function.update S.phase t p' ∧
      S'.Abstracts cap q' := by
  obtain ⟨k, n, h⟩ := h
  cases hstep with
  | callEnqueue mode item hP =>
      rw [hP] at h
      refine ⟨.producer, q, _, ?_, S.phase_producer S.buffer _, k, n, ?_⟩
      · rw [System.phase, hP]
        exact .call ..
      · exact { h with slots := h.slots.of_outside rfl rfl }
  | @enqueue mode item p b' p' granted hP hstep =>
      rw [hP] at h
      obtain ⟨q', h', hmove⟩ := h.stepEnqueue Party.producer hstep
      refine ⟨.producer, q', _, ?_, S.phase_producer b' _, k, n, h'⟩
      rwa [System.phase, hP]
  | answerEnqueue hP =>
      rw [hP] at h
      refine ⟨.producer, q, _, ?_, S.phase_producer S.buffer _, k, n, { h with }⟩
      rw [System.phase, hP]
      exact .answer ..
  | callTake call hC =>
      rw [hC] at h
      refine ⟨.consumer, q, _, ?_, S.phase_consumer S.buffer _, k, n, ?_⟩
      · rw [System.phase, hC]
        exact .call ..
      · exact { h with items := h.items.of_outside rfl rfl }
  | @take call p b' p' granted hC hstep =>
      rw [hC] at h
      obtain ⟨n', q', h', hmove⟩ := h.stepTake Party.consumer hstep
      refine ⟨.consumer, q', _, ?_, S.phase_consumer b' _, k, n', h'⟩
      rwa [System.phase, hC]
  | answerTake hC =>
      rw [hC] at h
      refine ⟨.consumer, q, _, ?_, S.phase_consumer S.buffer _, k, n, { h with }⟩
      rw [System.phase, hC]
      exact .answer ..
  | callPeek hC =>
      rw [hC] at h
      refine ⟨.consumer, q, _, ?_, S.phase_consumer S.buffer _, k, n, { h with loc := trivial }⟩
      rw [System.phase, hC]
      exact .call ..
  | @peek p p' hC hstep =>
      rw [hC] at h
      obtain ⟨h', hmove⟩ := h.stepPeek Party.consumer hstep
      refine ⟨.consumer, q, _, ?_, S.phase_consumer S.buffer _, k, n, h'⟩
      rwa [System.phase, hC]
  | answerPeek hC =>
      rw [hC] at h
      refine ⟨.consumer, q, _, ?_, S.phase_consumer S.buffer _, k, n, { h with }⟩
      rw [System.phase, hC]
      exact .answer ..
  | callSize i hi =>
      refine ⟨.observer i, q, _, ?_, S.phase_observer i _, k, n, h⟩
      rw [System.phase, hi]
      exact .call ..
  | load i hi =>
      refine ⟨.observer i, q, _, ?_, S.phase_observer i _, k, n, h⟩
      rw [System.phase, hi]
      exact .point (.size h.size_le.1 h.size_le.2)
  | answerSize i m hi =>
      refine ⟨.observer i, q, _, ?_, S.phase_observer i _, k, n, h⟩
      rw [System.phase, hi]
      exact .answer ..

/-- The new buffer stands for the empty queue. -/
theorem System.init_abstracts {cap : ℕ} (hcap : cap < 2 ^ 63) :
    (System.init cap : System α).Abstracts cap [] := by
  have hsize : Int.bmod cap (2 ^ 64) = cap := Int.bmod_eq_of_le (by omega) (by omega)
  have hmask := @roundMask_eq_size cap (by omega)
  refine ⟨_, 0, ?_, hcap, ?_, hmask, ?_, ?_, ?_, rfl, rfl, rfl, .init _ _, trivial⟩
  · exact Nat.size_le.mpr (by split_ifs <;> omega)
  · rcases Nat.eq_zero_or_pos cap with rfl | hpos
    · exact Nat.zero_le _
    · rw [if_neg hpos.ne']
      exact (Masks.size_pred_le_iff hpos).mp le_rfl
  · refine LightweightSemaphore.inv_init ?_ ?_ true <;> rw [hsize] <;> omega
  · exact LightweightSemaphore.inv_init le_rfl (by decide) true
  · have htok : (LightweightSemaphore.init (Int.bmod cap (2 ^ 64))).tokens (.returned true) = cap := by
      rw [hsize]
      exact Int.add_zero _
    exact (Int.add_zero _).trans ((Int.add_zero _).trans htok)

/-- An atomic bounded queue can follow every step. -/
theorem System.simulates (cap : ℕ) :
    Simulates System.Step (Legal cap) fun (S : System α) c =>
      S.Abstracts cap c.obj ∧ c.phase = S.phase :=
  simulates_of_moves fun _ _ _ _ h hstep => System.moves h hstep

/-- At first no thread has called anything. -/
theorem System.init_phase {cap : ℕ} (hcap : cap < 2 ^ 63) :
    (System.init cap : System α).Abstracts cap (Atomic.init [] : Atomic Party (Op α) (Ret α) _).obj ∧
      (Atomic.init [] : Atomic Party (Op α) (Ret α) (List α)).phase = (System.init cap).phase :=
  ⟨System.init_abstracts hcap, funext fun t => by cases t <;> rfl⟩

/-- **The buffer is linearizable.**  Every history of one producer, one consumer and any
number of observers is one of a queue of `cap` elements. -/
theorem System.queue_linearizable {cap : ℕ} (hcap : cap < 2 ^ 63)
    {h : List (Visible Party (Op α) (Ret α))} {S : System α}
    (hrun : Run System.Step (System.init cap) h S) : Linearizable (Legal cap) [] h :=
  (System.simulates cap).linearizable (System.init_phase hcap) hrun

/-- An element is enqueued in a buffer of capacity 1. -/
theorem exists_run_push : ∃ S : System ℕ,
    Run System.Step (System.init 1) [.call .producer (.push 7 false), .answer .producer .ok] S ∧
      S.producer = .idle ∧ S.consumer = .idle ∧ S.buffer.items.count = 1 := by
  have h₀ : Run System.Step (System.init 1 : System ℕ) [.call Party.producer (Op.push 7 false)] _ :=
    Run.refl.tail (System.Step.callEnqueue .try 7 rfl)
  have h₁ := h₀.tail (System.Step.enqueue true rfl rfl)
  have h₂ := h₁.tail (System.Step.enqueue true rfl rfl)
  have h₃ := h₂.tail (System.Step.enqueue true rfl rfl)
  have h₄ := h₃.tail (System.Step.enqueue true rfl rfl)
  have h₅ := h₄.tail (System.Step.enqueue true rfl rfl)
  have h₆ := h₅.tail (System.Step.enqueue true rfl rfl)
  exact ⟨_, h₆.tail (System.Step.answerEnqueue rfl), rfl, rfl, rfl⟩

/-- Two operations that overlap in a buffer of capacity 2: an element is enqueued while the
one before it is dequeued.  In between both threads are about to access a cell. -/
theorem exists_run_overlap : ∃ S₁ S₂ : System ℕ,
    (Run System.Step (System.init 2) [.call .producer (.push 7 false), .answer .producer .ok,
        .call .producer (.push 8 false), .call .consumer (.pull true)] S₁ ∧
      S₁.producer = .enqueue .try 8 .construct ∧ S₁.consumer = .take (.dequeue .wait) .take ∧
      S₁.buffer.nextSlot &&& S₁.buffer.mask = 1 ∧ S₁.buffer.nextItem &&& S₁.buffer.mask = 0) ∧
    Run System.Step (System.init 2) [.call .producer (.push 7 false), .answer .producer .ok,
      .call .producer (.push 8 false), .call .consumer (.pull true), .answer .consumer (.value 7),
      .answer .producer .ok] S₂ := by
  have h₀ : Run System.Step (System.init 2 : System ℕ) [.call Party.producer (Op.push 7 false)] _ :=
    Run.refl.tail (System.Step.callEnqueue .try 7 rfl)
  have h₁ := h₀.tail (System.Step.enqueue true rfl rfl)
  have h₂ := h₁.tail (System.Step.enqueue true rfl rfl)
  have h₃ := h₂.tail (System.Step.enqueue true rfl rfl)
  have h₄ := h₃.tail (System.Step.enqueue true rfl rfl)
  have h₅ := h₄.tail (System.Step.enqueue true rfl rfl)
  have h₆ := h₅.tail (System.Step.enqueue true rfl rfl)
  have h₇ := h₆.tail (System.Step.answerEnqueue rfl)
  -- both threads acquire
  have h₈ := h₇.tail (System.Step.callEnqueue .try 8 rfl)
  have h₉ := h₈.tail (System.Step.callTake (.dequeue .wait) rfl)
  have h₁₀ := h₉.tail (System.Step.enqueue true rfl rfl)
  have h₁₁ := h₁₀.tail (System.Step.take true rfl rfl)
  have h₁₂ := h₁₁.tail (System.Step.enqueue true rfl rfl)
  have h₁₃ := h₁₂.tail (System.Step.take true rfl rfl)
  have h₁₄ := h₁₃.tail (System.Step.enqueue true rfl rfl)
  have h₁₅ := h₁₄.tail (System.Step.take true rfl rfl)
  -- the consumer is done first
  have h₁₆ := h₁₅.tail (System.Step.take true rfl rfl)
  have h₁₇ := h₁₆.tail (System.Step.enqueue true rfl rfl)
  have h₁₈ := h₁₇.tail (System.Step.take true rfl rfl)
  have h₁₉ := h₁₈.tail (System.Step.take true rfl rfl)
  have h₂₀ := h₁₉.tail (System.Step.enqueue true rfl rfl)
  have h₂₁ := h₂₀.tail (System.Step.take true rfl rfl)
  have h₂₂ := h₂₁.tail (System.Step.answerTake rfl)
  have h₂₃ := h₂₂.tail (System.Step.enqueue true rfl rfl)
  exact ⟨_, _, ⟨h₁₅, rfl, rfl, rfl, rfl⟩, h₂₃.tail (System.Step.answerEnqueue rfl)⟩

/-- A push and a pull that overlap, with the second push answered last. -/
theorem queue_linearizable_overlap : Linearizable (Legal 2) ([] : List ℕ)
    [.call Party.producer (.push 7 false), .answer .producer .ok, .call .producer (.push 8 false),
      .call .consumer (.pull true), .answer .consumer (.value 7), .answer .producer .ok] := by
  obtain ⟨-, S, -, hrun⟩ := exists_run_overlap
  exact System.queue_linearizable (by decide) hrun

/-- Every reachable state stands for a queue. -/
theorem System.exists_abstracts {cap : ℕ} (hcap : cap < 2 ^ 63)
    {h : List (Visible Party (Op α) (Ret α))} {S : System α}
    (hrun : Run System.Step (System.init cap) h S) : ∃ q, S.Abstracts cap q := by
  induction hrun with
  | refl => exact ⟨[], System.init_abstracts hcap⟩
  | tail _ hstep ih =>
      obtain ⟨q, hq⟩ := ih
      obtain ⟨-, q', -, -, -, hq'⟩ := System.moves hq hstep
      exact ⟨q', hq'⟩

/-- The producer pushes, the consumer takes. -/
theorem System.Step.role {S S' : System α} {t : Party} {op : Op α}
    (h : System.Step S (some (.call t op)) S') :
    (t ≠ .producer → op.isPush = false) ∧ (t ≠ .consumer → op.isTake = false) := by
  cases h with
  | callEnqueue mode item => exact ⟨fun h => absurd rfl h, fun _ => rfl⟩
  | callTake call => exact ⟨fun _ => by cases call <;> rfl, fun h => absurd rfl h⟩
  | callPeek | callSize => exact ⟨fun _ => rfl, fun _ => rfl⟩

/-- The same of whole runs. -/
theorem System.roles {cap : ℕ} {h : List (Visible Party (Op α) (Ret α))} {S : System α}
    (hrun : Run System.Step (System.init cap) h S) {t : Party} {op : Op α} (hop : op ∈ ops t h) :
    (t ≠ .producer → op.isPush = false) ∧ (t ≠ .consumer → op.isTake = false) := by
  rw [mem_ops] at hop
  induction hrun with
  | refl => exact absurd hop List.not_mem_nil
  | tail _ hstep ih =>
      rcases List.mem_append.mp hop with hop | hop
      · exact ih hop
      · rw [Option.mem_toList] at hop
        exact (hop ▸ hstep).role

/-- **First in, first out.**  The elements that the consumer has taken are the first of
those that the producer has put in, in their order; and at most `cap` more have been
accepted, or one more while the consumer waits for an answer. -/
theorem System.first_in_first_out {cap : ℕ} (hcap : cap < 2 ^ 63)
    {h : List (Visible Party (Op α) (Ret α))} {S : System α}
    (hrun : Run System.Step (System.init cap) h S) :
    ∃ vs, vs <+: accepted (completed Party.producer h) ++ values (pending Party.producer h) ∧
      List.Forall₂ Matches (takes (completed Party.consumer h)) vs ∧
      (accepted (completed Party.producer h)).length ≤
        vs.length + cap + (pending Party.consumer h).length :=
  BoundedQueue.fifo ((System.simulates cap).linearizable (System.init_phase hcap) hrun)
    (fun _ ht _ hop => (System.roles hrun hop).1 ht)
    fun _ ht _ hop => (System.roles hrun hop).2 ht

/-- In that run the first of two elements was taken. -/
theorem first_in_first_out_overlap :
    ∃ vs, vs <+: [7, 8] ∧ List.Forall₂ Matches [some 7] vs ∧ 2 ≤ vs.length + 2 := by
  obtain ⟨-, S, -, hrun⟩ := exists_run_overlap
  exact System.first_in_first_out (by decide) hrun

/-! ### The cells -/

/-- The cell that the producer is about to access. -/
def Producer.access (b : CircularBuffer α) : Producer α → Option ℕ
  | .enqueue _ _ .construct => some (b.nextSlot &&& b.mask)
  | _ => none

/-- The cell that the consumer is about to access. -/
def Consumer.access (b : CircularBuffer α) : Consumer α → Option ℕ
  | .take _ .take | .peek .read => some (b.nextItem &&& b.mask)
  | .take _ (.destroy i _) => some (i &&& b.mask)
  | _ => none

section Cells

variable {cap k n : ℕ} {b : CircularBuffer α} {P : Producer α} {C : Consumer α} {q : List α} {i j : ℕ}

/-- The producer constructs its element in raw memory behind the queue. -/
theorem Inv.producer_access (h : Inv cap k n b P C q) (hi : P.access b = some i) :
    q.length < 2 ^ k ∧ i = (n + q.length) % 2 ^ k ∧ b.cells i = .raw := by
  obtain ⟨mode, item, rfl⟩ : ∃ mode item, P = .enqueue mode item .construct := by
    cases P with
    | idle => exact absurd hi (by simp [Producer.access])
    | enqueue mode item p => cases p <;> simp_all [Producer.access]
  obtain rfl := Option.some.inj hi
  have hfree := h.free
  have hfits := h.fits
  have hnonneg := h.slots.nonneg
  have hcells := h.cells
  have hslot := h.nextSlot
  rw [Producer.built_enqueue, EnqueuePoint.built, List.append_nil] at hcells hslot
  rw [Producer.held_enqueue, EnqueuePoint.held] at hfree
  have hlen : q.length < 2 ^ k := by omega
  rw [hslot, h.and_mask]
  rw [← h.length_front] at hlen ⊢
  exact ⟨hlen, rfl, hcells.get_length hlen⟩

/-- The consumer reads, moves or destroys the first element of the queue. -/
theorem Inv.consumer_access (h : Inv cap k n b P C q) (hj : C.access b = some j) :
    q ≠ [] ∧ j = n % 2 ^ k ∧ b.cells j ≠ .raw := by
  have hitem : b.nextItem = (n + C.counted) % 2 ^ 64 := h.nextItem
  cases C with
  | idle => exact absurd hj (by simp [Consumer.access])
  | take call p =>
      cases p with
      | take =>
          obtain rfl := Option.some.inj hj
          obtain ⟨v, q, rfl⟩ := List.exists_cons_of_ne_nil (h.ne_nil (by simp))
          rw [hitem, h.and_mask]
          exact ⟨List.cons_ne_nil v q, rfl, (h.front_cell rfl).trans_ne (by simp)⟩
      | destroy i v =>
          obtain rfl := Option.some.inj hj
          obtain ⟨-, rfl, hhead⟩ := h.loc
          rw [h.and_mask]
          refine ⟨?_, rfl, (h.front_cell rfl).trans_ne (by simp)⟩
          rintro rfl
          exact absurd hhead (by simp)
      | acquire | signal | returning => exact absurd hj (by simp [Consumer.access])
  | peek p =>
      cases p with
      | read =>
          obtain rfl := Option.some.inj hj
          obtain ⟨v, q, rfl⟩ := List.exists_cons_of_ne_nil h.loc
          rw [hitem, h.and_mask]
          exact ⟨List.cons_ne_nil v q, rfl, (h.front_cell rfl).trans_ne (by simp)⟩
      | load | returning => exact absurd hj (by simp [Consumer.access])

/-- What takes an element is held up only in the kernel: it finds every element that it
moves or destroys. -/
theorem Inv.stepTake_eq_none {call : Take} {p : TakePoint α} (h : Inv cap k n b P (.take call p) q)
    (hnone : Moodycamel.stepTake call true b p = none) :
    (∃ r, p = .returning r) ∨ p = .acquire .semaWait ∧ b.items.sema = 0 := by
  cases p with
  | acquire w =>
      by_cases hw : ∃ r, w = .returned r
      · obtain ⟨r, rfl⟩ := hw
        cases r <;> exact absurd hnone (by simp [Moodycamel.stepTake])
      · rw [not_exists] at hw
        rw [stepTake_acquire hw, Option.map_eq_none_iff] at hnone
        obtain ⟨rfl, hsema⟩ := LightweightSemaphore.stepWait_eq_none hnone hw
        exact Or.inr ⟨rfl, hsema⟩
  | take =>
      obtain ⟨v, q, rfl⟩ := List.exists_cons_of_ne_nil (h.ne_nil (by simp))
      have hcell : b.cells (b.nextItem &&& b.mask) = .live v := by
        rw [h.nextItem, h.and_mask]
        exact h.front_cell rfl
      cases call <;> rw [Moodycamel.stepTake, hcell] at hnone <;>
        exact absurd hnone (Option.some_ne_none _)
  | destroy i v =>
      obtain ⟨-, rfl, -⟩ := h.loc
      rw [Moodycamel.stepTake, h.and_mask, h.front_cell rfl] at hnone
      exact absurd hnone (Option.some_ne_none _)
  | signal r g => cases g <;> exact absurd hnone (Option.some_ne_none _)
  | returning r => exact Or.inl ⟨r, rfl⟩

/-- The producer can make a step unless it has to return, or the kernel keeps it waiting. -/
theorem stepEnqueue_eq_none {mode : Mode} {item : α} {p : EnqueuePoint}
    (hnone : stepEnqueue mode item true b p = none) :
    (∃ r, p = .returning r) ∨ p = .acquire .semaWait ∧ b.slots.sema = 0 := by
  cases p with
  | acquire w =>
      by_cases hw : ∃ r, w = .returned r
      · obtain ⟨r, rfl⟩ := hw
        cases r <;> exact absurd hnone (by simp [Moodycamel.stepEnqueue])
      · rw [not_exists] at hw
        rw [stepEnqueue_acquire hw, Option.map_eq_none_iff] at hnone
        obtain ⟨rfl, hsema⟩ := LightweightSemaphore.stepWait_eq_none hnone hw
        exact Or.inr ⟨rfl, hsema⟩
  | construct => exact absurd hnone (Option.some_ne_none _)
  | signal g => cases g <;> exact absurd hnone (Option.some_ne_none _)
  | returning r => exact Or.inl ⟨r, rfl⟩

/-- `peek` can make a step unless it has to return. -/
theorem Inv.stepPeek_eq_none {p : PeekPoint α} (h : Inv cap k n b P (.peek p) q)
    (hnone : Moodycamel.stepPeek b p = none) : ∃ r, p = .returning r := by
  cases p with
  | load => exact absurd hnone (Option.some_ne_none _)
  | read =>
      obtain ⟨v, q, rfl⟩ := List.exists_cons_of_ne_nil h.loc
      have hcell : b.cells (b.nextItem &&& b.mask) = .live v := by
        rw [h.nextItem, h.and_mask]
        exact h.front_cell rfl
      rw [Moodycamel.stepPeek, hcell] at hnone
      exact absurd hnone (Option.some_ne_none _)
  | returning r => exact ⟨r, rfl⟩

end Cells

/-- **No undefined access, no data race.**  In every reachable state the producer is
about to construct in raw memory only, the consumer is about to access an element only,
and not the same cell. -/
theorem System.cells_safe {cap : ℕ} (hcap : cap < 2 ^ 63) {h : List (Visible Party (Op α) (Ret α))}
    {S : System α} (hrun : Run System.Step (System.init cap) h S) :
    (∀ i, S.producer.access S.buffer = some i → i ≤ S.buffer.mask ∧ S.buffer.cells i = .raw) ∧
      (∀ j, S.consumer.access S.buffer = some j → j ≤ S.buffer.mask ∧ S.buffer.cells j ≠ .raw) ∧
      ∀ i j, S.producer.access S.buffer = some i → S.consumer.access S.buffer = some j → i ≠ j := by
  obtain ⟨q, k, n, hinv⟩ := System.exists_abstracts hcap hrun
  have hbound (i : ℕ) : i % 2 ^ k ≤ S.buffer.mask := by
    rw [hinv.mask]
    exact Nat.le_sub_one_of_lt (Nat.mod_lt _ (Nat.two_pow_pos k))
  refine ⟨fun i hi => ?_, fun j hj => ?_, fun i j hi hj heq => ?_⟩
  · obtain ⟨-, rfl, hraw⟩ := hinv.producer_access hi
    exact ⟨hbound _, hraw⟩
  · obtain ⟨-, rfl, hraw⟩ := hinv.consumer_access hj
    exact ⟨hbound _, hraw⟩
  · obtain ⟨hlt, rfl, -⟩ := hinv.producer_access hi
    obtain ⟨hne, rfl, -⟩ := hinv.consumer_access hj
    exact hne (List.length_eq_zero_iff.mp (Masks.add_mod_inj hlt (Nat.two_pow_pos k) heq))

/-- Both threads are about to access a cell. -/
theorem cells_safe_overlap : ∃ S : System ℕ,
    S.producer.access S.buffer = some 1 ∧ S.consumer.access S.buffer = some 0 ∧
    (∀ i, S.producer.access S.buffer = some i → i ≤ S.buffer.mask ∧ S.buffer.cells i = .raw) ∧
      (∀ j, S.consumer.access S.buffer = some j → j ≤ S.buffer.mask ∧ S.buffer.cells j ≠ .raw) ∧
      ∀ i j, S.producer.access S.buffer = some i → S.consumer.access S.buffer = some j → i ≠ j := by
  obtain ⟨S, -, ⟨hrun, hP, hC, hslot, hitem⟩, -⟩ := exists_run_overlap
  refine ⟨S, ?_, ?_, System.cells_safe (by decide) hrun⟩
  · rw [hP, Producer.access, hslot]
  · rw [hC, Consumer.access, hitem]

/-- **Every access is defined.**  In every reachable state the steps of `stepEnqueue`,
`stepTake` and `stepPeek` are defined, until a thread returns or the kernel lets it
wait. -/
theorem System.defined {cap : ℕ} (hcap : cap < 2 ^ 63) {h : List (Visible Party (Op α) (Ret α))}
    {S : System α} (hrun : Run System.Step (System.init cap) h S) :
    (∀ mode item p, S.producer = .enqueue mode item p → stepEnqueue mode item true S.buffer p = none →
      (∃ r, p = .returning r) ∨ p = .acquire .semaWait ∧ S.buffer.slots.sema = 0) ∧
    (∀ call p, S.consumer = .take call p → stepTake call true S.buffer p = none →
      (∃ r, p = .returning r) ∨ p = .acquire .semaWait ∧ S.buffer.items.sema = 0) ∧
    ∀ p, S.consumer = .peek p → stepPeek S.buffer p = none → ∃ r, p = .returning r := by
  obtain ⟨q, k, n, hinv⟩ := System.exists_abstracts hcap hrun
  refine ⟨fun mode item p _ => stepEnqueue_eq_none, fun call p hC => ?_, fun p hC => ?_⟩
  · rw [hC] at hinv
    exact hinv.stepTake_eq_none
  · rw [hC] at hinv
    exact hinv.stepPeek_eq_none

/-- Both threads are in an operation. -/
theorem defined_overlap : ∃ S : System ℕ,
    S.producer = .enqueue .try 8 .construct ∧ S.consumer = .take (.dequeue .wait) .take ∧
    (∀ mode item p, S.producer = .enqueue mode item p → stepEnqueue mode item true S.buffer p = none →
      (∃ r, p = .returning r) ∨ p = .acquire .semaWait ∧ S.buffer.slots.sema = 0) ∧
    (∀ call p, S.consumer = .take call p → stepTake call true S.buffer p = none →
      (∃ r, p = .returning r) ∨ p = .acquire .semaWait ∧ S.buffer.items.sema = 0) ∧
    ∀ p, S.consumer = .peek p → stepPeek S.buffer p = none → ∃ r, p = .returning r := by
  obtain ⟨S, -, ⟨hrun, hP, hC, -⟩, -⟩ := exists_run_overlap
  exact ⟨S, hP, hC, System.defined (by decide) hrun⟩

/-- **The counters.**  In every reachable state `m_count` of both semaphores is at least
`-1`, as `signal` asserts, and at most the capacity, and the kernel semaphores are at
most one. -/
theorem System.counters {cap : ℕ} (hcap : cap < 2 ^ 63) {h : List (Visible Party (Op α) (Ret α))}
    {S : System α} (hrun : Run System.Step (System.init cap) h S) :
    ∀ s ∈ [S.buffer.slots, S.buffer.items], -1 ≤ s.count ∧ s.count ≤ cap ∧ s.sema ≤ 1 := by
  obtain ⟨q, k, n, hinv⟩ := System.exists_abstracts hcap hrun
  have hfree := hinv.free
  have hstored := hinv.stored
  have hslots := hinv.slots.nonneg
  have hitems := hinv.items.nonneg
  simp only [List.forall_mem_cons, List.not_mem_nil, false_imp_iff, implies_true, and_true]
  constructor
  · have hsema := hinv.slots.sema
    rw [LightweightSemaphore.tokens] at hslots hfree
    refine ⟨?_, ?_, ?_⟩ <;> split_ifs at hslots hfree hsema <;> omega
  · have hsema := hinv.items.sema
    rw [LightweightSemaphore.tokens] at hitems hstored
    refine ⟨?_, ?_, ?_⟩ <;> split_ifs at hitems hstored hsema <;> omega

/-- After one push into a buffer for one element. -/
theorem counters_push : ∃ S : System ℕ, S.buffer.items.count = 1 ∧
    ∀ s ∈ [S.buffer.slots, S.buffer.items], -1 ≤ s.count ∧ s.count ≤ (1 : ℕ) ∧ s.sema ≤ 1 := by
  obtain ⟨S, hrun, -, -, hcount⟩ := exists_run_push
  exact ⟨S, hcount, System.counters (by decide) hrun⟩

/-! ### Waiting -/

/-- The kernel keeps the producer waiting. -/
def System.ProducerWaits (S : System α) : Prop :=
  S.producer.wait = .semaWait ∧ S.buffer.slots.sema = 0

/-- The kernel keeps the consumer waiting. -/
def System.ConsumerWaits (S : System α) : Prop :=
  S.consumer.wait = .semaWait ∧ S.buffer.items.sema = 0

/-- A producer that waits holds no slot and has signalled nobody. -/
theorem Producer.held_of_wait {P : Producer α} {w : WaitPoint} (h : P.wait = w)
    (hw : w ≠ .returned true) : P.held = 0 ∧ P.sig = .returned := by
  cases P with
  | idle => exact absurd h.symm hw
  | enqueue mode item p => cases p <;> simp_all

/-- A consumer that waits holds no element and has signalled nobody. -/
theorem Consumer.held_of_wait {C : Consumer α} {w : WaitPoint} (h : C.wait = w)
    (hw : w ≠ .returned true) : C.held = 0 ∧ C.sig = .returned := by
  cases C with
  | idle | peek => exact absurd h.symm hw
  | take call p => cases p <;> simp_all

/-- **A thread that is kept waiting has a reason.**  In every reachable state, if the
producer is kept waiting then the queue is full or the consumer is about to wake it; if
the consumer is kept waiting then the queue is empty or the producer is about to wake
it; and if the capacity is positive, the two are not both kept waiting. -/
theorem System.waits_for_reason {cap : ℕ} (hcap : cap < 2 ^ 63) {h : List (Visible Party (Op α) (Ret α))}
    {S : System α} (hrun : Run System.Step (System.init cap) h S) :
    ∃ q, S.Abstracts cap q ∧
      (S.ProducerWaits → q.length = cap ∨ S.consumer.sig = .semaSignal) ∧
      (S.ConsumerWaits → q = [] ∨ S.producer.sig = .semaSignal) ∧
      (0 < cap → S.ProducerWaits → ¬ S.ConsumerWaits) := by
  obtain ⟨q, k, n, hinv⟩ := System.exists_abstracts hcap hrun
  have hfree := hinv.free
  have hstored := hinv.stored
  have hP : S.ProducerWaits → q.length = cap ∨ S.consumer.sig = .semaSignal := by
    rintro ⟨hwait, hsema⟩
    obtain ⟨hheld, -⟩ := Producer.held_of_wait hwait (by decide)
    have hslots := hinv.slots
    rw [hwait] at hslots hfree
    rw [hheld] at hfree
    exact (hslots.no_lost_wakeup hsema).imp_left fun htok => by omega
  have hC : S.ConsumerWaits → q = [] ∨ S.producer.sig = .semaSignal := by
    rintro ⟨hwait, hsema⟩
    obtain ⟨hheld, -⟩ := Consumer.held_of_wait hwait (by decide)
    have hitems := hinv.items
    rw [hwait] at hitems hstored
    rw [hheld] at hstored
    exact (hitems.no_lost_wakeup hsema).imp_left fun htok =>
      List.length_eq_zero_iff.mp (by omega)
  refine ⟨q, ⟨k, n, hinv⟩, hP, hC, fun hpos hPw hCw => ?_⟩
  obtain ⟨-, hPsig⟩ := Producer.held_of_wait hPw.1 (by decide)
  obtain ⟨-, hCsig⟩ := Consumer.held_of_wait hCw.1 (by decide)
  rcases hP hPw with hfull | hsig
  · rcases hC hCw with rfl | hsig
    · exact hpos.ne hfull
    · exact absurd (hPsig.symm.trans hsig) (by decide)
  · exact absurd (hCsig.symm.trans hsig) (by decide)

/-- The loop over `spin` of a consumer that finds nothing. -/
theorem run_spin {S₀ S : System α} {call : Take} {h : List (Visible Party (Op α) (Ret α))}
    (hcount : S.buffer.items.count ≤ 0) :
    ∀ n, Run System.Step S₀ h { S with consumer := .take call (.acquire (.spin n)) } →
      Run System.Step S₀ h { S with consumer := .take call (.acquire (.spin 0)) }
  | 0, hrun => hrun
  | n + 1, hrun => by
      have hstep : stepTake call true S.buffer (.acquire (.spin (n + 1))) =
          some (S.buffer, .acquire (.spin n)) := by
        rw [stepTake_acquire (by simp), LightweightSemaphore.stepWait, if_neg (by omega)]
        rfl
      have hnext := hrun.tail (System.Step.take true rfl hstep)
      rw [Option.toList_none, List.append_nil] at hnext
      exact run_spin hcount n hnext

/-- The consumer waits for an element. -/
theorem exists_run_semaWait : ∃ S : System ℕ,
    Run System.Step (System.init 1) [.call .consumer (.pull true)] S ∧ S.ConsumerWaits := by
  have h₀ : Run System.Step (System.init 1 : System ℕ) [.call Party.consumer (Op.pull true)] _ :=
    Run.refl.tail (System.Step.callTake (.dequeue .wait) rfl)
  have h₁ := h₀.tail (System.Step.take true rfl rfl)
  have h₂ := run_spin le_rfl 1024 h₁
  have h₃ := h₂.tail (System.Step.take true rfl rfl)
  exact ⟨_, h₃.tail (System.Step.take true rfl rfl), rfl, rfl⟩

/-- The consumer of an empty buffer is kept waiting. -/
theorem waits_for_reason_semaWait : ∃ S : System ℕ, S.ConsumerWaits ∧ ∃ q, S.Abstracts 1 q ∧
    (S.ProducerWaits → q.length = 1 ∨ S.consumer.sig = .semaSignal) ∧
    (S.ConsumerWaits → q = [] ∨ S.producer.sig = .semaSignal) ∧
    (0 < 1 → S.ProducerWaits → ¬ S.ConsumerWaits) := by
  obtain ⟨S, hrun, hwaits⟩ := exists_run_semaWait
  exact ⟨S, hwaits, System.waits_for_reason (by decide) hrun⟩

/-! ### The destructor -/

/-- The loop of the destructor destroys the elements from `i` on, one after the other. -/
theorem destroyFrom_eq {k n : ℕ} (hk : k ≤ 64) :
    ∀ (q : List α) (i : ℕ) (b : CircularBuffer α), b.mask = 2 ^ k - 1 → b.nextItem = n % 2 ^ 64 →
      q.length ≤ 2 ^ k → Ring (2 ^ k) .raw (n + i) b.cells (q.map .live) →
      ∃ b', b.destroyFrom i q.length = some b' ∧ Ring (2 ^ k) .raw (n + i + q.length) b'.cells []
  | [], i, b, _, _, _, hcells => ⟨b, rfl, hcells⟩
  | v :: q, i, b, hmask, hitem, hlen, hcells => by
      have hcell : (b.nextItem + i) % 2 ^ 64 &&& b.mask = (n + i) % 2 ^ k := by
        rw [hitem, Nat.mod_add_mod, hmask, Masks.wrap_and_mask hk]
      have hlive : b.cells ((n + i) % 2 ^ k) = .live v := hcells 0 (Nat.two_pow_pos k)
      have hraw := (hcells.set_head (Nat.two_pow_pos k) .raw).tail
        (by rw [List.length_map]; exact hlen)
      obtain ⟨b', hb', hcells'⟩ := destroyFrom_eq hk q (i + 1)
        { b with cells := Function.update b.cells ((n + i) % 2 ^ k) .raw } hmask hitem
        (Nat.le_of_succ_le hlen) hraw
      refine ⟨b', ?_, ?_⟩
      · rw [List.length_cons, CircularBuffer.destroyFrom, hcell, hlive]
        exact hb'
      · rwa [List.length_cons, Nat.add_comm q.length, ← Nat.add_assoc]

/-- **The destructor.**  When neither thread is in an operation, it destroys the
elements that are left and nothing else: no destruction is undefined, and no cell holds
an element after it. -/
theorem System.destroys_what_is_left {cap : ℕ} (hcap : cap < 2 ^ 63)
    {h : List (Visible Party (Op α) (Ret α))} {S : System α}
    (hrun : Run System.Step (System.init cap) h S) (hP : S.producer = .idle)
    (hC : S.consumer = .idle) :
    ∃ b', S.buffer.destroy = some b' ∧ ∀ j ≤ S.buffer.mask, b'.cells j = .raw := by
  obtain ⟨q, k, n, hinv⟩ := System.exists_abstracts hcap hrun
  rw [hP, hC] at hinv
  have hlen : S.buffer.items.availableApprox = q.length := by
    have havail := hinv.items.availableApprox.2.2 rfl
    have hstored := hinv.stored
    rw [show (Consumer.idle : Consumer α).held = 0 from rfl] at hstored
    omega
  have hle : q.length ≤ 2 ^ k := by
    have hfree := hinv.free
    have hnonneg := hinv.slots.nonneg
    have hfits := hinv.fits
    omega
  have hcells : Ring (2 ^ k) .raw (n + 0) S.buffer.cells (q.map .live) := by
    have hcells := hinv.cells
    rwa [show (Producer.idle : Producer α).built = [] from rfl, List.append_nil] at hcells
  obtain ⟨b', hb', hraw⟩ := destroyFrom_eq hinv.width q 0 S.buffer hinv.mask hinv.nextItem hle hcells
  refine ⟨b', by rw [CircularBuffer.destroy, hlen, hb'], fun j hj => hraw.eq_of_nil ?_⟩
  rw [hinv.mask] at hj
  have := Nat.two_pow_pos k
  omega

/-- One element is left. -/
theorem destroys_what_is_left_push : ∃ S : System ℕ, S.buffer.items.count = 1 ∧
    ∃ b', S.buffer.destroy = some b' ∧ ∀ j ≤ S.buffer.mask, b'.cells j = .raw := by
  obtain ⟨S, hrun, hP, hC, hcount⟩ := exists_run_push
  exact ⟨S, hcount, System.destroys_what_is_left (by decide) hrun hP hC⟩

end Moodycamel
end CppDataStream
