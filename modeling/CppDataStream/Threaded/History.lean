/-
# Histories of an element that one thread runs

What an element does is read off the log in stages: the blocks it is called with,
those that have passed the `_had_error` test, those it has emitted, those that have
gone through a visitor connection or a connection to another element; for a buffer
also those it has enqueued, dequeued and delivered to the base class.  Each stage
lags behind the one before by the blocks that the frames on the stack of one thread
still hold (`Ledger`).  A ledger is balanced in every reachable state if one thread
alone runs the frames it is about (`Ledger.balance`): a frame then settles in one
step what it takes from the stack and puts on it.

The queue lies between two threads, and what has been enqueued is what has been
dequeued and the queue, whoever runs what (`Reachable.queue`).
-/

import CppDataStream.Threaded.Stacks
import CppDataStream.Library.Streams

namespace CppDataStream

namespace Pipeline

variable {ι V T σ : Type*} [DecidableEq ι] {P : Pipeline ι V T σ} {priv : ι → σ}
  {bs : List (SharedDataBlock T)} {S : State ι V T σ}

/-- In every reachable state the frames of a side are on the stack of `t`. -/
def Owned (P : Pipeline ι V T σ) (priv : ι → σ) (bs : List (SharedDataBlock T)) (s : Side ι)
    (t : Thread ι) : Prop :=
  ∀ S, P.Reachable priv bs S → ∀ t', ∀ f ∈ S.stack t', f.side = s → t' = t

/-- An element is run by the thread below the buffers above it. -/
theorem Uniform.owned_base {n : ι} {l : List ι} (hn : P.Uniform n) (hl : P.Upstream n l) :
    P.Owned priv bs (.base n) (threadBelow (P.under n l)) :=
  fun _ hS t f hf hside => (hS.confined hn hl).base t f hf hside

/-- A buffer is fed by one thread. -/
theorem Uniform.owned_producer {n : ι} {l : List ι} (hn : P.Uniform n) (hl : P.Upstream n l) :
    P.Owned priv bs (.producer n) (threadBelow l) :=
  fun _ hS t f hf hside => (hS.confined hn hl).producer t f hf hside

/-- `run` is run for buffers only. -/
theorem Reachable.isBuffer (h : P.Reachable priv bs S) {t : Thread ι} {c : ι}
    {sdb : SharedDataBlock T} (hf : .deliver c sdb ∈ S.stack t) : P.IsBuffer c := by
  rcases (h.bottom t).call_or_eq hf with hcall | ⟨hbot, -⟩
  · exact absurd hcall id
  · cases hbot
    exact h.wellFormed.isBuffer (List.ne_nil_of_mem hf)

/-! ### Ledgers -/

/-- `X` and `Y` are two stages of a log, and `pend f` what a frame `f` has taken
from `Y` and not yet given to `X`.  A frame that adds to a stage is on the side `s`,
or calls what is. -/
structure Ledger (P : Pipeline ι V T σ) (s : Side ι)
    (X Y : List (Event ι V T) → List (SharedDataBlock T)) (pend : Frame ι T → List (SharedDataBlock T)) :
    Prop where
  nil_left : X [] = []
  nil_right : Y [] = []
  append_left : ∀ l l', X (l ++ l') = X l ++ X l'
  append_right : ∀ l l', Y (l ++ l') = Y l ++ Y l'
  main : ∀ todo, pend (.main todo) = []
  dequeue : ∀ c, pend (.dequeue c) = []
  exec : ∀ sh f e, Exec P sh f e → (∀ c sdb, f = .deliver c sdb → P.IsBuffer c) →
    X e.events ++ e.frames.flatMap pend = pend f ++ Y e.events
  uses : ∀ sh f e, Exec P sh f e → ¬ (X e.events = [] ∧ Y e.events = []) →
    f.side = s ∨ ∃ g ∈ e.frames, g.side = s

variable {s : Side ι} {t : Thread ι} {X Y : List (Event ι V T) → List (SharedDataBlock T)}
  {pend : Frame ι T → List (SharedDataBlock T)}

/-- **A ledger is balanced** on the stack of the thread that runs its frames. -/
theorem Ledger.balance (L : Ledger P s X Y pend) (hown : P.Owned priv bs s t)
    (hrest : ∀ S, P.Reachable priv bs S → ∀ f rest e, S.stack t = f :: rest → Exec P S.shared f e →
      Y e.events ≠ [] → rest.flatMap pend = [])
    (h : P.Reachable priv bs S) : X S.log ++ (S.stack t).flatMap pend = Y S.log := by
  refine h.induct (I := fun S => X S.log ++ (S.stack t).flatMap pend = Y S.log) ?_
    fun S t' f rest e hS ih hstack hexec hS' => ?_
  · by_cases ht : t = .pusher <;> simp [init, ht, L.nil_left, L.nil_right, L.main]
  · have hdeliver : ∀ c sdb, f = .deliver c sdb → P.IsBuffer c := fun c sdb hf =>
      hS.isBuffer (show .deliver c sdb ∈ S.stack t' by simp [hstack, hf])
    have hbalance := L.exec _ _ _ hexec hdeliver
    rw [L.append_left, L.append_right, ← ih]
    rcases stack_cases S.stack t' (e.frames ++ rest) e.spawned t with
      ⟨c, i, ho, rfl, hs⟩ | ⟨rfl, hs⟩ | ⟨hne, hs⟩
    · obtain ⟨⟨sdb, rfl⟩, rfl, -⟩ := hexec.spawned ho
      have hempty : S.stack (.worker c (S.shared.created c)) = [] := by
        by_contra hne
        exact absurd (hS.wellFormed.live c _ hne) (lt_irrefl _)
      have hev : e.events = [] := by cases hexec; rfl
      simp [hs, hempty, hev, L.dequeue, L.nil_left, L.nil_right]
    · simp only [hs, hstack, List.flatMap_append, List.flatMap_cons]
      by_cases hY : Y e.events = []
      · rw [hY, List.append_nil] at hbalance ⊢
        rw [List.append_assoc, ← List.append_assoc (X e.events), hbalance]
      · rw [hrest S hS f rest e hstack hexec hY, List.append_nil, List.append_nil, List.append_assoc,
          hbalance, List.append_assoc]
    · simp only [hs]
      have hnone : X e.events = [] ∧ Y e.events = [] := by
        by_contra hne'
        rcases L.uses _ _ _ hexec hne' with hside | ⟨g, hg, hside⟩
        · exact hne (hown S hS t' f (by simp [hstack]) hside).symm
        · exact hne (hown _ hS' t' g (hS.wellFormed.mem_stack hstack hexec hg) hside).symm
      rw [hnone.1, hnone.2, List.append_nil, List.append_nil]

/-- So it is if only topmost frames hold blocks. -/
theorem Ledger.balance_of_top (L : Ledger P s X Y pend) (hown : P.Owned priv bs s t)
    (htop : ∀ g : Frame ι T, g.Resumes → pend g = []) (h : P.Reachable priv bs S) :
    X S.log ++ (S.stack t).flatMap pend = Y S.log := by
  refine L.balance hown (fun S hS f rest e hstack _ _ => ?_) h
  refine List.flatMap_eq_nil_iff.mpr fun g hg => htop g (hS.wellFormed.resumes t g ?_)
  rw [hstack]
  exact hg

end Pipeline

namespace Frame

variable {ι T : Type*} [DecidableEq ι]

/-- What a frame has still to pass through visitor connection `k` of `n`. -/
def toVisit (n : ι) (k : ℕ) : Frame ι T → List (SharedDataBlock T)
  | .visit n' k' output => if n' = n ∧ k' ≤ k then [output] else []
  | _ => []

/-- What a frame has still to push into the element connected at position `k` of
`n`. -/
def toForward (n : ι) (k : ℕ) : Frame ι T → List (SharedDataBlock T)
  | .visit n' _ output => if n' = n then [output] else []
  | .forward n' k' output => if n' = n ∧ k' ≤ k then [output] else []
  | _ => []

/-- What a frame has still to take past the `_had_error` test of `n`, or to hand to
`processData`. -/
def toTake (n : ι) : Frame ι T → List (SharedDataBlock T)
  | .hadError n' sdb | .process n' sdb => if n' = n then [sdb] else []
  | _ => []

/-- What a frame has still to enqueue in `c`. -/
def toEnqueue (c : ι) : Frame ι T → List (SharedDataBlock T)
  | .startTest c' sdb | .start c' sdb | .assign c' sdb | .started c' sdb | .enqueue c' sdb =>
      if c' = c then [sdb] else []
  | _ => []

/-- What `run` of `c` has still to deliver. -/
def toDeliver (c : ι) : Frame ι T → List (SharedDataBlock T)
  | .deliver c' sdb => if c' = c then [sdb] else []
  | _ => []

end Frame

namespace Pipeline

variable {ι V T σ : Type*} [DecidableEq ι] {P : Pipeline ι V T σ} {priv : ι → σ}
  {bs : List (SharedDataBlock T)} {S : State ι V T σ}

open CppDataStream.Frame

omit [DecidableEq ι] in
/-- The first frame of a call. -/
theorem pushFrame_cases (P : Pipeline ι V T σ) (m : ι) (sdb : SharedDataBlock T) :
    (P.IsBuffer m ∧ P.pushFrame m sdb = .startTest m sdb) ∨
      (¬ P.IsBuffer m ∧ P.pushFrame m sdb = .hadError m sdb) := by
  unfold pushFrame
  split_ifs with hm
  · exact Or.inl ⟨hm, rfl⟩
  · exact Or.inr ⟨hm, rfl⟩

/-- A call that begins owes no visitor anything yet. -/
theorem toVisit_pushFrame (n : ι) (k : ℕ) (m : ι) (sdb : SharedDataBlock T) :
    toVisit n k (P.pushFrame m sdb) = [] := by
  rcases pushFrame_cases P m sdb with ⟨-, h⟩ | ⟨-, h⟩ <;> rw [h] <;> rfl

/-- It owes no successor anything yet. -/
theorem toForward_pushFrame (n : ι) (k : ℕ) (m : ι) (sdb : SharedDataBlock T) :
    toForward n k (P.pushFrame m sdb) = [] := by
  rcases pushFrame_cases P m sdb with ⟨-, h⟩ | ⟨-, h⟩ <;> rw [h] <;> rfl

/-- It owes no delivery. -/
theorem toDeliver_pushFrame (c m : ι) (sdb : SharedDataBlock T) :
    toDeliver c (P.pushFrame m sdb) = [] := by
  rcases pushFrame_cases P m sdb with ⟨-, h⟩ | ⟨-, h⟩ <;> rw [h] <;> rfl

/-- A call of a buffer owes the block to its queue. -/
theorem toEnqueue_pushFrame {c : ι} (hc : P.IsBuffer c) (m : ι) (sdb : SharedDataBlock T) :
    toEnqueue c (P.pushFrame m sdb) = if m = c then [sdb] else [] := by
  rcases pushFrame_cases P m sdb with ⟨-, h⟩ | ⟨hm, h⟩ <;> rw [h]
  · rfl
  · exact (if_neg fun heq : m = c => hm (heq ▸ hc)).symm

/-- A call of another element owes it the block. -/
theorem toTake_pushFrame {n : ι} (hn : ¬ P.IsBuffer n) (m : ι) (sdb : SharedDataBlock T) :
    toTake n (P.pushFrame m sdb) = if m = n then [sdb] else [] := by
  rcases pushFrame_cases P m sdb with ⟨hm, h⟩ | ⟨-, h⟩ <;> rw [h]
  · exact (if_neg fun heq : m = n => hn (heq ▸ hm)).symm
  · rfl

/-- A call of a buffer does not, as its worker does the rest. -/
theorem toTake_pushFrame_buffer {c : ι} (hc : P.IsBuffer c) (m : ι) (sdb : SharedDataBlock T) :
    toTake c (P.pushFrame m sdb) = [] := by
  rcases pushFrame_cases P m sdb with ⟨-, h⟩ | ⟨hm, h⟩ <;> rw [h]
  · rfl
  · exact if_neg fun heq : m = c => hm (heq ▸ hc)

/-- What a loop at position `k'` still owes position `k`, it pays there or later. -/
theorem owed_eq (p : Prop) [Decidable p] (k' k : ℕ) (b : SharedDataBlock T) :
    (if p ∧ k' ≤ k then [b] else []) =
      (if p ∧ k' = k then [b] else []) ++ if p ∧ k' + 1 ≤ k then [b] else [] := by
  by_cases hp : p
  · rcases Nat.lt_trichotomy k' k with hlt | rfl | hlt
    · simp [hp, hlt.le, hlt.ne, Nat.succ_le_of_lt hlt]
    · simp [hp]
    · simp [hp, hlt.not_ge, hlt.ne', show ¬ k' + 1 ≤ k by omega]
  · simp [hp]

/-- From what an element emits to what goes through a visitor connection. -/
theorem ledger_seen {n : ι} {k : ℕ} (hk : k < (P.visitors n).length) :
    Ledger P (.base n) (seen n k) (outputs n) (toVisit n k) where
  nil_left := rfl
  nil_right := rfl
  append_left := seen_append n k
  append_right := outputs_append n
  main _ := rfl
  dequeue _ := rfl
  exec sh f e h _ := by
    cases h with
    | push | forward => simp only [List.flatMap_cons, toVisit_pushFrame]; rfl
    | process m sdb => by_cases hm : m = n <;> simp [seen, outputs, toVisit, hm]
    | visit m k' output v hv =>
        simp only [toVisit, List.flatMap_cons, List.flatMap_nil, owed_eq (m = n) k' k]
        by_cases hk' : m = n ∧ k' = k <;> simp [seen, outputs, hk']
    | visited m k' output hv =>
        have hnot : ¬ (m = n ∧ k' ≤ k) := by
          rintro ⟨rfl, hle⟩
          have := List.getElem?_eq_none_iff.mp hv
          omega
        simp [seen, outputs, toVisit, hnot]
    | _ => rfl
  uses sh f e h hne := by
    refine Or.inl ?_
    cases h with
    | process m sdb | visit m k' output v hv =>
        by_contra hside
        have hm : m ≠ n := fun hm => hside (congrArg Side.base hm)
        exact hne (by simp [seen, outputs, hm])
    | _ => exact absurd ⟨rfl, rfl⟩ hne

/-- From what an element emits to what it pushes into an element connected to it. -/
theorem ledger_sent {n c : ι} {k : ℕ} (hk : P.Conn n k c) :
    Ledger P (.base n) (inputsFrom c (.connection n k)) (outputs n) (toForward n k) where
  nil_left := rfl
  nil_right := rfl
  append_left := inputsFrom_append c _
  append_right := outputs_append n
  main _ := rfl
  dequeue _ := rfl
  exec sh f e h _ := by
    cases h with
    | push sdb todo =>
        simp only [List.flatMap_cons, toForward_pushFrame]
        simp [inputsFrom, outputs, toForward]
    | forward m k' output c' hc =>
        simp only [List.flatMap_cons, toForward_pushFrame, List.nil_append, List.flatMap_nil]
        simp only [toForward, owed_eq (m = n) k' k]
        by_cases hk' : m = n ∧ k' = k
        · obtain ⟨rfl, rfl⟩ := hk'
          obtain rfl : c' = c := Option.some.inj (hc.symm.trans hk)
          simp [inputsFrom, outputs]
        · simp [inputsFrom, outputs, hk']
    | forwarded m k' output hnone =>
        have hnot : ¬ (m = n ∧ k' ≤ k) := by
          rintro ⟨rfl, hle⟩
          have h₁ := List.getElem?_eq_none_iff.mp hnone
          have h₂ := (List.getElem?_eq_some_iff.mp hk).1
          omega
        simp [inputsFrom, outputs, toForward, hnot]
    | process m sdb => by_cases hm : m = n <;> simp [inputsFrom, outputs, toForward, hm]
    | visit m k' output v hv => by_cases hm : m = n <;> simp [inputsFrom, outputs, toForward, hm]
    | visited m k' output hv => by_cases hm : m = n <;> simp [inputsFrom, outputs, toForward, hm]
    | _ => rfl
  uses sh f e h hne := by
    refine Or.inl ?_
    cases h with
    | process m sdb =>
        by_contra hside
        have hm : m ≠ n := fun hm => hside (congrArg Side.base hm)
        exact hne (by simp [inputsFrom, outputs, hm])
    | forward m k' output c' hc =>
        by_contra hside
        have hm : m ≠ n := fun hm => hside (congrArg Side.base hm)
        exact hne (by simp [inputsFrom, outputs, hm])
    | push => exact absurd ⟨by simp [inputsFrom], rfl⟩ hne
    | _ => exact absurd ⟨rfl, rfl⟩ hne

/-- From what a processor is called with to what it takes past the test. -/
theorem ledger_taken {n : ι} (hn : ¬ P.IsBuffer n) :
    Ledger P (.base n) (taken n) (inputs n) (toTake n) where
  nil_left := rfl
  nil_right := rfl
  append_left := taken_append n
  append_right := inputs_append n
  main _ := rfl
  dequeue _ := rfl
  exec sh f e h hbuf := by
    cases h with
    | push sdb todo =>
        simp only [List.flatMap_cons, toTake_pushFrame hn]
        by_cases hm : P.entry = n <;> simp [taken, inputs, toTake, hm]
    | forward m k' output c' hc =>
        simp only [List.flatMap_cons, toTake_pushFrame hn]
        by_cases hm : c' = n <;> simp [taken, inputs, toTake, hm]
    | deliver c sdb =>
        have hc : c ≠ n := fun hc => hn (hc ▸ hbuf c sdb rfl)
        simp [taken, inputs, toTake, hc]
    | skip m sdb | pass m sdb | process m sdb => by_cases hm : m = n <;> simp [taken, inputs, toTake, hm]
    | _ => rfl
  uses sh f e h hne := by
    cases h with
    | skip m sdb | process m sdb =>
        refine Or.inl (by_contra fun hside => hne ?_)
        have hm : m ≠ n := fun hm => hside (congrArg Side.base hm)
        simp [taken, inputs, hm]
    | push sdb todo =>
        refine Or.inr ⟨_, List.mem_cons_self .., by_contra fun hside => hne ?_⟩
        have hm : P.entry ≠ n := fun hm => hside (by rw [hm, side_pushFrame, if_neg hn])
        simp [taken, inputs, hm]
    | forward m k output c hc =>
        refine Or.inr ⟨_, List.mem_cons_self .., by_contra fun hside => hne ?_⟩
        have hm : c ≠ n := fun hm => hside (by rw [hm, side_pushFrame, if_neg hn])
        simp [taken, inputs, hm]
    | _ => exact absurd ⟨rfl, rfl⟩ hne

/-- From what `run` of a buffer delivers to what it takes past the test. -/
theorem ledger_taken_buffer {c : ι} (hc : P.IsBuffer c) :
    Ledger P (.base c) (taken c) (delivered c) (toTake c) where
  nil_left := rfl
  nil_right := rfl
  append_left := taken_append c
  append_right := delivered_append c
  main _ := rfl
  dequeue _ := rfl
  exec sh f e h _ := by
    cases h with
    | push | forward => simp only [List.flatMap_cons, toTake_pushFrame_buffer hc]; rfl
    | skip m sdb | pass m sdb | process m sdb | deliver m sdb =>
        by_cases hm : m = c <;> simp [taken, delivered, toTake, hm]
    | _ => rfl
  uses sh f e h hne := by
    refine Or.inl ?_
    cases h with
    | skip m sdb | process m sdb | deliver m sdb =>
        refine by_contra fun hside => hne ?_
        have hm : m ≠ c := fun hm => hside (congrArg Side.base hm)
        simp [taken, delivered, hm]
    | _ => exact absurd ⟨rfl, rfl⟩ hne

/-- From what a buffer is called with to what it enqueues. -/
theorem ledger_enqueued {c : ι} (hc : P.IsBuffer c) :
    Ledger P (.producer c) (enqueued c) (inputs c) (toEnqueue c) where
  nil_left := rfl
  nil_right := rfl
  append_left := enqueued_append c
  append_right := inputs_append c
  main _ := rfl
  dequeue _ := rfl
  exec sh f e h _ := by
    cases h with
    | push sdb todo =>
        simp only [List.flatMap_cons, toEnqueue_pushFrame hc]
        by_cases hm : P.entry = c <;> simp [enqueued, inputs, toEnqueue, hm]
    | forward m k output c' hconn =>
        simp only [List.flatMap_cons, toEnqueue_pushFrame hc]
        by_cases hm : c' = c <;> simp [enqueued, inputs, toEnqueue, hm]
    | isStarted c' sdb | notStarted c' sdb | start c' sdb | terminate c' sdb | assign c' sdb
    | started c' sdb | enqueue c' sdb => by_cases hm : c' = c <;> simp [enqueued, inputs, toEnqueue, hm]
    | _ => rfl
  uses sh f e h hne := by
    cases h with
    | enqueue c' sdb =>
        refine Or.inl (by_contra fun hside => hne ?_)
        have hm : c' ≠ c := fun hm => hside (congrArg Side.producer hm)
        simp [enqueued, inputs, hm]
    | push sdb todo =>
        refine Or.inr ⟨_, List.mem_cons_self .., by_contra fun hside => hne ?_⟩
        have hm : P.entry ≠ c := fun hm => hside (by rw [hm, side_pushFrame, if_pos hc])
        simp [enqueued, inputs, hm]
    | forward m k output c' hconn =>
        refine Or.inr ⟨_, List.mem_cons_self .., by_contra fun hside => hne ?_⟩
        have hm : c' ≠ c := fun hm => hside (by rw [hm, side_pushFrame, if_pos hc])
        simp [enqueued, inputs, hm]
    | _ => exact absurd ⟨rfl, rfl⟩ hne

/-- From what `run` of a buffer dequeues to what it delivers. -/
theorem ledger_delivered (P : Pipeline ι V T σ) (c : ι) :
    Ledger P (.base c) (delivered c) (dequeued c) (toDeliver c) where
  nil_left := rfl
  nil_right := rfl
  append_left := delivered_append c
  append_right := dequeued_append c
  main _ := rfl
  dequeue _ := rfl
  exec sh f e h _ := by
    cases h with
    | push | forward => simp only [List.flatMap_cons, toDeliver_pushFrame]; rfl
    | dequeue c' sdb | deliver c' sdb =>
        by_cases hm : c' = c <;> simp [delivered, dequeued, toDeliver, hm]
    | _ => rfl
  uses sh f e h hne := by
    refine Or.inl ?_
    cases h with
    | dequeue c' sdb | deliver c' sdb =>
        refine by_contra fun hside => hne ?_
        have hm : c' ≠ c := fun hm => hside (congrArg Side.base hm)
        simp [delivered, dequeued, hm]
    | _ => exact absurd ⟨rfl, rfl⟩ hne

/-- **The queue is a FIFO**: what has been enqueued is what has been dequeued and
then what is in the queue, which is never longer than `maxBlocks`. -/
theorem Reachable.queue (h : P.Reachable priv bs S) (c : ι) :
    enqueued c S.log = dequeued c S.log ++ S.shared.queue c ∧
      (S.shared.queue c).length ≤ (P.maxBlocks c).getD 0 := by
  refine h.induct (I := fun S => enqueued c S.log = dequeued c S.log ++ S.shared.queue c ∧
    (S.shared.queue c).length ≤ (P.maxBlocks c).getD 0) ⟨rfl, Nat.zero_le _⟩
    fun S t f rest e _ ih _ hexec _ => ?_
  simp only [enqueued_append, dequeued_append]
  obtain ⟨hfifo, hlen⟩ := ih
  cases hexec with
  | enqueue c' sdb hlt =>
      by_cases hc : c' = c
      · subst hc
        refine ⟨by simp [enqueued, dequeued] at hfifo ⊢; simp [hfifo], ?_⟩
        simp only [Function.update_self, List.length_append, List.length_singleton]
        omega
      · refine ⟨by simp [enqueued, dequeued, hc, Ne.symm hc] at hfifo ⊢; exact hfifo, ?_⟩
        simpa [Function.update_of_ne (Ne.symm hc)] using hlen
  | dequeue c' sdb sdbs hq =>
      by_cases hc : c' = c
      · subst hc
        rw [hq] at hfifo hlen
        refine ⟨by simp [enqueued, dequeued] at hfifo ⊢; simp [hfifo], ?_⟩
        simp only [Function.update_self, List.length_cons] at hlen ⊢
        omega
      · refine ⟨by simp [enqueued, dequeued, hc, Ne.symm hc] at hfifo ⊢; exact hfifo, ?_⟩
        simpa [Function.update_of_ne (Ne.symm hc)] using hlen
  | _ => simpa [enqueued, dequeued, Pipeline.process] using ⟨hfifo, hlen⟩

end Pipeline
end CppDataStream
