/-
# Streams as lists: stateful maps, latches, merges

Finite streams are lists.  A stage with private state is a function
`f : σ → α → σ × β`; `statefulMap f s` is the stream it computes from the state
`s`.  A *latched* stage stops for good after the first output that satisfies
`p` (`latchOut`): that is the stateful map cut just after this output
(`latchOut_eq_cutAfter`), and it is monotone in the prefix order
(`latchOut_isPrefix`), which is what makes a network of such stages determined by
its inputs.

`Ended p` is a stream with exactly one `p`-element, its last; a latched stage
whose outputs keep to that protocol element by element sends an ended stream to
an ended stream (`ended_latchOut`).

`BeforeLast` and `AtMostAfter` say where the elements of one kind stand among those
of another in a history.

`IsMerge` is an order-preserving merge of a family of streams, given by a
labelling of the merged stream.  `Upto` compares what an aborted computation has
produced with what the whole would produce.
-/

import Mathlib.Data.List.Infix
import Mathlib.Tactic.Common

namespace CppDataStream
namespace Streams

variable {α β σ κ : Type*}

/-! ### Stateful maps and cuts -/

/-- The outputs of a stage with private state, one for each input. -/
def statefulMap (f : σ → α → σ × β) : σ → List α → List β
  | _, [] => []
  | s, a :: as => (f s a).2 :: statefulMap f (f s a).1 as

/-- The stream up to and including its first element with `p`. -/
def cutAfter (p : α → Bool) : List α → List α
  | [] => []
  | a :: as => if p a then [a] else a :: cutAfter p as

/-- What is cut off is the end. -/
theorem cutAfter_isPrefix (p : α → Bool) (l : List α) : cutAfter p l <+: l := by
  induction l with
  | nil => exact List.prefix_rfl
  | cons a l ih =>
      rw [cutAfter]
      split_ifs
      · exact ⟨l, rfl⟩
      · exact List.cons_prefix_cons.mpr ⟨rfl, ih⟩

/-- Nothing is cut off a list without a cut. -/
theorem cutAfter_of_forall {p : α → Bool} {l : List α} (h : ∀ a ∈ l, p a = false) :
    cutAfter p l = l := by
  induction l with
  | nil => rfl
  | cons a l ih =>
      rw [List.forall_mem_cons] at h
      simp [cutAfter, h.1, ih h.2]

/-- Cutting after the first hit forgets what follows it. -/
theorem cutAfter_append_cons {p : α → Bool} {l : List α} (h : ∀ a ∈ l, p a = false) {a : α}
    (ha : p a = true) (r : List α) : cutAfter p (l ++ a :: r) = l ++ [a] := by
  induction l with
  | nil => simp [cutAfter, ha]
  | cons b l ih =>
      rw [List.forall_mem_cons] at h
      simp [cutAfter, h.1, ih h.2]

/-- What holds no element with `p` before its end is not cut. -/
theorem isPrefix_cutAfter {p : α → Bool} {l l' : List α} (h : l <+: l')
    (hl : ∀ a ∈ l.dropLast, p a = false) : l <+: cutAfter p l' := by
  obtain ⟨r, rfl⟩ := h
  rcases List.eq_nil_or_concat l with rfl | ⟨l, a, rfl⟩
  · exact List.nil_prefix
  · rw [List.concat_eq_append, List.dropLast_concat] at hl
    rw [List.concat_eq_append, List.append_assoc]
    cases ha : p a with
    | true => rw [List.singleton_append, cutAfter_append_cons hl ha]
    | false =>
        rw [List.singleton_append]
        induction l with
        | nil => exact ⟨cutAfter p r, by simp [cutAfter, ha]⟩
        | cons b l ih =>
            rw [List.forall_mem_cons] at hl
            simpa [cutAfter, hl.1] using ih hl.2

/-- An element of a concatenation stands in one of the two parts. -/
theorem append_eq_append_cons {l l' before after : List α} {a : α}
    (h : l ++ l' = before ++ a :: after) :
    (∃ after', l = before ++ a :: after' ∧ after = after' ++ l') ∨
      ∃ before', before = l ++ before' ∧ l' = before' ++ a :: after := by
  rcases List.append_eq_append_iff.mp h with ⟨m, rfl, hl'⟩ | ⟨m, rfl, hm⟩
  · exact Or.inr ⟨m, rfl, hl'⟩
  · rcases m with _ | ⟨b, m⟩
    · exact Or.inr ⟨[], by simp, by simpa using hm.symm⟩
    · obtain ⟨rfl, rfl⟩ := List.cons.inj hm
      exact Or.inl ⟨m, rfl, rfl⟩

/-! ### Latched stages -/

/-- One input of a latched stage: a raised latch discards it, otherwise the
stage computes, and an output with `p` raises the latch. -/
def latch (f : σ → α → σ × β) (p : β → Bool) (x : σ × Bool) (a : α) : (σ × Bool) × List β :=
  if x.2 then (x, []) else (((f x.1 a).1, p (f x.1 a).2), [(f x.1 a).2])

/-- State and latch after a stream. -/
def latchEnd (f : σ → α → σ × β) (p : β → Bool) : σ × Bool → List α → σ × Bool
  | x, [] => x
  | x, a :: as => latchEnd f p (latch f p x a).1 as

/-- Outputs on a stream. -/
def latchOut (f : σ → α → σ × β) (p : β → Bool) : σ × Bool → List α → List β
  | _, [] => []
  | x, a :: as => (latch f p x a).2 ++ latchOut f p (latch f p x a).1 as

variable {f : σ → α → σ × β} {p : β → Bool}

/-- Without input a stage stays as it is. -/
@[simp] theorem latchEnd_nil (x : σ × Bool) : latchEnd f p x [] = x := rfl

/-- Without input a stage emits nothing. -/
@[simp] theorem latchOut_nil (x : σ × Bool) : latchOut f p x [] = [] := rfl

/-- A stage goes on from where it was left. -/
theorem latchEnd_append (x : σ × Bool) (l l' : List α) :
    latchEnd f p x (l ++ l') = latchEnd f p (latchEnd f p x l) l' := by
  induction l generalizing x with
  | nil => rfl
  | cons a l ih => exact ih _

/-- Its outputs are those of the first part, then those of the second from where it was
left. -/
theorem latchOut_append (x : σ × Bool) (l l' : List α) :
    latchOut f p x (l ++ l') = latchOut f p x l ++ latchOut f p (latchEnd f p x l) l' := by
  induction l generalizing x with
  | nil => rfl
  | cons a l ih =>
      rw [List.cons_append, latchOut, ih, ← List.append_assoc]
      rfl

/-- A raised flag stops all output. -/
@[simp] theorem latchOut_raised (s : σ) (l : List α) : latchOut f p (s, true) l = [] := by
  induction l with
  | nil => rfl
  | cons a l ih => simpa [latchOut, latch] using ih

/-- A raised flag stays, and so does the state. -/
@[simp] theorem latchEnd_raised (s : σ) (l : List α) : latchEnd f p (s, true) l = (s, true) := by
  induction l with
  | nil => rfl
  | cons a l ih => simpa [latchEnd, latch] using ih

/-- **A latched stage is a cut stateful map**: its outputs are those of the
stateful map, up to and including the first with `p`. -/
theorem latchOut_eq_cutAfter (s : σ) (l : List α) :
    latchOut f p (s, false) l = cutAfter p (statefulMap f s l) := by
  induction l generalizing s with
  | nil => rfl
  | cons a l ih =>
      cases h : p (f s a).2 with
      | true => simp [latchOut, latch, statefulMap, cutAfter, h]
      | false => simpa [latchOut, latch, statefulMap, cutAfter, h] using ih _

/-- **A latched stage is monotone**: more input only extends the output. -/
theorem latchOut_isPrefix (x : σ × Bool) {l l' : List α} (h : l <+: l') :
    latchOut f p x l <+: latchOut f p x l' := by
  obtain ⟨r, rfl⟩ := h
  exact ⟨_, (latchOut_append x l r).symm⟩

/-- A latched stage emits at most one output per input. -/
theorem length_latchOut_le (x : σ × Bool) (l : List α) : (latchOut f p x l).length ≤ l.length := by
  induction l generalizing x with
  | nil => exact le_rfl
  | cons a l ih =>
      have hone : (latch f p x a).2.length ≤ 1 := by
        unfold latch
        split_ifs <;> simp
      rw [latchOut, List.length_append, List.length_cons]
      have := ih (latch f p x a).1
      omega

/-- A stage that never raises its latch emits one output per input. -/
theorem length_latchOut_of_forall (h : ∀ s a, p (f s a).2 = false) (s : σ) (l : List α) :
    (latchOut f p (s, false) l).length = l.length := by
  induction l generalizing s with
  | nil => rfl
  | cons a l ih => simpa [latchOut, latch, h] using ih (f s a).1

/-- An input that raises the latch is answered, those after it are not. -/
theorem length_latchOut_le_one {l : List α} (h : ∀ s, ∀ a ∈ l, p (f s a).2 = true) (x : σ × Bool) :
    (latchOut f p x l).length ≤ 1 := by
  obtain ⟨s, b⟩ := x
  cases b with
  | true => simp
  | false =>
      cases l with
      | nil => simp
      | cons a l => simp [latchOut, latch, h s a (List.mem_cons_self ..)]

/-- Inputs that do not raise the latch leave it down. -/
theorem latchEnd_of_forall {l : List α} (h : ∀ s, ∀ a ∈ l, p (f s a).2 = false) (s : σ) :
    (latchEnd f p (s, false) l).2 = false := by
  induction l generalizing s with
  | nil => rfl
  | cons a l ih =>
      have ha := h s a (List.mem_cons_self ..)
      simpa [latchEnd, latch, ha] using ih (fun s a ha => h s a (List.mem_cons_of_mem _ ha)) (f s a).1

/-- A latch that is down answers the first input. -/
theorem latchOut_ne_nil {l : List α} (h : l ≠ []) (s : σ) : latchOut f p (s, false) l ≠ [] := by
  obtain ⟨a, l, rfl⟩ := List.exists_cons_of_ne_nil h
  simp [latchOut, latch]

/-! ### Ended streams -/

/-- Exactly one element has `p`, and it is the last. -/
def Ended (p : α → Bool) (l : List α) : Prop :=
  ∃ init last, l = init ++ [last] ∧ (∀ a ∈ init, p a = false) ∧ p last = true

/-- An ended stream is not empty. -/
theorem Ended.ne_nil {q : α → Bool} {l : List α} (h : Ended q l) : l ≠ [] := by
  obtain ⟨init, last, rfl, -, -⟩ := h
  simp

/-- It may begin with any element without `p`. -/
theorem Ended.cons {q : α → Bool} {a : α} {l : List α} (ha : q a = false) (h : Ended q l) :
    Ended q (a :: l) := by
  obtain ⟨init, last, rfl, hi, hl⟩ := h
  exact ⟨a :: init, last, rfl, List.forall_mem_cons.mpr ⟨ha, hi⟩, hl⟩

/-- A prefix of an ended stream that holds an element with `p` is all of it. -/
theorem Ended.eq_of_isPrefix {q : α → Bool} {l l' : List α} (h : Ended q l') (hl : l <+: l') {a : α}
    (ha : a ∈ l) (hq : q a = true) : l = l' := by
  obtain ⟨init, last, rfl, hi, -⟩ := h
  rcases List.prefix_concat_iff.mp hl with rfl | hl
  · rfl
  · exact absurd hq (by simp [hi a (hl.subset ha)])

/-- An ended stream is all that is left of what it is a prefix of. -/
theorem Ended.cutAfter_of_isPrefix {q : α → Bool} {l l' : List α} (h : Ended q l) (hl : l <+: l') :
    cutAfter q l' = l := by
  obtain ⟨init, last, rfl, hi, hlast⟩ := h
  obtain ⟨r, rfl⟩ := hl
  rw [List.append_assoc]
  exact cutAfter_append_cons hi hlast r

/-- Ended streams hold one element with `p`. -/
theorem Ended.countP_eq_one {q : α → Bool} {l : List α} (h : Ended q l) : l.countP q = 1 := by
  obtain ⟨init, last, rfl, hi, hl⟩ := h
  rw [List.countP_append, List.countP_eq_zero.mpr (by simpa using hi)]
  simp [hl]

/-- **A latched stage keeps the protocol.**  If `f` sends an element without `e`
to one without `e'` or to one with `p`, one with `e` to one with `e'`, and
outputs with `p` have `e'`, then it sends an ended stream to an ended stream. -/
theorem ended_latchOut {e : α → Bool} {e' : β → Bool} (hp : ∀ b, p b = true → e' b = true)
    (ho : ∀ s a, e a = false → e' (f s a).2 = false ∨ p (f s a).2 = true)
    (he : ∀ s a, e a = true → e' (f s a).2 = true) {s : σ} {l : List α} (hl : Ended e l) :
    Ended e' (latchOut f p (s, false) l) := by
  obtain ⟨init, last, rfl, hi, hlast⟩ := hl
  induction init generalizing s with
  | nil => exact ⟨[], (f s last).2, by simp [latchOut, latch], by simp, he _ _ hlast⟩
  | cons a init ih =>
      rw [List.forall_mem_cons] at hi
      rcases ho s a hi.1 with h | h
      · cases hp' : p (f s a).2 with
        | true => exact ⟨[], (f s a).2, by simp [latchOut, latch, hp'], by simp, hp _ hp'⟩
        | false => simpa [latchOut, latch, hp'] using (ih (s := (f s a).1) hi.2).cons h
      · exact ⟨[], (f s a).2, by simp [latchOut, latch, h], by simp, hp _ h⟩

/-! ### What stands before and after an element -/

/-- `before` is what stands before the last element with `p`. -/
def BeforeLast (p : α → Bool) (before l : List α) : Prop :=
  ∃ a after, l = before ++ a :: after ∧ p a = true ∧ ∀ b ∈ after, p b = false

/-- What stands before a last element with `p` is all the rest. -/
theorem beforeLast_concat {q : α → Bool} {a : α} (ha : q a = true) (l : List α) :
    BeforeLast q l (l ++ [a]) :=
  ⟨a, [], rfl, ha, by simp⟩

/-- An element without `p` changes nothing. -/
theorem BeforeLast.concat {q : α → Bool} {before l : List α} (h : BeforeLast q before l) {a : α}
    (ha : q a = false) : BeforeLast q before (l ++ [a]) := by
  obtain ⟨b, after, rfl, hb, hafter⟩ := h
  refine ⟨b, after ++ [a], by simp, hb, fun c hc => ?_⟩
  rcases List.mem_append.mp hc with hc | hc
  · exact hafter c hc
  · rw [List.mem_singleton.mp hc, ha]

/-- What stands before an element is a prefix. -/
theorem BeforeLast.isPrefix {q : α → Bool} {before l : List α} (h : BeforeLast q before l) :
    before <+: l := by
  obtain ⟨a, after, rfl, -, -⟩ := h
  exact ⟨a :: after, rfl⟩

/-- After each element with `p` stand at most `n` elements with `q`. -/
def AtMostAfter (p q : α → Bool) (n : ℕ) (l : List α) : Prop :=
  ∀ before a after, l = before ++ a :: after → p a = true → after.countP q ≤ n

/-- Where no element has `p`, nothing stands after one. -/
theorem atMostAfter_of_forall {p' q : α → Bool} {l : List α} (h : ∀ a ∈ l, p' a = false) (n : ℕ) :
    AtMostAfter p' q n l := by
  rintro before a after rfl ha
  rw [h a (by simp)] at ha
  cases ha

/-- What is appended adds its own elements with `q`. -/
theorem AtMostAfter.append {p' q : α → Bool} {n : ℕ} {l : List α} (h : AtMostAfter p' q n l)
    (r : List α) : AtMostAfter p' q (n + r.countP q) (l ++ r) := by
  intro before a after heq ha
  rcases append_eq_append_cons heq with ⟨after', rfl, rfl⟩ | ⟨before', -, rfl⟩
  · rw [List.countP_append]
    exact Nat.add_le_add_right (h before a after' rfl ha) _
  · rw [List.countP_append, List.countP_cons]
    omega

/-! ### Merges -/

/-- `l` is an order-preserving merge of the family `streams`: some labelling of
its elements by the keys reads back each stream of the family in order. -/
def IsMerge [DecidableEq κ] (streams : κ → List α) (l : List α) : Prop :=
  ∃ tagged : List (κ × α), tagged.map Prod.snd = l ∧
    ∀ k, (tagged.filterMap fun x => if x.1 = k then some x.2 else none) = streams k

/-! ### Aborted computations -/

/-- Equal where the computation was not aborted, a prefix where it was. -/
def Upto (aborted : Bool) (l l' : List α) : Prop := if aborted then l <+: l' else l = l'

/-- A list is itself, aborted or not. -/
theorem Upto.refl (b : Bool) (l : List α) : Upto b l l := by
  cases b
  · exact rfl
  · exact List.prefix_rfl

/-- Aborted or not, it is a prefix. -/
theorem Upto.isPrefix {b : Bool} {l l' : List α} (h : Upto b l l') : l <+: l' := by
  cases b
  · exact h ▸ List.prefix_rfl
  · exact h

/-- Only the last part is cut short. -/
theorem Upto.append {b : Bool} {l l' r r' : List α} (h : l = l') (h' : Upto b r r') :
    Upto b (l ++ r) (l' ++ r') := by
  subst h
  cases b
  · exact congrArg (l ++ ·) h'
  · exact (List.prefix_append_right_inj l).mpr h'

/-- An aborted part of an aborted part is one. -/
theorem Upto.trans {b : Bool} {l l' l'' : List α} (h : Upto b l l') (h' : Upto b l' l'') :
    Upto b l l'' := by
  cases b
  · exact Eq.trans h h'
  · exact List.IsPrefix.trans h h'

/-- A latched stage turns what was produced so far into what it produces so far. -/
theorem Upto.latchOut {b : Bool} {l l' : List α} (h : Upto b l l') (x : σ × Bool) :
    Upto b (latchOut f p x l) (latchOut f p x l') := by
  cases b
  · exact congrArg (Streams.latchOut f p x) h
  · exact latchOut_isPrefix x h

/-- Where it was aborted, more may have been to come. -/
theorem Upto.append_right {l l' : List α} (h : l <+: l') (r : List α) :
    Upto true l (l' ++ r) :=
  h.trans (List.prefix_append _ _)

end Streams
end CppDataStream
