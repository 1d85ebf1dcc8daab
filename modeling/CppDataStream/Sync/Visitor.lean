/-
# Visitors and the `StreamSink`

`include/cppdatastream/DataStream.hpp`, lines 379-454.  A `StreamSink` holds a
promise shared with its future; `visitData` of an EOP block sets it, and
`std::promise::set_value` throws `std::future_error` when the promise is
satisfied already.  Any other visitor (`OnEosVistor`, `AnonymousVisitor`, a
derived class of the user) is a function on a private state `ν`, and returns.

`foldVisits` is what a visitor makes of a whole stream of blocks.  A sink gets
through a stream iff the stream has at most one EOP block
(`foldVisits_StreamSink`), and its promise then holds the status of this block.
-/

import CppDataStream.Block
import CppDataStream.Library.Streams

namespace CppDataStream

/-- The one exception a visitor of the library throws: `std::future_error` with
`promise_already_satisfied`. -/
inductive Exn where
  | future_error
  deriving DecidableEq, Repr

/-- A visitor object. -/
inductive StreamVisitor (T ν : Type*) where
  | StreamSink
  | user (visitData : ν → SharedDataBlock T → ν × Bool)

/-- What a visitor holds: the promise of a `StreamSink`, the members of another
visitor. -/
structure VisitorState (ν : Type*) where
  promise : Option EopStatus
  user : ν
  deriving DecidableEq

variable {T ν : Type*}

/-- `std::promise::set_value`. -/
def setValue (eop : EopStatus) : Option EopStatus → Except Exn (Option EopStatus)
  | none => .ok (some eop)
  | some _ => .error .future_error

/-- `StreamSink::visitData` on the promise. -/
def StreamSink.visitData (promise : Option EopStatus) (sdb : SharedDataBlock T) :
    Except Exn (Option EopStatus × Bool) :=
  match sdb.eopStatus with
  | some eop => (setValue eop promise).map fun promise => (promise, true)
  | none => .ok (promise, true)

/-- `StreamSink::wait`, called when the promise has the first value of the list
and running while it takes the others: `future.get()` blocks until the promise
is set.  `none` is a call still blocked. -/
def StreamSink.wait : List (Option EopStatus) → Option EopStatus
  | [] => none
  | some eop :: _ => some eop
  | none :: promises => StreamSink.wait promises

/-- The values that the promise takes while the sink visits the blocks of a
stream, the one before the first visit included. -/
def StreamSink.promises (promise : Option EopStatus) :
    List (SharedDataBlock T) → List (Option EopStatus)
  | [] => [promise]
  | sdb :: sdbs =>
      promise :: match StreamSink.visitData promise sdb with
        | .ok (promise', _) => StreamSink.promises promise' sdbs
        | .error _ => []

/-- Every call of `wait` on a sink that visits the blocks of a stream, whenever it
is made, returns `status`; with `none`, it blocks. -/
def StreamSink.Waits (promise : Option EopStatus) (sdbs : List (SharedDataBlock T))
    (status : Option EopStatus) : Prop :=
  ∀ later, later ≠ [] → later <:+ StreamSink.promises promise sdbs → StreamSink.wait later = status

/-- A sink that was fresh and has visited a stream reports `status`: every call of `wait`,
whenever it is made, returns it, and the promise holds it in the end. -/
structure StreamSink.Reports (st : VisitorState ν) (sdbs : List (SharedDataBlock T))
    (status : Option EopStatus) : Prop where
  waits : StreamSink.Waits none sdbs status
  promise : st.promise = status

/-- `visitData` of a visitor. -/
def StreamVisitor.visitData (visitor : StreamVisitor T ν) (st : VisitorState ν)
    (sdb : SharedDataBlock T) : Except Exn (VisitorState ν × Bool) :=
  match visitor with
  | .StreamSink =>
      (StreamSink.visitData st.promise sdb).map fun x => ({ st with promise := x.1 }, x.2)
  | .user visitData => .ok ({ st with user := (visitData st.user sdb).1 }, (visitData st.user sdb).2)

/-- The visitor returns from every call. -/
def StreamVisitor.Returns (visitor : StreamVisitor T ν) : Prop :=
  ∀ st sdb, ∃ x, visitor.visitData st sdb = .ok x

/-- A visitor that is not a sink returns. -/
theorem StreamVisitor.returns_of_ne {visitor : StreamVisitor T ν} (h : visitor ≠ .StreamSink) :
    visitor.Returns := by
  cases visitor with
  | StreamSink => exact absurd rfl h
  | user visitData => exact fun _ _ => ⟨_, rfl⟩

/-- A sink does not: its promise may be set already. -/
theorem StreamVisitor.ne_of_returns [Nonempty ν] {visitor : StreamVisitor T ν} (h : visitor.Returns) :
    visitor ≠ .StreamSink := by
  rintro rfl
  obtain ⟨st⟩ := ‹Nonempty ν›
  obtain ⟨x, hx⟩ := h ⟨some ⟨.EopSuccess, ""⟩, st⟩ ⟨none, some ⟨.EopSuccess, ""⟩⟩
  exact nomatch hx

/-- A visitor called with the blocks of a stream in turn. -/
def foldVisits (visitor : StreamVisitor T ν) :
    VisitorState ν → List (SharedDataBlock T) → Except Exn (VisitorState ν)
  | st, [] => .ok st
  | st, sdb :: sdbs =>
      match visitor.visitData st sdb with
      | .ok (st', _) => foldVisits visitor st' sdbs
      | .error e => .error e

/-- A visitor goes on from where it was left, unless it has thrown. -/
theorem foldVisits_append (visitor : StreamVisitor T ν) (st : VisitorState ν)
    (l l' : List (SharedDataBlock T)) :
    foldVisits visitor st (l ++ l') =
      match foldVisits visitor st l with
      | .ok st' => foldVisits visitor st' l'
      | .error e => .error e := by
  induction l generalizing st with
  | nil => rfl
  | cons sdb l ih =>
      rw [List.cons_append, foldVisits, foldVisits]
      cases visitor.visitData st sdb with
      | error e => rfl
      | ok x => exact ih x.1

/-- A visitor that never throws can be called with any blocks. -/
theorem foldVisits_returns {visitor : StreamVisitor T ν} (h : visitor.Returns)
    (st : VisitorState ν) (l : List (SharedDataBlock T)) : ∃ st', foldVisits visitor st l = .ok st' := by
  induction l generalizing st with
  | nil => exact ⟨st, rfl⟩
  | cons sdb l ih =>
      obtain ⟨x, hx⟩ := h st sdb
      rw [foldVisits, hx]
      exact ih x.1

/-! ### What a sink makes of a stream -/

/-- A non-EOP block leaves a sink alone. -/
theorem foldVisits_StreamSink_cons_of_not {sdb : SharedDataBlock T}
    (h : sdb.isEndOfProcessing = false) (st : VisitorState ν) (l : List (SharedDataBlock T)) :
    foldVisits .StreamSink st (sdb :: l) = foldVisits .StreamSink st l := by
  have he : sdb.eopStatus = none := by
    simpa [SharedDataBlock.isEndOfProcessing, SharedDataBlock.eopStatus] using h
  simp [foldVisits, StreamVisitor.visitData, StreamSink.visitData, he, Except.map]

/-- An EOP block sets an unset promise. -/
theorem foldVisits_StreamSink_cons_unset {sdb : SharedDataBlock T} {eop : EopStatus}
    (h : sdb.eop = some eop) {st : VisitorState ν} (hst : st.promise = none)
    (l : List (SharedDataBlock T)) :
    foldVisits .StreamSink st (sdb :: l) = foldVisits .StreamSink { st with promise := some eop } l := by
  simp [foldVisits, StreamVisitor.visitData, StreamSink.visitData, SharedDataBlock.eopStatus, h, hst,
    setValue, Except.map]

/-- An EOP block makes a satisfied promise throw. -/
theorem foldVisits_StreamSink_cons_set {sdb : SharedDataBlock T} {eop : EopStatus}
    (h : sdb.eop = some eop) {st : VisitorState ν} {eop' : EopStatus} (hst : st.promise = some eop')
    (l : List (SharedDataBlock T)) :
    foldVisits .StreamSink st (sdb :: l) = .error .future_error := by
  simp [foldVisits, StreamVisitor.visitData, StreamSink.visitData, SharedDataBlock.eopStatus, h, hst,
    setValue, Except.map]

/-- A sink whose promise is set gets through exactly the streams without EOP. -/
theorem foldVisits_StreamSink_set {st : VisitorState ν} {eop : EopStatus}
    (hst : st.promise = some eop) (l : List (SharedDataBlock T)) :
    foldVisits .StreamSink st l =
      if l.any SharedDataBlock.isEndOfProcessing then .error .future_error else .ok st := by
  induction l with
  | nil => rfl
  | cons sdb l ih =>
      cases h : sdb.isEndOfProcessing with
      | false => rw [foldVisits_StreamSink_cons_of_not h, ih]; simp [h]
      | true =>
          obtain ⟨eop', he⟩ := SharedDataBlock.exists_eop h
          rw [foldVisits_StreamSink_cons_set he hst]
          simp [h]

/-- **A sink gets through a stream iff it has at most one EOP block**; the
promise then holds the status of that block. -/
theorem foldVisits_StreamSink {st : VisitorState ν} (hst : st.promise = none)
    (l : List (SharedDataBlock T)) :
    foldVisits .StreamSink st l =
      if l.countP SharedDataBlock.isEndOfProcessing ≤ 1 then
        .ok { st with promise := l.findSome? SharedDataBlock.eop }
      else .error .future_error := by
  induction l with
  | nil => simp [foldVisits, ← hst]
  | cons sdb l ih =>
      cases h : sdb.isEndOfProcessing with
      | false =>
          have he : sdb.eop = none := by simpa [SharedDataBlock.isEndOfProcessing] using h
          rw [foldVisits_StreamSink_cons_of_not h, ih]
          simp [h, he]
      | true =>
          obtain ⟨eop, he⟩ := SharedDataBlock.exists_eop h
          rw [foldVisits_StreamSink_cons_unset he hst, foldVisits_StreamSink_set rfl]
          have hc : l.any SharedDataBlock.isEndOfProcessing = true ↔
              ¬ l.countP SharedDataBlock.isEndOfProcessing = 0 := by
            rw [List.countP_eq_zero, List.any_eq_true]
            push Not
            exact Iff.rfl
          simp only [List.countP_cons, h, if_true, List.findSome?_cons, he]
          split_ifs with h₁ h₂ h₂
          · exact absurd (hc.mp h₁) (by omega)
          · rfl
          · rfl
          · exact absurd (hc.mpr (by omega)) h₁

/-- **A sink that throws nothing** was called with one EOP block at most, and holds its
status. -/
theorem foldVisits_StreamSink_ok {st st' : VisitorState ν} {l : List (SharedDataBlock T)}
    (hst : st.promise = none) (h : foldVisits .StreamSink st l = .ok st') :
    l.countP SharedDataBlock.isEndOfProcessing ≤ 1 ∧
      st'.promise = l.findSome? SharedDataBlock.eop := by
  rw [foldVisits_StreamSink hst] at h
  split_ifs at h with hc
  obtain rfl := Except.ok.inj h
  exact ⟨hc, rfl⟩

/-- A promise that is set stays as it is. -/
theorem mem_promises_set {eop : EopStatus} {l : List (SharedDataBlock T)} :
    ∀ x ∈ StreamSink.promises (some eop) l, x = some eop := by
  induction l with
  | nil => simp [StreamSink.promises]
  | cons sdb l ih =>
      rw [StreamSink.promises]
      refine List.forall_mem_cons.mpr ⟨rfl, ?_⟩
      cases he : sdb.eopStatus with
      | none => simpa [StreamSink.visitData, he] using ih
      | some eop' => simp [StreamSink.visitData, he, setValue, Except.map]

/-- A promise has a state before any block. -/
theorem promises_ne_nil (promise : Option EopStatus) (l : List (SharedDataBlock T)) :
    StreamSink.promises promise l ≠ [] := by
  cases l <;> simp [StreamSink.promises]

/-- **Every wait on a sink returns the status of the first EOP block** it visits,
whenever it is called, if it visits one. -/
theorem waits_promises (l : List (SharedDataBlock T)) :
    StreamSink.Waits none l (l.findSome? SharedDataBlock.eop) := by
  induction l with
  | nil =>
      intro later hne hsuf
      rcases List.suffix_cons_iff.mp hsuf with rfl | hsuf
      · rfl
      · exact absurd (List.suffix_nil.mp hsuf) hne
  | cons sdb l ih =>
      intro later hne hsuf
      cases he : sdb.eop with
      | none =>
          have heq : StreamSink.promises none (sdb :: l) = none :: StreamSink.promises none l := by
            simp [StreamSink.promises, StreamSink.visitData, SharedDataBlock.eopStatus, he]
          rw [heq] at hsuf
          rw [List.findSome?_cons, he]
          rcases List.suffix_cons_iff.mp hsuf with rfl | hsuf
          · rw [StreamSink.wait]
            exact ih _ (promises_ne_nil none l) List.suffix_rfl
          · exact ih later hne hsuf
      | some eop =>
          have heq : StreamSink.promises none (sdb :: l) =
              none :: StreamSink.promises (some eop) l := by
            simp [StreamSink.promises, StreamSink.visitData, SharedDataBlock.eopStatus, he, setValue,
              Except.map]
          have hset : ∀ later, later ≠ [] → (∀ x ∈ later, x = some eop) →
              StreamSink.wait later = some eop := by
            intro later hne h
            obtain ⟨x, later, rfl⟩ := List.exists_cons_of_ne_nil hne
            rw [h x (List.mem_cons_self ..)]
            rfl
          rw [heq] at hsuf
          rw [List.findSome?_cons, he]
          rcases List.suffix_cons_iff.mp hsuf with rfl | hsuf
          · rw [StreamSink.wait]
            exact hset _ (promises_ne_nil _ l) mem_promises_set
          · exact hset later hne fun x hx => mem_promises_set x (hsuf.subset hx)

end CppDataStream
