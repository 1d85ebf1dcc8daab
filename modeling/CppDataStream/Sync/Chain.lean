/-
# The sink of a chain reports the first failure

A chain of processors with a `StreamSink` on the last one, and side branches that
do not lead back into it.  Every processor of the chain turns the stream that
enters the chain into one that ends in its only EOP block: processors pass EOP
blocks on, and the latch cuts after the first error.  So the sink meets exactly
one EOP block (`include/cppdatastream/DataStream.hpp`, lines 255-283 and 417-454).

Which one?  A processor that fails at block `i` ends its output there, so
everything downstream ends at `i` or before; a later processor that fails on a
block of its own does so at a smaller block index.  The status that arrives at the
sink is therefore that of the failure with the least block index, and at that
index of the first processor (`pushSequence_chain`).  Upstream of it processors
go on, and may fail at later blocks, unseen by the sink.
-/

import CppDataStream.Sync.Compose
import Mathlib.Data.Fintype.EquivFin

namespace CppDataStream

open Streams DirectedGraph

/-! ### Chains -/

section Graph

variable {ι V T σ : Type*}

/-- `P 0, …, P k` is a chain: the connection at position `pos j` of `P j` leads to
`P (j + 1)`, and no other connection of the chain leads back into it. -/
structure Chain (G : Graph ι V T σ) (P : ℕ → ι) (pos : ℕ → ℕ) (k : ℕ) : Prop where
  next : ∀ j < k, G.Conn (P j) (pos j) (P (j + 1))
  side : ∀ j ≤ k, ∀ i c, G.Conn (P j) i c → ¬ (j < k ∧ i = pos j) →
    ∀ j' ≤ k, ¬ Relation.ReflTransGen G.Adj c (P j')

variable {G : Graph ι V T σ} {P : ℕ → ι} {pos : ℕ → ℕ} {k : ℕ}

/-- A connection of the chain to one of its processors is that to the next. -/
theorem Chain.of_conn (h : Chain G P pos k) {j : ℕ} (hj : j ≤ k) {i : ℕ} {c : ι}
    (hc : G.Conn (P j) i c) {j' : ℕ} (hj' : j' ≤ k) (hreach : Relation.ReflTransGen G.Adj c (P j')) :
    j < k ∧ i = pos j ∧ c = P (j + 1) := by
  by_cases hpos : j < k ∧ i = pos j
  · obtain ⟨hlt, rfl⟩ := hpos
    exact ⟨hlt, rfl, Option.some.inj (hc.symm.trans (h.next j hlt))⟩
  · exact absurd hreach (h.side j hj i c hc hpos j' hj')

/-- The processors of a chain are distinct. -/
theorem Chain.injective (h : Chain G P pos k) {i j : ℕ} (hi : i ≤ k) (hj : j ≤ k)
    (hij : P i = P j) : i = j := by
  -- shift both indices until the greater one is the last, which has no successor in the chain
  have hlt : ∀ d i j, i < j → j + d = k → P i ≠ P j := by
    intro d
    induction d with
    | zero =>
        rintro i j hij rfl heq
        have hconn := h.next i hij
        rw [heq] at hconn
        exact absurd (h.of_conn le_rfl hconn (show i + 1 ≤ j by omega) .refl).1 (lt_irrefl _)
    | succ d ih =>
        intro i j hij hk heq
        have hconn := h.next i (by omega)
        rw [heq] at hconn
        obtain ⟨-, -, hnext⟩ := h.of_conn (j := j) (by omega) hconn (show i + 1 ≤ k by omega) .refl
        exact ih (i + 1) (j + 1) (by omega) (by omega) hnext
  rcases lt_trichotomy i j with hlt' | rfl | hlt'
  · exact absurd hij (hlt (k - j) i j hlt' (by omega))
  · rfl
  · exact absurd hij.symm (hlt (k - i) j i hlt' (by omega))

/-- What lies between processors of a chain is a processor of the chain. -/
theorem Chain.of_reachable (h : Chain G P pos k) {a n : ι} (han : Relation.ReflTransGen G.Adj a n)
    {j' : ℕ} (hj' : j' ≤ k) (hn : Relation.ReflTransGen G.Adj n (P j')) :
    ∀ j ≤ k, a = P j → ∃ m, j ≤ m ∧ m ≤ k ∧ n = P m := by
  induction han using Relation.ReflTransGen.head_induction_on with
  | refl => exact fun j hj heq => ⟨j, le_rfl, hj, heq⟩
  | @head b c hbc hcn ih =>
      rintro j hj rfl
      obtain ⟨i, hi⟩ := List.mem_iff_getElem?.mp hbc
      obtain ⟨hlt, -, hc⟩ := h.of_conn hj hi hj' (hcn.trans hn)
      obtain ⟨m, hjm, hm, hnm⟩ := ih (j + 1) hlt hc
      exact ⟨m, by omega, hm, hnm⟩

/-- No processor of a chain is on a cycle. -/
theorem Chain.not_transGen (h : Chain G P pos k) {j : ℕ} (hj : j ≤ k) :
    ¬ Relation.TransGen G.Adj (P j) (P j) := by
  intro hcycle
  obtain ⟨c, hc, hreach⟩ := Relation.TransGen.head'_iff.mp hcycle
  obtain ⟨i, hi⟩ := List.mem_iff_getElem?.mp hc
  obtain ⟨hlt, -, rfl⟩ := h.of_conn hj hi hj hreach
  obtain ⟨m, hm, hmk, heq⟩ := h.of_reachable hreach hj .refl (j + 1) hlt rfl
  have := h.injective hj hmk heq
  omega

/-- A processor of the chain is fed by its predecessor only, among the processors
that can be reached from the first one. -/
theorem Chain.pred (h : Chain G P pos k) {m : ι} (hm : Relation.ReflTransGen G.Adj (P 0) m) {i j : ℕ}
    (hj : j ≤ k) (hconn : G.Conn m i (P j)) : ∃ j', j = j' + 1 ∧ m = P j' ∧ i = pos j' := by
  obtain ⟨j', -, hj', rfl⟩ := h.of_reachable hm hj (.single hconn.adj) 0 (Nat.zero_le k) rfl
  obtain ⟨hlt, hi, heq⟩ := h.of_conn hj' hconn hj .refl
  exact ⟨j', h.injective hj hlt heq, rfl, hi⟩

end Graph

/-! ### Where a stage fails -/

section Failure

variable {T σ : Type*}

/-- What a processor may do with a block: fail on any block that is not an error,
else pass an EOP block on as it is and send a block of data to one; pass an error
on as it is. -/
structure ReportsErrors (f : σ → SharedDataBlock T → σ × SharedDataBlock T) : Prop where
  data : ∀ st b, b.isEndOfProcessing = false →
    (f st b).2.isEndOfProcessing = false ∨ (f st b).2.isEopError = true
  eop : ∀ st b, b.isEndOfProcessing = true → b.isEopError = false →
    (f st b).2 = b ∨ (f st b).2.isEopError = true
  error : ∀ st b, b.isEopError = true → (f st b).2 = b

/-- A stage that is given `W` and emits `W'` fails at block `i` with `eop`: it turns
a block that is not an error into an error. -/
def FailsAt (W W' : List (SharedDataBlock T)) (i : ℕ) (eop : EopStatus) : Prop :=
  ∃ b output, W[i]? = some b ∧ W'[i]? = some output ∧ b.isEopError = false ∧
    output.isEopError = true ∧ output.eop = some eop

variable {W W' : List (SharedDataBlock T)} {f : σ → SharedDataBlock T → σ × SharedDataBlock T}

/-- An EOP block leads to one. -/
theorem ReportsErrors.isEndOfProcessing (hf : ReportsErrors f) {b : SharedDataBlock T}
    (hb : b.isEndOfProcessing = true) (st : σ) : (f st b).2.isEndOfProcessing = true := by
  cases he : b.isEopError with
  | true => rw [hf.error st b he, hb]
  | false =>
      rcases hf.eop st b hb he with h | h
      · rw [h, hb]
      · exact SharedDataBlock.isEndOfProcessing_of_isEopError h

/-- A stage of a chain sends ended streams to ended streams. -/
theorem ReportsErrors.ended (hf : ReportsErrors f) (st : σ)
    (hW : Ended SharedDataBlock.isEndOfProcessing W) :
    Ended SharedDataBlock.isEndOfProcessing (latchOut f SharedDataBlock.isEopError (st, false) W) :=
  ended_latchOut (fun _ h => SharedDataBlock.isEndOfProcessing_of_isEopError h)
    (fun st b hb => hf.data st b hb) (fun st _ hb => hf.isEndOfProcessing hb st) hW

/-- A failure ends the stream. -/
theorem FailsAt.length_eq {i : ℕ} {eop : EopStatus} (h : FailsAt W W' i eop)
    (hW' : Ended SharedDataBlock.isEndOfProcessing W') : W'.length = i + 1 := by
  obtain ⟨b, output, -, hout, -, herr, -⟩ := h
  obtain ⟨init, last, rfl, hi, -⟩ := hW'
  have hlt := (List.getElem?_eq_some_iff.mp hout).1
  rw [List.length_append, List.length_singleton] at hlt ⊢
  by_contra hne
  rw [List.getElem?_append_left (by omega)] at hout
  have := hi output (List.mem_of_getElem? hout)
  simp [SharedDataBlock.isEopError_eq_false this] at herr

/-- A stage fails in one way. -/
theorem FailsAt.unique {i i' : ℕ} {eop eop' : EopStatus} (h : FailsAt W W' i eop)
    (h' : FailsAt W W' i' eop') (hW' : Ended SharedDataBlock.isEndOfProcessing W') :
    i' = i ∧ eop' = eop := by
  have hi : i' = i := by
    have h₁ := h.length_eq hW'
    have h₂ := h'.length_eq hW'
    omega
  subst hi
  obtain ⟨_, output, -, ho, -, -, he⟩ := h
  obtain ⟨_, output', -, ho', -, -, he'⟩ := h'
  obtain rfl := Option.some.inj (ho.symm.trans ho')
  exact ⟨rfl, Option.some.inj (he'.symm.trans he)⟩

/-- **A stage that does not fail passes the end of the stream on.** -/
theorem ReportsErrors.passes (hf : ReportsErrors f) (st : σ)
    (hW : Ended SharedDataBlock.isEndOfProcessing W)
    (hno : ∀ i eop, ¬ FailsAt W (latchOut f SharedDataBlock.isEopError (st, false) W) i eop) :
    (latchOut f SharedDataBlock.isEopError (st, false) W).length = W.length ∧
      (latchOut f SharedDataBlock.isEopError (st, false) W).getLast? = W.getLast? := by
  -- an error at the first block would be a failure
  have hhead : ∀ st b W, b.isEopError = false →
      (∀ i eop, ¬ FailsAt (b :: W) (latchOut f SharedDataBlock.isEopError (st, false) (b :: W)) i eop) →
      (f st b).2.isEopError = false := by
    intro st b W hb hno
    by_contra herr
    rw [Bool.not_eq_false] at herr
    obtain ⟨eop, he⟩ := SharedDataBlock.exists_eop (SharedDataBlock.isEndOfProcessing_of_isEopError herr)
    exact hno 0 eop ⟨b, (f st b).2, rfl, by simp [latchOut, latch], hb, herr, he⟩
  obtain ⟨init, last, rfl, hi, hlast⟩ := hW
  induction init generalizing st with
  | nil =>
      have hsame : (f st last).2 = last := by
        cases he : last.isEopError with
        | true => exact hf.error st last he
        | false =>
            rcases hf.eop st last hlast he with h | h
            · exact h
            · exact absurd h (by simp [hhead st last [] he hno])
      simp [latchOut, latch, hsame]
  | cons a init ih =>
      rw [List.forall_mem_cons] at hi
      have hstep : latchOut f SharedDataBlock.isEopError (st, false) (a :: (init ++ [last])) =
          (f st a).2 :: latchOut f SharedDataBlock.isEopError ((f st a).1, false) (init ++ [last]) := by
        have := hhead st a _ (SharedDataBlock.isEopError_eq_false hi.1) hno
        simp [latchOut, latch, this]
      rw [List.cons_append, hstep] at hno ⊢
      obtain ⟨hlen, hgl⟩ := ih (f st a).1
        (fun i eop h => hno (i + 1) eop (by simpa [FailsAt] using h)) hi.2
      refine ⟨by simp [hlen], ?_⟩
      rw [List.getLast?_cons, hgl, List.getLast?_cons]
      simp

/-! ### The first failure of a chain -/

variable {S : ℕ → List (SharedDataBlock T)}

/-- How the stream before stage `j` of a chain ends: as the first stream does, if no
earlier stage fails; else with the error of the failure that has the least block
index, and no other failure has this index. -/
def EndsAtFirst (S : ℕ → List (SharedDataBlock T)) (j : ℕ) : Prop :=
  ((∀ m < j, ∀ i eop, ¬ FailsAt (S m) (S (m + 1)) i eop) ∧
      (S j).length = (S 0).length ∧ (S j).getLast? = (S 0).getLast?) ∨
    ∃ m < j, ∃ i eop, FailsAt (S m) (S (m + 1)) i eop ∧
      (∀ m' < j, ∀ i' eop', FailsAt (S m') (S (m' + 1)) i' eop' →
        i < i' ∨ (i' = i ∧ m' = m ∧ eop' = eop)) ∧
      (S j).length = i + 1 ∧
      ∃ output, (S j).getLast? = some output ∧ output.isEopError = true ∧ output.eop = some eop

/-- One stage further. -/
theorem EndsAtFirst.succ {j : ℕ} (h : EndsAtFirst S j)
    (hended : Ended SharedDataBlock.isEndOfProcessing (S (j + 1)))
    (hpass : (∀ i eop, ¬ FailsAt (S j) (S (j + 1)) i eop) →
      (S (j + 1)).length = (S j).length ∧ (S (j + 1)).getLast? = (S j).getLast?) :
    EndsAtFirst S (j + 1) := by
  by_cases hfail : ∃ i eop, FailsAt (S j) (S (j + 1)) i eop
  · obtain ⟨i, eop, hfail⟩ := hfail
    have hlen := hfail.length_eq hended
    obtain ⟨b, output, hb, hout, hbe, herr, heop⟩ := id hfail
    refine Or.inr ⟨j, Nat.lt_succ_self j, i, eop, hfail, fun m' hm' i' eop' hfail' => ?_, hlen, output,
      ?_, herr, heop⟩
    · rcases Nat.lt_succ_iff_lt_or_eq.mp hm' with hm' | rfl
      · rcases h with ⟨hno, -⟩ | ⟨m, hm, i₀, eop₀, -, hleast, hlen₀, output₀, hlast₀, herr₀, -⟩
        · exact absurd hfail' (hno m' hm' i' eop')
        · -- block `i` stands before the error that ends `S j`
          have hi : i < i₀ := by
            have hlt := (List.getElem?_eq_some_iff.mp hb).1
            refine lt_of_le_of_ne (by omega) fun heq => ?_
            rw [List.getLast?_eq_getElem?, hlen₀, Nat.add_sub_cancel, ← heq, hb] at hlast₀
            obtain rfl := Option.some.inj hlast₀
            simp [hbe] at herr₀
          rcases hleast m' hm' i' eop' hfail' with h' | ⟨rfl, -⟩
          · exact Or.inl (hi.trans h')
          · exact Or.inl hi
      · obtain ⟨rfl, rfl⟩ := hfail.unique hfail' hended
        exact Or.inr ⟨rfl, rfl, rfl⟩
    · rw [List.getLast?_eq_getElem?, hlen, Nat.add_sub_cancel, hout]
  · push Not at hfail
    obtain ⟨hl, hg⟩ := hpass hfail
    rcases h with ⟨hno, hlen, hlast⟩ | ⟨m, hm, i, eop, hm', hleast, hlen, hlast⟩
    · refine Or.inl ⟨fun m hm i eop => ?_, hl.trans hlen, hg.trans hlast⟩
      rcases Nat.lt_succ_iff_lt_or_eq.mp hm with hm | rfl
      · exact hno m hm i eop
      · exact hfail i eop
    · refine Or.inr ⟨m, by omega, i, eop, hm', fun m' hm'' i' eop' hf' => ?_, hl.trans hlen, hg ▸ hlast⟩
      rcases Nat.lt_succ_iff_lt_or_eq.mp hm'' with hlt | rfl
      · exact hleast m' hlt i' eop' hf'
      · exact absurd hf' (hfail i' eop')

end Failure

/-! ### The streams along a chain -/

section Streams

variable {ι V T σ ν : Type*} [DecidableEq ι] [DecidableEq V] {G : Graph ι V T σ}
  {vis : V → StreamVisitor T ν} {fuel : ℕ} {P : ℕ → ι} {pos : ℕ → ℕ} {k : ℕ}

/-- The stream given to `P j` when `stream` is given to `P 0`, were no push to end
in an exception. -/
def chainStream (G : Graph ι V T σ) (s₀ : PushState ι V σ ν) (P : ℕ → ι)
    (stream : List (SharedDataBlock T)) : ℕ → List (SharedDataBlock T)
  | 0 => stream
  | j + 1 => latchOut (G.processData (P j)) SharedDataBlock.isEopError (s₀.priv (P j), false)
      (chainStream G s₀ P stream j)

/-- Pushes into the chain end if those into its side branches do. -/
theorem Chain.pushReturns (h : Chain G P pos k)
    (hside : ∀ j ≤ k, ∀ i c, G.Conn (P j) i c → ¬ (j < k ∧ i = pos j) → PushReturns (σ := σ) G vis c) :
    PushReturns (σ := σ) G vis (P 0) := by
  have hdown : ∀ d j, j + d = k → PushReturns (σ := σ) G vis (P j) := by
    intro d
    induction d with
    | zero =>
        rintro j rfl
        refine pushReturns_of_adj fun c hc => ?_
        obtain ⟨i, hi⟩ := List.mem_iff_getElem?.mp hc
        exact hside j le_rfl i c hi (by omega)
    | succ d ih =>
        intro j hj
        refine pushReturns_of_adj fun c hc => ?_
        obtain ⟨i, hi⟩ := List.mem_iff_getElem?.mp hc
        by_cases hpos : j < k ∧ i = pos j
        · obtain ⟨hlt, rfl⟩ := hpos
          rw [Option.some.inj (hi.symm.trans (h.next j hlt))]
          exact ih (j + 1) (by omega)
        · exact hside j (by omega) i c hi hpos
  exact hdown k 0 (by omega)

/-- Calls of a sequence of pushes into one processor. -/
theorem pushSequence_calls {p : ι} {bs : List (SharedDataBlock T)} {s : PushState ι V σ ν}
    {r : Run ι V T σ ν}
    (h : pushSequence G vis fuel (bs.map fun b => (p, b)) s = some r) {src : Source ι} {n : ι}
    {b : SharedDataBlock T} (hb : .call src n b ∈ r.events) :
    (src = .external ∧ n = p) ∨
      ∃ m k, src = .connection m k ∧ G.Conn m k n ∧ Relation.ReflTransGen G.Adj p m := by
  refine pushSequence_induct
    (P := fun pushes _ r => (∀ x ∈ pushes, x.1 = p) → .call src n b ∈ r.events →
      (src = .external ∧ n = p) ∨
        ∃ m k, src = .connection m k ∧ G.Conn m k n ∧ Relation.ReflTransGen G.Adj p m)
    (fun _ _ hb => absurd hb List.not_mem_nil) ?_ ?_ h (by simp) hb
  · intro m sdb pushes s r e hr _ hp hb
    obtain rfl := hp _ (List.mem_cons_self ..)
    exact pushData_calls hr hb
  · intro m sdb pushes s r r' hr _ ih hp hb
    obtain rfl := hp _ (List.mem_cons_self ..)
    rcases List.mem_append.mp hb with hb | hb
    · exact pushData_calls hr hb
    · exact ih (fun x hx => hp x (List.mem_cons_of_mem _ hx)) hb

/-- **The streams along a chain** are those of its latched stages, up to an
exception. -/
theorem Chain.inputs (h : Chain G P pos k) {stream : List (SharedDataBlock T)}
    {s₀ : PushState ι V σ ν} {r : Run ι V T σ ν}
    (hr : pushSequence G vis fuel (stream.map fun b => (P 0, b)) s₀ = some r)
    (hs₀ : ∀ j ≤ k, s₀.hadError (P j) = false) :
    ∀ j ≤ k, Upto r.thrown.isSome (CppDataStream.inputs (P j) r.events) (chainStream G s₀ P stream j) ∧
      Upto r.thrown.isSome (outputs (P j) r.events) (chainStream G s₀ P stream (j + 1)) := by
  have hout : ∀ j ≤ k,
      Upto r.thrown.isSome (CppDataStream.inputs (P j) r.events) (chainStream G s₀ P stream j) →
      Upto r.thrown.isSome (outputs (P j) r.events) (chainStream G s₀ P stream (j + 1)) := by
    intro j hj hin
    have hl := ((composable_latched G (P j)).pushSequence (fun h => pushData_latch h (P j)) hr).1
    rw [hs₀ j hj] at hl
    rw [hl]
    exact hin.latchOut _
  intro j
  induction j with
  | zero =>
      intro hj
      have hin := pushSequence_inputsFrom hr (P 0) .external (by simp)
      have hpushed : incoming G (stream.map fun b => (P 0, b)) r.events (P 0) .external = stream := by
        simp [incoming, pushedInto, List.filterMap_map]
      rw [hpushed, ← inputs_eq_inputsFrom fun src b hb => ?_] at hin
      · exact ⟨hin, hout 0 hj hin⟩
      · rcases pushSequence_calls hr hb with ⟨rfl, -⟩ | ⟨m, i, rfl, hconn, hreach⟩
        · rfl
        · obtain ⟨j', hj', -⟩ := h.pred hreach hj hconn
          exact absurd hj' (by omega)
  | succ j ih =>
      intro hj
      obtain ⟨-, ho⟩ := ih (by omega)
      have hin := pushSequence_inputsFrom hr (P (j + 1)) (.connection (P j) (pos j))
        fun m i hm => by
          obtain ⟨rfl, -⟩ := Source.connection.inj hm
          exact h.not_transGen (by omega)
      have hincoming : incoming G (stream.map fun b => (P 0, b)) r.events (P (j + 1))
          (.connection (P j) (pos j)) = outputs (P j) r.events := if_pos (h.next j (by omega))
      rw [hincoming, ← inputs_eq_inputsFrom fun src b hb => ?_] at hin
      · exact ⟨hin.trans ho, hout (j + 1) hj (hin.trans ho)⟩
      · rcases pushSequence_calls hr hb with ⟨-, heq⟩ | ⟨m, i, rfl, hconn, hreach⟩
        · exact absurd (h.injective hj (Nat.zero_le k) heq) (by omega)
        · obtain ⟨j', hj', rfl, rfl⟩ := h.pred hreach hj hconn
          obtain rfl : j = j' := by omega
          rfl

omit [DecidableEq ι] [DecidableEq V] in
/-- Every stage of a chain of processors that report errors gets an ended stream,
and the end of it tells the first failure before. -/
theorem chainStream_endsAtFirst (s₀ : PushState ι V σ ν) {stream : List (SharedDataBlock T)}
    (hf : ∀ j ≤ k, ReportsErrors (G.processData (P j)))
    (hstream : Ended SharedDataBlock.isEndOfProcessing stream) :
    ∀ j ≤ k + 1, Ended SharedDataBlock.isEndOfProcessing (chainStream G s₀ P stream j) ∧
      EndsAtFirst (chainStream G s₀ P stream) j := by
  intro j
  induction j with
  | zero => exact fun _ => ⟨hstream, Or.inl ⟨fun m hm => absurd hm (Nat.not_lt_zero m), rfl, rfl⟩⟩
  | succ j ih =>
      intro hj
      obtain ⟨hended, hfirst⟩ := ih (by omega)
      have hf := hf j (by omega)
      have hended' := hf.ended (s₀.priv (P j)) hended
      exact ⟨hended', hfirst.succ hended' fun hno => hf.passes (s₀.priv (P j)) hended hno⟩

omit [DecidableEq ι] [DecidableEq V] in
/-- The status a sink finds in an ended stream is that of the last block. -/
theorem findSome?_eop_of_ended {l : List (SharedDataBlock T)} {b : SharedDataBlock T}
    (h : Ended SharedDataBlock.isEndOfProcessing l) (hb : l.getLast? = some b) :
    l.findSome? SharedDataBlock.eop = b.eop := by
  obtain ⟨init, last, rfl, hi, hlast⟩ := h
  obtain rfl : last = b := by simpa using hb
  have hnone : init.findSome? SharedDataBlock.eop = none :=
    List.findSome?_eq_none_iff.mpr fun a ha => by
      simpa [SharedDataBlock.isEndOfProcessing] using hi a ha
  obtain ⟨eop, he⟩ := SharedDataBlock.exists_eop hlast
  simp [List.findSome?_append, hnone, he]

/-- What the log of a run through a chain says, for the blocks `stream` and the sink `v`,
which is in the state `st` in the end.  The `i`-th block given to `P (j + 1)` is what
`P j` made of its own `i`-th block, so `i` counts the pushed blocks for every processor. -/
structure ChainRun (G : Graph ι V T σ) (P : ℕ → ι) (k : ℕ) (v : V)
    (stream : List (SharedDataBlock T)) (log : List (Event ι V T)) (st : VisitorState ν) : Prop where
  first : CppDataStream.inputs (P 0) log = stream
  next : ∀ j < k, CppDataStream.inputs (P (j + 1)) log = outputs (P j) log
  /-- Every visitor sees non-EOP blocks, one EOP block, and nothing else. -/
  ended : ∀ j ≤ k, ∀ i, i < (G.visitors (P j)).length →
    Ended SharedDataBlock.isEndOfProcessing (seen (P j) i log)
  /-- The sink sets its promise once. -/
  once : (seenBy v log).countP SharedDataBlock.isEndOfProcessing = 1
  /-- It reports the failure at the lexicographically least block and processor. -/
  firstFailure : ∀ i j eop, j ≤ k →
    FailsAt (CppDataStream.inputs (P j) log) (outputs (P j) log) i eop →
    (∀ i' j' eop', j' ≤ k → FailsAt (CppDataStream.inputs (P j') log) (outputs (P j') log) i' eop' →
      i < i' ∨ (i = i' ∧ j ≤ j')) →
    StreamSink.Reports st (seenBy v log) (some eop)
  /-- And the status that was pushed if there is no failure. -/
  noFailure : (∀ i j eop, j ≤ k →
      ¬ FailsAt (CppDataStream.inputs (P j) log) (outputs (P j) log) i eop) →
    StreamSink.Reports st (seenBy v log) (stream.getLast?.bind SharedDataBlock.eop)

/-- Every push of an ended stream into a chain returns, and the streams are those of
the latched stages: the sink sees a prefix of a stream with one EOP block, so
nothing throws. -/
theorem Chain.exists_run (hC : Chain G P pos k)
    (hside : ∀ j ≤ k, ∀ i c, G.Conn (P j) i c → ¬ (j < k ∧ i = pos j) → PushReturns (σ := σ) G vis c)
    (hf : ∀ j ≤ k, ReportsErrors (G.processData (P j))) {v : V} {i₀ : ℕ}
    (honce : ConnectedOnce G v (P k) i₀) (hsinks : ∀ w, vis w = .StreamSink ↔ w = v)
    {s₀ : PushState ι V σ ν} (hs₀ : ∀ j ≤ k, s₀.hadError (P j) = false)
    (hunset : (s₀.visitor v).promise = none) {stream : List (SharedDataBlock T)}
    (hstream : Ended SharedDataBlock.isEndOfProcessing stream) :
    ∃ fuel r, pushSequence G vis fuel (stream.map fun b => (P 0, b)) s₀ = some r ∧
      r.thrown = none ∧
      (∀ j ≤ k, CppDataStream.inputs (P j) r.events = chainStream G s₀ P stream j ∧
        outputs (P j) r.events = chainStream G s₀ P stream (j + 1)) ∧
      (∀ j i, i < (G.visitors (P j)).length → seen (P j) i r.events = outputs (P j) r.events) ∧
      seenBy v r.events = chainStream G s₀ P stream (k + 1) := by
  obtain ⟨fuel, hfuel⟩ := exists_fuel_sequence (stream.map fun b => (P 0, b)) fun x hx => by
    obtain ⟨b, -, rfl⟩ := List.mem_map.mp hx
    exact hC.pushReturns (σ := σ) hside
  obtain ⟨r, hr⟩ := Option.isSome_iff_exists.mp (hfuel s₀)
  have hin := hC.inputs hr hs₀
  have hseen := fun j i (hi : i < (G.visitors (P j)).length) =>
    (composable_seenOutputs (P j) i).pushSequence (fun h => pushData_seen h hi) hr
  have hi₀ : i₀ < (G.visitors (P k)).length := (List.getElem?_eq_some_iff.mp honce.conn).1
  have hsink : Upto r.thrown.isSome (seenBy v r.events) (chainStream G s₀ P stream (k + 1)) := by
    rw [honce.seenBy_eq (pushSequence_callsConnected hr)]
    exact Upto.trans (hseen k i₀ hi₀) (hin k le_rfl).2
  have ht : r.thrown = none := by
    refine (pushSequence_visited hr).returned_of_sinks fun w hw => ?_
    obtain rfl := (hsinks w).mp hw
    have hended := (chainStream_endsAtFirst s₀ hf hstream (k + 1) le_rfl).1
    exact ⟨hunset, hended.countP_eq_one ▸ hsink.isPrefix.sublist.countP_le⟩
  simp only [ht, SeenOutputs] at hin hseen hsink
  exact ⟨fuel, r, hr, ht, hin, hseen, hsink⟩

omit [DecidableEq V] in
/-- A failure is one of the latched stages. -/
theorem failsAt_chainStream {s₀ : PushState ι V σ ν} {stream : List (SharedDataBlock T)}
    {log : List (Event ι V T)}
    (hin : ∀ j ≤ k, CppDataStream.inputs (P j) log = chainStream G s₀ P stream j ∧
      outputs (P j) log = chainStream G s₀ P stream (j + 1)) {j : ℕ} (hj : j ≤ k) (i : ℕ)
    (eop : EopStatus) :
    FailsAt (CppDataStream.inputs (P j) log) (outputs (P j) log) i eop ↔
      FailsAt (chainStream G s₀ P stream j) (chainStream G s₀ P stream (j + 1)) i eop := by
  rw [(hin j hj).1, (hin j hj).2]

/-- A log with the streams of the latched stages tells the first failure. -/
theorem chainRun_of_streams {s₀ : PushState ι V σ ν}
    (hf : ∀ j ≤ k, ReportsErrors (G.processData (P j))) {v : V} {stream : List (SharedDataBlock T)}
    (hstream : Ended SharedDataBlock.isEndOfProcessing stream) {log : List (Event ι V T)}
    (hin : ∀ j ≤ k, CppDataStream.inputs (P j) log = chainStream G s₀ P stream j ∧
      outputs (P j) log = chainStream G s₀ P stream (j + 1))
    (hseen : ∀ j i, i < (G.visitors (P j)).length → seen (P j) i log = outputs (P j) log)
    (hsink : seenBy v log = chainStream G s₀ P stream (k + 1)) {st : VisitorState ν}
    (hreports : StreamSink.Reports st (seenBy v log) ((seenBy v log).findSome? SharedDataBlock.eop)) :
    ChainRun G P k v stream log st := by
  have hstreams := chainStream_endsAtFirst s₀ hf hstream
  obtain ⟨hended, hfirst⟩ := hstreams (k + 1) le_rfl
  rw [hsink] at hreports
  refine ⟨(hin 0 (Nat.zero_le k)).1, fun j hj => ?_, fun j hj i hi => ?_, ?_,
    fun i j eop hj hfail hleast => ?_, fun hno => ?_⟩
  · exact (hin (j + 1) hj).1.trans (hin j (by omega)).2.symm
  · rw [hseen j i hi, (hin j hj).2]
    exact (hstreams (j + 1) (by omega)).1
  · rw [hsink]
    exact hended.countP_eq_one
  · have hfail' := (failsAt_chainStream hin hj i eop).mp hfail
    rcases hfirst with ⟨hno, -⟩ | ⟨m, hm, i', eop', hfirst, hbefore, -, output, hlast, -, heop⟩
    · exact absurd hfail' (hno j (by omega) i eop)
    · -- the failure that the end of the stream tells is the least one
      obtain ⟨rfl, rfl, rfl⟩ : i = i' ∧ j = m ∧ eop = eop' := by
        rcases hbefore j (by omega) i eop hfail' with hlt | h
        · have := hleast i' m eop' (by omega)
            ((failsAt_chainStream hin (by omega) i' eop').mpr hfirst)
          omega
        · exact h
      rw [findSome?_eop_of_ended hended hlast, heop] at hreports
      rwa [hsink]
  · rcases hfirst with ⟨-, -, hlast⟩ | ⟨m, hm, i, eop, hfail, -⟩
    · obtain ⟨init, last, rfl, -, -⟩ := hstream
      have hlast' : (init ++ [last]).getLast? = some last := by simp
      rw [findSome?_eop_of_ended hended (hlast.trans hlast')] at hreports
      rw [hlast', hsink]
      exact hreports
    · exact absurd ((failsAt_chainStream hin (by omega) i eop).mpr hfail)
        (hno i m eop (by omega))

/-- **The sink of a chain reports the first failure, exactly once.**  A chain of
processors that report errors, none of them failed, whose side branches end every
push and do not lead back, has a sink connected once, to its last processor, and
all other visitors return.  Then every stream of data blocks with one EOP block at
its end goes through without an exception; every visitor of the chain sees exactly
one EOP block, as its last; and every wait returns the status of the failure with
the least block index and, at that index, the first processor, or the status that
was pushed if no processor fails. -/
theorem pushSequence_chain (hC : Chain G P pos k)
    (hside : ∀ j ≤ k, ∀ i c, G.Conn (P j) i c → ¬ (j < k ∧ i = pos j) → PushReturns (σ := σ) G vis c)
    (hf : ∀ j ≤ k, ReportsErrors (G.processData (P j))) {v : V} {i₀ : ℕ} (hv : vis v = .StreamSink)
    (honce : ConnectedOnce G v (P k) i₀) (hvis : ∀ w, w ≠ v → (vis w).Returns)
    {s₀ : PushState ι V σ ν} (hs₀ : ∀ j ≤ k, s₀.hadError (P j) = false)
    (hunset : (s₀.visitor v).promise = none) {bs : List (SharedDataBlock T)} {e : SharedDataBlock T}
    (hbs : ∀ b ∈ bs, b.isEndOfProcessing = false) (he : e.isEndOfProcessing = true) :
    ∃ fuel r, pushSequence G vis fuel ((bs ++ [e]).map fun b => (P 0, b)) s₀ = some r ∧
      r.thrown = none ∧ ChainRun G P k v (bs ++ [e]) r.events (r.state.visitor v) := by
  have hstream : Ended SharedDataBlock.isEndOfProcessing (bs ++ [e]) := ⟨bs, e, rfl, hbs, he⟩
  have : Nonempty ν := ⟨(s₀.visitor v).user⟩
  -- a visitor that returns is no sink, so `v` is the only one
  have hsinks : ∀ w, vis w = .StreamSink ↔ w = v := fun w =>
    ⟨fun hw => by_contra fun hne => StreamVisitor.ne_of_returns (hvis w hne) hw, fun hw => hw ▸ hv⟩
  obtain ⟨fuel, r, hr, ht, hin, hseen, hsink⟩ :=
    hC.exists_run hside hf honce hsinks hs₀ hunset hstream
  exact ⟨fuel, r, hr, ht, chainRun_of_streams hf hstream hin hseen hsink
    ((pushSequence_visited hr).reports ht hv hunset)⟩

end Streams

/-! ### A chain of two -/

/-- Fails at data block `m`. -/
def failAt (m : ℕ) (st : ℕ) (sdb : SharedDataBlock ℕ) : ℕ × SharedDataBlock ℕ :=
  (st + 1, if sdb.isEndOfProcessing then sdb
    else if st = m then ⟨none, some ⟨.EopError, toString m⟩⟩ else sdb)

/-- The stage that fails at its `m`-th block reports so. -/
theorem reportsErrors_failAt (m : ℕ) : ReportsErrors (failAt m) where
  data st b hb := by
    by_cases h : st = m
    · exact Or.inr (by simp [failAt, hb, h]; rfl)
    · exact Or.inl (by simp [failAt, hb, h])
  eop st b hb _ := Or.inl (by simp [failAt, hb])
  error st b hb := by simp [failAt, SharedDataBlock.isEndOfProcessing_of_isEopError hb]

/-- A chain `0 → 1` with the side branch `2`; `0` fails at its third block, `1` at
its second, which the sink on `1` reports. -/
theorem pushSequence_chain_two :
    let G : Graph (Fin 3) (Fin 2) ℕ ℕ := ⟨fun n => failAt (2 - n),
      fun n => if n = 1 then [1, 0] else [1], fun n => if n = 0 then [2, 1] else []⟩
    let P : ℕ → Fin 3 := fun j => if j = 0 then 0 else 1
    let vis : Fin 2 → StreamVisitor ℕ Unit := fun v => if v = 0 then .StreamSink else
      .user fun _ _ => ((), true)
    let stream : List (SharedDataBlock ℕ) :=
      [⟨some 1, none⟩, ⟨some 2, none⟩, ⟨some 3, none⟩] ++ [⟨none, some ⟨.EopSuccess, ""⟩⟩]
    ∃ fuel r, pushSequence G vis fuel (stream.map fun b => (P 0, b))
      ⟨fun _ => 0, fun _ => false, fun _ => ⟨none, ()⟩⟩ = some r ∧ r.thrown = none ∧
        ChainRun G P 1 0 stream r.events (r.state.visitor 0) := by
  intro G P vis stream
  have hC : Chain G P (fun _ => 1) 1 := by
    have hsink : ∀ n : Fin 3, n ≠ 0 → ∀ c, Relation.ReflTransGen G.Adj n c → c = n := by
      intro n hn c h
      rcases Relation.ReflTransGen.cases_head h with rfl | ⟨d, hd, -⟩
      · rfl
      · simp [Graph.Adj, G, hn] at hd
    refine ⟨fun j hj => ?_, fun j hj i c hc hpos j' _ hreach => ?_⟩
    · obtain rfl : j = 0 := by omega
      rfl
    rcases Nat.le_one_iff_eq_zero_or_eq_one.mp hj with rfl | rfl
    · rcases i with _ | _ | i
      · obtain rfl : 2 = c := by simpa [Graph.Conn, G, P] using hc
        have := hsink 2 (by decide) _ hreach
        by_cases hj' : j' = 0 <;> simp [P, hj'] at this
      · exact hpos ⟨by omega, rfl⟩
      · simp [Graph.Conn, G, P] at hc
    · simp [Graph.Conn, G, P] at hc
  have honce : ConnectedOnce G (0 : Fin 2) (P 1) 1 := by
    refine ⟨rfl, fun n i hi => ?_⟩
    by_cases hn : n = 1
    · subst hn
      rcases i with _ | _ | i
      · simp [G] at hi
      · exact ⟨rfl, rfl⟩
      · simp [G] at hi
    · rcases i with _ | i <;> simp [G, hn] at hi
  refine pushSequence_chain hC (fun j hj i c hc hpos => ?_) (fun j hj => reportsErrors_failAt _) rfl
    honce (fun w hw => ?_) (fun j hj => rfl) rfl (by simp [SharedDataBlock.isEndOfProcessing]) rfl
  · refine exists_fuel vis (Acyclic.wellFounded (acyclic_of_rank (fun n => if n = 0 then 0 else 1) ?_)) c
    intro a b hab
    by_cases ha : a = 0
    · subst ha
      have hb : b ≠ 0 := by
        rintro rfl
        simp [Graph.Adj, G] at hab
      simp [hb]
    · simp [Graph.Adj, G, ha] at hab
  · simpa [vis, hw] using StreamVisitor.returns_of_ne (by simp)

end CppDataStream
