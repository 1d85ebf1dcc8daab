/-
# An error floods the graph exactly once

`_had_error` doubles as the visited mark of a depth-first search.  An `EopError`
block pushed into `p` marks `p` before it goes on to the connected processors, so
the push terminates on any finite graph, cycles included: every nested call finds
fewer unmarked processors.  It reaches the processors that a path of unmarked
ones leads to from `p` (`DirectedGraph.avoid`), each once, and marks exactly these
(`pushData_flood`).

`Floods G S s r` says that the run `r` flooded the set `S`; runs that flood sets
one after the other flood their union (`Floods.andThen`), and the white-path lemmas
of `Library.Digraph` put the sets together.
-/

import CppDataStream.Library.Digraph
import CppDataStream.Sync.Calls
import Mathlib.Data.Fintype.Basic

namespace CppDataStream

open Streams DirectedGraph

variable {ι V T σ ν : Type*} [DecidableEq ι] [DecidableEq V]
  {G : Graph ι V T σ} {vis : V → StreamVisitor T ν} {fuel : ℕ}

/-- `processData` maps `EopError` blocks to `EopError` blocks. -/
def KeepsErrors (G : Graph ι V T σ) : Prop :=
  ∀ n st sdb, sdb.isEopError = true → (G.processData n st sdb).2.isEopError = true

/-- The processors of `S` were unmarked, are marked now, have called
`processData` once and every visitor once, with the same `EopError` block; all
others are as they were. -/
structure Floods (G : Graph ι V T σ) (S : Set ι) (s : PushState ι V σ ν) (r : Run ι V T σ ν) :
    Prop where
  fresh : ∀ n ∈ S, s.hadError n = false
  hadError : ∀ n, r.state.hadError n = true ↔ s.hadError n = true ∨ n ∈ S
  once : ∀ n ∈ S, ∃ output, output.isEopError = true ∧ outputs n r.events = [output] ∧
    ∀ k, k < (G.visitors n).length → seen n k r.events = [output]
  others : ∀ n, n ∉ S → outputs n r.events = [] ∧ (∀ k, seen n k r.events = []) ∧
    r.state.priv n = s.priv n

omit [DecidableEq V] in
/-- A push of nothing reaches nothing. -/
theorem floods_nil (s : PushState ι V σ ν) : Floods G ∅ s ⟨s, [], none⟩ where
  fresh := by simp
  hadError := by simp
  once := by simp
  others _ _ := ⟨rfl, fun _ => rfl, rfl⟩

omit [DecidableEq V] in
/-- **Floods add up.** -/
theorem Floods.andThen {S S' : Set ι} {s : PushState ι V σ ν} {r r' : Run ι V T σ ν}
    (h : Floods G S s r) (h' : Floods G S' r.state r') :
    Floods G (S ∪ S') s { r' with events := r.events ++ r'.events } := by
  have hmarked : ∀ n, s.hadError n = true ∨ n ∈ S → n ∉ S' := fun n hn hn' => by
    have := (h.hadError n).mpr hn
    simp [h'.fresh n hn'] at this
  refine ⟨fun n hn => ?_, fun n => ?_, fun n hn => ?_, fun n hn => ?_⟩
  · rcases hn with hn | hn
    · exact h.fresh n hn
    · rw [← Bool.not_eq_true]
      exact fun he => hmarked n (Or.inl he) hn
  · rw [h'.hadError, h.hadError, Set.mem_union, or_assoc]
  · simp only [outputs_append, seen_append]
    by_cases hS : n ∈ S
    · obtain ⟨output, he, ho, hv⟩ := h.once n hS
      obtain ⟨ho', hv', -⟩ := h'.others n (hmarked n (Or.inr hS))
      exact ⟨output, he, by rw [ho, ho', List.append_nil], fun k hk => by
        rw [hv k hk, hv' k, List.append_nil]⟩
    · obtain ⟨output, he, ho, hv⟩ := h'.once n (hn.resolve_left hS)
      obtain ⟨ho', hv', -⟩ := h.others n hS
      exact ⟨output, he, by rw [ho', ho, List.nil_append], fun k hk => by
        rw [hv' k, hv k hk, List.nil_append]⟩
  · simp only [outputs_append, seen_append]
    rw [Set.mem_union, not_or] at hn
    obtain ⟨ho, hv, hp⟩ := h.others n hn.1
    obtain ⟨ho', hv', hp'⟩ := h'.others n hn.2
    exact ⟨by rw [ho, ho']; rfl, fun k => by rw [hv k, hv' k]; rfl, hp'.trans hp⟩

/-- The part of a push before the loop over `processors` floods its own
processor. -/
theorem floods_visited (hG : KeepsErrors G) (hvis : ∀ v, (vis v).Returns) (src : Source ι) {p : ι}
    {sdb : SharedDataBlock T} (hsdb : sdb.isEopError = true) {s : PushState ι V σ ν}
    (hs : s.hadError p = false) :
    (G.visited vis src p sdb s).thrown = none ∧ Floods G {p} s (G.visited vis src p sdb s) := by
  have ho : (G.process p sdb s).2.isEopError = true := hG p (s.priv p) sdb hsdb
  have ht : (G.visited vis src p sdb s).thrown = none :=
    Visited.returned (s := (G.process p sdb s).1) visitVisitors_visitors hvis
  have hmark : (G.process p sdb s).1.hadError = Function.update s.hadError p true := by
    have ho' : (G.processData p (s.priv p) sdb).2.isEopError = true := ho
    simp [Graph.process, ho']
  refine ⟨ht, ⟨fun n hn => hn ▸ hs, fun n => ?_, fun n hn => ?_, fun n hn => ?_⟩⟩
  · rw [visited_hadError, hmark, Set.mem_singleton_iff]
    by_cases hn : n = p <;> simp [hn]
  · obtain rfl : n = p := hn
    refine ⟨(G.process n sdb s).2, ho, by simp [outputs_visited], fun k hk => ?_⟩
    have hv : Upto (G.visited vis src n sdb s).thrown.isSome
        (seen n k (G.visited vis src n sdb s).events) _ := seen_visited hk
    rwa [ht, if_pos rfl] at hv
  · have hn' : p ≠ n := fun h => hn h.symm
    exact ⟨by simp [outputs_visited, hn'], seen_visited_of_ne hn',
      (visited_priv n).trans (process_of_ne hn').1⟩

/-- The processors not marked yet. -/
def unmarked [Fintype ι] (s : PushState ι V σ ν) : ℕ :=
  (Finset.univ.filter fun n => s.hadError n = false).card

omit [DecidableEq ι] [DecidableEq V] in
/-- Flags that stay raised leave no more processors unmarked. -/
theorem unmarked_mono [Fintype ι] {s s' : PushState ι V σ ν}
    (h : ∀ n, s.hadError n = true → s'.hadError n = true) : unmarked s' ≤ unmarked s := by
  refine Finset.card_le_card fun n hn => ?_
  simp only [Finset.mem_filter, Finset.mem_univ, true_and] at hn ⊢
  rw [← Bool.not_eq_true]
  exact fun hs => by simp [h n hs] at hn

omit [DecidableEq ι] [DecidableEq V] in
/-- One more flag leaves fewer. -/
theorem unmarked_lt [Fintype ι] {s s' : PushState ι V σ ν}
    (h : ∀ n, s.hadError n = true → s'.hadError n = true) {p : ι} (hp : s.hadError p = false)
    (hp' : s'.hadError p = true) : unmarked s' < unmarked s := by
  refine Finset.card_lt_card ⟨fun n hn => ?_, fun hsub => ?_⟩
  · simp only [Finset.mem_filter, Finset.mem_univ, true_and] at hn ⊢
    rw [← Bool.not_eq_true]
    exact fun hs => by simp [h n hs] at hn
  · have := hsub (Finset.mem_filter.mpr ⟨Finset.mem_univ p, hp⟩)
    simp [hp'] at this

/-- Pushes into several processors, one after the other, flood what is reachable
from any of them: the marks that one push leaves only cut off what it has flooded. -/
theorem pushProcessors_floods [Fintype ι] {output : SharedDataBlock T}
    (hpush : ∀ (src : Source ι) (c : ι) (s : PushState ι V σ ν), unmarked s < fuel →
      ∃ r, pushData G vis fuel src c output s = some r ∧ r.thrown = none ∧
        Floods G (avoid G.Adj {n | s.hadError n = true} c) s r)
    (cs : List ι) (n : ι) (k : ℕ) {s : PushState ι V σ ν} (hs : unmarked s < fuel) :
    ∃ r, pushProcessors (pushData G vis fuel) n output k cs s = some r ∧ r.thrown = none ∧
      Floods G (⋃ d ∈ cs, avoid G.Adj {n | s.hadError n = true} d) s r := by
  induction cs generalizing k s with
  | nil => exact ⟨_, rfl, rfl, by simpa using floods_nil s⟩
  | cons c cs ih =>
      obtain ⟨r, hr, ht, hfl⟩ := hpush (.connection n k) c s hs
      have hmono : unmarked r.state ≤ unmarked s := unmarked_mono fun n hn =>
        (hfl.hadError n).mpr (Or.inl hn)
      obtain ⟨r', hr', ht', hfl'⟩ := ih (k + 1) (hmono.trans_lt hs)
      have hmarks : {n | r.state.hadError n = true} =
          {n | s.hadError n = true} ∪ avoid G.Adj {n | s.hadError n = true} c :=
        Set.ext fun n => hfl.hadError n
      refine ⟨{ r' with events := r.events ++ r'.events }, ?_, ht', ?_⟩
      · rw [pushProcessors, hr, Option.bind_some, Run.andThen_of_returned ht, hr']
        rfl
      · rw [← avoid_union_list, ← hmarks]
        exact hfl.andThen hfl'

/-- **The flood, with its call depth.**  The recursion goes no deeper than the
number of unmarked processors. -/
theorem pushData_floods [Fintype ι] (hG : KeepsErrors G) (hvis : ∀ v, (vis v).Returns)
    {sdb : SharedDataBlock T} (hsdb : sdb.isEopError = true) (src : Source ι) (p : ι)
    {s : PushState ι V σ ν} (hfuel : unmarked s < fuel) :
    ∃ r, pushData G vis fuel src p sdb s = some r ∧ r.thrown = none ∧
      Floods G (avoid G.Adj {n | s.hadError n = true} p) s r := by
  induction fuel generalizing src p sdb s with
  | zero => exact absurd hfuel (Nat.not_lt_zero _)
  | succ fuel ih =>
      cases hs : s.hadError p with
      | true =>
          refine ⟨_, pushData_skip fuel src sdb hs, rfl, ?_⟩
          rw [avoid_of_mem (p := p) (show p ∈ {n | s.hadError n = true} from hs)]
          exact ⟨by simp, by simp, by simp, fun n _ => ⟨rfl, fun _ => rfl, rfl⟩⟩
      | false =>
          obtain ⟨ht, hfl⟩ := floods_visited hG hvis src hsdb hs
          have hmarks : {n | (G.visited vis src p sdb s).state.hadError n = true} =
              insert p {n | s.hadError n = true} :=
            Set.ext fun n => (hfl.hadError n).trans Or.comm
          have hlt := unmarked_lt (fun n hn => (hfl.hadError n).mpr (Or.inl hn)) hs
            ((hfl.hadError p).mpr (Or.inr rfl))
          have ho : (G.process p sdb s).2.isEopError = true := hG p (s.priv p) sdb hsdb
          obtain ⟨r, hr, ht', hfl'⟩ := pushProcessors_floods (fun src c s => ih ho src c)
            (G.processors p) p 0 (lt_of_lt_of_le hlt (Nat.lt_succ_iff.mp hfuel))
          refine ⟨{ r with events := (G.visited vis src p sdb s).events ++ r.events }, ?_, ht', ?_⟩
          · rw [pushData_visit _ _ _ hs, Run.andThen_of_returned ht, hr]
            rfl
          · rw [avoid_eq_insert (by simpa using hs), ← hmarks]
            exact hfl.andThen hfl'

/-- A set flag stays set. -/
theorem hadError_pushSequence {pushes : List (ι × SharedDataBlock T)} {s : PushState ι V σ ν}
    {r : Run ι V T σ ν} (h : pushSequence G vis fuel pushes s = some r) {n : ι}
    (hn : s.hadError n = true) : r.state.hadError n = true := by
  have hl := ((composable_latched G n).pushSequence (fun h => pushData_latch h n) h).2
  rw [hn, latchEnd_raised] at hl
  exact congrArg Prod.snd hl

/-- **An error floods the graph exactly once and always terminates.**  On any
finite graph whose `processData` maps errors to errors, with visitors that return,
a push of an `EopError` block into `p` returns; it floods the processors reachable
from `p` by a path of processors, `p` included, that are not marked.  Whatever is
pushed afterwards, a push into a marked processor calls nothing. -/
theorem pushData_flood [Fintype ι] (hG : KeepsErrors G) (hvis : ∀ v, (vis v).Returns) (p : ι)
    {sdb : SharedDataBlock T} (hsdb : sdb.isEopError = true) (s : PushState ι V σ ν) :
    ∃ fuel r, pushData G vis fuel .external p sdb s = some r ∧ r.thrown = none ∧
      Floods G (avoid G.Adj {n | s.hadError n = true} p) s r ∧
      (∀ n, (0 < processCalls n r.events ↔ n ∈ avoid G.Adj {n | s.hadError n = true} p) ∧
        processCalls n r.events ≤ 1) ∧
      ∀ fuel' pushes r', pushSequence G vis fuel' pushes r.state = some r' →
        ∀ n, r.state.hadError n = true → ∀ src sdb',
          pushData G vis 1 src n sdb' r'.state =
            some ⟨r'.state, [.call src n sdb', .skip n sdb'], none⟩ := by
  obtain ⟨r, hr, ht, hfl⟩ := pushData_floods hG hvis hsdb .external p
    (Nat.lt_succ_self (unmarked s))
  refine ⟨_, r, hr, ht, hfl, fun n => ?_, fun fuel' pushes r' hr' n hn src sdb' => ?_⟩
  · rw [processCalls_eq]
    by_cases hn : n ∈ avoid G.Adj {n | s.hadError n = true} p
    · obtain ⟨output, -, ho, -⟩ := hfl.once n hn
      simp [hn, ho]
    · simp [hn, (hfl.others n hn).1]
  · exact pushData_skip 0 src sdb' (hadError_pushSequence hr' hn)

/-- A cycle of two processors, one of them connected to itself as well: an error
pushed into one marks both. -/
theorem pushData_flood_cycle :
    let G : Graph (Fin 2) Unit ℕ Unit :=
      ⟨fun _ st sdb => (st, sdb), fun _ => [()], fun n => if n = 0 then [0, 1] else [0, 0]⟩
    let s : PushState (Fin 2) Unit Unit Unit := ⟨fun _ => (), fun _ => false, fun _ => ⟨none, ()⟩⟩
    let e : SharedDataBlock ℕ := ⟨none, some ⟨.EopError, "lost"⟩⟩
    ∃ fuel r, pushData G (fun _ => .user fun _ _ => ((), true)) fuel .external 0 e s = some r ∧
      r.thrown = none ∧ Floods G (avoid G.Adj {n | s.hadError n = true} 0) s r ∧
      (∀ n, (0 < processCalls n r.events ↔ n ∈ avoid G.Adj {n | s.hadError n = true} 0) ∧
        processCalls n r.events ≤ 1) ∧
      ∀ fuel' pushes r', pushSequence G (fun _ => .user fun _ _ => ((), true)) fuel' pushes r.state =
          some r' →
        ∀ n, r.state.hadError n = true → ∀ src sdb',
          pushData G (fun _ => .user fun _ _ => ((), true)) 1 src n sdb' r'.state =
            some ⟨r'.state, [.call src n sdb', .skip n sdb'], none⟩ := by
  intro G s e
  exact pushData_flood (fun _ _ _ h => h) (fun _ => StreamVisitor.returns_of_ne (by simp)) 0 rfl s

end CppDataStream
