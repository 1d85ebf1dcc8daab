/-
# The recursive push computes the compositional stream semantics

On an acyclic graph the depth-first recursion of `pushData`, which enters a
processor once for every path that leads to it and may find it failed in between,
computes what one reads off the graph: each processor maps the stream it is given
(cut after its first `EopError` output), each of its connections carries the whole
output, and what a processor is given is a merge of one copy of the output for
every connection into it with what the application pushes
(`pushSequence_compositional`).

Acyclicity enters in one place: while a push made by `n` runs, `n` is not entered
again, so the copies that a connection of `n` carries are not interleaved with
those of a nested push (`pushData_inputsFrom`).
-/

import CppDataStream.Library.Digraph
import CppDataStream.Sync.Calls
import Mathlib.Data.Fintype.EquivFin

namespace CppDataStream

open Streams DirectedGraph

variable {ι V T σ ν : Type*} [DecidableEq ι]

instance (G : Graph ι V T σ) (m : ι) (k : ℕ) (n : ι) : Decidable (G.Conn m k n) :=
  inferInstanceAs (Decidable ((G.processors m)[k]? = some n))

/-- What reaches `n` through `src` when every connection carries the output of
its processor. -/
def copies (G : Graph ι V T σ) (n : ι) (log : List (Event ι V T)) :
    Source ι → List (SharedDataBlock T)
  | .external => []
  | .connection m k => if G.Conn m k n then outputs m log else []

/-- The calls of the loop over the processors `cs` of `m` from position `k` on
that reach `n` through `src`. -/
def loopCalls (m : ι) (output : SharedDataBlock T) (k : ℕ) (cs : List ι) (n : ι) :
    Source ι → List (SharedDataBlock T)
  | .external => []
  | .connection m' j => if m' = m ∧ k ≤ j ∧ cs[j - k]? = some n then [output] else []

section

variable {G : Graph ι V T σ} {log log' : List (Event ι V T)} {m n : ι}

/-- The copies that two logs owe are those of each. -/
theorem copies_append (src : Source ι) :
    copies G n (log ++ log') src = copies G n log src ++ copies G n log' src := by
  cases src with
  | external => rfl
  | connection m k =>
      by_cases h : G.Conn m k n <;> simp [copies, h]

/-- A processor that has not emitted anything has sent no copies. -/
theorem copies_of_outputs_nil (h : outputs m log = []) (k : ℕ) :
    copies G n log (.connection m k) = [] := by
  simp [copies, h]

/-- The loop makes the call of its first connection, then those of the rest. -/
theorem loopCalls_cons (output : SharedDataBlock T) (k : ℕ) (c : ι) (cs : List ι) (src : Source ι) :
    loopCalls m output k (c :: cs) n src =
      (if c = n ∧ .connection m k = src then [output] else []) ++
        loopCalls m output (k + 1) cs n src := by
  cases src with
  | external => simp [loopCalls]
  | connection m' j =>
      by_cases hm : m' = m
      · subst hm
        rcases lt_trichotomy k j with h | rfl | h
        · obtain ⟨d, rfl⟩ := Nat.exists_eq_add_of_lt h
          have h₁ : k + d + 1 - k = d + 1 := by omega
          have h₂ : k + d + 1 - (k + 1) = d := by omega
          have h₃ : ¬ k = k + d + 1 := by omega
          have h₄ : k ≤ k + d + 1 ∧ k + 1 ≤ k + d + 1 := by omega
          simp only [loopCalls, h₁, h₂, List.getElem?_cons_succ, Source.connection.injEq, true_and,
            h₃, and_false, if_false, List.nil_append, h₄]
        · have h₁ : ¬ k + 1 ≤ k := by omega
          simp [loopCalls, h₁]
        · have h₁ : ¬ k ≤ j := by omega
          have h₂ : ¬ k + 1 ≤ j := by omega
          have h₃ : ¬ k = j := by omega
          simp [loopCalls, h₁, h₂, h₃]
      · have hm' : ¬ m = m' := fun h => hm h.symm
        simp [loopCalls, hm, hm']

/-- Only connections of `m` carry calls of its loop. -/
theorem loopCalls_of_ne {src : Source ι} (h : ∀ k, src ≠ .connection m k) (output : SharedDataBlock T)
    (k : ℕ) (cs : List ι) : loopCalls m output k cs n src = [] := by
  cases src with
  | external => rfl
  | connection m' j =>
      have hm : m' ≠ m := fun hm => h j (hm ▸ rfl)
      simp [loopCalls, hm]

/-- The calls of the loop of `m` and the copies of what `m` has not emitted do
not meet on one connection. -/
theorem loopCalls_append_copies {src : Source ι} (h : ∀ j, src = .connection m j → outputs m log = [])
    (output : SharedDataBlock T) (k : ℕ) (cs : List ι) :
    loopCalls m output k cs n src ++ copies G n log src =
      copies G n log src ++ loopCalls m output k cs n src := by
  by_cases hsrc : ∃ j, src = .connection m j
  · obtain ⟨j, rfl⟩ := hsrc
    rw [copies_of_outputs_nil (h j rfl), List.append_nil, List.nil_append]
  · rw [loopCalls_of_ne fun j hj => hsrc ⟨j, hj⟩, List.append_nil, List.nil_append]

end

section Push

variable [DecidableEq V] {G : Graph ι V T σ} {vis : V → StreamVisitor T ν} {fuel : ℕ}

/-- A push into a successor of `n` does not come back to `n`, if `n` is on no
cycle. -/
theorem outputs_of_adj {n c : ι} (hn : ¬ Relation.TransGen G.Adj n n) (hc : G.Adj n c) {src : Source ι}
    {sdb : SharedDataBlock T} {s : PushState ι V σ ν} {r : Run ι V T σ ν}
    (h : pushData G vis fuel src c sdb s = some r) : outputs n r.events = [] :=
  outputs_of_node fun e he hen =>
    hn (Relation.TransGen.head' hc (hen ▸ pushData_reachable h e he))

/-- What a call emits is what its own loop passes along. -/
theorem copies_visited {src src' : Source ι} {p n : ι} {sdb : SharedDataBlock T}
    {s : PushState ι V σ ν} {log : List (Event ι V T)}
    (ho : ∀ j, src' = .connection p j → outputs p log = []) :
    copies G n ((G.visited vis src p sdb s).events ++ log) src' =
      loopCalls p (G.process p sdb s).2 0 (G.processors p) n src' ++ copies G n log src' := by
  cases src' with
  | external => rfl
  | connection m k =>
      by_cases hm : p = m
      · subst hm
        by_cases hk : G.Conn p k n
        · have hk' : (G.processors p)[k]? = some n := hk
          simp [copies, loopCalls, outputs_visited, ho k rfl, hk, hk']
        · have hk' : ¬ (G.processors p)[k]? = some n := hk
          simp [copies, loopCalls, hk, hk']
      · rw [loopCalls_of_ne (by simpa using Ne.symm hm)]
        simp [copies, outputs_visited, hm]

/-- **What a push passes along.**  Besides the call itself, a processor is given
through each connection of a processor that is on no cycle exactly what this
processor has emitted, up to an exception. -/
theorem pushData_inputsFrom {src : Source ι} {p : ι} {sdb : SharedDataBlock T}
    {s : PushState ι V σ ν} {r : Run ι V T σ ν} (h : pushData G vis fuel src p sdb s = some r)
    (n : ι) (src' : Source ι)
    (hsrc : ∀ m k, src' = .connection m k → ¬ Relation.TransGen G.Adj m m) :
    Upto r.thrown.isSome (inputsFrom n src' r.events)
      ((if p = n ∧ src = src' then [sdb] else []) ++ copies G n r.events src') := by
  refine pushData_induct
    (P := fun src p sdb _ r => Upto r.thrown.isSome (inputsFrom n src' r.events)
      ((if p = n ∧ src = src' then [sdb] else []) ++ copies G n r.events src'))
    (L := fun m output k cs _ r => (∀ c ∈ cs, G.Adj m c) →
      (∀ j, src' = .connection m j → outputs m r.events = []) ∧
        Upto r.thrown.isSome (inputsFrom n src' r.events)
          (loopCalls m output k cs n src' ++ copies G n r.events src'))
    ?_ ?_ ?_ ?_ ?_ ?_ h
  · intro src p sdb s _
    have hc : copies G n ([.call src p sdb, .skip p sdb] : List (Event ι V T)) src' = [] := by
      cases src' <;> simp [copies, outputs]
    rw [hc]
    by_cases hp : p = n ∧ src = src' <;> simp [Upto, inputsFrom, hp]
  · intro src p sdb s e _ ht
    rw [inputsFrom_visited, ht]
    exact List.prefix_append _ _
  · intro src p sdb s r _ ht hL
    obtain ⟨ho, hL⟩ := hL fun _ hc => hc
    rw [inputsFrom_append, inputsFrom_visited, copies_visited ho]
    exact Upto.append rfl hL
  · intro m output k s _
    refine ⟨fun _ _ => rfl, ?_⟩
    cases src' <;> simp [Upto, copies, inputsFrom, loopCalls, outputs]
  · intro fuel m output k c cs s r e hr hP ht hcs
    have ho : ∀ j, src' = .connection m j → outputs m r.events = [] := fun j hj =>
      outputs_of_adj (hsrc m j hj) (hcs c (List.mem_cons_self ..)) hr
    refine ⟨ho, ?_⟩
    rw [ht] at hP ⊢
    rw [loopCalls_cons, List.append_assoc, loopCalls_append_copies ho, ← List.append_assoc]
    exact Upto.append_right hP _
  · intro fuel m output k c cs s r r' hr hP ht hL hcs
    have ho : ∀ j, src' = .connection m j → outputs m r.events = [] := fun j hj =>
      outputs_of_adj (hsrc m j hj) (hcs c (List.mem_cons_self ..)) hr
    obtain ⟨ho', hL⟩ := hL fun c' hc' => hcs c' (List.mem_cons_of_mem _ hc')
    refine ⟨fun j hj => by rw [outputs_append, ho j hj, ho' j hj]; rfl, ?_⟩
    rw [ht] at hP
    rw [inputsFrom_append, copies_append, loopCalls_cons, ← List.append_assoc,
      List.append_assoc (ite _ _ _), loopCalls_append_copies ho, ← List.append_assoc,
      List.append_assoc]
    exact Upto.append hP hL

/-! ### Order within one call -/

/-- Every emitted block goes to all visitors of its processor, in connection
order, and then into each connected element in turn: nothing else happens in
between, and the processor is not entered again before the last of these pushes
has returned. -/
def DeliveredInOrder (G : Graph ι V T σ) (log : List (Event ι V T)) : Prop :=
  ∀ before n sdb output after, log = before ++ .process n sdb output :: after →
    ∃ pushes rest, after = visitEvents n output 0 (G.visitors n) ++ pushes.flatten ++ rest ∧
      List.Forall₂ (fun (x : ι × ℕ) push => ∃ tail,
        push = .call (.connection n x.2) x.1 output :: tail ∧ ∀ e ∈ tail, e.node ≠ n)
        (G.processors n).zipIdx pushes

omit [DecidableEq ι] [DecidableEq V] in
/-- Two logs in order make one. -/
theorem DeliveredInOrder.append {log log' : List (Event ι V T)} (h : DeliveredInOrder G log)
    (h' : DeliveredInOrder G log') : DeliveredInOrder G (log ++ log') := by
  intro before n sdb output after heq
  rcases append_eq_append_cons heq with ⟨after', rfl, rfl⟩ | ⟨before', rfl, rfl⟩
  · obtain ⟨pushes, rest, rfl, hp⟩ := h _ _ _ _ _ rfl
    exact ⟨pushes, rest ++ log', by simp only [List.append_assoc], hp⟩
  · exact h' _ _ _ _ _ rfl

omit [DecidableEq ι] [DecidableEq V] in
/-- A log without outputs is in order. -/
theorem deliveredInOrder_of_forall {log : List (Event ι V T)}
    (h : ∀ e ∈ log, ∀ n sdb output, e ≠ .process n sdb output) : DeliveredInOrder G log := by
  rintro before n sdb output after rfl
  exact absurd rfl (h _ (by simp) n sdb output)

omit [DecidableEq V] [DecidableEq ι] in
/-- Runs in order compose. -/
theorem composable_inOrder (G : Graph ι V T σ) :
    Composable fun (_ : PushState ι V σ ν) (r : Run ι V T σ ν) =>
      r.thrown = none → DeliveredInOrder G r.events where
  nil _ _ := deliveredInOrder_of_forall (by simp)
  andThen _ _ _ h ht h' ht' := (h ht).append (h' ht')

/-- The block of a call goes to its visitors and then into its loop. -/
theorem deliveredInOrder_visited {src : Source ι} {p : ι} {sdb : SharedDataBlock T}
    {s : PushState ι V σ ν} (ht : (G.visited vis src p sdb s).thrown = none)
    {pushes : List (List (Event ι V T))} (hord : DeliveredInOrder G pushes.flatten)
    (hp : List.Forall₂ (fun (x : ι × ℕ) push => ∃ tail,
      push = .call (.connection p x.2) x.1 (G.process p sdb s).2 :: tail ∧ ∀ e ∈ tail, e.node ≠ p)
      (G.processors p).zipIdx pushes) :
    DeliveredInOrder G ((G.visited vis src p sdb s).events ++ pushes.flatten) := by
  have hv : Upto (visitVisitors vis p (G.process p sdb s).2 0 (G.visitors p) _).thrown.isSome _
      (visitEvents p (G.process p sdb s).2 0 (G.visitors p)) :=
    visitVisitors_events (s := (G.process p sdb s).1)
  rw [show (visitVisitors _ _ _ _ _ _).thrown = none from ht] at hv
  rw [Graph.visited]
  intro before n sdb' output after heq
  rcases before with _ | ⟨e₁, _ | ⟨e₂, before⟩⟩
  · simp at heq
  · simp only [List.cons_append, List.nil_append, List.cons.injEq, Event.process.injEq] at heq
    obtain ⟨-, ⟨rfl, rfl, rfl⟩, rfl⟩ := heq
    refine ⟨pushes, [], ?_, hp⟩
    rw [List.append_nil]
    exact congrArg (· ++ _) hv
  · simp only [List.cons_append, List.cons.injEq] at heq
    refine DeliveredInOrder.append (deliveredInOrder_of_forall fun e he => ?_) hord _ _ _ _ _ heq.2.2
    obtain ⟨j, v, rfl⟩ := mem_visitVisitors he
    simp

/-- A push that returns does everything in order. -/
theorem pushData_deliveredInOrder (hG : Acyclic G.Adj) {src : Source ι} {p : ι}
    {sdb : SharedDataBlock T} {s : PushState ι V σ ν} {r : Run ι V T σ ν}
    (h : pushData G vis fuel src p sdb s = some r) (ht : r.thrown = none) :
    DeliveredInOrder G r.events ∧ ∃ tail, r.events = .call src p sdb :: tail := by
  refine pushData_induct
    (P := fun src p sdb _ r => r.thrown = none →
      DeliveredInOrder G r.events ∧ ∃ tail, r.events = .call src p sdb :: tail)
    (L := fun n output k cs _ r => (∀ c ∈ cs, G.Adj n c) → r.thrown = none →
      DeliveredInOrder G r.events ∧ ∃ pushes, r.events = pushes.flatten ∧
        List.Forall₂ (fun (x : ι × ℕ) push => ∃ tail,
          push = .call (.connection n x.2) x.1 output :: tail ∧ ∀ e ∈ tail, e.node ≠ n)
          (cs.zipIdx k) pushes)
    ?_ ?_ ?_ ?_ ?_ ?_ h ht
  · intro src p sdb s _ _
    exact ⟨deliveredInOrder_of_forall (by simp), _, rfl⟩
  · intro src p sdb s e _ ht ht'
    exact absurd (ht.symm.trans ht') (by simp)
  · intro src p sdb s r _ ht hL ht'
    obtain ⟨hord, pushes, hev, hp⟩ := hL (fun _ hc => hc) ht'
    rw [hev] at hord ⊢
    exact ⟨deliveredInOrder_visited ht hord hp, _, rfl⟩
  · intro n output k s _ _
    exact ⟨deliveredInOrder_of_forall (by simp), [], rfl, List.Forall₂.nil⟩
  · intro fuel n output k c cs s r e _ _ ht _ ht'
    exact absurd (ht.symm.trans ht') (by simp)
  · intro fuel n output k c cs s r r' hr hP ht hL hcs ht'
    obtain ⟨hord, tail, hev⟩ := hP ht
    obtain ⟨hord', pushes, hev', hp⟩ := hL (fun c' hc' => hcs c' (List.mem_cons_of_mem _ hc')) ht'
    refine ⟨hord.append hord', r.events :: pushes, by simp [hev'], ?_⟩
    rw [List.zipIdx_cons]
    refine List.Forall₂.cons ⟨tail, hev, fun e he hn => ?_⟩ hp
    have hreach := pushData_reachable hr e (hev ▸ List.mem_cons_of_mem _ he)
    exact hG n (Relation.TransGen.head' (hcs c (List.mem_cons_self ..)) (hn ▸ hreach))

/-! ### A sequence of pushes -/

/-- The blocks the application pushes into `n`. -/
def pushedInto (n : ι) (pushes : List (ι × SharedDataBlock T)) : List (SharedDataBlock T) :=
  pushes.filterMap fun x => if x.1 = n then some x.2 else none

/-- The streams that meet at `n`: what the application pushes into it, and for
every connection `k` of `m` into it a copy of what `m` has emitted. -/
def incoming (G : Graph ι V T σ) (pushes : List (ι × SharedDataBlock T))
    (log : List (Event ι V T)) (n : ι) : Source ι → List (SharedDataBlock T)
  | .external => pushedInto n pushes
  | .connection m k => if G.Conn m k n then outputs m log else []

omit [DecidableEq V] in
/-- The calls of a log, tagged by their source, are a labelling of the inputs. -/
theorem isMerge_inputs (n : ι) (log : List (Event ι V T)) :
    IsMerge (fun src => inputsFrom n src log) (inputs n log) := by
  refine ⟨callsOf n log, ?_, fun src => ?_⟩
  · rw [callsOf, List.map_filterMap, inputs]
    refine List.filterMap_congr fun e _ => ?_
    cases e with
    | call src n' sdb => by_cases h : n' = n <;> simp [h]
    | _ => rfl
  · rw [callsOf, List.filterMap_filterMap]
    refine List.filterMap_congr fun e _ => ?_
    cases e with
    | call src' n' sdb => by_cases h : n' = n <;> simp [h]
    | _ => rfl

/-- **Connections carry outputs over a whole sequence of pushes.** -/
theorem pushSequence_inputsFrom {pushes : List (ι × SharedDataBlock T)}
    {s : PushState ι V σ ν} {r : Run ι V T σ ν} (h : pushSequence G vis fuel pushes s = some r)
    (n : ι) (src : Source ι)
    (hsrc : ∀ m k, src = .connection m k → ¬ Relation.TransGen G.Adj m m) :
    Upto r.thrown.isSome (inputsFrom n src r.events) (incoming G pushes r.events n src) := by
  have hsplit : ∀ (x : ι × SharedDataBlock T) (pushes : List (ι × SharedDataBlock T))
      (log log' : List (Event ι V T)), incoming G (x :: pushes) (log ++ log') n src =
        ((if x.1 = n ∧ .external = src then [x.2] else []) ++ copies G n log src) ++
          incoming G pushes log' n src := by
    rintro x pushes log log'
    cases src with
    | external => by_cases hx : x.1 = n <;> simp [incoming, copies, pushedInto, hx]
    | connection m k => by_cases hk : G.Conn m k n <;> simp [incoming, copies, hk]
  refine pushSequence_induct
    (P := fun pushes _ r => Upto r.thrown.isSome (inputsFrom n src r.events)
      (incoming G pushes r.events n src)) ?_ ?_ ?_ h
  · intro s
    cases src <;> simp [Upto, incoming, inputsFrom, pushedInto, outputs]
  · intro m sdb pushes s r e hr ht
    have hp := pushData_inputsFrom hr n src hsrc
    rw [ht] at hp ⊢
    rw [← List.append_nil r.events, hsplit (m, sdb) pushes r.events [], List.append_nil]
    exact Upto.append_right hp _
  · intro m sdb pushes s r r' hr ht ih
    have hp := pushData_inputsFrom hr n src hsrc
    rw [ht] at hp
    rw [hsplit (m, sdb), inputsFrom_append]
    exact Upto.append hp ih

/-- What a log says when the graph computed the compositional semantics. -/
structure Compositional (G : Graph ι V T σ) (s₀ : PushState ι V σ ν)
    (pushes : List (ι × SharedDataBlock T)) (log : List (Event ι V T)) : Prop where
  /-- A processor maps its inputs, cut just after the first error it emits. -/
  outputs_eq : ∀ n, outputs n log = cutAfter SharedDataBlock.isEopError
    (statefulMap (G.processData n) (s₀.priv n) (inputs n log))
  /-- It calls `processData` once for every block it emits. -/
  processCalls_eq : ∀ n, processCalls n log = (outputs n log).length
  /-- Every visitor connection carries exactly what its processor emits. -/
  seen_eq : ∀ n k, k < (G.visitors n).length → seen n k log = outputs n log
  /-- A processor is given a merge of the outputs connected to it and of what is
  pushed into it from outside. -/
  inputs_merge : ∀ n, IsMerge (incoming G pushes log n) (inputs n log)
  /-- An emitted block goes to the visitors, then to the connected elements. -/
  inOrder : DeliveredInOrder G log

/-- **A sequence of pushes computes the compositional stream semantics.**  On a
finite acyclic graph without a failed processor every sequence of pushes returns,
without an exception if no visitor throws; and whenever it returns without one,
the log is that of the compositional semantics. -/
theorem pushSequence_compositional [Finite ι] (hG : Acyclic G.Adj) (vis : V → StreamVisitor T ν)
    (s₀ : PushState ι V σ ν) (hs₀ : ∀ n, s₀.hadError n = false)
    (pushes : List (ι × SharedDataBlock T)) :
    ∃ fuel r, pushSequence G vis fuel pushes s₀ = some r ∧
      ((∀ v, (vis v).Returns) → r.thrown = none) ∧
      (r.thrown = none → Compositional G s₀ pushes r.events) := by
  obtain ⟨fuel, hfuel⟩ := exists_fuel_sequence pushes fun x _ =>
    exists_fuel (σ := σ) vis hG.wellFounded x.1
  obtain ⟨r, hr⟩ := Option.isSome_iff_exists.mp (hfuel s₀)
  refine ⟨fuel, r, hr, fun hvis => ?_, fun ht => ?_⟩
  · exact (pushSequence_visited hr).returned hvis
  · have hlatch := fun n => (composable_latched G n).pushSequence
      (fun h => pushData_latch h n) hr
    have hmerge := fun n src => pushSequence_inputsFrom hr n src fun m _ _ => hG m
    rw [ht] at hmerge
    refine ⟨fun n => ?_, fun n => processCalls_eq n _, fun n k hk => ?_, fun n => ?_, ?_⟩
    · rw [(hlatch n).1, hs₀ n, latchOut_eq_cutAfter]
    · have hseen := (composable_seenOutputs n k).pushSequence (fun h => pushData_seen h hk) hr
      rwa [SeenOutputs, ht] at hseen
    · rw [← funext (hmerge n)]
      exact isMerge_inputs n r.events
    · exact (composable_inOrder G).pushSequence
        (fun h ht => (pushData_deliveredInOrder hG h ht).1) hr ht

end Push

/-! ### A processor that fails where two branches meet -/

/-- Passes blocks on until its third one, which it fails to process. -/
def failThird (st : ℕ) (sdb : SharedDataBlock ℕ) : ℕ × SharedDataBlock ℕ :=
  (st + 1, if st = 2 then ⟨none, some ⟨.EopError, "third"⟩⟩ else sdb)

/-- The diamond with one visitor everywhere and a failing processor at the join,
and two blocks pushed into it. -/
theorem pushSequence_compositional_diamond :
    ∃ fuel r, pushSequence ⟨fun _ => failThird, fun _ => [()], diamond⟩
        (fun _ => .user fun _ _ => ((), false)) fuel [(0, ⟨some 1, none⟩), (0, ⟨some 2, none⟩)]
        (⟨fun _ => 0, fun _ => false, fun _ => ⟨none, ()⟩⟩ : PushState (Fin 4) Unit ℕ Unit) =
          some r ∧
      ((∀ _ : Unit, (StreamVisitor.user fun (_ : Unit) (_ : SharedDataBlock ℕ) =>
        ((), false)).Returns) → r.thrown = none) ∧
      (r.thrown = none → Compositional ⟨fun _ => failThird, fun _ => [()], diamond⟩
        ⟨fun _ => 0, fun _ => false, fun _ => ⟨none, ()⟩⟩
        [(0, ⟨some 1, none⟩), (0, ⟨some 2, none⟩)] r.events) :=
  pushSequence_compositional (G := ⟨fun _ => failThird, fun _ => [()], diamond⟩) acyclic_diamond
    (fun _ => .user fun _ _ => ((), false)) _ (fun _ => rfl) _

end CppDataStream
