/-
# What every push does, on any graph

Facts about a push that need nothing of the graph, each by induction over the
calls it makes (`pushData_induct`), and each for pushes that end in an exception
as well:

* it touches the processors reachable from where it enters only
  (`pushData_reachable`);
* a visitor connection carries what its processor emits, cut short only by the
  exception that ends the push (`pushData_seen`);
* a processor is a latched stage on the blocks it is given: its outputs, private
  state and flag are those of `latchOut` and `latchEnd` (`pushData_latch`);
* a visitor is its `visitData` folded over the blocks it was called with, and an
  exception is that of a visitor's fold (`pushData_visited`).
-/

import CppDataStream.Sync.PushData
import Mathlib.Logic.Relation

namespace CppDataStream

open Streams

variable {ι V T σ ν : Type*} [DecidableEq ι]

/-- The calls of a complete loop over `visitors`. -/
def visitEvents (n : ι) (output : SharedDataBlock T) : ℕ → List V → List (Event ι V T)
  | _, [] => []
  | k, v :: vs => .visit n k v output :: visitEvents n output (k + 1) vs

/-- The loop from connection `k` on calls the visitor of connection `j` once, if it gets
there. -/
theorem seen_visitEvents (m n : ι) (j : ℕ) (output : SharedDataBlock T) :
    ∀ (k : ℕ) (vs : List V), seen m j (visitEvents n output k vs) =
      if n = m ∧ k ≤ j ∧ j < k + vs.length then [output] else []
  | k, [] => by
      rw [if_neg (by simp)]
      rfl
  | k, v :: vs => by
      have ih := seen_visitEvents m n j output (k + 1) vs
      rw [seen] at ih ⊢
      rw [visitEvents, List.filterMap_cons, ih, List.length_cons]
      by_cases hn : n = m
      · by_cases hk : k = j
        · subst hk
          simp [hn]
        · simp only [hn, hk, and_false, if_false, true_and]
          exact if_congr (by omega) rfl rfl
      · simp [hn]

/-! ### The loop over `visitors` -/

section Visit

variable [DecidableEq V] {vis : V → StreamVisitor T ν} {n : ι} {output : SharedDataBlock T}

omit [DecidableEq ι] in
/-- The loop leaves the private states of processors alone. -/
theorem visitVisitors_priv : ∀ {k : ℕ} {vs : List V} {s : PushState ι V σ ν},
    (visitVisitors vis n output k vs s).state.priv = s.priv
  | _, [], _ => rfl
  | k, v :: vs, s => by
      rw [visitVisitors]
      split
      · rfl
      · exact visitVisitors_priv

omit [DecidableEq ι] in
/-- It leaves their flags alone. -/
theorem visitVisitors_hadError : ∀ {k : ℕ} {vs : List V} {s : PushState ι V σ ν},
    (visitVisitors vis n output k vs s).state.hadError = s.hadError
  | _, [], _ => rfl
  | k, v :: vs, s => by
      rw [visitVisitors]
      split
      · rfl
      · exact visitVisitors_hadError

omit [DecidableEq ι] in
/-- The loop makes its calls in connection order, up to an exception. -/
theorem visitVisitors_events : ∀ {k : ℕ} {vs : List V} {s : PushState ι V σ ν},
    Upto (visitVisitors vis n output k vs s).thrown.isSome
      (visitVisitors vis n output k vs s).events (visitEvents n output k vs)
  | _, [], _ => rfl
  | k, v :: vs, s => by
      rw [visitVisitors]
      split
      · exact ⟨_, rfl⟩
      · exact Upto.append (l := [_]) rfl visitVisitors_events

omit [DecidableEq ι] in
/-- Every event of the loop is a call of a visitor of `n`. -/
theorem mem_visitVisitors : ∀ {k : ℕ} {vs : List V} {s : PushState ι V σ ν} {e : Event ι V T},
    e ∈ (visitVisitors vis n output k vs s).events → ∃ j v, e = .visit n j v output
  | _, [], _, e, h => absurd h List.not_mem_nil
  | k, v :: vs, s, e, h => by
      rw [visitVisitors] at h
      split at h
      · exact ⟨k, v, List.mem_singleton.mp h⟩
      · rcases List.mem_cons.mp h with rfl | h
        · exact ⟨k, v, rfl⟩
        · exact mem_visitVisitors h

omit [DecidableEq ι] in
/-- A call is made through the connection of the visitor called. -/
theorem conn_of_mem_visitVisitors : ∀ {k : ℕ} {vs : List V} {s : PushState ι V σ ν} {n' : ι} {j : ℕ}
    {v : V} {o : SharedDataBlock T},
    .visit n' j v o ∈ (visitVisitors vis n output k vs s).events →
      n' = n ∧ k ≤ j ∧ vs[j - k]? = some v
  | _, [], _, _, _, _, _, h => absurd h List.not_mem_nil
  | k, w :: vs, s, n', j, v, o, h => by
      have head : (.visit n' j v o : Event ι V T) = .visit n k w output →
          n' = n ∧ k ≤ j ∧ (w :: vs)[j - k]? = some v := by
        intro h
        obtain ⟨rfl, rfl, rfl, rfl⟩ := Event.visit.inj h
        simp
      rw [visitVisitors] at h
      split at h
      · exact head (List.mem_singleton.mp h)
      · rcases List.mem_cons.mp h with h | h
        · exact head h
        · obtain ⟨hn, hj, hv⟩ := conn_of_mem_visitVisitors h
          refine ⟨hn, by omega, ?_⟩
          rwa [show j - k = j - (k + 1) + 1 by omega, List.getElem?_cons_succ]

variable {k : ℕ} {vs : List V} {s : PushState ι V σ ν} {m : ι}

/-- The loop gives no block to a processor. -/
@[simp] theorem inputs_visitVisitors :
    inputs m (visitVisitors vis n output k vs s).events = [] :=
  List.filterMap_eq_nil_iff.mpr fun e he => by obtain ⟨j, v, rfl⟩ := mem_visitVisitors he; rfl

/-- So no connection to a processor carries one. -/
@[simp] theorem inputsFrom_visitVisitors {src : Source ι} :
    inputsFrom m src (visitVisitors vis n output k vs s).events = [] :=
  List.filterMap_eq_nil_iff.mpr fun e he => by obtain ⟨j, v, rfl⟩ := mem_visitVisitors he; rfl

/-- No processor emits a block in it. -/
@[simp] theorem outputs_visitVisitors :
    outputs m (visitVisitors vis n output k vs s).events = [] :=
  List.filterMap_eq_nil_iff.mpr fun e he => by obtain ⟨j, v, rfl⟩ := mem_visitVisitors he; rfl

/-- The visitors of other processors see nothing of it. -/
theorem seen_visitVisitors_of_ne (h : n ≠ m) {j : ℕ} :
    seen m j (visitVisitors vis n output k vs s).events = [] :=
  List.filterMap_eq_nil_iff.mpr fun e he => by
    obtain ⟨j, v, rfl⟩ := mem_visitVisitors he
    simp [h]

/-- Each connection carries the output, unless an exception comes before. -/
theorem seen_visitVisitors {j : ℕ} (hj : j < vs.length) :
    Upto (visitVisitors vis n output 0 vs s).thrown.isSome
      (seen n j (visitVisitors vis n output 0 vs s).events) [output] := by
  have h : seen n j (visitEvents n output 0 vs) = [output] := by
    simp [seen_visitEvents, hj]
  have hev : Upto (visitVisitors vis n output 0 vs s).thrown.isSome _ (visitEvents n output 0 vs) :=
    visitVisitors_events
  rw [← h]
  cases hb : (visitVisitors vis n output 0 vs s).thrown.isSome with
  | false =>
      rw [hb] at hev
      exact congrArg (seen n j) hev
  | true =>
      rw [hb] at hev
      exact List.IsPrefix.filterMap _ hev

omit [DecidableEq ι] in
/-- Each visitor makes of the loop what it makes of the blocks it is called
with; an exception is that of the visitor called last. -/
theorem visitVisitors_visitors : ∀ {k : ℕ} {vs : List V} {s : PushState ι V σ ν},
    ((visitVisitors vis n output k vs s).thrown = none → ∀ v,
      foldVisits (vis v) (s.visitor v) (seenBy v (visitVisitors vis n output k vs s).events) =
        .ok ((visitVisitors vis n output k vs s).state.visitor v)) ∧
    (∀ e, (visitVisitors vis n output k vs s).thrown = some e → ∃ v,
      foldVisits (vis v) (s.visitor v) (seenBy v (visitVisitors vis n output k vs s).events) =
        .error e)
  | _, [], s => ⟨fun _ _ => rfl, fun _ h => nomatch h⟩
  | k, w :: vs, s => by
      rw [visitVisitors]
      cases hw : (vis w).visitData (s.visitor w) output with
      | error e =>
          refine ⟨fun h => absurd h (by simp), fun e' he' => ⟨w, ?_⟩⟩
          obtain rfl := Option.some.inj he'
          simp [seenBy, foldVisits, hw]
      | ok x =>
          have ih := @visitVisitors_visitors (k + 1) vs
            { s with visitor := Function.update s.visitor w x.1 }
          obtain ⟨hret, hthrew⟩ := ih
          have hfold : ∀ v (l : List (Event ι V T)),
              foldVisits (vis v) (s.visitor v) (seenBy v (.visit n k w output :: l)) =
                foldVisits (vis v) (Function.update s.visitor w x.1 v) (seenBy v l) := by
            intro v l
            by_cases hv : w = v
            · subst hv
              simp [seenBy, foldVisits, hw]
            · simp [seenBy, hv, Function.update_of_ne (Ne.symm hv)]
          refine ⟨fun h v => (hfold v _).trans (hret h v), fun e he => ?_⟩
          obtain ⟨v, hv⟩ := hthrew e he
          exact ⟨v, (hfold v _).trans hv⟩

end Visit

/-! ### A push -/

/-- The processor an event belongs to. -/
def Event.node : Event ι V T → ι
  | .call _ n _ | .skip n _ | .process n _ _ | .visit n _ _ _
  | .enqueue n _ | .dequeue n _ | .deliver n _ => n

section Projections

variable {m n : ι} {log : List (Event ι V T)} {src src' : Source ι}
  {sdb output : SharedDataBlock T}

omit [DecidableEq ι] in
/-- A log of other processors holds nothing of `n`. -/
private theorem filterMap_of_node {β : Type*} {f : Event ι V T → Option β}
    (hf : ∀ e, e.node ≠ n → f e = none) (h : ∀ e ∈ log, e.node ≠ n) : log.filterMap f = [] :=
  List.filterMap_eq_nil_iff.mpr fun e he => hf e (h e he)

/-- In it `n` emits nothing. -/
theorem outputs_of_node (h : ∀ e ∈ log, e.node ≠ n) : outputs n log = [] :=
  filterMap_of_node (fun e he => by cases e <;> simp_all [Event.node]) h

/-- The number of calls of `processData` of `n`. -/
def processCalls (n : ι) (log : List (Event ι V T)) : ℕ :=
  log.countP fun
    | .process n' _ _ => n' = n
    | _ => false

/-- There is one output for each call of `processData`. -/
theorem processCalls_eq (n : ι) (log : List (Event ι V T)) :
    processCalls n log = (outputs n log).length := by
  induction log with
  | nil => rfl
  | cons e log ih =>
      rw [processCalls, outputs] at ih ⊢
      rw [List.countP_cons, ih, List.filterMap_cons]
      cases e with
      | process n' sdb output => by_cases h : n' = n <;> simp [h]
      | _ => rfl

/-! The streams of a log that begins with a call and its `processData`. -/

/-- The call is one more input of the processor. -/
theorem inputs_processed : inputs m (.call src n sdb :: .process n sdb output :: log) =
    (if n = m then [sdb] else []) ++ inputs m log := by
  by_cases h : n = m <;> simp [inputs, h]

/-- It is one through the connection that it names. -/
theorem inputsFrom_processed :
    inputsFrom m src' (.call src n sdb :: .process n sdb output :: log) =
      (if n = m ∧ src = src' then [sdb] else []) ++ inputsFrom m src' log := by
  by_cases h : n = m ∧ src = src' <;> simp [inputsFrom, h]

/-- `processData` is one more output. -/
theorem outputs_processed : outputs m (.call src n sdb :: .process n sdb output :: log) =
    (if n = m then [output] else []) ++ outputs m log := by
  by_cases h : n = m <;> simp [outputs, h]

/-- No visitor sees anything of either. -/
theorem seen_processed {k : ℕ} : seen m k (.call src n sdb :: .process n sdb output :: log) =
    seen m k log := rfl

end Projections

section Push

variable [DecidableEq V] {G : Graph ι V T σ} {vis : V → StreamVisitor T ν} {fuel : ℕ}
  {src : Source ι} {p : ι} {sdb : SharedDataBlock T} {s : PushState ι V σ ν} {r : Run ι V T σ ν}

/-! #### The part before the loop over `processors` -/

omit [DecidableEq V] in
/-- `processData` and the error test touch the members of their own processor only. -/
theorem process_of_ne {m n : ι} (h : n ≠ m) :
    (G.process n sdb s).1.priv m = s.priv m ∧ (G.process n sdb s).1.hadError m = s.hadError m := by
  simp only [Graph.process]
  refine ⟨Function.update_of_ne h.symm _ _, ?_⟩
  split_ifs
  · exact Function.update_of_ne h.symm _ _
  · rfl

/-- The private states are as `processData` leaves them. -/
theorem visited_priv (n : ι) :
    (G.visited vis src p sdb s).state.priv n = (G.process p sdb s).1.priv n :=
  congrFun visitVisitors_priv n

/-- The flags are as the error test leaves them. -/
theorem visited_hadError : (G.visited vis src p sdb s).state.hadError = (G.process p sdb s).1.hadError :=
  visitVisitors_hadError

/-- All events of this part are at the processor. -/
theorem mem_visited {e : Event ι V T} (he : e ∈ (G.visited vis src p sdb s).events) : e.node = p := by
  rcases List.mem_cons.mp he with rfl | he
  · rfl
  · rcases List.mem_cons.mp he with rfl | he
    · rfl
    · obtain ⟨j, v, rfl⟩ := mem_visitVisitors he
      rfl

/-- The only call in it is the push itself. -/
theorem call_of_mem_visited {src' : Source ι} {n : ι} {b : SharedDataBlock T}
    (h : .call src' n b ∈ (G.visited vis src p sdb s).events) : src' = src ∧ n = p := by
  rcases List.mem_cons.mp h with h | h
  · obtain ⟨rfl, rfl, -⟩ := Event.call.inj h
    exact ⟨rfl, rfl⟩
  · rcases List.mem_cons.mp h with h | h
    · exact absurd h (by simp)
    · obtain ⟨j, v, h⟩ := mem_visitVisitors h
      exact absurd h (by simp)

/-- The processor is given the block that is pushed. -/
theorem inputs_visited (n : ι) :
    inputs n (G.visited vis src p sdb s).events = if p = n then [sdb] else [] := by
  rw [Graph.visited, inputs_processed, inputs_visitVisitors, List.append_nil]

/-- It is given it through the connection of the push. -/
theorem inputsFrom_visited (n : ι) (src' : Source ι) :
    inputsFrom n src' (G.visited vis src p sdb s).events =
      if p = n ∧ src = src' then [sdb] else [] := by
  rw [Graph.visited, inputsFrom_processed, inputsFrom_visitVisitors, List.append_nil]

/-- It emits what `processData` returns. -/
theorem outputs_visited (n : ι) : outputs n (G.visited vis src p sdb s).events =
    if p = n then [(G.process p sdb s).2] else [] := by
  rw [Graph.visited, outputs_processed, outputs_visitVisitors, List.append_nil]

/-- Each of its visitor connections carries that, unless an exception comes before. -/
theorem seen_visited {n : ι} {k : ℕ} (hk : k < (G.visitors n).length) :
    Upto (G.visited vis src p sdb s).thrown.isSome (seen n k (G.visited vis src p sdb s).events)
      (if p = n then [(G.process p sdb s).2] else []) := by
  rw [Graph.visited, seen_processed]
  by_cases hn : p = n
  · subst hn
    rw [if_pos rfl]
    exact seen_visitVisitors hk
  · rw [seen_visitVisitors_of_ne hn, if_neg hn]
    exact Upto.refl _ _

/-- The visitors of other processors see nothing. -/
theorem seen_visited_of_ne {n : ι} (h : p ≠ n) (k : ℕ) :
    seen n k (G.visited vis src p sdb s).events = [] := by
  rw [Graph.visited, seen_processed, seen_visitVisitors_of_ne h]

/-! #### Where a push goes -/

/-- **A push stays downstream**: all its events are at processors reachable from
where it enters. -/
theorem pushData_reachable (h : pushData G vis fuel src p sdb s = some r) :
    ∀ e ∈ r.events, Relation.ReflTransGen G.Adj p e.node := by
  refine pushData_induct
    (P := fun _ n _ _ r => ∀ e ∈ r.events, Relation.ReflTransGen G.Adj n e.node)
    (L := fun n _ _ cs _ r => (∀ c ∈ cs, G.Adj n c) →
      ∀ e ∈ r.events, Relation.ReflTransGen G.Adj n e.node)
    ?_ ?_ ?_ ?_ ?_ ?_ h
  · intro _ n sdb s _ e he
    simp only [List.mem_cons, List.not_mem_nil, or_false] at he
    rcases he with rfl | rfl <;> exact Relation.ReflTransGen.refl
  · intro _ n sdb s _ _ _ e he
    exact mem_visited he ▸ Relation.ReflTransGen.refl
  · intro _ n sdb s r _ _ hL e he
    rcases List.mem_append.mp he with he | he
    · exact mem_visited he ▸ Relation.ReflTransGen.refl
    · exact hL (fun _ h => h) e he
  · intro n output k s _ e he
    exact absurd he List.not_mem_nil
  · intro _ n output k c cs s r e _ hP _ hcs e' he'
    exact Relation.ReflTransGen.head (hcs c (List.mem_cons_self ..)) (hP e' he')
  · intro _ n output k c cs s r r' _ hP _ hL hcs e he
    rcases List.mem_append.mp he with he | he
    · exact Relation.ReflTransGen.head (hcs c (List.mem_cons_self ..)) (hP e he)
    · exact hL (fun c' hc' => hcs c' (List.mem_cons_of_mem _ hc')) e he

/-- The calls of a push, besides the one that starts it, go through connections
of processors it has reached. -/
theorem pushData_calls (h : pushData G vis fuel src p sdb s = some r) {src' : Source ι} {n : ι}
    {b : SharedDataBlock T} (hb : .call src' n b ∈ r.events) :
    (src' = src ∧ n = p) ∨
      ∃ m k, src' = .connection m k ∧ G.Conn m k n ∧ Relation.ReflTransGen G.Adj p m := by
  have through : ∀ {q c : ι} {k : ℕ} {cs : List ι}, c :: cs = (G.processors q).drop k →
      ((src' = .connection q k ∧ n = c) ∨
        ∃ m k', src' = .connection m k' ∧ G.Conn m k' n ∧ Relation.ReflTransGen G.Adj c m) →
      ∃ m k', src' = .connection m k' ∧ G.Conn m k' n ∧ Relation.ReflTransGen G.Adj q m := by
    intro q c k cs hcs h
    have hc : G.Conn q k c := by
      rw [Graph.Conn, ← List.head?_drop, ← hcs, List.head?_cons]
    rcases h with ⟨rfl, rfl⟩ | ⟨m, k', rfl, hm, hreach⟩
    · exact ⟨q, k, rfl, hc, Relation.ReflTransGen.refl⟩
    · exact ⟨m, k', rfl, hm, Relation.ReflTransGen.head hc.adj hreach⟩
  refine pushData_induct
    (P := fun src p _ _ r => .call src' n b ∈ r.events → (src' = src ∧ n = p) ∨
      ∃ m k, src' = .connection m k ∧ G.Conn m k n ∧ Relation.ReflTransGen G.Adj p m)
    (L := fun q _ k cs _ r => cs = (G.processors q).drop k → .call src' n b ∈ r.events →
      ∃ m k, src' = .connection m k ∧ G.Conn m k n ∧ Relation.ReflTransGen G.Adj q m)
    ?_ ?_ ?_ ?_ ?_ ?_ h hb
  · intro src p sdb s _ hb
    simp only [List.mem_cons, Event.call.injEq, reduceCtorEq, List.not_mem_nil, or_false] at hb
    exact Or.inl ⟨hb.1, hb.2.1⟩
  · intro src p sdb s e _ _ hb
    exact Or.inl (call_of_mem_visited hb)
  · intro src p sdb s r _ _ hL hb
    rcases List.mem_append.mp hb with hb | hb
    · exact Or.inl (call_of_mem_visited hb)
    · exact Or.inr (hL rfl hb)
  · intro q output k s _ hb
    exact absurd hb List.not_mem_nil
  · intro _ q output k c cs s r e _ hP _ hcs hb
    exact through hcs (hP hb)
  · intro _ q output k c cs s r r' _ hP _ hL hcs hb
    rcases List.mem_append.mp hb with hb | hb
    · exact through hcs (hP hb)
    · exact hL (by rw [← List.tail_drop, ← hcs, List.tail_cons]) hb

/-! #### Visitor connections -/

/-- Visitor connection `j` of `m` carries the outputs of `m`, up to an
exception. -/
def SeenOutputs (m : ι) (j : ℕ) (_ : PushState ι V σ ν) (r : Run ι V T σ ν) : Prop :=
  Upto r.thrown.isSome (seen m j r.events) (outputs m r.events)

omit [DecidableEq V] in
/-- Runs that do so compose. -/
theorem composable_seenOutputs (m : ι) (j : ℕ) :
    Composable (SeenOutputs m j : PushState ι V σ ν → Run ι V T σ ν → Prop) where
  nil _ := rfl
  andThen s r r' h ht h' := by
    rw [SeenOutputs, ht] at h
    rw [SeenOutputs, seen_append, outputs_append]
    exact Upto.append h h'

/-- **Every visitor connection carries the outputs** of its processor, in order,
up to an exception. -/
theorem pushData_seen (h : pushData G vis fuel src p sdb s = some r) {m : ι} {j : ℕ}
    (hj : j < (G.visitors m).length) : SeenOutputs m j s r := by
  refine (composable_seenOutputs m j).pushData (fun _ n sdb s _ => rfl) (fun _ n sdb s _ => ?_) h
  rw [SeenOutputs, outputs_visited]
  exact seen_visited hj

/-! #### Processors as latched stages -/

/-- What the run does at `m` is what a latched stage does with the blocks `m` was
given. -/
def Latched (G : Graph ι V T σ) (m : ι) (s : PushState ι V σ ν) (r : Run ι V T σ ν) : Prop :=
  outputs m r.events = latchOut (G.processData m) SharedDataBlock.isEopError
      (s.priv m, s.hadError m) (inputs m r.events) ∧
    (r.state.priv m, r.state.hadError m) =
      latchEnd (G.processData m) SharedDataBlock.isEopError (s.priv m, s.hadError m)
        (inputs m r.events)

omit [DecidableEq V] in
/-- A stage goes on from where it was left. -/
theorem composable_latched (G : Graph ι V T σ) (m : ι) :
    Composable (Latched G m : PushState ι V σ ν → Run ι V T σ ν → Prop) where
  nil _ := ⟨rfl, rfl⟩
  andThen s r r' h _ h' := by
    rw [Latched, inputs_append, outputs_append, latchOut_append, latchEnd_append, ← h.2, h.1]
    exact ⟨congrArg _ h'.1, h'.2⟩

omit [DecidableEq V] in
/-- `processData` and the error test are one step of the latched stage. -/
theorem latch_process {n : ι} (h : s.hadError n = false) :
    latch (G.processData n) SharedDataBlock.isEopError (s.priv n, s.hadError n) sdb =
      (((G.process n sdb s).1.priv n, (G.process n sdb s).1.hadError n),
        [(G.process n sdb s).2]) := by
  cases ho : (G.processData n (s.priv n) sdb).2.isEopError <;>
    simp [latch, Graph.process, h, ho]

/-- **Every processor is a latched stage** on the blocks it is given, on any graph
and in any order of calls. -/
theorem pushData_latch (h : pushData G vis fuel src p sdb s = some r) (m : ι) : Latched G m s r := by
  refine (composable_latched G m).pushData ?_ ?_ h
  · intro _ n sdb s he
    by_cases hn : n = m
    · subst hn
      simp [Latched, inputs, outputs, he]
    · simp [Latched, inputs, outputs, hn]
  · intro _ n sdb s he
    rw [Latched, inputs_visited, outputs_visited, visited_priv, visited_hadError]
    by_cases hn : n = m
    · subst hn
      simp [latchOut, latchEnd, latch_process he]
    · simp [hn, process_of_ne hn]

/-! #### Visitors -/

/-- What the visitors make of the run is what they make of the blocks they were
called with, and an exception is that of a visitor. -/
def Visited (vis : V → StreamVisitor T ν) (s : PushState ι V σ ν) (r : Run ι V T σ ν) : Prop :=
  (r.thrown = none → ∀ v,
    foldVisits (vis v) (s.visitor v) (seenBy v r.events) = .ok (r.state.visitor v)) ∧
  (∀ e, r.thrown = some e → ∃ v,
    foldVisits (vis v) (s.visitor v) (seenBy v r.events) = .error e)

omit [DecidableEq ι] in
/-- Visitors go on from where they were left. -/
theorem composable_visited (vis : V → StreamVisitor T ν) :
    Composable (Visited vis : PushState ι V σ ν → Run ι V T σ ν → Prop) where
  nil s := ⟨fun _ _ => rfl, fun _ h => nomatch h⟩
  andThen s r r' h ht h' := by
    have hfold : ∀ v, foldVisits (vis v) (s.visitor v) (seenBy v (r.events ++ r'.events)) =
        foldVisits (vis v) (r.state.visitor v) (seenBy v r'.events) := fun v => by
      rw [seenBy_append, foldVisits_append, h.1 ht v]
    refine ⟨fun ht' v => (hfold v).trans (h'.1 ht' v), fun e he => ?_⟩
    obtain ⟨v, hv⟩ := h'.2 e he
    exact ⟨v, (hfold v).trans hv⟩

/-- **A visitor sees a stream of blocks**, and folds its `visitData` over it. -/
theorem pushData_visited (h : pushData G vis fuel src p sdb s = some r) : Visited vis s r := by
  refine (composable_visited vis).pushData (fun _ n sdb s _ => ⟨fun _ _ => rfl, fun _ h => nomatch h⟩)
    (fun src n sdb s _ => ?_) h
  have hs : (G.process n sdb s).1.visitor = s.visitor := rfl
  rw [Visited, ← hs]
  exact visitVisitors_visitors

omit [DecidableEq ι] in
/-- Where the visitors return, so does the push. -/
theorem Visited.returned (h : Visited vis s r) (hvis : ∀ v, (vis v).Returns) :
    r.thrown = none := by
  rcases Option.eq_none_or_eq_some r.thrown with ht | ⟨e, he⟩
  · exact ht
  · obtain ⟨v, hv⟩ := h.2 e he
    obtain ⟨st, hst⟩ := foldVisits_returns (hvis v) (s.visitor v) (seenBy v r.events)
    exact absurd (hv.symm.trans hst) (by simp)

/-- Visitors are called through their connections. -/
def CallsConnected (G : Graph ι V T σ) (log : List (Event ι V T)) : Prop :=
  ∀ n k v output, .visit n k v output ∈ log → (G.visitors n)[k]? = some v

omit [DecidableEq ι] [DecidableEq V] in
/-- The calls of two runs are connected if those of each are. -/
theorem composable_callsConnected (G : Graph ι V T σ) :
    Composable fun (_ : PushState ι V σ ν) (r : Run ι V T σ ν) => CallsConnected G r.events where
  nil _ := fun _ _ _ _ h => absurd h List.not_mem_nil
  andThen _ _ _ h _ h' := fun n k v output hm =>
    (List.mem_append.mp hm).elim (h n k v output) (h' n k v output)

/-- A push calls visitors through their connections only. -/
theorem pushData_callsConnected (h : pushData G vis fuel src p sdb s = some r) :
    CallsConnected G r.events := by
  refine (composable_callsConnected G).pushData (fun _ _ _ _ _ => ?_) (fun _ n sdb s _ => ?_) h
  · intro n k v output hm
    simp at hm
  · intro n' k v output hm
    simp only [Graph.visited, List.mem_cons, reduceCtorEq, false_or] at hm
    obtain ⟨rfl, -, hv⟩ := conn_of_mem_visitVisitors hm
    exact hv

/-- So does a sequence of pushes. -/
theorem pushSequence_callsConnected {pushes : List (ι × SharedDataBlock T)}
    (h : pushSequence G vis fuel pushes s = some r) : CallsConnected G r.events :=
  (composable_callsConnected G).pushSequence pushData_callsConnected h

/-- The visitor `v` is connected once, at position `k` of `n`. -/
structure ConnectedOnce (G : Graph ι V T σ) (v : V) (n : ι) (k : ℕ) : Prop where
  conn : (G.visitors n)[k]? = some v
  once : ∀ n' k', (G.visitors n')[k']? = some v → n' = n ∧ k' = k

/-- What a visitor connected once sees is what its connection carries. -/
theorem ConnectedOnce.seenBy_eq {v : V} {n : ι} {k : ℕ} (h : ConnectedOnce G v n k)
    {log : List (Event ι V T)} (hlog : CallsConnected G log) : seenBy v log = seen n k log := by
  refine List.filterMap_congr fun e he => ?_
  cases e with
  | visit n' k' v' output =>
      have hconn := hlog n' k' v' output he
      by_cases hv : v' = v
      · obtain ⟨rfl, rfl⟩ := h.once n' k' (hv ▸ hconn)
        simp [hv]
      · have hne : ¬ (n' = n ∧ k' = k) := by
          rintro ⟨rfl, rfl⟩
          exact hv (Option.some.inj (hconn.symm.trans h.conn))
        simp [hv, hne]
  | _ => rfl

/-- **The visitors hold what they were called with**, after a sequence of pushes too. -/
theorem pushSequence_visited {pushes : List (ι × SharedDataBlock T)}
    (h : pushSequence G vis fuel pushes s = some r) : Visited vis s r :=
  (composable_visited vis).pushSequence pushData_visited h

/-! #### Sinks -/

omit [DecidableEq ι] in
/-- A run in which every sink meets at most one EOP block ends without an
exception. -/
theorem Visited.returned_of_sinks (h : Visited vis s r)
    (hsinks : ∀ v, vis v = .StreamSink → (s.visitor v).promise = none ∧
      (seenBy v r.events).countP SharedDataBlock.isEndOfProcessing ≤ 1) : r.thrown = none := by
  rcases Option.eq_none_or_eq_some r.thrown with ht | ⟨e, he⟩
  · exact ht
  · obtain ⟨v, hv⟩ := h.2 e he
    by_cases hsink : vis v = .StreamSink
    · obtain ⟨hp, hc⟩ := hsinks v hsink
      rw [hsink, foldVisits_StreamSink hp, if_pos hc] at hv
      exact absurd hv (by simp)
    · obtain ⟨st, hst⟩ := foldVisits_returns (StreamVisitor.returns_of_ne hsink) (s.visitor v)
        (seenBy v r.events)
      exact absurd (hv.symm.trans hst) (by simp)

omit [DecidableEq ι] in
/-- In a run that ends without an exception a sink meets at most one EOP block,
and its promise holds the status of this block. -/
theorem Visited.sink (h : Visited vis s r) (ht : r.thrown = none) {v : V}
    (hv : vis v = .StreamSink) (hp : (s.visitor v).promise = none) :
    (seenBy v r.events).countP SharedDataBlock.isEndOfProcessing ≤ 1 ∧
      (r.state.visitor v).promise = (seenBy v r.events).findSome? SharedDataBlock.eop := by
  have hfold := h.1 ht v
  rw [hv] at hfold
  exact foldVisits_StreamSink_ok hp hfold

omit [DecidableEq ι] in
/-- It reports the status of the first EOP block that it was shown. -/
theorem Visited.reports (h : Visited vis s r) (ht : r.thrown = none) {v : V}
    (hv : vis v = .StreamSink) (hp : (s.visitor v).promise = none) :
    StreamSink.Reports (r.state.visitor v) (seenBy v r.events)
      ((seenBy v r.events).findSome? SharedDataBlock.eop) :=
  ⟨waits_promises _, (h.sink ht hv hp).2⟩

/-! #### Blocks of a kind -/

/-- `processData` keeps to blocks with `Q`. -/
def Keeps (G : Graph ι V T σ) (Q : SharedDataBlock T → Prop) : Prop :=
  ∀ n st sdb, Q sdb → Q (G.processData n st sdb).2

/-- Only blocks with `Q` are given to processors and emitted. -/
def Within (Q : SharedDataBlock T → Prop) (log : List (Event ι V T)) : Prop :=
  ∀ m, (∀ b ∈ inputs m log, Q b) ∧ ∀ b ∈ outputs m log, Q b

omit [DecidableEq V] in
/-- Two logs within `Q` make one. -/
theorem Within.append {Q : SharedDataBlock T → Prop} {log log' : List (Event ι V T)}
    (h : Within Q log) (h' : Within Q log') : Within Q (log ++ log') := by
  intro m
  simp only [inputs_append, outputs_append, List.forall_mem_append]
  exact ⟨⟨(h m).1, (h' m).1⟩, (h m).2, (h' m).2⟩

/-- The part before the loop over `processors` stays within `Q`. -/
theorem within_visited {Q : SharedDataBlock T → Prop} (hQ : Keeps G Q) (n : ι) (hsdb : Q sdb)
    (s : PushState ι V σ ν) : Within Q (G.visited vis src n sdb s).events := by
  intro m
  rw [inputs_visited, outputs_visited]
  by_cases hn : n = m
  · simpa [hn, hsdb] using hn ▸ hQ n (s.priv n) sdb hsdb
  · simp [hn]

/-- A push of a block with `Q` passes on blocks with `Q` only. -/
theorem pushData_within {Q : SharedDataBlock T → Prop} (hQ : Keeps G Q)
    (h : pushData G vis fuel src p sdb s = some r) (hsdb : Q sdb) : Within Q r.events := by
  have hnil : Within Q ([] : List (Event ι V T)) := fun m => by simp [inputs, outputs]
  refine pushData_induct (P := fun _ _ sdb _ r => Q sdb → Within Q r.events)
    (L := fun _ output _ _ _ r => Q output → Within Q r.events)
    ?_ ?_ ?_ ?_ ?_ ?_ h hsdb
  · intro _ n sdb s _ hsdb m
    by_cases hn : n = m <;> simp [inputs, outputs, hn, hsdb]
  · exact fun _ n sdb s _ _ _ hsdb => within_visited hQ n hsdb s
  · exact fun _ n sdb s r _ _ hL hsdb =>
      (within_visited hQ n hsdb s).append (hL (hQ n (s.priv n) sdb hsdb))
  · exact fun _ _ _ _ _ => hnil
  · exact fun _ _ _ _ _ _ _ _ _ _ hP _ ho => hP ho
  · exact fun _ _ _ _ _ _ _ _ _ _ hP _ hL ho => (hP ho).append (hL ho)

/-- **A property that `processData` keeps holds of every block**, if it holds of those
pushed. -/
theorem pushSequence_within {Q : SharedDataBlock T → Prop} (hQ : Keeps G Q)
    {pushes : List (ι × SharedDataBlock T)} (h : pushSequence G vis fuel pushes s = some r)
    (hpushes : ∀ x ∈ pushes, Q x.2) : Within Q r.events := by
  refine pushSequence_induct (P := fun pushes _ r => (∀ x ∈ pushes, Q x.2) → Within Q r.events)
    (fun _ _ m => by simp [inputs, outputs]) ?_ ?_ h hpushes
  · exact fun _ _ _ _ _ _ hr _ hp => pushData_within hQ hr (hp _ (List.mem_cons_self ..))
  · exact fun _ _ _ _ _ _ hr _ ih hp => (pushData_within hQ hr (hp _ (List.mem_cons_self ..))).append
      (ih fun x hx => hp x (List.mem_cons_of_mem _ hx))

end Push

end CppDataStream
