/-
# End of processing reaches the sinks

`include/cppdatastream/DataStream.hpp`, lines 130-150, 315-324 and 417-454.  A
status pushed at the entry is to be "passed all the way down the pipeline so that
all elements can handle it", and the final element reports it through `wait()`.
On a graph of `StreamNoopProcessor`s every element does get the EOP block.  But
only an `EopError` block is latched, and so passes a processor once; an EOP block
of another status passes a processor once for every path that leads to it, and a
`StreamSink` there sets its promise as often.  The second time `set_value` throws,
and the exception leaves `pushData`.

So end of processing completes iff the status is `EopError` or every sink hangs on
a processor that exactly one path leads to from the entry
(`eopCompletes_iff`); the smallest graph on which it does not is a diamond
(`not_eopCompletes_diamond`).
-/

import CppDataStream.Sync.Compose
import CppDataStream.Sync.FanIn

namespace CppDataStream

open Streams DirectedGraph Paths

/-- `StreamNoopProcessor::processData`. -/
def StreamNoopProcessor.processData {T : Type*} (st : Unit) (sdb : SharedDataBlock T) :
    Unit × SharedDataBlock T :=
  (st, sdb)

variable {ι V T ν : Type*} [DecidableEq ι] [DecidableEq V]

/-- A graph of `StreamNoopProcessor`s. -/
def noopGraph (visitors : ι → List V) (processors : ι → List ι) : Graph ι V T Unit :=
  ⟨fun _ => StreamNoopProcessor.processData, visitors, processors⟩

/-- A fresh acyclic graph of `StreamNoopProcessor`s with entry `p`, and every
sink connected once, to a processor that can be reached from the entry. -/
structure NoopPipeline (visitors : ι → List V) (processors : ι → List ι)
    (vis : V → StreamVisitor T ν) (p : ι) (s₀ : PushState ι V Unit ν) : Prop where
  acyclic : Acyclic (noopGraph (T := T) visitors processors).Adj
  sinks : ∀ v, vis v = .StreamSink → ∃ n k,
    ConnectedOnce (noopGraph (T := T) visitors processors) v n k ∧
      Relation.ReflTransGen (noopGraph (T := T) visitors processors).Adj p n
  noError : ∀ n, s₀.hadError n = false
  unset : ∀ v, (s₀.visitor v).promise = none

/-- **End of processing completes**: when the blocks `bs` and then the EOP block
`e` are pushed into `p`, no push ends in an exception, every visitor of every
reachable processor sees `e`, and every sink reports the status of `e` to every wait on
it, whenever it is called. -/
def EopCompletes (visitors : ι → List V) (processors : ι → List ι) (vis : V → StreamVisitor T ν)
    (p : ι) (bs : List (SharedDataBlock T)) (e : SharedDataBlock T) (s₀ : PushState ι V Unit ν) :
    Prop :=
  ∃ fuel r,
    pushSequence (noopGraph visitors processors) vis fuel ((bs ++ [e]).map fun b => (p, b)) s₀ =
      some r ∧ r.thrown = none ∧
    (∀ n, Relation.ReflTransGen (noopGraph (T := T) visitors processors).Adj p n →
      ∀ k, k < (visitors n).length → e ∈ seen n k r.events) ∧
    ∀ v, vis v = .StreamSink → StreamSink.Reports (r.state.visitor v) (seenBy v r.events) e.eop

/-! ### Where an EOP block arrives -/

section Reach

variable {σ : Type*} {G : Graph ι V T σ} {vis : V → StreamVisitor T ν} {fuel : ℕ}

omit [DecidableEq V] in
/-- What is given through a connection is given. -/
theorem mem_inputs_of_inputsFrom {n : ι} {src : Source ι} {log : List (Event ι V T)}
    {b : SharedDataBlock T} (h : b ∈ inputsFrom n src log) : b ∈ inputs n log := by
  obtain ⟨e, he, hb⟩ := List.mem_filterMap.mp h
  refine List.mem_filterMap.mpr ⟨e, he, ?_⟩
  cases e with
  | call src' n' sdb =>
      by_cases hn : n' = n ∧ src' = src
      · simpa [hn] using hb
      · simp [hn] at hb
  | _ => simp at hb

/-- **A push that returns reaches everything downstream** of where it enters, when
no processor has failed before. -/
theorem outputs_ne_nil_of_reachable (hG : Acyclic G.Adj) {p : ι} {sdb : SharedDataBlock T}
    {s : PushState ι V σ ν} {r : Run ι V T σ ν}
    (h : pushData G vis fuel .external p sdb s = some r) (ht : r.thrown = none)
    (hs : ∀ n, s.hadError n = false) {n : ι} (hn : Relation.ReflTransGen G.Adj p n) :
    outputs n r.events ≠ [] := by
  have hemit : ∀ (m : ι) (src : Source ι) (l : List (SharedDataBlock T)), l ≠ [] →
      l <+: inputsFrom m src r.events → outputs m r.events ≠ [] := by
    intro m src l hl hpre
    obtain ⟨b, l, rfl⟩ := List.exists_cons_of_ne_nil hl
    rw [(pushData_latch h m).1, hs m]
    refine latchOut_ne_nil (List.ne_nil_of_mem (a := b) ?_) _
    exact mem_inputs_of_inputsFrom (hpre.subset (List.mem_cons_self ..))
  induction hn with
  | refl =>
      have hin := pushData_inputsFrom h p .external (by simp)
      rw [ht] at hin
      refine hemit p .external [sdb] (by simp) ?_
      rw [hin]
      simp
  | @tail m c _ hmc ih =>
      obtain ⟨k, hk⟩ := List.mem_iff_getElem?.mp hmc
      have hin := pushData_inputsFrom h c (.connection m k) fun m _ _ => hG m
      rw [ht] at hin
      refine hemit c (.connection m k) (outputs m r.events) ih ?_
      rw [hin]
      simp [copies, show G.Conn m k c from hk]

end Reach

/-! ### How often it arrives -/

section Noop

variable {visitors : ι → List V} {processors : ι → List ι} {vis : V → StreamVisitor T ν} {fuel : ℕ}
  {p : ι} {s : PushState ι V Unit ν} {r : Run ι V T Unit ν}

omit [DecidableEq ι] [DecidableEq V] in
/-- Processors that do nothing keep every property of blocks. -/
theorem keeps_noopGraph (Q : SharedDataBlock T → Prop) : Keeps (noopGraph visitors processors) Q :=
  fun _ _ _ h => h

omit [DecidableEq ι] [DecidableEq V] in
/-- They need no state for blocks that are no errors. -/
theorem statelessOn_noopGraph :
    StatelessOn (noopGraph (T := T) visitors processors) (fun sdb => sdb.isEopError = false)
      (fun _ sdb => sdb) where
  output _ _ _ _ := rfl
  keeps _ _ h := h
  noError _ _ h := h

/-- An `EopError` block passes a processor once. -/
theorem length_outputs_le_one {e : SharedDataBlock T} (he : e.isEopError = true)
    (h : pushData (noopGraph visitors processors) vis fuel .external p e s = some r) (n : ι) :
    (outputs n r.events).length ≤ 1 := by
  have hin := (pushData_within (keeps_noopGraph (· = e)) h rfl n).1
  rw [(pushData_latch h n).1]
  refine length_latchOut_le_one (fun st b hb => ?_) _
  rw [hin b hb]
  exact he

/-- Any other block passes a processor along paths to it, and along all of them
unless an exception ends the push. -/
theorem exists_paths_of_outputs {e : SharedDataBlock T} (he : e.isEopError = false)
    (h : pushData (noopGraph visitors processors) vis fuel .external p e s = some r)
    (hs : ∀ n, s.hadError n = false) (n : ι) :
    ∃ ps : List (List ℕ), ps.Nodup ∧ (outputs n r.events).length = ps.length ∧
      (∀ π ∈ ps, walk processors p π = some n) ∧
      (r.thrown = none → ∀ π, walk processors p π = some n → π ∈ ps) := by
  obtain ⟨ps, hps, hnil⟩ := (pushData_outputs_along statelessOn_noopGraph he h hs).2 n
  refine ⟨ps, hps.sorted.imp fun hlt => ne_of_lt hlt, ?_, hps.sound, fun ht π hπ => ?_⟩
  · rw [hps.outputs_eq, List.length_map]
  · exact ((hps.pathsInOrder ht hnil).mem_iff π).mpr hπ

/-- A processor that one path leads to is passed at most once. -/
theorem length_outputs_le_one_of_unique {e : SharedDataBlock T} (he : e.isEopError = false)
    (h : pushData (noopGraph visitors processors) vis fuel .external p e s = some r)
    (hs : ∀ n, s.hadError n = false) {n : ι} (hn : ∃! π, walk processors p π = some n) :
    (outputs n r.events).length ≤ 1 := by
  obtain ⟨ps, hnodup, hlen, hsound, -⟩ := exists_paths_of_outputs he h hs n
  obtain ⟨π₀, -, huniq⟩ := hn
  have hsub : ps ⊆ [π₀] := fun π hπ => List.mem_singleton.mpr (huniq π (hsound π hπ))
  rw [hlen]
  exact (List.subperm_of_subset hnodup hsub).length_le

/-- And one that is passed at most once is one that one path leads to. -/
theorem unique_of_length_outputs_le_one {e : SharedDataBlock T} (he : e.isEopError = false)
    (h : pushData (noopGraph visitors processors) vis fuel .external p e s = some r)
    (hs : ∀ n, s.hadError n = false) (ht : r.thrown = none) {n : ι}
    (hn : Relation.ReflTransGen (noopGraph (T := T) visitors processors).Adj p n)
    (hlen : (outputs n r.events).length ≤ 1) : ∃! π, walk processors p π = some n := by
  obtain ⟨ps, -, hlen', -, hall⟩ := exists_paths_of_outputs he h hs n
  obtain ⟨π₀, hπ₀⟩ := exists_walk hn
  refine ⟨π₀, hπ₀, fun π hπ => ?_⟩
  have h₀ := hall ht π₀ hπ₀
  have h₁ := hall ht π hπ
  obtain ⟨π', rfl⟩ : ∃ π', ps = [π'] := by
    rw [← List.length_eq_one_iff]
    have := List.length_pos_of_mem h₀
    omega
  rw [List.mem_singleton.mp h₀, List.mem_singleton.mp h₁]

/-! ### The run -/

/-- A run of the whole stream: the blocks before the EOP block return and leave
everything unmarked and every promise unset, then the EOP block is pushed. -/
structure EopRun (visitors : ι → List V) (processors : ι → List ι) (vis : V → StreamVisitor T ν)
    (p : ι) (bs : List (SharedDataBlock T)) (e : SharedDataBlock T) (s₀ : PushState ι V Unit ν)
    (fuel : ℕ) (r₁ r₂ : Run ι V T Unit ν) : Prop where
  whole : pushSequence (noopGraph visitors processors) vis fuel ((bs ++ [e]).map fun b => (p, b)) s₀ =
    some { r₂ with events := r₁.events ++ r₂.events }
  last : pushData (noopGraph visitors processors) vis fuel .external p e r₁.state = some r₂
  noError : ∀ n, r₁.state.hadError n = false
  before : ∀ n k, k < (visitors n).length → ∀ b ∈ seen n k r₁.events, b.isEndOfProcessing = false
  connected : CallsConnected (noopGraph visitors processors) r₁.events

/-- There is such a run, with enough fuel. -/
theorem exists_eopRun [Finite ι] {s₀ : PushState ι V Unit ν}
    (hP : NoopPipeline visitors processors vis p s₀) {bs : List (SharedDataBlock T)}
    (hbs : ∀ b ∈ bs, b.isEndOfProcessing = false) (e : SharedDataBlock T) :
    ∃ fuel r₁ r₂, EopRun visitors processors vis p bs e s₀ fuel r₁ r₂ := by
  obtain ⟨f₁, hf₁⟩ := exists_fuel_sequence (bs.map fun b => (p, b)) fun x _ =>
    exists_fuel (σ := Unit) vis hP.acyclic.wellFounded x.1
  obtain ⟨f₂, hf₂⟩ := exists_fuel (σ := Unit) vis hP.acyclic.wellFounded p
  obtain ⟨r₁, h₁⟩ := Option.isSome_iff_exists.mp (hf₁ s₀)
  obtain ⟨r₂, h₂⟩ := Option.isSome_iff_exists.mp (hf₂ .external e r₁.state)
  replace h₁ := pushSequence_mono (le_max_left f₁ f₂) h₁
  replace h₂ := pushData_mono (le_max_right f₁ f₂) h₂
  have hwithin : Within (fun b : SharedDataBlock T => b.isEndOfProcessing = false) r₁.events :=
    pushSequence_within (keeps_noopGraph _) h₁ (by simpa using hbs)
  have hconn := pushSequence_callsConnected h₁
  have hbefore : ∀ n k, k < (visitors n).length → ∀ b ∈ seen n k r₁.events,
      b.isEndOfProcessing = false := fun n k hk b hb =>
    (hwithin n).2 b (((composable_seenOutputs n k).pushSequence (fun h => pushData_seen h hk)
      h₁).isPrefix.subset hb)
  have ht₁ : r₁.thrown = none := by
    refine (pushSequence_visited h₁).returned_of_sinks fun v hv => ⟨hP.unset v, ?_⟩
    obtain ⟨n, k, honce, -⟩ := hP.sinks v hv
    rw [honce.seenBy_eq hconn, List.countP_eq_zero.mpr fun b hb => by
      simp [hbefore n k (List.getElem?_eq_some_iff.mp honce.conn).1 b hb]]
    exact Nat.zero_le 1
  refine ⟨_, r₁, r₂, ?_, h₂, fun n => ?_, hbefore, hconn⟩
  · rw [List.map_append]
    exact pushSequence_append h₁ ht₁ (pushSequence_singleton h₂)
  · have hl := congrArg Prod.snd ((composable_latched _ n).pushSequence
      (fun h => pushData_latch h n) h₁).2
    rw [hP.noError n, latchEnd_of_forall fun st b hb =>
      SharedDataBlock.isEopError_eq_false ((hwithin n).1 b hb)] at hl
    exact hl

variable {bs : List (SharedDataBlock T)} {e : SharedDataBlock T} {s₀ : PushState ι V Unit ν}
  {r₁ r₂ : Run ι V T Unit ν}

/-- A sink meets no EOP block before the last push, and in that push one for every
block its processor emits, up to an exception. -/
theorem EopRun.countP_seenBy (h : EopRun visitors processors vis p bs e s₀ fuel r₁ r₂)
    (he : e.isEndOfProcessing = true) {v : V} {n : ι} {k : ℕ}
    (honce : ConnectedOnce (noopGraph (T := T) visitors processors) v n k) :
    (seenBy v (r₁.events ++ r₂.events)).countP SharedDataBlock.isEndOfProcessing =
        (seen n k r₂.events).length ∧
      Upto r₂.thrown.isSome (seen n k r₂.events) (outputs n r₂.events) ∧
      (seenBy v (r₁.events ++ r₂.events)).findSome? SharedDataBlock.eop =
        if seen n k r₂.events = [] then none else e.eop := by
  have hk : k < (visitors n).length := (List.getElem?_eq_some_iff.mp honce.conn).1
  have hseen := pushData_seen h.last hk
  have hall : ∀ b ∈ seen n k r₂.events, b = e := fun b hb =>
    (pushData_within (keeps_noopGraph (· = e)) h.last rfl n).2 b (hseen.isPrefix.subset hb)
  have hnone : (seen n k r₁.events).findSome? SharedDataBlock.eop = none :=
    List.findSome?_eq_none_iff.mpr fun b hb => by
      simpa [SharedDataBlock.isEndOfProcessing] using h.before n k hk b hb
  rw [seenBy_append, honce.seenBy_eq h.connected, honce.seenBy_eq (pushData_callsConnected h.last)]
  refine ⟨?_, hseen, ?_⟩
  · rw [List.countP_append, List.countP_eq_zero.mpr fun b hb => by simp [h.before n k hk b hb],
      Nat.zero_add, List.countP_eq_length]
    exact fun b hb => hall b hb ▸ he
  · rw [List.findSome?_append, hnone, Option.none_or]
    cases hl : seen n k r₂.events with
    | nil => simp
    | cons b l =>
        obtain rfl := hall b (hl ▸ List.mem_cons_self ..)
        obtain ⟨eop, hb⟩ := SharedDataBlock.exists_eop he
        simp [hb]

/-- The last push returns if no sink meets a second EOP block. -/
theorem EopRun.returned (hP : NoopPipeline visitors processors vis p s₀)
    (h : EopRun visitors processors vis p bs e s₀ fuel r₁ r₂) (he : e.isEndOfProcessing = true)
    (hone : ∀ v n k, vis v = .StreamSink →
      ConnectedOnce (noopGraph (T := T) visitors processors) v n k →
      (outputs n r₂.events).length ≤ 1) : r₂.thrown = none := by
  refine Visited.returned_of_sinks (s := s₀) (r := { r₂ with events := r₁.events ++ r₂.events })
    (pushSequence_visited h.whole) fun v hv => ⟨hP.unset v, ?_⟩
  obtain ⟨n, k, honce, -⟩ := hP.sinks v hv
  obtain ⟨hcount, hseen, -⟩ := h.countP_seenBy he honce
  rw [hcount]
  exact hseen.isPrefix.length_le.trans (hone v n k hv honce)

/-- And if it returns, none has met one. -/
theorem EopRun.length_outputs_le_one (hP : NoopPipeline visitors processors vis p s₀)
    (h : EopRun visitors processors vis p bs e s₀ fuel r₁ r₂) (he : e.isEndOfProcessing = true)
    (ht : r₂.thrown = none) {v : V} {n : ι} {k : ℕ} (hv : vis v = .StreamSink)
    (honce : ConnectedOnce (noopGraph (T := T) visitors processors) v n k) :
    (outputs n r₂.events).length ≤ 1 := by
  obtain ⟨hcount, hseen, -⟩ := h.countP_seenBy he honce
  rw [ht] at hseen
  rw [← show seen n k r₂.events = outputs n r₂.events from hseen, ← hcount]
  exact ((pushSequence_visited h.whole).sink ht hv (hP.unset v)).1

/-- A last push that returns shows the EOP block, and no other, to every visitor of
every reachable processor. -/
theorem EopRun.arrives (hP : NoopPipeline visitors processors vis p s₀)
    (h : EopRun visitors processors vis p bs e s₀ fuel r₁ r₂) (ht : r₂.thrown = none) {n : ι}
    (hn : Relation.ReflTransGen (noopGraph (T := T) visitors processors).Adj p n) {k : ℕ}
    (hk : k < (visitors n).length) : seen n k r₂.events ≠ [] ∧ ∀ b ∈ seen n k r₂.events, b = e := by
  have hseen := pushData_seen h.last hk
  rw [SeenOutputs, ht] at hseen
  rw [show seen n k r₂.events = outputs n r₂.events from hseen]
  exact ⟨outputs_ne_nil_of_reachable hP.acyclic h.last ht h.noError hn,
    (pushData_within (keeps_noopGraph (· = e)) h.last rfl n).2⟩

/-- **End of processing completes iff no sink can be reached twice.**  On a finite
acyclic graph of `StreamNoopProcessor`s, none of them failed, with every sink
connected once to a processor reachable from the entry `p`, a stream that ends in
its only EOP block completes every sink iff that block is an `EopError` block or
exactly one path leads from `p` to the processor of each sink. -/
theorem eopCompletes_iff [Finite ι] (hP : NoopPipeline visitors processors vis p s₀)
    (hbs : ∀ b ∈ bs, b.isEndOfProcessing = false) (he : e.isEndOfProcessing = true) :
    EopCompletes visitors processors vis p bs e s₀ ↔
      e.isEopError = true ∨ ∀ v n k, vis v = .StreamSink →
        ConnectedOnce (noopGraph (T := T) visitors processors) v n k →
        ∃! π, walk processors p π = some n := by
  obtain ⟨fuel, r₁, r₂, hrun⟩ := exists_eopRun hP hbs e
  constructor
  · rintro ⟨fuel', r, hr, ht, -, -⟩
    obtain rfl := pushSequence_unique hr hrun.whole
    rcases Bool.eq_false_or_eq_true e.isEopError with herr | herr
    · exact Or.inl herr
    · refine Or.inr fun v n k hv honce => ?_
      obtain ⟨n', k', honce', hreach⟩ := hP.sinks v hv
      obtain ⟨rfl, rfl⟩ := honce'.once n k honce.conn
      exact unique_of_length_outputs_le_one herr hrun.last hrun.noError ht hreach
        (hrun.length_outputs_le_one hP he ht hv honce)
  · intro hcond
    have ht : r₂.thrown = none := by
      refine hrun.returned hP he fun v n k hv honce => ?_
      rcases Bool.eq_false_or_eq_true e.isEopError with herr | herr
      · exact length_outputs_le_one herr hrun.last n
      · have huniq := hcond.resolve_left (by simp [herr])
        exact length_outputs_le_one_of_unique herr hrun.last hrun.noError (huniq v n k hv honce)
    refine ⟨fuel, _, hrun.whole, ht, fun n hn k hk => ?_, fun v hv => ?_⟩
    · obtain ⟨hne, hall⟩ := hrun.arrives hP ht hn hk
      obtain ⟨b, l, hl⟩ := List.exists_cons_of_ne_nil hne
      have hb : b ∈ seen n k r₂.events := hl ▸ List.mem_cons_self ..
      rw [seen_append]
      exact List.mem_append_right _ (hall b hb ▸ hb)
    · obtain ⟨n, k, honce, hreach⟩ := hP.sinks v hv
      have hne := (hrun.arrives hP ht hreach (List.getElem?_eq_some_iff.mp honce.conn).1).1
      have hfind := (hrun.countP_seenBy he honce).2.2
      rw [if_neg hne] at hfind
      exact hfind ▸ (pushSequence_visited hrun.whole).reports ht hv (hP.unset v)

end Noop

/-! ### The diamond -/

/-- One visitor, on the processor where the branches of the diamond meet. -/
def diamondVisitors : Fin 4 → List Unit
  | 0 | 1 | 2 => []
  | 3 => [()]

/-- Before the first push. -/
def diamondFresh : PushState (Fin 4) Unit Unit Unit := ⟨fun _ => (), fun _ => false, fun _ => ⟨none, ()⟩⟩

/-- The diamond with fresh processors is such a pipeline. -/
theorem noopPipeline_diamond : NoopPipeline (T := ℕ) diamondVisitors diamond
    (fun _ => .StreamSink) 0 diamondFresh where
  acyclic := acyclic_diamond
  sinks v _ := by
    refine ⟨3, 0, ⟨rfl, fun n k hk => ?_⟩, ?_⟩
    · have hlt : k < (diamondVisitors n).length := (List.getElem?_eq_some_iff.mp hk).1
      have hvisited : ∀ n, 0 < (diamondVisitors n).length → n = 3 ∧ (diamondVisitors n).length = 1 := by
        decide
      obtain ⟨hn, hlen⟩ := hvisited n (by omega)
      exact ⟨hn, by omega⟩
    · exact reachable_of_walk (show walk diamond 0 [0, 0] = some 3 from rfl)
  noError _ := rfl
  unset _ := rfl

/-- The status of the EOP block is an error, and the diamond gets it once. -/
theorem eopCompletes_diamond_error : EopCompletes (T := ℕ) diamondVisitors diamond
    (fun _ => .StreamSink) 0 [⟨some 7, none⟩] ⟨none, some ⟨.EopError, "lost"⟩⟩ diamondFresh :=
  (eopCompletes_iff noopPipeline_diamond (by simp [SharedDataBlock.isEndOfProcessing]) rfl).mpr
    (Or.inl rfl)

/-- **A successful end of processing does not complete the sink of a diamond**:
the second `EopSuccess` block makes its promise throw. -/
theorem not_eopCompletes_diamond :
    NoopPipeline (T := ℕ) diamondVisitors diamond (fun _ => .StreamSink) 0 diamondFresh ∧
      ¬ EopCompletes (T := ℕ) diamondVisitors diamond (fun _ => .StreamSink) 0
        [⟨some 7, none⟩] ⟨none, some ⟨.EopSuccess, ""⟩⟩ diamondFresh := by
  refine ⟨noopPipeline_diamond, fun ⟨fuel, r, hr, ht, _⟩ => ?_⟩
  have hthrown : (pushSequence (T := ℕ) (noopGraph diamondVisitors diamond)
      (fun _ => .StreamSink) 3 [(0, ⟨some 7, none⟩), (0, ⟨none, some ⟨.EopSuccess, ""⟩⟩)]
      diamondFresh).map Run.thrown = some (some .future_error) := by decide
  obtain ⟨r', hr', ht'⟩ := Option.map_eq_some_iff.mp hthrown
  obtain rfl := pushSequence_unique hr hr'
  exact absurd (ht.symm.trans ht') (by simp)

end CppDataStream
