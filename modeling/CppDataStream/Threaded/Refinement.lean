/-
# Threads change nothing that a visitor sees

A pipeline with its buffers replaced by `StreamNoopProcessor`s (`Pipeline.unbuffered`)
runs on one thread, as in `CppDataStream.Sync.PushData`.  On a tree both runs compute
the streams of `CppDataStream.Threaded.Tree`: the synchronous one all of them
(`IsTree.sync_inputs`), any interleaving prefixes of them, and all of them once every
thread has returned.  So the visitors cannot tell the two apart
(`threaded_refines_synchronous`).  The visitors of the buffered run only record what
they are shown: a `StreamSink` throws at a second end-of-processing block, and none is
shown one.
-/

import CppDataStream.Threaded.Tree
import CppDataStream.Sync.Chain
import CppDataStream.Sync.EndOfProcessing

namespace CppDataStream

open Streams

namespace Pipeline

variable {ι V T σ ν : Type*} [DecidableEq ι] [DecidableEq V]

/-- Every `StreamThreadedBuffer` is replaced by a `StreamNoopProcessor`. -/
def unbuffered (P : Pipeline ι V T σ) : Graph ι V T σ where
  processData n st sdb :=
    if P.IsBuffer n then (st, (StreamNoopProcessor.processData () sdb).2) else P.processData n st sdb
  visitors := P.visitors
  processors := P.processors

omit [DecidableEq ι] [DecidableEq V] in
/-- `processData` of a buffer is that of a `StreamNoopProcessor` as it is. -/
theorem unbuffered_eq (P : Pipeline ι V T σ) : P.unbuffered = P.toGraph := by
  unfold unbuffered
  congr
  funext n st sdb
  split_ifs with hn
  · rw [P.processData_buffer n hn]
    rfl
  · rfl

variable {P : Pipeline ι V T σ} {priv : ι → σ} {bs : List (SharedDataBlock T)} {S : State ι V T σ}
  {vis : V → StreamVisitor T ν} {fuel : ℕ} {s₀ : PushState ι V σ ν} {r : Run ι V T σ ν}

/-! ### The synchronous run -/

/-- The elements of a tree are given their streams, up to an exception. -/
theorem IsTree.sync_inputs (hT : P.IsTree)
    (hr : pushSequence P.toGraph vis fuel (bs.map fun b => (P.entry, b)) s₀ = some r)
    (hnoError : ∀ n, s₀.hadError n = false) {n : ι} {l : List (SharedDataBlock T)}
    (hl : P.StreamAt s₀.priv bs n l) :
    Upto r.thrown.isSome (inputs n r.events) l ∧
      Upto r.thrown.isSome (outputs n r.events)
        (latchOut (P.processData n) SharedDataBlock.isEopError (s₀.priv n, false) l) := by
  have hout : ∀ {n l}, Upto r.thrown.isSome (inputs n r.events) l →
      Upto r.thrown.isSome (outputs n r.events)
        (latchOut (P.processData n) SharedDataBlock.isEopError (s₀.priv n, false) l) := by
    intro n l hin
    have hlatch := ((composable_latched P.toGraph n).pushSequence (fun h => pushData_latch h n) hr).1
    rw [hnoError n] at hlatch
    rw [hlatch]
    exact hin.latchOut _
  suffices hin : Upto r.thrown.isSome (inputs n r.events) l from ⟨hin, hout hin⟩
  induction hl with
  | entry =>
      have hin := pushSequence_inputsFrom hr P.entry .external (by simp)
      rw [show incoming P.toGraph (bs.map fun b => (P.entry, b)) r.events P.entry .external = bs by
        simp [incoming, pushedInto, List.filterMap_map]] at hin
      rwa [inputs_eq_inputsFrom fun src b hb => ?_]
      rcases pushSequence_calls hr hb with ⟨rfl, -⟩ | ⟨m, k, -, hconn, -⟩
      · rfl
      · exact absurd hconn.adj (hT.root m)
  | @conn m n k l _ hmn ih =>
      have hin := pushSequence_inputsFrom hr n (.connection m k) fun m' k' h => by
        obtain ⟨rfl, -⟩ := Source.connection.inj h
        exact hT.acyclic m
      rw [show incoming P.toGraph (bs.map fun b => (P.entry, b)) r.events n (.connection m k) =
        outputs m r.events from if_pos hmn] at hin
      rw [inputs_eq_inputsFrom fun src b hb => ?_]
      · exact hin.trans (hout ih)
      · rcases pushSequence_calls hr hb with ⟨-, hn⟩ | ⟨m', k', rfl, hconn, -⟩
        · exact absurd hn (hT.ne_entry hmn)
        · obtain ⟨rfl, rfl⟩ := hT.parent hmn hconn
          rfl

/-- A visitor that is connected once is shown the stream that its element computes,
up to an exception. -/
theorem IsTree.sync_seenBy (hT : P.IsTree)
    (hr : pushSequence P.toGraph vis fuel (bs.map fun b => (P.entry, b)) s₀ = some r)
    (hnoError : ∀ n, s₀.hadError n = false) {v : V} {n : ι} {k : ℕ} (hv : ConnectedOnce P.toGraph v n k)
    {l : List (SharedDataBlock T)} (hl : P.StreamAt s₀.priv bs n l) :
    Upto r.thrown.isSome (seenBy v r.events)
      (latchOut (P.processData n) SharedDataBlock.isEopError (s₀.priv n, false) l) := by
  have hk : k < (P.visitors n).length := (List.getElem?_eq_some_iff.mp hv.conn).1
  rw [hv.seenBy_eq (pushSequence_callsConnected hr)]
  exact Upto.trans ((composable_seenOutputs n k).pushSequence (fun h => pushData_seen h hk) hr)
    (hT.sync_inputs hr hnoError hl).2

/-- **The synchronous run of a tree returns**, and shows every visitor what its
element computes. -/
theorem IsTree.exists_sync_run [Finite ι] (hT : P.IsTree)
    (hproto : ∀ n, ¬ P.IsBuffer n → KeepsProtocol (P.processData n))
    (hbs : Ended SharedDataBlock.isEndOfProcessing bs)
    (honce : ∀ v, ∃ n k, ConnectedOnce P.toGraph v n k) (vis : V → StreamVisitor T ν)
    (hnoError : ∀ n, s₀.hadError n = false) (hunset : ∀ v, (s₀.visitor v).promise = none) :
    ∃ fuel r, pushSequence P.toGraph vis fuel (bs.map fun b => (P.entry, b)) s₀ = some r ∧
      r.thrown = none ∧ ∀ v n k l, ConnectedOnce P.toGraph v n k → P.StreamAt s₀.priv bs n l →
        seenBy v r.events =
          latchOut (P.processData n) SharedDataBlock.isEopError (s₀.priv n, false) l := by
  obtain ⟨fuel, hfuel⟩ := exists_fuel_sequence (bs.map fun b => (P.entry, b)) fun x _ =>
    exists_fuel (σ := σ) vis hT.acyclic.wellFounded x.1
  obtain ⟨r, hr⟩ := Option.isSome_iff_exists.mp (hfuel s₀)
  have ht : r.thrown = none := by
    refine (pushSequence_visited hr).returned_of_sinks fun v _ => ⟨hunset v, ?_⟩
    obtain ⟨n, k, hv⟩ := honce v
    obtain ⟨l, hl⟩ := hT.exists_streamAt s₀.priv bs n
    have hended := (keepsProtocol hproto n).ended (s₀.priv n) (hl.ended hproto hbs)
    exact hended.countP_eq_one ▸ (hT.sync_seenBy hr hnoError hv hl).isPrefix.sublist.countP_le
  refine ⟨fuel, r, hr, ht, fun v n k l hv hl => ?_⟩
  have hseen := hT.sync_seenBy hr hnoError hv hl
  rw [ht] at hseen
  exact hseen

/-! ### Interleavings -/

omit [DecidableEq V] in
/-- Visitors are called through their connections. -/
theorem Reachable.callsConnected (h : P.Reachable priv bs S) : CallsConnected P.toGraph S.log := by
  refine h.induct (I := fun S => CallsConnected P.toGraph S.log)
    (fun _ _ _ _ hmem => absurd hmem List.not_mem_nil)
    fun S t f rest e _ ih _ hexec _ n k v output hmem => ?_
  rcases List.mem_append.mp hmem with hmem | hmem
  · exact ih n k v output hmem
  · cases hexec with
    | visit _ _ _ _ hv =>
        obtain ⟨rfl, rfl, rfl, -⟩ := Event.visit.inj (List.mem_singleton.mp hmem)
        exact hv
    | _ => simp at hmem

/-- Every thread has returned. -/
def Finished (S : State ι V T σ) : Prop := ∀ t, S.stack t = []

/-- At every moment a visitor that is connected once has been shown a prefix of what
its element computes, and in the end all of it. -/
theorem IsTree.seenBy_isPrefix (hT : P.IsTree)
    (hproto : ∀ n, ¬ P.IsBuffer n → KeepsProtocol (P.processData n))
    (hbs : Ended SharedDataBlock.isEndOfProcessing bs) (h : P.Reachable priv bs S) {v : V} {n : ι}
    {k : ℕ} (hv : ConnectedOnce P.toGraph v n k) {l : List (SharedDataBlock T)}
    (hl : P.StreamAt priv bs n l) :
    seenBy v S.log <+: latchOut (P.processData n) SharedDataBlock.isEopError (priv n, false) l ∧
      (Finished S → seenBy v S.log =
        latchOut (P.processData n) SharedDataBlock.isEopError (priv n, false) l) := by
  have hk : k < (P.visitors n).length := (List.getElem?_eq_some_iff.mp hv.conn).1
  obtain ⟨r, hr⟩ := hT.exists_upstream n
  have hseen := h.seen_add (hT.uniform n) hr hk
  rw [hv.seenBy_eq h.callsConnected]
  refine ⟨List.IsPrefix.trans ⟨_, hseen⟩ (hT.outputs_isPrefix h (hT.inputs_isPrefix h hl)),
    fun hfin => ?_⟩
  rw [hfin, List.flatMap_nil, List.append_nil] at hseen
  rw [hseen]
  exact (hT.quiet hproto hbs h (fun t => Or.inl (hfin t)) hl).outputs

/-- **Threaded pipelines refine synchronous ones.**  On a finite tree of processors
that keep the protocol and of buffers, with every visitor connected once, blocks that
end with their one end-of-processing block go through the unbuffered pipeline without
an exception; and in every interleaving every visitor of the buffered one has been
shown a prefix of what it is shown there, and all of it once every thread has
returned. -/
theorem threaded_refines_synchronous [Finite ι] (hT : P.IsTree)
    (hproto : ∀ n, ¬ P.IsBuffer n → KeepsProtocol (P.processData n))
    (hbs : Ended SharedDataBlock.isEndOfProcessing bs)
    (honce : ∀ v, ∃ n k, ConnectedOnce P.unbuffered v n k) (vis : V → StreamVisitor T ν)
    (hnoError : ∀ n, s₀.hadError n = false) (hunset : ∀ v, (s₀.visitor v).promise = none) :
    ∃ fuel r, pushSequence P.unbuffered vis fuel (bs.map fun b => (P.entry, b)) s₀ = some r ∧
      r.thrown = none ∧ ∀ S, P.Reachable s₀.priv bs S → ∀ v,
        seenBy v S.log <+: seenBy v r.events ∧ (Finished S → seenBy v S.log = seenBy v r.events) := by
  rw [unbuffered_eq] at honce ⊢
  obtain ⟨fuel, r, hr, ht, hsync⟩ := hT.exists_sync_run hproto hbs honce vis hnoError hunset
  refine ⟨fuel, r, hr, ht, fun S h v => ?_⟩
  obtain ⟨n, k, hv⟩ := honce v
  obtain ⟨l, hl⟩ := hT.exists_streamAt s₀.priv bs n
  rw [hsync v n k l hv hl]
  exact hT.seenBy_isPrefix hproto hbs h hv hl

/-- A sink on every element of the tree of four: where the processor fails, the sink
behind the buffer still sees the whole stream. -/
theorem threaded_refines_synchronous_bufferedTree :
    ∃ fuel r, pushSequence bufferedTree.unbuffered (fun _ => .StreamSink) fuel
        ([⟨some 1, none⟩, ⟨some 2, none⟩, ⟨none, some {}⟩].map fun b => (.root, b))
        (⟨fun _ => 0, fun _ => false, fun _ => ⟨none, ()⟩⟩ : PushState TreeElement TreeElement ℕ Unit) =
          some r ∧
      r.thrown = none ∧
      ∀ S, bufferedTree.Reachable (fun _ => 0) [⟨some 1, none⟩, ⟨some 2, none⟩, ⟨none, some {}⟩] S →
        ∀ v, seenBy v S.log <+: seenBy v r.events ∧
          (Finished S → seenBy v S.log = seenBy v r.events) := by
  refine threaded_refines_synchronous isTree_bufferedTree (fun n _ => keepsProtocol_bufferedTree n)
    ⟨[⟨some 1, none⟩, ⟨some 2, none⟩], ⟨none, some {}⟩, rfl, by decide, rfl⟩
    (fun v => ⟨v, 0, rfl, fun n k h => ?_⟩) (fun _ => .StreamSink) (fun _ => rfl) (fun _ => rfl)
  rcases k with _ | k
  · exact ⟨Option.some.inj h, rfl⟩
  · exact absurd h (by simp [unbuffered, bufferedTree])

end Pipeline
end CppDataStream
