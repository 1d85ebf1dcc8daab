/-
# Conservation in one buffer

`include/cppdatastream/DataStream.hpp`, lines 255-270 and 341-368.  Between the call
of `pushData` of a `StreamThreadedBuffer` and the call of the base class by its
worker, a block is on the stack of the pushing thread, in the queue, or held by the
worker (`Frame.toEnqueue`, `queue`, `Frame.toDeliver`), and these come in the order
of the pushes.  That is two ledgers with the queue between them.

`Reachable.upToEop` bounds what the worker takes by the first end-of-processing
block; what the base class has latched is then never an error while a block is
delivered (`Reachable.not_discarded`), as `processData` of a buffer returns its
argument.
-/

import CppDataStream.Threaded.Element
import CppDataStream.Library.Digraph
import Mathlib.Data.Fin.VecNotation

namespace CppDataStream

open Streams

namespace Pipeline

variable {ι V T σ : Type*} [DecidableEq ι] {P : Pipeline ι V T σ} {priv : ι → σ}
  {bs : List (SharedDataBlock T)} {S : State ι V T σ} {c : ι} {l : List ι}

/-- The block that the worker of `c` has dequeued and not delivered. -/
def held (c : ι) (S : State ι V T σ) : List (SharedDataBlock T) :=
  (S.stack (.worker c 0)).flatMap (Frame.toDeliver c)

/-- **Nothing is lost, doubled or reordered between the two sides of the queue.** -/
theorem Reachable.fifo (h : P.Reachable priv bs S) (hc : P.Uniform c) (hl : P.Upstream c l)
    (hbuf : P.IsBuffer c) :
    enqueued c S.log = delivered c S.log ++ held c S ++ S.shared.queue c := by
  rw [held, h.delivered_add hc hl hbuf]
  exact (h.queue c).1

omit [DecidableEq ι] in
/-- In a call of `pushData` nothing is still to be delivered. -/
theorem toDeliver_of_call [DecidableEq ι] {f : Frame ι T} (hf : f.Call) : f.toDeliver c = [] := by
  cases f with
  | deliver => exact absurd hf id
  | _ => rfl

/-- The worker holds a block while no end-of-processing block has been delivered. -/
theorem InRun.held {created : ℕ} {l : List (SharedDataBlock T)} {fs : List (Frame ι T)}
    (h : InRun c created l fs) :
    (∃ sdb, fs.flatMap (Frame.toDeliver c) = [sdb] ∧ ∀ b ∈ l, b.isEndOfProcessing = false) ∨
      fs.flatMap (Frame.toDeliver c) = [] := by
  cases h with
  | notStarted _ hfs | waiting _ hfs | exited _ hfs => exact Or.inr (by rw [hfs]; rfl)
  | holding sdb _ hfs hl => exact Or.inl ⟨sdb, by simp [hfs, Frame.toDeliver], hl⟩
  | pushing calls sdb l' _ hfs hcalls =>
      refine Or.inr (List.flatMap_eq_nil_iff.mpr fun f hf => ?_)
      rw [hfs, List.mem_append, List.mem_singleton] at hf
      rcases hf with hf | rfl
      · exact toDeliver_of_call (hcalls f hf)
      · rfl

omit [DecidableEq ι] in
/-- Of what `run` has delivered, only the last can be an end-of-processing block. -/
theorem InRun.dropLast {created : ℕ} {l : List (SharedDataBlock T)} {fs : List (Frame ι T)}
    (h : InRun c created l fs) : ∀ b ∈ l.dropLast, b.isEndOfProcessing = false := by
  cases h with
  | notStarted _ _ hl => simp [hl]
  | waiting _ _ hl | holding _ _ _ hl => exact fun b hb => hl b (List.dropLast_subset _ hb)
  | pushing _ sdb l' _ _ _ hl hl' => rwa [hl, List.dropLast_concat]
  | exited _ _ hl =>
      obtain ⟨l', sdb, rfl, hl', -⟩ := hl
      rwa [List.dropLast_concat]

/-- **The worker does not go past the first end-of-processing block.** -/
theorem Reachable.upToEop (h : P.Reachable priv bs S) (hc : P.Uniform c) (hl : P.Upstream c l)
    (hbuf : P.IsBuffer c) {stream : List (SharedDataBlock T)} (hstream : enqueued c S.log <+: stream) :
    delivered c S.log ++ held c S <+: cutAfter SharedDataBlock.isEndOfProcessing stream := by
  refine isPrefix_cutAfter (List.IsPrefix.trans ?_ hstream) ?_
  · rw [h.fifo hc hl hbuf]
    exact List.prefix_append _ _
  · have hrun := h.inRun hc hl hbuf
    rcases hrun.held with ⟨sdb, hheld, hnone⟩ | hheld <;> rw [held, hheld]
    · rwa [List.dropLast_concat]
    · rw [List.append_nil]
      exact hrun.dropLast

omit [DecidableEq ι] in
/-- The latched stage of a buffer raises its latch on errors it is given only. -/
theorem latchEnd_buffer (hbuf : P.IsBuffer c) (st : σ) {l : List (SharedDataBlock T)}
    (hl : ∀ b ∈ l, b.isEndOfProcessing = false) :
    (latchEnd (P.processData c) SharedDataBlock.isEopError (st, false) l).2 = false := by
  refine latchEnd_of_forall (fun st b hb => ?_) st
  rw [P.processData_buffer c hbuf]
  exact SharedDataBlock.isEopError_eq_false (hl b hb)

/-- **The error check of the base class discards nothing** that `run` delivers. -/
theorem Reachable.not_discarded (h : P.Reachable priv bs S) (hc : P.Uniform c) (hl : P.Upstream c l)
    (hbuf : P.IsBuffer c) {t : Thread ι} {sdb : SharedDataBlock T} (hf : .hadError c sdb ∈ S.stack t) :
    S.shared.hadError c = false := by
  have hown : P.Owned priv bs _ _ := hc.owned_base hl
  rw [threadBelow_under hbuf] at hown
  obtain rfl := hown S h t _ hf rfl
  -- what the latch has seen is what has been delivered before the block at hand
  have hlatch := (h.latched hc hl).state
  rw [show S.shared.hadError c = _ from congrArg Prod.snd hlatch]
  refine latchEnd_buffer hbuf (priv c) fun b hb => (h.inRun hc hl hbuf).dropLast b ?_
  have hmem : sdb ∈ (S.stack (.worker c 0)).flatMap (Frame.toTake c) :=
    List.mem_flatMap.mpr ⟨_, hf, by simp [Frame.toTake]⟩
  rw [← h.delivered_taken_add hc hl hbuf, List.dropLast_append_of_ne_nil (List.ne_nil_of_mem hmem)]
  exact List.mem_append_left _ hb

/-! ### A buffer at the entry -/

omit [DecidableEq ι] in
/-- What lies upstream leads to the element. -/
theorem Upstream.reachable {n : ι} (h : P.Upstream n l) : Relation.ReflTransGen P.Adj P.entry n := by
  induction h with
  | entry => exact .refl
  | conn _ hmn ih => exact ih.tail hmn

omit [DecidableEq ι] in
/-- Nothing lies before an entry that nothing leads back to. -/
theorem Upstream.eq_nil (hroot : ¬ Relation.TransGen P.Adj P.entry P.entry)
    (h : P.Upstream P.entry l) : l = [] := by
  generalize hn : P.entry = n at h
  cases h with
  | entry => rfl
  | conn h hmn => exact absurd (Relation.TransGen.tail' h.reachable (hn ▸ hmn)) hroot

omit [DecidableEq ι] in
/-- Nothing lies before an entry that nothing leads back to, so it has one producer. -/
theorem uniform_entry (hroot : ¬ Relation.TransGen P.Adj P.entry P.entry) : P.Uniform P.entry :=
  fun _ _ h h' => (h.eq_nil hroot).trans (h'.eq_nil hroot).symm

/-- Such an entry is given what is pushed. -/
theorem Reachable.inputs_entry (h : P.Reachable priv bs S)
    (hroot : ¬ Relation.TransGen P.Adj P.entry P.entry) :
    inputs P.entry S.log = inputsFrom P.entry .external S.log :=
  h.inputs_eq (fun _ => rfl) fun _ _ _ hmk hl =>
    absurd (Relation.TransGen.tail' hl.reachable hmk.adj) hroot

/-- The block that is being pushed into `c`, if it is not enqueued yet. -/
def pending (c : ι) (S : State ι V T σ) : List (SharedDataBlock T) :=
  (S.stack .pusher).flatMap (Frame.toEnqueue c)

/-- The blocks that the application has still to push. -/
def unpushed (S : State ι V T σ) : List (SharedDataBlock T) := (S.stack .pusher).flatMap Frame.toPush

/-- **What a buffer at the entry keeps**, while the blocks `bs` are pushed into it. -/
structure Conserved (P : Pipeline ι V T σ) (bs : List (SharedDataBlock T)) (S : State ι V T σ) :
    Prop where
  /-- What has been enqueued has been delivered, or is held, or is in the queue. -/
  fifo : enqueued P.entry S.log =
    delivered P.entry S.log ++ held P.entry S ++ S.shared.queue P.entry
  held : (held P.entry S).length ≤ 1
  /-- What the application pushes is enqueued in order, block by block. -/
  pushed : enqueued P.entry S.log ++ pending P.entry S ++ unpushed S = bs
  capacity : ∀ maxBlocks, P.maxBlocks P.entry = some maxBlocks →
    (S.shared.queue P.entry).length ≤ maxBlocks
  /-- One worker is created, and before the first attempt to enqueue. -/
  oneWorker : S.shared.created P.entry ≤ 1
  started : (enqueued P.entry S.log ≠ [] ∨
    ∃ sdb rest, S.stack .pusher = .enqueue P.entry sdb :: rest) → S.shared.created P.entry = 1
  /-- The worker does not go past the first end-of-processing block. -/
  upToEop : delivered P.entry S.log ++ Pipeline.held P.entry S <+:
    cutAfter SharedDataBlock.isEndOfProcessing bs
  /-- The error check of the base class never discards a block. -/
  errorCheck : ∀ t sdb, .hadError P.entry sdb ∈ S.stack t → S.shared.hadError P.entry = false
  notDiscarded : ∀ sdb, .skip P.entry sdb ∉ S.log
  /-- When the worker has exited, it has delivered what was pushed up to and
  including the first end-of-processing block. -/
  exited : S.shared.created P.entry = 1 → S.stack (.worker P.entry 0) = [] →
    Ended SharedDataBlock.isEndOfProcessing (delivered P.entry S.log) ∧
      delivered P.entry S.log = cutAfter SharedDataBlock.isEndOfProcessing bs

/-- A step enqueues nothing in `c`, or it is an attempt of the pushing thread that
succeeds, and enqueues the block of that attempt once. -/
def EnqueuesOnce (c : ι) (S S' : State ι V T σ) : Prop :=
  enqueued c S'.log = enqueued c S.log ∨ ∃ sdb rest, S.stack .pusher = .enqueue c sdb :: rest ∧
    S'.stack .pusher = rest ∧ S'.shared.queue c = S.shared.queue c ++ [sdb] ∧
    enqueued c S'.log = enqueued c S.log ++ [sdb]

/-- A buffer skips no block. -/
theorem Reachable.not_skipped (h : P.Reachable priv bs S) (hc : P.Uniform c) (hl : P.Upstream c l)
    (hbuf : P.IsBuffer c) (sdb : SharedDataBlock T) : .skip c sdb ∉ S.log := by
  refine h.induct (I := fun S => .skip c sdb ∉ S.log) List.not_mem_nil
    fun S t f rest e hS ih hstack hexec _ hmem => ?_
  rcases List.mem_append.mp hmem with hmem | hmem
  · exact ih hmem
  · cases hexec with
    | skip n sdb' he =>
        obtain ⟨rfl, rfl⟩ := Event.skip.inj (List.mem_singleton.mp hmem)
        have hdown := hS.not_discarded hc hl hbuf
          (show .hadError c sdb ∈ S.stack t by simp [hstack])
        exact absurd (he.symm.trans hdown) (by simp)
    | _ => simp at hmem

/-- What was pushed into a buffer at the entry. -/
theorem Reachable.pushed_entry (h : P.Reachable priv bs S) (hbuf : P.IsBuffer P.entry)
    (hroot : ¬ Relation.TransGen P.Adj P.entry P.entry) :
    enqueued P.entry S.log ++ pending P.entry S ++ unpushed S = bs := by
  have hinputs := h.enqueued_add (uniform_entry hroot) .entry hbuf
  rw [threadBelow_nil, h.inputs_entry hroot] at hinputs
  rw [pending, hinputs]
  exact h.pushed

/-- Once it has exited, the worker has delivered what was pushed up to the first
end-of-processing block. -/
theorem Reachable.exited_entry (h : P.Reachable priv bs S) (hbuf : P.IsBuffer P.entry)
    (hroot : ¬ Relation.TransGen P.Adj P.entry P.entry)
    (hcreated : S.shared.created P.entry = 1) (hstack : S.stack (.worker P.entry 0) = []) :
    Ended SharedDataBlock.isEndOfProcessing (delivered P.entry S.log) ∧
      delivered P.entry S.log = cutAfter SharedDataBlock.isEndOfProcessing bs := by
  have hended : Ended SharedDataBlock.isEndOfProcessing (delivered P.entry S.log) := by
    cases h.inRun (uniform_entry hroot) .entry hbuf with
    | exited _ _ hl => exact hl
    | notStarted hzero => omega
    | waiting _ hfs | holding _ _ hfs => exact absurd (hstack.symm.trans hfs) (by simp)
    | pushing _ _ _ _ hfs => exact absurd (hstack.symm.trans hfs) (by simp)
  refine ⟨hended, (hended.cutAfter_of_isPrefix ?_).symm⟩
  rw [← h.pushed_entry hbuf hroot, h.fifo (uniform_entry hroot) .entry hbuf]
  simp only [List.append_assoc]
  exact List.prefix_append _ _

/-- **A buffer at the entry conserves what is pushed**, in every reachable state. -/
theorem Reachable.conserved (h : P.Reachable priv bs S) (hbuf : P.IsBuffer P.entry)
    (hroot : ¬ Relation.TransGen P.Adj P.entry P.entry) : Conserved P bs S := by
  have huni := uniform_entry hroot
  have hpushed := h.pushed_entry hbuf hroot
  refine ⟨h.fifo huni .entry hbuf, ?_, hpushed, fun m hm => ?_, (h.confined huni .entry).oneWorker,
    fun hfirst => ?_, h.upToEop huni .entry hbuf ?_, fun t sdb hf => h.not_discarded huni .entry hbuf hf,
    h.not_skipped huni .entry hbuf, h.exited_entry hbuf hroot⟩
  · rcases (h.inRun huni .entry hbuf).held with ⟨sdb, hheld, -⟩ | hheld <;> simp [held, hheld]
  · simpa [hm] using (h.queue P.entry).2
  · rcases hfirst with henq | ⟨sdb, rest, hstack⟩
    · exact h.created_of_enqueued huni .entry henq
    · have hphase := h.phase huni .entry hstack rfl
      rw [Frame.phase, if_pos rfl] at hphase
      exact hphase.1
  · rw [← hpushed, List.append_assoc]
    exact List.prefix_append _ _

/-- **An attempt that fails enqueues nothing**, and one that succeeds enqueues its block
once. -/
theorem Reachable.enqueuesOnce (h : P.Reachable priv bs S) (hc : P.Uniform c) (hl : P.Upstream c [])
    {S' : State ι V T σ} (hstep : P.Step S S') : EnqueuesOnce c S S' := by
  cases hstep with
  | timeout => exact Or.inl rfl
  | thread hp =>
      obtain ⟨t, ht⟩ := hp
      obtain ⟨f, rest, e, hstack, -, hexec, rfl⟩ := step_cases ht
      rw [EnqueuesOnce, enqueued_append]
      cases hexec with
      | enqueue c' sdb hlt =>
          by_cases hcc : c' = c
          · subst hcc
            obtain rfl := hc.owned_producer hl S h t (.enqueue c' sdb) (by simp [hstack]) rfl
            exact Or.inr ⟨sdb, rest, hstack, by simp [spawn], by simp, by simp [enqueued]⟩
          · exact Or.inl (by simp [enqueued, hcc])
      | _ => exact Or.inl (by simp [enqueued])

/-- **Conservation in one buffer.**  In every reachable state of every interleaving,
a `StreamThreadedBuffer` at the entry keeps the blocks pushed into it, whatever they
are, and every step from there enqueues at most the block of an attempt that
succeeds. -/
theorem buffer_conservation (hbuf : P.IsBuffer P.entry)
    (hroot : ¬ Relation.TransGen P.Adj P.entry P.entry) (h : P.Reachable priv bs S) :
    Conserved P bs S ∧ ∀ S', P.Step S S' → EnqueuesOnce P.entry S S' :=
  ⟨h.conserved hbuf hroot, fun _ hstep => h.enqueuesOnce (uniform_entry hroot) .entry hstep⟩

/-- A buffer of capacity 1 before a processor. -/
def bufferedPair : Pipeline (Fin 2) Unit ℕ Unit where
  processData _ st sdb := (st, sdb)
  visitors _ := [()]
  processors := ![[1], []]
  maxBlocks := ![some 1, none]
  entry := 0
  processData_buffer _ _ _ _ := rfl

/-- Nothing leads back to the buffer of the pair. -/
theorem not_transGen_bufferedPair : ¬ Relation.TransGen bufferedPair.Adj 0 0 :=
  DirectedGraph.acyclic_of_rank Fin.val
    (show ∀ m n, n ∈ bufferedPair.processors m → m.val < n.val by decide) 0

/-- A block follows the end-of-processing block; the worker has exited, and the
block after it is in the queue. -/
theorem buffer_conservation_bufferedPair :
    ∃ S, bufferedPair.Reachable (fun _ => ()) [⟨some 1, none⟩, ⟨none, some {}⟩, ⟨some 2, none⟩] S ∧
      S.shared.created 0 = 1 ∧ S.stack (.worker 0 0) = [] ∧ S.shared.queue 0 = [⟨some 2, none⟩] ∧
      Conserved bufferedPair [⟨some 1, none⟩, ⟨none, some {}⟩, ⟨some 2, none⟩] S ∧
      ∀ S', bufferedPair.Step S S' → EnqueuesOnce 0 S S' := by
  have hrun : (bufferedPair.run (List.replicate 7 .pusher ++ List.replicate 14 (.worker 0 0) ++
      List.replicate 4 .pusher ++ List.replicate 14 (.worker 0 0) ++ [.pusher])
      (init (fun _ => ()) [⟨some 1, none⟩, ⟨none, some {}⟩, ⟨some 2, none⟩])).map (fun S =>
        decide (S.shared.created 0 = 1 ∧ S.stack (.worker 0 0) = [] ∧
          S.shared.queue 0 = [⟨some 2, none⟩])) = some true := by
    decide
  obtain ⟨S, hS, hexit⟩ := Option.map_eq_some_iff.mp hrun
  have hreach : bufferedPair.Reachable (fun _ => ()) _ S := Reachable.run .refl hS
  obtain ⟨hcreated, hstack, hqueue⟩ := of_decide_eq_true hexit
  exact ⟨S, hreach, hcreated, hstack, hqueue,
    buffer_conservation (by decide) not_transGen_bufferedPair hreach⟩

end Pipeline
end CppDataStream
