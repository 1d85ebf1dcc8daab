/-
# `isEmpty()` as a guard for `data()`

`include/cppdatastream/DataStream.hpp`, lines 169-212.  `data()` dereferences the
shared pointer of a block, and `isEmpty()` returns whether this pointer is set, where
its name says the opposite.  An element that calls `data()` exactly when `isEmpty()`
is false skips the blocks that carry data and dereferences the null pointer of the
others (`not_accessSound`), so no block may come to it at all.  What it computes with
what it has read is left open: `processData` is any function.  So is what happens once
a null pointer has been dereferenced; the guard has failed by then.

Which blocks come to the consumers of a run, the processors and the visitors, is read
off the log (`handed`).  On a tree the first block goes as far as the buffers let it,
whatever it carries, and what it comes to is determined by the connections and the
capacities alone (`Fed`).  Nothing else is given a block (`IsTree.fed_of_inputs`); and
if one block is pushed, then where no thread can make a step all these elements have
been given it, unless it came to a consumer (`IsTree.inputs_of_fed`).  What a run with
one block can do, one with more can do as well (`Reachable.more`).  So the guard is
sound on every run if and only if nothing is pushed, or only buffers without visitors
are fed (`guard_sound_iff`).
-/

import CppDataStream.Threaded.Refinement
import CppDataStream.Threaded.Measure

namespace CppDataStream

open Streams

/-! ### The guard -/

/-- What a consumer does with a block. -/
inductive Access (T : Type*) where
  /-- `data()` is not called. -/
  | skipped
  /-- `data()` returns. -/
  | read (data : T)
  /-- `data()` dereferences a null pointer. -/
  | nullDereference

/-- `data()` is called exactly when `isEmpty()` is false. -/
def guardedAccess {T : Type*} (sdb : SharedDataBlock T) : Access T :=
  if sdb.isEmpty then .skipped
  else match sdb.derefData with
    | some data => .read data
    | none => .nullDereference

/-- No null pointer is dereferenced, and a block that carries data is read. -/
structure AccessSound {T : Type*} (sdb : SharedDataBlock T) : Prop where
  noNull : guardedAccess sdb ≠ .nullDereference
  reads : ∀ data, sdb.data = some data → guardedAccess sdb = .read data

/-- **The guard is sound for no block.** -/
theorem not_accessSound {T : Type*} (sdb : SharedDataBlock T) : ¬ AccessSound sdb := by
  rintro ⟨hnull, hreads⟩
  obtain ⟨data, eop⟩ := sdb
  cases data with
  | none => exact hnull rfl
  | some data => exact absurd (hreads data rfl) (by simp [guardedAccess, SharedDataBlock.isEmpty])

namespace Pipeline

variable {ι V T σ : Type*}

/-- The blocks that `processData` of the processors and the visitors were called with.
`processData` of a buffer does not look at its block. -/
def handed (P : Pipeline ι V T σ) (log : List (Event ι V T)) : List (SharedDataBlock T) :=
  log.filterMap fun
    | .process n sdb _ => if P.IsBuffer n then none else some sdb
    | .visit _ _ _ output => some output
    | _ => none

/-- The guard is sound for every block that came to a consumer. -/
def GuardSound (P : Pipeline ι V T σ) (log : List (Event ι V T)) : Prop :=
  ∀ sdb ∈ P.handed log, AccessSound sdb

/-- No block can be enqueued in the buffer `c`. -/
def NoRoom (P : Pipeline ι V T σ) (c : ι) : Prop := P.maxBlocks c = some 0

/-- The elements that the first block is pushed into if it comes to no processor
before: a loop over `processors` goes on until it pushes into a buffer without room. -/
inductive Fed (P : Pipeline ι V T σ) : ι → Prop
  | entry : Fed P P.entry
  | conn {m n : ι} {k : ℕ} (h : Fed P m) (hm : ¬ P.NoRoom m) (hmn : P.Conn m k n)
      (hbefore : ∀ j < k, ∀ c, P.Conn m j c → ¬ P.NoRoom c) : Fed P n

/-- A block that is pushed into `n` comes to a consumer there. -/
def Consumes (P : Pipeline ι V T σ) (n : ι) : Prop :=
  ¬ P.IsBuffer n ∨ (¬ P.NoRoom n ∧ P.visitors n ≠ [])

variable {P : Pipeline ι V T σ} {log : List (Event ι V T)}

/-- The guard is sound when it has handed nothing out. -/
theorem guardSound_iff : P.GuardSound log ↔ P.handed log = [] :=
  ⟨fun h => List.eq_nil_iff_forall_not_mem.mpr fun sdb hsdb => not_accessSound sdb (h sdb hsdb),
    fun h sdb hsdb => absurd hsdb (by simp [h])⟩

/-- Only buffers lack room. -/
theorem NoRoom.isBuffer {c : ι} (h : P.NoRoom c) : P.IsBuffer c := by
  rw [NoRoom] at h
  simp [IsBuffer, h]

/-- No number is below a capacity of zero. -/
theorem NoRoom.not_lt {c : ι} (h : P.NoRoom c) (k : ℕ) : ¬ k < (P.maxBlocks c).getD 0 := by
  rw [NoRoom] at h
  simp [h]

/-- A buffer that has room holds at least one block. -/
theorem capacity_pos {c : ι} (hbuf : P.IsBuffer c) (h : ¬ P.NoRoom c) : 0 < (P.maxBlocks c).getD 0 := by
  obtain ⟨m, hm⟩ := Option.ne_none_iff_exists'.mp hbuf
  rw [hm, Option.getD_some]
  refine Nat.pos_of_ne_zero fun hzero => h ?_
  rw [NoRoom, hm, hzero]

variable [DecidableEq ι]

/-- No block has come to a consumer if the processors have emitted nothing, and the
visitors have seen nothing. -/
theorem handed_eq_nil_iff : P.handed log = [] ↔
    (∀ n, ¬ P.IsBuffer n → outputs n log = []) ∧ ∀ n k, seen n k log = [] := by
  simp only [handed, outputs, seen, List.filterMap_eq_nil_iff]
  refine ⟨fun h => ⟨fun n hn e he => ?_, fun n k e he => ?_⟩, fun h e he => ?_⟩
  · cases e with
    | process n' sdb output =>
        refine if_neg fun heq => ?_
        subst heq
        exact absurd (h _ he) (by simp [hn])
    | _ => rfl
  · cases e with
    | visit n' k' v output => exact absurd (h _ he) (by simp)
    | _ => rfl
  · cases e with
    | process n sdb output =>
        refine if_pos (by_contra fun hn => ?_)
        exact absurd (h.1 n hn _ he) (by simp)
    | visit n k v output => exact absurd (h.2 n k _ he) (by simp)
    | _ => rfl

variable {priv : ι → σ} {bs : List (SharedDataBlock T)} {S : State ι V T σ}

/-! ### Only fed elements are given blocks -/

/-- Nothing is enqueued in a buffer without room. -/
theorem Reachable.not_noRoom (h : P.Reachable priv bs S) {c : ι} (henq : enqueued c S.log ≠ []) :
    ¬ P.NoRoom c := by
  intro hroom
  refine henq (h.induct (I := fun S => enqueued c S.log = []) rfl fun S t f rest e _ ih _ hexec _ => ?_)
  rw [enqueued_append, ih, List.nil_append]
  cases hexec with
  | enqueue c' sdb hlt =>
      have hne : c' ≠ c := fun heq => hroom.not_lt _ (heq ▸ hlt)
      simp [enqueued, hne]
  | _ => rfl

/-- A push into a buffer without room goes on. -/
theorem Exec.producer {sh : Shared ι T σ} {f : Frame ι T} {e : Effect ι V T σ} (h : Exec P sh f e)
    {c : ι} (hroom : P.NoRoom c) (hf : f.side = .producer c) :
    ∃ g, e.frames = [g] ∧ g.side = .producer c := by
  cases h with
  | enqueue c' sdb hlt =>
      obtain rfl := Side.producer.inj hf
      exact absurd hlt (hroom.not_lt _)
  | isStarted | notStarted | start | terminate | assign | started => exact ⟨_, rfl, hf⟩
  | _ => cases hf

/-- A frame of the loop over `processors` is the first, or comes from the one before,
with a call on top. -/
theorem Exec.forward_mem {sh : Shared ι T σ} {f : Frame ι T} {e : Effect ι V T σ} (h : Exec P sh f e)
    {m : ι} {k : ℕ} {output : SharedDataBlock T} (hmem : .forward m k output ∈ e.frames) :
    k = 0 ∨ ∃ k' c, k = k' + 1 ∧ f = .forward m k' output ∧ P.Conn m k' c ∧
      e.frames = [P.pushFrame c output, .forward m k output] := by
  cases h with
  | forward n k' output' c hc =>
      rcases List.mem_cons.mp hmem with hmem | hmem
      · rcases pushFrame_cases P c output' with ⟨-, h⟩ | ⟨-, h⟩ <;> rw [h] at hmem <;> cases hmem
      · obtain ⟨rfl, rfl, rfl⟩ := Frame.forward.inj (List.mem_singleton.mp hmem)
        exact Or.inr ⟨k', c, rfl, rfl, hc, rfl⟩
  | visited n k' output' =>
      obtain ⟨-, rfl, -⟩ := Frame.forward.inj (List.mem_singleton.mp hmem)
      exact Or.inl rfl
  | push sdb todo =>
      rcases List.mem_cons.mp hmem with hmem | hmem
      · rcases pushFrame_cases P P.entry sdb with ⟨-, h⟩ | ⟨-, h⟩ <;> rw [h] at hmem <;> cases hmem
      · simp at hmem
  | _ => simp at hmem

/-- **A loop over `processors` does not go past a buffer without room**: the push into
that buffer stays on top of it. -/
theorem Reachable.stays (h : P.Reachable priv bs S) {m c : ι} {j : ℕ} (hc : P.Conn m j c)
    (hroom : P.NoRoom c) {t : Thread ι} {k : ℕ} {output : SharedDataBlock T}
    (hf : .forward m k output ∈ S.stack t) (hk : j < k) :
    ∃ f rest, S.stack t = f :: rest ∧ f.side = .producer c := by
  refine h.induct (I := fun S => ∀ t k output, .forward m k output ∈ S.stack t → j < k →
    ∃ f rest, S.stack t = f :: rest ∧ f.side = .producer c) (fun t k output hf _ => ?_)
    (fun S t f rest e _ ih hstack hexec _ t' k output hf hk => ?_) t k output hf hk
  · by_cases ht : t = .pusher <;> simp [init, ht] at hf
  · rcases stack_cases S.stack t (e.frames ++ rest) e.spawned t' with
      ⟨c', i, -, -, hs⟩ | ⟨rfl, hs⟩ | ⟨-, hs⟩ <;> simp only [hs] at hf ⊢
    · simp at hf
    · by_cases hside : f.side = .producer c
      · obtain ⟨g, hg, hside'⟩ := hexec.producer hroom hside
        exact ⟨g, rest, by rw [hg]; rfl, hside'⟩
      -- the loop was not past `c`, and if this is the step that comes to `c`, it pushes
      have hbefore : ∀ k output, .forward m k output ∈ S.stack t' → ¬ j < k := by
        intro k output hf hk
        obtain ⟨f', rest', hstack', hside'⟩ := ih t' k output hf hk
        rw [hstack] at hstack'
        obtain ⟨rfl, -⟩ := List.cons.inj hstack'
        exact hside hside'
      rcases List.mem_append.mp hf with hf | hf
      · rcases hexec.forward_mem hf with rfl | ⟨k', c', rfl, rfl, hc', hframes⟩
        · exact absurd hk (Nat.not_lt_zero j)
        · have := hbefore k' output (by simp [hstack])
          obtain rfl : j = k' := by omega
          obtain rfl : c' = c := Option.some.inj (hc'.symm.trans hc)
          exact ⟨_, _, by rw [hframes]; rfl, by rw [side_pushFrame, if_pos hroom.isBuffer]⟩
      · exact absurd hk (hbefore k output (by simp [hstack, hf]))
    · exact ih t' k output hf hk

/-- So nothing is pushed into the elements connected after it. -/
theorem Reachable.not_past (h : P.Reachable priv bs S) {m n c : ι} {j k : ℕ} (hc : P.Conn m j c)
    (hjk : j < k) (hin : inputsFrom n (.connection m k) S.log ≠ []) : ¬ P.NoRoom c := by
  intro hroom
  refine hin (h.induct (I := fun S => inputsFrom n (.connection m k) S.log = []) rfl
    fun S t f rest e hS ih hstack hexec _ => ?_)
  rw [inputsFrom_append, ih, List.nil_append]
  cases hexec with
  | forward m' k' output c' =>
      have hne : ¬ (m' = m ∧ k' = k) := by
        rintro ⟨rfl, rfl⟩
        have hf : .forward m' k' output ∈ S.stack t := by simp [hstack]
        obtain ⟨f, rest', hstack', hside⟩ := hS.stays hc hroom hf hjk
        rw [hstack] at hstack'
        obtain ⟨rfl, -⟩ := List.cons.inj hstack'
        cases hside
      simp [inputsFrom, hne]
  | push => simp [inputsFrom]
  | _ => rfl

/-- What an element has emitted it was given, and a buffer has had room for it. -/
theorem IsTree.given_of_outputs (hT : P.IsTree) (h : P.Reachable priv bs S) {n : ι}
    (hout : outputs n S.log ≠ []) : inputs n S.log ≠ [] ∧ ¬ P.NoRoom n := by
  obtain ⟨l, hl⟩ := hT.exists_upstream n
  have htaken : taken n S.log ≠ [] := by
    intro hnil
    rw [(h.latched (hT.uniform n) hl).outputs, hnil] at hout
    exact hout rfl
  refine ⟨fun hnil => htaken ?_, fun hroom => h.not_noRoom (fun hnil => htaken ?_) hroom⟩
  · rw [← List.prefix_nil, ← hnil]
    exact hT.taken_isPrefix h n
  · rw [← List.prefix_nil, ← hnil]
    exact hT.taken_isPrefix_enqueued h hroom.isBuffer

/-- What an element has pushed on it has emitted. -/
theorem IsTree.outputs_of_sent (hT : P.IsTree) (h : P.Reachable priv bs S) {m n : ι} {k : ℕ}
    (hmn : P.Conn m k n) (hin : inputsFrom n (.connection m k) S.log ≠ []) :
    outputs m S.log ≠ [] := by
  obtain ⟨l, hl⟩ := hT.exists_upstream m
  intro hnil
  have hsent := h.sent_add (hT.uniform m) hl (hT.acyclic m) hmn
  rw [hnil] at hsent
  exact hin (List.append_eq_nil_iff.mp hsent).1

/-- **Only fed elements are given blocks.** -/
theorem IsTree.fed_of_inputs (hT : P.IsTree) (h : P.Reachable priv bs S) (n : ι) :
    inputs n S.log ≠ [] → P.Fed n := by
  refine hT.induct (Q := fun n => inputs n S.log ≠ [] → P.Fed n) (fun _ => .entry)
    (fun m k n hmn ih hin => ?_) n
  rw [hT.inputs_child h hmn] at hin
  obtain ⟨hgiven, hroom⟩ := hT.given_of_outputs h (hT.outputs_of_sent h hmn hin)
  exact .conn (ih hgiven) hroom hmn fun j hj c hc => h.not_past hc hj hin

/-- What has been seen went through a visitor connection, and was emitted. -/
theorem IsTree.emitted_of_seen (hT : P.IsTree) (h : P.Reachable priv bs S) {n : ι} {k : ℕ}
    (hseen : seen n k S.log ≠ []) : P.visitors n ≠ [] ∧ outputs n S.log ≠ [] := by
  have hk : k < (P.visitors n).length := by
    by_contra hnot
    refine hseen (List.filterMap_eq_nil_iff.mpr fun e he => ?_)
    cases e with
    | visit n' k' v output =>
        refine if_neg ?_
        rintro ⟨rfl, rfl⟩
        exact hnot (List.getElem?_eq_some_iff.mp (h.callsConnected n' k' v output he)).1
    | _ => rfl
  obtain ⟨l, hl⟩ := hT.exists_upstream n
  refine ⟨List.ne_nil_of_length_pos (Nat.zero_lt_of_lt hk), fun hnil => hseen ?_⟩
  have hadd := h.seen_add (hT.uniform n) hl hk
  rw [hnil] at hadd
  exact (List.append_eq_nil_iff.mp hadd).1

/-- Blocks come to consumers that are given some. -/
theorem IsTree.exists_consumer (hT : P.IsTree) (h : P.Reachable priv bs S)
    (hhanded : P.handed S.log ≠ []) : ∃ n, P.Consumes n ∧ inputs n S.log ≠ [] := by
  by_contra hnone
  push Not at hnone
  refine hhanded (handed_eq_nil_iff.mpr ⟨fun n hn => ?_, fun n k => ?_⟩)
  · by_contra hout
    exact (hT.given_of_outputs h hout).1 (hnone n (Or.inl hn))
  · by_contra hseen
    obtain ⟨hvisitors, hout⟩ := hT.emitted_of_seen h hseen
    obtain ⟨hgiven, hroom⟩ := hT.given_of_outputs h hout
    exact hgiven (hnone n (Or.inr ⟨hroom, hvisitors⟩))

/-! ### All fed elements are given a block -/

/-- In a stuck state a frame waits for a call, for space, or for a block. -/
theorem IsTree.frame_stuck (hT : P.IsTree) (h : P.Reachable priv bs S) (hstuck : P.Stuck S)
    {t : Thread ι} {f : Frame ι T} (hf : f ∈ S.stack t) :
    f.Resumes ∨ (∃ c sdb, f = .enqueue c sdb ∧ (P.maxBlocks c).getD 0 ≤ (S.shared.queue c).length) ∨
      ∃ c, f = .dequeue c ∧ S.shared.queue c = [] := by
  rcases hstack : S.stack t with _ | ⟨g, rest⟩
  · rw [hstack] at hf
    cases hf
  · rcases List.mem_cons.mp (hstack ▸ hf) with rfl | hrest
    · exact Or.inr (hstuck.waits (hT.not_terminated h) hstack)
    · exact Or.inl (h.wellFormed.resumes t f (by rw [hstack]; exact hrest))

/-- So nothing is pending that only a frame that can make a step holds. -/
theorem IsTree.pending_stuck (hT : P.IsTree) (h : P.Reachable priv bs S) (hstuck : P.Stuck S)
    (pend : Frame ι T → List (SharedDataBlock T)) (hres : ∀ f, f.Resumes → pend f = [])
    (hdequeue : ∀ c, pend (.dequeue c) = [])
    (henqueue : ∀ c sdb, (P.maxBlocks c).getD 0 ≤ (S.shared.queue c).length →
      pend (.enqueue c sdb) = []) (t : Thread ι) : (S.stack t).flatMap pend = [] := by
  refine List.flatMap_eq_nil_iff.mpr fun f hf => ?_
  rcases hT.frame_stuck h hstuck hf with hf | ⟨c, sdb, rfl, hfull⟩ | ⟨c, rfl, -⟩
  · exact hres f hf
  · exact henqueue c sdb hfull
  · exact hdequeue c

/-- Where nothing was enqueued, nothing is in the queue. -/
theorem Reachable.queue_eq_nil (h : P.Reachable priv bs S) {c : ι} (henq : enqueued c S.log = []) :
    S.shared.queue c = [] := by
  have hqueue := (h.queue c).1
  rw [henq] at hqueue
  exact (List.append_eq_nil_iff.mp hqueue.symm).2

/-- In a stuck state a buffer with room has enqueued a block if it was given one. -/
theorem IsTree.enqueued_of_stuck (hT : P.IsTree) (h : P.Reachable priv bs S) (hstuck : P.Stuck S)
    {c : ι} (hbuf : P.IsBuffer c) (hroom : ¬ P.NoRoom c) (hin : inputs c S.log ≠ []) :
    enqueued c S.log ≠ [] := by
  obtain ⟨l, hl⟩ := hT.exists_upstream c
  intro hnil
  have hpend := hT.pending_stuck h hstuck (Frame.toEnqueue c)
    (fun f hf => by cases f <;> trivial) (fun _ => rfl) fun c' sdb hfull => by
      refine if_neg ?_
      rintro rfl
      have := capacity_pos hbuf hroom
      rw [h.queue_eq_nil hnil, List.length_nil] at hfull
      omega
  have hadd := h.enqueued_add (hT.uniform c) hl hbuf
  rw [hnil, hpend] at hadd
  exact hin hadd.symm

/-- And its worker has delivered one. -/
theorem IsTree.delivered_of_stuck (hT : P.IsTree) (h : P.Reachable priv bs S) (hstuck : P.Stuck S)
    {c : ι} (hbuf : P.IsBuffer c) (henq : enqueued c S.log ≠ []) : delivered c S.log ≠ [] := by
  have hterm := hT.not_terminated h
  obtain ⟨l, hl⟩ := hT.exists_upstream c
  have hcreated := h.created_of_enqueued (hT.uniform c) hl henq
  cases h.inRun (hT.uniform c) hl hbuf with
  | notStarted hzero => omega
  | waiting _ hfs =>
      -- the worker waits at an empty queue, so it has taken what was enqueued
      have hempty : S.shared.queue c = [] := by
        rcases hstuck.waits hterm hfs with ⟨c', sdb, hf, -⟩ | ⟨c', hf, hempty⟩
        · exact absurd hf (by simp)
        · obtain rfl := Frame.dequeue.inj hf
          exact hempty
      intro hnil
      have hfifo := h.fifo (hT.uniform c) hl hbuf
      rw [held, hfs, hnil, hempty] at hfifo
      exact henq hfifo
  | holding sdb _ hfs => exact absurd (hstuck.waits hterm hfs) (by simp)
  | pushing _ sdb l' _ _ _ hdel => simp [hdel]
  | exited _ _ hended => exact hended.ne_nil

/-- **Where no thread can make a step, an element that was given a block has emitted
one**, unless it is a buffer without room. -/
theorem IsTree.outputs_of_stuck (hT : P.IsTree) (h : P.Reachable priv bs S) (hstuck : P.Stuck S)
    {n : ι} (hroom : ¬ P.NoRoom n) (hin : inputs n S.log ≠ []) : outputs n S.log ≠ [] := by
  obtain ⟨l, hl⟩ := hT.exists_upstream n
  have hpend := hT.pending_stuck h hstuck (Frame.toTake n)
    (fun f hf => by cases f <;> trivial) (fun _ => rfl) fun _ _ _ => rfl
  have htaken : taken n S.log ≠ [] := by
    by_cases hbuf : P.IsBuffer n
    · have hadd := h.delivered_taken_add (hT.uniform n) hl hbuf
      rw [hpend, List.append_nil] at hadd
      rw [hadd]
      exact hT.delivered_of_stuck h hstuck hbuf (hT.enqueued_of_stuck h hstuck hbuf hroom hin)
    · have hadd := h.taken_add (hT.uniform n) hl hbuf
      rw [hpend, List.append_nil] at hadd
      rwa [hadd]
  rw [(h.latched (hT.uniform n) hl).outputs]
  exact latchOut_ne_nil htaken (priv n)

/-- And its visitors have seen it. -/
theorem IsTree.seen_of_stuck (hT : P.IsTree) (h : P.Reachable priv bs S) (hstuck : P.Stuck S)
    {n : ι} {k : ℕ} (hk : k < (P.visitors n).length) (hout : outputs n S.log ≠ []) :
    seen n k S.log ≠ [] := by
  obtain ⟨l, hl⟩ := hT.exists_upstream n
  have hpend := hT.pending_stuck h hstuck (Frame.toVisit n k)
    (fun f hf => by cases f <;> trivial) (fun _ => rfl) fun _ _ _ => rfl
  have hadd := h.seen_add (hT.uniform n) hl hk
  rw [hpend, List.append_nil] at hadd
  rwa [hadd]

omit [DecidableEq ι] in
/-- An element computes no more blocks than were pushed. -/
theorem StreamAt.length_le {n : ι} {l : List (SharedDataBlock T)} (h : P.StreamAt priv bs n l) :
    l.length ≤ bs.length := by
  induction h with
  | entry => exact le_rfl
  | conn _ _ ih => exact (length_latchOut_le _ _).trans ih

/-- An element of a tree is given no more blocks than were pushed. -/
theorem IsTree.length_inputs_le (hT : P.IsTree) (h : P.Reachable priv bs S) (n : ι) :
    (inputs n S.log).length ≤ bs.length := by
  obtain ⟨l, hl⟩ := hT.exists_streamAt priv bs n
  exact (hT.inputs_isPrefix h hl).length_le.trans hl.length_le

/-- It emits no more. -/
theorem IsTree.length_outputs_le (hT : P.IsTree) (h : P.Reachable priv bs S) (n : ι) :
    (outputs n S.log).length ≤ bs.length := by
  obtain ⟨l, hl⟩ := hT.exists_upstream n
  rw [(h.latched (hT.uniform n) hl).outputs]
  calc (latchOut _ _ _ (taken n S.log)).length
    _ ≤ (taken n S.log).length := length_latchOut_le _ _
    _ ≤ (inputs n S.log).length := (hT.taken_isPrefix h n).length_le
    _ ≤ bs.length := hT.length_inputs_le h n

variable {b : SharedDataBlock T}

/-- The one block that was pushed waits for space only where there is no room. -/
theorem IsTree.noRoom_of_stuck (hT : P.IsTree) (h : P.Reachable priv [b] S) (hstuck : P.Stuck S)
    {t : Thread ι} {c : ι} {sdb : SharedDataBlock T} (hf : .enqueue c sdb ∈ S.stack t) :
    P.NoRoom c ∧ inputs c S.log ≠ [] := by
  obtain ⟨l, ⟨hbuf, hl⟩, -⟩ := h.wellFormed.located t (.enqueue c sdb) hf
  obtain rfl := (hT.uniform c).owned_producer hl S h t _ hf rfl
  have hpend : sdb ∈ (S.stack (threadBelow l)).flatMap (Frame.toEnqueue c) :=
    List.mem_flatMap.mpr ⟨_, hf, by simp [Frame.toEnqueue]⟩
  have hadd := h.enqueued_add (hT.uniform c) hl hbuf
  have hlen := hT.length_inputs_le h c
  rw [← hadd, List.length_append, List.length_singleton] at hlen
  have hpos := List.length_pos_of_mem hpend
  refine ⟨by_contra fun hroom => ?_, fun hnil => ?_⟩
  · refine hT.enqueued_of_stuck h hstuck hbuf hroom ?_ (List.length_eq_zero_iff.mp (by omega))
    rw [← hadd]
    exact List.append_ne_nil_of_right_ne_nil _ (List.ne_nil_of_mem hpend)
  · rw [hnil] at hadd
    rw [(List.append_eq_nil_iff.mp hadd).2] at hpend
    cases hpend

/-- What an element has emitted and not pushed on, the loop over its `processors`
holds. -/
theorem IsTree.loop_of_stuck (hT : P.IsTree) (h : P.Reachable priv bs S) (hstuck : P.Stuck S)
    {m n : ι} {k : ℕ} (hmn : P.Conn m k n) (hbuf : P.IsBuffer m) (hout : outputs m S.log ≠ [])
    (hin : inputsFrom n (.connection m k) S.log = []) :
    ∃ k' output, .forward m k' output ∈ S.stack (.worker m 0) ∧ k' ≤ k := by
  obtain ⟨l, hl⟩ := hT.exists_upstream m
  have hsent := h.sent_add (hT.uniform m) hl (hT.acyclic m) hmn
  rw [threadBelow_under hbuf, hin, List.nil_append] at hsent
  rw [← hsent] at hout
  obtain ⟨b, hb⟩ := List.exists_mem_of_ne_nil _ hout
  obtain ⟨f, hf, hpend⟩ := List.mem_flatMap.mp hb
  rcases hT.frame_stuck h hstuck hf with hres | ⟨c, sdb, rfl, -⟩ | ⟨c, rfl, -⟩
  · cases f with
    | forward m' k' output =>
        by_cases hk : m' = m ∧ k' ≤ k
        · obtain ⟨rfl, hle⟩ := hk
          exact ⟨k', output, hf, hle⟩
        · simp [Frame.toForward, hk] at hpend
    | main | eopTest => cases hpend
    | _ => exact absurd hres id
  · cases hpend
  · cases hpend

/-- On top of a loop over `processors` a block waits for space. -/
theorem IsTree.enqueue_of_loop (hT : P.IsTree) (h : P.Reachable priv bs S) (hstuck : P.Stuck S)
    {t : Thread ι} {m : ι} {k : ℕ} {output : SharedDataBlock T}
    (hf : .forward m k output ∈ S.stack t) : ∃ c sdb, .enqueue c sdb ∈ S.stack t := by
  rcases hstack : S.stack t with _ | ⟨g, rest⟩
  · rw [hstack] at hf
    cases hf
  · rcases hstuck.waits (hT.not_terminated h) hstack with ⟨c, sdb, rfl, -⟩ | ⟨c, rfl, -⟩
    · exact ⟨c, sdb, List.mem_cons_self ..⟩
    · have hbot := h.bottom t
      rw [hstack] at hbot
      obtain ⟨-, rfl⟩ := hbot.eq_nil id
      rw [hstack] at hf
      simp at hf

/-- If only buffers have emitted anything, what a worker pushes into is connected to
its buffer. -/
theorem IsTree.conn_of_enqueue (hT : P.IsTree) (h : P.Reachable priv bs S)
    (hbuffers : ∀ p, outputs p S.log ≠ [] → P.IsBuffer p) {m c : ι} {i : ℕ} {sdb : SharedDataBlock T}
    (hf : .enqueue c sdb ∈ S.stack (.worker m i)) (hin : inputs c S.log ≠ []) :
    ∃ j, P.Conn m j c ∧ inputsFrom c (.connection m j) S.log ≠ [] := by
  obtain ⟨l, ⟨-, hl⟩, hruns⟩ := h.wellFormed.located _ _ hf
  cases hl with
  | entry => cases hruns
  | @conn p _ l hp hadj =>
      obtain ⟨j, hj⟩ := List.mem_iff_getElem?.mp hadj
      rw [hT.inputs_child h hj] at hin
      have hbuf := hbuffers p (hT.outputs_of_sent h hj hin)
      rw [RunsBelow, under, if_pos hbuf, List.getLast?_concat] at hruns
      obtain rfl : m = p := Option.some.inj hruns
      exact ⟨j, hj, hin⟩

/-- **Where no thread can make a step, the loop of a buffer has pushed the one block on**
to every element before which it meets no buffer without room, if only buffers have
emitted anything. -/
theorem IsTree.child_of_stuck (hT : P.IsTree) (h : P.Reachable priv [b] S) (hstuck : P.Stuck S)
    (hbuffers : ∀ p, outputs p S.log ≠ [] → P.IsBuffer p) {m n : ι} {k : ℕ} (hmn : P.Conn m k n)
    (hbefore : ∀ j < k, ∀ c, P.Conn m j c → ¬ P.NoRoom c) (hout : outputs m S.log ≠ []) :
    inputs n S.log ≠ [] := by
  have hbuf := hbuffers m hout
  rw [hT.inputs_child h hmn]
  intro hnil
  obtain ⟨k', output, hf, hk'⟩ := hT.loop_of_stuck h hstuck hmn hbuf hout hnil
  obtain ⟨c, sdb, hc⟩ := hT.enqueue_of_loop h hstuck hf
  obtain ⟨hroom, hin⟩ := hT.noRoom_of_stuck h hstuck hc
  obtain ⟨j, hj, hin⟩ := hT.conn_of_enqueue h hbuffers hc hin
  -- the loop has come to `c` before it comes to `n`
  have hlt : j < k' := by
    by_contra hle
    obtain ⟨l, hl⟩ := hT.exists_upstream m
    have hsent := h.sent_add (hT.uniform m) hl (hT.acyclic m) hj
    rw [threadBelow_under hbuf] at hsent
    have hpend : output ∈ (S.stack (.worker m 0)).flatMap (Frame.toForward m j) :=
      List.mem_flatMap.mpr ⟨_, hf, by simp [Frame.toForward]; omega⟩
    have hlen := hT.length_outputs_le h m
    rw [← hsent, List.length_append, List.length_singleton] at hlen
    have := List.length_pos_of_mem hpend
    have := List.length_pos_of_ne_nil hin
    omega
  exact hbefore j (by omega) c hj hroom

/-- **All fed elements are given the one block**, where no thread can make a step,
unless it came to a consumer. -/
theorem IsTree.inputs_of_fed (hT : P.IsTree) (h : P.Reachable priv [b] S) (hstuck : P.Stuck S)
    (hnone : P.handed S.log = []) (hentry : inputs P.entry S.log ≠ []) {n : ι} (hn : P.Fed n) :
    inputs n S.log ≠ [] := by
  induction hn with
  | entry => exact hentry
  | conn _ hm hmn hbefore ih =>
      refine hT.child_of_stuck h hstuck (fun p hp => ?_) hmn hbefore (hT.outputs_of_stuck h hstuck hm ih)
      exact by_contra fun hbuf => hp ((handed_eq_nil_iff.mp hnone).1 p hbuf)

/-- So it comes to a consumer if one is fed. -/
theorem IsTree.handed_of_stuck (hT : P.IsTree) (h : P.Reachable priv [b] S) (hstuck : P.Stuck S)
    (hentry : inputs P.entry S.log ≠ []) {n : ι} (hn : P.Fed n) (hcons : P.Consumes n) :
    P.handed S.log ≠ [] := by
  intro hnone
  have hin := hT.inputs_of_fed h hstuck hnone hentry hn
  obtain ⟨hprocess, hseen⟩ := handed_eq_nil_iff.mp hnone
  rcases hcons with hbuf | ⟨hroom, hvisitors⟩
  · exact hT.outputs_of_stuck h hstuck (fun hroom => hbuf hroom.isBuffer) hin (hprocess n hbuf)
  · exact hT.seen_of_stuck h hstuck (List.length_pos_of_ne_nil hvisitors)
      (hT.outputs_of_stuck h hstuck hroom hin) (hseen n 0)

end Pipeline

/-! ### More blocks -/

/-- The application has the blocks `bs` to push after its others. -/
def Frame.more {ι T : Type*} (bs : List (SharedDataBlock T)) : Frame ι T → Frame ι T
  | .main todo => .main (todo ++ bs)
  | f => f

namespace Pipeline

variable {ι V T σ : Type*} [DecidableEq ι] {P : Pipeline ι V T σ} {priv : ι → σ}
  {bs : List (SharedDataBlock T)} {S : State ι V T σ}

omit [DecidableEq ι] in
/-- A call is not the frame that blocks are added to. -/
theorem more_pushFrame (bs : List (SharedDataBlock T)) (n : ι) (sdb : SharedDataBlock T) :
    (P.pushFrame n sdb).more bs = P.pushFrame n sdb := by
  rcases pushFrame_cases P n sdb with ⟨-, h⟩ | ⟨-, h⟩ <;> rw [h] <;> rfl

/-- What a step can do is what `exec` computes. -/
theorem Exec.exec_eq {sh : Shared ι T σ} {f : Frame ι T} {e : Effect ι V T σ} (h : Exec P sh f e) :
    P.exec sh f = some e := by
  cases h with
  | forward n k output c h =>
      rw [Graph.Conn] at h
      simp [exec, h]
  | skip _ _ h | pass _ _ h | isStarted _ _ h | notStarted _ _ h => simp [exec, h]
  | visit _ _ _ _ h | visited _ _ _ h | forwarded _ _ _ h => simp [exec, h]
  | terminate _ _ h | assign _ _ h | enqueue _ _ h | dequeue _ _ _ h => simp [exec, h]
  | exit _ _ h | again _ _ h => simp [exec, h]
  | _ => rfl

/-- With more blocks to push a frame does the same, unless it is the application that
returns. -/
theorem Exec.more {sh : Shared ι T σ} {f : Frame ι T} {e : Effect ι V T σ} (h : Exec P sh f e)
    (hf : f ≠ .main []) (bs : List (SharedDataBlock T)) :
    P.exec sh (f.more bs) = some { e with frames := e.frames.map (Frame.more bs) } := by
  have hexec := h.exec_eq
  cases h with
  | returned => exact absurd rfl hf
  | push sdb todo => rw [List.map_cons, more_pushFrame]; rfl
  | forward n k output c => rw [List.map_cons, more_pushFrame]; exact hexec
  | _ => exact hexec

/-- **What can happen while some blocks are pushed can happen while these and more are
pushed.** -/
theorem Reachable.more (h : P.Reachable priv bs S) (bs' : List (SharedDataBlock T)) :
    ∃ S', P.Reachable priv (bs ++ bs') S' ∧ S'.shared = S.shared ∧ S'.log = S.log ∧
      ∀ t, S'.stack t = (S.stack t).map (Frame.more bs') ∨ (t = .pusher ∧ S.stack t = []) := by
  induction h with
  | refl =>
      refine ⟨init priv (bs ++ bs'), .refl, rfl, rfl, fun t => Or.inl ?_⟩
      by_cases ht : t = .pusher <;> simp [init, ht, Frame.more]
  | tail hS hstep ih =>
      obtain ⟨S', hS', hshared, hlog, hstacks⟩ := ih
      cases hstep with
      | timeout => exact ⟨S', hS', hshared, hlog, hstacks⟩
      | thread hp =>
          obtain ⟨t, ht⟩ := hp
          obtain ⟨f, rest, e, hstack, hterm, hexec, rfl⟩ := step_cases ht
          by_cases hf : f = .main []
          · -- the application returns, and with more blocks it waits
            subst hf
            have hbot := Reachable.bottom hS t
            rw [hstack] at hbot
            obtain ⟨hmain, rfl⟩ := hbot.eq_nil id
            cases hmain
            cases hexec
            refine ⟨S', hS', hshared, by simpa using hlog, fun t' => ?_⟩
            by_cases ht' : t' = .pusher
            · exact Or.inr ⟨ht', by simp [spawn, ht']⟩
            · simpa [spawn, ht'] using hstacks t'
          · have hstack' : S'.stack t = f.more bs' :: rest.map (Frame.more bs') := by
              rcases hstacks t with hs | ⟨-, hs⟩
              · rw [hs, hstack, List.map_cons]
              · exact absurd (hstack.symm.trans hs) (by simp)
            have hstep' : P.step t S' = some ⟨e.shared, spawn (Function.update S'.stack t
                ((e.frames ++ rest).map (Frame.more bs'))) e.spawned, S'.log ++ e.events⟩ := by
              rw [step, hstack']
              simp [hshared, hterm, hexec.more hf bs']
            refine ⟨_, hS'.tail (.thread ⟨t, hstep'⟩), rfl, by simp only [hlog], fun t' => ?_⟩
            by_cases ho : ∃ c i, e.spawned = some (c, i) ∧ t' = .worker c i
            · obtain ⟨c, i, ho, rfl⟩ := ho
              exact Or.inl (by simp [spawn, ho, Frame.more])
            · push Not at ho
              simp only [spawn_of_ne ho]
              by_cases ht' : t' = t
              · subst ht'
                exact Or.inl (by simp)
              · simpa [ht'] using hstacks t'

/-- What was logged stays. -/
theorem log_isPrefix {S S' : State ι V T σ} (h : Relation.ReflTransGen P.Progress S S') :
    S.log <+: S'.log := by
  induction h with
  | refl => exact List.prefix_rfl
  | tail _ hp ih =>
      obtain ⟨t, ht⟩ := hp
      obtain ⟨f, rest, e, -, -, -, rfl⟩ := step_cases ht
      exact ih.trans (List.prefix_append _ _)

/-- **A block comes to a consumer** in some run if a consumer is fed. -/
theorem IsTree.exists_handed [Finite ι] (hT : P.IsTree) (priv : ι → σ) (b : SharedDataBlock T)
    (bs : List (SharedDataBlock T)) {n : ι} (hn : P.Fed n) (hcons : P.Consumes n) :
    ∃ S, P.Reachable priv (b :: bs) S ∧ P.handed S.log ≠ [] := by
  obtain ⟨S₁, hstep, hlog⟩ : ∃ S₁, P.step .pusher (init priv [b]) = some S₁ ∧
      S₁.log = [.call .external P.entry b] := ⟨_, by simp [step, init, exec]; rfl, rfl⟩
  have hS₁ : P.Reachable priv [b] S₁ := Relation.ReflTransGen.single (.thread ⟨_, hstep⟩)
  obtain ⟨S, hprogress, hS, hstuck⟩ := hS₁.exists_goal hT.acyclic (Q := P.Stuck)
    fun S _ hnot => by simpa [Stuck] using hnot
  have hentry : inputs P.entry S.log ≠ [] := by
    obtain ⟨log, hlog'⟩ := log_isPrefix hprogress
    rw [← hlog', hlog]
    simp [inputs]
  obtain ⟨S', hS', -, hlog', -⟩ := hS.more bs
  exact ⟨S', hS', hlog' ▸ hT.handed_of_stuck hS hstuck hentry hn hcons⟩

/-- **`isEmpty()` is a sound guard exactly where it is not used.**  On a finite tree of
processors and buffers, whatever the operations that build the blocks: no consumer
that calls `data()` exactly when `isEmpty()` is false ever dereferences a null pointer
or leaves data unread, if and only if nothing is pushed, or no consumer is fed. -/
theorem guard_sound_iff [Finite ι] (hT : P.IsTree) (priv : ι → σ)
    (programs : List (List (BlockOp T) × BlockVar)) :
    (∀ S, P.Reachable priv (programs.map fun program => build program.1 program.2) S →
        P.GuardSound S.log) ↔
      programs = [] ∨ ∀ n, P.Fed n → ¬ P.Consumes n := by
  simp only [guardSound_iff]
  constructor
  · intro h
    rcases programs with _ | ⟨program, programs⟩
    · exact Or.inl rfl
    · refine Or.inr fun n hn hcons => ?_
      obtain ⟨S, hS, hhanded⟩ := hT.exists_handed priv (build program.1 program.2)
        (programs.map fun program => build program.1 program.2) hn hcons
      exact hhanded (h S hS)
  · intro h S hS
    by_contra hhanded
    obtain ⟨n, hcons, hin⟩ := hT.exists_consumer hS hhanded
    rcases h with rfl | h
    · have hlen := hT.length_inputs_le hS n
      exact hin (List.length_eq_zero_iff.mp (Nat.le_zero.mp hlen))
    · exact h n (hT.fed_of_inputs hS n hin) hcons

/-- In the tree of four the condition is about processors that are fed. -/
theorem guard_sound_iff_bufferedTree :
    (∀ S, bufferedTree.Reachable (fun _ => 0)
        ([([.setData 0 1], .writable 0), ([.createEos 0 {}, .asShared 1 0], .shared 1)].map
          fun program => build program.1 program.2) S → bufferedTree.GuardSound S.log) ↔
      ([([.setData 0 1], .writable 0), ([.createEos 0 {}, .asShared 1 0], .shared 1)] :
          List (List (BlockOp ℕ) × BlockVar)) = [] ∨
        ∀ n, bufferedTree.Fed n → ¬ bufferedTree.Consumes n :=
  guard_sound_iff isTree_bufferedTree _ _

/-- A block with data, and then an end-of-processing block without: the first is not
read, and for the second a null pointer is dereferenced. -/
theorem not_guardSound_bufferedTree :
    bufferedTree.IsTree ∧ ∃ S, bufferedTree.Reachable (fun _ => 0)
        ([([.setData 0 1], .writable 0), ([.createEos 0 {}, .asShared 1 0], .shared 1)].map
          fun program => build program.1 program.2) S ∧
      (∃ sdb ∈ bufferedTree.handed S.log, sdb.data = some 1 ∧ guardedAccess sdb = .skipped) ∧
      (∃ sdb ∈ bufferedTree.handed S.log, guardedAccess sdb = .nullDereference) ∧
      ¬ bufferedTree.GuardSound S.log := by
  have hrun : (bufferedTree.run (List.replicate 21 .pusher)
      (init (fun _ => 0) [⟨some 1, none⟩, ⟨none, some {}⟩])).map (fun S =>
        decide (⟨some 1, none⟩ ∈ bufferedTree.handed S.log ∧
          ⟨none, some {}⟩ ∈ bufferedTree.handed S.log)) = some true := by
    decide
  obtain ⟨S, hS, hhanded⟩ := Option.map_eq_some_iff.mp hrun
  obtain ⟨hdata, heop⟩ := of_decide_eq_true hhanded
  have hreach : bufferedTree.Reachable (fun _ => 0) _ S := Reachable.run .refl hS
  exact ⟨isTree_bufferedTree, S, hreach, ⟨_, hdata, rfl, rfl⟩, ⟨_, heop, rfl⟩,
    fun h => (h _ heop).noNull rfl⟩

end Pipeline
end CppDataStream
