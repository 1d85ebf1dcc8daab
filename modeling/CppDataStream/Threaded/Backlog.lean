/-
# How far an element lags behind

`include/cppdatastream/DataStream.hpp`, lines 332 and 341-368.  A buffer for `maxBlocks`
blocks is there so that the blocks which were pushed and are still to be processed need
a bounded amount of memory, however slow the elements behind it are.

A thread is given blocks one by one: the pushing thread by the application, a worker by
its queue (`givenTo`).  It is given a block only between two calls (`Between`), and then
all that it was given before has come through to every element and every buffer that it
pushes into (`Outlet`).  So a thread has one block at hand, and a queue has `maxBlocks`:
on a tree, what an element has not processed of the blocks pushed at the entry is a
suffix of them, no longer than `room` (`IsTree.backlog`).
-/

import CppDataStream.Threaded.Chains

namespace CppDataStream

open Streams

namespace Pipeline

variable {ι V T σ : Type*} {P : Pipeline ι V T σ}

/-- The blocks that can be under way below the buffers `l`: one that the pushing thread
has at hand, and for every buffer those in its queue and one that its worker has. -/
def room (P : Pipeline ι V T σ) (l : List ι) : ℕ :=
  (l.map fun c => (P.maxBlocks c).getD 0 + 1).sum + 1

/-- One more buffer adds its capacity and the block of its worker. -/
@[simp] theorem room_concat (l : List ι) (c : ι) :
    P.room (l ++ [c]) = P.room l + ((P.maxBlocks c).getD 0 + 1) := by
  simp [room]
  omega

/-- The thread is between two calls of `pushData`, or has returned. -/
def Between (t : Thread ι) (S : State ι V T σ) : Prop := ∀ f ∈ S.stack t, ¬ f.Call

/-- Between two calls a thread owes nothing that a call would pay. -/
theorem Between.flatMap_eq_nil {t : Thread ι} {S : State ι V T σ} (h : Between t S)
    {pend : Frame ι T → List (SharedDataBlock T)} (hpend : ∀ f, ¬ f.Call → pend f = []) :
    (S.stack t).flatMap pend = [] :=
  List.flatMap_eq_nil_iff.mpr fun f hf => hpend f (h f hf)

variable [DecidableEq ι] {priv : ι → σ} {bs rest : List (SharedDataBlock T)} {S : State ι V T σ}
  {n c : ι} {l : List ι}

/-- What the thread below the buffers `l` was given. -/
def givenTo (P : Pipeline ι V T σ) (l : List ι) (log : List (Event ι V T)) : List (SharedDataBlock T) :=
  match l.getLast? with
  | none => inputsFrom P.entry .external log
  | some c => delivered c log

/-- The pushing thread is given what is pushed. -/
@[simp] theorem givenTo_nil (log : List (Event ι V T)) :
    P.givenTo [] log = inputsFrom P.entry .external log := rfl

/-- A worker is given what its buffer delivers. -/
@[simp] theorem givenTo_concat (l : List ι) (c : ι) (log : List (Event ι V T)) :
    P.givenTo (l ++ [c]) log = delivered c log := by
  simp [givenTo]

/-- At first a thread was given nothing. -/
@[simp] theorem givenTo_empty (l : List ι) : P.givenTo l ([] : List (Event ι V T)) = [] := by
  unfold givenTo
  split <;> rfl

/-- What a thread was given in two logs is what it was given in each. -/
@[simp] theorem givenTo_append (l : List ι) (log log' : List (Event ι V T)) :
    P.givenTo l (log ++ log') = P.givenTo l log ++ P.givenTo l log' := by
  unfold givenTo
  split
  · exact inputsFrom_append ..
  · exact delivered_append ..

/-! ### Between two calls, all that was given has come through -/

/-- An element that passes everything on emits what it has taken. -/
theorem PassesOn.outputs_eq (hpass : P.PassesOn) (hT : P.IsTree)
    (hbs : Ended SharedDataBlock.isEndOfProcessing (bs ++ rest)) (h : P.Reachable priv bs S) (n : ι) :
    outputs n S.log = taken n S.log := by
  obtain ⟨r, hr⟩ := hT.exists_upstream n
  obtain ⟨l, hl⟩ := hT.exists_streamAt priv bs n
  have htaken : taken n S.log <+: bs ++ rest :=
    (hT.taken_isPrefix h n).trans ((hT.inputs_isPrefix h hl).trans
      ((hl.isPrefix hpass).trans (List.prefix_append ..)))
  rw [(h.latched (hT.uniform n) hr).outputs]
  exact latchOut_of_passesOn (hpass n) (fun _ => SharedDataBlock.isEndOfProcessing_of_isEopError) _
    htaken hbs

/-- If an element was called with all that its thread was given, it has processed it. -/
theorem IsTree.taken_of_between (hT : P.IsTree) (h : P.Reachable priv bs S) (hl : P.Upstream n l)
    (hin : Between (threadBelow l) S → inputs n S.log = P.givenTo l S.log)
    (hbetween : Between (threadBelow (P.under n l)) S) :
    taken n S.log = P.givenTo (P.under n l) S.log := by
  have hpend : ∀ f : Frame ι T, ¬ f.Call → f.toTake n = [] := fun f hf => by
    cases f with
    | hadError | process => exact absurd trivial hf
    | _ => rfl
  by_cases hn : P.IsBuffer n
  · have htaken := h.delivered_taken_add (hT.uniform n) hl hn
    rw [threadBelow_under hn] at hbetween
    rw [hbetween.flatMap_eq_nil hpend, List.append_nil] at htaken
    rw [htaken, under, if_pos hn, givenTo_concat]
  · have htaken := h.taken_add (hT.uniform n) hl hn
    rw [under, if_neg hn] at hbetween ⊢
    rw [hbetween.flatMap_eq_nil hpend, List.append_nil, hin hbetween] at htaken
    exact htaken

/-- It was called with all of it. -/
theorem IsTree.inputs_of_between (hT : P.IsTree) (hpass : P.PassesOn)
    (hbs : Ended SharedDataBlock.isEndOfProcessing (bs ++ rest)) (h : P.Reachable priv bs S)
    (hl : P.Upstream n l) (hbetween : Between (threadBelow l) S) :
    inputs n S.log = P.givenTo l S.log := by
  induction hl with
  | entry => exact hT.inputs_entry h
  | @conn m n l hl hmn ih =>
      obtain ⟨k, hk⟩ := List.mem_iff_getElem?.mp hmn
      have hsent := h.sent_add (hT.uniform m) hl (hT.acyclic m) hk
      rw [hbetween.flatMap_eq_nil fun f hf => ?_, List.append_nil] at hsent
      · rw [hT.inputs_child h hk, hsent, hpass.outputs_eq hT hbs h]
        exact hT.taken_of_between h hl ih hbetween
      · cases f with
        | process | visit | forward => exact absurd trivial hf
        | _ => rfl

/-- What has come through, of what the thread below `l` was given. -/
structure Outlet (P : Pipeline ι V T σ) (priv : ι → σ) (bs : List (SharedDataBlock T)) (l : List ι)
    (sink : List (Event ι V T) → List (SharedDataBlock T)) : Prop where
  append : ∀ log log', sink (log ++ log') = sink log ++ sink log'
  settled : ∀ S, P.Reachable priv bs S → Between (threadBelow l) S → sink S.log = P.givenTo l S.log

/-- What an element takes is such an outlet of the thread it runs on. -/
theorem IsTree.outlet_taken (hT : P.IsTree) (hpass : P.PassesOn)
    (hbs : Ended SharedDataBlock.isEndOfProcessing (bs ++ rest)) (hl : P.Upstream n l) :
    P.Outlet priv bs (P.under n l) (taken n) where
  append := taken_append n
  settled _ h := hT.taken_of_between h hl (hT.inputs_of_between hpass hbs h hl)

/-- What is enqueued in a buffer is one of its producer. -/
theorem IsTree.outlet_enqueued (hT : P.IsTree) (hpass : P.PassesOn)
    (hbs : Ended SharedDataBlock.isEndOfProcessing (bs ++ rest)) (hl : P.Upstream c l)
    (hbuf : P.IsBuffer c) : P.Outlet priv bs l (enqueued c) where
  append := enqueued_append c
  settled S h hbetween := by
    have henq := h.enqueued_add (hT.uniform c) hl hbuf
    rw [hbetween.flatMap_eq_nil fun f hf => ?_, List.append_nil] at henq
    · rw [henq, hT.inputs_of_between hpass hbs h hl hbetween]
    · cases f with
      | startTest | start | assign | started | enqueue => exact absurd trivial hf
      | _ => rfl

/-! ### One block at hand -/

omit [DecidableEq ι] in
/-- The buffers `l` come one after the other on a path from the entry. -/
inductive BufferPath (P : Pipeline ι V T σ) : List ι → Prop
  | nil : BufferPath P []
  | concat {c : ι} {l : List ι} (hl : P.Upstream c l) (hbuf : P.IsBuffer c) : BufferPath P (l ++ [c])

omit [DecidableEq ι] in
/-- The buffers above an element are on a path. -/
theorem Upstream.bufferPath (hl : P.Upstream n l) : P.BufferPath l := by
  cases hlast : l.getLast? with
  | none =>
      obtain rfl := List.getLast?_eq_none_iff.mp hlast
      exact .nil
  | some c =>
      obtain ⟨l', hl', hbuf, rfl⟩ := hl.last hlast
      exact .concat hl' hbuf

omit [DecidableEq ι] in
/-- So are they with the element, if it is a buffer. -/
theorem Upstream.bufferPath_under (hl : P.Upstream n l) : P.BufferPath (P.under n l) := by
  unfold under
  split_ifs with hn
  · exact .concat hl hn
  · exact hl.bufferPath

/-- A thread is given one block at a time, between two calls. -/
theorem Exec.given {f : Frame ι T} {rest : List (Frame ι T)} {t : Thread ι} {e : Effect ι V T σ}
    (h : P.Reachable priv bs S) (hT : P.IsTree) (hl : P.BufferPath l) (hstack : S.stack t = f :: rest)
    (hexec : Exec P S.shared f e) :
    P.givenTo l e.events = [] ∨ ((P.givenTo l e.events).length = 1 ∧ Between (threadBelow l) S) := by
  have hbot := h.bottom t
  rw [hstack] at hbot
  have hbetween : ¬ f.Call → t = threadBelow l → Between (threadBelow l) S := by
    rintro hf rfl g hg
    obtain rfl := (hbot.eq_nil hf).2
    rw [hstack] at hg
    obtain rfl := List.mem_singleton.mp hg
    exact hf
  cases hl with
  | nil =>
      cases hexec with
      | push sdb todo =>
          refine Or.inr ⟨by simp [inputsFrom], hbetween id ?_⟩
          cases (hbot.eq_nil id).1
          rfl
      | forward m k output d hd => exact Or.inl (by simp [inputsFrom])
      | _ => exact Or.inl rfl
  | @concat c l hl hbuf =>
      rw [givenTo_concat]
      cases hexec with
      | deliver c' sdb =>
          by_cases hc : c' = c
          · subst hc
            refine Or.inr ⟨by simp [delivered], hbetween id ?_⟩
            -- a buffer has one worker
            cases (hbot.eq_nil id).1 with
            | deliver _ i =>
                have hlive := h.wellFormed.live c' i (by simp [hstack])
                have hone := (h.confined (hT.uniform c') hl).oneWorker
                obtain rfl : i = 0 := by omega
                simp [threadBelow]
          · exact Or.inl (by simp [delivered, hc])
      | _ => exact Or.inl rfl

/-- **All but the last block that a thread was given has come through.** -/
theorem Outlet.length_le (hT : P.IsTree) (hl : P.BufferPath l)
    {sink : List (Event ι V T) → List (SharedDataBlock T)} (ho : P.Outlet priv bs l sink)
    (h : P.Reachable priv bs S) : (P.givenTo l S.log).length ≤ (sink S.log).length + 1 := by
  refine h.induct (I := fun S => (P.givenTo l S.log).length ≤ (sink S.log).length + 1)
    (by simp [init]) fun S t f rest e hS ih hstack hexec _ => ?_
  simp only [givenTo_append, ho.append, List.length_append]
  rcases hexec.given hS hT hl hstack with hnone | ⟨hone, hbetween⟩
  · rw [hnone, List.length_nil]
    omega
  · rw [hone, ho.settled S hS hbetween]
    omega

/-- The worker holds no block, or it holds one and is not in a call. -/
theorem Reachable.held_cases (h : P.Reachable priv bs S) (hT : P.IsTree) (hl : P.Upstream c l)
    (hbuf : P.IsBuffer c) :
    held c S = [] ∨ ((held c S).length = 1 ∧ Between (.worker c 0) S) := by
  cases h.inRun (hT.uniform c) hl hbuf with
  | notStarted _ hfs | waiting _ hfs | exited _ hfs =>
      exact Or.inl (by simp [held, hfs, Frame.toDeliver])
  | holding sdb _ hfs =>
      refine Or.inr ⟨by simp [held, hfs, Frame.toDeliver], fun f hf => ?_⟩
      rw [hfs] at hf
      obtain rfl := List.mem_singleton.mp hf
      exact id
  | pushing calls sdb l' _ hfs hcalls =>
      have hnone : calls.flatMap (Frame.toDeliver c) = [] :=
        List.flatMap_eq_nil_iff.mpr fun f hf => toDeliver_of_call (hcalls f hf)
      exact Or.inl (by simp [held, hfs, hnone, Frame.toDeliver])

/-- Behind a buffer, what was enqueued and has not come through is in the queue, but for
the block that the worker has at hand. -/
theorem Outlet.enqueued_le (hT : P.IsTree) (hl : P.Upstream c l) (hbuf : P.IsBuffer c)
    {sink : List (Event ι V T) → List (SharedDataBlock T)} (ho : P.Outlet priv bs (l ++ [c]) sink)
    (h : P.Reachable priv bs S) :
    (enqueued c S.log).length ≤ (sink S.log).length + ((P.maxBlocks c).getD 0 + 1) := by
  have hqueue := (h.queue c).2
  have hfifo := congrArg List.length (h.fifo (hT.uniform c) hl hbuf)
  rw [List.length_append, List.length_append] at hfifo
  rcases h.held_cases hT hl hbuf with hheld | ⟨hheld, hbetween⟩
  · -- the worker has at most the block of the call that it is in
    have hle := ho.length_le hT (.concat hl hbuf) h
    rw [givenTo_concat] at hle
    rw [hheld, List.length_nil] at hfifo
    omega
  · have hsettled := ho.settled S h (by rwa [threadBelow, List.getLast?_concat])
    rw [givenTo_concat] at hsettled
    rw [← hsettled, hheld] at hfifo
    omega

/-! ### The backlog -/

/-- Whatever counts what has come through a path, lags behind by the room on it. -/
theorem Outlet.length_blocks_le (hT : P.IsTree) (hpass : P.PassesOn)
    (hbs : Ended SharedDataBlock.isEndOfProcessing (bs ++ rest)) (hl : P.BufferPath l)
    {sink : List (Event ι V T) → List (SharedDataBlock T)} (ho : P.Outlet priv bs l sink)
    (h : P.Reachable priv bs S) : (P.blocks S).length ≤ (sink S.log).length + P.room l := by
  induction l using List.reverseRecOn generalizing sink with
  | nil => exact ho.length_le hT .nil h
  | append_singleton l c ih =>
      generalize hlc : l ++ [c] = lc at hl
      cases hl with
      | nil => exact absurd hlc (by simp)
      | @concat c' l' hl hbuf =>
          obtain ⟨rfl, heq⟩ := List.append_inj' hlc rfl
          obtain rfl := (List.cons.inj heq).1
          have hle := ih hl.bufferPath (hT.outlet_enqueued hpass hbs hl hbuf)
          have henq := ho.enqueued_le hT hl hbuf h
          rw [room_concat]
          omega

/-- An element has processed the beginning of what was pushed. -/
theorem IsTree.taken_isPrefix_blocks (hT : P.IsTree) (hpass : P.PassesOn)
    (hbs : Ended SharedDataBlock.isEndOfProcessing (bs ++ rest)) (h : P.Reachable priv bs S)
    (hl : P.Upstream n l) : taken n S.log <+: P.blocks S := by
  refine (hT.taken_isPrefix h n).trans ?_
  induction hl with
  | entry => exact (hT.inputs_entry h).symm ▸ List.prefix_rfl
  | @conn m n l hl hmn ih =>
      obtain ⟨k, hk⟩ := List.mem_iff_getElem?.mp hmn
      rw [hT.inputs_child h hk]
      calc inputsFrom n (.connection m k) S.log
        _ <+: outputs m S.log := ⟨_, h.sent_add (hT.uniform m) hl (hT.acyclic m) hk⟩
        _ = taken m S.log := hpass.outputs_eq hT hbs h m
        _ <+: inputs m S.log := hT.taken_isPrefix h m
        _ <+: P.blocks S := ih

/-- **The backlog of an element is bounded**: what was pushed is what the element has
processed, and after it no more blocks than there is room for on the way. -/
theorem IsTree.backlog (hT : P.IsTree) (hpass : P.PassesOn)
    (hbs : Ended SharedDataBlock.isEndOfProcessing (bs ++ rest)) (h : P.Reachable priv bs S)
    (hl : P.Upstream n l) :
    ∃ late, P.blocks S = taken n S.log ++ late ∧ late.length ≤ P.room (P.under n l) := by
  obtain ⟨late, hlate⟩ := hT.taken_isPrefix_blocks hpass hbs h hl
  have hle := (hT.outlet_taken hpass hbs hl).length_blocks_le hT hpass hbs hl.bufferPath_under h
  rw [← hlate, List.length_append] at hle
  exact ⟨late, hlate.symm, by omega⟩

omit [DecidableEq ι] in
/-- In a chain every element is behind the one buffer. -/
theorem under_chain {maxBlocks : ℕ} {stages : List (σ → SharedDataBlock T → σ × SharedDataBlock T)}
    {n : Fin (stages.length + 1)} {l : List (Fin (stages.length + 1))}
    (hl : (chain maxBlocks stages).Upstream n l) : (chain maxBlocks stages).under n l = [0] := by
  induction hl with
  | entry => exact if_pos (by simp [IsBuffer, chain])
  | @conn m n l _ hmn ih =>
      obtain ⟨k, hk⟩ := List.mem_iff_getElem?.mp hmn
      have hn : n ≠ 0 := fun hn => by
        rw [hn] at hk
        exact absurd (conn_chain.mp hk).2 (Nat.succ_ne_zero _).symm
      rw [ih, under, if_neg (by simp [IsBuffer, chain, hn])]

end Pipeline

namespace Application

variable {α ι V T σ : Type*} [DecidableEq ι] [DecidableEq V] {P : Pipeline ι V T σ} {priv : ι → σ}
  {bs : List (SharedDataBlock T)}

/-- **A pipeline holds a bounded number of blocks, whatever drives it.**  On a tree of
elements that pass on their blocks, at every moment, what an application has pushed of a
stream that ends with its one end-of-processing block is what an element has processed,
in this order, and after it at most one block for every thread and `maxBlocks` for every
buffer on the way to the element. -/
theorem backlog_bounded (A : Application α ι V T) (hT : P.IsTree) (hpass : P.PassesOn)
    (hbs : Ended SharedDataBlock.isEndOfProcessing bs) :
    ∀ k a S, A.RunsTo P priv k a S → P.blocks S <+: bs → ∀ n l, P.Upstream n l →
      ∃ late, P.blocks S = taken n S.log ++ late ∧ late.length ≤ P.room (P.under n l) := by
  intro k a S h hpart n l hl
  obtain ⟨rest, rfl⟩ := hpart
  exact hT.backlog hpass hbs h.reachable hl

/-- What `pushing` has pushed, and what it has still to push. -/
theorem blocks_pushing {todo a : List (SharedDataBlock T)} {S : State ι V T σ} {k : ℕ}
    (h : (pushing todo).RunsTo P priv k a S) : P.blocks S ++ a = todo := by
  refine h.induct (I := fun a S => P.blocks S ++ a = todo) rfl (fun _ _ ih _ hstep hS => ?_)
    (fun hrun _ ih hstep _ => ?_) fun _ _ hout => False.elim hout
  · rw [blocks_sync hS, List.append_assoc, ← ih]
    exact congrArg _ (Eq.symm hstep)
  · rw [hrun.reachable.blocks_step hstep]
    exact ih

/-- A buffer for two blocks, and two elements behind it that count their blocks. -/
def countingChain : Pipeline (Fin 3) Unit ℕ ℕ :=
  .chain 2 [fun st sdb => (st + 1, sdb), fun st sdb => (st + 1, sdb)]

/-- Of a thousand blocks at most four are under way to the second, and one is when the
first push has begun. -/
theorem backlog_bounded_countingChain : ∃ k a S,
    (pushing (List.replicate 1000 ⟨some 1, none⟩ ++ [⟨none, some {}⟩])).RunsTo countingChain
        (fun _ => 0) k a S ∧ countingChain.blocks S = [⟨some 1, none⟩] ∧
      ∃ late, countingChain.blocks S = taken 2 S.log ++ late ∧ late.length ≤ 4 := by
  have hstart : (pushing (List.replicate 1000 ⟨some 1, none⟩ ++ [⟨none, some {}⟩])).RunsTo countingChain
      (fun _ => 0) 1 (List.replicate 999 ⟨some 1, none⟩ ++ [⟨none, some {}⟩])
      (countingChain.pushEntry ⟨some 1, none⟩ (Pipeline.init (fun _ => 0) [])) :=
    .progress .refl (.act rfl (x := .call ⟨some 1, none⟩) rfl (.call _ _ rfl))
  have hT : countingChain.IsTree := Pipeline.isTree_chain
  obtain ⟨l, hl⟩ := hT.exists_upstream 2
  have hbounded := backlog_bounded _ hT (Pipeline.passesOn_chain (by simp))
    ⟨List.replicate 1000 ⟨some 1, none⟩, ⟨none, some {}⟩, rfl,
      fun _ h => List.eq_of_mem_replicate h ▸ rfl, rfl⟩ _ _ _ hstart ⟨_, blocks_pushing hstart⟩ 2 l hl
  have hunder : countingChain.under 2 l = [0] := Pipeline.under_chain hl
  rw [hunder] at hbounded
  exact ⟨_, _, _, hstart, rfl, hbounded⟩

end Application
end CppDataStream
