/-
# Trees of elements, and the streams they compute

In a tree every element but the entry is connected once, to one other, so all paths
to an element lead through the same buffers, and it is called by one connection
only.  What it is given is then determined by what was pushed at the entry:
`StreamAt P priv bs n l` says that the elements above `n`, each a latched stage of
its `processData`, make `l` of `bs`.  No thread appears in it.

`IsTree.inputs_isPrefix` says that in every interleaving, at every moment, the elements
have been given and have emitted prefixes of these streams.  If the stream pushed at
the entry ends with its one end-of-processing block, and the elements keep to that
protocol, then nothing is missing once no thread has anything to do but wait for a
block (`Quiet`), and all workers have exited (`IsTree.quiet`): a worker that still
waited would have been given the end-of-processing block.
-/

import CppDataStream.Threaded.Conservation

namespace CppDataStream

open Streams

/-- `processData` maps an end-of-processing block to one, and another block to
another or to an error. -/
structure KeepsProtocol {T σ : Type*} (f : σ → SharedDataBlock T → σ × SharedDataBlock T) : Prop where
  data : ∀ st sdb, sdb.isEndOfProcessing = false →
    (f st sdb).2.isEndOfProcessing = false ∨ (f st sdb).2.isEopError = true
  eop : ∀ st sdb, sdb.isEndOfProcessing = true → (f st sdb).2.isEndOfProcessing = true

/-- An element that keeps the protocol maps an ended stream to one. -/
theorem KeepsProtocol.ended {T σ : Type*} {f : σ → SharedDataBlock T → σ × SharedDataBlock T}
    (hf : KeepsProtocol f) (st : σ) {l : List (SharedDataBlock T)}
    (hl : Ended SharedDataBlock.isEndOfProcessing l) :
    Ended SharedDataBlock.isEndOfProcessing (latchOut f SharedDataBlock.isEopError (st, false) l) :=
  ended_latchOut (fun _ => SharedDataBlock.isEndOfProcessing_of_isEopError) hf.data hf.eop hl

namespace Pipeline

variable {ι V T σ : Type*}

/-- The elements form a tree with the entry at its root. -/
structure IsTree (P : Pipeline ι V T σ) : Prop where
  root : ∀ m, ¬ P.Adj m P.entry
  parent : ∀ {m m' n k k'}, P.Conn m k n → P.Conn m' k' n → m = m' ∧ k = k'
  connected : ∀ n, Relation.ReflTransGen P.Adj P.entry n

variable {P : Pipeline ι V T σ}

/-- What holds at the root, and of the children of an element of which it holds,
holds of all elements. -/
theorem IsTree.induct (hT : P.IsTree) {Q : ι → Prop} (entry : Q P.entry)
    (child : ∀ m k n, P.Conn m k n → Q m → Q n) (n : ι) : Q n := by
  induction hT.connected n with
  | refl => exact entry
  | tail _ hmn ih =>
      obtain ⟨k, hk⟩ := List.mem_iff_getElem?.mp hmn
      exact child _ k _ hk ih

/-- A tree has no cycles. -/
theorem IsTree.acyclic (hT : P.IsTree) : DirectedGraph.Acyclic P.Adj := by
  refine hT.induct (fun h => ?_) fun m k n hmn ih h => ?_
  · obtain ⟨m, -, hm⟩ := Relation.TransGen.tail'_iff.mp h
    exact hT.root m hm
  · obtain ⟨m', hnm, hm'⟩ := Relation.TransGen.tail'_iff.mp h
    obtain ⟨k', hk'⟩ := List.mem_iff_getElem?.mp hm'
    obtain ⟨rfl, -⟩ := hT.parent hmn hk'
    exact ih (Relation.TransGen.head' hmn.adj hnm)

/-- A child is not the root. -/
theorem IsTree.ne_entry (hT : P.IsTree) {m n : ι} {k : ℕ} (hmn : P.Conn m k n) : n ≠ P.entry :=
  fun hn => hT.root m (hn ▸ hmn.adj)

/-- All paths to an element of a tree lead through the same buffers. -/
theorem IsTree.uniform (hT : P.IsTree) (n : ι) : P.Uniform n := by
  refine hT.induct (Q := P.Uniform) (fun l l' h h' => ?_) (fun m k n hmn ih l l' h h' => ?_) n
  · have hroot := hT.acyclic P.entry
    exact uniform_entry hroot l l' h h'
  · have hparent : ∀ l, P.Upstream n l → ∃ l', P.Upstream m l' ∧ l = P.under m l' := fun l hl => by
      cases hl with
      | entry => exact absurd rfl (hT.ne_entry hmn)
      | @conn m' _ l' hl' hm' =>
          obtain ⟨k', hk'⟩ := List.mem_iff_getElem?.mp hm'
          obtain ⟨rfl, -⟩ := hT.parent hmn hk'
          exact ⟨l', hl', rfl⟩
    obtain ⟨r, hr, rfl⟩ := hparent l h
    obtain ⟨r', hr', rfl⟩ := hparent l' h'
    rw [ih r r' hr hr']

/-- Every element has a path from the root. -/
theorem IsTree.exists_upstream (hT : P.IsTree) (n : ι) : ∃ l, P.Upstream n l :=
  hT.induct (Q := fun n => ∃ l, P.Upstream n l) ⟨[], .entry⟩
    (fun _ _ _ hmn ⟨_, hl⟩ => ⟨_, .conn hl hmn.adj⟩) n

/-! ### The streams of a tree -/

/-- What the elements above `n` make of the blocks `bs` pushed at the entry, when
`priv` is what the elements start with. -/
inductive StreamAt (P : Pipeline ι V T σ) (priv : ι → σ) (bs : List (SharedDataBlock T)) :
    ι → List (SharedDataBlock T) → Prop
  | entry : StreamAt P priv bs P.entry bs
  | conn {m n : ι} {k : ℕ} {l : List (SharedDataBlock T)} (h : StreamAt P priv bs m l)
      (hmn : P.Conn m k n) :
      StreamAt P priv bs n (latchOut (P.processData m) SharedDataBlock.isEopError (priv m, false) l)

variable {priv : ι → σ} {bs : List (SharedDataBlock T)}

/-- Every element has a stream. -/
theorem IsTree.exists_streamAt (hT : P.IsTree) (priv : ι → σ) (bs : List (SharedDataBlock T)) (n : ι) :
    ∃ l, P.StreamAt priv bs n l :=
  hT.induct (Q := fun n => ∃ l, P.StreamAt priv bs n l) ⟨bs, .entry⟩
    (fun _ _ _ hmn ⟨_, hl⟩ => ⟨_, .conn hl hmn⟩) n

/-- Buffers keep the protocol, as they return their argument. -/
theorem keepsProtocol (hproto : ∀ n, ¬ P.IsBuffer n → KeepsProtocol (P.processData n)) (n : ι) :
    KeepsProtocol (P.processData n) := by
  by_cases hn : P.IsBuffer n
  · exact ⟨fun st sdb h => Or.inl (by rw [P.processData_buffer n hn]; exact h),
      fun st sdb h => by rw [P.processData_buffer n hn]; exact h⟩
  · exact hproto n hn

/-- **Every stream of a tree ends** with its one end-of-processing block. -/
theorem StreamAt.ended (hproto : ∀ n, ¬ P.IsBuffer n → KeepsProtocol (P.processData n))
    (hbs : Ended SharedDataBlock.isEndOfProcessing bs) {n : ι} {l : List (SharedDataBlock T)}
    (h : P.StreamAt priv bs n l) : Ended SharedDataBlock.isEndOfProcessing l := by
  induction h with
  | entry => exact hbs
  | conn _ _ ih => exact (keepsProtocol hproto _).ended _ ih

/-! ### Interleavings compute prefixes -/

variable [DecidableEq ι] {S : State ι V T σ}

/-- The root is given what is pushed. -/
theorem IsTree.inputs_entry (hT : P.IsTree) (h : P.Reachable priv bs S) :
    inputs P.entry S.log = inputsFrom P.entry .external S.log :=
  h.inputs_entry (hT.acyclic P.entry)

/-- A child is given what comes through its one connection. -/
theorem IsTree.inputs_child (hT : P.IsTree) (h : P.Reachable priv bs S) {m n : ι} {k : ℕ}
    (hmn : P.Conn m k n) : inputs n S.log = inputsFrom n (.connection m k) S.log :=
  h.inputs_eq (fun hn => absurd hn (hT.ne_entry hmn)) fun _ _ _ hmn' _ => by
    obtain ⟨rfl, rfl⟩ := hT.parent hmn hmn'
    rfl

/-- `std::terminate` is not called in a tree. -/
theorem IsTree.not_terminated (hT : P.IsTree) (h : P.Reachable priv bs S) :
    S.shared.terminated = false :=
  h.not_terminated fun c _ => hT.uniform c

/-- What a buffer has taken past the test is a prefix of what it has enqueued. -/
theorem IsTree.taken_isPrefix_enqueued (hT : P.IsTree) (h : P.Reachable priv bs S) {c : ι}
    (hbuf : P.IsBuffer c) : taken c S.log <+: enqueued c S.log := by
  obtain ⟨l, hl⟩ := hT.exists_upstream c
  calc taken c S.log
    _ <+: delivered c S.log := ⟨_, h.delivered_taken_add (hT.uniform c) hl hbuf⟩
    _ <+: dequeued c S.log := ⟨_, h.delivered_add (hT.uniform c) hl hbuf⟩
    _ <+: enqueued c S.log := ⟨_, (h.queue c).1.symm⟩

/-- What an element has taken past the test is a prefix of what it was given,
through the queue if it is a buffer. -/
theorem IsTree.taken_isPrefix (hT : P.IsTree) (h : P.Reachable priv bs S) (n : ι) :
    taken n S.log <+: inputs n S.log := by
  obtain ⟨l, hl⟩ := hT.exists_upstream n
  by_cases hn : P.IsBuffer n
  · exact (hT.taken_isPrefix_enqueued h hn).trans ⟨_, h.enqueued_add (hT.uniform n) hl hn⟩
  · exact ⟨_, h.taken_add (hT.uniform n) hl hn⟩

/-- What an element emits is a prefix of what it makes of its stream, if it was given a
prefix of that. -/
theorem IsTree.outputs_isPrefix (hT : P.IsTree) (h : P.Reachable priv bs S) {n : ι}
    {l : List (SharedDataBlock T)} (hin : inputs n S.log <+: l) :
    outputs n S.log <+:
      latchOut (P.processData n) SharedDataBlock.isEopError (priv n, false) l := by
  obtain ⟨r, hr⟩ := hT.exists_upstream n
  rw [(h.latched (hT.uniform n) hr).outputs]
  exact latchOut_isPrefix _ ((hT.taken_isPrefix h n).trans hin)

/-- **Every element of a tree has been given a prefix of its stream**, at every
moment of every interleaving. -/
theorem IsTree.inputs_isPrefix (hT : P.IsTree) (h : P.Reachable priv bs S) {n : ι}
    {l : List (SharedDataBlock T)} (hl : P.StreamAt priv bs n l) : inputs n S.log <+: l := by
  induction hl with
  | entry =>
      rw [hT.inputs_entry h]
      exact ⟨_, h.pushed⟩
  | @conn m n k l _ hmn ih =>
      obtain ⟨r, hr⟩ := hT.exists_upstream m
      rw [hT.inputs_child h hmn]
      exact List.IsPrefix.trans ⟨_, h.sent_add (hT.uniform m) hr (hT.acyclic m) hmn⟩
        (hT.outputs_isPrefix h ih)

/-! ### Where nothing is left to do -/

/-- The threads have returned, or wait for a block in an empty queue. -/
def Quiet (S : State ι V T σ) : Prop :=
  ∀ t, S.stack t = [] ∨ ∃ c i, t = .worker c i ∧ S.stack t = [.dequeue c] ∧ S.shared.queue c = []

omit [DecidableEq ι] in
/-- In a quiet state no thread holds a block. -/
theorem Quiet.flatMap_eq_nil (hq : Quiet S) {pend : Frame ι T → List (SharedDataBlock T)}
    (hpend : ∀ c, pend (.dequeue c) = []) (t : Thread ι) : (S.stack t).flatMap pend = [] := by
  rcases hq t with hs | ⟨c, i, -, hs, -⟩ <;> simp [hs, hpend]

/-- What a quiet element has done with its stream: it has emitted what it computes
and shown that to its visitors, and the worker of a buffer has exited. -/
structure Done (P : Pipeline ι V T σ) (priv : ι → σ) (S : State ι V T σ) (n : ι)
    (l : List (SharedDataBlock T)) : Prop where
  inputs : inputs n S.log = l
  outputs : outputs n S.log =
    latchOut (P.processData n) SharedDataBlock.isEopError (priv n, false) l
  exited : P.IsBuffer n → S.shared.created n = 1 ∧ S.stack (.worker n 0) = []

/-- A buffer that was given its stream, and has nothing left to do, has delivered it
all. -/
theorem IsTree.quiet_buffer (hT : P.IsTree) (h : P.Reachable priv bs S) (hq : Quiet S) {c : ι}
    (hbuf : P.IsBuffer c) {l : List (SharedDataBlock T)}
    (hended : Ended SharedDataBlock.isEndOfProcessing l) (hin : inputs c S.log = l) :
    taken c S.log = l ∧ S.shared.created c = 1 ∧ S.stack (.worker c 0) = [] := by
  obtain ⟨r, hr⟩ := hT.exists_upstream c
  have huni := hT.uniform c
  have henq : enqueued c S.log = l := by
    have henq := h.enqueued_add huni hr hbuf
    rwa [hq.flatMap_eq_nil (fun _ => rfl), List.append_nil, hin] at henq
  have hdel : delivered c S.log ++ S.shared.queue c = l := by
    have hdel := h.delivered_add huni hr hbuf
    rw [hq.flatMap_eq_nil (fun _ => rfl), List.append_nil] at hdel
    rw [hdel, ← (h.queue c).1, henq]
  have htaken : taken c S.log = delivered c S.log := by
    have htaken := h.delivered_taken_add huni hr hbuf
    rwa [hq.flatMap_eq_nil (fun _ => rfl), List.append_nil] at htaken
  rw [htaken]
  cases h.inRun huni hr hbuf with
  | notStarted hcreated =>
      have := h.created_of_enqueued huni hr (by rw [henq]; exact hended.ne_nil)
      omega
  | waiting hcreated hfs hl =>
      -- it would have been given the end-of-processing block
      have hempty : S.shared.queue c = [] := by
        rcases hq (.worker c 0) with hs | ⟨c', i, heq, -, hempty⟩
        · exact absurd (hfs.symm.trans hs) (by simp)
        · obtain ⟨rfl, -⟩ := Thread.worker.inj heq
          exact hempty
      rw [hempty, List.append_nil] at hdel
      obtain ⟨init, last, heq, -, hlast⟩ := hended
      exact absurd (hl last (by rw [hdel, heq]; simp)) (by simp [hlast])
  | holding sdb _ hfs =>
      rcases hq (.worker c 0) with hs | ⟨c', i, -, hs, -⟩ <;> exact absurd (hfs.symm.trans hs) (by simp)
  | pushing calls sdb l' _ hfs =>
      rcases hq (.worker c 0) with hs | ⟨c', i, -, hs, -⟩
      · exact absurd (hfs.symm.trans hs) (by simp)
      · exact absurd (congrArg List.getLast? (hfs.symm.trans hs)) (by simp)
  | exited hcreated hfs hl =>
      obtain ⟨init, last, heq, -, hlast⟩ := hl
      exact ⟨hended.eq_of_isPrefix ⟨_, hdel⟩ (a := last) (by rw [heq]; simp) hlast, hcreated, hfs⟩

/-- Where nothing is left to do, an element that was given its whole stream is done with
it. -/
theorem IsTree.quiet_outputs (hT : P.IsTree) (h : P.Reachable priv bs S) (hq : Quiet S) {n : ι}
    {l : List (SharedDataBlock T)} (hended : Ended SharedDataBlock.isEndOfProcessing l)
    (hin : inputs n S.log = l) : Done P priv S n l := by
  obtain ⟨r, hr⟩ := hT.exists_upstream n
  have hlatched := (h.latched (hT.uniform n) hr).outputs
  by_cases hn : P.IsBuffer n
  · obtain ⟨htaken, hexited⟩ := hT.quiet_buffer h hq hn hended hin
    exact ⟨hin, htaken ▸ hlatched, fun _ => hexited⟩
  · have htaken := h.taken_add (hT.uniform n) hr hn
    rw [hq.flatMap_eq_nil (fun _ => rfl), List.append_nil, hin] at htaken
    exact ⟨hin, htaken ▸ hlatched, fun hbuf => absurd hbuf hn⟩

/-- **Where nothing is left to do, everything is done**: every element has been given
its whole stream, and every worker has exited. -/
theorem IsTree.quiet (hT : P.IsTree) (hproto : ∀ n, ¬ P.IsBuffer n → KeepsProtocol (P.processData n))
    (hbs : Ended SharedDataBlock.isEndOfProcessing bs) (h : P.Reachable priv bs S) (hq : Quiet S) {n : ι}
    {l : List (SharedDataBlock T)} (hl : P.StreamAt priv bs n l) : Done P priv S n l := by
  refine hT.quiet_outputs h hq (hl.ended hproto hbs) ?_
  induction hl with
  | entry =>
      have hpusher : S.stack .pusher = [] := by
        rcases hq .pusher with hs | ⟨c, i, ht, -⟩
        · exact hs
        · exact absurd ht (by simp)
      rw [hT.inputs_entry h]
      simpa [hpusher] using h.pushed
  | @conn m n k l hm hmn ih =>
      obtain ⟨r, hr⟩ := hT.exists_upstream m
      have hsent := h.sent_add (hT.uniform m) hr (hT.acyclic m) hmn
      rw [hq.flatMap_eq_nil (fun _ => rfl), List.append_nil] at hsent
      rw [hT.inputs_child h hmn, hsent]
      exact (hT.quiet_outputs h hq (hm.ended hproto hbs) ih).outputs

/-! ### A tree of four -/

/-- Fails at its second block, unless that is an end-of-processing block. -/
def failSecond (st : ℕ) (sdb : SharedDataBlock ℕ) : ℕ × SharedDataBlock ℕ :=
  (st + 1, if sdb.isEndOfProcessing then sdb
    else if st = 1 then ⟨none, some ⟨.EopError, "second block"⟩⟩ else sdb)

/-- The stage that fails on its second block keeps the protocol. -/
theorem keepsProtocol_failSecond : KeepsProtocol failSecond where
  data st b hb := by
    by_cases hst : st = 1
    · exact Or.inr (by simp [failSecond, hb, hst]; rfl)
    · exact Or.inl (by simp [failSecond, hb, hst])
  eop st b hb := by simp [failSecond, hb]

end Pipeline

/-- The elements of `bufferedTree`. -/
inductive TreeElement where
  | root
  | buffer
  | failing
  | below
  deriving DecidableEq

instance : Fintype TreeElement where
  elems := {.root, .buffer, .failing, .below}
  complete n := by cases n <;> decide

namespace Pipeline

/-- `root` feeds `buffer` and the processor `failing`; the worker of `buffer` feeds
`below`. -/
def bufferedTree : Pipeline TreeElement TreeElement ℕ ℕ where
  processData := fun
    | .failing => failSecond
    | _ => fun st sdb => (st, sdb)
  visitors n := [n]
  processors := fun
    | .root => [.buffer, .failing]
    | .buffer => [.below]
    | _ => []
  maxBlocks := fun
    | .buffer => some 1
    | _ => none
  entry := .root
  processData_buffer c hc st sdb := by
    cases c with
    | buffer => rfl
    | _ => exact absurd rfl hc

/-- The tree of four is a tree. -/
theorem isTree_bufferedTree : bufferedTree.IsTree where
  root := show ∀ m, .root ∉ bufferedTree.processors m by decide
  parent {m m' n k k'} h h' := by
    have hlen : ∀ m, (bufferedTree.processors m).length ≤ 2 := by decide
    have hk := (List.getElem?_eq_some_iff.mp h).1.trans_le (hlen m)
    have hk' := (List.getElem?_eq_some_iff.mp h').1.trans_le (hlen m')
    have hall : ∀ k k' : Fin 2, ∀ m m' n : TreeElement, (bufferedTree.processors m)[k.val]? = some n →
        (bufferedTree.processors m')[k'.val]? = some n → m = m' ∧ k.val = k'.val := by decide
    exact hall ⟨k, hk⟩ ⟨k', hk'⟩ m m' n h h'
  connected n := by
    have hbuffer : bufferedTree.Adj .root .buffer := List.mem_cons_self ..
    cases n with
    | root => exact .refl
    | buffer => exact .single hbuffer
    | failing => exact .single (List.mem_cons_of_mem _ (List.mem_cons_self ..))
    | below => exact (Relation.ReflTransGen.single hbuffer).tail (List.mem_cons_self ..)

/-- Its elements keep the protocol. -/
theorem keepsProtocol_bufferedTree (n : TreeElement) : KeepsProtocol (bufferedTree.processData n) := by
  cases n with
  | failing => exact keepsProtocol_failSecond
  | _ => exact ⟨fun _ _ => Or.inl, fun _ _ => id⟩

end Pipeline
end CppDataStream
