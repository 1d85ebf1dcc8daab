/-
# Buffered trees never deadlock

On a tree a thread that waits for space in a queue waits for the worker of that
buffer, which waits, if at all, for space in a queue further down
(`IsTree.not_full`): it does not wait for a block, as its own queue is full, and it
has not exited, as the block that waits is still ahead of the end-of-processing
block.  So where no thread can make a step, no queue is full, and every thread has
returned or waits for a block in an empty queue.  By `IsTree.quiet` all workers have
then exited.  With the bound on runs this says that every run completes.
-/

import CppDataStream.Threaded.Tree
import CppDataStream.Threaded.Measure

namespace CppDataStream

open Streams

namespace Pipeline

variable {ι V T σ : Type*} {P : Pipeline ι V T σ} {priv : ι → σ} {bs : List (SharedDataBlock T)}

/-- What a worker runs is downstream of its buffer. -/
theorem Upstream.downstream {n b : ι} {l : List ι} (h : P.Upstream n l) (hb : l.getLast? = some b) :
    Relation.TransGen P.Adj b n := by
  induction h with
  | entry => simp at hb
  | @conn m n l _ hmn ih =>
      unfold under at hb
      split_ifs at hb
      · obtain rfl : m = b := by simpa using hb
        exact .single hmn
      · exact (ih hb).tail hmn

variable [DecidableEq ι] {S : State ι V T σ} {c : ι}

/-- A block that waits for space is ahead of the end-of-processing block, so the
worker has not exited. -/
theorem IsTree.not_exited (hT : P.IsTree)
    (hproto : ∀ n, ¬ P.IsBuffer n → KeepsProtocol (P.processData n))
    (hbs : Ended SharedDataBlock.isEndOfProcessing bs) (h : P.Reachable priv bs S) (hbuf : P.IsBuffer c)
    (hqueue : S.shared.queue c ≠ []) :
    ¬ Ended SharedDataBlock.isEndOfProcessing (delivered c S.log) := by
  intro hended
  obtain ⟨r, hr⟩ := hT.exists_upstream c
  obtain ⟨l, hl⟩ := hT.exists_streamAt priv bs c
  have hfifo := h.fifo (hT.uniform c) hr hbuf
  have henq : enqueued c S.log <+: l :=
    List.IsPrefix.trans ⟨_, h.enqueued_add (hT.uniform c) hr hbuf⟩ (hT.inputs_isPrefix h hl)
  have hdel : delivered c S.log = l := by
    obtain ⟨init, last, heq, -, hlast⟩ := id hended
    refine (hl.ended hproto hbs).eq_of_isPrefix (List.IsPrefix.trans ?_ henq) (a := last)
      (by rw [heq]; simp) hlast
    rw [hfifo, List.append_assoc]
    exact List.prefix_append _ _
  have hlen := henq.length_le
  rw [hfifo, ← hdel, List.length_append, List.length_append] at hlen
  exact hqueue (List.length_eq_zero_iff.mp (by omega))

/-- **No queue is full where no thread can make a step**: by induction down the
tree. -/
theorem IsTree.not_full [Finite ι] (hT : P.IsTree)
    (hcapacity : ∀ c maxBlocks, P.maxBlocks c = some maxBlocks → 1 ≤ maxBlocks)
    (hproto : ∀ n, ¬ P.IsBuffer n → KeepsProtocol (P.processData n))
    (hbs : Ended SharedDataBlock.isEndOfProcessing bs) (h : P.Reachable priv bs S) (hstuck : P.Stuck S)
    (c : ι) : ∀ t sdb rest, S.stack t ≠ .enqueue c sdb :: rest := by
  induction c using hT.acyclic.wellFounded.transGen.induction with
  | _ c ih =>
      intro t sdb rest hstack
      have hterm := hT.not_terminated h
      obtain ⟨r, ⟨hbuf, hr⟩, -⟩ := h.wellFormed.located t (.enqueue c sdb) (by rw [hstack]; simp)
      have hphase := h.phase (hT.uniform c) hr hstack rfl
      rw [Frame.phase, if_pos rfl] at hphase
      obtain ⟨m, hm⟩ := Option.ne_none_iff_exists'.mp hbuf
      have hqueue : S.shared.queue c ≠ [] := by
        rcases hstuck.waits hterm hstack with ⟨c', sdb', heq, hfull⟩ | ⟨c', heq, -⟩
        · obtain ⟨rfl, -⟩ := Frame.enqueue.inj heq
          have hpos := hcapacity c m hm
          rw [hm, Option.getD_some] at hfull
          exact List.ne_nil_of_length_pos (by omega)
        · exact absurd heq (by simp)
      cases h.inRun (hT.uniform c) hr hbuf with
      | notStarted hcreated => exact absurd hphase.1 (by omega)
      | waiting _ hfs =>
          rcases hstuck.waits hterm hfs with ⟨c', sdb', heq, -⟩ | ⟨c', heq, hempty⟩
          · exact absurd heq (by simp)
          · obtain rfl := Frame.dequeue.inj heq
            exact hqueue hempty
      | holding sdb' _ hfs => exact absurd (hstuck.waits hterm hfs) (by simp)
      | pushing calls sdb' l' _ hfs hcalls =>
          rcases calls with _ | ⟨f, calls⟩
          · exact absurd (hstuck.waits hterm hfs) (by simp)
          · rcases hstuck.waits hterm hfs with ⟨c', sdb'', rfl, -⟩ | ⟨c', rfl, -⟩
            · -- the worker waits further down
              obtain ⟨r', ⟨-, hr'⟩, hruns⟩ :=
                h.wellFormed.located (.worker c 0) (.enqueue c' sdb'') (by rw [hfs]; simp)
              exact ih c' (Relation.transGen_swap.mp (hr'.downstream hruns.symm)) _ sdb'' _ hfs
            · exact hcalls _ (List.mem_cons_self ..)
      | exited _ _ hl => exact hT.not_exited hproto hbs h hbuf hqueue hl

/-- Where no thread can make a step, none holds a block. -/
theorem IsTree.quiet_of_stuck [Finite ι] (hT : P.IsTree)
    (hcapacity : ∀ c maxBlocks, P.maxBlocks c = some maxBlocks → 1 ≤ maxBlocks)
    (hproto : ∀ n, ¬ P.IsBuffer n → KeepsProtocol (P.processData n))
    (hbs : Ended SharedDataBlock.isEndOfProcessing bs) (h : P.Reachable priv bs S)
    (hstuck : P.Stuck S) : Quiet S := by
  intro t
  rcases hstack : S.stack t with _ | ⟨f, rest⟩
  · exact Or.inl rfl
  · rcases hstuck.waits (hT.not_terminated h) hstack with
      ⟨c, sdb, rfl, -⟩ | ⟨c, rfl, hempty⟩
    · exact absurd hstack (hT.not_full hcapacity hproto hbs h hstuck c t sdb rest)
    · have hbot := h.bottom t
      rw [hstack] at hbot
      obtain ⟨hb, rfl⟩ := hbot.eq_nil id
      cases hb with
      | dequeue c i => exact Or.inr ⟨c, i, rfl, rfl, hempty⟩

/-- The pusher has finished, and the worker of every buffer has been started and has
exited, so the `join` in every destructor returns. -/
structure Completed (P : Pipeline ι V T σ) (S : State ι V T σ) : Prop where
  pusher : S.stack .pusher = []
  started : ∀ c, P.IsBuffer c → S.shared.created c = 1
  exited : ∀ c i, S.stack (.worker c i) = []

/-- **A tree that is stuck is completed.** -/
theorem IsTree.completed_of_stuck [Finite ι] (hT : P.IsTree)
    (hcapacity : ∀ c maxBlocks, P.maxBlocks c = some maxBlocks → 1 ≤ maxBlocks)
    (hproto : ∀ n, ¬ P.IsBuffer n → KeepsProtocol (P.processData n))
    (hbs : Ended SharedDataBlock.isEndOfProcessing bs) (h : P.Reachable priv bs S)
    (hstuck : P.Stuck S) : Completed P S := by
  have hq := hT.quiet_of_stuck hcapacity hproto hbs h hstuck
  have hdone : ∀ c, P.IsBuffer c → S.shared.created c = 1 ∧ S.stack (.worker c 0) = [] := fun c hc => by
    obtain ⟨l, hl⟩ := hT.exists_streamAt priv bs c
    exact (hT.quiet hproto hbs h hq hl).exited hc
  refine ⟨?_, fun c hc => (hdone c hc).1, fun c i => by_contra fun hlive => ?_⟩
  · rcases hq .pusher with hs | ⟨c, i, ht, -⟩
    · exact hs
    · exact absurd ht (by simp)
  · obtain ⟨hone, hs⟩ := hdone c (h.wellFormed.isBuffer hlive)
    have hlt := h.wellFormed.live c i hlive
    obtain rfl : i = 0 := by omega
    exact hlive hs

/-- **Buffered pipelines never deadlock.**  On a finite tree of processors that keep
the protocol and of buffers that hold at least one block, when the blocks pushed end
with their one end-of-processing block: in every reachable state either everything
is completed, or some thread can make a step; runs make a bounded number of steps;
and so every run can be continued until everything is completed. -/
theorem deadlock_free [Finite ι] (hT : P.IsTree)
    (hcapacity : ∀ c maxBlocks, P.maxBlocks c = some maxBlocks → 1 ≤ maxBlocks)
    (hproto : ∀ n, ¬ P.IsBuffer n → KeepsProtocol (P.processData n))
    (hbs : Ended SharedDataBlock.isEndOfProcessing bs) :
    (∀ S, P.Reachable priv bs S → Completed P S ∨ ∃ S', P.Progress S S') ∧
      (∃ N, ∀ k S, P.RunsTo priv bs k S → k ≤ N) ∧
      ∀ S, P.Reachable priv bs S → ∃ S', Relation.ReflTransGen P.Progress S S' ∧ Completed P S' := by
  have hsteps : ∀ S, P.Reachable priv bs S → ¬ Completed P S → ∃ S', P.Progress S S' := by
    intro S h hnot
    by_contra hnone
    push Not at hnone
    exact hnot (hT.completed_of_stuck hcapacity hproto hbs h hnone)
  refine ⟨fun S h => ?_, exists_bound hT.acyclic priv bs, fun S h => ?_⟩
  · by_cases hdone : Completed P S
    · exact Or.inl hdone
    · exact Or.inr (hsteps S h hdone)
  · obtain ⟨S', hprogress, -, hdone⟩ := h.exists_goal hT.acyclic hsteps
    exact ⟨S', hprogress, hdone⟩

/-- The buffers of the tree of four hold a block. -/
theorem capacity_bufferedTree (c : TreeElement) (m : ℕ) (hm : bufferedTree.maxBlocks c = some m) :
    1 ≤ m := by
  cases c with
  | buffer => exact (Option.some.inj (show some 1 = some m from hm)).le
  | _ => exact absurd (show none = some m from hm) (by simp)

/-- The tree of four, where a processor beside the buffer fails in mid-stream. -/
theorem deadlock_free_bufferedTree :
    (∀ S, bufferedTree.Reachable (fun _ => 0) [⟨some 1, none⟩, ⟨some 2, none⟩, ⟨none, some {}⟩] S →
        Completed bufferedTree S ∨ ∃ S', bufferedTree.Progress S S') ∧
      (∃ N, ∀ k S, bufferedTree.RunsTo (fun _ => 0)
        [⟨some 1, none⟩, ⟨some 2, none⟩, ⟨none, some {}⟩] k S → k ≤ N) ∧
      ∀ S, bufferedTree.Reachable (fun _ => 0) [⟨some 1, none⟩, ⟨some 2, none⟩, ⟨none, some {}⟩] S →
        ∃ S', Relation.ReflTransGen bufferedTree.Progress S S' ∧ Completed bufferedTree S' :=
  deadlock_free isTree_bufferedTree capacity_bufferedTree
    (fun n _ => keepsProtocol_bufferedTree n)
    ⟨[⟨some 1, none⟩, ⟨some 2, none⟩], ⟨none, some {}⟩, rfl, by decide, rfl⟩

end Pipeline
end CppDataStream
