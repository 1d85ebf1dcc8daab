/-
# The programs over circular buffers

`Examples.SourceMain` and `Examples.SimpleMain` with the `BlockingReaderWriterCircularBuffer`
of the pipeline in place of its queue: all threads interleave with every access of the
buffer and its semaphores.

What the programs report is the same (`SourceMain.queued_outcome`,
`SimpleMain.queued_wait_succeeds`), and every run can still be continued to the end
(`SourceMain.queued_terminates`, `SimpleMain.queued_returns`), by
`Application.QueuedRunsTo.stands` and `Application.exists_queued_run`.  Where the buffer
is destroyed, no thread is in one of its operations, and none of its cells holds a block
(`SourceMain.queued_teardown`).  The steps of a run are no longer bounded, as a loop over
timed-out attempts is one of steps here.
-/

import CppDataStream.Examples.SourceMain
import CppDataStream.Examples.SimpleMain
import CppDataStream.Threaded.QueuedApplication

namespace CppDataStream

open Streams Transitions

namespace Pipeline

variable {T σ : Type*} {maxBlocks : ℕ} {stages : List (σ → SharedDataBlock T → σ × SharedDataBlock T)}

/-- The buffer of a chain has one producer and one consumer. -/
theorem exists_spsc_chain (priv : Fin (stages.length + 1) → σ) :
    ∃ owner, ∀ bs S, (chain maxBlocks stages).Reachable priv bs S →
      (chain maxBlocks stages).Spsc owner S :=
  exists_spsc (fun c _ => isTree_chain.uniform c) priv

/-- No thread is in the pipeline or in an operation of a queue, and no cell holds a block. -/
structure Vacant {ι V : Type*} (F : QueuedState ι V T σ) : Prop where
  stack : ∀ t, F.stack t = []
  point : ∀ t, F.point t = .outside
  cells : ∀ c, ∀ j ≤ (F.buffer c).mask, (F.buffer c).cells j = .raw

/-- That is so once a complete stream was pushed and every thread has returned. -/
theorem Stands.vacant_chain (hpass : ∀ f ∈ stages, ∀ st sdb, (f st sdb).2 = sdb)
    {owner : Fin (stages.length + 1) → Thread (Fin (stages.length + 1))}
    {priv : Fin (stages.length + 1) → σ} {bs : List (SharedDataBlock T)}
    {F : QueuedState (Fin (stages.length + 1)) Unit T σ} {S : State (Fin (stages.length + 1)) Unit T σ}
    (hF : (chain maxBlocks stages).Stands owner F S) (h : (chain maxBlocks stages).Reachable priv bs S)
    (hbs : Ended SharedDataBlock.isEndOfProcessing bs) (hfin : Finished S) : Vacant F := by
  have hpoint : ∀ t, F.point t = .outside := fun t => ((hF.stack t).of_nil (Or.inr (hfin t))).1
  exact ⟨fun t => hF.eq_nil_iff.mpr (hfin t), hpoint, fun c => hF.cells_eq_raw hpoint
    (isTree_chain.queue_eq_nil (fun n _ => (passesOn_chain hpass).keepsProtocol n) hbs h hfin c)⟩

end Pipeline

namespace SourceMain

variable {options : Options} {maxBlocks k n : ℕ} {start : ℤ} {priv : options.Index → Members}
  {a : SourceMain} {owner : options.Index → Thread options.Index} {eop : EopStatus}
  {F : QueuedState options.Index Unit (List UInt8) Members}
  {S : State options.Index Unit (List UInt8) Members}

/-- What holds of the queues holds of the circular buffers. -/
theorem Report.of_stands (hF : (options.pipeline maxBlocks).Stands owner F S)
    (h : Report options maxBlocks start a S eop n) :
    Report options maxBlocks start a F.toState eop n where
  emitted := h.emitted
  blocks := hF.blocks_eq.trans h.blocks
  printed := h.printed
  accumulator := hF.priv_eq ▸ h.accumulator
  counted := hF.priv_eq ▸ h.counted
  spaced := hF.priv_eq ▸ h.spaced

/-- What is destroyed, and when. -/
structure Destroyed (a : SourceMain) (F : QueuedState options.Index Unit (List UInt8) Members) :
    Prop where
  once : a.buffer.destroyed ≤ 1
  buffer : a.buffer.destroyed = 1 → (∀ o, a.buffer.phase o = .released) ∧ Pipeline.Vacant F
  source : a.joined = true → a.left = true ∧ a.source.point = .returned ∧ a.buffer.destroyed = 1

/-- Where the buffer was destroyed, the threads were done when its worker was joined. -/
theorem Destroyed.of_stands (hF : (options.pipeline maxBlocks).Stands owner F S)
    (h : (sourceMain options).RunsTo (options.pipeline maxBlocks) priv k a S) : Destroyed a F where
  once := (owned h).buffer.destroyed_le
  buffer hone := by
    have hne : a.buffer.destroyed ≠ 0 := by omega
    have hall := (owned h).buffer.released_of_destroyed hne
    have hleft := (owned h).left_of_released hall
    have hended := (feeds h).ended ((owned h).left hleft).1
    exact ⟨hall, hF.vacant_chain (passesOn_stages _) h.reachable hended ((owned h).destroyed hne)⟩
  source hjoined := by
    have hall := (owned h).joined hjoined
    have hleft := (owned h).left_of_released hall
    exact ⟨hleft, ((owned h).left hleft).1, (owned h).buffer.destroyed_of_released hall⟩

/-- **Over circular buffers, too, what `main` reports is what happened.**  For all options,
in every interleaving with every access of the buffer: no exception is thrown, and when
`wait` has returned, its status is that of the source, and the elements hold the counts of
all the blocks that the source has pushed. -/
theorem queued_outcome (options : Options) (hmax : maxBlocks < 2 ^ 63) (start : ℤ) (readings : ℕ → ℤ) :
    ∀ k a F, (sourceMain options).QueuedRunsTo (options.pipeline maxBlocks)
        (fun _ => Members.init start readings) k a F →
      F.shared.terminated = false ∧ (∃ promise, sinkPromise () F.log = .ok promise) ∧
        ∀ eop, a.status = some eop →
          ∃ n ≤ options.numBlocks.toNat, Report options maxBlocks start a F.toState eop n := by
  intro k a F h
  obtain ⟨owner, hspsc⟩ := Pipeline.exists_spsc_chain fun _ => Members.init start readings
  obtain ⟨k', -, S, hrun, hF⟩ := h.stands hspsc (Pipeline.capacity_lt_chain hmax)
  refine ⟨hF.terminated_eq ▸ Pipeline.isTree_chain.not_terminated hrun.reachable, ?_, fun eop heop => ?_⟩
  · rw [hF.sinkPromise_eq]
    exact exists_promise hrun
  · obtain ⟨n, hle, hreport⟩ := exists_report hrun heop
    exact ⟨n, hle, hreport.of_stands hF⟩

/-- **No thread uses a buffer that was destroyed.**  The buffer and the elements behind it
are destroyed at most once, when both owners have given the buffer up; then every thread
is out of the pipeline and of the operations of the circular buffer, and its destructor
finds no block in a cell. -/
theorem queued_teardown (options : Options) (hmax : maxBlocks < 2 ^ 63)
    (priv : options.Index → Members) :
    ∀ k a F, (sourceMain options).QueuedRunsTo (options.pipeline maxBlocks) priv k a F →
      Destroyed a F := by
  intro k a F h
  obtain ⟨owner, hspsc⟩ := Pipeline.exists_spsc_chain priv
  obtain ⟨k', -, S, hrun, hF⟩ := h.stands hspsc (Pipeline.capacity_lt_chain hmax)
  exact .of_stands hF hrun

/-- Every run can be continued until the source is destroyed. -/
theorem exists_queued_joined (hpos : 1 ≤ maxBlocks) (hmax : maxBlocks < 2 ^ 63)
    (h : (sourceMain options).QueuedRunsTo (options.pipeline maxBlocks) priv k a F) : ∃ k' a' F',
      Relation.ReflTransGen ((sourceMain options).QueuedProgress (options.pipeline maxBlocks)) (a, F)
        (a', F') ∧
      (sourceMain options).QueuedRunsTo (options.pipeline maxBlocks) priv k' a' F' ∧
      a'.joined = true ∧ a'.status ≠ none ∧ Destroyed a' F' := by
  obtain ⟨owner, hspsc⟩ := Pipeline.exists_spsc_chain priv
  obtain ⟨k₁, -, S, hrun, hF⟩ := h.stands hspsc (Pipeline.capacity_lt_chain hmax)
  obtain ⟨k₂, a', S', hsteps, hrun', hjoined⟩ := exists_joined hpos hrun
  obtain ⟨F', hsteps', hF'⟩ := Application.exists_queued_run hspsc hF hrun hsteps
  obtain ⟨k', h'⟩ := h.trans hsteps'
  obtain ⟨eop, heop⟩ := (owned hrun').status_of_joined hjoined
  exact ⟨k', a', F', hsteps', h', hjoined, heop ▸ Option.some_ne_none eop, .of_stands hF' hrun'⟩

/-- **The program ends over circular buffers, too.**  For all options, every run can be
continued until `main` has reported a status, everything is destroyed and every thread is
done. -/
theorem queued_terminates (options : Options) (hpos : 1 ≤ maxBlocks) (hmax : maxBlocks < 2 ^ 63)
    (priv : options.Index → Members) :
    ∀ k a F, (sourceMain options).QueuedRunsTo (options.pipeline maxBlocks) priv k a F → ∃ a' F',
      Relation.ReflTransGen ((sourceMain options).QueuedProgress (options.pipeline maxBlocks)) (a, F)
        (a', F') ∧
      a'.status ≠ none ∧ a'.left = true ∧ a'.buffer.destroyed = 1 ∧ a'.joined = true ∧
      Pipeline.Vacant F' := by
  intro k a F h
  obtain ⟨k', a', F', hsteps, -, hjoined, hstatus, hdestroyed⟩ := exists_queued_joined hpos hmax h
  obtain ⟨hleft, -, hone⟩ := hdestroyed.source hjoined
  exact ⟨a', F', hsteps, hstatus, hleft, hone, hjoined, (hdestroyed.buffer hone).2⟩

/-- The default options. -/
theorem queued_terminates_default : ∃ a F,
    Relation.ReflTransGen ((sourceMain {}).QueuedProgress (Options.pipeline {} 100))
      (({} : SourceMain), (Options.pipeline {} 100).queuedInit (fun _ => Members.init 0 fun _ => 0) [])
      (a, F) ∧
    a.status ≠ none ∧ a.left = true ∧ a.buffer.destroyed = 1 ∧ a.joined = true ∧ Pipeline.Vacant F :=
  queued_terminates {} (show 1 ≤ 100 by decide) (by decide) (fun _ => Members.init 0 fun _ => 0) _ _ _
    .refl

/-- In a run with them that ends, the report is as it should be. -/
theorem queued_outcome_default : ∃ k a F eop n,
    (sourceMain {}).QueuedRunsTo (Options.pipeline {} 100) (fun _ => Members.init 0 fun _ => 0) k a F ∧
      a.status = some eop ∧ Report {} 100 0 a F.toState eop n := by
  have hinit : (sourceMain {}).QueuedRunsTo (Options.pipeline {} 100)
    (fun _ => Members.init 0 fun _ => 0) 0 {} _ := .refl
  obtain ⟨k, a, F, -, h, -, hstatus, -⟩ := exists_queued_joined (by decide) (by decide) hinit
  obtain ⟨eop, heop⟩ := Option.ne_none_iff_exists'.mp hstatus
  obtain ⟨n, -, hreport⟩ := (queued_outcome {} (by decide) 0 (fun _ => 0) k a F h).2.2 eop heop
  exact ⟨k, a, F, eop, n, h, heop, hreport⟩

/-- In such a run everything is destroyed once. -/
theorem queued_teardown_default : ∃ k a F,
    (sourceMain {}).QueuedRunsTo (Options.pipeline {} 100) (fun _ => Members.init 0 fun _ => 0) k a F ∧
      a.joined = true ∧ a.buffer.destroyed = 1 ∧ Pipeline.Vacant F := by
  have hinit : (sourceMain {}).QueuedRunsTo (Options.pipeline {} 100)
    (fun _ => Members.init 0 fun _ => 0) 0 {} _ := .refl
  obtain ⟨k, a, F, -, h, hjoined, -⟩ := exists_queued_joined (by decide) (by decide) hinit
  have hdestroyed := queued_teardown {} (by decide) _ k a F h
  obtain ⟨-, -, hone⟩ := hdestroyed.source hjoined
  exact ⟨k, a, F, h, hjoined, hone, (hdestroyed.buffer hone).2⟩

end SourceMain

namespace SimpleMain

variable {options : Options} {maxBlocks k n : ℕ} {start : ℤ} {priv : options.Index → Members}
  {a : SimpleMain} {owner : options.Index → Thread options.Index}
  {F : QueuedState options.Index Unit (List UInt8) Members}
  {S : State options.Index Unit (List UInt8) Members}

/-- What holds of the queues holds of the circular buffers. -/
theorem Report.of_stands (hF : (options.pipeline maxBlocks).Stands owner F S)
    (h : Report options maxBlocks start a S n) : Report options maxBlocks start a F.toState n where
  success := (hF.sinkPromise_eq ()).trans h.success
  blocks := hF.blocks_eq.trans h.blocks
  interrupted := h.interrupted
  accumulator := hF.priv_eq ▸ h.accumulator
  counted := hF.priv_eq ▸ h.counted
  spaced := hF.priv_eq ▸ h.spaced
  reported := hF.priv_eq ▸ h.reported

/-- Where `main` has returned, the pipeline is vacant. -/
theorem vacant_of_returned (hF : (options.pipeline maxBlocks).Stands owner F S)
    (h : (simpleMain options).RunsTo (options.pipeline maxBlocks) priv k a S)
    (hreturned : a.point = .returned) : Pipeline.Vacant F := by
  obtain ⟨n, hstream, -⟩ := (pushed h).of_left (by rw [hreturned]; rfl)
  have hended : Ended SharedDataBlock.isEndOfProcessing ((options.pipeline maxBlocks).blocks S) :=
    hstream ▸ ended_onesStream _ _ _
  exact hF.vacant_chain (passesOn_stages _) h.reachable hended ((placed h).destroyed hreturned)

/-- **Over circular buffers, too, `wait` returns a success.**  For all options, in every
interleaving with every access of the buffer: no exception is thrown, and once `wait` has
returned, the elements hold the counts of all the blocks that `main` has pushed, and what
it reports is as over queues. -/
theorem queued_wait_succeeds (options : Options) (hmax : maxBlocks < 2 ^ 63) (start : ℤ)
    (readings : ℕ → ℤ) :
    ∀ k a F, (simpleMain options).QueuedRunsTo (options.pipeline maxBlocks)
        (fun _ => Members.init start readings) k a F →
      F.shared.terminated = false ∧ (∃ promise, sinkPromise () F.log = .ok promise) ∧
        (a.point.waited = true →
          ∃ n ≤ options.numBlocks.toNat, Report options maxBlocks start a F.toState n) := by
  intro k a F h
  obtain ⟨owner, hspsc⟩ := Pipeline.exists_spsc_chain fun _ => Members.init start readings
  obtain ⟨k', -, S, hrun, hF⟩ := h.stands hspsc (Pipeline.capacity_lt_chain hmax)
  refine ⟨hF.terminated_eq ▸ Pipeline.isTree_chain.not_terminated hrun.reachable, ?_, fun hwaited => ?_⟩
  · rw [hF.sinkPromise_eq]
    exact exists_promise hrun
  · obtain ⟨n, hle, hreport⟩ := exists_report hrun hwaited
    exact ⟨n, hle, hreport.of_stands hF⟩

/-- Every run can be continued until `main` has returned. -/
theorem exists_queued_returned (hpos : 1 ≤ maxBlocks) (hmax : maxBlocks < 2 ^ 63)
    (h : (simpleMain options).QueuedRunsTo (options.pipeline maxBlocks) priv k a F) : ∃ k' a' F',
      Relation.ReflTransGen ((simpleMain options).QueuedProgress (options.pipeline maxBlocks)) (a, F)
        (a', F') ∧
      (simpleMain options).QueuedRunsTo (options.pipeline maxBlocks) priv k' a' F' ∧
      a'.point = .returned ∧ a'.reported = some options.totalBytes := by
  obtain ⟨owner, hspsc⟩ := Pipeline.exists_spsc_chain priv
  obtain ⟨k₁, -, S, hrun, hF⟩ := h.stands hspsc (Pipeline.capacity_lt_chain hmax)
  obtain ⟨k₂, a', S', hsteps, hrun', hreturned⟩ := exists_returned hpos hrun
  obtain ⟨F', hsteps', -⟩ := Application.exists_queued_run hspsc hF hrun hsteps
  obtain ⟨k', h'⟩ := h.trans hsteps'
  exact ⟨k', a', F', hsteps', h', hreturned, (placed hrun').logged (Or.inr hreturned)⟩

/-- **`main` returns over circular buffers, too.**  For all options, every run can be
continued until it has, with the report logged; and wherever it has, no thread is in an
operation of the circular buffer that it has destroyed, and no cell held a block. -/
theorem queued_returns (options : Options) (hpos : 1 ≤ maxBlocks) (hmax : maxBlocks < 2 ^ 63)
    (priv : options.Index → Members) :
    ∀ k a F, (simpleMain options).QueuedRunsTo (options.pipeline maxBlocks) priv k a F →
      (a.point = .returned → Pipeline.Vacant F) ∧ ∃ a' F',
        Relation.ReflTransGen ((simpleMain options).QueuedProgress (options.pipeline maxBlocks)) (a, F)
          (a', F') ∧
        a'.point = .returned ∧ a'.reported = some options.totalBytes := by
  intro k a F h
  obtain ⟨owner, hspsc⟩ := Pipeline.exists_spsc_chain priv
  obtain ⟨k₁, -, S, hrun, hF⟩ := h.stands hspsc (Pipeline.capacity_lt_chain hmax)
  obtain ⟨k', a', F', hsteps, -, hreturned, hreported⟩ := exists_queued_returned hpos hmax h
  exact ⟨vacant_of_returned hF hrun, a', F', hsteps, hreturned, hreported⟩

/-- A run with the default options. -/
theorem queued_wait_succeeds_default : ∃ k a F n,
    (simpleMain {}).QueuedRunsTo (Options.pipeline {} 1000) (fun _ => Members.init 0 fun _ => 0) k a F ∧
      a.point = .returned ∧ Report {} 1000 0 a F.toState n := by
  have hinit : (simpleMain {}).QueuedRunsTo (Options.pipeline {} 1000)
    (fun _ => Members.init 0 fun _ => 0) 0 {} _ := .refl
  obtain ⟨k, a, F, -, h, hreturned, -⟩ := exists_queued_returned (by decide) (by decide) hinit
  obtain ⟨n, -, hreport⟩ :=
    (queued_wait_succeeds {} (by decide) 0 (fun _ => 0) k a F h).2.2 (by rw [hreturned]; rfl)
  exact ⟨k, a, F, n, h, hreturned, hreport⟩

/-- At the end of it the pipeline is vacant. -/
theorem queued_returns_default : ∃ k a F,
    (simpleMain {}).QueuedRunsTo (Options.pipeline {} 1000) (fun _ => Members.init 0 fun _ => 0) k a F ∧
      a.point = .returned ∧ Pipeline.Vacant F := by
  have hinit : (simpleMain {}).QueuedRunsTo (Options.pipeline {} 1000)
    (fun _ => Members.init 0 fun _ => 0) 0 {} _ := .refl
  obtain ⟨k, a, F, -, h, hreturned, -⟩ := exists_queued_returned (by decide) (by decide) hinit
  exact ⟨k, a, F, h, hreturned, (queued_returns {} (by decide) (by decide) _ k a F h).1 hreturned⟩

end SimpleMain

end CppDataStream
