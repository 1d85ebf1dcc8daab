/-
# The program `Source.cpp`

`src/examples/Source.cpp`, lines 26-105 and 192-259.  `main` connects a `SimpleSource`
to a `StreamThreadedBuffer`, the elements behind it, and a sink; it starts the source,
waits for the sink, reports the status, and destroys its locals.  Three threads run:
`main`, the one that `start()` constructs, and the worker of the buffer.  An interrupt
calls `cancel()`, which the model lets happen any number of times.

`main` shares the buffer with the thread of the source, which holds the argument of
`run`; the elements behind the buffer are owned by it alone once `main` has destroyed its
other locals, which it does before it gives up the buffer.  Whichever of the two gives it
up last runs its destructor, and that joins the worker before anything is destroyed.
`~SimpleSource` joins the thread of the source.

What `main` reports is what happened (`SourceMain.outcome`), no thread runs in an element
that was destroyed (`SourceMain.teardown`), and the program ends
(`SourceMain.terminates`).
-/

import CppDataStream.Examples.Elements
import CppDataStream.Examples.Source
import CppDataStream.Library.SharedOwnership

namespace CppDataStream

open Streams Transitions SharedOwnership

/-- `EopStatus::toString`. -/
def EopStatus.toString (status : EopStatus) : String :=
  match status.type with
  | .EopSuccess => "Success"
  | .EopCancelled => "Cancelled"
  | .EopError => "Error: " ++ status.message

/-- `SimpleSource(numBlocks, numBytesPerBlock)`. -/
def Options.source (options : Options) : SimpleSource :=
  ⟨options.numBlocks.toNat, options.numBytesPerBlock.toNat⟩

/-- What the pipeline has to do with the next step of `run`. -/
def SimpleSource.action {ι V : Type*} (source : SimpleSource) (S : SourceState) :
    Action ι V (List UInt8) :=
  match S.point with
  | .push _ => .call source.dataBlock
  | .pushEop stopFlag => .call (eopBlock stopFlag)
  | .pushing _ | .pushingEop => .ret
  | .test _ | .load | .returned => .internal

/-- The owners of the buffer. -/
inductive Owner where
  | main
  | thread
  deriving DecidableEq

instance : Fintype Owner := ⟨{.main, .thread}, fun o => by cases o <;> decide⟩

instance : Nonempty Owner := ⟨.main⟩

/-- The state of the program but for the pipeline. -/
structure SourceMain where
  source : SourceState := {}
  /-- `run` has returned. -/
  left : Bool := false
  /-- What `wait` has returned. -/
  status : Option EopStatus := none
  buffer : Control Owner := Control.init Owner
  /-- `~SimpleSource` has joined the thread. -/
  joined : Bool := false

namespace SourceMain

/-- An owner has come to the point where it gives up the buffer. -/
def Ready (a : SourceMain) : Owner → Prop
  | .main => a.status ≠ none
  | .thread => a.left = true

/-- The steps of `main` and of the thread of the source. -/
inductive Step (options : Options) :
    Action options.Index Unit (List UInt8) → SourceMain → SourceMain → Prop
  | run {a s'} (h : options.source.runStep a.source = some s') :
      Step options (options.source.action a.source) a { a with source := s' }
  | exit {a} (h : a.source.point = .returned) (hleft : a.left = false) :
      Step options .exit a { a with left := true }
  | wait {a} (h : a.status = none) (eop) : Step options (.wait () eop) a { a with status := some eop }
  | release {a} (o) (hready : a.Ready o) (h : a.buffer.phase o = .holding) :
      Step options .internal a { a with buffer := a.buffer.release o }
  | destroy {a} (o) (h : a.buffer.phase o = .destroying) :
      Step options (.join 0) a { a with buffer := a.buffer.destroy o }
  | joinThread {a} (h : ∀ o, a.buffer.phase o = .released) (hjoined : a.joined = false) :
      Step options .internal a { a with joined := true }

end SourceMain

/-- `main` and the thread of the source, once it is started.  An interrupt may come while
the source is there. -/
def sourceMain (options : Options) : Application SourceMain options.Index Unit (List UInt8) where
  init := {}
  Step := SourceMain.Step options
  Outside a a' := a.joined = false ∧ a' = { a with source := a.source.cancel }

namespace SourceMain

variable {options : Options} {maxBlocks : ℕ} {priv : options.Index → Members} {k : ℕ}
  {a a' : SourceMain} {S S' : State options.Index Unit (List UInt8) Members}

/-! ### What is pushed -/

/-- What a step of `run` does to the log. -/
theorem runStep_log {ι V : Type*} {source : SimpleSource} {s s' : SourceState}
    (h : source.runStep s = some s') : ∃ es, s'.log = s.log ++ es ∧ .stop ∉ es ∧
      pushes es = (source.action s : Action ι V (List UInt8)).blocks := by
  obtain ⟨stopFlag, point, log⟩ := s
  cases point with
  | test numBlocks =>
      simp only [SimpleSource.runStep] at h
      split_ifs at h <;> cases h <;> exact ⟨_, rfl, by simp, rfl⟩
  | push | load | pushEop => cases h; exact ⟨_, rfl, by simp, rfl⟩
  | pushing | pushingEop => cases h; exact ⟨[], (List.append_nil _).symm, by simp, rfl⟩
  | returned => cases h

/-- The source keeps its invariant, the blocks that it pushes come to the pipeline, and
nobody calls `stop()`. -/
structure Feeds (options : Options) (maxBlocks : ℕ) (a : SourceMain)
    (S : State options.Index Unit (List UInt8) Members) : Prop where
  source : options.source.Inv a.source
  blocks : (options.pipeline maxBlocks).blocks S = pushes a.source.log
  noStop : .stop ∉ a.source.log

/-- In every run the source feeds the pipeline so. -/
theorem feeds (h : (sourceMain options).RunsTo (options.pipeline maxBlocks) priv k a S) :
    Feeds options maxBlocks a S := by
  refine h.induct (I := Feeds options maxBlocks) ⟨options.source.inv_init, rfl, List.not_mem_nil⟩
    (fun _ _ ih _ hstep hS => ?_) (fun hrun _ ih hstep _ => ?_) fun _ ih hout => ?_
  · have hblocks := Application.blocks_sync hS
    cases hstep with
    | run hrun =>
        obtain ⟨es, hlog, hnoStop, hes⟩ := runStep_log hrun
        refine ⟨ih.source.runStep hrun, ?_, ?_⟩
        · rw [hblocks, ih.blocks, ← hes, hlog]
          exact List.filterMap_append.symm
        · rw [hlog, List.mem_append, not_or]
          exact ⟨ih.noStop, hnoStop⟩
    | exit | wait | release | destroy | joinThread =>
        exact ⟨ih.source, (hblocks.trans (List.append_nil _)).trans ih.blocks, ih.noStop⟩
  · exact ⟨ih.source, (hrun.reachable.blocks_step hstep).trans ih.blocks, ih.noStop⟩
  · obtain ⟨-, rfl⟩ := hout
    refine ⟨ih.source.call (Or.inr rfl), ih.blocks.trans ?_,
      by simpa [SourceState.cancel] using ih.noStop⟩
    simp [SourceState.cancel, pushes_concat, SourceEvent.pushed]

/-- What was pushed can be completed. -/
theorem Feeds.exists_rest (h : Feeds options maxBlocks a S) : ∃ rest,
    Ended SharedDataBlock.isEndOfProcessing ((options.pipeline maxBlocks).blocks S ++ rest) := by
  obtain ⟨n, eop, -, rest, hrest⟩ := h.source.stage.pushes_isPrefix
  refine ⟨rest, ?_⟩
  rw [h.blocks, hrest]
  exact ended_onesStream n options.numBytesPerBlock.toNat eop

/-- It is complete once `run` has returned. -/
theorem Feeds.ended (h : Feeds options maxBlocks a S) (hpoint : a.source.point = .returned) :
    Ended SharedDataBlock.isEndOfProcessing ((options.pipeline maxBlocks).blocks S) := by
  obtain ⟨n, eop, tested, loaded, hemitted⟩ := (hpoint ▸ h.source.stage).emitted
  rw [h.blocks]
  exact hemitted.ended

/-- The sink throws nothing. -/
theorem exists_promise (h : (sourceMain options).RunsTo (options.pipeline maxBlocks) priv k a S) :
    ∃ promise, sinkPromise () S.log = .ok promise := by
  obtain ⟨rest, hrest⟩ := (feeds h).exists_rest
  exact Pipeline.exists_sinkPromise_chain (passesOn_stages _) h.reachable hrest

/-! ### Who owns the buffer -/

/-- How the places of the threads go together. -/
structure Owned (a : SourceMain) (S : State options.Index Unit (List UInt8) Members) : Prop where
  running : a.left = false → S.stack .pusher ≠ []
  left : a.left = true → a.source.point = .returned ∧ S.stack .pusher = []
  buffer : SharedOwnership.Inv a.buffer
  /-- An owner holds the buffer until it is ready to give it up. -/
  ready : ∀ o, ¬ a.Ready o → a.buffer.phase o = .holding
  status : ∀ eop, a.status = some eop → sinkPromise () S.log = .ok (some eop)
  /-- Where the buffer is destroyed, no thread is in an element. -/
  destroyed : a.buffer.destroyed ≠ 0 → Pipeline.Finished S
  joined : a.joined = true → ∀ o, a.buffer.phase o = .released

/-- An owner that does not hold the buffer was ready to give it up. -/
theorem Owned.ready_of_ne (h : Owned a S) {o : Owner} (ho : a.buffer.phase o ≠ .holding) : a.Ready o :=
  not_not.mp fun hnot => ho (h.ready o hnot)

/-- The thread of the source gives the buffer up when it has left. -/
theorem Owned.left_of_released (h : Owned a S) (hall : ∀ o, a.buffer.phase o = .released) :
    a.left = true :=
  h.ready_of_ne (o := .thread) (by rw [hall]; decide)

/-- The owner that destroys the buffer is the only one left. -/
theorem Owned.ready_of_destroying (h : Owned a S) {o : Owner} (ho : a.buffer.phase o = .destroying)
    (o' : Owner) : a.Ready o' := by
  refine h.ready_of_ne fun hhold => ?_
  have hpos := h.buffer.one_le hhold
  have := (h.buffer.destroying o ho).1
  omega

/-- The status that `wait` has returned stays that of the sink. -/
theorem Owned.status_of_isPrefix (h : Owned a S) (hlog : S.log <+: S'.log)
    (hok : ∃ promise, sinkPromise () S'.log = .ok promise) (eop : EopStatus)
    (heop : a.status = some eop) : sinkPromise () S'.log = .ok (some eop) := by
  obtain ⟨promise, hpromise⟩ := hok
  exact sinkPromise_of_isPrefix hlog (h.status eop heop) hpromise

/-- A step of the program keeps this. -/
theorem Owned.step {x : Action options.Index Unit (List UInt8)} (h : Owned a S)
    (hS' : (options.pipeline maxBlocks).Reachable priv ((options.pipeline maxBlocks).blocks S') S')
    (hok : ∃ promise, sinkPromise () S'.log = .ok promise) (hstep : Step options x a a')
    (hS : (options.pipeline maxBlocks).Sync x S S') : Owned a' S' := by
  have hstatus := h.status_of_isPrefix (Application.log_isPrefix_sync hS) hok
  cases hstep with
  | run hrun =>
      have hpoint : a.source.point ≠ .returned := fun hpoint => by
        rw [SimpleSource.runStep, hpoint] at hrun
        exact absurd hrun (by simp)
      have hleft : a.left = false := Bool.eq_false_iff.mpr fun hleft => hpoint (h.left hleft).1
      have hne := h.running hleft
      have hexit : (options.source.action a.source : Action options.Index Unit _) ≠ .exit := by
        unfold SimpleSource.action
        cases a.source.point <;> simp
      exact ⟨fun _ => Application.pusher_sync hS hexit hne, fun htrue => absurd (hleft.symm.trans htrue)
        (by simp), h.buffer, h.ready, hstatus, fun hd => absurd (h.destroyed hd .pusher) hne, h.joined⟩
  | exit hpoint hleft =>
      have hne := h.running hleft
      cases hS
      refine ⟨fun hfalse => absurd hfalse (by simp), fun _ => ⟨hpoint, Pipeline.leave_pusher S⟩,
        h.buffer,
        fun o ho => ?_, hstatus, fun hd => absurd (h.destroyed hd .pusher) hne, h.joined⟩
      cases o with
      | main => exact h.ready .main ho
      | thread => exact absurd rfl ho
  | wait hnone eop =>
      cases hS with
      | wait _ _ _ hpromise =>
          refine ⟨h.running, h.left, h.buffer, fun o ho => ?_, fun eop' heop => ?_, h.destroyed,
            h.joined⟩
          · cases o with
            | main => exact absurd (by simp [Ready]) ho
            | thread => exact h.ready .thread ho
          · obtain rfl := Option.some.inj heop
            exact hpromise
  | release o hready hhold =>
      cases hS
      refine ⟨h.running, h.left, h.buffer.release hhold, fun o' ho' => ?_, hstatus, h.destroyed,
        fun hjoined => absurd ((h.joined hjoined o).symm.trans hhold) (by decide)⟩
      have hne : o' ≠ o := fun heq => ho' (heq ▸ hready)
      exact (Function.update_of_ne hne _ _).trans (h.ready o' ho')
  | destroy o hdestroying =>
      have hready := h.ready_of_destroying hdestroying
      cases hS with
      | join _ _ hjoin =>
          exact ⟨h.running, h.left, h.buffer.destroy hdestroying, fun o' ho' => absurd (hready o') ho',
            hstatus, fun _ => Pipeline.finished_of_joined_chain hS' (h.left (hready .thread)).2 hjoin,
            fun hjoined => absurd ((h.joined hjoined o).symm.trans hdestroying) (by decide)⟩
  | joinThread hall hjoined =>
      cases hS
      exact ⟨h.running, h.left, h.buffer, h.ready, hstatus, h.destroyed, fun _ => hall⟩

/-- In every run they go together like this. -/
theorem owned (h : (sourceMain options).RunsTo (options.pipeline maxBlocks) priv k a S) : Owned a S := by
  refine h.induct (I := Owned) ?_ (fun _ hrun ih _ hstep hS => ?_) (fun hrun hrun' ih hstep hidle => ?_)
    fun hrun ih hout => ?_
  · exact ⟨fun _ => by simp [Pipeline.init], fun hleft => absurd hleft (by simp [sourceMain]),
      SharedOwnership.inv_init, fun _ _ => rfl, fun _ heop => absurd heop (by simp [sourceMain]),
      fun hd => absurd rfl hd, fun hjoined => absurd hjoined (by simp [sourceMain])⟩
  · exact ih.step hrun.reachable (exists_promise hrun) hstep hS
  · refine ⟨fun hleft => hrun.reachable.pusher_ne_nil hstep hidle (ih.running hleft), fun hleft =>
      ⟨(ih.left hleft).1, Pipeline.pusher_eq_nil hstep (ih.left hleft).2⟩, ih.buffer, ih.ready,
      ih.status_of_isPrefix (Pipeline.log_isPrefix_step hstep) (exists_promise hrun'), fun hd => ?_,
      ih.joined⟩
    obtain ⟨f, rest, e, hs, -⟩ := Pipeline.step_cases hstep
    exact absurd (ih.destroyed hd _) (hs ▸ List.cons_ne_nil _ _)
  · obtain ⟨-, rfl⟩ := hout
    exact ⟨ih.running, ih.left, ih.buffer, ih.ready, ih.status, ih.destroyed, ih.joined⟩

/-! ### What `main` reports -/

/-- A complete stream is pushed from the last push on. -/
theorem loaded_of_ended {source : SimpleSource} {log : List SourceEvent} {point : RunPoint}
    (h : Stage source log point) (hend : Ended SharedDataBlock.isEndOfProcessing (pushes log)) :
    ∃ n tested loaded, FlagLoaded source log n tested loaded ∧
      pushes log = List.replicate n source.dataBlock ++ [eopBlock (stored loaded)] := by
  have hdata : ∀ n, pushes log ≠ List.replicate n source.dataBlock := fun n hpushes => by
    obtain ⟨init, last, heq, -, hlast⟩ := hend
    have hmem : last ∈ List.replicate n source.dataBlock := by
      rw [← hpushes, heq]
      simp
    rw [List.eq_of_mem_replicate hmem] at hlast
    exact absurd hlast (by simp [SimpleSource.dataBlock, SharedDataBlock.isEndOfProcessing,
      WritableDataBlock.asShared, WritableDataBlock.setData])
  cases h with
  | test hpushes | push hpushes | pushing hpushes => exact absurd hpushes (hdata _)
  | load hpushes | pushEop hpushes => exact absurd hpushes (hdata _)
  | pushingEop hpushes hloaded | returned hpushes hloaded => exact ⟨_, _, _, hloaded, hpushes⟩

/-- What holds once `wait` has returned `eop`, for a source that has pushed `n` blocks. -/
structure Report (options : Options) (maxBlocks : ℕ) (start : ℤ) (a : SourceMain)
    (S : State options.Index Unit (List UInt8) Members) (eop : EopStatus) (n : ℕ) : Prop where
  /-- It is the status of the EOP block of the source, -/
  emitted : ∃ tested loaded, options.source.Emitted a.source.log n eop tested loaded
  blocks : (options.pipeline maxBlocks).blocks S = onesStream n options.numBytesPerBlock.toNat eop
  /-- which was cancelled, or else has pushed all its blocks. -/
  printed : (eop.toString = "Cancelled" ∧ .cancel ∈ a.source.log) ∨
    (eop.toString = "Success" ∧ n = options.numBlocks.toNat)
  /-- All elements have processed all that was pushed, and nothing has wrapped. -/
  accumulator : options.withAccumulator = true →
    (S.shared.priv 1).sum.toNat = n * options.numBytesPerBlock.toNat
  counted : (S.shared.priv (Fin.last _)).monitor.counted.toNat = n * options.numBytesPerBlock.toNat
  spaced : (S.shared.priv (Fin.last _)).monitor.Spaced start

/-- What the source emits if nobody calls `stop()`. -/
theorem printed_of_emitted {source : SimpleSource} {log tested loaded : List SourceEvent} {n : ℕ}
    {eop : EopStatus} (h : source.Emitted log n eop tested loaded) (hstop : .stop ∉ log) :
    (eop.toString = "Cancelled" ∧ .cancel ∈ log) ∨
      (eop.toString = "Success" ∧ n = source.numBlocks) := by
  have hsub := h.finalLoad.isPrefix.subset
  cases htype : eop.type with
  | EopSuccess =>
      refine Or.inr ⟨by simp [EopStatus.toString, htype], ?_⟩
      by_contra hne
      exact hstop (hsub (h.success htype (lt_of_le_of_ne h.le hne)))
  | EopCancelled => exact Or.inl ⟨by simp [EopStatus.toString, htype], hsub (h.cancelled htype)⟩
  | EopError => exact absurd htype h.noError

/-- Once `wait` has returned, its status is that of the source, and the elements have
processed what the source has pushed. -/
theorem exists_report {start : ℤ} {readings : ℕ → ℤ}
    (h : (sourceMain options).RunsTo (options.pipeline maxBlocks)
      (fun _ => Members.init start readings) k a S) {eop : EopStatus} (heop : a.status = some eop) :
    ∃ n ≤ options.numBlocks.toNat, Report options maxBlocks start a S eop n := by
  have hfeeds := feeds h
  obtain ⟨rest, hrest⟩ := hfeeds.exists_rest
  obtain ⟨hended, hfirst, hpriv⟩ :=
    Pipeline.processed_of_sinkPromise (passesOn_stages _) h.reachable hrest ((owned h).status eop heop)
  obtain ⟨n, tested, loaded, hloaded, hpushes⟩ :=
    loaded_of_ended hfeeds.source.stage (hfeeds.blocks ▸ hended)
  have hstream : (options.pipeline maxBlocks).blocks S =
      onesStream n options.numBytesPerBlock.toNat (stopStatus (stored loaded)) :=
    hfeeds.blocks.trans hpushes
  obtain rfl : stopStatus (stored loaded) = eop := by
    rw [hstream, findSome_onesStream] at hfirst
    exact Option.some.inj hfirst
  have hemitted := hloaded.emitted hpushes
  obtain ⟨hsum, hcounted, hspaced⟩ := tallied_foldl hpriv
  rw [hstream, dataCount_onesStream] at hsum hcounted
  rw [byteSum_replicate] at hsum
  rw [List.length_replicate] at hcounted
  refine ⟨n, hemitted.le, ⟨tested, loaded, hemitted⟩, hstream, printed_of_emitted hemitted hfeeds.noStop,
    fun hwith => ?_, ?_, hspaced⟩
  · rw [hsum hwith]
    exact toNat_ofNat_mul hemitted.le
  · rw [hcounted]
    exact toNat_ofNat_mul hemitted.le

/-- **What `main` reports is what happened.**  For all options, in every interleaving of
`main`, the source and the worker with interrupts and whatever the clock returns: no
exception is thrown, and when `wait` has returned, its status is that of the source, and
the elements hold the counts of all the blocks that the source has pushed. -/
theorem outcome (options : Options) (maxBlocks : ℕ) (start : ℤ) (readings : ℕ → ℤ) :
    ∀ k a S, (sourceMain options).RunsTo (options.pipeline maxBlocks)
        (fun _ => Members.init start readings) k a S →
      S.shared.terminated = false ∧ (∃ promise, sinkPromise () S.log = .ok promise) ∧
        ∀ eop, a.status = some eop →
          ∃ n ≤ options.numBlocks.toNat, Report options maxBlocks start a S eop n := fun _ _ _ h =>
  ⟨Pipeline.isTree_chain.not_terminated h.reachable, exists_promise h,
    fun _ heop => exists_report h heop⟩

/-! ### The end of the program -/

/-- **No thread runs in what was destroyed.**  The buffer and the elements behind it are
destroyed at most once, when both owners have given the buffer up, and then every thread
is out of the pipeline; and where the source is destroyed, its thread has left `run`, and
the pipeline is destroyed. -/
theorem teardown (options : Options) (maxBlocks : ℕ) (priv : options.Index → Members) :
    ∀ k a S, (sourceMain options).RunsTo (options.pipeline maxBlocks) priv k a S →
      a.buffer.destroyed ≤ 1 ∧
        (a.buffer.destroyed = 1 → (∀ o, a.buffer.phase o = .released) ∧ ∀ t, S.stack t = []) ∧
        (a.joined = true → a.left = true ∧ a.source.point = .returned ∧ a.buffer.destroyed = 1) := by
  intro k a S h
  have hinv := owned h
  refine ⟨hinv.buffer.destroyed_le, fun hone => ?_, fun hjoined => ?_⟩
  · have hne : a.buffer.destroyed ≠ 0 := by omega
    exact ⟨hinv.buffer.released_of_destroyed hne, hinv.destroyed hne⟩
  · have hall := hinv.joined hjoined
    have hleft := hinv.left_of_released hall
    exact ⟨hleft, (hinv.left hleft).1, hinv.buffer.destroyed_of_released hall⟩

/-- The steps that are left to `main` and the source. -/
def remaining (options : Options) (a : SourceMain) : ℕ :=
  options.source.remaining a.source.point + (if a.left then 0 else 1) +
    (if a.status = none then 1 else 0) + a.buffer.rank + if a.joined then 0 else 1

/-- `main` and the source make a bounded number of steps, and an interrupt adds none. -/
theorem budget (options : Options) :
    Budget (sourceMain options).Moves (sourceMain options).Outside fun a N =>
      options.source.Inv a.source ∧ remaining options a ≤ N where
  progress := by
    rintro a a' N ⟨hinv, hle⟩ ⟨x, hstep⟩
    cases hstep with
    | run h =>
        have hlt := SimpleSource.remaining_lt hinv h
        refine ⟨_, ?_, hinv.runStep h, le_rfl⟩
        simp only [remaining] at hle ⊢
        omega
    | exit h hleft =>
        refine ⟨_, ?_, hinv, le_rfl⟩
        simp only [remaining, hleft] at hle ⊢
        simp at hle ⊢
        omega
    | wait h eop =>
        refine ⟨_, ?_, hinv, le_rfl⟩
        simp only [remaining, h] at hle ⊢
        simp at hle ⊢
        omega
    | release o _ hhold =>
        have hlt := a.buffer.rank_release_lt hhold
        refine ⟨_, ?_, hinv, le_rfl⟩
        simp only [remaining] at hle ⊢
        omega
    | destroy o hdestroying =>
        have hlt := a.buffer.rank_destroy_lt hdestroying
        refine ⟨_, ?_, hinv, le_rfl⟩
        simp only [remaining] at hle ⊢
        omega
    | joinThread _ hjoined =>
        refine ⟨_, ?_, hinv, le_rfl⟩
        simp only [remaining, hjoined] at hle ⊢
        simp at hle ⊢
        omega
  idle := by
    rintro a a' N ⟨hinv, hle⟩ ⟨-, rfl⟩
    exact ⟨hinv.call (Or.inr rfl), hle⟩

/-- Where nothing can make a step, `run` has returned and left. -/
theorem left_of_stuck (h : (sourceMain options).RunsTo (options.pipeline maxBlocks) priv k a S)
    (hstuck : ∀ x, ¬ (sourceMain options).Progress (options.pipeline maxBlocks) (a, S) x)
    (hpusher : S.stack .pusher = [] ∨ S.stack .pusher = [.main []]) : a.left = true := by
  have hinv := owned h
  have hterm : S.shared.terminated = false := Pipeline.isTree_chain.not_terminated h.reachable
  by_contra hleft
  rw [Bool.not_eq_true] at hleft
  have hidle := hpusher.resolve_left (hinv.running hleft)
  by_cases hpoint : a.source.point = .returned
  · exact hstuck _ (.act hterm (.exit hpoint hleft) (.exit S hidle))
  · obtain ⟨s', hs'⟩ := options.source.exists_runStep hpoint
    have hsync : ∃ S', (options.pipeline maxBlocks).Sync (options.source.action a.source) S S' := by
      unfold SimpleSource.action
      cases a.source.point with
      | push | pushEop => exact ⟨_, .call S _ hidle⟩
      | pushing | pushingEop => exact ⟨_, .ret S hidle⟩
      | test | load | returned => exact ⟨_, .internal S⟩
    obtain ⟨S', hS'⟩ := hsync
    exact hstuck _ (.act hterm (.run hs') hS')

/-- **Some thread can make a step** until the source is destroyed. -/
theorem exists_progress (hmax : 1 ≤ maxBlocks)
    (h : (sourceMain options).RunsTo (options.pipeline maxBlocks) priv k a S)
    (hjoined : a.joined = false) :
    ∃ x, (sourceMain options).Progress (options.pipeline maxBlocks) (a, S) x := by
  by_contra hnone
  have hstuck := not_exists.mp hnone
  have hinv := owned h
  have hfeeds := feeds h
  have hterm : S.shared.terminated = false := Pipeline.isTree_chain.not_terminated h.reachable
  have hhalted := Application.halted_of_stuck hstuck
  obtain ⟨rest, hrest⟩ := hfeeds.exists_rest
  have hleft := left_of_stuck h hstuck
    (Pipeline.pusher_of_halted_chain (passesOn_stages _) hmax h.reachable hrest hhalted)
  obtain ⟨hpoint, hpusher⟩ := hinv.left hleft
  have hended := hfeeds.ended hpoint
  -- the stream is complete, so everything in the pipeline is completed
  have hfin :=
    Pipeline.finished_of_halted_chain (passesOn_stages _) hmax h.reachable hended hhalted hpusher
  obtain ⟨eop, hpromise⟩ :=
    Pipeline.exists_sinkPromise_of_finished (passesOn_stages _) h.reachable hended hfin
  -- so `wait` has returned, and both owners have given up the buffer
  have hstatus : a.status ≠ none := fun hnone =>
    hstuck _ (.act hterm (.wait hnone eop) (.wait S () eop hpromise))
  have hready : ∀ o, a.Ready o := fun o => by
    cases o with
    | main => exact hstatus
    | thread => exact hleft
  have hreleased : ∀ o, a.buffer.phase o = .released := fun o => by
    cases ho : a.buffer.phase o with
    | holding => exact absurd (.act hterm (.release o (hready o) ho) (.internal S)) (hstuck _)
    | destroying =>
        exact absurd (.act hterm (.destroy o ho) (.join S 0 fun _ i => hfin _)) (hstuck _)
    | released => rfl
  exact hstuck _ (.act hterm (.joinThread hreleased hjoined) (.internal S))

/-- Every run can be continued until the source is destroyed. -/
theorem exists_joined (hmax : 1 ≤ maxBlocks)
    (h : (sourceMain options).RunsTo (options.pipeline maxBlocks) priv k a S) : ∃ k' a' S',
      Relation.ReflTransGen ((sourceMain options).Progress (options.pipeline maxBlocks)) (a, S)
          (a', S') ∧
        (sourceMain options).RunsTo (options.pipeline maxBlocks) priv k' a' S' ∧ a'.joined = true :=
  Application.RunsTo.exists_goal Pipeline.isTree_chain.acyclic (budget options)
    ⟨options.source.inv_init, le_rfl⟩ (Q := fun a _ => a.joined = true)
    (fun h hnot => exists_progress hmax h (Bool.eq_false_iff.mpr hnot)) h

/-- `wait` has returned by then. -/
theorem Owned.status_of_joined (h : Owned a S) (hjoined : a.joined = true) :
    ∃ eop, a.status = some eop := by
  have hmain : a.Ready .main := h.ready_of_ne (by rw [h.joined hjoined]; decide)
  exact Option.ne_none_iff_exists'.mp hmain

/-- A run with the default options that ends. -/
theorem outcome_default : ∃ k a S eop n,
    (sourceMain {}).RunsTo (Options.pipeline {} 100) (fun _ => Members.init 0 fun _ => 0) k a S ∧
      a.status = some eop ∧ Report {} 100 0 a S eop n := by
  have hinit : (sourceMain {}).RunsTo (Options.pipeline {} 100)
    (fun _ => Members.init 0 fun _ => 0) 0 {} _ := .refl
  obtain ⟨k, a, S, -, h, hjoined⟩ := exists_joined (by decide) hinit
  obtain ⟨eop, heop⟩ := (owned h).status_of_joined hjoined
  obtain ⟨n, -, hreport⟩ := (outcome {} 100 0 (fun _ => 0) k a S h).2.2 eop heop
  exact ⟨k, a, S, eop, n, h, heop, hreport⟩

/-- In such a run everything is destroyed once. -/
theorem teardown_default : ∃ k a S,
    (sourceMain {}).RunsTo (Options.pipeline {} 100) (fun _ => Members.init 0 fun _ => 0) k a S ∧
      a.joined = true ∧ a.buffer.destroyed = 1 ∧ ∀ t, S.stack t = [] := by
  have hinit : (sourceMain {}).RunsTo (Options.pipeline {} 100)
    (fun _ => Members.init 0 fun _ => 0) 0 {} _ := .refl
  obtain ⟨k, a, S, -, h, hjoined⟩ := exists_joined (by decide) hinit
  obtain ⟨-, hsafe, hend⟩ := teardown {} 100 _ k a S h
  obtain ⟨-, -, hone⟩ := hend hjoined
  exact ⟨k, a, S, h, hjoined, hone, (hsafe hone).2⟩

/-- **The program ends.**  For all options, every interleaving makes a bounded number of
steps, short of interrupts and of attempts to enqueue that time out; until the source is
destroyed some thread can make a step; and so every run can be continued until `main` has
reported a status, everything is destroyed and every thread is done. -/
theorem terminates (options : Options) (hmax : 1 ≤ maxBlocks) (priv : options.Index → Members) :
    (∃ N, ∀ k a S, (sourceMain options).RunsTo (options.pipeline maxBlocks) priv k a S → k ≤ N) ∧
      (∀ k a S, (sourceMain options).RunsTo (options.pipeline maxBlocks) priv k a S → a.joined = false →
        ∃ x, (sourceMain options).Progress (options.pipeline maxBlocks) (a, S) x) ∧
      ∀ k a S, (sourceMain options).RunsTo (options.pipeline maxBlocks) priv k a S → ∃ a' S',
        Relation.ReflTransGen ((sourceMain options).Progress (options.pipeline maxBlocks)) (a, S)
            (a', S') ∧
          a'.status ≠ none ∧ a'.left = true ∧ a'.buffer.destroyed = 1 ∧ a'.joined = true ∧
          ∀ t, S'.stack t = [] := by
  refine ⟨Application.exists_bound Pipeline.isTree_chain.acyclic (budget options)
    ⟨options.source.inv_init, le_rfl⟩ priv, fun k a S h => exists_progress hmax h, fun k a S h => ?_⟩
  obtain ⟨k', a', S', hsteps, h', hjoined⟩ := exists_joined hmax h
  have hinv := owned h'
  have hall := hinv.joined hjoined
  have hone := hinv.buffer.destroyed_of_released hall
  obtain ⟨eop, heop⟩ := hinv.status_of_joined hjoined
  exact ⟨a', S', hsteps, heop ▸ Option.some_ne_none eop, hinv.left_of_released hall, hone, hjoined,
    hinv.destroyed (by omega)⟩

/-- The default options. -/
theorem terminates_default : ∃ a S,
    Relation.ReflTransGen ((sourceMain {}).Progress (Options.pipeline {} 100))
      (({} : SourceMain), Pipeline.init (fun _ => Members.init 0 fun _ => 0) []) (a, S) ∧
        a.status ≠ none ∧ a.left = true ∧ a.buffer.destroyed = 1 ∧ a.joined = true ∧
        ∀ t, S.stack t = [] :=
  (terminates {} (show 1 ≤ 100 by decide) fun _ => Members.init 0 fun _ => 0).2.2 _ _ _ .refl

end SourceMain
end CppDataStream
