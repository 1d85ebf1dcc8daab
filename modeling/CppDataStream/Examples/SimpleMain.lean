/-
# The program `Simple.cpp`

`src/examples/Simple.cpp`, lines 26 and 117-206.  `main` pushes into the buffer
itself: it makes one data block per round until it has made `numBlocks` of them or finds
the flag `cancel` set, then an EOP block, and it waits for the sink.  An interrupt sets
the flag.  Then `main` reports how much was processed, and destroys its locals; it is the
only owner of the buffer, whose destructor joins the worker.

The status of the EOP block is the default one, so `wait` returns a success whether the
program was cancelled or not.  And what `main` reports is computed from the options
alone.  The elements have processed the blocks that were pushed, which are fewer only if
an interrupt came, and then the report is wrong if blocks are not empty
(`SimpleMain.wait_succeeds`).  `main` returns, and no thread is in the pipeline when it is
destroyed (`SimpleMain.returns`).
-/

import CppDataStream.Examples.Elements

namespace CppDataStream

open Streams Transitions

/-- The program points of `main`. -/
inductive SimplePoint where
  /-- At the loop test. -/
  | test (i : ℕ)
  /-- At `cancel.test()`. -/
  | testCancel (i : ℕ)
  /-- In the loop, with the block to push. -/
  | push (i : ℕ)
  /-- In the loop, inside `pushData`. -/
  | pushing (i : ℕ)
  /-- With the EOP block to push. -/
  | pushEop
  /-- Inside the last `pushData`. -/
  | pushingEop
  /-- After it. -/
  | pushed
  /-- At `wait`. -/
  | wait
  /-- With the report to log. -/
  | report
  /-- In the destructor of the buffer. -/
  | destroy
  | returned
  deriving DecidableEq

/-- `main` is done with its pushes. -/
def SimplePoint.left : SimplePoint → Bool
  | .wait | .report | .destroy | .returned => true
  | _ => false

/-- `wait` has returned. -/
def SimplePoint.waited : SimplePoint → Bool
  | .report | .destroy | .returned => true
  | _ => false

/-- `main` waits only after its pushes. -/
theorem SimplePoint.left_of_waited {point : SimplePoint} (h : point.waited = true) :
    point.left = true := by
  cases point with
  | report | destroy | returned => rfl
  | _ => exact absurd h (by simp [waited])

/-- The state of the program but for the pipeline. -/
structure SimpleMain where
  cancel : Bool := false
  point : SimplePoint := .test 0
  /-- The count in the last line of the log. -/
  reported : Option UInt64 := none

/-- What the program says that it has processed. -/
def Options.totalBytes (options : Options) : UInt64 :=
  options.numBlocks.toUInt64 * options.numBytesPerBlock.toUInt64

/-- The product of two `uint32_t` does not wrap in a `uint64_t`. -/
theorem Options.toNat_totalBytes (options : Options) :
    options.totalBytes.toNat = options.numBlocks.toNat * options.numBytesPerBlock.toNat := by
  rw [← toNat_ofNat_mul le_rfl, UInt64.ofNat_mul, totalBytes, ← UInt32.toNat_toUInt64,
    ← UInt32.toNat_toUInt64, UInt64.ofNat_toNat, UInt64.ofNat_toNat]

/-- The EOP block of the program. -/
def simpleEopBlock : SharedDataBlock (List UInt8) :=
  (WritableDataBlock.setEndOfProcessing {} {}).asShared

namespace SimpleMain

/-- The steps of `main`. -/
inductive Step (options : Options) :
    Action options.Index Unit (List UInt8) → SimpleMain → SimpleMain → Prop
  | enter {a i} (h : a.point = .test i) (hlt : i < options.numBlocks.toNat) :
      Step options .internal a { a with point := .testCancel i }
  | leave {a i} (h : a.point = .test i) (hle : options.numBlocks.toNat ≤ i) :
      Step options .internal a { a with point := .pushEop }
  | testCancel {a i} (h : a.point = .testCancel i) :
      Step options .internal a { a with point := if a.cancel then .pushEop else .push i }
  | push {a i} (h : a.point = .push i) :
      Step options (.call (onesBlock options.numBytesPerBlock.toNat)) a { a with point := .pushing i }
  | pushing {a i} (h : a.point = .pushing i) : Step options .ret a { a with point := .test (i + 1) }
  | pushEop {a} (h : a.point = .pushEop) :
      Step options (.call simpleEopBlock) a { a with point := .pushingEop }
  | pushingEop {a} (h : a.point = .pushingEop) : Step options .ret a { a with point := .pushed }
  | exit {a} (h : a.point = .pushed) : Step options .exit a { a with point := .wait }
  | wait {a} (h : a.point = .wait) (eop) : Step options (.wait () eop) a { a with point := .report }
  | report {a} (h : a.point = .report) :
      Step options .internal a { a with point := .destroy, reported := some options.totalBytes }
  | destroy {a} (h : a.point = .destroy) : Step options (.join 0) a { a with point := .returned }

end SimpleMain

/-- `main` of `Simple.cpp`, with interrupts. -/
def simpleMain (options : Options) : Application SimpleMain options.Index Unit (List UInt8) where
  init := {}
  Step := SimpleMain.Step options
  Outside a a' := a' = { a with cancel := true }

namespace SimpleMain

variable {options : Options} {maxBlocks : ℕ} {priv : options.Index → Members} {k : ℕ}
  {a a' : SimpleMain} {S S' : State options.Index Unit (List UInt8) Members}

/-! ### What is pushed -/

/-- The blocks pushed at each program point. -/
inductive Pushed (options : Options) (cancel : Bool) (bs : List (SharedDataBlock (List UInt8))) :
    SimplePoint → Prop
  | test {i} (hbs : bs = List.replicate i (onesBlock options.numBytesPerBlock.toNat))
      (hle : i ≤ options.numBlocks.toNat) : Pushed options cancel bs (.test i)
  | testCancel {i} (hbs : bs = List.replicate i (onesBlock options.numBytesPerBlock.toNat))
      (hlt : i < options.numBlocks.toNat) : Pushed options cancel bs (.testCancel i)
  | push {i} (hbs : bs = List.replicate i (onesBlock options.numBytesPerBlock.toNat))
      (hlt : i < options.numBlocks.toNat) : Pushed options cancel bs (.push i)
  | pushing {i} (hbs : bs = List.replicate (i + 1) (onesBlock options.numBytesPerBlock.toNat))
      (hlt : i < options.numBlocks.toNat) : Pushed options cancel bs (.pushing i)
  | pushEop {n} (hbs : bs = List.replicate n (onesBlock options.numBytesPerBlock.toNat))
      (hle : n ≤ options.numBlocks.toNat) (hearly : n < options.numBlocks.toNat → cancel = true) :
      Pushed options cancel bs .pushEop
  | complete {n point} (hbs : bs = onesStream n options.numBytesPerBlock.toNat {})
      (hle : n ≤ options.numBlocks.toNat) (hearly : n < options.numBlocks.toNat → cancel = true)
      (hpoint : point ∈ [.pushingEop, .pushed, .wait, .report, .destroy, .returned]) :
      Pushed options cancel bs point

/-- A complete stream can be made of it. -/
theorem Pushed.exists_rest {cancel : Bool} {bs : List (SharedDataBlock (List UInt8))}
    {point : SimplePoint} (h : Pushed options cancel bs point) :
    ∃ rest, Ended SharedDataBlock.isEndOfProcessing (bs ++ rest) := by
  cases h with
  | complete hbs => exact ⟨[], by rw [List.append_nil, hbs]; exact ended_onesStream _ _ _⟩
  | test hbs | testCancel hbs | push hbs | pushing hbs | pushEop hbs =>
      exact ⟨[⟨none, some {}⟩], hbs ▸ ended_onesStream _ _ {}⟩

/-- When `main` is done with its pushes, it has pushed a complete stream. -/
theorem Pushed.of_left {cancel : Bool} {bs : List (SharedDataBlock (List UInt8))} {point : SimplePoint}
    (h : Pushed options cancel bs point) (hleft : point.left = true) :
    ∃ n, bs = onesStream n options.numBytesPerBlock.toNat {} ∧ n ≤ options.numBlocks.toNat ∧
      (n < options.numBlocks.toNat → cancel = true) := by
  cases h with
  | complete hbs hle hearly => exact ⟨_, hbs, hle, hearly⟩
  | test | testCancel | push | pushing | pushEop => simp [SimplePoint.left] at hleft

/-- The flag is only set. -/
theorem Pushed.cancel {cancel : Bool} {bs : List (SharedDataBlock (List UInt8))} {point : SimplePoint}
    (h : Pushed options cancel bs point) : Pushed options true bs point := by
  cases h with
  | test hbs hle => exact .test hbs hle
  | testCancel hbs hlt => exact .testCancel hbs hlt
  | push hbs hlt => exact .push hbs hlt
  | pushing hbs hlt => exact .pushing hbs hlt
  | pushEop hbs hle => exact .pushEop hbs hle fun _ => rfl
  | complete hbs hle _ hpoint => exact .complete hbs hle (fun _ => rfl) hpoint

/-- A step of `main` pushes what it should. -/
theorem Pushed.step {x : Action options.Index Unit (List UInt8)}
    {bs : List (SharedDataBlock (List UInt8))} (h : Pushed options a.cancel bs a.point)
    (hstep : Step options x a a') : Pushed options a'.cancel (bs ++ x.blocks) a'.point := by
  cases hstep with
  | enter hpoint hlt =>
      rw [hpoint] at h
      simp only [Action.blocks, List.append_nil]
      cases h with
      | test hbs => exact .testCancel hbs hlt
      | complete _ _ _ hp => simp at hp
  | leave hpoint hle =>
      rw [hpoint] at h
      simp only [Action.blocks, List.append_nil]
      cases h with
      | test hbs hle' => exact .pushEop hbs hle' fun hlt => absurd hle (Nat.not_le.mpr hlt)
      | complete _ _ _ hp => simp at hp
  | testCancel hpoint =>
      rw [hpoint] at h
      simp only [Action.blocks, List.append_nil]
      cases h with
      | testCancel hbs hlt =>
          split_ifs with hcancel
          · exact .pushEop hbs hlt.le fun _ => hcancel
          · exact .push hbs hlt
      | complete _ _ _ hp => simp at hp
  | push hpoint =>
      rw [hpoint] at h
      cases h with
      | push hbs hlt => exact .pushing (by rw [hbs, Action.blocks, List.replicate_succ']) hlt
      | complete _ _ _ hp => simp at hp
  | pushing hpoint =>
      rw [hpoint] at h
      simp only [Action.blocks, List.append_nil]
      cases h with
      | pushing hbs hlt => exact .test hbs hlt
      | complete _ _ _ hp => simp at hp
  | pushEop hpoint =>
      rw [hpoint] at h
      cases h with
      | pushEop hbs hle hearly => exact .complete (by rw [hbs]; rfl) hle hearly (by simp)
      | complete _ _ _ hp => simp at hp
  | pushingEop hpoint | exit hpoint | wait hpoint | report hpoint | destroy hpoint =>
      rw [hpoint] at h
      simp only [Action.blocks, List.append_nil]
      cases h with
      | complete hbs hle hearly => exact .complete hbs hle hearly (by simp)

/-- At every point of every run, that was pushed. -/
theorem pushed (h : (simpleMain options).RunsTo (options.pipeline maxBlocks) priv k a S) :
    Pushed options a.cancel ((options.pipeline maxBlocks).blocks S) a.point := by
  refine h.induct
    (I := fun a S => Pushed options a.cancel ((options.pipeline maxBlocks).blocks S) a.point)
    (.test rfl (Nat.zero_le _)) (fun _ _ ih _ hstep hS => ?_) (fun hrun _ ih hstep _ => ?_)
    fun _ ih hout => ?_
  · rw [Application.blocks_sync hS]
    exact ih.step hstep
  · rwa [hrun.reachable.blocks_step hstep]
  · obtain rfl := hout
    exact ih.cancel

/-- The sink throws nothing. -/
theorem exists_promise (h : (simpleMain options).RunsTo (options.pipeline maxBlocks) priv k a S) :
    ∃ promise, sinkPromise () S.log = .ok promise := by
  obtain ⟨rest, hrest⟩ := (pushed h).exists_rest
  exact Pipeline.exists_sinkPromise_chain (passesOn_stages _) h.reachable hrest

/-! ### Where `main` is -/

/-- How the program point and the pipeline go together. -/
structure Placed (options : Options) (a : SimpleMain)
    (S : State options.Index Unit (List UInt8) Members) : Prop where
  left : a.point.left = true ↔ S.stack .pusher = []
  promise : a.point.waited = true → ∃ eop, sinkPromise () S.log = .ok (some eop)
  reported : ∀ bytes, a.reported = some bytes → a.point.waited = true ∧ bytes = options.totalBytes
  logged : a.point = .destroy ∨ a.point = .returned → a.reported = some options.totalBytes
  /-- Where the buffer is destroyed, no thread is in an element. -/
  destroyed : a.point = .returned → Pipeline.Finished S

/-- As long as `main` is not done with its pushes, the pushing thread is there. -/
theorem Placed.pushing {x : Action options.Index Unit (List UInt8)} (h : Placed options a S)
    (hleft : a.point.left = false) (hleft' : a'.point.left = false)
    (hreported : a'.reported = a.reported)
    (hx : x ≠ .exit) (hS : (options.pipeline maxBlocks).Sync x S S') : Placed options a' S' := by
  have hne : S.stack .pusher ≠ [] := fun hs => by simp [h.left.mpr hs] at hleft
  refine ⟨⟨fun htrue => by simp [hleft'] at htrue, fun hs =>
      absurd hs (Application.pusher_sync hS hx hne)⟩,
    fun hwaited => ?_, fun bytes hbytes => ?_, fun hpoint => ?_, fun hpoint => ?_⟩
  · simp [SimplePoint.left_of_waited hwaited] at hleft'
  · simp [SimplePoint.left_of_waited (h.reported bytes (hreported ▸ hbytes)).1] at hleft
  · rcases hpoint with hpoint | hpoint <;> simp [hpoint, SimplePoint.left] at hleft'
  · simp [hpoint, SimplePoint.left] at hleft'

/-- A step of the program keeps this. -/
theorem Placed.step {x : Action options.Index Unit (List UInt8)} (h : Placed options a S)
    (hS' : (options.pipeline maxBlocks).Reachable priv ((options.pipeline maxBlocks).blocks S') S')
    (hstep : Step options x a a') (hS : (options.pipeline maxBlocks).Sync x S S') :
    Placed options a' S' := by
  cases hstep with
  | enter hpoint | leave hpoint | push hpoint | pushing hpoint | pushEop hpoint | pushingEop hpoint =>
      exact h.pushing (by rw [hpoint]; rfl) rfl rfl (by simp) hS
  | testCancel hpoint =>
      exact h.pushing (by rw [hpoint]; rfl) (by simp only; split_ifs <;> rfl) rfl (by simp) hS
  | exit hpoint =>
      cases hS
      refine ⟨iff_of_true rfl (Pipeline.leave_pusher S),
        fun hwaited => by simp [SimplePoint.waited] at hwaited,
        fun bytes hbytes => ?_, fun hlogged => by simp at hlogged, fun hreturned => by simp at hreturned⟩
      have := (h.reported bytes hbytes).1
      simp [hpoint, SimplePoint.waited] at this
  | wait hpoint eop =>
      cases hS with
      | wait _ _ _ hpromise =>
          refine ⟨iff_of_true rfl (h.left.mp (by rw [hpoint]; rfl)), fun _ => ⟨eop, hpromise⟩,
            fun bytes hbytes => ?_, fun hlogged => by simp at hlogged,
            fun hreturned => by simp at hreturned⟩
          exact ⟨rfl, (h.reported bytes hbytes).2⟩
  | report hpoint =>
      cases hS
      exact ⟨iff_of_true rfl (h.left.mp (by rw [hpoint]; rfl)), fun _ => h.promise (by rw [hpoint]; rfl),
        fun bytes hbytes => ⟨rfl, (Option.some.inj hbytes).symm⟩, fun _ => rfl,
        fun hreturned => by simp at hreturned⟩
  | destroy hpoint =>
      have hs := h.left.mp (by rw [hpoint]; rfl)
      cases hS with
      | join _ _ hjoin =>
          exact ⟨iff_of_true rfl hs, fun _ => h.promise (by rw [hpoint]; rfl),
            fun bytes hbytes => ⟨rfl, (h.reported bytes hbytes).2⟩, fun _ => h.logged (Or.inl hpoint),
            fun _ => Pipeline.finished_of_joined_chain hS' hs hjoin⟩

/-- In every run they go together like this. -/
theorem placed (h : (simpleMain options).RunsTo (options.pipeline maxBlocks) priv k a S) :
    Placed options a S := by
  refine h.induct (I := Placed options) ?_ (fun _ hrun ih _ hstep hS => ih.step hrun.reachable hstep hS)
    (fun hrun hrun' ih hstep hidle => ?_) fun _ ih hout => ?_
  · exact ⟨by simp [simpleMain, SimplePoint.left, Pipeline.init], fun hwaited => by
      simp [simpleMain, SimplePoint.waited] at hwaited, fun _ hbytes => by simp [simpleMain] at hbytes,
      fun hlogged => by simp [simpleMain] at hlogged, fun hreturned => by simp [simpleMain] at hreturned⟩
  · refine ⟨ih.left.trans ⟨Pipeline.pusher_eq_nil hstep, fun hs => ?_⟩, fun hwaited => ?_, ih.reported,
      ih.logged, fun hreturned => ?_⟩
    · by_contra hne
      exact hrun.reachable.pusher_ne_nil hstep hidle hne hs
    · obtain ⟨eop, heop⟩ := ih.promise hwaited
      obtain ⟨promise, hpromise⟩ := exists_promise hrun'
      exact ⟨eop, sinkPromise_of_isPrefix (Pipeline.log_isPrefix_step hstep) heop hpromise⟩
    · obtain ⟨f, rest, e, hs, -⟩ := Pipeline.step_cases hstep
      exact absurd (ih.destroyed hreturned _) (hs ▸ List.cons_ne_nil _ _)
  · obtain rfl := hout
    exact ⟨ih.left, ih.promise, ih.reported, ih.logged, ih.destroyed⟩

/-! ### What `wait` returns and what `main` reports -/

/-- What holds once `wait` has returned, if `n` blocks were pushed. -/
structure Report (options : Options) (maxBlocks : ℕ) (start : ℤ) (a : SimpleMain)
    (S : State options.Index Unit (List UInt8) Members) (n : ℕ) : Prop where
  /-- The status is a success. -/
  success : sinkPromise () S.log = .ok (some {})
  blocks : (options.pipeline maxBlocks).blocks S = onesStream n options.numBytesPerBlock.toNat {}
  /-- Fewer blocks were pushed only after an interrupt. -/
  interrupted : n < options.numBlocks.toNat → a.cancel = true
  /-- All elements have processed all that was pushed, and nothing has wrapped. -/
  accumulator : options.withAccumulator = true →
    (S.shared.priv 1).sum.toNat = n * options.numBytesPerBlock.toNat
  counted : (S.shared.priv (Fin.last _)).monitor.counted.toNat = n * options.numBytesPerBlock.toNat
  spaced : (S.shared.priv (Fin.last _)).monitor.Spaced start
  /-- The report is as if all blocks were pushed. -/
  reported : ∀ bytes, a.reported = some bytes →
    bytes.toNat = options.numBlocks.toNat * options.numBytesPerBlock.toNat ∧
      (bytes = (S.shared.priv (Fin.last _)).monitor.counted ↔
        n = options.numBlocks.toNat ∨ options.numBytesPerBlock.toNat = 0)

/-- Once `wait` has returned, it was a success, and the elements have processed what `main`
has pushed. -/
theorem exists_report {start : ℤ} {readings : ℕ → ℤ}
    (h : (simpleMain options).RunsTo (options.pipeline maxBlocks)
      (fun _ => Members.init start readings) k a S) (hwaited : a.point.waited = true) :
    ∃ n ≤ options.numBlocks.toNat, Report options maxBlocks start a S n := by
  have hpushed := pushed h
  obtain ⟨eop, heop⟩ := (placed h).promise hwaited
  obtain ⟨rest, hrest⟩ := hpushed.exists_rest
  obtain ⟨hended, hfirst, hpriv⟩ :=
    Pipeline.processed_of_sinkPromise (passesOn_stages _) h.reachable hrest heop
  obtain ⟨n, hstream, hle, hearly⟩ := hpushed.of_left (SimplePoint.left_of_waited hwaited)
  obtain rfl : {} = eop := by
    rw [hstream, findSome_onesStream] at hfirst
    exact Option.some.inj hfirst
  obtain ⟨hsum, hcounted, hspaced⟩ := tallied_foldl hpriv
  rw [hstream, dataCount_onesStream] at hsum hcounted
  rw [byteSum_replicate] at hsum
  rw [List.length_replicate] at hcounted
  have hcount : (S.shared.priv (Fin.last _)).monitor.counted.toNat =
      n * options.numBytesPerBlock.toNat := by
    rw [hcounted]
    exact toNat_ofNat_mul hle
  refine ⟨n, hle, heop, hstream, hearly, fun hwith => ?_, hcount, hspaced, fun bytes hbytes => ?_⟩
  · rw [hsum hwith]
    exact toNat_ofNat_mul hle
  · obtain rfl := ((placed h).reported bytes hbytes).2
    refine ⟨options.toNat_totalBytes, ?_⟩
    rw [← UInt64.toNat_inj, options.toNat_totalBytes, hcount, mul_eq_mul_right_iff, eq_comm]

/-- **`wait` returns a success, whatever has happened**, and the report does not tell
either.  For all options, in every interleaving of `main` and the worker with interrupts
and whatever the clock returns: no exception is thrown, and once `wait` has returned, the
elements hold the counts of all the blocks that `main` has pushed, which are fewer than
`numBlocks` only after an interrupt; the bytes reported are those processed if and only
if none is missing or blocks are empty. -/
theorem wait_succeeds (options : Options) (maxBlocks : ℕ) (start : ℤ) (readings : ℕ → ℤ) :
    ∀ k a S, (simpleMain options).RunsTo (options.pipeline maxBlocks)
        (fun _ => Members.init start readings) k a S →
      S.shared.terminated = false ∧ (∃ promise, sinkPromise () S.log = .ok promise) ∧
        (a.point.waited = true →
          ∃ n ≤ options.numBlocks.toNat, Report options maxBlocks start a S n) := fun _ _ _ h =>
  ⟨Pipeline.isTree_chain.not_terminated h.reachable, exists_promise h, exists_report h⟩

/-! ### The end of the program -/

/-- The steps that are left to `main`. -/
def remaining (options : Options) : SimplePoint → ℕ
  | .test i => 4 * (options.numBlocks.toNat - i) + 7
  | .testCancel i => 4 * (options.numBlocks.toNat - (i + 1)) + 10
  | .push i => 4 * (options.numBlocks.toNat - (i + 1)) + 9
  | .pushing i => 4 * (options.numBlocks.toNat - (i + 1)) + 8
  | .pushEop => 6
  | .pushingEop => 5
  | .pushed => 4
  | .wait => 3
  | .report => 2
  | .destroy => 1
  | .returned => 0

/-- Every step of `main` leaves fewer to make. -/
theorem remaining_lt {x : Action options.Index Unit (List UInt8)} (h : Step options x a a') :
    remaining options a'.point < remaining options a.point := by
  cases h with
  | enter hpoint hlt =>
      simp only [hpoint, remaining]
      omega
  | testCancel hpoint =>
      simp only [hpoint]
      split_ifs <;> simp only [remaining] <;> omega
  | leave hpoint | push hpoint | pushing hpoint | pushEop hpoint | pushingEop hpoint | exit hpoint
  | wait hpoint | report hpoint | destroy hpoint =>
      simp only [hpoint, remaining]
      omega

/-- `main` makes a bounded number of steps, and an interrupt adds none. -/
theorem budget (options : Options) :
    Budget (simpleMain options).Moves (simpleMain options).Outside fun a N =>
      remaining options a.point ≤ N where
  progress := by
    rintro a a' N hle ⟨x, hstep⟩
    exact ⟨_, (remaining_lt hstep).trans_le hle, le_rfl⟩
  idle := by
    rintro a a' N hle rfl
    exact hle

/-- Where `main` is not done with its pushes, it can make a step unless it is inside one. -/
theorem exists_step (options : Options) (maxBlocks : ℕ)
    {S : State options.Index Unit (List UInt8) Members} (hleft : a.point.left = false)
    (hidle : S.stack .pusher = [.main []]) :
    ∃ x a' S', Step options x a a' ∧ (options.pipeline maxBlocks).Sync x S S' := by
  cases hpoint : a.point with
  | test i =>
      rcases Nat.lt_or_ge i options.numBlocks.toNat with hlt | hle
      · exact ⟨_, _, _, .enter hpoint hlt, .internal S⟩
      · exact ⟨_, _, _, .leave hpoint hle, .internal S⟩
  | testCancel => exact ⟨_, _, _, .testCancel hpoint, .internal S⟩
  | push => exact ⟨_, _, _, .push hpoint, .call S _ hidle⟩
  | pushing => exact ⟨_, _, _, .pushing hpoint, .ret S hidle⟩
  | pushEop => exact ⟨_, _, _, .pushEop hpoint, .call S _ hidle⟩
  | pushingEop => exact ⟨_, _, _, .pushingEop hpoint, .ret S hidle⟩
  | pushed => exact ⟨_, _, _, .exit hpoint, .exit S hidle⟩
  | wait | report | destroy | returned => simp [hpoint, SimplePoint.left] at hleft

/-- **Some thread can make a step** until `main` has returned. -/
theorem exists_progress (hmax : 1 ≤ maxBlocks)
    (h : (simpleMain options).RunsTo (options.pipeline maxBlocks) priv k a S)
    (hpoint : a.point ≠ .returned) :
    ∃ x, (simpleMain options).Progress (options.pipeline maxBlocks) (a, S) x := by
  by_contra hnone
  have hstuck := not_exists.mp hnone
  have hplaced := placed h
  have hterm : S.shared.terminated = false := Pipeline.isTree_chain.not_terminated h.reachable
  have hhalted := Application.halted_of_stuck hstuck
  obtain ⟨rest, hrest⟩ := (pushed h).exists_rest
  have hpusher := Pipeline.pusher_of_halted_chain (passesOn_stages _) hmax h.reachable hrest hhalted
  have hleft : a.point.left = true := by
    by_contra hleft
    obtain ⟨x, a', S', hstep, hS⟩ := exists_step options maxBlocks
      (Bool.eq_false_iff.mpr hleft) (hpusher.resolve_left fun hs => hleft (hplaced.left.mpr hs))
    exact hstuck _ (.act hterm hstep hS)
  obtain ⟨n, hstream, -⟩ := (pushed h).of_left hleft
  -- the stream is complete, so everything in the pipeline is completed
  have hended : Ended SharedDataBlock.isEndOfProcessing ((options.pipeline maxBlocks).blocks S) :=
    hstream ▸ ended_onesStream _ _ _
  have hfin := Pipeline.finished_of_halted_chain (passesOn_stages _) hmax h.reachable hended hhalted
    (hplaced.left.mp hleft)
  cases hpt : a.point with
  | wait =>
      obtain ⟨eop, heop⟩ :=
        Pipeline.exists_sinkPromise_of_finished (passesOn_stages _) h.reachable hended hfin
      exact hstuck _ (.act hterm (.wait hpt eop) (.wait S () eop heop))
  | report => exact hstuck _ (.act hterm (.report hpt) (.internal S))
  | destroy => exact hstuck _ (.act hterm (.destroy hpt) (.join S 0 fun _ i => hfin _))
  | returned => exact hpoint hpt
  | _ => simp [hpt, SimplePoint.left] at hleft

/-- Every run can be continued until `main` has returned. -/
theorem exists_returned (hmax : 1 ≤ maxBlocks)
    (h : (simpleMain options).RunsTo (options.pipeline maxBlocks) priv k a S) : ∃ k' a' S',
      Relation.ReflTransGen ((simpleMain options).Progress (options.pipeline maxBlocks)) (a, S)
          (a', S') ∧
        (simpleMain options).RunsTo (options.pipeline maxBlocks) priv k' a' S' ∧ a'.point = .returned :=
  Application.RunsTo.exists_goal Pipeline.isTree_chain.acyclic (budget options) le_rfl
    (Q := fun a _ => a.point = .returned) (fun h hnot => exists_progress hmax h hnot) h

/-- A run with the default options. -/
theorem wait_succeeds_default : ∃ k a S n,
    (simpleMain {}).RunsTo (Options.pipeline {} 1000) (fun _ => Members.init 0 fun _ => 0) k a S ∧
      a.point = .returned ∧ Report {} 1000 0 a S n := by
  have hinit : (simpleMain {}).RunsTo (Options.pipeline {} 1000) (fun _ => Members.init 0 fun _ => 0) 0
    {} _ := .refl
  obtain ⟨k, a, S, -, h, hreturned⟩ := exists_returned (by decide) hinit
  obtain ⟨n, -, hreport⟩ := (wait_succeeds {} 1000 0 (fun _ => 0) k a S h).2.2 (by rw [hreturned]; rfl)
  exact ⟨k, a, S, n, h, hreturned, hreport⟩

/-- **`main` returns, and then no thread runs.**  For all options, every interleaving makes
a bounded number of steps, short of interrupts and of attempts to enqueue that time out;
until `main` has returned some thread can make a step; and so every run can be continued
until it has, with the report logged; wherever it has, every thread is done. -/
theorem returns (options : Options) (hmax : 1 ≤ maxBlocks) (priv : options.Index → Members) :
    (∃ N, ∀ k a S, (simpleMain options).RunsTo (options.pipeline maxBlocks) priv k a S → k ≤ N) ∧
      (∀ k a S, (simpleMain options).RunsTo (options.pipeline maxBlocks) priv k a S →
        (a.point ≠ .returned →
          ∃ x, (simpleMain options).Progress (options.pipeline maxBlocks) (a, S) x) ∧
        (a.point = .returned → ∀ t, S.stack t = [])) ∧
      ∀ k a S, (simpleMain options).RunsTo (options.pipeline maxBlocks) priv k a S → ∃ a' S',
        Relation.ReflTransGen ((simpleMain options).Progress (options.pipeline maxBlocks)) (a, S)
            (a', S') ∧
          a'.point = .returned ∧ a'.reported = some options.totalBytes := by
  refine ⟨Application.exists_bound Pipeline.isTree_chain.acyclic (budget options) le_rfl priv,
    fun k a S h => ⟨exists_progress hmax h, (placed h).destroyed⟩, fun k a S h => ?_⟩
  obtain ⟨k', a', S', hsteps, h', hreturned⟩ := exists_returned hmax h
  exact ⟨a', S', hsteps, hreturned, (placed h').logged (Or.inr hreturned)⟩

/-- The default options. -/
theorem returns_default : ∃ a S,
    Relation.ReflTransGen ((simpleMain {}).Progress (Options.pipeline {} 1000))
      (({} : SimpleMain), Pipeline.init (fun _ => Members.init 0 fun _ => 0) []) (a, S) ∧
        a.point = .returned ∧ a.reported = some (Options.totalBytes {}) :=
  (returns {} (show 1 ≤ 1000 by decide) fun _ => Members.init 0 fun _ => 0).2.2 _ _ _ .refl

end SimpleMain

end CppDataStream
