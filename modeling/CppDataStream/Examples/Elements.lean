/-
# The elements of the examples

`src/examples/Source.cpp`, lines 107-186, and the same classes in
`src/examples/Simple.cpp`, lines 28-107.  A `SimpleAccumulator` adds up the bytes of the
blocks, and a `DataStreamThroughputMonitor` logs how many bytes came since it logged
last, whenever more than a second has passed.  Both return the block they are given, and
look at the data of blocks that are not EOP blocks.

The clock may return anything: the readings to come are part of the state of a monitor.
Sums of `uint64_t` wrap, and are compared as such: whatever the clock returns, the counts
logged and the one not logged yet add up to the bytes of the stream
(`ThroughputMonitor.conserved`), and two lines of the log are at least 1.001 seconds
apart (`ThroughputMonitor.spaced`).

Both programs connect a `StreamThreadedBuffer`, an accumulator if they are told to, a
monitor and a sink (`stages`).  `Tallied` says what is in these elements once they have
processed a stream.
-/

import CppDataStream.Threaded.Chains
import Mathlib.Data.List.Chain
import Mathlib.Data.UInt
import Mathlib.Tactic.Ring
import Mathlib.Tactic.Linarith

namespace CppDataStream

/-- The data of a block, which `data()` returns a reference to.  A null pointer is read
as no data; no block that comes here and is not an EOP block has one. -/
def bytesOf (sdb : SharedDataBlock (List UInt8)) : List UInt8 := sdb.derefData.getD []

/-! ### `SimpleAccumulator` -/

/-- `std::accumulate(data.cbegin(), data.cend(), 0ul)`. -/
def accumulate (data : List UInt8) : UInt64 := data.foldl (fun sum byte => sum + byte.toUInt64) 0

/-- `SimpleAccumulator::processData` on `_sum`. -/
def SimpleAccumulator.processData (sum : UInt64) (sdb : SharedDataBlock (List UInt8)) :
    UInt64 × SharedDataBlock (List UInt8) :=
  if sdb.isEndOfProcessing then (sum, sdb) else (sum + accumulate (bytesOf sdb), sdb)

/-- The sum of the bytes, not wrapped. -/
def byteSum (data : List UInt8) : ℕ := (data.map UInt8.toNat).sum

/-! ### `DataStreamThroughputMonitor` -/

/-- A line of the log: the reading of the clock, and the count. -/
structure ThroughputReport where
  now : ℤ
  bytes : UInt64

/-- The members of a `DataStreamThroughputMonitor`, the readings of
`steady_clock::now()` to come, in nanoseconds, and what was logged. -/
structure ThroughputMonitor where
  start : ℤ
  throughputBytes : UInt64 := 0
  readings : ℕ → ℤ
  reports : List ThroughputReport := []

namespace ThroughputMonitor

/-- `processThroughput`. -/
def processThroughput (monitor : ThroughputMonitor) (flush : Bool) : ThroughputMonitor :=
  let now := monitor.readings 0
  let ms := (now - monitor.start).tdiv 1000000
  if ms > 1000 ∨ flush = true then
    { start := now
      throughputBytes := 0
      readings := fun i => monitor.readings (i + 1)
      reports := monitor.reports ++ [⟨now, monitor.throughputBytes⟩] }
  else { monitor with readings := fun i => monitor.readings (i + 1) }

/-- `processData`. -/
def processData (monitor : ThroughputMonitor) (sdb : SharedDataBlock (List UInt8)) :
    ThroughputMonitor × SharedDataBlock (List UInt8) :=
  if sdb.isEndOfProcessing then (monitor, sdb)
  else
    (processThroughput
      { monitor with throughputBytes := monitor.throughputBytes + UInt64.ofNat (bytesOf sdb).length }
      false, sdb)

/-- The bytes that were logged, and those that are still to be. -/
def counted (monitor : ThroughputMonitor) : UInt64 :=
  (monitor.reports.map ThroughputReport.bytes).sum + monitor.throughputBytes

end ThroughputMonitor

/-! ### Counts over a stream -/

/-- A count over the data of a stream. -/
def dataCount (count : List UInt8 → ℕ) (l : List (SharedDataBlock (List UInt8))) : ℕ :=
  (l.map fun sdb => if sdb.isEndOfProcessing then 0 else count (bytesOf sdb)).sum

/-- What grows with every block by its count grows with a stream by the whole count. -/
theorem foldl_dataCount {σ : Type*} {step : σ → SharedDataBlock (List UInt8) → σ} (total : σ → UInt64)
    {count : List UInt8 → ℕ}
    (hstep : ∀ st sdb, total (step st sdb) = total st + UInt64.ofNat (dataCount count [sdb])) (st : σ)
    (l : List (SharedDataBlock (List UInt8))) :
    total (l.foldl step st) = total st + UInt64.ofNat (dataCount count l) := by
  induction l generalizing st with
  | nil => simp [dataCount]
  | cons sdb l ih =>
      have hsplit : dataCount count (sdb :: l) = dataCount count [sdb] + dataCount count l := by
        simp [dataCount]
      rw [List.foldl_cons, ih, hstep, hsplit, UInt64.ofNat_add, UInt64.add_assoc]

/-- `std::accumulate` adds the bytes up in a `uint64_t`. -/
theorem accumulate_eq (data : List UInt8) : accumulate data = UInt64.ofNat (byteSum data) := by
  suffices h : ∀ sum : UInt64, data.foldl (fun sum byte => sum + byte.toUInt64) sum =
      sum + UInt64.ofNat (byteSum data) by
    rw [accumulate, h 0, UInt64.zero_add]
  induction data with
  | nil => exact fun sum => (UInt64.add_zero sum).symm
  | cons byte data ih =>
      intro sum
      have hbyte : byte.toUInt64 = UInt64.ofNat byte.toNat := by
        rw [← UInt8.toNat_toUInt64, UInt64.ofNat_toNat]
      rw [List.foldl_cons, ih, hbyte, UInt64.add_assoc, ← UInt64.ofNat_add]
      rfl

/-- **An accumulator holds the sum of all bytes** that came, as a `uint64_t`. -/
theorem SimpleAccumulator.sum_eq (sum : UInt64) (l : List (SharedDataBlock (List UInt8))) :
    l.foldl (fun sum sdb => (processData sum sdb).1) sum = sum + UInt64.ofNat (dataCount byteSum l) := by
  refine foldl_dataCount (fun sum => sum) (fun sum sdb => ?_) sum l
  unfold processData dataCount
  split_ifs with h
  · simp [h]
  · simp [h, accumulate_eq]

namespace ThroughputMonitor

/-- A line of the log neither adds to the count nor loses of it. -/
theorem counted_processThroughput (monitor : ThroughputMonitor) (flush : Bool) :
    (monitor.processThroughput flush).counted = monitor.counted := by
  unfold processThroughput counted
  simp only
  split_ifs
  · simp [List.sum_append]
  · rfl

/-- **Every byte is counted once**, in one line of the log or not yet. -/
theorem conserved (monitor : ThroughputMonitor) (l : List (SharedDataBlock (List UInt8))) :
    (l.foldl (fun monitor sdb => (monitor.processData sdb).1) monitor).counted =
      monitor.counted + UInt64.ofNat (dataCount List.length l) := by
  refine foldl_dataCount counted (fun monitor sdb => ?_) monitor l
  unfold processData dataCount
  split_ifs with h
  · simp [h]
  · simp only [counted_processThroughput, List.map_cons, List.map_nil, List.sum_cons, List.sum_nil, h]
    simp [counted, UInt64.add_assoc]

/-- The times of the lines of the log, and before them `start₀`. -/
def times (start₀ : ℤ) (monitor : ThroughputMonitor) : List ℤ :=
  start₀ :: monitor.reports.map ThroughputReport.now

/-- Each of them is at least 1.001 seconds after the one before, and the last is `start`. -/
structure Spaced (start₀ : ℤ) (monitor : ThroughputMonitor) : Prop where
  chain : (monitor.times start₀).IsChain fun now now' => now + 1001000000 ≤ now'
  last : (monitor.times start₀).getLast? = some monitor.start

/-- More than 1000 whole milliseconds. -/
theorem le_of_tdiv {d : ℤ} (h : d.tdiv 1000000 > 1000) : 1001000000 ≤ d := by
  rcases le_total 0 d with hd | hd
  · rw [Int.tdiv_eq_ediv_of_nonneg hd] at h
    omega
  · have hneg : 0 ≤ (-d).tdiv 1000000 := Int.tdiv_nonneg (by omega) (by decide)
    rw [Int.neg_tdiv] at hneg
    omega

/-- A line is logged only when the time has come. -/
theorem Spaced.processThroughput {start₀ : ℤ} {monitor : ThroughputMonitor} (h : monitor.Spaced start₀) :
    (monitor.processThroughput false).Spaced start₀ := by
  unfold ThroughputMonitor.processThroughput
  simp only [Bool.false_eq_true, or_false]
  split_ifs with hms
  · have htimes : ∀ m : ThroughputMonitor, m.reports = monitor.reports ++
        [⟨monitor.readings 0, monitor.throughputBytes⟩] → m.times start₀ =
          monitor.times start₀ ++ [monitor.readings 0] := fun m hm => by simp [times, hm]
    refine ⟨?_, by rw [htimes ⟨_, _, _, _⟩ rfl, List.getLast?_concat]⟩
    rw [htimes ⟨_, _, _, _⟩ rfl, List.isChain_append]
    refine ⟨h.chain, by simp, fun now hnow now' hnow' => ?_⟩
    obtain rfl := Option.some.inj (h.last.symm.trans hnow)
    obtain rfl := Option.some.inj hnow'
    have := le_of_tdiv hms
    omega
  · exact ⟨h.chain, h.last⟩

/-- **Lines of the log are at least 1.001 seconds apart**, whatever the clock returns. -/
theorem spaced {start₀ : ℤ} {monitor : ThroughputMonitor} (h : monitor.Spaced start₀)
    (l : List (SharedDataBlock (List UInt8))) :
    (l.foldl (fun monitor sdb => (monitor.processData sdb).1) monitor).Spaced start₀ := by
  induction l generalizing monitor with
  | nil => exact h
  | cons sdb l ih =>
      have hstep : (monitor.processData sdb).1.Spaced start₀ := by
        unfold processData
        split_ifs
        · exact h
        · exact Spaced.processThroughput ⟨h.chain, h.last⟩
      exact ih hstep

end ThroughputMonitor

/-! ### The elements of a program -/

/-- The members of the elements, each of which uses its own. -/
structure Members where
  sum : UInt64 := 0
  monitor : ThroughputMonitor

/-- An element that is a `SimpleAccumulator`. -/
def accumulatorStage (st : Members) (sdb : SharedDataBlock (List UInt8)) :
    Members × SharedDataBlock (List UInt8) :=
  let (sum, output) := SimpleAccumulator.processData st.sum sdb
  ({ st with sum }, output)

/-- An element that is a `DataStreamThroughputMonitor`. -/
def monitorStage (st : Members) (sdb : SharedDataBlock (List UInt8)) :
    Members × SharedDataBlock (List UInt8) :=
  let (monitor, output) := st.monitor.processData sdb
  ({ st with monitor }, output)

/-- What the programs connect behind the buffer. -/
def stages (withAccumulator : Bool) :
    List (Members → SharedDataBlock (List UInt8) → Members × SharedDataBlock (List UInt8)) :=
  (if withAccumulator then [accumulatorStage] else []) ++ [monitorStage]

/-- The options of a program, with their defaults. -/
structure Options where
  numBlocks : UInt32 := 1000000
  withAccumulator : Bool := false
  numBytesPerBlock : UInt32 := 32768

namespace Options

/-- The elements of the pipeline. -/
abbrev Index (options : Options) := Fin ((stages options.withAccumulator).length + 1)

/-- The pipeline, with a buffer for `maxBlocks` blocks. -/
abbrev pipeline (options : Options) (maxBlocks : ℕ) :
    Pipeline options.Index Unit (List UInt8) Members :=
  .chain maxBlocks (stages options.withAccumulator)

end Options

/-- The elements pass every block on. -/
theorem passesOn_stages (withAccumulator : Bool) :
    ∀ f ∈ stages withAccumulator, ∀ st sdb, (f st sdb).2 = sdb := by
  intro f hf st sdb
  have hf : f = accumulatorStage ∨ f = monitorStage := by
    cases withAccumulator <;> simp [stages] at hf <;> simp [hf]
  rcases hf with rfl | rfl
  · simp only [accumulatorStage, SimpleAccumulator.processData]
    split_ifs <;> rfl
  · simp only [monitorStage, ThroughputMonitor.processData]
    split_ifs <;> rfl

/-- The elements have processed a stream whose blocks hold `bytes` bytes that add up to
`sum`; all monitors started at `start` with the same clock. -/
structure Tallied (withAccumulator : Bool) (start : ℤ) (sum bytes : ℕ)
    (priv : Fin ((stages withAccumulator).length + 1) → Members) : Prop where
  accumulator : withAccumulator = true → (priv 1).sum = UInt64.ofNat sum
  counted : (priv (Fin.last _)).monitor.counted = UInt64.ofNat bytes
  spaced : (priv (Fin.last _)).monitor.Spaced start

/-- The members of a new element. -/
def Members.init (start : ℤ) (readings : ℕ → ℤ) : Members := ⟨0, start, 0, readings, []⟩

/-- A monitor stage runs its monitor. -/
theorem foldl_monitorStage (st : Members) (l : List (SharedDataBlock (List UInt8))) :
    (l.foldl (fun st sdb => (monitorStage st sdb).1) st).monitor =
      l.foldl (fun monitor sdb => (monitor.processData sdb).1) st.monitor := by
  induction l generalizing st with
  | nil => rfl
  | cons sdb l ih => exact ih _

/-- An accumulator stage runs its accumulator. -/
theorem foldl_accumulatorStage (st : Members) (l : List (SharedDataBlock (List UInt8))) :
    (l.foldl (fun st sdb => (accumulatorStage st sdb).1) st).sum =
      l.foldl (fun sum sdb => (SimpleAccumulator.processData sum sdb).1) st.sum := by
  induction l generalizing st with
  | nil => rfl
  | cons sdb l ih => exact ih _

/-- **What the elements hold when they have processed a stream.** -/
theorem tallied_foldl {withAccumulator : Bool} {maxBlocks : ℕ} {start : ℤ} {readings : ℕ → ℤ}
    {bs : List (SharedDataBlock (List UInt8))}
    {priv : Fin ((stages withAccumulator).length + 1) → Members}
    (h : ∀ m, priv m = bs.foldl (fun st sdb =>
      ((Pipeline.chain maxBlocks (stages withAccumulator)).processData m st sdb).1)
        (Members.init start readings)) :
    Tallied withAccumulator start (dataCount byteSum bs) (dataCount List.length bs) priv := by
  have hmonitor : priv (Fin.last _) =
      bs.foldl (fun st sdb => (monitorStage st sdb).1) (Members.init start readings) := by
    rw [h]
    cases withAccumulator <;> rfl
  refine ⟨fun hwith => ?_, ?_, ?_⟩
  · subst hwith
    have haccumulator : priv 1 =
        bs.foldl (fun st sdb => (accumulatorStage st sdb).1) (Members.init start readings) := h 1
    rw [haccumulator, foldl_accumulatorStage, SimpleAccumulator.sum_eq]
    exact UInt64.zero_add _
  · rw [hmonitor, foldl_monitorStage, ThroughputMonitor.conserved]
    exact UInt64.zero_add _
  · rw [hmonitor, foldl_monitorStage]
    exact ThroughputMonitor.spaced ⟨by simp [ThroughputMonitor.times, Members.init], rfl⟩ bs

/-! ### The blocks of a program -/

/-- A block of `numBytes` ones. -/
def onesBlock (numBytes : ℕ) : SharedDataBlock (List UInt8) :=
  (WritableDataBlock.setData {} (List.replicate numBytes 1)).asShared

/-- The stream of a program: `n` blocks of `numBytes` ones, and an EOP block. -/
def onesStream (n numBytes : ℕ) (eop : EopStatus) : List (SharedDataBlock (List UInt8)) :=
  List.replicate n (onesBlock numBytes) ++ [⟨none, some eop⟩]

section Stream

variable (n numBytes : ℕ) (eop : EopStatus)

open Streams

/-- The stream of a program is ended. -/
theorem ended_onesStream : Ended SharedDataBlock.isEndOfProcessing (onesStream n numBytes eop) :=
  ⟨_, _, rfl, fun _ h => List.eq_of_mem_replicate h ▸ rfl, rfl⟩

/-- Its status is that of its EOP block. -/
theorem findSome_onesStream : (onesStream n numBytes eop).findSome? SharedDataBlock.eop = some eop := by
  have hnone : (List.replicate n (onesBlock numBytes)).findSome? SharedDataBlock.eop = none :=
    List.findSome?_eq_none_iff.mpr fun _ h => List.eq_of_mem_replicate h ▸ rfl
  rw [onesStream, List.findSome?_append, hnone]
  rfl

/-- Each of its blocks counts the same. -/
theorem dataCount_onesStream (count : List UInt8 → ℕ) :
    dataCount count (onesStream n numBytes eop) = n * count (List.replicate numBytes 1) := by
  rw [dataCount, onesStream, List.map_append, List.sum_append, List.map_replicate]
  simp [onesBlock, SharedDataBlock.isEndOfProcessing, bytesOf, SharedDataBlock.derefData,
    WritableDataBlock.asShared, WritableDataBlock.setData]

/-- As many ones add up to their number. -/
theorem byteSum_replicate : byteSum (List.replicate numBytes 1) = numBytes := by
  simp [byteSum]

end Stream

/-- Nothing wraps where the counts come from options of 32 bits. -/
theorem toNat_ofNat_mul {n : ℕ} {numBlocks numBytes : UInt32} (hn : n ≤ numBlocks.toNat) :
    (UInt64.ofNat (n * numBytes.toNat)).toNat = n * numBytes.toNat := by
  have hlt : n * numBytes.toNat < 2 ^ 64 := by
    have h₁ := numBlocks.toNat_lt
    have h₂ := numBytes.toNat_lt
    calc n * numBytes.toNat
      _ ≤ 2 ^ 32 * numBytes.toNat := Nat.mul_le_mul_right _ (by omega)
      _ < 2 ^ 32 * 2 ^ 32 := Nat.mul_lt_mul_of_pos_left (by omega) (by norm_num)
      _ = 2 ^ 64 := by norm_num
  exact UInt64.toNat_ofNat_of_lt' hlt

end CppDataStream
