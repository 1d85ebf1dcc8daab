/-
# When a buffer makes progress

`include/cppdatastream/DataStream.hpp`, lines 332-368.  The loop around
`wait_enqueue_timed` ends with success only, and the worker leaves `run` after the
first end-of-processing block.  So of the blocks after that one as many are taken as
the queue holds, and the next push waits forever.

Assumed is a downstream whose pushes return (`DownstreamReturns`): wherever the
worker is in a call of `pushData`, a state can be reached where the call has
returned.  That is so if there are no further buffers (`downstreamReturns_of_forall`).
On a finite acyclic pipeline every run is bounded, so it can be continued until no
thread can make a step, and `Reachable.atRest` lists what that state can look like.
-/

import CppDataStream.Threaded.Conservation
import CppDataStream.Threaded.Measure

namespace CppDataStream

open Streams

namespace Pipeline

variable {ι V T σ : Type*}

/-- The blocks after the first end-of-processing block; none if there is no such
block. -/
def afterEop : List (SharedDataBlock T) → List (SharedDataBlock T)
  | [] => []
  | sdb :: sdbs => if sdb.isEndOfProcessing then sdbs else afterEop sdbs

/-- A stream is what comes up to its first EOP block, and what comes after it. -/
theorem cutAfter_append_afterEop (bs : List (SharedDataBlock T)) :
    cutAfter SharedDataBlock.isEndOfProcessing bs ++ afterEop bs = bs := by
  induction bs with
  | nil => rfl
  | cons b bs ih =>
      rw [cutAfter, afterEop]
      split_ifs
      · rfl
      · rw [List.cons_append, ih]

/-- Nothing comes after an EOP block that is not there. -/
theorem afterEop_of_forall {bs : List (SharedDataBlock T)}
    (h : ∀ b ∈ bs, b.isEndOfProcessing = false) : afterEop bs = [] := by
  have hsplit := cutAfter_append_afterEop bs
  rw [cutAfter_of_forall h] at hsplit
  exact List.append_right_eq_self.mp hsplit

variable [DecidableEq ι] {P : Pipeline ι V T σ} {priv : ι → σ}
  {bs : List (SharedDataBlock T)} {S : State ι V T σ} {maxBlocks : ℕ}

/-- The worker of the buffer at the entry is in a call of `pushData` of the base
class. -/
def Delivering (P : Pipeline ι V T σ) (S : State ι V T σ) : Prop :=
  ∃ f rest, S.stack (.worker P.entry 0) = f :: rest ∧ f.Call

/-- The worker of the buffer at the entry has left `run`. -/
def Exited (P : Pipeline ι V T σ) (S : State ι V T σ) : Prop :=
  S.shared.created P.entry = 1 ∧ S.stack (.worker P.entry 0) = []

/-- `join` in the destructor of the buffer at the entry returns, or is not called. -/
def JoinReturns (P : Pipeline ι V T σ) (S : State ι V T σ) : Prop :=
  S.shared.joinable P.entry = true → S.stack (.worker P.entry 0) = []

/-- What the worker of the buffer at the entry pushes on returns, and nothing calls
`std::terminate`. -/
structure DownstreamReturns (P : Pipeline ι V T σ) (priv : ι → σ) (bs : List (SharedDataBlock T)) :
    Prop where
  returns : ∀ S, P.Reachable priv bs S → P.Delivering S →
    ∃ S', Relation.ReflTransGen P.Step S S' ∧ ¬ P.Delivering S'
  notTerminated : ∀ S, P.Reachable priv bs S → S.shared.terminated = false

/-- Where a run can end, with a buffer at the entry that holds `maxBlocks` blocks. -/
inductive AtRest (P : Pipeline ι V T σ) (bs : List (SharedDataBlock T)) (maxBlocks : ℕ)
    (S : State ι V T σ) : Prop
  /-- No block was pushed. -/
  | unused (hpusher : S.stack .pusher = []) (hbs : bs = []) (hworker : S.stack (.worker P.entry 0) = [])
  /-- The worker waits for an end-of-processing block. -/
  | waiting (hpusher : S.stack .pusher = []) (hbs : bs ≠ [])
      (hnone : ∀ b ∈ bs, b.isEndOfProcessing = false)
      (hworker : S.stack (.worker P.entry 0) = [.dequeue P.entry])
      (hjoinable : S.shared.joinable P.entry = true)
  /-- All blocks were pushed, and the worker has exited. -/
  | finished (hpusher : S.stack .pusher = []) (hexited : P.Exited S)
      (hle : (afterEop bs).length ≤ maxBlocks)
  /-- The worker has exited, and a push waits for space in the queue. -/
  | blocked (sdb : SharedDataBlock T) (rest : List (Frame ι T))
      (hpusher : S.stack .pusher = .enqueue P.entry sdb :: rest) (hexited : P.Exited S)
      (hlt : maxBlocks < (afterEop bs).length)
      (henqueued : enqueued P.entry S.log =
        cutAfter SharedDataBlock.isEndOfProcessing bs ++ (afterEop bs).take maxBlocks)

omit [DecidableEq ι] in
/-- Only the entry is before the first buffer, if it is one. -/
theorem Upstream.eq_entry (hbuf : P.IsBuffer P.entry) {n : ι} {l : List ι} (h : P.Upstream n l)
    (hl : l = []) : n = P.entry := by
  induction h with
  | entry => rfl
  | @conn m n l _ _ ih =>
      unfold under at hl
      split_ifs at hl with hm
      · exact absurd hl (by simp)
      · exact absurd (ih hl ▸ hbuf) hm

/-- The pushing thread waits for space in the buffer at the entry only. -/
theorem Reachable.pusher_producer (h : P.Reachable priv bs S) (hbuf : P.IsBuffer P.entry)
    {f : Frame ι T} (hf : f ∈ S.stack .pusher) {c : ι} (hside : f.side = .producer c) :
    c = P.entry := by
  obtain ⟨l, hl, hruns⟩ := h.wellFormed.located .pusher f hf
  rw [hside] at hl
  exact hl.2.eq_entry hbuf (List.getLast?_eq_none_iff.mp hruns.symm)

/-- A worker is started by a push. -/
theorem Reachable.bs_ne_nil (h : P.Reachable priv bs S) (hbuf : P.IsBuffer P.entry)
    (hroot : ¬ Relation.TransGen P.Adj P.entry P.entry) (hcreated : S.shared.created P.entry ≠ 0) :
    bs ≠ [] := by
  rintro rfl
  refine hcreated (h.induct (I := fun S => S.shared.created P.entry = 0) rfl
    fun S t f rest e hS ih hstack hexec _ => ?_)
  rcases hexec.created_eq P.entry with hcr | ho
  · exact hcr.trans ih
  · -- the block with which the worker is started is pending
    obtain ⟨⟨sdb, rfl⟩, -, -⟩ := hexec.spawned ho
    obtain rfl := (uniform_entry hroot).owned_producer .entry S hS t (.start P.entry sdb)
      (by simp [hstack]) rfl
    have hpushed := hS.pushed_entry hbuf hroot
    rw [pending, show S.stack .pusher = _ from hstack] at hpushed
    exact absurd hpushed (by simp [Frame.toEnqueue])

/-- In a stuck state the pushing thread is done, or it waits for space. -/
theorem Reachable.pusher_stuck (h : P.Reachable priv bs S) (hbuf : P.IsBuffer P.entry)
    (hterm : S.shared.terminated = false) (hstuck : P.Stuck S) :
    S.stack .pusher = [] ∨ ∃ sdb rest, S.stack .pusher = .enqueue P.entry sdb :: rest ∧
      (P.maxBlocks P.entry).getD 0 ≤ (S.shared.queue P.entry).length := by
  rcases hstack : S.stack .pusher with _ | ⟨f, rest⟩
  · exact Or.inl rfl
  · rcases hstuck.waits hterm hstack with ⟨c, sdb, rfl, hfull⟩ | ⟨c, rfl, -⟩
    · obtain rfl := h.pusher_producer hbuf (f := .enqueue c sdb) (by simp [hstack]) rfl
      exact Or.inr ⟨sdb, rest, rfl, hfull⟩
    · have hbot := h.bottom .pusher
      rw [hstack] at hbot
      cases (hbot.eq_nil id).1

/-- In a stuck state the worker has not been started, it waits for a block, or it has
exited. -/
theorem Reachable.worker_stuck (h : P.Reachable priv bs S) (hbuf : P.IsBuffer P.entry)
    (hroot : ¬ Relation.TransGen P.Adj P.entry P.entry) (hret : P.DownstreamReturns priv bs)
    (hstuck : P.Stuck S) :
    (S.shared.created P.entry = 0 ∧ S.stack (.worker P.entry 0) = []) ∨
      (S.shared.created P.entry = 1 ∧ S.stack (.worker P.entry 0) = [.dequeue P.entry] ∧
        S.shared.queue P.entry = [] ∧ ∀ b ∈ delivered P.entry S.log, b.isEndOfProcessing = false) ∨
      P.Exited S := by
  have hterm := hret.notTerminated S h
  cases h.inRun (uniform_entry hroot) .entry hbuf with
  | notStarted hcreated hfs => exact Or.inl ⟨hcreated, hfs⟩
  | waiting hcreated hfs hl =>
      rcases hstuck.waits hterm hfs with ⟨c, sdb, hf, -⟩ | ⟨c, hf, hempty⟩
      · exact absurd hf (by simp)
      · obtain rfl := Frame.dequeue.inj hf
        exact Or.inr (Or.inl ⟨hcreated, hfs, hempty, hl⟩)
  | holding sdb _ hfs => exact absurd (hstuck.waits hterm hfs) (by simp)
  | pushing calls sdb l' _ hfs hcalls =>
      rcases calls with _ | ⟨f, calls⟩
      · exact absurd (hstuck.waits hterm hfs) (by simp)
      · -- the call returns, but nothing happens any more
        have hbusy : P.Delivering S := ⟨f, _, hfs, hcalls f (List.mem_cons_self ..)⟩
        obtain ⟨S', hsteps, hdone⟩ := hret.returns S h hbusy
        exact absurd hbusy (hstuck.eq hsteps ▸ hdone)
  | exited hcreated hfs => exact Or.inr (Or.inr ⟨hcreated, hfs⟩)

/-- **How runs end.** -/
theorem Reachable.atRest (h : P.Reachable priv bs S) (hm : P.maxBlocks P.entry = some maxBlocks)
    (hpos : 1 ≤ maxBlocks) (hroot : ¬ Relation.TransGen P.Adj P.entry P.entry)
    (hret : P.DownstreamReturns priv bs) (hstuck : P.Stuck S) : AtRest P bs maxBlocks S := by
  have hbuf : P.IsBuffer P.entry := by simp [IsBuffer, hm]
  have huni := uniform_entry hroot
  have hpushed := h.pushed_entry hbuf hroot
  have hfifo := h.fifo huni .entry hbuf
  have hlen : (S.shared.queue P.entry).length ≤ maxBlocks := by simpa [hm] using (h.queue P.entry).2
  have hexit : P.Exited S → delivered P.entry S.log = cutAfter SharedDataBlock.isEndOfProcessing bs ∧
      enqueued P.entry S.log = delivered P.entry S.log ++ S.shared.queue P.entry := fun hexited => by
    refine ⟨(h.exited_entry hbuf hroot hexited.1 hexited.2).2, ?_⟩
    rw [hfifo, held, hexited.2]
    simp
  have hafter := cutAfter_append_afterEop bs
  rcases h.pusher_stuck hbuf (hret.notTerminated S h) hstuck with hpusher | ⟨sdb, rest, hpusher, hfull⟩
  · have hall : enqueued P.entry S.log = bs := by simpa [pending, unpushed, hpusher] using hpushed
    rcases h.worker_stuck hbuf hroot hret hstuck with ⟨hcreated, hworker⟩ |
      ⟨hcreated, hworker, hqueue, hnone⟩ | hexited
    · refine .unused hpusher (by_contra fun hne => ?_) hworker
      have := h.created_of_enqueued huni .entry (by rwa [hall])
      omega
    · have hbs : delivered P.entry S.log = bs := by
        rw [← hall, hfifo, held, hworker, hqueue]
        simp [Frame.toDeliver]
      have hagrees := h.startProtocol P.entry [] huni .entry
      rw [threadBelow_nil, hpusher] at hagrees
      have hjoinable : S.shared.joinable P.entry = true :=
        hagrees.elim (fun h => absurd h.1 (by omega)) fun h => h.2.1
      exact .waiting hpusher (h.bs_ne_nil hbuf hroot (by omega)) (hbs ▸ hnone) hworker hjoinable
    · obtain ⟨hcut, henq⟩ := hexit hexited
      rw [hall, hcut] at henq
      exact .finished hpusher hexited (List.append_cancel_left (hafter.trans henq) ▸ hlen)
  · rw [hm, Option.getD_some] at hfull
    rcases h.worker_stuck hbuf hroot hret hstuck with ⟨hcreated, -⟩ | ⟨-, -, hqueue, -⟩ | hexited
    · have hphase := h.phase huni .entry hpusher rfl
      rw [Frame.phase, if_pos rfl] at hphase
      exact absurd hphase.1 (by omega)
    · exact absurd hfull (by simp [hqueue]; omega)
    · obtain ⟨hcut, henq⟩ := hexit hexited
      have hpend : ∃ bs', pending P.entry S ++ unpushed S = sdb :: bs' :=
        ⟨_, by rw [pending, hpusher]; simp [Frame.toEnqueue]; rfl⟩
      obtain ⟨bs', hbs'⟩ := hpend
      rw [List.append_assoc, hbs', henq, hcut, List.append_assoc] at hpushed
      have hrest := List.append_cancel_left (hafter.trans hpushed.symm)
      refine .blocked sdb rest hpusher hexited ?_ ?_
      · rw [hrest, List.length_append, List.length_cons]
        omega
      · rw [henq, hcut, hrest, List.take_left' (le_antisymm hlen hfull)]

/-- At rest all pushes have completed, unless more than `maxBlocks` blocks follow the
end-of-processing block. -/
theorem AtRest.pusher_eq_nil (h : AtRest P bs maxBlocks S)
    (hcond : (∀ b ∈ bs, b.isEndOfProcessing = false) ∨ (afterEop bs).length ≤ maxBlocks) :
    S.stack .pusher = [] := by
  cases h with
  | unused hpusher | waiting hpusher | finished hpusher => exact hpusher
  | blocked _ _ _ _ hlt =>
      have hle : (afterEop bs).length ≤ maxBlocks :=
        hcond.elim (fun hnone => by simp [afterEop_of_forall hnone]) id
      omega

/-- And if they do, a push waits for space that nobody makes. -/
theorem AtRest.blocked_of_lt (h : AtRest P bs maxBlocks S)
    (hlt : maxBlocks < (afterEop bs).length) :
    enqueued P.entry S.log =
        cutAfter SharedDataBlock.isEndOfProcessing bs ++ (afterEop bs).take maxBlocks ∧
      P.Exited S ∧ ∃ sdb rest, S.stack .pusher = .enqueue P.entry sdb :: rest := by
  cases h with
  | unused _ hbs => exact absurd hlt (by simp [hbs, afterEop])
  | waiting _ _ hnone => exact absurd hlt (by simp [afterEop_of_forall hnone])
  | finished _ _ hle => omega
  | blocked sdb rest hpusher hexited _ henq => exact ⟨henq, hexited, sdb, rest, hpusher⟩

/-- At rest the worker has exited if there was an end-of-processing block. -/
theorem AtRest.exited (h : AtRest P bs maxBlocks S)
    (heop : ∃ b ∈ bs, b.isEndOfProcessing = true) : P.Exited S := by
  obtain ⟨b, hb, heop⟩ := heop
  cases h with
  | unused _ hbs => exact absurd hb (by simp [hbs])
  | waiting _ _ hnone => exact absurd (heop.symm.trans (hnone b hb)) (by simp)
  | finished _ hexited | blocked _ _ _ hexited => exact hexited

/-- At rest `join` returns if the worker has exited, or there is none. -/
theorem AtRest.joinReturns_iff (h : AtRest P bs maxBlocks S) :
    P.JoinReturns S ↔ P.Exited S ∨ bs = [] := by
  constructor
  · intro hjoin
    cases h with
    | unused _ hbs => exact Or.inr hbs
    | waiting _ _ _ hworker hjoinable =>
        exact absurd (hworker.symm.trans (hjoin hjoinable)) (by simp)
    | finished _ hexited | blocked _ _ _ hexited => exact Or.inl hexited
  · rintro (hexited | hbs) _
    · exact hexited.2
    · cases h with
      | unused _ _ hworker => exact hworker
      | waiting _ hne => exact absurd hbs hne
      | finished _ hexited | blocked _ _ _ hexited => exact hexited.2

/-! ### The exact condition -/

/-- Pushes of the worker return if no other buffer is there. -/
theorem downstreamReturns_of_forall [Finite ι] (hac : DirectedGraph.Acyclic P.Adj)
    (honly : ∀ c, P.IsBuffer c → c = P.entry) (priv : ι → σ) (bs : List (SharedDataBlock T)) :
    P.DownstreamReturns priv bs := by
  have hroot := hac P.entry
  have hterm : ∀ S, P.Reachable priv bs S → S.shared.terminated = false := fun S h =>
    h.not_terminated fun c hc => honly c hc ▸ uniform_entry hroot
  refine ⟨fun S h _ => ?_, hterm⟩
  obtain ⟨S', hsteps, -, hdone⟩ := h.exists_goal (Q := fun S => ¬ P.Delivering S) hac
    fun S h hbusy => by
      obtain ⟨f, rest, hstack, hcall⟩ := not_not.mp hbusy
      by_contra hnone
      push Not at hnone
      rcases Stuck.waits hnone (hterm S h) hstack with ⟨c, sdb, rfl, -⟩ | ⟨c, rfl, -⟩
      · -- it is the pushing thread that enqueues
        obtain ⟨l, ⟨hbuf, -⟩, -⟩ := h.wellFormed.located _ (.enqueue c sdb) (by rw [hstack]; simp)
        obtain rfl := honly c hbuf
        have ht := (uniform_entry hroot).owned_producer .entry S h (.worker P.entry 0)
          (.enqueue P.entry sdb) (by rw [hstack]; simp) rfl
        exact absurd ht (by simp)
      · exact hcall
  exact ⟨S', Relation.ReflTransGen.mono (fun _ _ => .thread) _ _ hsteps, hdone⟩

/-- When the pushes into a buffer at the entry that holds `maxBlocks` blocks
complete, and when its worker exits. -/
structure ExactProgress (P : Pipeline ι V T σ) (priv : ι → σ) (bs : List (SharedDataBlock T))
    (maxBlocks : ℕ) : Prop where
  /-- Runs are bounded, and end in stuck states. -/
  bounded : ∃ N, ∀ k S, P.RunsTo priv bs k S → k ≤ N
  stops : ∀ S, P.Reachable priv bs S → ∃ S', Relation.ReflTransGen P.Progress S S' ∧ P.Stuck S'
  /-- Wherever a run is, all pushes can complete. -/
  completes : ((∀ b ∈ bs, b.isEndOfProcessing = false) ∨ (afterEop bs).length ≤ maxBlocks) →
    ∀ S, P.Reachable priv bs S → ∃ S', Relation.ReflTransGen P.Step S S' ∧ S'.stack .pusher = []
  /-- Every maximal run ends with a push that never completes. -/
  blocks : maxBlocks < (afterEop bs).length → ∀ S, P.Reachable priv bs S → P.Stuck S →
    enqueued P.entry S.log =
        cutAfter SharedDataBlock.isEndOfProcessing bs ++ (afterEop bs).take maxBlocks ∧
      P.Exited S ∧ (∃ sdb rest, S.stack .pusher = .enqueue P.entry sdb :: rest) ∧
      ∀ S', Relation.ReflTransGen P.Step S S' → S' = S
  /-- The worker can exit if and only if it is given an end-of-processing block, and
  then it can from wherever a run is. -/
  exits : (∃ S, P.Reachable priv bs S ∧ P.Exited S) ↔ ∃ b ∈ bs, b.isEndOfProcessing = true
  reachesExit : (∃ b ∈ bs, b.isEndOfProcessing = true) → ∀ S, P.Reachable priv bs S →
    ∃ S', Relation.ReflTransGen P.Step S S' ∧ P.Exited S'
  /-- At the end of every maximal run `join` returns if and only if the worker has
  exited, or there is none. -/
  joins : ∀ S, P.Reachable priv bs S → P.Stuck S →
    (P.JoinReturns S ↔ (∃ b ∈ bs, b.isEndOfProcessing = true) ∨ bs = [])

/-- An exited worker was given an end-of-processing block. -/
theorem Reachable.exists_eop (h : P.Reachable priv bs S) (hbuf : P.IsBuffer P.entry)
    (hroot : ¬ Relation.TransGen P.Adj P.entry P.entry) (hexited : P.Exited S) :
    ∃ b ∈ bs, b.isEndOfProcessing = true := by
  obtain ⟨⟨l, b, hl, -, heop⟩, hcut⟩ := h.exited_entry hbuf hroot hexited.1 hexited.2
  refine ⟨b, (cutAfter_isPrefix SharedDataBlock.isEndOfProcessing bs).subset ?_, heop⟩
  rw [← hcut, hl]
  simp

/-- **Exact progress condition of one buffer**, on a finite acyclic pipeline with a
downstream whose pushes return. -/
theorem exact_progress [Finite ι] (hac : DirectedGraph.Acyclic P.Adj)
    (hm : P.maxBlocks P.entry = some maxBlocks) (hpos : 1 ≤ maxBlocks)
    (hret : P.DownstreamReturns priv bs) : P.ExactProgress priv bs maxBlocks := by
  have hroot := hac P.entry
  have hbuf : P.IsBuffer P.entry := by simp [IsBuffer, hm]
  have hrest : ∀ S, P.Reachable priv bs S → P.Stuck S → AtRest P bs maxBlocks S := fun S h hstuck =>
    h.atRest hm hpos hroot hret hstuck
  have hstops : ∀ S, P.Reachable priv bs S →
      ∃ S', Relation.ReflTransGen P.Progress S S' ∧ P.Reachable priv bs S' ∧ P.Stuck S' := fun S h =>
    h.exists_goal hac fun S _ hnot => by simpa [Stuck] using hnot
  have hsteps : ∀ {S S'}, Relation.ReflTransGen P.Progress S S' → Relation.ReflTransGen P.Step S S' :=
    fun h => Relation.ReflTransGen.mono (fun _ _ => .thread) _ _ h
  have hexits : ∀ S, P.Reachable priv bs S → P.Stuck S →
      (P.Exited S ↔ ∃ b ∈ bs, b.isEndOfProcessing = true) := fun S h hstuck =>
    ⟨h.exists_eop hbuf hroot, (hrest S h hstuck).exited⟩
  refine ⟨exists_bound hac priv bs, fun S h => ?_, fun hcond S h => ?_, fun hlt S h hstuck => ?_,
    ⟨?_, fun heop => ?_⟩, fun heop S h => ?_, fun S h hstuck => ?_⟩
  · obtain ⟨S', hprogress, -, hstuck⟩ := hstops S h
    exact ⟨S', hprogress, hstuck⟩
  · obtain ⟨S', hprogress, h', hstuck⟩ := hstops S h
    exact ⟨S', hsteps hprogress, (hrest S' h' hstuck).pusher_eq_nil hcond⟩
  · obtain ⟨henq, hexited, hpusher⟩ := (hrest S h hstuck).blocked_of_lt hlt
    exact ⟨henq, hexited, hpusher, fun _ => hstuck.eq⟩
  · rintro ⟨S, h, hexited⟩
    exact h.exists_eop hbuf hroot hexited
  · obtain ⟨S, -, h, hstuck⟩ := hstops (init priv bs) .refl
    exact ⟨S, h, (hexits S h hstuck).mpr heop⟩
  · obtain ⟨S', hprogress, h', hstuck⟩ := hstops S h
    exact ⟨S', hsteps hprogress, (hexits S' h' hstuck).mpr heop⟩
  · rw [(hrest S h hstuck).joinReturns_iff, hexits S h hstuck]

/-- The pair of a buffer of capacity 1 and a processor: one block after the
end-of-processing block is taken, and the push of the next never completes. -/
theorem exact_progress_bufferedPair :
    bufferedPair.ExactProgress (fun _ => ())
        [⟨some 1, none⟩, ⟨none, some {}⟩, ⟨some 2, none⟩, ⟨some 3, none⟩] 1 ∧
      1 < (afterEop (T := ℕ)
        [⟨some 1, none⟩, ⟨none, some {}⟩, ⟨some 2, none⟩, ⟨some 3, none⟩]).length := by
  have hac : DirectedGraph.Acyclic bufferedPair.Adj := DirectedGraph.acyclic_of_rank Fin.val
    (show ∀ m n, n ∈ bufferedPair.processors m → m.val < n.val by decide)
  exact ⟨exact_progress hac rfl le_rfl (downstreamReturns_of_forall hac (by decide) _ _), by decide⟩

end Pipeline
end CppDataStream
