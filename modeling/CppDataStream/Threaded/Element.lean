/-
# What one element does with its streams

`include/cppdatastream/DataStream.hpp`, lines 255-283 and 341-368, on the threads
of a pipeline.  An element `n` that all paths reach through the same buffers `l` is
run by one thread, so its ledgers balance on the stack of that thread: what its
visitors have seen, what it has pushed on, what it has taken, enqueued and delivered
are prefixes of one another, short of the blocks on that stack.

`Reachable.latched` says that what such an element emits is the latched stage of its
`processData` on what it has taken past the `_had_error` test, at every moment.
`Reachable.inRun` is the invariant of the loop in `run`: until the worker leaves it,
no block but the last one delivered is an end-of-processing block.
-/

import CppDataStream.Threaded.History

namespace CppDataStream

open Streams

/-- What the application has still to push. -/
def Frame.toPush {ι T : Type*} : Frame ι T → List (SharedDataBlock T)
  | .main todo => todo
  | _ => []

namespace Pipeline

variable {ι V T σ : Type*} [DecidableEq ι] {P : Pipeline ι V T σ} {priv : ι → σ}
  {bs : List (SharedDataBlock T)} {S : State ι V T σ} {n c : ι} {l : List ι} {k : ℕ}

/-! ### The ledgers of an element -/

omit [DecidableEq ι] in
/-- Above all buffers runs the pushing thread. -/
@[simp] theorem threadBelow_nil : threadBelow ([] : List ι) = .pusher := rfl

omit [DecidableEq ι] in
/-- Below a buffer runs its worker. -/
theorem threadBelow_under (hc : P.IsBuffer c) : threadBelow (P.under c l) = .worker c 0 := by
  simp [threadBelow, under, hc]

/-- A visitor connection has carried what was emitted, but for what a thread has still to
show. -/
theorem Reachable.seen_add (h : P.Reachable priv bs S) (hn : P.Uniform n) (hl : P.Upstream n l)
    (hk : k < (P.visitors n).length) :
    seen n k S.log ++ (S.stack (threadBelow (P.under n l))).flatMap (Frame.toVisit n k) =
      outputs n S.log :=
  (ledger_seen hk).balance_of_top (hn.owned_base hl) (fun g hg => by cases g <;> trivial) h

/-- An element has taken what it was given, but for what its thread has still to test. -/
theorem Reachable.taken_add (h : P.Reachable priv bs S) (hn : P.Uniform n) (hl : P.Upstream n l)
    (hbuf : ¬ P.IsBuffer n) :
    taken n S.log ++ (S.stack (threadBelow l)).flatMap (Frame.toTake n) = inputs n S.log := by
  have hown : P.Owned priv bs _ _ := hn.owned_base hl
  rw [under, if_neg hbuf] at hown
  exact (ledger_taken hbuf).balance_of_top hown (fun g hg => by cases g <;> trivial) h

/-- A buffer has taken what its worker has delivered, but for what that has still to test. -/
theorem Reachable.delivered_taken_add (h : P.Reachable priv bs S) (hc : P.Uniform c)
    (hl : P.Upstream c l) (hbuf : P.IsBuffer c) :
    taken c S.log ++ (S.stack (.worker c 0)).flatMap (Frame.toTake c) = delivered c S.log := by
  have hown : P.Owned priv bs _ _ := hc.owned_base hl
  rw [threadBelow_under hbuf] at hown
  exact (ledger_taken_buffer hbuf).balance_of_top hown (fun g hg => by cases g <;> trivial) h

/-- A queue has got what its buffer was given, but for what the producer has at hand. -/
theorem Reachable.enqueued_add (h : P.Reachable priv bs S) (hc : P.Uniform c) (hl : P.Upstream c l)
    (hbuf : P.IsBuffer c) :
    enqueued c S.log ++ (S.stack (threadBelow l)).flatMap (Frame.toEnqueue c) = inputs c S.log :=
  (ledger_enqueued hbuf).balance_of_top (hc.owned_producer hl) (fun g hg => by cases g <;> trivial) h

/-- The worker has delivered what it has dequeued, but for what it has at hand. -/
theorem Reachable.delivered_add (h : P.Reachable priv bs S) (hc : P.Uniform c) (hl : P.Upstream c l)
    (hbuf : P.IsBuffer c) :
    delivered c S.log ++ (S.stack (.worker c 0)).flatMap (Frame.toDeliver c) = dequeued c S.log := by
  have hown : P.Owned priv bs _ _ := hc.owned_base hl
  rw [threadBelow_under hbuf] at hown
  exact (ledger_delivered P c).balance_of_top hown (fun g hg => by cases g <;> trivial) h

/-- An element that is not downstream of itself has pushed on what it has emitted,
but for what its thread still has to push. -/
theorem Reachable.sent_add (h : P.Reachable priv bs S) (hn : P.Uniform n) (hl : P.Upstream n l)
    (hac : ¬ Relation.TransGen P.Adj n n) (hk : P.Conn n k c) :
    inputsFrom c (.connection n k) S.log ++
      (S.stack (threadBelow (P.under n l))).flatMap (Frame.toForward n k) = outputs n S.log := by
  refine (ledger_sent hk).balance (hn.owned_base hl) (fun S hS f rest e hstack hexec hout => ?_) h
  refine List.flatMap_eq_nil_iff.mpr fun g hg => ?_
  have hres : g.Resumes := hS.wellFormed.resumes _ g (by rw [hstack]; exact hg)
  -- below a call of `processData` of `n` no loop over `processors` of `n` waits
  have hf : f.element = some n := by
    cases hexec with
    | process m sdb =>
        by_contra hm
        have hm : m ≠ n := fun h => hm (congrArg some h)
        exact hout (by simp [outputs, hm])
    | _ => exact absurd rfl hout
  have hbelow := hS.nested (threadBelow (P.under n l))
  rw [hstack, List.pairwise_cons] at hbelow
  cases g with
  | forward m j output =>
      have hm : m ≠ n := fun hm => hac (hm ▸ hbelow.1 _ hg m j output rfl n hf)
      simp [Frame.toForward, hm]
  | main | eopTest => rfl
  | _ => exact absurd hres id

/-! ### Latched stages -/

/-- At this moment `n` is a latched stage: of what it has taken, starting from
`priv₀`, and the next call of `processData` finds the latch down. -/
structure Latched (P : Pipeline ι V T σ) (n : ι) (priv₀ : σ) (S : State ι V T σ) : Prop where
  outputs : outputs n S.log =
    latchOut (P.processData n) SharedDataBlock.isEopError (priv₀, false) (taken n S.log)
  state : (S.shared.priv n, S.shared.hadError n) =
    latchEnd (P.processData n) SharedDataBlock.isEopError (priv₀, false) (taken n S.log)
  process : ∀ t sdb, .process n sdb ∈ S.stack t → S.shared.hadError n = false

/-- `processData` and the error test are one step of the latched stage. -/
theorem latch_process {sh : Shared ι T σ} {sdb : SharedDataBlock T} (h : sh.hadError n = false) :
    latch (P.processData n) SharedDataBlock.isEopError (sh.priv n, sh.hadError n) sdb =
      (((P.process n sdb sh).1.priv n, (P.process n sdb sh).1.hadError n),
        [(P.process n sdb sh).2]) := by
  cases ho : (P.processData n (sh.priv n) sdb).2.isEopError <;> simp [latch, Pipeline.process, h, ho]

/-- What a frame does about `n` is what the latched stage does with what it takes. -/
theorem Exec.latch {sh : Shared ι T σ} {f : Frame ι T} {e : Effect ι V T σ} (h : Exec P sh f e)
    (hdown : ∀ sdb, f = .process n sdb → sh.hadError n = false) :
    CppDataStream.outputs n e.events =
        latchOut (P.processData n) SharedDataBlock.isEopError (sh.priv n, sh.hadError n)
          (taken n e.events) ∧
      (e.shared.priv n, e.shared.hadError n) =
        latchEnd (P.processData n) SharedDataBlock.isEopError (sh.priv n, sh.hadError n)
          (taken n e.events) := by
  cases h with
  | process m sdb =>
      by_cases hm : m = n
      · subst hm
        simp [taken, CppDataStream.outputs, latchOut, latchEnd, latch_process (hdown sdb rfl)]
      · have hne : n ≠ m := Ne.symm hm
        refine ⟨by simp [taken, CppDataStream.outputs, hm], ?_⟩
        simp only [Pipeline.process]
        split_ifs <;> simp [taken, hm, hne]
  | skip m sdb he =>
      by_cases hm : m = n
      · subst hm
        simp [taken, CppDataStream.outputs, he]
      · simp [taken, CppDataStream.outputs, hm]
  | _ => exact ⟨rfl, rfl⟩

/-- The frame of `processData` comes from that of the test. -/
theorem Exec.process_mem {sh : Shared ι T σ} {f : Frame ι T} {e : Effect ι V T σ} (h : Exec P sh f e)
    {sdb : SharedDataBlock T} (hmem : .process n sdb ∈ e.frames) :
    e.shared.hadError n = false := by
  cases h with
  | pass m sdb' he =>
      obtain ⟨rfl, -⟩ := Frame.process.inj (List.mem_singleton.mp hmem)
      exact he
  | push | forward =>
      rcases List.mem_cons.mp hmem with hmem | hmem
      · unfold pushFrame at hmem
        split_ifs at hmem
      · exact absurd hmem (by simp)
  | _ => exact absurd hmem (by simp)

/-- A frame on a stack after a step was there before or replaces the topmost one, or
it is the first of a constructed thread. -/
theorem mem_stack_cases {t t' : Thread ι} {f g : Frame ι T} {rest : List (Frame ι T)}
    {e : Effect ι V T σ} (hstack : S.stack t = f :: rest)
    (hg : g ∈ spawn (Function.update S.stack t (e.frames ++ rest)) e.spawned t') :
    (∃ c, g = .dequeue c) ∨ (t' = t ∧ (g ∈ e.frames ∨ g ∈ rest)) ∨ (t' ≠ t ∧ g ∈ S.stack t') := by
  rcases stack_cases S.stack t (e.frames ++ rest) e.spawned t' with
    ⟨c, i, -, -, hs⟩ | ⟨rfl, hs⟩ | ⟨hne, hs⟩ <;> rw [hs] at hg
  · exact Or.inl ⟨c, List.mem_singleton.mp hg⟩
  · exact Or.inr (Or.inl ⟨rfl, List.mem_append.mp hg⟩)
  · exact Or.inr (Or.inr ⟨hne, hg⟩)

/-- **An element that one thread runs is a latched stage**, at every moment. -/
theorem Reachable.latched (h : P.Reachable priv bs S) (hn : P.Uniform n) (hl : P.Upstream n l) :
    Latched P n (priv n) S := by
  refine h.induct (I := Latched P n (priv n)) ⟨rfl, rfl, fun t sdb hmem => ?_⟩
    fun S t f rest e hS ih hstack hexec hS' => ?_
  · by_cases ht : t = .pusher <;> simp [init, ht] at hmem
  · have hown : P.Owned priv bs _ _ := hn.owned_base hl
    obtain ⟨hout, hstate⟩ := hexec.latch fun sdb hf => ih.process t sdb (by simp [hstack, hf])
    rw [ih.state] at hout hstate
    refine ⟨?_, ?_, fun t' sdb hmem => ?_⟩
    · rw [outputs_append, taken_append, latchOut_append, ih.outputs, hout]
    · rw [taken_append, latchEnd_append, hstate]
    · rcases mem_stack_cases hstack hmem with ⟨c, hg⟩ | ⟨rfl, hg | hg⟩ | ⟨hne, hg⟩
      · exact absurd hg (by simp)
      · exact hexec.process_mem hg
      · have hres : Frame.Resumes (.process n sdb) :=
          hS.wellFormed.resumes t' _ (by rw [hstack]; exact hg)
        exact absurd hres id
      · -- another thread does not touch the flag
        by_contra herr
        have hside : f.side = .base n := (hexec.writes n).2.1 fun heq =>
          herr (heq.trans (ih.process t' sdb hg))
        exact hne ((hown S hS t' _ hg rfl).trans (hown S hS t f (by simp [hstack]) hside).symm)

/-! ### Who calls `pushData` -/

omit [DecidableEq ι] in
/-- A call holds nothing that the application has still to push. -/
theorem toPush_pushFrame (m : ι) (sdb : SharedDataBlock T) : (P.pushFrame m sdb).toPush = [] := by
  rcases pushFrame_cases P m sdb with ⟨-, h⟩ | ⟨-, h⟩ <;> rw [h] <;> rfl

/-- The application pushes its blocks in order. -/
theorem Reachable.pushed (h : P.Reachable priv bs S) :
    inputsFrom P.entry .external S.log ++ (S.stack .pusher).flatMap Frame.toPush = bs := by
  refine h.induct (I := fun S => inputsFrom P.entry .external S.log ++
    (S.stack .pusher).flatMap Frame.toPush = bs) (by simp [init, inputsFrom, Frame.toPush])
    fun S t f rest e hS ih hstack hexec _ => ?_
  have hbalance : inputsFrom P.entry .external e.events ++ e.frames.flatMap Frame.toPush = f.toPush := by
    cases hexec with
    | push | forward => simp only [List.flatMap_cons, toPush_pushFrame]; simp [inputsFrom, Frame.toPush]
    | _ => rfl
  rcases stack_cases S.stack t (e.frames ++ rest) e.spawned
    .pusher with ⟨c, i, -, heq, -⟩ | ⟨rfl, hs⟩ | ⟨hne, hs⟩
  · exact absurd heq (by simp)
  · simp only [hs, inputsFrom_append]
    rw [hstack, List.flatMap_cons, ← hbalance] at ih
    simpa [List.flatMap_append, List.append_assoc] using ih
  · have hnone : inputsFrom P.entry .external e.events = [] := by
      cases hexec with
      | push sdb todo =>
          have hbot := hS.bottom t
          rw [hstack] at hbot
          cases (hbot.eq_nil id).1
          exact absurd rfl hne
      | forward => simp [inputsFrom]
      | _ => rfl
    simp only [hs, inputsFrom_append, hnone, List.append_nil]
    exact ih

/-- A call comes from the application or goes through a connection of an element
downstream of the entry. -/
theorem Reachable.calls (h : P.Reachable priv bs S) {src : Source ι} {n : ι} {sdb : SharedDataBlock T}
    (hcall : .call src n sdb ∈ S.log) :
    (src = .external ∧ n = P.entry) ∨
      ∃ m k, src = .connection m k ∧ P.Conn m k n ∧ ∃ l, P.Upstream m l := by
  refine h.induct (I := fun S => .call src n sdb ∈ S.log → (src = .external ∧ n = P.entry) ∨
      ∃ m k, src = .connection m k ∧ P.Conn m k n ∧ ∃ l, P.Upstream m l)
    (fun hcall => absurd hcall List.not_mem_nil)
    (fun S t f rest e hS ih hstack hexec _ hcall => ?_) hcall
  rcases List.mem_append.mp hcall with hcall | hcall
  · exact ih hcall
  · cases hexec with
    | push sdb' todo =>
        obtain ⟨rfl, rfl, -⟩ := Event.call.inj (List.mem_singleton.mp hcall)
        exact Or.inl ⟨rfl, rfl⟩
    | forward m k output c hconn =>
        obtain ⟨rfl, rfl, -⟩ := Event.call.inj (List.mem_singleton.mp hcall)
        obtain ⟨-, ⟨l, hl, -⟩, -⟩ := hS.wellFormed.located t (.forward m k output) (by simp [hstack])
        exact Or.inr ⟨m, k, rfl, hconn, l, hl⟩
    | _ => simp at hcall

/-- An element that nothing downstream of the entry is connected to but through one
connection is called through that one. -/
theorem Reachable.inputs_eq (h : P.Reachable priv bs S) {src : Source ι} {n : ι}
    (hext : n = P.entry → src = .external)
    (hconn : ∀ m k l, P.Conn m k n → P.Upstream m l → src = .connection m k) :
    inputs n S.log = inputsFrom n src S.log := by
  refine inputs_eq_inputsFrom fun src' b hb => ?_
  rcases h.calls hb with ⟨rfl, hn⟩ | ⟨m, k, rfl, hmk, l, hl⟩
  · exact (hext hn).symm
  · exact (hconn m k l hmk hl).symm

/-! ### How a worker is started -/

/-- The enqueuing side of a buffer is in step with the members it has set. -/
theorem Reachable.phase (h : P.Reachable priv bs S) (hc : P.Uniform c) (hl : P.Upstream c l)
    {t : Thread ι} {f : Frame ι T} {rest : List (Frame ι T)} (hstack : S.stack t = f :: rest)
    (hside : f.side = .producer c) :
    (f.phase c).Agrees (S.shared.created c) (S.shared.joinable c) (S.shared.threadStarted c) := by
  have hagrees := h.startProtocol c l hc hl
  obtain rfl := hc.owned_producer hl S h t f (by simp [hstack]) hside
  rwa [hstack] at hagrees

/-- Nothing is enqueued before the worker has been constructed. -/
theorem Reachable.created_of_enqueued (h : P.Reachable priv bs S) (hc : P.Uniform c)
    (hl : P.Upstream c l) (henq : enqueued c S.log ≠ []) : S.shared.created c = 1 := by
  refine h.induct (I := fun S => enqueued c S.log ≠ [] → S.shared.created c = 1)
    (fun henq => absurd rfl henq) (fun S t f rest e hS ih hstack hexec hS' henq => ?_) henq
  have hle := (hS'.confined hc hl).oneWorker
  have hmono := hexec.created_le c
  have hold : S.shared.created c = 1 := by
    by_cases hev : enqueued c e.events = []
    · exact ih fun hnil => henq (by rw [enqueued_append, hev, hnil]; rfl)
    · cases hexec with
      | enqueue c' sdb hlt =>
          by_cases hcc : c' = c
          · subst hcc
            have hphase := hS.phase hc hl hstack rfl
            rw [Frame.phase, if_pos rfl] at hphase
            exact hphase.1
          · exact absurd (by simp [enqueued, hcc]) hev
      | _ => exact absurd rfl hev
  simp only at hle ⊢
  omega

/-- `std::terminate` is not called if every buffer is started by one thread. -/
theorem Reachable.not_terminated (h : P.Reachable priv bs S) (hall : ∀ c, P.IsBuffer c → P.Uniform c) :
    S.shared.terminated = false := by
  refine h.induct (I := fun S => S.shared.terminated = false) rfl
    fun S t f rest e hS ih hstack hexec _ => ?_
  cases hexec with
  | terminate c sdb hj =>
      obtain ⟨l, ⟨hbuf, hl⟩, -⟩ := hS.wellFormed.located t (.assign c sdb) (by simp [hstack])
      have hphase := hS.phase (hall c hbuf) hl hstack rfl
      rw [Frame.phase, if_pos rfl] at hphase
      exact absurd (hj.symm.trans hphase.2.1) (by simp)
  | _ => exact ih

/-! ### The loop in `run` -/

/-- Where the worker of `c` is, with the stack `fs`, once `l` has been delivered. -/
inductive InRun (c : ι) (created : ℕ) (l : List (SharedDataBlock T)) (fs : List (Frame ι T)) : Prop
  | notStarted (hcreated : created = 0) (hfs : fs = []) (hl : l = [])
  | waiting (hcreated : created = 1) (hfs : fs = [.dequeue c])
      (hl : ∀ b ∈ l, b.isEndOfProcessing = false)
  | holding (sdb : SharedDataBlock T) (hcreated : created = 1) (hfs : fs = [.deliver c sdb])
      (hl : ∀ b ∈ l, b.isEndOfProcessing = false)
  | pushing (calls : List (Frame ι T)) (sdb : SharedDataBlock T) (l' : List (SharedDataBlock T))
      (hcreated : created = 1) (hfs : fs = calls ++ [.eopTest c sdb]) (hcalls : ∀ f ∈ calls, f.Call)
      (hl : l = l' ++ [sdb]) (hl' : ∀ b ∈ l', b.isEndOfProcessing = false)
  | exited (hcreated : created = 1) (hfs : fs = []) (hl : Ended SharedDataBlock.isEndOfProcessing l)

/-- What is not done by `run` of `c` delivers nothing. -/
theorem Exec.not_delivered {sh : Shared ι T σ} {f : Frame ι T} {e : Effect ι V T σ} (h : Exec P sh f e)
    (hf : ∀ sdb, f ≠ .deliver c sdb) : delivered c e.events = [] := by
  cases h with
  | deliver c' sdb =>
      have hc : c' ≠ c := fun hc => hf sdb (hc ▸ rfl)
      simp [delivered, hc]
  | _ => rfl

/-- Constructing a thread is counted. -/
theorem Exec.created_eq {sh : Shared ι T σ} {f : Frame ι T} {e : Effect ι V T σ} (h : Exec P sh f e)
    (c : ι) : e.shared.created c = sh.created c ∨ e.spawned = some (c, sh.created c) := by
  cases h with
  | start c' sdb =>
      by_cases hc : c' = c
      · subst hc
        exact Or.inr rfl
      · exact Or.inl (Function.update_of_ne (Ne.symm hc) _ _)
  | _ => exact Or.inl rfl

/-- A frame of `run`, or of a call that it has made, keeps to the loop. -/
theorem Exec.inRun {sh : Shared ι T σ} {f : Frame ι T} {rest : List (Frame ι T)} {e : Effect ι V T σ}
    (h : Exec P sh f e) {log : List (Event ι V T)} (hrun : InRun c 1 (delivered c log) (f :: rest)) :
    InRun c 1 (delivered c (log ++ e.events)) (e.frames ++ rest) := by
  rw [delivered_append]
  cases hrun with
  | notStarted _ hfs | exited _ hfs => exact absurd hfs (by simp)
  | waiting _ hfs hl =>
      obtain ⟨rfl, rfl⟩ := List.cons.inj hfs
      cases h with
      | dequeue _ sdb => exact .holding sdb rfl rfl (by simpa [delivered] using hl)
  | holding sdb _ hfs hl =>
      obtain ⟨rfl, rfl⟩ := List.cons.inj hfs
      cases h with
      | deliver =>
          exact .pushing [.hadError c sdb] sdb _ rfl rfl (List.forall_mem_singleton.mpr trivial)
            (by simp [delivered]) hl
  | pushing calls sdb l' _ hfs hcalls hl hl' =>
      rcases calls with _ | ⟨g, calls⟩
      · obtain ⟨rfl, rfl⟩ := List.cons.inj hfs
        cases h with
        | exit _ _ heop => exact .exited rfl rfl ⟨l', sdb, by simpa [delivered] using hl, hl', heop⟩
        | again _ _ heop =>
            refine .waiting rfl rfl ?_
            rw [show delivered c [] = [] from rfl, List.append_nil, hl]
            exact List.forall_mem_append.mpr ⟨hl', List.forall_mem_singleton.mpr heop⟩
      · obtain ⟨rfl, rfl⟩ := List.cons.inj hfs
        rw [List.forall_mem_cons] at hcalls
        rw [h.not_delivered fun sdb hf => absurd hcalls.1 (by simp [hf, Frame.Call]), List.append_nil]
        exact .pushing (e.frames ++ calls) sdb l' rfl (List.append_assoc ..).symm
          (List.forall_mem_append.mpr ⟨h.call hcalls.1, hcalls.2⟩) hl hl'

/-- **`run` never goes past an end-of-processing block.** -/
theorem Reachable.inRun (h : P.Reachable priv bs S) (hc : P.Uniform c) (hl : P.Upstream c l)
    (hbuf : P.IsBuffer c) :
    InRun c (S.shared.created c) (delivered c S.log) (S.stack (.worker c 0)) := by
  refine h.induct (I := fun S => InRun c (S.shared.created c) (delivered c S.log)
    (S.stack (.worker c 0))) (.notStarted rfl rfl rfl) fun S t f rest e hS ih hstack hexec hS' => ?_
  have hown : P.Owned priv bs _ _ := hc.owned_base hl
  rw [threadBelow_under hbuf] at hown
  have hle := (hS'.confined hc hl).oneWorker
  have hmono := hexec.created_le c
  have hlive := hS.wellFormed.live c 0
  have hstart : ∀ i, e.spawned = some (c, i) → S.shared.created c = 0 := fun i ho => by
    obtain ⟨⟨sdb, rfl⟩, -, -⟩ := hexec.spawned ho
    have hphase := hS.phase hc hl hstack rfl
    rw [Frame.phase, if_pos rfl] at hphase
    exact hphase.1
  rcases stack_cases S.stack t (e.frames ++ rest) e.spawned
    (.worker c 0) with ⟨c', i, ho, heq, hs⟩ | ⟨rfl, hs⟩ | ⟨hne, hs⟩ <;> simp only [hs]
  · -- the worker starts, and nothing has been delivered
    obtain ⟨rfl, rfl⟩ := Thread.worker.inj heq
    have hzero := hstart _ ho
    obtain ⟨⟨sdb, rfl⟩, -, hone⟩ := hexec.spawned ho
    rw [hzero] at ih
    have hnone : delivered c S.log = [] := by
      cases ih with
      | notStarted _ _ hl => exact hl
      | _ => omega
    rw [delivered_append, hnone, hexec.not_delivered (by simp)]
    exact .waiting hone rfl (by simp)
  · have hone : S.shared.created c = 1 ∧ e.shared.created c = 1 := by
      have := hlive (by simp [hstack])
      simp only at hle
      omega
    rw [hstack, hone.1] at ih
    rw [hone.2]
    exact hexec.inRun ih
  · -- another thread
    rw [delivered_append, hexec.not_delivered fun sdb hf =>
      hne (hown S hS t f (by simp [hstack]) (by rw [hf]; rfl)).symm, List.append_nil]
    rcases hexec.created_eq c with hcr | ho
    · rw [hcr]
      exact ih
    · have hzero := hstart _ ho
      rw [ho, hzero] at hs
      have hs : [Frame.dequeue c] = S.stack (.worker c 0) := by simpa [spawn] using hs
      exact absurd (hlive (by simp [← hs])) (by omega)

end Pipeline
end CppDataStream
