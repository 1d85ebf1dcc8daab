/-
# Chains of elements behind a buffer

The programs under `src/examples` build one kind of pipeline: a `StreamThreadedBuffer`,
then elements connected one behind the other by `ds->connect(x); ds = x;`, and a
`StreamSink` connected to the last (`chain`).  Such a pipeline is a tree
(`isTree_chain`).

Their elements pass on what they are given, and keep count of it (`PassesOn`).  On a
tree of such elements every stream is the one that was pushed (`StreamAt.eq`).  And when
a visitor has been shown the end-of-processing block, every element on the way to it has
processed all that was pushed, so its private state is the fold over the whole stream
(`IsTree.priv_of_seen`).
-/

import CppDataStream.Threaded.Application

namespace CppDataStream

open Streams

namespace Streams

variable {α σ : Type*} {f : σ → α → σ × α} {p e : α → Bool}

/-- A stage that passes everything on changes no stream. -/
theorem statefulMap_of_passesOn (hf : ∀ s a, (f s a).2 = a) (s : σ) (l : List α) :
    statefulMap f s l = l := by
  induction l generalizing s with
  | nil => rfl
  | cons a l ih => rw [statefulMap, hf, ih]

/-- A latched stage that passes on its inputs emits a prefix of them. -/
theorem latchOut_isPrefix_of_passesOn (hf : ∀ s a, (f s a).2 = a) (s : σ) (l : List α) :
    latchOut f p (s, false) l <+: l := by
  rw [latchOut_eq_cutAfter, statefulMap_of_passesOn hf]
  exact cutAfter_isPrefix p l

/-- It emits them all if only the last of a stream, of which they are the beginning, can
raise the latch. -/
theorem latchOut_of_passesOn (hf : ∀ s a, (f s a).2 = a) (hp : ∀ a, p a = true → e a = true) (s : σ)
    {l l' : List α} (hl : l <+: l') (hend : Ended e l') : latchOut f p (s, false) l = l := by
  refine (latchOut_isPrefix_of_passesOn hf s l).eq_of_length_le ?_
  rw [latchOut_eq_cutAfter, statefulMap_of_passesOn hf]
  refine (isPrefix_cutAfter List.prefix_rfl fun a ha => Bool.eq_false_iff.mpr fun hpa => ?_).length_le
  have hall := congrArg List.length (hend.eq_of_isPrefix (l.dropLast_prefix.trans hl) ha (hp a hpa))
  have hlen := hl.length_le
  have hpos := List.length_pos_of_mem ha
  rw [List.length_dropLast] at hall hpos
  omega

/-- Its state is the fold over them. -/
theorem latchEnd_of_passesOn (hf : ∀ s a, (f s a).2 = a) (hp : ∀ a, p a = true → e a = true) (s : σ)
    {l : List α} (hl : Ended e l) :
    (latchEnd f p (s, false) l).1 = l.foldl (fun s a => (f s a).1) s := by
  obtain ⟨init, last, rfl, hinit, -⟩ := hl
  induction init generalizing s with
  | nil => rfl
  | cons a init ih =>
      rw [List.forall_mem_cons] at hinit
      have ha : p a = false := Bool.eq_false_iff.mpr fun hpa => absurd (hp a hpa) (by simp [hinit.1])
      rw [List.cons_append, List.foldl_cons, ← ih _ hinit.2]
      simp [latchEnd, latch, hf, ha]

end Streams

namespace Pipeline

variable {ι V T σ : Type*} {P : Pipeline ι V T σ}

/-- Every element returns the block that it is given. -/
def PassesOn (P : Pipeline ι V T σ) : Prop := ∀ n st sdb, (P.processData n st sdb).2 = sdb

/-- What is passed on is as it was, so the protocol is kept. -/
theorem PassesOn.keepsProtocol (h : P.PassesOn) (n : ι) : KeepsProtocol (P.processData n) where
  data st sdb hsdb := Or.inl ((h n st sdb).symm ▸ hsdb)
  eop st sdb hsdb := (h n st sdb).symm ▸ hsdb

variable {priv : ι → σ} {bs : List (SharedDataBlock T)}

/-- Every element computes the stream that was pushed. -/
theorem StreamAt.eq (hpass : P.PassesOn) (hbs : Ended SharedDataBlock.isEndOfProcessing bs) {n : ι}
    {l : List (SharedDataBlock T)} (h : P.StreamAt priv bs n l) : l = bs := by
  induction h with
  | entry => rfl
  | conn _ _ ih =>
      rw [ih]
      exact latchOut_of_passesOn (hpass _) (fun _ => SharedDataBlock.isEndOfProcessing_of_isEopError) _
        List.prefix_rfl hbs

/-- Whether the stream is complete or not, none computes more. -/
theorem StreamAt.isPrefix (hpass : P.PassesOn) {n : ι} {l : List (SharedDataBlock T)}
    (h : P.StreamAt priv bs n l) : l <+: bs := by
  induction h with
  | entry => exact List.prefix_rfl
  | conn _ _ ih => exact (latchOut_isPrefix_of_passesOn (hpass _) _ _).trans ih

variable [DecidableEq ι] {S : State ι V T σ}

/-- Visitors are shown a prefix of what was pushed. -/
theorem IsTree.seen_isPrefix (hT : P.IsTree) (hpass : P.PassesOn) (h : P.Reachable priv bs S) {n : ι}
    {k : ℕ} (hk : k < (P.visitors n).length) : seen n k S.log <+: bs := by
  obtain ⟨r, hr⟩ := hT.exists_upstream n
  obtain ⟨l, hl⟩ := hT.exists_streamAt priv bs n
  calc seen n k S.log
    _ <+: outputs n S.log := ⟨_, h.seen_add (hT.uniform n) hr hk⟩
    _ <+: latchOut (P.processData n) SharedDataBlock.isEopError (priv n, false) l :=
        hT.outputs_isPrefix h (hT.inputs_isPrefix h hl)
    _ <+: l := latchOut_isPrefix_of_passesOn (hpass n) _ _
    _ <+: bs := hl.isPrefix hpass

/-- An element that has emitted an end-of-processing block has processed all that was
pushed. -/
theorem IsTree.taken_of_outputs (hT : P.IsTree) (hpass : P.PassesOn)
    (hbs : Ended SharedDataBlock.isEndOfProcessing bs) (h : P.Reachable priv bs S) {n : ι}
    {sdb : SharedDataBlock T} (hsdb : sdb ∈ outputs n S.log) (heop : sdb.isEndOfProcessing = true) :
    taken n S.log = bs := by
  obtain ⟨r, hr⟩ := hT.exists_upstream n
  obtain ⟨l, hl⟩ := hT.exists_streamAt priv bs n
  rw [(h.latched (hT.uniform n) hr).outputs] at hsdb
  refine hbs.eq_of_isPrefix ((hT.taken_isPrefix h n).trans ?_)
    ((latchOut_isPrefix_of_passesOn (hpass n) _ _).subset hsdb) heop
  have hin := hT.inputs_isPrefix h hl
  rwa [hl.eq hpass hbs] at hin

/-- What an element was given the one before it has emitted. -/
theorem IsTree.outputs_of_inputs (hT : P.IsTree) (h : P.Reachable priv bs S) {m n : ι} {k : ℕ}
    (hmn : P.Conn m k n) {sdb : SharedDataBlock T} (hsdb : sdb ∈ inputs n S.log) :
    sdb ∈ outputs m S.log := by
  obtain ⟨r, hr⟩ := hT.exists_upstream m
  rw [hT.inputs_child h hmn] at hsdb
  rw [← h.sent_add (hT.uniform m) hr (hT.acyclic m) hmn]
  exact List.mem_append_left _ hsdb

/-- **When an end-of-processing block has come through an element, every element on the
way to it has processed all that was pushed.** -/
theorem IsTree.taken_of_reaches (hT : P.IsTree) (hpass : P.PassesOn)
    (hbs : Ended SharedDataBlock.isEndOfProcessing bs) (h : P.Reachable priv bs S) {m n : ι}
    (hmn : Relation.ReflTransGen P.Adj m n) {sdb : SharedDataBlock T} (hsdb : sdb ∈ outputs n S.log)
    (heop : sdb.isEndOfProcessing = true) : taken m S.log = bs := by
  suffices hout : sdb ∈ outputs m S.log from hT.taken_of_outputs hpass hbs h hout heop
  induction hmn using Relation.ReflTransGen.head_induction_on with
  | refl => exact hsdb
  | @head m m' hadj _ ih =>
      obtain ⟨k, hk⟩ := List.mem_iff_getElem?.mp hadj
      have hall := hT.taken_of_outputs hpass hbs h ih heop
      have hmem : sdb ∈ taken m' S.log := by
        obtain ⟨r, hr⟩ := hT.exists_upstream m'
        rw [(h.latched (hT.uniform m') hr).outputs] at ih
        exact (latchOut_isPrefix_of_passesOn (hpass m') _ _).subset ih
      exact hT.outputs_of_inputs h hk ((hT.taken_isPrefix h m').subset hmem)

/-- **So its private state is the fold over the whole stream**, if a visitor has been
shown the end-of-processing block. -/
theorem IsTree.priv_of_seen (hT : P.IsTree) (hpass : P.PassesOn)
    (hbs : Ended SharedDataBlock.isEndOfProcessing bs) (h : P.Reachable priv bs S) {m n : ι} {k : ℕ}
    (hk : k < (P.visitors n).length) (hmn : Relation.ReflTransGen P.Adj m n)
    {sdb : SharedDataBlock T} (hsdb : sdb ∈ seen n k S.log) (heop : sdb.isEndOfProcessing = true) :
    S.shared.priv m = bs.foldl (fun st sdb => (P.processData m st sdb).1) (priv m) := by
  obtain ⟨r, hr⟩ := hT.exists_upstream n
  obtain ⟨r', hr'⟩ := hT.exists_upstream m
  have hout : sdb ∈ outputs n S.log := by
    rw [← h.seen_add (hT.uniform n) hr hk]
    exact List.mem_append_left _ hsdb
  have hstate := congrArg Prod.fst (h.latched (hT.uniform m) hr').state
  rw [hT.taken_of_reaches hpass hbs h hmn hout heop] at hstate
  exact hstate.trans (latchEnd_of_passesOn (hpass m)
    (fun _ => SharedDataBlock.isEndOfProcessing_of_isEopError) _ hbs)

/-! ### Chains -/

/-- A `StreamThreadedBuffer`, the elements of `stages` behind it, one connected to the
other, and a sink connected to the last. -/
def chain (maxBlocks : ℕ) (stages : List (σ → SharedDataBlock T → σ × SharedDataBlock T)) :
    Pipeline (Fin (stages.length + 1)) Unit T σ where
  processData n := Fin.cases (fun st sdb => (st, sdb)) stages.get n
  visitors n := if n = Fin.last stages.length then [()] else []
  processors n := if h : n.val < stages.length then [⟨n.val + 1, Nat.succ_lt_succ h⟩] else []
  maxBlocks n := if n = 0 then some maxBlocks else none
  entry := 0
  processData_buffer n hn st sdb := by
    by_cases h : n = 0
    · subst h
      rfl
    · exact absurd (if_neg h) hn

variable {maxBlocks : ℕ} {stages : List (σ → SharedDataBlock T → σ × SharedDataBlock T)}

omit [DecidableEq ι] in
/-- An element of a chain is connected to the next one. -/
theorem conn_chain {m n : Fin (stages.length + 1)} {k : ℕ} :
    (chain maxBlocks stages).Conn m k n ↔ k = 0 ∧ n.val = m.val + 1 := by
  rw [Graph.Conn]
  simp only [chain]
  split_ifs with h
  · cases k with
    | zero => simp [Fin.ext_iff, eq_comm]
    | succ k => simp
  · have := n.isLt
    simp only [List.getElem?_nil, reduceCtorEq, false_iff, not_and]
    omega

/-- Every element leads to those behind it. -/
theorem reaches_chain (m n : Fin (stages.length + 1)) (h : m ≤ n) :
    Relation.ReflTransGen (chain maxBlocks stages).Adj m n := by
  obtain ⟨n, hn⟩ := n
  induction n with
  | zero =>
      obtain rfl : m = ⟨0, hn⟩ := Fin.ext (Nat.le_zero.mp h)
      exact .refl
  | succ n ih =>
      rcases h.eq_or_lt with rfl | hlt
      · exact .refl
      · exact (ih (by omega) (Nat.lt_succ_iff.mp hlt)).tail (conn_chain (k := 0) |>.mpr ⟨rfl, rfl⟩).adj

/-- **Chains are trees.** -/
theorem isTree_chain : (chain maxBlocks stages).IsTree where
  root m h := by
    obtain ⟨k, hk⟩ := List.mem_iff_getElem?.mp h
    exact absurd (conn_chain.mp hk).2 (Nat.succ_ne_zero _).symm
  parent h h' := by
    obtain ⟨rfl, hn⟩ := conn_chain.mp h
    obtain ⟨rfl, hn'⟩ := conn_chain.mp h'
    exact ⟨Fin.ext (by omega), rfl⟩
  connected n := reaches_chain 0 n (Fin.zero_le n)

/-- A chain of stages that pass everything on does so. -/
theorem passesOn_chain (h : ∀ f ∈ stages, ∀ st sdb, (f st sdb).2 = sdb) :
    (chain maxBlocks stages).PassesOn := by
  intro n st sdb
  cases n using Fin.cases with
  | zero => rfl
  | succ i => exact h _ (List.get_mem stages i) st sdb

/-- All buffers of a chain are of one capacity. -/
theorem maxBlocks_chain {c : Fin (stages.length + 1)} {m : ℕ}
    (hm : (chain maxBlocks stages).maxBlocks c = some m) : maxBlocks = m := by
  simp only [chain] at hm
  split_ifs at hm
  exact Option.some.inj hm

/-- They hold a block if the capacity is positive. -/
theorem capacity_chain (h : 1 ≤ maxBlocks) (c : Fin (stages.length + 1)) (m : ℕ)
    (hm : (chain maxBlocks stages).maxBlocks c = some m) : 1 ≤ m :=
  maxBlocks_chain hm ▸ h

/-- They can be constructed if a `ssize_t` can count the capacity. -/
theorem capacity_lt_chain (h : maxBlocks < 2 ^ 63) (c : Fin (stages.length + 1)) (m : ℕ)
    (hm : (chain maxBlocks stages).maxBlocks c = some m) : m < 2 ^ 63 :=
  maxBlocks_chain hm ▸ h

/-- The sink is connected once, at the end. -/
theorem connectedOnce_chain (v : Unit) :
    ConnectedOnce (chain maxBlocks stages).toGraph v (Fin.last stages.length) 0 where
  conn := by simp [chain]
  once n k hk := by
    simp only [chain] at hk
    split_ifs at hk with hn
    · rcases k with _ | k
      · exact ⟨hn, rfl⟩
      · exact absurd hk (by simp)
    · exact absurd hk (by simp)

/-- **Where the pushing thread has left and the worker is joined**, no thread runs. -/
theorem finished_of_joined_chain {priv : Fin (stages.length + 1) → σ} {bs : List (SharedDataBlock T)}
    {S : State (Fin (stages.length + 1)) Unit T σ} (h : (chain maxBlocks stages).Reachable priv bs S)
    (hs : S.stack .pusher = [])
    (hjoin : S.shared.joinable 0 = true → ∀ i, S.stack (.worker 0 i) = []) : Finished S := by
  intro t
  cases t with
  | pusher => exact hs
  | worker c i =>
      by_contra hlive
      obtain rfl : c = 0 := by_contra fun hc => h.wellFormed.isBuffer hlive (if_neg hc)
      have hlt := h.wellFormed.live 0 i hlive
      exact hlive (hjoin (h.joinable_entry (isTree_chain.acyclic 0) hs (by
        change S.shared.created 0 ≠ 0
        omega)) i)

/-! ### The sink of a chain -/

section Sink

variable (hpass : ∀ f ∈ stages, ∀ st sdb, (f st sdb).2 = sdb) {priv : Fin (stages.length + 1) → σ}
  {bs rest : List (SharedDataBlock T)} {S : State (Fin (stages.length + 1)) Unit T σ}

include hpass

/-- The sink has seen a part of what was pushed, and nothing else. -/
theorem seenBy_chain (h : (chain maxBlocks stages).Reachable priv bs S) : seenBy () S.log <+: bs := by
  rw [(connectedOnce_chain ()).seenBy_eq h.callsConnected]
  exact isTree_chain.seen_isPrefix (passesOn_chain hpass) h (by simp [chain])

/-- **The sink throws nothing** while a stream is pushed that has one end-of-processing
block. -/
theorem exists_sinkPromise_chain (h : (chain maxBlocks stages).Reachable priv bs S)
    (hbs : Ended SharedDataBlock.isEndOfProcessing (bs ++ rest)) :
    ∃ promise, sinkPromise () S.log = .ok promise := by
  have hle : (seenBy () S.log).countP SharedDataBlock.isEndOfProcessing ≤ 1 :=
    ((seenBy_chain hpass h).trans (List.prefix_append ..)).sublist.countP_le.trans hbs.countP_eq_one.le
  exact ⟨_, (sinkPromise_eq () S.log).trans (if_pos hle)⟩

/-- **When the promise is set**, the stream is complete, it ended with this status, and
every element has processed all of it. -/
theorem processed_of_sinkPromise (h : (chain maxBlocks stages).Reachable priv bs S)
    (hbs : Ended SharedDataBlock.isEndOfProcessing (bs ++ rest)) {eop : EopStatus}
    (hp : sinkPromise () S.log = .ok (some eop)) :
    Ended SharedDataBlock.isEndOfProcessing bs ∧ bs.findSome? SharedDataBlock.eop = some eop ∧
      ∀ m, S.shared.priv m =
        bs.foldl (fun st sdb => ((chain maxBlocks stages).processData m st sdb).1) (priv m) := by
  rw [sinkPromise_eq] at hp
  split_ifs at hp
  have hfirst := Except.ok.inj hp
  obtain ⟨sdb, hsdb, heop⟩ := List.exists_of_findSome?_eq_some hfirst
  have hend : sdb.isEndOfProcessing = true := by simp [SharedDataBlock.isEndOfProcessing, heop]
  have hpart := seenBy_chain hpass h
  have hall := hbs.eq_of_isPrefix (hpart.trans (List.prefix_append ..)) hsdb hend
  obtain rfl : rest = [] := by
    have hlen := hpart.length_le
    rw [hall, List.length_append] at hlen
    exact List.length_eq_zero_iff.mp (by omega)
  rw [List.append_nil] at hbs hall
  refine ⟨hbs, hall ▸ hfirst, fun m => ?_⟩
  rw [(connectedOnce_chain ()).seenBy_eq h.callsConnected] at hsdb
  exact isTree_chain.priv_of_seen (passesOn_chain hpass) hbs h (by simp [chain])
    (reaches_chain m _ (Fin.le_last m)) hsdb hend

/-- **The promise is set once everything is completed.** -/
theorem exists_sinkPromise_of_finished (h : (chain maxBlocks stages).Reachable priv bs S)
    (hbs : Ended SharedDataBlock.isEndOfProcessing bs) (hfin : Finished S) :
    ∃ eop, sinkPromise () S.log = .ok (some eop) := by
  have hchain : (chain maxBlocks stages).PassesOn := passesOn_chain hpass
  obtain ⟨l, hl⟩ := isTree_chain.exists_streamAt priv bs (Fin.last stages.length)
  obtain rfl := hl.eq hchain hbs
  have hseen := (isTree_chain.seenBy_isPrefix (fun n _ => hchain.keepsProtocol n) hbs h
    (connectedOnce_chain ()) hl).2 hfin
  rw [latchOut_of_passesOn (hchain _) (fun _ => SharedDataBlock.isEndOfProcessing_of_isEopError) _
    List.prefix_rfl hbs] at hseen
  obtain ⟨init, last, heq, -, hlast⟩ := id hbs
  obtain ⟨eop, heop⟩ := Option.isSome_iff_exists.mp
    (List.findSome?_isSome_iff.mpr
      ⟨last, heq ▸ List.mem_append_right _ (List.mem_singleton_self _), hlast⟩)
  refine ⟨eop, ?_⟩
  rw [sinkPromise_eq, hseen, if_pos hbs.countP_eq_one.le, heop]

/-! ### Where no thread of a chain can make a step -/

/-- Where no thread can make a step, the pushing thread is not inside a push. -/
theorem pusher_of_halted_chain (hmax : 1 ≤ maxBlocks)
    (h : (chain maxBlocks stages).Reachable priv ((chain maxBlocks stages).blocks S) S)
    (hbs : Ended SharedDataBlock.isEndOfProcessing ((chain maxBlocks stages).blocks S ++ rest))
    (hhalted : (chain maxBlocks stages).Halted S) :
    S.stack .pusher = [] ∨ S.stack .pusher = [.main []] :=
  isTree_chain.pusher_of_halted (capacity_chain hmax)
    (fun n _ => (passesOn_chain hpass).keepsProtocol n) h hbs hhalted

/-- If it has left after a complete stream, every thread is done. -/
theorem finished_of_halted_chain (hmax : 1 ≤ maxBlocks)
    (h : (chain maxBlocks stages).Reachable priv ((chain maxBlocks stages).blocks S) S)
    (hbs : Ended SharedDataBlock.isEndOfProcessing ((chain maxBlocks stages).blocks S))
    (hhalted : (chain maxBlocks stages).Halted S) (hs : S.stack .pusher = []) : Finished S := by
  have hdone := (isTree_chain.completed_of_halted (capacity_chain hmax)
    (fun n _ => (passesOn_chain hpass).keepsProtocol n) h hbs hhalted).2
  intro t
  cases t with
  | pusher => exact hs
  | worker c i => exact (leave_worker S c i).symm.trans (hdone.exited c i)

end Sink

end Pipeline
end CppDataStream
