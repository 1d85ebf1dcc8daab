/-
# Runs of a pipeline are bounded

On a finite acyclic pipeline no thread can go on forever.  Every program point is
given the number of steps that it can lead to, in the loop over `processors` with
the pushes into all elements that are left, and in a push into a buffer with what its
worker will do for the block (`Frame.work`, `Shared.work`).  Every step of a thread
takes something from the sum over all stacks and queues (`Exec.work_lt`); a timed-out
attempt to enqueue, and a wait for a block, are no such steps.

The weights of the elements come from `DirectedGraph.exists_weight`.
-/

import CppDataStream.Threaded.Machine
import CppDataStream.Library.Digraph
import CppDataStream.Library.Transitions
import Mathlib.Algebra.BigOperators.Ring.Finset
import Mathlib.Algebra.Order.BigOperators.Group.Finset

namespace CppDataStream

open Transitions

variable {ι V T σ : Type*}

/-- `β n` bounds the steps that a call of `StreamProcessor::pushData` of `n` leads
to. -/
def Pipeline.Weight (P : Pipeline ι V T σ) (β : ι → ℕ) : Prop :=
  ∀ n, (P.visitors n).length + 4 + ((P.processors n).map fun c => β c + 9).sum ≤ β n

/-- Finite acyclic pipelines have weights. -/
theorem Pipeline.exists_weight [Finite ι] (P : Pipeline ι V T σ) (h : DirectedGraph.Acyclic P.Adj) :
    ∃ β, P.Weight β := by
  obtain ⟨β, hβ⟩ := DirectedGraph.exists_weight
    (show WellFounded fun c n => c ∈ P.processors n from h.wellFounded)
    fun n => (P.visitors n).length + 4 + 9 * (P.processors n).length
  refine ⟨β, fun n => ?_⟩
  rw [hβ n, List.sum_map_add, List.map_const', List.sum_const_nat]
  omega

/-- The steps that a frame can lead to, those in the queues not counted. -/
def Frame.work (P : Pipeline ι V T σ) (β : ι → ℕ) : Frame ι T → ℕ
  | .main todo => todo.length * (β P.entry + 9) + 1
  | .hadError n _ => β n
  | .process n _ => (P.visitors n).length + 3 + ((P.processors n).map fun c => β c + 9).sum
  | .visit n k _ => (P.visitors n).length - k + 2 + ((P.processors n).map fun c => β c + 9).sum
  | .forward n k _ => 1 + (((P.processors n).drop k).map fun c => β c + 9).sum
  | .startTest c _ => β c + 8
  | .start c _ => β c + 7
  | .assign c _ => β c + 6
  | .started c _ => β c + 5
  | .enqueue c _ => β c + 4
  | .dequeue _ => 0
  | .deliver c _ => β c + 2
  | .eopTest _ _ => 1

/-- The steps that the frames of a stack can lead to. -/
def stackWork (P : Pipeline ι V T σ) (β : ι → ℕ) (fs : List (Frame ι T)) : ℕ :=
  (fs.map (Frame.work P β)).sum

/-- An empty stack leads to nothing. -/
theorem stackWork_nil (P : Pipeline ι V T σ) (β : ι → ℕ) :
    stackWork P β ([] : List (Frame ι T)) = 0 := rfl

/-- A stack leads to what its frames lead to. -/
theorem stackWork_cons (P : Pipeline ι V T σ) (β : ι → ℕ) (f : Frame ι T) (fs : List (Frame ι T)) :
    stackWork P β (f :: fs) = f.work P β + stackWork P β fs :=
  List.sum_cons

/-- So do two stacks. -/
theorem stackWork_append (P : Pipeline ι V T σ) (β : ι → ℕ) (fs fs' : List (Frame ι T)) :
    stackWork P β (fs ++ fs') = stackWork P β fs + stackWork P β fs' := by
  rw [stackWork, List.map_append, List.sum_append, stackWork, stackWork]

/-- The steps that the blocks in the queues can lead to, and `std::terminate`. -/
def Shared.work [Fintype ι] (β : ι → ℕ) (sh : Shared ι T σ) : ℕ :=
  ∑ c, (sh.queue c).length * (β c + 3) + if sh.terminated then 0 else 1

namespace Pipeline

/-- A call of `pushData` leads to what `StreamProcessor::pushData` does, and the steps
into a queue. -/
theorem work_pushFrame_le (P : Pipeline ι V T σ) (β : ι → ℕ) (n : ι) (sdb : SharedDataBlock T) :
    (P.pushFrame n sdb).work P β ≤ β n + 8 := by
  unfold pushFrame
  split_ifs <;> simp [Frame.work]

/-- Changing one summand. -/
theorem sum_apply_update {κ α : Type*} [DecidableEq κ] (s : Finset κ) (g : κ → α → ℕ) (x : κ → α)
    {k : κ} (hk : k ∈ s) (a : α) :
    ∑ j ∈ s, g j (Function.update x k a j) + g k (x k) = ∑ j ∈ s, g j (x j) + g k a := by
  simp only [Function.apply_update g, Finset.sum_update_of_mem hk]
  have hsplit := Finset.sum_eq_add_sum_sdiff_singleton_of_mem hk fun j => g j (x j)
  omega

variable [DecidableEq ι] [Fintype ι] {P : Pipeline ι V T σ} {β : ι → ℕ} {sh : Shared ι T σ}
  {f : Frame ι T} {e : Effect ι V T σ}

/-- The work of the queues changes at one of them. -/
theorem work_queue (β : ι → ℕ) (sh : Shared ι T σ) (c : ι) (q : List (SharedDataBlock T)) :
    { sh with queue := Function.update sh.queue c q }.work β + (sh.queue c).length * (β c + 3) =
      sh.work β + q.length * (β c + 3) := by
  have hsum :=
    sum_apply_update Finset.univ (fun c (q : List (SharedDataBlock T)) => q.length * (β c + 3))
    sh.queue (Finset.mem_univ c) q
  simp only [Shared.work]
  omega

/-- **Every step does some of the work.** -/
theorem Exec.work_lt (h : Exec P sh f e) (hβ : P.Weight β) (hsh : sh.terminated = false) :
    stackWork P β e.frames + e.shared.work β < f.work P β + sh.work β := by
  cases h with
  | push sdb todo =>
      have hpush := work_pushFrame_le P β P.entry sdb
      have hmain : (Frame.main (sdb :: todo)).work P β =
          (Frame.main todo : Frame ι T).work P β + (β P.entry + 9) := by
        simp only [Frame.work, List.length_cons, Nat.add_mul]
        omega
      simp only [stackWork_cons, stackWork_nil, hmain]
      omega
  | skip n sdb he =>
      have := hβ n
      simp only [stackWork_nil, Frame.work]
      omega
  | pass n sdb he =>
      have := hβ n
      simp only [stackWork_cons, stackWork_nil, Frame.work]
      omega
  | process n sdb =>
      have hwork : (P.process n sdb sh).1.work β = sh.work β := rfl
      simp only [stackWork_cons, stackWork_nil, Frame.work, hwork]
      omega
  | visit n k output v hv =>
      have hlt := (List.getElem?_eq_some_iff.mp hv).1
      simp only [stackWork_cons, stackWork_nil, Frame.work]
      omega
  | forward n k output c hc =>
      have hpush := work_pushFrame_le P β c output
      obtain ⟨hlt, hget⟩ := List.getElem?_eq_some_iff.mp hc
      have hnext : (Frame.forward n k output).work P β =
          (Frame.forward n (k + 1) output).work P β + (β c + 9) := by
        simp only [Frame.work, List.drop_eq_getElem_cons hlt, hget, List.map_cons, List.sum_cons]
        omega
      simp only [stackWork_cons, stackWork_nil, hnext]
      omega
  | terminate c sdb hj =>
      have hwork : { sh with terminated := true }.work β + 1 = sh.work β := by simp [Shared.work, hsh]
      simp only [stackWork_cons, stackWork_nil, Frame.work]
      omega
  | start c sdb =>
      have hwork : { sh with created := Function.update sh.created c (sh.created c + 1) }.work β =
        sh.work β := rfl
      simp only [stackWork_cons, stackWork_nil, Frame.work, hwork]
      omega
  | assign c sdb hj =>
      have hwork : { sh with joinable := Function.update sh.joinable c true }.work β = sh.work β := rfl
      simp only [stackWork_cons, stackWork_nil, Frame.work, hwork]
      omega
  | started c sdb =>
      have hwork : { sh with threadStarted := Function.update sh.threadStarted c true }.work β =
        sh.work β := rfl
      simp only [stackWork_cons, stackWork_nil, Frame.work, hwork]
      omega
  | enqueue c sdb hlt =>
      have hwork := work_queue β sh c (sh.queue c ++ [sdb])
      simp only [List.length_append, List.length_singleton, Nat.add_mul, Nat.one_mul] at hwork
      simp only [stackWork_nil, Frame.work]
      omega
  | dequeue c sdb sdbs hq =>
      have hwork := work_queue β sh c sdbs
      rw [hq] at hwork
      simp only [List.length_cons, Nat.add_mul, Nat.one_mul] at hwork
      simp only [stackWork_cons, stackWork_nil, Frame.work]
      omega
  | _ =>
      simp only [stackWork_cons, stackWork_nil, Frame.work, List.drop_zero]
      omega

/-- The steps that a state can lead to are at most `N`. -/
def WorkLe (P : Pipeline ι V T σ) (β : ι → ℕ) (S : State ι V T σ) (N : ℕ) : Prop :=
  ∃ ts : Finset (Thread ι), (∀ t, t ∉ ts → S.stack t = []) ∧
    ∑ t ∈ ts, stackWork P β (S.stack t) + S.shared.work β ≤ N

omit [Fintype ι] in
/-- A constructed thread adds nothing yet. -/
theorem sum_spawn_le (stack : Thread ι → List (Frame ι T)) (ts : Finset (Thread ι)) (c : ι) (i : ℕ) :
    ∑ t ∈ insert (.worker c i) ts, stackWork P β (spawn stack (some (c, i)) t) ≤
      ∑ t ∈ ts, stackWork P β (stack t) := by
  have hw : stackWork P β (spawn stack (some (c, i)) (.worker c i)) = 0 := by
    simp [spawn, stackWork, Frame.work]
  rw [Finset.sum_insert_of_eq_zero_if_notMem (f := fun t => stackWork P β (spawn stack (some (c, i)) t))
    fun _ => hw]
  refine Finset.sum_le_sum fun t _ => ?_
  by_cases ht : t = .worker c i
  · rw [ht, hw]
    exact Nat.zero_le _
  · rw [spawn, Function.update_of_ne ht]

/-- **A step of a thread uses up what bounds a run.** -/
theorem Progress.workLe (hβ : P.Weight β) {S S' : State ι V T σ} (h : P.Progress S S') {N : ℕ}
    (hN : WorkLe P β S N) : ∃ N', N' < N ∧ WorkLe P β S' N' := by
  obtain ⟨t, ht⟩ := h
  obtain ⟨f, rest, e, hstack, hterm, hexec, rfl⟩ := step_cases ht
  obtain ⟨ts, hempty, hle⟩ := hN
  have hmem : t ∈ ts := by
    by_contra hnot
    exact absurd (hstack.symm.trans (hempty t hnot)) (by simp)
  have hlt := hexec.work_lt hβ hterm
  have hsum := sum_apply_update ts (fun _ fs => stackWork P β fs) S.stack hmem (e.frames ++ rest)
  have hsplit := stackWork_append P β e.frames rest
  have hcons : stackWork P β (S.stack t) = f.work P β + stackWork P β rest := by
    rw [hstack, stackWork_cons]
  have hne : ∀ t', t' ∉ ts → t' ≠ t := fun t' ht' h => ht' (h ▸ hmem)
  rcases e.spawned with _ | ⟨c, i⟩
  · refine ⟨_, ?_, ts, fun t' ht' => ?_, le_rfl⟩
    · simp only [spawn]
      omega
    · simp only [spawn]
      rw [Function.update_of_ne (hne t' ht')]
      exact hempty t' ht'
  · have hspawn := sum_spawn_le (P := P) (β := β) (Function.update S.stack t (e.frames ++ rest)) ts c i
    refine ⟨_, ?_, insert (.worker c i) ts, fun t' ht' => ?_, le_rfl⟩
    · simp only
      omega
    · rw [Finset.mem_insert, not_or] at ht'
      simp only [spawn]
      rw [Function.update_of_ne ht'.1, Function.update_of_ne (hne t' ht'.2)]
      exact hempty t' ht'.2

/-! ### Runs -/

omit [Fintype ι] [DecidableEq ι] in
/-- An attempt to enqueue times out. -/
def Idle (S S' : State ι V T σ) : Prop := S' = S ∧ Waiting S

omit [Fintype ι] in
/-- A run from the fresh pipeline with `k` steps of threads, and any number of
timed-out attempts. -/
def RunsTo (P : Pipeline ι V T σ) (priv : ι → σ) (bs : List (SharedDataBlock T)) (k : ℕ)
    (S : State ι V T σ) : Prop :=
  Runs P.Progress Idle (init priv bs) k S

variable {priv : ι → σ} {bs : List (SharedDataBlock T)} {S : State ι V T σ}

omit [Fintype ι] in
/-- The reachable states are those that runs lead to. -/
theorem reachable_iff_runsTo : P.Reachable priv bs S ↔ ∃ k, P.RunsTo priv bs k S := by
  constructor
  · intro h
    induction h with
    | refl => exact ⟨0, .refl⟩
    | tail _ hstep ih =>
        obtain ⟨k, hk⟩ := ih
        cases hstep with
        | thread hp => exact ⟨k + 1, hk.progress hp⟩
        | timeout hw => exact ⟨k, hk.idle ⟨rfl, hw⟩⟩
  · rintro ⟨k, hk⟩
    induction hk with
    | refl => exact .refl
    | progress _ hp ih => exact ih.tail (.thread hp)
    | idle _ hidle ih => exact hidle.1 ▸ ih

/-- **The work is a budget**: every step uses some of it, and a timed-out attempt adds
nothing. -/
theorem budget_workLe (hβ : P.Weight β) : Budget P.Progress Idle (WorkLe P β) where
  progress hN hp := hp.workLe hβ hN
  idle hN hidle := hidle.1 ▸ hN

/-- The fresh pipeline has some. -/
theorem workLe_init (P : Pipeline ι V T σ) (β : ι → ℕ) (priv : ι → σ) (bs : List (SharedDataBlock T)) :
    ∃ N, WorkLe P β (init priv bs) N :=
  ⟨_, {.pusher}, fun t ht => by simp [init, Finset.notMem_singleton.mp ht], le_rfl⟩

/-- So has every reachable state. -/
theorem Reachable.exists_workLe (hβ : P.Weight β) (h : P.Reachable priv bs S) :
    ∃ N, WorkLe P β S N := by
  obtain ⟨k, hk⟩ := reachable_iff_runsTo.mp h
  obtain ⟨N, hN⟩ := workLe_init P β priv bs
  obtain ⟨N', -, hS⟩ := hk.budget (budget_workLe hβ) hN
  exact ⟨N', hS⟩

omit [Fintype ι] in
/-- **Every run of a finite acyclic pipeline is bounded**, short of timed-out
attempts. -/
theorem exists_bound [Finite ι] (hac : DirectedGraph.Acyclic P.Adj) (priv : ι → σ)
    (bs : List (SharedDataBlock T)) : ∃ N, ∀ k S, P.RunsTo priv bs k S → k ≤ N := by
  cases nonempty_fintype ι
  obtain ⟨β, hβ⟩ := P.exists_weight hac
  obtain ⟨N, hN⟩ := workLe_init P β priv bs
  exact ⟨N, fun k S hk => hk.le_budget (budget_workLe hβ) hN⟩

omit [Fintype ι] in
/-- **What cannot stop short of a goal reaches it**, on a finite acyclic pipeline. -/
theorem Reachable.exists_goal [Finite ι] (hac : DirectedGraph.Acyclic P.Adj)
    {Q : State ι V T σ → Prop}
    (hQ : ∀ S, P.Reachable priv bs S → ¬ Q S → ∃ S', P.Progress S S') (h : P.Reachable priv bs S) :
    ∃ S', Relation.ReflTransGen P.Progress S S' ∧ P.Reachable priv bs S' ∧ Q S' := by
  cases nonempty_fintype ι
  obtain ⟨β, hβ⟩ := P.exists_weight hac
  obtain ⟨N, hN⟩ := h.exists_workLe hβ
  exact exists_reachable (budget_workLe hβ) (fun S hS hnot =>
    (hQ S hS hnot).imp fun S' hp => ⟨hp, hS.tail (.thread hp)⟩) hN h

end Pipeline
end CppDataStream
