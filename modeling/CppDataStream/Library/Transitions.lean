/-
# Transition systems that use up a budget

A system makes steps of progress and idle steps.  `Runs k a b` is a run from `a` to
`b` with `k` steps of progress and any number of idle ones.  If every step of
progress takes something from a budget, and no idle step adds to it, then the number
of steps of progress in a run is bounded (`Runs.le_budget`), and what cannot stop
short of a goal reaches it (`exists_reachable`).

A system that refines another one, step by step or by doing nothing, reaches only
what the other one reaches (`Refines.reachable`, `Refines.runs`); and if it can do each
step of the other one in some steps of its own, it can do each of its runs
(`exists_run_of_lifts`).
-/

import Mathlib.Logic.Relation
import Mathlib.Tactic.Common

namespace CppDataStream
namespace Transitions

variable {α : Type*} {progress idle : α → α → Prop}

/-- A run with `k` steps of progress. -/
inductive Runs (progress idle : α → α → Prop) (a : α) : ℕ → α → Prop
  | refl : Runs progress idle a 0 a
  | progress {k : ℕ} {b c : α} (h : Runs progress idle a k b) (hbc : progress b c) :
      Runs progress idle a (k + 1) c
  | idle {k : ℕ} {b c : α} (h : Runs progress idle a k b) (hbc : idle b c) : Runs progress idle a k c

/-- A run can be continued by steps of progress. -/
theorem Runs.trans {a b c : α} {k : ℕ} (h : Runs progress idle a k b)
    (hbc : Relation.ReflTransGen progress b c) : ∃ k', Runs progress idle a k' c := by
  induction hbc with
  | refl => exact ⟨k, h⟩
  | tail _ hstep ih =>
      obtain ⟨k', h'⟩ := ih
      exact ⟨k' + 1, h'.progress hstep⟩

/-- `B a N` bounds what can still be done from `a` by `N`. -/
structure Budget (progress idle : α → α → Prop) (B : α → ℕ → Prop) : Prop where
  progress : ∀ {a b N}, B a N → progress a b → ∃ N', N' < N ∧ B b N'
  idle : ∀ {a b N}, B a N → idle a b → B b N

variable {B : α → ℕ → Prop}

/-- What was done and what can still be done stay within the budget. -/
theorem Runs.budget (hB : Budget progress idle B) {a b : α} {k N : ℕ} (h : Runs progress idle a k b)
    (ha : B a N) : ∃ N', k + N' ≤ N ∧ B b N' := by
  induction h with
  | refl => exact ⟨N, by omega, ha⟩
  | progress _ hbc ih =>
      obtain ⟨N₁, hle, hb⟩ := ih
      obtain ⟨N₂, hlt, hc⟩ := hB.progress hb hbc
      exact ⟨N₂, by omega, hc⟩
  | idle _ hbc ih =>
      obtain ⟨N₁, hle, hb⟩ := ih
      exact ⟨N₁, hle, hB.idle hb hbc⟩

/-- **Runs are bounded.** -/
theorem Runs.le_budget (hB : Budget progress idle B) {a b : α} {k N : ℕ}
    (h : Runs progress idle a k b) (ha : B a N) : k ≤ N := by
  obtain ⟨N', hle, -⟩ := h.budget hB ha
  omega

/-- **What cannot stop short of a goal reaches it.** -/
theorem exists_reachable (hB : Budget progress idle B) {I Q : α → Prop}
    (hstep : ∀ a, I a → ¬ Q a → ∃ b, progress a b ∧ I b) {a : α} {N : ℕ} (ha : B a N) (hinv : I a) :
    ∃ b, Relation.ReflTransGen progress a b ∧ I b ∧ Q b := by
  induction N using Nat.strongRecOn generalizing a with
  | ind N ih =>
      by_cases hgoal : Q a
      · exact ⟨a, .refl, hinv, hgoal⟩
      · obtain ⟨b, hab, hb⟩ := hstep a hinv hgoal
        obtain ⟨N', hlt, hN'⟩ := hB.progress ha hab
        obtain ⟨c, hbc, hc⟩ := ih N' hlt hN' hb
        exact ⟨c, hbc.head hab, hc⟩

/-! ### Refinement -/

section Refinement

variable {β : Type*} {step : α → α → Prop} {step' : β → β → Prop} {R : α → β → Prop}

/-- A step is a step of the other system, or nothing. -/
def Refines (step : α → α → Prop) (step' : β → β → Prop) (R : α → β → Prop) : Prop :=
  ∀ a a' b, R a b → step a a' → R a' b ∨ ∃ b', step' b b' ∧ R a' b'

/-- What is reached refines something that is reached. -/
theorem Refines.reachable (h : Refines step step' R) {a a' : α} {b : β} (hR : R a b)
    (ha : Relation.ReflTransGen step a a') : ∃ b', Relation.ReflTransGen step' b b' ∧ R a' b' := by
  induction ha with
  | refl => exact ⟨b, .refl, hR⟩
  | tail _ hstep ih =>
      obtain ⟨b₁, hb₁, hR₁⟩ := ih
      rcases h _ _ _ hR₁ hstep with hR₂ | ⟨b₂, hb₂, hR₂⟩
      · exact ⟨b₁, hb₁, hR₂⟩
      · exact ⟨b₂, hb₁.tail hb₂, hR₂⟩

/-- The same of runs. -/
theorem Refines.runs {progress' idle' : β → β → Prop} (hprogress : Refines progress progress' R)
    (hidle : Refines idle idle' R) {a a' : α} {b : β} {k : ℕ} (hR : R a b)
    (ha : Runs progress idle a k a') :
    ∃ k' ≤ k, ∃ b', Runs progress' idle' b k' b' ∧ R a' b' := by
  induction ha with
  | refl => exact ⟨0, Nat.le_refl 0, b, .refl, hR⟩
  | progress _ hstep ih =>
      obtain ⟨k₁, hle, b₁, hb₁, hR₁⟩ := ih
      rcases hprogress _ _ _ hR₁ hstep with hR₂ | ⟨b₂, hb₂, hR₂⟩
      · exact ⟨k₁, Nat.le_succ_of_le hle, b₁, hb₁, hR₂⟩
      · exact ⟨k₁ + 1, Nat.succ_le_succ hle, b₂, hb₁.progress hb₂, hR₂⟩
  | idle _ hstep ih =>
      obtain ⟨k₁, hle, b₁, hb₁, hR₁⟩ := ih
      rcases hidle _ _ _ hR₁ hstep with hR₂ | ⟨b₂, hb₂, hR₂⟩
      · exact ⟨k₁, hle, b₁, hb₁, hR₂⟩
      · exact ⟨k₁, hle, b₂, hb₁.idle hb₂, hR₂⟩

/-- What can do every step of the other system can do every run of it. -/
theorem exists_run_of_lifts
    (hlift : ∀ a b b', R a b → step' b b' → ∃ a', Relation.ReflTransGen step a a' ∧ R a' b') {a : α}
    {b b' : β} (hR : R a b) (hb : Relation.ReflTransGen step' b b') :
    ∃ a', Relation.ReflTransGen step a a' ∧ R a' b' := by
  induction hb with
  | refl => exact ⟨a, .refl, hR⟩
  | tail _ hstep ih =>
      obtain ⟨a₁, ha₁, hR₁⟩ := ih
      obtain ⟨a₂, ha₂, hR₂⟩ := hlift _ _ _ hR₁ hstep
      exact ⟨a₂, ha₁.trans ha₂, hR₂⟩

end Refinement

end Transitions
end CppDataStream
