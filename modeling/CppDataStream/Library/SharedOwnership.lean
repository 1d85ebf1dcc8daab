/-
# Shared ownership by a use count

Owners share an object, and a counter says how many of them still hold it.  An owner
that gives up its share decrements the counter in one step; the one that finds it at 1
destroys the object afterwards, in a step of its own.  Nothing else orders the owners.

`Inv` is kept by every step (`Inv.release`, `Inv.destroy`): the counter is the number of
owners that hold the object, one owner at most is about to destroy it, and it is
destroyed once, after every owner has given it up (`Inv.destroyed_of_released`).
-/

import Mathlib.Data.Fintype.Card
import Mathlib.Algebra.BigOperators.Group.Finset.Basic
import Mathlib.Algebra.Order.BigOperators.Group.Finset

namespace CppDataStream
namespace SharedOwnership

/-- Where an owner is. -/
inductive Phase where
  | holding
  /-- It has given up its share, and was the last. -/
  | destroying
  | released
  deriving DecidableEq

/-- The steps that an owner has still to make. -/
def Phase.rank : Phase → ℕ
  | .holding => 2
  | .destroying => 1
  | .released => 0

/-- The owners, the counter, and how often the object was destroyed. -/
structure Control (κ : Type*) where
  phase : κ → Phase
  useCount : ℕ
  destroyed : ℕ

variable {κ : Type*} [Fintype κ] [DecidableEq κ] {c : Control κ} {k : κ}

namespace Control

omit [DecidableEq κ] in
/-- All owners hold the object. -/
def init (κ : Type*) [Fintype κ] : Control κ := ⟨fun _ => .holding, Fintype.card κ, 0⟩

omit [Fintype κ] in
/-- Owner `k` gives up its share. -/
def release (c : Control κ) (k : κ) : Control κ :=
  { c with
    phase := Function.update c.phase k (if c.useCount = 1 then .destroying else .released)
    useCount := c.useCount - 1 }

omit [Fintype κ] in
/-- Owner `k` destroys the object. -/
def destroy (c : Control κ) (k : κ) : Control κ :=
  { c with phase := Function.update c.phase k .released, destroyed := c.destroyed + 1 }

omit [DecidableEq κ] in
/-- The steps that the owners have still to make. -/
def rank (c : Control κ) : ℕ := ∑ k, (c.phase k).rank

/-- An owner that goes on has less to do. -/
theorem rank_update_lt (c : Control κ) {x : Phase} (hx : x.rank < (c.phase k).rank) :
    ∑ j, (Function.update c.phase k x j).rank < c.rank := by
  refine Finset.sum_lt_sum (fun j _ => ?_) ⟨k, Finset.mem_univ k, by simpa using hx⟩
  by_cases hj : j = k
  · subst hj
    simpa using hx.le
  · rw [Function.update_of_ne hj]

/-- To release leaves less to do. -/
theorem rank_release_lt (hk : c.phase k = .holding) : (c.release k).rank < c.rank := by
  refine c.rank_update_lt ?_
  rw [hk]
  split_ifs <;> decide

/-- So does to destroy. -/
theorem rank_destroy_lt (hk : c.phase k = .destroying) : (c.destroy k).rank < c.rank := by
  refine c.rank_update_lt ?_
  rw [hk]
  decide

end Control

/-- The owners that hold the object. -/
def holders (phase : κ → Phase) : Finset κ := Finset.univ.filter fun k => phase k = .holding

/-- What every step keeps. -/
structure Inv (c : Control κ) : Prop where
  useCount : c.useCount = (holders c.phase).card
  /-- An owner is about to destroy the object only where none holds it any more, once. -/
  destroying : ∀ k, c.phase k = .destroying →
    c.useCount = 0 ∧ c.destroyed = 0 ∧ ∀ j, c.phase j = .destroying → j = k
  /-- The object is not destroyed while an owner holds it. -/
  held : c.useCount ≠ 0 → c.destroyed = 0
  /-- And is not forgotten. -/
  pending : c.useCount = 0 → c.destroyed = 1 ∨ ∃ k, c.phase k = .destroying

omit [DecidableEq κ] in
/-- At first every owner holds the object, and is counted. -/
theorem inv_init [Nonempty κ] : Inv (Control.init κ) where
  useCount := by simp [Control.init, holders]
  destroying k hk := absurd hk (by simp [Control.init])
  held _ := rfl
  pending h := absurd h Fintype.card_ne_zero

/-- An owner that leaves `holding` takes itself from the holders. -/
theorem holders_update (phase : κ → Phase) {x : Phase} (hx : x ≠ .holding) :
    holders (Function.update phase k x) = (holders phase).erase k := by
  ext j
  by_cases hj : j = k
  · subst hj
    simp [holders, hx]
  · simp [holders, hj]

omit [DecidableEq κ] in
/-- An owner that holds the object is counted. -/
theorem Inv.one_le (h : Inv c) (hk : c.phase k = .holding) : 1 ≤ c.useCount := by
  rw [h.useCount]
  exact Finset.card_pos.mpr ⟨k, by simp [holders, hk]⟩

/-- **Giving up a share** keeps the invariant. -/
theorem Inv.release (h : Inv c) (hk : c.phase k = .holding) : Inv (c.release k) := by
  have hpos := h.one_le hk
  have hnone : ∀ j, c.phase j ≠ .destroying := fun j hj => by
    have := (h.destroying j hj).1
    omega
  have hcard : (holders (c.release k).phase).card = c.useCount - 1 := by
    rw [h.useCount]
    simp only [Control.release]
    rw [holders_update _ (by split_ifs <;> decide), Finset.card_erase_of_mem (by simp [holders, hk])]
  refine ⟨hcard.symm, fun j hj => ?_, fun _ => h.held (by omega), fun hzero => Or.inr ⟨k, ?_⟩⟩
  · by_cases hjk : j = k
    · subst hjk
      simp only [Control.release, Function.update_self] at hj ⊢
      split_ifs at hj with hone
      refine ⟨by omega, h.held (by omega), fun i hi => ?_⟩
      by_contra hij
      rw [Function.update_of_ne hij] at hi
      exact hnone i hi
    · simp only [Control.release, Function.update_of_ne hjk] at hj
      exact absurd hj (hnone j)
  · simp only [Control.release] at hzero ⊢
    rw [Function.update_self, if_pos (by omega)]

/-- **Destroying the object** keeps it. -/
theorem Inv.destroy (h : Inv c) (hk : c.phase k = .destroying) : Inv (c.destroy k) := by
  obtain ⟨hzero, hfresh, honly⟩ := h.destroying k hk
  refine ⟨?_, fun j hj => ?_, fun hne => absurd hzero hne, fun _ => Or.inl ?_⟩
  · rw [Control.destroy, holders_update _ (by decide), Finset.erase_eq_of_notMem (by simp [holders, hk])]
    exact h.useCount
  · by_cases hjk : j = k
    · simp [Control.destroy, hjk] at hj
    · simp only [Control.destroy, Function.update_of_ne hjk] at hj
      exact absurd (honly j hj) hjk
  · simp [Control.destroy, hfresh]

omit [DecidableEq κ] in
/-- **The object is destroyed at most once.** -/
theorem Inv.destroyed_le (h : Inv c) : c.destroyed ≤ 1 := by
  by_cases hzero : c.useCount = 0
  · rcases h.pending hzero with hone | ⟨k, hk⟩
    · exact hone.le
    · exact (h.destroying k hk).2.1.le.trans (Nat.zero_le 1)
  · exact (h.held hzero).le.trans (Nat.zero_le 1)

omit [DecidableEq κ] in
/-- Where it is destroyed, every owner has given it up. -/
theorem Inv.released_of_destroyed (h : Inv c) (hd : c.destroyed ≠ 0) (k : κ) :
    c.phase k = .released := by
  cases hk : c.phase k with
  | holding => exact absurd (h.held (Nat.one_le_iff_ne_zero.mp (h.one_le hk))) hd
  | destroying => exact absurd (h.destroying k hk).2.1 hd
  | released => rfl

omit [DecidableEq κ] in
/-- **Where every owner has given it up, it is destroyed**, once. -/
theorem Inv.destroyed_of_released (h : Inv c) (hall : ∀ k, c.phase k = .released) :
    c.destroyed = 1 := by
  have hnone : holders c.phase = ∅ := by simp [holders, hall]
  rcases h.pending (by rw [h.useCount, hnone, Finset.card_empty]) with hone | ⟨k, hk⟩
  · exact hone
  · exact absurd ((hall k).symm.trans hk) (by decide)

end SharedOwnership
end CppDataStream
