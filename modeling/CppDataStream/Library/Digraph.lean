/-
# Directed graphs: acyclicity, white paths, weights

A graph is its adjacency relation `adj : α → α → Prop`.  On a finite acyclic graph
the relation from a vertex to its successors is well-founded
(`Acyclic.wellFounded`), and every vertex has a weight that exceeds the sum of
the weights of its successors by a given amount (`exists_weight`).

`avoid adj F p` is the set of vertices that a depth-first search from `p` finds
when `F` is marked beforehand: those reachable from `p` along unmarked vertices.
The search marks what it finds while it runs; `avoid_eq_insert` and
`avoid_union_avoid` are the two steps of the white-path argument, that searching
the successors one after the other with growing marks finds the same set.
-/

import Mathlib.Data.Fintype.Card
import Mathlib.Data.Set.Insert
import Mathlib.Data.Set.Lattice
import Mathlib.Data.List.Basic
import Mathlib.Algebra.BigOperators.Group.List.Basic
import Mathlib.Algebra.Order.Ring.Nat
import Mathlib.Order.WellFounded
import Mathlib.Logic.Relation

namespace CppDataStream
namespace DirectedGraph

variable {α : Type*} {adj : α → α → Prop}

/-- No vertex is reachable from itself by a nonempty path. -/
def Acyclic (adj : α → α → Prop) : Prop := ∀ a, ¬ Relation.TransGen adj a a

/-- The edges of a finite acyclic graph are well-founded, from their ends to their starts. -/
theorem Acyclic.wellFounded [Finite α] (h : Acyclic adj) : WellFounded fun b a => adj a b := by
  have : Std.Irrefl fun b a => Relation.TransGen adj a b := ⟨h⟩
  have : IsTrans α fun b a => Relation.TransGen adj a b := ⟨fun _ _ _ h h' => h'.trans h⟩
  exact Subrelation.wf (fun hab => Relation.TransGen.single hab)
    (Finite.wellFounded_of_trans_of_irrefl fun b a => Relation.TransGen adj a b)

/-- A graph along whose edges a rank increases is acyclic. -/
theorem acyclic_of_rank (r : α → ℕ) (h : ∀ a b, adj a b → r a < r b) : Acyclic adj := by
  intro a ha
  have hlt : ∀ b, Relation.TransGen adj a b → r a < r b := fun b hb => by
    induction hb with
    | single hab => exact h _ _ hab
    | tail _ hbc ih => exact ih.trans (h _ _ hbc)
  exact lt_irrefl _ (hlt a ha)

/-- A weight for every vertex: its own cost and the weights of its successors. -/
theorem exists_weight {next : α → List α} (h : WellFounded fun b a => b ∈ next a) (cost : α → ℕ) :
    ∃ w : α → ℕ, ∀ a, w a = cost a + ((next a).map w).sum := by
  refine ⟨h.fix fun a ih => cost a + ((next a).attach.map fun b => ih b.1 b.2).sum, fun a => ?_⟩
  rw [h.fix_eq]
  congr 1
  exact congrArg List.sum List.attach_map_val

/-- The diamond, the smallest graph with a join that has no parallel edges: `0`
leads to `1` and `2`, and both lead to `3`. -/
def diamond : Fin 4 → List (Fin 4)
  | 0 => [1, 2]
  | 1 => [3]
  | 2 => [3]
  | 3 => []

/-- The diamond has no cycle. -/
theorem acyclic_diamond : Acyclic fun a b => b ∈ diamond a :=
  acyclic_of_rank Fin.val (by decide)

/-! ### White paths -/

/-- The vertices reachable from `p` by a path with all its vertices, `p`
included, outside `F`. -/
def avoid (adj : α → α → Prop) (F : Set α) (p : α) : Set α :=
  {a | p ∉ F ∧ Relation.ReflTransGen (fun b c => adj b c ∧ c ∉ F) p a}

/-- Nothing is reachable from a marked vertex. -/
theorem avoid_of_mem {F : Set α} {p : α} (h : p ∈ F) : avoid adj F p = ∅ :=
  Set.eq_empty_of_forall_notMem fun _ ha => ha.1 h

/-- An unmarked vertex is reachable from itself. -/
theorem self_mem_avoid {F : Set α} {p : α} (h : p ∉ F) : p ∈ avoid adj F p :=
  ⟨h, Relation.ReflTransGen.refl⟩

/-- An edge to an unmarked vertex leads on. -/
theorem avoid_closed {F : Set α} {p a b : α} (ha : a ∈ avoid adj F p) (hab : adj a b)
    (hb : b ∉ F) : b ∈ avoid adj F p :=
  ⟨ha.1, ha.2.tail ⟨hab, hb⟩⟩

/-- The more is marked, the less is reachable. -/
theorem avoid_anti {F F' : Set α} (h : F ⊆ F') (p : α) : avoid adj F' p ⊆ avoid adj F p :=
  fun _ ha => ⟨fun hp => ha.1 (h hp),
    Relation.ReflTransGen.mono (fun _ _ hb => ⟨hb.1, fun hc => hb.2 (h hc)⟩) _ _ ha.2⟩

/-- **First step of the white-path argument**: the search from an unmarked `p`
marks `p` and searches its successors. -/
theorem avoid_eq_insert {F : Set α} {p : α} (hp : p ∉ F) :
    avoid adj F p = insert p (⋃ c ∈ {c | adj p c}, avoid adj (insert p F) c) := by
  ext a
  simp only [Set.mem_insert_iff, Set.mem_iUnion, exists_prop]
  constructor
  · rintro ⟨-, ha⟩
    induction ha with
    | refl => exact Or.inl rfl
    | @tail b c _ hbc ih =>
        by_cases hc : c = p
        · exact Or.inl hc
        · have hc' : c ∉ insert p F := by simp [hc, hbc.2]
          rcases ih with rfl | ⟨d, hd, hb⟩
          · exact Or.inr ⟨c, hbc.1, self_mem_avoid hc'⟩
          · exact Or.inr ⟨d, hd, avoid_closed hb hbc.1 hc'⟩
  · rintro (rfl | ⟨c, hc, ha⟩)
    · exact self_mem_avoid hp
    · have hc' : c ∉ F := fun h => ha.1 (Set.mem_insert_of_mem _ h)
      exact ⟨hp, Relation.ReflTransGen.head ⟨hc, hc'⟩ (avoid_anti (Set.subset_insert p F) c ha).2⟩

/-- **Second step**: what the search from `c` has marked hides from the search
from `d` only what has been found. -/
theorem avoid_union_avoid (F : Set α) (c d : α) :
    avoid adj F c ∪ avoid adj (F ∪ avoid adj F c) d = avoid adj F c ∪ avoid adj F d := by
  apply Set.Subset.antisymm
  · exact Set.union_subset_union_right _ (avoid_anti Set.subset_union_left d)
  · refine Set.union_subset Set.subset_union_left ?_
    rintro a ⟨hd, ha⟩
    induction ha with
    | refl =>
        by_cases h : d ∈ avoid adj F c
        · exact Or.inl h
        · exact Or.inr (self_mem_avoid fun h' => h'.elim hd h)
    | @tail b e _ hbe ih =>
        by_cases he : e ∈ avoid adj F c
        · exact Or.inl he
        · rcases ih with hb | hb
          · exact absurd (avoid_closed hb hbe.1 hbe.2) he
          · exact Or.inr (avoid_closed hb hbe.1 fun h' => h'.elim hbe.2 he)

/-- The search from a list of vertices, one after the other. -/
theorem avoid_union_list (F : Set α) (c : α) (cs : List α) :
    avoid adj F c ∪ ⋃ d ∈ cs, avoid adj (F ∪ avoid adj F c) d =
      ⋃ d ∈ c :: cs, avoid adj F d := by
  have h : ∀ a, (a ∈ avoid adj F c ∨ ∃ d ∈ cs, a ∈ avoid adj (F ∪ avoid adj F c) d) ↔
      (a ∈ avoid adj F c ∨ ∃ d ∈ cs, a ∈ avoid adj F d) := by
    intro a
    by_cases ha : a ∈ avoid adj F c
    · simp [ha]
    · refine or_congr_right (exists_congr fun d => and_congr_right fun _ => ?_)
      have := Set.ext_iff.mp (show avoid adj F c ∪ _ = _ from avoid_union_avoid F c d) a
      simpa [ha] using this
  ext a
  simpa [Set.mem_iUnion] using h a

end DirectedGraph
end CppDataStream
