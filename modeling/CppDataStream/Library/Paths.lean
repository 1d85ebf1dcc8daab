/-
# Paths of an ordered graph, in lexicographic order

A graph with ordered connections gives every vertex the list of its successors,
parallel connections included.  A path from `a` is then the list of the positions
it takes (`walk`), so two paths through parallel connections differ, and the
lexicographic order of position lists is the order in which a depth-first
traversal of the unfolded graph meets them.  `PathsInOrder next a b ps` says that
`ps` lists all paths from `a` to `b`, each once, in this order.

`along` composes a function per vertex along a path.
-/

import Mathlib.Data.List.Basic
import Mathlib.Order.Lattice
import Mathlib.Data.List.Sort
import Mathlib.Data.List.Lex
import Mathlib.Logic.Relation

namespace CppDataStream
namespace Paths

variable {α β : Type*}

/-- The vertex to which a path leads, if the path exists. -/
def walk (next : α → List α) : α → List ℕ → Option α
  | a, [] => some a
  | a, k :: ks => (next a)[k]?.bind fun c => walk next c ks

/-- The composition of the functions `f` of the vertices along a path, the first
vertex first. -/
def along (next : α → List α) (f : α → β → β) : α → List ℕ → β → β
  | a, [], b => f a b
  | a, k :: ks, b =>
      match (next a)[k]? with
      | some c => along next f c ks (f a b)
      | none => f a b

variable {next : α → List α}

/-- A walk takes its first edge, and walks on from there. -/
theorem walk_cons {a c : α} {k : ℕ} (h : (next a)[k]? = some c) (ks : List ℕ) :
    walk next a (k :: ks) = walk next c ks := by
  rw [walk, h, Option.bind_some]

/-- The function of the first vertex is applied first. -/
theorem along_cons {f : α → β → β} {a c : α} {k : ℕ} (h : (next a)[k]? = some c) (ks : List ℕ)
    (b : β) : along next f a (k :: ks) b = along next f c ks (f a b) := by
  rw [along, h]

/-- A path leads along edges. -/
theorem reachable_of_walk : ∀ {π : List ℕ} {a b : α}, walk next a π = some b →
    Relation.ReflTransGen (fun a b => b ∈ next a) a b
  | [], _, _, h => Option.some.inj h ▸ Relation.ReflTransGen.refl
  | k :: ks, a, b, h => by
      obtain ⟨c, hc, h⟩ := Option.bind_eq_some_iff.mp h
      exact Relation.ReflTransGen.head (List.mem_of_getElem? hc) (reachable_of_walk h)

/-- Edges make paths. -/
theorem exists_walk {a b : α} (h : Relation.ReflTransGen (fun a b => b ∈ next a) a b) :
    ∃ π, walk next a π = some b := by
  induction h using Relation.ReflTransGen.head_induction_on with
  | refl => exact ⟨[], rfl⟩
  | head hac _ ih =>
      obtain ⟨π, hπ⟩ := ih
      obtain ⟨k, hk⟩ := List.mem_iff_getElem?.mp hac
      exact ⟨k :: π, (walk_cons hk π).trans hπ⟩

/-- All paths from `a` to `b`, each once, in lexicographic order. -/
structure PathsInOrder (next : α → List α) (a b : α) (ps : List (List ℕ)) : Prop where
  sorted : ps.Pairwise (· < ·)
  mem_iff : ∀ π, π ∈ ps ↔ walk next a π = some b

/-- The paths through one successor after those through earlier ones. -/
theorem pairwise_lt_cons {k : ℕ} {ps ps' : List (List ℕ)} (h : ps.Pairwise (· < ·))
    (h' : ps'.Pairwise (· < ·)) (hk : ∀ π ∈ ps', ∃ j π', π = j :: π' ∧ k < j) :
    (ps.map (k :: ·) ++ ps').Pairwise (· < ·) := by
  refine List.pairwise_append.mpr ⟨?_, h', ?_⟩
  · exact List.pairwise_map.mpr (h.imp fun hlt => List.cons_lt_cons_iff.mpr (Or.inr ⟨rfl, hlt⟩))
  · intro π hπ π' hπ'
    obtain ⟨π₀, -, rfl⟩ := List.mem_map.mp hπ
    obtain ⟨j, π₁, rfl, hj⟩ := hk π' hπ'
    exact List.cons_lt_cons_iff.mpr (Or.inl hj)

end Paths
end CppDataStream
