/-
# The bounded queue as a sequential object

A queue of at most `cap` values.  `push` refuses a value only when the queue is full,
`pull`, `peek` and `drop` only when it is empty, and an operation that waits is never
refused.  `size` may miss one value.

In a linearizable history with one thread that pushes and one that takes, the values
taken so far are values pushed, in their order, none left out and none twice, and at
most `cap` more have been accepted (`fifo`).
-/

import CppDataStream.Library.Linearizability
import Mathlib.Data.List.Forall2

namespace CppDataStream
namespace BoundedQueue

open Linearizability

variable {α κ : Type*}

/-- The operations; `wait` says whether one waits until it can succeed. -/
inductive Op (α : Type*) where
  | push (v : α) (wait : Bool)
  | pull (wait : Bool)
  | peek
  | drop
  | size
  deriving DecidableEq

/-- The answers. -/
inductive Ret (α : Type*) where
  | ok
  | refused
  | value (v : α)
  | size (n : ℕ)
  deriving DecidableEq

/-- What a queue of at most `cap` values may answer. -/
inductive Legal (cap : ℕ) : List α → Op α → Ret α → List α → Prop
  | push {q v wait} (h : q.length < cap) : Legal cap q (.push v wait) .ok (q ++ [v])
  | full {q v} (h : q.length = cap) : Legal cap q (.push v false) .refused q
  | pull {v q wait} : Legal cap (v :: q) (.pull wait) (.value v) q
  | empty : Legal cap [] (.pull false) .refused []
  | peek {v q} : Legal cap (v :: q) .peek (.value v) (v :: q)
  | peekEmpty : Legal cap [] .peek .refused []
  | drop {v q} : Legal cap (v :: q) .drop .ok q
  | dropEmpty : Legal cap [] .drop .refused []
  | size {q n} (h : n ≤ q.length) (h' : q.length ≤ n + 1) : Legal cap q .size (.size n) q

/-- A push appends its value, or is refused. -/
theorem Legal.of_push {cap : ℕ} {q q' : List α} {v : α} {wait : Bool} {r : Ret α}
    (h : Legal cap q (.push v wait) r q') :
    (r = .ok ∧ q.length < cap ∧ q' = q ++ [v]) ∨ (r = .refused ∧ q' = q) := by
  cases h with
  | push h => exact Or.inl ⟨rfl, h, rfl⟩
  | full => exact Or.inr ⟨rfl, rfl⟩

/-- An operation that waits for a value takes the first one. -/
theorem Legal.of_pull {cap : ℕ} {q q' : List α} {r : Ret α} (h : Legal cap q (.pull true) r q') :
    ∃ v, r = .value v ∧ q = v :: q' := by
  cases h with
  | pull => exact ⟨_, rfl, rfl⟩

/-! ### First in, first out -/

/-- The values of the accepted pushes. -/
def accepted (ps : List (Op α × Ret α)) : List α :=
  ps.filterMap fun
    | (.push v _, .ok) => some v
    | _ => none

/-- The values taken from the queue; `none` for one that was dropped unseen. -/
def takes (ps : List (Op α × Ret α)) : List (Option α) :=
  ps.filterMap fun
    | (.pull _, .value v) => some (some v)
    | (.drop, .ok) => some none
    | _ => none

/-- The values of pushes. -/
def values (ops : List (Op α)) : List α :=
  ops.filterMap fun
    | .push v _ => some v
    | _ => none

def Op.isPush : Op α → Bool
  | .push .. => true
  | _ => false

def Op.isTake : Op α → Bool
  | .pull _ | .drop => true
  | _ => false

/-- What is known of a value that was taken. -/
def Matches (o : Option α) (v : α) : Prop := ∀ w ∈ o, w = v

/-- What two runs of operations accept is what each accepts. -/
theorem accepted_append (ps qs : List (Op α × Ret α)) :
    accepted (ps ++ qs) = accepted ps ++ accepted qs :=
  List.filterMap_append ..

/-- What they take is what each takes. -/
theorem takes_append (ps qs : List (Op α × Ret α)) : takes (ps ++ qs) = takes ps ++ takes qs :=
  List.filterMap_append ..

/-- **Nothing is lost or made up**: what was queued and what is accepted is what is taken
and what stays. -/
theorem Legal.accepted_takes {cap : ℕ} {q q' : List α} {op : Op α} {r : Ret α}
    (h : Legal cap q op r q') :
    ∃ vs, q ++ accepted [(op, r)] = vs ++ q' ∧ List.Forall₂ Matches (takes [(op, r)]) vs := by
  cases h with
  | push => exact ⟨[], rfl, .nil⟩
  | @pull v _ _ =>
      exact ⟨[v], List.append_nil _, .cons (fun w hw => (Option.some.inj hw).symm) .nil⟩
  | @drop v _ => exact ⟨[v], List.append_nil _, .cons (fun w hw => nomatch hw) .nil⟩
  | full | empty | peek | peekEmpty | dropEmpty | size => exact ⟨[], List.append_nil _, .nil⟩

/-- **The capacity is kept.** -/
theorem Legal.length_le {cap : ℕ} {q q' : List α} {op : Op α} {r : Ret α} (h : Legal cap q op r q')
    (hq : q.length ≤ cap) : q'.length ≤ cap := by
  cases h with
  | push h => rw [List.length_append]; exact h
  | pull | drop => exact Nat.le_of_succ_le hq
  | full | empty | peek | peekEmpty | dropEmpty | size => exact hq

/-- Only a push is accepted. -/
theorem accepted_eq_nil {op : Op α} (h : op.isPush = false) (r : Ret α) : accepted [(op, r)] = [] := by
  cases op with
  | push v wait => exact absurd h (by simp [Op.isPush])
  | pull | peek | drop | size => rfl

/-- Only `pull` and `drop` take a value. -/
theorem takes_eq_nil {op : Op α} (h : op.isTake = false) (r : Ret α) : takes [(op, r)] = [] := by
  cases op with
  | pull | drop => exact absurd h (by simp [Op.isTake])
  | push | peek | size => rfl

variable [DecidableEq κ] {cap : ℕ} {p c : κ}

/-- In a run of the atomic queue in which only `p` pushes and only `c` takes, the
values that `p` has pushed are those that `c` has taken and those in the queue. -/
theorem path_fifo {a : Atomic κ (Op α) (Ret α) (List α)} {as : List (Action κ (Op α) (Ret α))}
    (h : Path (Legal cap) (Atomic.init []) as a)
    (hp : ∀ t, t ≠ p → ∀ op ∈ ops t (history as), op.isPush = false)
    (hc : ∀ t, t ≠ c → ∀ op ∈ ops t (history as), op.isTake = false) :
    a.obj.length ≤ cap ∧ ∃ vs, accepted (points p as) = vs ++ a.obj ∧
      List.Forall₂ Matches (takes (points c as)) vs := by
  induction h with
  | refl => exact ⟨Nat.zero_le _, [], rfl, .nil⟩
  | @tail as x a a' h hstep ih =>
      have hmem {t op} (hop : op ∈ ops t (history as)) : op ∈ ops t (history (as ++ [x])) := by
        rw [history_append, ops_append]
        exact List.mem_append_left _ hop
      obtain ⟨hlen, vs, hvs, hall⟩ := ih (fun t ht op hop => hp t ht op (hmem hop))
        fun t ht op hop => hc t ht op (hmem hop)
      rw [points_append, points_append, accepted_append, takes_append, hvs]
      cases hstep with
      | call t op _ | answer t op r _ =>
          exact ⟨hlen, vs, List.append_nil _, (List.append_nil (takes (points c as))).symm ▸ hall⟩
      | point t op r q' hcalled hlegal =>
          obtain ⟨ps, -, -, hops⟩ := h.exists_points t
          have hop : op ∈ ops t (history as) := by
            rw [hops, hcalled]
            simp [Phase.open]
          have hpush : accepted (points p [.point t op r]) = accepted [(op, r)] := by
            rcases eq_or_ne t p with rfl | ht
            · simp [points]
            · simp [points, ht, accepted_eq_nil (hp t ht op (hmem hop))]
              rfl
          have htake : takes (points c [.point t op r]) = takes [(op, r)] := by
            rcases eq_or_ne t c with rfl | ht
            · simp [points]
            · simp [points, ht, takes_eq_nil (hc t ht op (hmem hop))]
              rfl
          obtain ⟨ws, hws, hws'⟩ := hlegal.accepted_takes
          refine ⟨hlegal.length_le hlen, vs ++ ws, ?_, ?_⟩
          · rw [hpush, List.append_assoc, hws, List.append_assoc]
          · rw [htake]
            exact List.rel_append hall hws'

/-- The push that a thread waits for may have taken effect. -/
theorem accepted_isPrefix_values (p : Phase (Op α) (Ret α)) :
    accepted p.unanswered <+: values (p.unanswered.map Prod.fst ++ p.open) := by
  cases p with
  | idle | called => exact List.nil_prefix
  | done op r => cases op <;> cases r <;> first | exact List.prefix_rfl | exact List.nil_prefix

/-- **First in, first out.**  In a linearizable history in which only `p` pushes and
only `c` takes, what `c` has taken are the first of the values that `p` has pushed,
where the push that `p` waits for may count already; and at most `cap` values more
have been accepted, or one more while `c` waits for an answer. -/
theorem fifo {h : List (Visible κ (Op α) (Ret α))} (hlin : Linearizable (Legal cap) [] h)
    (hp : ∀ t, t ≠ p → ∀ op ∈ ops t h, op.isPush = false)
    (hc : ∀ t, t ≠ c → ∀ op ∈ ops t h, op.isTake = false) :
    ∃ vs, vs <+: accepted (completed p h) ++ values (pending p h) ∧
      List.Forall₂ Matches (takes (completed c h)) vs ∧
      (accepted (completed p h)).length ≤ vs.length + cap + (pending c h).length := by
  obtain ⟨as, a, hpath, rfl⟩ := hlin
  obtain ⟨hlen, vs, hvs, hall⟩ := path_fifo hpath hp hc
  rw [hpath.points_eq, accepted_append] at hvs
  rw [hpath.points_eq, takes_append] at hall
  have hlen₁ := congrArg List.length hvs
  have hlen₂ := hall.length_eq
  have hlen₃ : (takes (a.phase c).unanswered).length ≤ (pending c (history as)).length := by
    rw [hpath.pending_eq, List.length_append, List.length_map]
    exact Nat.le_add_right_of_le (List.length_filterMap_le _ _)
  have htake := List.forall₂_take (takes (completed c (history as))).length hall
  rw [List.take_left] at htake
  have hlen₄ := htake.length_eq
  simp only [List.length_append] at hlen₁ hlen₂
  refine ⟨_, ?_, htake, by omega⟩
  have hpushed : vs <+: accepted (completed p (history as)) ++ accepted (a.phase p).unanswered :=
    ⟨a.obj, hvs.symm⟩
  rw [hpath.pending_eq]
  exact ((List.take_prefix ..).trans hpushed).trans
    ((List.prefix_append_right_inj _).mpr (accepted_isPrefix_values _))

end BoundedQueue
end CppDataStream
