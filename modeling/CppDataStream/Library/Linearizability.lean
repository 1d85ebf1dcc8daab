/-
# Linearizable objects

Threads call the operations of a shared object and are answered some time later.
`spec q op r q'` says that a sequential object in the state `q` may answer `op`
with `r` and is then in the state `q'`.  The *atomic object* has one point between
the call and the answer of an operation at which it takes effect as `spec` says.  A
history of calls and answers is linearizable if it is the history of a run of the
atomic object: the points are then a sequential run, in an order that agrees with
the order of calls and answers.

A system whose every step can be followed by the atomic object has only
linearizable histories (`Simulates.linearizable`); most steps are followed by
nothing or by one point, and then it is enough to say what each step is in the eyes of
its thread (`Moves`, `simulates_of_moves`).  In a run of the atomic object the points of one
thread are the operations it was answered, in their order, and perhaps one that it
waits for (`Path.points_eq`, `Path.pending_eq`).
-/

import Mathlib.Logic.Function.Basic
import Mathlib.Data.List.Basic
import Mathlib.Tactic.Common

namespace CppDataStream
namespace Linearizability

variable {κ Op Ret Q σ : Type*}

/-- What the threads see of a shared object. -/
inductive Visible (κ Op Ret : Type*) where
  | call (t : κ) (op : Op)
  | answer (t : κ) (r : Ret)

/-- Something visible, or the point at which an operation takes effect. -/
inductive Action (κ Op Ret : Type*) where
  | visible (e : Visible κ Op Ret)
  | point (t : κ) (op : Op) (r : Ret)

/-- Where a thread is. -/
inductive Phase (Op Ret : Type*) where
  | idle
  | called (op : Op)
  | done (op : Op) (r : Ret)

/-- The state of an atomic object. -/
@[ext] structure Atomic (κ Op Ret Q : Type*) where
  obj : Q
  phase : κ → Phase Op Ret

/-- No thread has called anything. -/
def Atomic.init (q : Q) : Atomic κ Op Ret Q := ⟨q, fun _ => .idle⟩

/-- The history of a run. -/
def history (as : List (Action κ Op Ret)) : List (Visible κ Op Ret) :=
  as.filterMap fun
    | .visible e => some e
    | .point .. => none

/-- The history of two runs is that of one after that of the other. -/
theorem history_append (as bs : List (Action κ Op Ret)) :
    history (as ++ bs) = history as ++ history bs := List.filterMap_append ..

section Atomic

variable [DecidableEq κ] {spec : Q → Op → Ret → Q → Prop}

/-- A step of the atomic object. -/
inductive Atomic.Step (spec : Q → Op → Ret → Q → Prop) :
    Atomic κ Op Ret Q → Action κ Op Ret → Atomic κ Op Ret Q → Prop
  | call {c : Atomic κ Op Ret Q} (t : κ) (op : Op) (h : c.phase t = .idle) :
      Step spec c (.visible (.call t op)) ⟨c.obj, Function.update c.phase t (.called op)⟩
  | point {c : Atomic κ Op Ret Q} (t : κ) (op : Op) (r : Ret) (q : Q) (h : c.phase t = .called op)
      (hq : spec c.obj op r q) :
      Step spec c (.point t op r) ⟨q, Function.update c.phase t (.done op r)⟩
  | answer {c : Atomic κ Op Ret Q} (t : κ) (op : Op) (r : Ret) (h : c.phase t = .done op r) :
      Step spec c (.visible (.answer t r)) ⟨c.obj, Function.update c.phase t .idle⟩

/-- A run of the atomic object. -/
inductive Path (spec : Q → Op → Ret → Q → Prop) (c : Atomic κ Op Ret Q) :
    List (Action κ Op Ret) → Atomic κ Op Ret Q → Prop
  | refl : Path spec c [] c
  | tail {as a c' c''} (h : Path spec c as c') (hstep : Atomic.Step spec c' a c'') :
      Path spec c (as ++ [a]) c''

/-- One step is a run. -/
theorem Path.single {c c' : Atomic κ Op Ret Q} {a : Action κ Op Ret} (h : Atomic.Step spec c a c') :
    Path spec c [a] c' := .tail .refl h

/-- A run can be continued by another. -/
theorem Path.append {c c' c'' : Atomic κ Op Ret Q} {as bs : List (Action κ Op Ret)}
    (h : Path spec c as c') (h' : Path spec c' bs c'') : Path spec c (as ++ bs) c'' := by
  induction h' with
  | refl => rwa [List.append_nil]
  | tail _ hstep ih => rw [← List.append_assoc]; exact ih.tail hstep

/-- **Linearizable histories** of an object that is at first in the state `q`. -/
def Linearizable (spec : Q → Op → Ret → Q → Prop) (q : Q) (h : List (Visible κ Op Ret)) : Prop :=
  ∃ as c, Path spec (Atomic.init q) as c ∧ history as = h

/-! ### Simulation -/

/-- A run of a system, some of whose steps are visible. -/
inductive Run (step : σ → Option (Visible κ Op Ret) → σ → Prop) (s : σ) :
    List (Visible κ Op Ret) → σ → Prop
  | refl : Run step s [] s
  | tail {h l s' s''} (hrun : Run step s h s') (hstep : step s' l s'') : Run step s (h ++ l.toList) s''

/-- The system with its history as part of the state, in which every history is `ok`. -/
def WithHistory (step : σ → Option (Visible κ Op Ret) → σ → Prop) (ok : List (Visible κ Op Ret) → Prop) :
    σ × List (Visible κ Op Ret) → Option (Visible κ Op Ret) → σ × List (Visible κ Op Ret) → Prop :=
  fun x l y => step x.1 l y.1 ∧ y.2 = x.2 ++ l.toList ∧ ok y.2

omit [DecidableEq κ] in
/-- A run in which every history is `ok` is one of the system with histories. -/
theorem Run.withHistory {step : σ → Option (Visible κ Op Ret) → σ → Prop}
    {ok : List (Visible κ Op Ret) → Prop} {s s' : σ} {h : List (Visible κ Op Ret)}
    (hrun : Run step s h s') (hok : ∀ h', h' <+: h → ok h') :
    Run (WithHistory step ok) (s, []) h (s', h) := by
  induction hrun with
  | refl => exact .refl
  | tail _ hstep ih =>
      have hpart := ih fun h' hh' => hok h' (hh'.trans (List.prefix_append ..))
      exact hpart.tail ⟨hstep, rfl, hok _ List.prefix_rfl⟩

/-- The atomic object can follow every step. -/
def Simulates (step : σ → Option (Visible κ Op Ret) → σ → Prop) (spec : Q → Op → Ret → Q → Prop)
    (R : σ → Atomic κ Op Ret Q → Prop) : Prop :=
  ∀ s c l s', R s c → step s l s' → ∃ as c', Path spec c as c' ∧ history as = l.toList ∧ R s' c'

/-- **The atomic object can follow every run**, with the same history. -/
theorem Simulates.run {step : σ → Option (Visible κ Op Ret) → σ → Prop}
    {R : σ → Atomic κ Op Ret Q → Prop} (hsim : Simulates step spec R) {s s' : σ}
    {c : Atomic κ Op Ret Q} {h : List (Visible κ Op Ret)} (hR : R s c) (hrun : Run step s h s') :
    ∃ as c', Path spec c as c' ∧ history as = h ∧ R s' c' := by
  induction hrun with
  | refl => exact ⟨[], c, .refl, rfl, hR⟩
  | tail _ hstep ih =>
      obtain ⟨as, c', has, rfl, hR'⟩ := ih
      obtain ⟨bs, c'', hbs, hl, hR''⟩ := hsim _ _ _ _ hR' hstep
      exact ⟨as ++ bs, c'', has.append hbs, by rw [history_append, hl], hR''⟩

/-- **A simulated system has only linearizable histories.** -/
theorem Simulates.linearizable {step : σ → Option (Visible κ Op Ret) → σ → Prop}
    {R : σ → Atomic κ Op Ret Q → Prop} (hsim : Simulates step spec R) {s s' : σ} {q : Q}
    {h : List (Visible κ Op Ret)} (hR : R s (.init q)) (hrun : Run step s h s') :
    Linearizable spec q h := by
  obtain ⟨as, c, hpath, hh, -⟩ := hsim.run hR hrun
  exact ⟨as, c, hpath, hh⟩

/-- What a step may be in the eyes of the thread `t` that makes it: its call, its
answer, the point of its operation, or nothing. -/
inductive Moves (spec : Q → Op → Ret → Q → Prop) (t : κ) :
    Option (Visible κ Op Ret) → Q → Phase Op Ret → Q → Phase Op Ret → Prop
  | call (op q) : Moves spec t (some (.call t op)) q .idle q (.called op)
  | answer (op r q) : Moves spec t (some (.answer t r)) q (.done op r) q .idle
  | point {op r q q'} (h : spec q op r q') : Moves spec t none q (.called op) q' (.done op r)
  | stay (q p) : Moves spec t none q p q p

/-- A system is simulated if every step moves one thread. -/
theorem simulates_of_moves {step : σ → Option (Visible κ Op Ret) → σ → Prop}
    {phase : σ → κ → Phase Op Ret} {I : σ → Q → Prop}
    (hmoves : ∀ s q l s', I s q → step s l s' → ∃ t q' p', Moves spec t l q (phase s t) q' p' ∧
      phase s' = Function.update (phase s) t p' ∧ I s' q') :
    Simulates step spec fun s c => I s c.obj ∧ c.phase = phase s := by
  rintro s ⟨q, _⟩ l s' ⟨hI, rfl⟩ hstep
  obtain ⟨t, q', p', hmove, hphase, hI'⟩ := hmoves s q l s' hI hstep
  generalize hp : phase s t = p at hmove
  cases hmove with
  | call op => exact ⟨_, _, .single (.call t op hp), rfl, hI', hphase.symm⟩
  | answer op r => exact ⟨_, _, .single (.answer t op r hp), rfl, hI', hphase.symm⟩
  | point h => exact ⟨_, _, .single (.point t _ _ _ hp h), rfl, hI', hphase.symm⟩
  | stay => exact ⟨[], _, .refl, rfl, hI', by rw [hphase, ← hp, Function.update_eq_self]⟩

end Atomic

/-! ### What one thread does -/

section Thread

variable [DecidableEq κ]

/-- What `t` has called. -/
def ops (t : κ) (h : List (Visible κ Op Ret)) : List Op :=
  h.filterMap fun
    | .call t' op => if t' = t then some op else none
    | .answer .. => none

/-- What `t` was answered. -/
def answers (t : κ) (h : List (Visible κ Op Ret)) : List Ret :=
  h.filterMap fun
    | .call .. => none
    | .answer t' r => if t' = t then some r else none

/-- The operations of `t` that were answered, with their answers. -/
def completed (t : κ) (h : List (Visible κ Op Ret)) : List (Op × Ret) := (ops t h).zip (answers t h)

/-- The operation of `t` that was not answered yet. -/
def pending (t : κ) (h : List (Visible κ Op Ret)) : List Op := (ops t h).drop (answers t h).length

/-- The points of `t`. -/
def points (t : κ) (as : List (Action κ Op Ret)) : List (Op × Ret) :=
  as.filterMap fun
    | .visible _ => none
    | .point t' op r => if t' = t then some (op, r) else none

/-- An operation that has been called and has no point. -/
def Phase.open : Phase Op Ret → List Op
  | .called op => [op]
  | .idle | .done .. => []

/-- An operation that has a point and was not answered. -/
def Phase.unanswered : Phase Op Ret → List (Op × Ret)
  | .done op r => [(op, r)]
  | .idle | .called _ => []

/-- The operations called in two histories are those of each. -/
theorem ops_append (t : κ) (h h' : List (Visible κ Op Ret)) : ops t (h ++ h') = ops t h ++ ops t h' :=
  List.filterMap_append ..

/-- They are those with a call in the history. -/
theorem mem_ops {t : κ} {op : Op} {h : List (Visible κ Op Ret)} : op ∈ ops t h ↔ .call t op ∈ h := by
  rw [ops, List.mem_filterMap]
  constructor
  · rintro ⟨e, he, heq⟩
    cases e with
    | call t' op' =>
        obtain ⟨rfl, hop⟩ := Option.ite_none_right_eq_some.mp heq
        exact Option.some.inj hop ▸ he
    | answer t' r => exact absurd heq (by simp)
  · exact fun he => ⟨_, he, if_pos rfl⟩

/-- So are the answers of two histories. -/
theorem answers_append (t : κ) (h h' : List (Visible κ Op Ret)) :
    answers t (h ++ h') = answers t h ++ answers t h' := List.filterMap_append ..

/-- So are the points of two runs. -/
theorem points_append (t : κ) (as bs : List (Action κ Op Ret)) :
    points t (as ++ bs) = points t as ++ points t bs := List.filterMap_append ..

variable {spec : Q → Op → Ret → Q → Prop}

/-- The points of a thread are those of the operations it was answered, and perhaps
one more. -/
theorem Path.exists_points {q : Q} {c : Atomic κ Op Ret Q} {as : List (Action κ Op Ret)}
    (h : Path spec (Atomic.init q) as c) (t : κ) :
    ∃ ps, points t as = ps ++ (c.phase t).unanswered ∧ answers t (history as) = ps.map Prod.snd ∧
      ops t (history as) =
        ps.map Prod.fst ++ ((c.phase t).unanswered.map Prod.fst ++ (c.phase t).open) := by
  induction h with
  | refl => exact ⟨[], rfl, rfl, rfl⟩
  | @tail as a c' c'' _ hstep ih =>
      obtain ⟨ps, hp, ha, ho⟩ := ih
      rw [history_append, ops_append, answers_append, points_append, hp, ha, ho]
      cases hstep with
      | call t' op h | point t' op r q' h =>
          refine ⟨ps, ?_⟩
          rcases eq_or_ne t' t with rfl | hne
          · simp [history, ops, answers, points, Phase.open, Phase.unanswered, h]
          · simp [history, ops, answers, points, hne, hne.symm]
      | answer t' op r h =>
          rcases eq_or_ne t' t with rfl | hne
          · exact ⟨ps ++ [(op, r)],
              by simp [history, ops, answers, points, Phase.open, Phase.unanswered, h]⟩
          · exact ⟨ps, by simp [history, ops, answers, points, hne, hne.symm]⟩

/-- **The points of a thread are its completed operations**, and perhaps one that is still
to be answered. -/
theorem Path.points_eq {q : Q} {c : Atomic κ Op Ret Q} {as : List (Action κ Op Ret)}
    (h : Path spec (Atomic.init q) as c) (t : κ) :
    points t as = completed t (history as) ++ (c.phase t).unanswered := by
  obtain ⟨ps, hp, ha, ho⟩ := h.exists_points t
  have hzip (l : List Op) : (ps.map Prod.fst ++ l).zip (ps.map Prod.snd) = ps := by
    rw [← List.append_nil (ps.map Prod.snd), List.zip_append (by simp), List.zip_nil_right,
      List.append_nil]
    exact (List.zip_of_prod rfl rfl).symm
  rw [hp, completed, ha, ho, hzip]

/-- An operation that was not answered has its point, or is still open. -/
theorem Path.pending_eq {q : Q} {c : Atomic κ Op Ret Q} {as : List (Action κ Op Ret)}
    (h : Path spec (Atomic.init q) as c) (t : κ) :
    pending t (history as) = (c.phase t).unanswered.map Prod.fst ++ (c.phase t).open := by
  obtain ⟨ps, -, ha, ho⟩ := h.exists_points t
  rw [pending, ha, ho]
  exact List.drop_left' (by simp)

end Thread

end Linearizability
end CppDataStream
