/-
# `StreamProcessor::pushData` on one thread

`include/cppdatastream/DataStream.hpp`, lines 255-283.  A push of a block into
processor `n` returns at once if `_had_error` is set.  Otherwise it calls
`processData`, sets `_had_error` if the output is an EOP block of type
`EopError`, calls every visitor with the output, and pushes the output into every
connected processor, each call returning before the next starts.  An exception
thrown by a visitor leaves all these loops.

`pushData G vis fuel` is that recursion with the depth of the call stack bounded
by `fuel`: it is `none` exactly when the recursion goes deeper, and its result
does not depend on the fuel otherwise (`pushData_mono`).  On a graph whose
connections are well-founded there is a depth that every push stays within
(`exists_fuel`).  `pushData_induct` is the induction over the call tree that the
theorems about the synchronous pipeline use; for a property of runs that is
closed under sequencing (`Composable`) it needs the part of a call before the
loop over `processors` only (`Composable.pushData`).
-/

import CppDataStream.Graph
import CppDataStream.Sync.Visitor
import Mathlib.Order.WellFounded

namespace CppDataStream

/-- The state of a graph: the members of the derived classes, the flags
`_had_error`, the visitors. -/
structure PushState (ι V σ ν : Type*) where
  priv : ι → σ
  hadError : ι → Bool
  visitor : V → VisitorState ν

/-- The outcome of a call: the state it leaves, what it did, and the exception
it ended in, if any. -/
structure Run (ι V T σ ν : Type*) where
  state : PushState ι V σ ν
  events : List (Event ι V T)
  thrown : Option Exn

variable {ι V T σ ν : Type*}

/-- Sequencing: after an exception nothing more is done. -/
def Run.andThen (r : Run ι V T σ ν) (f : PushState ι V σ ν → Option (Run ι V T σ ν)) :
    Option (Run ι V T σ ν) :=
  match r.thrown with
  | some _ => some r
  | none => (f r.state).map fun r' => { r' with events := r.events ++ r'.events }

variable [DecidableEq ι] [DecidableEq V]

/-- `processData` and the error test: the state after them, and the output. -/
def Graph.process (G : Graph ι V T σ) (n : ι) (sdb : SharedDataBlock T)
    (s : PushState ι V σ ν) : PushState ι V σ ν × SharedDataBlock T :=
  let (priv', output) := G.processData n (s.priv n) sdb
  ({ s with
      priv := Function.update s.priv n priv'
      hadError := if output.isEopError then Function.update s.hadError n true else s.hadError },
    output)

/-- The loop over `visitors`.  The returned flag only selects a log message. -/
def visitVisitors (vis : V → StreamVisitor T ν) (n : ι) (output : SharedDataBlock T) :
    ℕ → List V → PushState ι V σ ν → Run ι V T σ ν
  | _, [], s => ⟨s, [], none⟩
  | k, v :: vs, s =>
      match (vis v).visitData (s.visitor v) output with
      | .error e => ⟨s, [.visit n k v output], some e⟩
      | .ok (st, _) =>
          let r := visitVisitors vis n output (k + 1) vs
            { s with visitor := Function.update s.visitor v st }
          { r with events := .visit n k v output :: r.events }

/-- The loop over `processors`, with `push` the call of `pushData`. -/
def pushProcessors
    (push : Source ι → ι → SharedDataBlock T → PushState ι V σ ν → Option (Run ι V T σ ν))
    (n : ι) (output : SharedDataBlock T) :
    ℕ → List ι → PushState ι V σ ν → Option (Run ι V T σ ν)
  | _, [], s => some ⟨s, [], none⟩
  | k, c :: cs, s =>
      (push (.connection n k) c output s).bind fun r =>
        r.andThen (pushProcessors push n output (k + 1) cs)

/-- `StreamProcessor::pushData` called by `src`. -/
def pushData (G : Graph ι V T σ) (vis : V → StreamVisitor T ν) :
    ℕ → Source ι → ι → SharedDataBlock T → PushState ι V σ ν → Option (Run ι V T σ ν)
  | 0, _, _, _, _ => none
  | fuel + 1, src, n, sdb, s =>
      if s.hadError n then some ⟨s, [.call src n sdb, .skip n sdb], none⟩
      else
        let (s', output) := G.process n sdb s
        let visited := visitVisitors vis n output 0 (G.visitors n) s'
        Run.andThen
          { visited with
            events := .call src n sdb :: .process n sdb output :: visited.events }
          (pushProcessors (pushData G vis fuel) n output 0 (G.processors n))

/-- The application pushes blocks into elements of its choice, one call after the
other; an exception that leaves `pushData` ends the sequence. -/
def pushSequence (G : Graph ι V T σ) (vis : V → StreamVisitor T ν) (fuel : ℕ) :
    List (ι × SharedDataBlock T) → PushState ι V σ ν → Option (Run ι V T σ ν)
  | [], s => some ⟨s, [], none⟩
  | (n, sdb) :: pushes, s =>
      (pushData G vis fuel .external n sdb s).bind fun r =>
        r.andThen (pushSequence G vis fuel pushes)

/-! ### Sequencing -/

omit [DecidableEq ι] [DecidableEq V] in
/-- A run goes on after another one unless that has thrown. -/
theorem Run.andThen_eq_some {r : Run ι V T σ ν} {f : PushState ι V σ ν → Option (Run ι V T σ ν)}
    {r'' : Run ι V T σ ν} :
    r.andThen f = some r'' ↔
      (∃ e, r.thrown = some e ∧ r'' = r) ∨
      (r.thrown = none ∧ ∃ r', f r.state = some r' ∧
        r'' = { r' with events := r.events ++ r'.events }) := by
  unfold Run.andThen
  cases h : r.thrown with
  | some e =>
      simp only [Option.some.injEq, reduceCtorEq, false_and, or_false]
      exact ⟨fun hr => ⟨e, trivial, hr.symm⟩, fun ⟨_, _, hr⟩ => hr.symm⟩
  | none => simp [eq_comm]

omit [DecidableEq ι] [DecidableEq V] in
/-- After a run that has returned comes the other. -/
theorem Run.andThen_of_returned {r : Run ι V T σ ν} (h : r.thrown = none)
    (f : PushState ι V σ ν → Option (Run ι V T σ ν)) :
    r.andThen f = (f r.state).map fun r' => { r' with events := r.events ++ r'.events } := by
  unfold Run.andThen
  rw [h]

omit [DecidableEq ι] [DecidableEq V] in
/-- If what comes after has enough fuel, both have. -/
theorem Run.isSome_andThen {r : Run ι V T σ ν} {f : PushState ι V σ ν → Option (Run ι V T σ ν)}
    (h : ∀ s, (f s).isSome) : (r.andThen f).isSome := by
  unfold Run.andThen
  cases r.thrown with
  | some e => rfl
  | none => simpa using h r.state

section Loop

variable {push push' : Source ι → ι → SharedDataBlock T → PushState ι V σ ν → Option (Run ι V T σ ν)}
  {n : ι} {output : SharedDataBlock T}

omit [DecidableEq ι] [DecidableEq V] in
/-- The loop makes the same run if its pushes do. -/
theorem pushProcessors_mono
    (h : ∀ src c sdb s r, push src c sdb s = some r → push' src c sdb s = some r) :
    ∀ {cs : List ι} {k : ℕ} {s : PushState ι V σ ν} {r : Run ι V T σ ν},
      pushProcessors push n output k cs s = some r → pushProcessors push' n output k cs s = some r
  | [], _, _, _, hr => hr
  | c :: cs, k, s, r, hr => by
      obtain ⟨r₁, h₁, hr⟩ := Option.bind_eq_some_iff.mp hr
      refine Option.bind_eq_some_iff.mpr ⟨r₁, h _ _ _ _ _ h₁, ?_⟩
      rcases Run.andThen_eq_some.mp hr with hr | ⟨ht, r₂, h₂, rfl⟩
      · exact Run.andThen_eq_some.mpr (Or.inl hr)
      · exact Run.andThen_eq_some.mpr (Or.inr ⟨ht, r₂, pushProcessors_mono h h₂, rfl⟩)

omit [DecidableEq ι] [DecidableEq V] in
/-- The loop has enough fuel if its pushes have. -/
theorem isSome_pushProcessors :
    ∀ {cs : List ι}, (∀ c ∈ cs, ∀ src s, (push src c output s).isSome) →
      ∀ (k : ℕ) (s : PushState ι V σ ν), (pushProcessors push n output k cs s).isSome
  | [], _, _, _ => rfl
  | c :: cs, h, k, s => by
      obtain ⟨r, hr⟩ := Option.isSome_iff_exists.mp (h c (List.mem_cons_self ..) (.connection n k) s)
      rw [pushProcessors, hr]
      exact Run.isSome_andThen
        (isSome_pushProcessors (fun c' hc' => h c' (List.mem_cons_of_mem _ hc')) (k + 1))

end Loop

/-! ### One call -/

/-- The part of a call that is not skipped before the loop over `processors`. -/
def Graph.visited (G : Graph ι V T σ) (vis : V → StreamVisitor T ν) (src : Source ι) (n : ι)
    (sdb : SharedDataBlock T) (s : PushState ι V σ ν) : Run ι V T σ ν :=
  let r := visitVisitors vis n (G.process n sdb s).2 0 (G.visitors n) (G.process n sdb s).1
  { r with events := .call src n sdb :: .process n sdb (G.process n sdb s).2 :: r.events }

variable {G : Graph ι V T σ} {vis : V → StreamVisitor T ν}

/-- **A push into a processor that has failed** is skipped. -/
theorem pushData_skip (fuel : ℕ) (src : Source ι) {n : ι} (sdb : SharedDataBlock T)
    {s : PushState ι V σ ν} (h : s.hadError n = true) :
    pushData G vis (fuel + 1) src n sdb s = some ⟨s, [.call src n sdb, .skip n sdb], none⟩ := by
  rw [pushData, if_pos h]

/-- **A push into another** is the part before the loop over `processors`, then the loop. -/
theorem pushData_visit (fuel : ℕ) (src : Source ι) {n : ι} (sdb : SharedDataBlock T)
    {s : PushState ι V σ ν} (h : s.hadError n = false) :
    pushData G vis (fuel + 1) src n sdb s = (G.visited vis src n sdb s).andThen
      (pushProcessors (pushData G vis fuel) n (G.process n sdb s).2 0 (G.processors n)) := by
  rw [pushData, if_neg (by simp [h])]
  rfl

/-! ### Fuel -/

/-- **More fuel changes nothing.** -/
theorem pushData_mono {fuel fuel' : ℕ} (hle : fuel ≤ fuel') {src : Source ι} {n : ι}
    {sdb : SharedDataBlock T} {s : PushState ι V σ ν} {r : Run ι V T σ ν}
    (h : pushData G vis fuel src n sdb s = some r) : pushData G vis fuel' src n sdb s = some r := by
  induction fuel generalizing fuel' src n sdb s r with
  | zero => exact absurd h (by simp [pushData])
  | succ fuel ih =>
      obtain ⟨fuel', rfl⟩ : ∃ m, fuel' = m + 1 := ⟨fuel' - 1, by omega⟩
      cases he : s.hadError n with
      | true => rwa [pushData_skip fuel' src sdb he, ← pushData_skip fuel src sdb he]
      | false =>
          rw [pushData_visit _ _ _ he] at h ⊢
          rcases Run.andThen_eq_some.mp h with h | ⟨ht, r', h', rfl⟩
          · exact Run.andThen_eq_some.mpr (Or.inl h)
          · exact Run.andThen_eq_some.mpr (Or.inr ⟨ht, r',
              pushProcessors_mono (fun _ _ _ _ _ hr => ih (by omega) hr) h', rfl⟩)

/-- Nor does it to a sequence of pushes. -/
theorem pushSequence_mono {fuel fuel' : ℕ} (hle : fuel ≤ fuel') :
    ∀ {pushes : List (ι × SharedDataBlock T)} {s : PushState ι V σ ν} {r : Run ι V T σ ν},
      pushSequence G vis fuel pushes s = some r → pushSequence G vis fuel' pushes s = some r
  | [], _, _, h => h
  | (n, sdb) :: pushes, s, r, h => by
      obtain ⟨r₁, h₁, hr⟩ := Option.bind_eq_some_iff.mp h
      refine Option.bind_eq_some_iff.mpr ⟨r₁, pushData_mono hle h₁, ?_⟩
      rcases Run.andThen_eq_some.mp hr with hr | ⟨ht, r₂, h₂, rfl⟩
      · exact Run.andThen_eq_some.mpr (Or.inl hr)
      · exact Run.andThen_eq_some.mpr (Or.inr ⟨ht, r₂, pushSequence_mono hle h₂, rfl⟩)

/-- Two sequences of pushes that return, return the same. -/
theorem pushSequence_unique {fuel fuel' : ℕ} {pushes : List (ι × SharedDataBlock T)}
    {s : PushState ι V σ ν} {r r' : Run ι V T σ ν}
    (h : pushSequence G vis fuel pushes s = some r)
    (h' : pushSequence G vis fuel' pushes s = some r') : r = r' := by
  have h₁ := pushSequence_mono (le_max_left fuel fuel') h
  have h₂ := pushSequence_mono (le_max_right fuel fuel') h'
  exact Option.some.inj (h₁.symm.trans h₂)

/-- A sequence of pushes after another one that returned. -/
theorem pushSequence_append {fuel : ℕ} {pushes' : List (ι × SharedDataBlock T)} {r' : Run ι V T σ ν} :
    ∀ {pushes : List (ι × SharedDataBlock T)} {s : PushState ι V σ ν} {r : Run ι V T σ ν},
      pushSequence G vis fuel pushes s = some r → r.thrown = none →
      pushSequence G vis fuel pushes' r.state = some r' →
      pushSequence G vis fuel (pushes ++ pushes') s =
        some { r' with events := r.events ++ r'.events }
  | [], s, r, h, _, h' => by
      obtain rfl := Option.some.inj h
      exact h'
  | (n, sdb) :: pushes, s, r, h, ht, h' => by
      obtain ⟨r₁, h₁, hr⟩ := Option.bind_eq_some_iff.mp h
      rcases Run.andThen_eq_some.mp hr with ⟨e, he, rfl⟩ | ⟨ht₁, r₂, h₂, rfl⟩
      · exact absurd (ht.symm.trans he) (by simp)
      · have hrest := pushSequence_append h₂ ht h'
        refine Option.bind_eq_some_iff.mpr ⟨r₁, h₁, Run.andThen_eq_some.mpr (Or.inr ⟨ht₁, _, hrest, ?_⟩)⟩
        simp only [List.append_assoc]

/-- A sequence of one push is that push. -/
theorem pushSequence_singleton {fuel : ℕ} {n : ι} {sdb : SharedDataBlock T} {s : PushState ι V σ ν}
    {r : Run ι V T σ ν} (h : pushData G vis fuel .external n sdb s = some r) :
    pushSequence G vis fuel [(n, sdb)] s = some r := by
  refine Option.bind_eq_some_iff.mpr ⟨r, h, Run.andThen_eq_some.mpr ?_⟩
  cases ht : r.thrown with
  | some e => exact Or.inl ⟨e, rfl, rfl⟩
  | none => exact Or.inr ⟨rfl, _, rfl, by simp [← ht]⟩

/-- Pushes into `n` end: there is a call depth that none of them exceeds, whatever
the block and the state. -/
def PushReturns (G : Graph ι V T σ) (vis : V → StreamVisitor T ν) (n : ι) : Prop :=
  ∃ fuel, ∀ src sdb (s : PushState ι V σ ν), (pushData G vis fuel src n sdb s).isSome

/-- Pushes into `n` end if those into the processors connected to it do. -/
theorem pushReturns_of_adj {n : ι} (h : ∀ c, G.Adj n c → PushReturns G vis c) :
    PushReturns G vis n := by
  have hcs : ∀ cs : List ι, (∀ c ∈ cs, G.Adj n c) → ∃ fuel, ∀ c ∈ cs,
      ∀ src sdb (s : PushState ι V σ ν), (pushData G vis fuel src c sdb s).isSome := by
    intro cs hcs
    induction cs with
    | nil => exact ⟨0, by simp⟩
    | cons c cs ih =>
        rw [List.forall_mem_cons] at hcs
        obtain ⟨f₁, h₁⟩ := h c hcs.1
        obtain ⟨f₂, h₂⟩ := ih hcs.2
        refine ⟨max f₁ f₂, fun c' hc' src sdb s => ?_⟩
        rcases List.mem_cons.mp hc' with rfl | hc'
        · obtain ⟨r, hr⟩ := Option.isSome_iff_exists.mp (h₁ src sdb s)
          rw [pushData_mono (le_max_left ..) hr]
          rfl
        · obtain ⟨r, hr⟩ := Option.isSome_iff_exists.mp (h₂ c' hc' src sdb s)
          rw [pushData_mono (le_max_right ..) hr]
          rfl
  obtain ⟨fuel, hfuel⟩ := hcs (G.processors n) fun _ h => h
  refine ⟨fuel + 1, fun src sdb s => ?_⟩
  cases he : s.hadError n with
  | true => rw [pushData_skip _ _ _ he]; rfl
  | false =>
      rw [pushData_visit _ _ _ he]
      exact Run.isSome_andThen (isSome_pushProcessors (fun c hc src s => hfuel c hc src _ s) 0)

/-- **Every push ends on a well-founded graph.** -/
theorem exists_fuel (vis : V → StreamVisitor T ν) (hG : WellFounded fun c n => G.Adj n c) (n : ι) :
    PushReturns (σ := σ) G vis n := by
  induction n using hG.induction with
  | _ n ih => exact pushReturns_of_adj ih

/-- One call depth for a whole sequence of pushes. -/
theorem exists_fuel_sequence (pushes : List (ι × SharedDataBlock T))
    (h : ∀ x ∈ pushes, PushReturns G vis x.1) :
    ∃ fuel, ∀ s : PushState ι V σ ν, (pushSequence G vis fuel pushes s).isSome := by
  induction pushes with
  | nil => exact ⟨0, fun _ => rfl⟩
  | cons x pushes ih =>
      rw [List.forall_mem_cons] at h
      obtain ⟨f₁, h₁⟩ := h.1
      obtain ⟨f₂, h₂⟩ := ih h.2
      refine ⟨max f₁ f₂, fun s => ?_⟩
      obtain ⟨r, hr⟩ := Option.isSome_iff_exists.mp (h₁ .external x.2 s)
      rw [pushSequence, pushData_mono (le_max_left ..) hr]
      refine Run.isSome_andThen fun s' => ?_
      obtain ⟨r', hr'⟩ := Option.isSome_iff_exists.mp (h₂ s')
      rw [pushSequence_mono (le_max_right ..) hr']
      rfl

/-! ### Induction over the call tree -/

/-- **Induction over the calls of a push.**  `P` is shown of a call and `L` of the
rest of a loop over `processors`, for every way these end. -/
theorem pushData_induct
    {P : Source ι → ι → SharedDataBlock T → PushState ι V σ ν → Run ι V T σ ν → Prop}
    {L : ι → SharedDataBlock T → ℕ → List ι → PushState ι V σ ν → Run ι V T σ ν → Prop}
    (skip : ∀ src n sdb s, s.hadError n = true →
      P src n sdb s ⟨s, [.call src n sdb, .skip n sdb], none⟩)
    (threw : ∀ src n sdb s e, s.hadError n = false →
      (G.visited vis src n sdb s).thrown = some e → P src n sdb s (G.visited vis src n sdb s))
    (pass : ∀ src n sdb s r, s.hadError n = false → (G.visited vis src n sdb s).thrown = none →
      L n (G.process n sdb s).2 0 (G.processors n) (G.visited vis src n sdb s).state r →
      P src n sdb s { r with events := (G.visited vis src n sdb s).events ++ r.events })
    (nil : ∀ n output k s, L n output k [] s ⟨s, [], none⟩)
    (cons_threw : ∀ fuel n output k c cs s r e,
      pushData G vis fuel (.connection n k) c output s = some r →
      P (.connection n k) c output s r → r.thrown = some e → L n output k (c :: cs) s r)
    (cons : ∀ fuel n output k c cs s r r',
      pushData G vis fuel (.connection n k) c output s = some r →
      P (.connection n k) c output s r → r.thrown = none →
      L n output (k + 1) cs r.state r' →
      L n output k (c :: cs) s { r' with events := r.events ++ r'.events })
    {fuel : ℕ} {src : Source ι} {n : ι} {sdb : SharedDataBlock T} {s : PushState ι V σ ν}
    {r : Run ι V T σ ν} (h : pushData G vis fuel src n sdb s = some r) : P src n sdb s r := by
  induction fuel generalizing src n sdb s r with
  | zero => exact absurd h (by simp [pushData])
  | succ fuel ih =>
      have loop : ∀ n output cs k s r,
          pushProcessors (pushData G vis fuel) n output k cs s = some r → L n output k cs s r := by
        intro n output cs
        induction cs with
        | nil =>
            intro k s r hr
            obtain rfl := Option.some.inj hr
            exact nil n output k s
        | cons c cs ihcs =>
            intro k s r hr
            obtain ⟨r₁, h₁, hr⟩ := Option.bind_eq_some_iff.mp hr
            rcases Run.andThen_eq_some.mp hr with ⟨e, he, rfl⟩ | ⟨ht, r₂, h₂, rfl⟩
            · exact cons_threw fuel n output k c cs s r e h₁ (ih h₁) he
            · exact cons fuel n output k c cs s r₁ r₂ h₁ (ih h₁) ht (ihcs (k + 1) _ _ h₂)
      cases he : s.hadError n with
      | true =>
          rw [pushData_skip _ _ _ he] at h
          obtain rfl := Option.some.inj h
          exact skip src n sdb s he
      | false =>
          rw [pushData_visit _ _ _ he] at h
          rcases Run.andThen_eq_some.mp h with ⟨e, ht, rfl⟩ | ⟨ht, r', h', rfl⟩
          · exact threw src n sdb s e he ht
          · exact pass src n sdb s r' he ht (loop _ _ _ _ _ _ h')

/-- A property of runs that holds of doing nothing and is kept by sequencing. -/
structure Composable (P : PushState ι V σ ν → Run ι V T σ ν → Prop) : Prop where
  nil : ∀ s, P s ⟨s, [], none⟩
  andThen : ∀ s r r', P s r → r.thrown = none → P r.state r' →
    P s { r' with events := r.events ++ r'.events }

/-- **A composable property holds of every push** if it holds of a skipped call
and of `processData` with the loop over `visitors`. -/
theorem Composable.pushData {P : PushState ι V σ ν → Run ι V T σ ν → Prop} (hP : Composable P)
    (skip : ∀ src n sdb s, s.hadError n = true → P s ⟨s, [.call src n sdb, .skip n sdb], none⟩)
    (visited : ∀ src n sdb s, s.hadError n = false → P s (G.visited vis src n sdb s))
    {fuel : ℕ} {src : Source ι} {n : ι} {sdb : SharedDataBlock T} {s : PushState ι V σ ν}
    {r : Run ι V T σ ν} (h : pushData G vis fuel src n sdb s = some r) : P s r :=
  pushData_induct (P := fun _ _ _ s r => P s r) (L := fun _ _ _ _ s r => P s r) skip
    (fun src n sdb s _ he _ => visited src n sdb s he)
    (fun src n sdb s r he ht hL => hP.andThen s _ r (visited src n sdb s he) ht hL)
    (fun _ _ _ s => hP.nil s) (fun _ _ _ _ _ _ _ _ _ _ h _ => h)
    (fun _ _ _ _ _ _ s r r' _ h ht hL => hP.andThen s r r' h ht hL) h

/-- Induction over a sequence of pushes. -/
theorem pushSequence_induct {fuel : ℕ}
    {P : List (ι × SharedDataBlock T) → PushState ι V σ ν → Run ι V T σ ν → Prop}
    (nil : ∀ s, P [] s ⟨s, [], none⟩)
    (cons_threw : ∀ n sdb pushes s r e, pushData G vis fuel .external n sdb s = some r →
      r.thrown = some e → P ((n, sdb) :: pushes) s r)
    (cons : ∀ n sdb pushes s r r', pushData G vis fuel .external n sdb s = some r →
      r.thrown = none → P pushes r.state r' →
      P ((n, sdb) :: pushes) s { r' with events := r.events ++ r'.events }) :
    ∀ {pushes : List (ι × SharedDataBlock T)} {s : PushState ι V σ ν} {r : Run ι V T σ ν},
      pushSequence G vis fuel pushes s = some r → P pushes s r
  | [], s, r, h => Option.some.inj h ▸ nil s
  | (n, sdb) :: pushes, s, r, h => by
      obtain ⟨r₁, h₁, hr⟩ := Option.bind_eq_some_iff.mp h
      rcases Run.andThen_eq_some.mp hr with ⟨e, he, rfl⟩ | ⟨ht, r₂, h₂, rfl⟩
      · exact cons_threw n sdb pushes s _ e h₁ he
      · exact cons n sdb pushes s r₁ r₂ h₁ ht (pushSequence_induct nil cons_threw cons h₂)

/-- A composable property of pushes holds of every sequence of them. -/
theorem Composable.pushSequence {P : PushState ι V σ ν → Run ι V T σ ν → Prop}
    (hP : Composable P) {fuel : ℕ}
    (h : ∀ {src n sdb s r}, CppDataStream.pushData G vis fuel src n sdb s = some r → P s r)
    {pushes : List (ι × SharedDataBlock T)} {s : PushState ι V σ ν} {r : Run ι V T σ ν}
    (hr : CppDataStream.pushSequence G vis fuel pushes s = some r) : P s r :=
  pushSequence_induct (P := fun _ s r => P s r) hP.nil (fun _ _ _ _ _ _ hp _ => h hp)
    (fun _ _ _ s r r' hp ht h' => hP.andThen s r r' (h hp) ht h') hr

end CppDataStream
