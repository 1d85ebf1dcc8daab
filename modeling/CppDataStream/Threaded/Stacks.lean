/-
# The shape of the call stacks

At the bottom of the stack of the pushing thread is the application, at the bottom
of that of a worker is `run` (`Reachable.bottom`); above it are calls of `pushData`,
each made by a loop over `processors` of the one below, so on an acyclic graph no
element is on a stack twice (`Reachable.nested`).
-/

import CppDataStream.Threaded.Confinement

namespace CppDataStream

namespace Frame

variable {ι T : Type*}

/-- The frame is one of the application, or of `run` of buffer `c`. -/
inductive Bottom : Thread ι → Frame ι T → Prop
  | main (todo) : Bottom .pusher (.main todo)
  | dequeue (c i) : Bottom (.worker c i) (.dequeue c)
  | deliver (c i sdb) : Bottom (.worker c i) (.deliver c sdb)
  | eopTest (c i sdb) : Bottom (.worker c i) (.eopTest c sdb)

/-- The frame is one of a call of `pushData`. -/
def Call : Frame ι T → Prop
  | .main _ | .dequeue _ | .deliver _ _ | .eopTest _ _ => False
  | _ => True

/-- The element that a frame of a call works for. -/
def element : Frame ι T → Option ι
  | .main _ => none
  | .hadError n _ | .process n _ | .visit n _ _ | .forward n _ _ => some n
  | .startTest c _ | .start c _ | .assign c _ | .started c _ | .enqueue c _ => some c
  | .dequeue c | .deliver c _ | .eopTest c _ => some c

end Frame

namespace Pipeline

variable {ι V T σ : Type*} [DecidableEq ι] {P : Pipeline ι V T σ} {sh : Shared ι T σ} {f : Frame ι T}
  {e : Effect ι V T σ}

omit [DecidableEq ι] in
/-- A call of `pushData` is a frame of a call. -/
theorem call_pushFrame (n : ι) (sdb : SharedDataBlock T) : (P.pushFrame n sdb).Call := by
  unfold pushFrame
  split_ifs <;> trivial

omit [DecidableEq ι] in
/-- It is a frame of the element that it calls. -/
theorem element_pushFrame (n : ι) (sdb : SharedDataBlock T) : (P.pushFrame n sdb).element = some n := by
  unfold pushFrame
  split_ifs <;> rfl

/-- A frame of a call is replaced by frames of calls. -/
theorem Exec.call (h : Exec P sh f e) (hf : f.Call) : ∀ g ∈ e.frames, g.Call := by
  cases h with
  | forward => exact List.forall_mem_cons.mpr ⟨call_pushFrame .., List.forall_mem_singleton.mpr trivial⟩
  | returned | push | dequeue | deliver | exit | again => exact absurd hf id
  | skip | forwarded | enqueue => exact fun _ hg => absurd hg List.not_mem_nil
  | _ => exact List.forall_mem_singleton.mpr trivial

/-- A frame of the application or of `run` is replaced by one of the same kind, with
at most one call on top of it, or it returns. -/
theorem Exec.bottom (h : Exec P sh f e) {t : Thread ι} (hf : f.Bottom t) :
    e.frames = [] ∨ ∃ fs g, e.frames = fs ++ [g] ∧ (∀ g' ∈ fs, g'.Call) ∧ g.Bottom t := by
  cases h with
  | push sdb todo =>
      cases hf
      exact Or.inr ⟨[_], _, rfl, List.forall_mem_singleton.mpr (call_pushFrame ..), .main _⟩
  | dequeue c sdb =>
      cases hf
      exact Or.inr ⟨[], _, rfl, by simp, .deliver c _ _⟩
  | deliver c sdb =>
      cases hf
      exact Or.inr ⟨[_], _, rfl, List.forall_mem_singleton.mpr trivial, .eopTest c _ _⟩
  | again c sdb =>
      cases hf
      exact Or.inr ⟨[], _, rfl, by simp, .dequeue c _⟩
  | returned | exit => exact Or.inl rfl
  | _ => cases hf

/-- A stack is empty, or it has the application or `run` at the bottom and calls
above. -/
def Bottomed (t : Thread ι) (fs : List (Frame ι T)) : Prop :=
  fs = [] ∨ ∃ calls g, fs = calls ++ [g] ∧ (∀ f ∈ calls, f.Call) ∧ g.Bottom t

variable {priv : ι → σ} {bs : List (SharedDataBlock T)} {S : State ι V T σ}

/-- **The bottom of a stack** is the application, or `run` of the buffer that has
constructed the thread. -/
theorem Reachable.bottom (h : P.Reachable priv bs S) (t : Thread ι) : Bottomed t (S.stack t) := by
  refine h.induct (I := fun S => ∀ t, Bottomed t (S.stack t)) (fun t => ?_)
    (fun S t f rest e _ ih hstack hexec _ t' => ?_) t
  · by_cases ht : t = .pusher
    · subst ht
      exact Or.inr ⟨[], .main bs, rfl, by simp, .main bs⟩
    · exact Or.inl (if_neg ht)
  · rcases stack_cases S.stack t (e.frames ++ rest) e.spawned t' with
      ⟨c, i, -, rfl, hs⟩ | ⟨rfl, hs⟩ | ⟨-, hs⟩ <;> simp only [hs]
    · exact Or.inr ⟨[], .dequeue c, rfl, by simp, .dequeue c i⟩
    · rcases ih t' with hnil | ⟨calls, g, heq, hcalls, hg⟩
      · exact absurd (hstack.symm.trans hnil) (by simp)
      rw [hstack] at heq
      cases calls with
      | nil =>
          obtain ⟨rfl, rfl⟩ := List.cons.inj heq
          rw [List.append_nil]
          exact hexec.bottom hg
      | cons f' calls =>
          obtain ⟨rfl, rfl⟩ := List.cons.inj heq
          rw [List.forall_mem_cons] at hcalls
          refine Or.inr ⟨e.frames ++ calls, g, (List.append_assoc ..).symm, ?_, hg⟩
          exact List.forall_mem_append.mpr ⟨hexec.call hcalls.1, hcalls.2⟩
    · exact ih t'

omit [DecidableEq ι] in
/-- Only the bottom frame is not of a call. -/
theorem Bottomed.call_or_eq {t : Thread ι} {fs : List (Frame ι T)} (h : Bottomed t fs) {f : Frame ι T}
    (hf : f ∈ fs) : f.Call ∨ (f.Bottom t ∧ ∃ calls, fs = calls ++ [f] ∧ ∀ g ∈ calls, g.Call) := by
  rcases h with rfl | ⟨calls, g, rfl, hcalls, hg⟩
  · exact absurd hf List.not_mem_nil
  · rcases List.mem_append.mp hf with hf | hf
    · exact Or.inl (hcalls f hf)
    · obtain rfl := List.mem_singleton.mp hf
      exact Or.inr ⟨hg, calls, rfl, hcalls⟩

omit [DecidableEq ι] in
/-- A topmost frame that is not of a call is alone. -/
theorem Bottomed.eq_nil {t : Thread ι} {rest : List (Frame ι T)} (h : Bottomed t (f :: rest))
    (hf : ¬ f.Call) : f.Bottom t ∧ rest = [] := by
  rcases h with h | ⟨calls, g, heq, hcalls, hg⟩
  · exact absurd h (by simp)
  · cases calls with
    | nil =>
        obtain ⟨rfl, rfl⟩ := List.cons.inj heq
        exact ⟨hg, rfl⟩
    | cons f' calls =>
        obtain ⟨rfl, rfl⟩ := List.cons.inj heq
        exact absurd (hcalls f (List.mem_cons_self ..)) hf

omit [DecidableEq ι] in
/-- Below a call there is something that it returns to. -/
theorem Bottomed.ne_nil {t : Thread ι} {rest : List (Frame ι T)} (h : Bottomed t (f :: rest))
    (hf : f.Call) : rest ≠ [] := by
  rintro rfl
  rcases h with h | ⟨calls, g, heq, -, hg⟩
  · exact absurd h (by simp)
  · cases calls with
    | nil =>
        obtain ⟨rfl, -⟩ := List.cons.inj heq
        cases hg <;> exact hf
    | cons f' calls => exact absurd (congrArg List.length heq) (by simp)

/-! ### Calls below one another -/

/-- The frame `g` waits in the loop over `processors` of `n` for what `f` works
for, some element downstream. -/
def Below (P : Pipeline ι V T σ) (f g : Frame ι T) : Prop :=
  ∀ n k output, g = .forward n k output → ∀ m, f.element = some m → Relation.TransGen P.Adj n m

/-- The frames that replace a frame work for the same element, or for one connected
to it. -/
theorem Exec.element (h : Exec P sh f e) (hf : f.Call) : ∀ g ∈ e.frames, ∀ m, g.element = some m →
    ∃ n, f.element = some n ∧ (m = n ∨ P.Adj n m) := by
  cases h with
  | forward n k output c hc =>
      refine List.forall_mem_cons.mpr ⟨fun m hm => ⟨n, rfl, Or.inr ?_⟩,
        List.forall_mem_singleton.mpr fun m hm => ⟨n, rfl, Or.inl (Option.some.inj hm).symm⟩⟩
      rw [element_pushFrame] at hm
      obtain rfl := Option.some.inj hm
      exact hc.adj
  | returned | push | dequeue | deliver | exit | again => exact absurd hf id
  | skip | forwarded | enqueue => exact fun _ hg => absurd hg List.not_mem_nil
  | _ => exact List.forall_mem_singleton.mpr fun m hm => ⟨m, hm, Or.inl rfl⟩

/-- The frames that a step leaves lie below one another as their elements do. -/
theorem Exec.pairwise (h : Exec P sh f e) : e.frames.Pairwise (Below P) := by
  have hone : ∀ g : Frame ι T, [g].Pairwise (Below P) := fun g => List.pairwise_singleton ..
  have htwo : ∀ g g' : Frame ι T, Below P g g' → [g, g'].Pairwise (Below P) := fun g g' hg =>
    List.pairwise_cons.mpr ⟨List.forall_mem_singleton.mpr hg, hone g'⟩
  cases h with
  | push => exact htwo _ _ fun _ _ _ h => nomatch h
  | forward n k output c hc =>
      refine htwo _ _ fun n' k' output' h m hm => ?_
      obtain ⟨rfl, -, -⟩ := Frame.forward.inj h
      rw [element_pushFrame] at hm
      obtain rfl := Option.some.inj hm
      exact .single hc.adj
  | deliver => exact htwo _ _ fun _ _ _ h => nomatch h
  | returned | skip | forwarded | enqueue | exit => exact List.Pairwise.nil
  | _ => exact hone _

/-- **Calls are nested downstream**: every frame works for an element that is
downstream of those waiting below it. -/
theorem Reachable.nested (h : P.Reachable priv bs S) (t : Thread ι) :
    (S.stack t).Pairwise (Below P) := by
  refine h.induct (I := fun S => ∀ t, (S.stack t).Pairwise (Below P)) (fun t => ?_)
    (fun S t f rest e hS ih hstack hexec _ t' => ?_) t
  · by_cases ht : t = .pusher <;> simp [init, ht]
  · rcases stack_cases S.stack t (e.frames ++ rest) e.spawned t' with
      ⟨c, i, -, rfl, hs⟩ | ⟨rfl, hs⟩ | ⟨-, hs⟩ <;> simp only [hs]
    · exact List.pairwise_singleton ..
    · have hbelow := ih t'
      rw [hstack, List.pairwise_cons] at hbelow
      refine List.pairwise_append.mpr ⟨hexec.pairwise, hbelow.2,
        fun g hg g' hg' n k output hfwd m hm => ?_⟩
      by_cases hf : f.Call
      · obtain ⟨n', hn', hadj⟩ := hexec.element hf g hg m hm
        have hdown := hbelow.1 g' hg' n k output hfwd n' hn'
        rcases hadj with rfl | hadj
        · exact hdown
        · exact hdown.tail hadj
      · have hbot := hS.bottom t'
        rw [hstack] at hbot
        obtain ⟨-, rfl⟩ := hbot.eq_nil hf
        exact absurd hg' List.not_mem_nil
    · exact ih t'

end Pipeline
end CppDataStream
