/-
# Which thread runs what

`include/cppdatastream/DataStream.hpp`, lines 255-289 and 326-375.  No lock
protects the members of an element.  What protects them is that an element is run
by one thread: by the pushing thread if no buffer lies before it, else by the
worker of the last buffer before it; and that of a buffer one thread uses the side
that starts the worker and enqueues, and the worker uses the rest.

`Upstream P n l` says that some path from the entry to `n` leads through the
buffers `l`.  Every frame on every stack runs below the buffers of some path to its
element (`Located`), whatever the graph.  So if all paths to `n` have the same last
buffer, only threads that this buffer has constructed run `n`
(`WellFormed.builder_eq`).  That need not be one thread: a buffer that two threads
push into can find `_thread_started` unset in both of them.  If all paths lead
through the same buffers in the same order, then each of these buffers is started
by one thread, so it constructs one worker (`StartProtocol`), and `n` is confined
to one thread (`Confined`).
-/

import CppDataStream.Threaded.Machine
import Mathlib.Algebra.Order.Ring.Nat

namespace CppDataStream

/-- The members a frame works with: those of the application, what the enqueuing
side of a buffer uses, or the rest of an element, with `run` of a buffer. -/
inductive Side (ι : Type*) where
  | application
  | producer (c : ι)
  | base (n : ι)
  deriving DecidableEq

namespace Frame

variable {ι T : Type*}

/-- The members a frame works with. -/
def side : Frame ι T → Side ι
  | .main _ => .application
  | .hadError n _ | .process n _ | .visit n _ _ | .forward n _ _ => .base n
  | .startTest c _ | .start c _ | .assign c _ | .started c _ | .enqueue c _ => .producer c
  | .dequeue c | .deliver c _ | .eopTest c _ => .base c

/-- A call is running on top of the frame. -/
def Resumes : Frame ι T → Prop
  | .main _ | .forward _ _ _ | .eopTest _ _ => True
  | _ => False

/-- A frame that resumes a call feeds no buffer. -/
theorem Resumes.not_producer {f : Frame ι T} (h : f.Resumes) (c : ι) : f.side ≠ .producer c := by
  cases f <;> simp_all [Resumes, side]

end Frame

/-- The buffer that has constructed a thread. -/
def Thread.builder {ι : Type*} : Thread ι → Option ι
  | .pusher => none
  | .worker c _ => some c

namespace Pipeline

variable {ι V T σ : Type*} [DecidableEq ι] {P : Pipeline ι V T σ}

/-- The buffers before an element that `n` feeds. -/
def under (P : Pipeline ι V T σ) (n : ι) (l : List ι) : List ι := if P.IsBuffer n then l ++ [n] else l

/-- Some path from the entry to `n` leads through the buffers `l`, in this order;
`n` itself does not count. -/
inductive Upstream (P : Pipeline ι V T σ) : ι → List ι → Prop
  | entry : Upstream P P.entry []
  | conn {m n : ι} {l : List ι} (h : Upstream P m l) (hmn : P.Adj m n) : Upstream P n (P.under m l)

/-- All paths from the entry to `n` lead through the same buffers. -/
def Uniform (P : Pipeline ι V T σ) (n : ι) : Prop := ∀ l l', P.Upstream n l → P.Upstream n l' → l = l'

/-- What uses these members runs below the buffers `l`. -/
def Located (P : Pipeline ι V T σ) : Side ι → List ι → Prop
  | .application, l => l = []
  | .producer c, l => P.IsBuffer c ∧ P.Upstream c l
  | .base n, l => ∃ l', P.Upstream n l' ∧ l = P.under n l'

/-- `t` is the pushing thread if there is no buffer, else a worker of the last
one. -/
def RunsBelow (t : Thread ι) (l : List ι) : Prop := t.builder = l.getLast?

/-- The pushing thread if there is no buffer, else the first worker of the last
one. -/
def threadBelow (l : List ι) : Thread ι :=
  match l.getLast? with
  | none => .pusher
  | some c => .worker c 0

/-! ### Where frames run -/

omit [DecidableEq ι] in
/-- A call of `pushData` starts on the enqueuing side of a buffer. -/
theorem side_pushFrame (n : ι) (sdb : SharedDataBlock T) :
    (P.pushFrame n sdb).side = if P.IsBuffer n then .producer n else .base n := by
  unfold pushFrame
  split_ifs <;> rfl

omit [DecidableEq ι] in
/-- A call is where its element is. -/
theorem located_pushFrame {n : ι} {l : List ι} (h : P.Upstream n l) (sdb : SharedDataBlock T) :
    P.Located (P.pushFrame n sdb).side l := by
  rw [side_pushFrame]
  split_ifs with hn
  · exact ⟨hn, h⟩
  · exact ⟨l, h, by rw [under, if_neg hn]⟩

/-- The frames that replace a frame run below the same buffers. -/
theorem Exec.located {sh : Shared ι T σ} {f : Frame ι T} {e : Effect ι V T σ} (h : Exec P sh f e)
    {l : List ι} (hl : P.Located f.side l) : ∀ g ∈ e.frames, P.Located g.side l := by
  cases h with
  | push sdb todo =>
      obtain rfl := hl
      exact List.forall_mem_cons.mpr ⟨located_pushFrame .entry sdb, List.forall_mem_singleton.mpr rfl⟩
  | forward n k output c hc =>
      obtain ⟨l', hl', rfl⟩ := id hl
      exact List.forall_mem_cons.mpr ⟨located_pushFrame (.conn hl' hc.adj) output,
        List.forall_mem_singleton.mpr hl⟩
  | returned | skip | forwarded | enqueue | exit => exact fun _ hg => absurd hg List.not_mem_nil
  | deliver c sdb => exact List.forall_mem_cons.mpr ⟨hl, List.forall_mem_singleton.mpr hl⟩
  | _ => exact List.forall_mem_singleton.mpr hl

/-- A thread is constructed by a buffer, from its enqueuing side. -/
theorem Exec.spawned {sh : Shared ι T σ} {f : Frame ι T} {e : Effect ι V T σ} (h : Exec P sh f e)
    {c : ι} {i : ℕ} (hs : e.spawned = some (c, i)) :
    (∃ sdb, f = .start c sdb) ∧ i = sh.created c ∧ e.shared.created c = i + 1 := by
  cases h with
  | start c' sdb =>
      obtain ⟨rfl, rfl⟩ := Prod.mk.inj (Option.some.inj hs)
      exact ⟨⟨sdb, rfl⟩, rfl, by simp⟩
  | _ => exact absurd hs (by simp)

/-- No worker is forgotten. -/
theorem Exec.created_le {sh : Shared ι T σ} {f : Frame ι T} {e : Effect ι V T σ} (h : Exec P sh f e)
    (c : ι) : sh.created c ≤ e.shared.created c := by
  cases h with
  | start c' sdb =>
      by_cases hc : c = c'
      · subst hc
        simp
      · simp [hc]
  | _ => exact le_rfl

/-- All but the topmost of the frames that replace a frame wait for a call. -/
theorem Exec.resumes {sh : Shared ι T σ} {f : Frame ι T} {e : Effect ι V T σ} (h : Exec P sh f e) :
    ∀ g ∈ e.frames.tail, g.Resumes := by
  cases h <;> simp [Frame.Resumes]

omit [DecidableEq ι] in
/-- Below a frame of a call lie only frames that resume one. -/
theorem resumes_append {fs rest : List (Frame ι T)} (h : ∀ g ∈ fs.tail, g.Resumes)
    (hrest : ∀ g ∈ rest, g.Resumes) : ∀ g ∈ (fs ++ rest).tail, g.Resumes := by
  intro g hg
  cases fs with
  | nil => exact hrest g (List.mem_of_mem_tail hg)
  | cons f fs =>
      rcases List.mem_append.mp hg with hg | hg
      · exact h g hg
      · exact hrest g hg

/-- What holds of the stacks of all reachable states. -/
structure WellFormed (P : Pipeline ι V T σ) (S : State ι V T σ) : Prop where
  /-- Every frame below the topmost waits for a call. -/
  resumes : ∀ t, ∀ g ∈ (S.stack t).tail, g.Resumes
  /-- Only constructed threads run. -/
  live : ∀ c i, S.stack (.worker c i) ≠ [] → i < S.shared.created c
  /-- Every thread runs code below the buffer that constructed it. -/
  located : ∀ t, ∀ f ∈ S.stack t, ∃ l, P.Located f.side l ∧ RunsBelow t l

omit [DecidableEq ι] in
/-- Another thread is not started. -/
theorem spawn_of_ne {stack : Thread ι → List (Frame ι T)} [DecidableEq ι] {o : Option (ι × ℕ)}
    {t : Thread ι} (h : ∀ c i, o = some (c, i) → t ≠ .worker c i) : spawn stack o t = stack t := by
  rcases o with _ | ⟨c, i⟩
  · rfl
  · exact Function.update_of_ne (h c i rfl) _ _

/-- The stacks after a step: that of the thread itself, that of a thread it has
constructed, and the others. -/
theorem stack_cases (stack : Thread ι → List (Frame ι T)) (t : Thread ι) (fs : List (Frame ι T))
    (o : Option (ι × ℕ)) (t' : Thread ι) :
    (∃ c i, o = some (c, i) ∧ t' = .worker c i ∧
        spawn (Function.update stack t fs) o t' = [.dequeue c]) ∨
      (t' = t ∧ spawn (Function.update stack t fs) o t' = fs) ∨
      (t' ≠ t ∧ spawn (Function.update stack t fs) o t' = stack t') := by
  by_cases ho : ∃ c i, o = some (c, i) ∧ t' = .worker c i
  · obtain ⟨c, i, rfl, rfl⟩ := ho
    exact Or.inl ⟨c, i, rfl, rfl, Function.update_self ..⟩
  · push Not at ho
    rw [spawn_of_ne ho]
    by_cases ht : t' = t
    · subst ht
      exact Or.inr (Or.inl ⟨rfl, Function.update_self ..⟩)
    · exact Or.inr (Or.inr ⟨ht, Function.update_of_ne ht _ _⟩)

/-- **The stacks of every reachable state are well-formed.** -/
theorem Reachable.wellFormed {priv : ι → σ} {bs : List (SharedDataBlock T)} {S : State ι V T σ}
    (h : P.Reachable priv bs S) : P.WellFormed S := by
  refine h.induct ⟨fun t => ?_, fun c i h => ?_, fun t f hf => ?_⟩
    fun S t f rest e _ ih hstack hexec _ =>
      ⟨fun t' => ?_, fun c i hlive => ?_, fun t' g hg => ?_⟩
  · by_cases ht : t = .pusher <;> simp [init, ht]
  · exact absurd rfl h
  · by_cases ht : t = .pusher
    · subst ht
      obtain rfl : f = .main bs := by simpa [init] using hf
      exact ⟨[], rfl, rfl⟩
    · simp [init, ht] at hf
  · have hrest : ∀ g ∈ rest, g.Resumes := fun g hg => ih.resumes t g (by rw [hstack]; exact hg)
    rcases stack_cases S.stack t (e.frames ++ rest) e.spawned t' with
      ⟨c, i, -, -, hs⟩ | ⟨rfl, hs⟩ | ⟨-, hs⟩ <;> simp only [hs]
    · simp
    · exact resumes_append hexec.resumes hrest
    · exact ih.resumes t'
  · rcases stack_cases S.stack t (e.frames ++ rest) e.spawned
      (.worker c i) with ⟨c', i', ho, heq, -⟩ | ⟨rfl, -⟩ | ⟨-, hs⟩
    · obtain ⟨rfl, rfl⟩ := Thread.worker.inj heq
      obtain ⟨-, -, hcreated⟩ := hexec.spawned ho
      exact hcreated ▸ Nat.lt_succ_self i
    · exact lt_of_lt_of_le (ih.live c i (by simp [hstack])) (hexec.created_le c)
    · simp only [hs] at hlive
      exact lt_of_lt_of_le (ih.live c i hlive) (hexec.created_le c)
  · obtain ⟨l, hl, hruns⟩ := ih.located t f (by simp [hstack])
    rcases stack_cases S.stack t (e.frames ++ rest) e.spawned t' with
      ⟨c, i, ho, rfl, hs⟩ | ⟨rfl, hs⟩ | ⟨-, hs⟩ <;> simp only [hs] at hg
    · obtain ⟨⟨sdb, rfl⟩, -, -⟩ := hexec.spawned ho
      obtain ⟨hc, hup⟩ := hl
      obtain rfl := List.mem_singleton.mp hg
      exact ⟨P.under c l, ⟨l, hup, rfl⟩, by simp [RunsBelow, Thread.builder, under, hc]⟩
    · rcases List.mem_append.mp hg with hg | hg
      · exact ⟨l, hexec.located hl g hg, hruns⟩
      · exact ih.located t' g (by simp [hstack, hg])
    · exact ih.located t' g hg

/-- The frames that replace the topmost one are on the stack of the same thread. -/
theorem WellFormed.mem_stack {S : State ι V T σ} (h : P.WellFormed S) {t : Thread ι} {f : Frame ι T}
    {rest : List (Frame ι T)} {e : Effect ι V T σ} (hstack : S.stack t = f :: rest)
    (hexec : Exec P S.shared f e) {g : Frame ι T} (hg : g ∈ e.frames) :
    g ∈ spawn (Function.update S.stack t (e.frames ++ rest)) e.spawned t := by
  rcases stack_cases S.stack t (e.frames ++ rest) e.spawned t with
    ⟨c, i, ho, rfl, -⟩ | ⟨-, hs⟩ | ⟨hne, -⟩
  · obtain ⟨-, rfl, -⟩ := hexec.spawned ho
    exact absurd (h.live c _ (by simp [hstack])) (lt_irrefl _)
  · rw [hs]
    exact List.mem_append_left _ hg
  · exact absurd rfl hne

/-! ### How a worker is started -/

end Pipeline

/-- How far the enqueuing side of a buffer is with starting the worker. -/
inductive Phase where
  | idle
  | constructing
  | assigning
  | finishing
  | enqueuing
  deriving DecidableEq

/-- What `created`, `joinable` and `_thread_started` are when one thread at a time
goes through the phases. -/
def Phase.Agrees (created : ℕ) (joinable threadStarted : Bool) : Phase → Prop
  | .idle => (created = 0 ∧ joinable = false ∧ threadStarted = false) ∨
      (created = 1 ∧ joinable = true ∧ threadStarted = true)
  | .constructing => created = 0 ∧ joinable = false ∧ threadStarted = false
  | .assigning => created = 1 ∧ joinable = false ∧ threadStarted = false
  | .finishing => created = 1 ∧ joinable = true ∧ threadStarted = false
  | .enqueuing => created = 1 ∧ joinable = true ∧ threadStarted = true

/-- In every phase of `start()` there is at most one worker. -/
theorem Phase.Agrees.created_le {created : ℕ} {joinable threadStarted : Bool} {phase : Phase}
    (h : phase.Agrees created joinable threadStarted) : created ≤ 1 := by
  cases phase <;> simp only [Agrees] at h <;> omega

/-- The phase of `c` that a frame is in. -/
def Frame.phase {ι T : Type*} [DecidableEq ι] (c : ι) : Frame ι T → Phase
  | .start c' _ => if c' = c then .constructing else .idle
  | .assign c' _ => if c' = c then .assigning else .idle
  | .started c' _ => if c' = c then .finishing else .idle
  | .enqueue c' _ => if c' = c then .enqueuing else .idle
  | _ => .idle

/-- A frame that does not feed `c` is in no phase of its `start()`. -/
theorem Frame.phase_of_ne {ι T : Type*} [DecidableEq ι] {c : ι} {f : Frame ι T}
    (h : f.side ≠ .producer c) : f.phase c = .idle := by
  cases f <;> simp_all [Frame.phase, Frame.side]

namespace Pipeline

variable {ι V T σ : Type*} [DecidableEq ι] {P : Pipeline ι V T σ}

/-- The phase of `c` that a thread is in. -/
def topPhase (c : ι) : List (Frame ι T) → Phase
  | [] => .idle
  | f :: _ => f.phase c

/-- A stack of frames that resume a call is in none either. -/
theorem topPhase_of_resumes {c : ι} {fs : List (Frame ι T)} (h : ∀ g ∈ fs, g.Resumes) :
    topPhase c fs = .idle := by
  cases fs with
  | nil => rfl
  | cons f fs => exact Frame.phase_of_ne ((h f (List.mem_cons_self ..)).not_producer c)

/-- Every buffer that all paths reach through the same buffers is started by the
thread below these, step by step. -/
def StartProtocol (P : Pipeline ι V T σ) (S : State ι V T σ) : Prop :=
  ∀ c l, P.Uniform c → P.Upstream c l →
    (topPhase c (S.stack (threadBelow l))).Agrees (S.shared.created c) (S.shared.joinable c)
      (S.shared.threadStarted c)

/-! #### The last buffer before an element -/

omit [DecidableEq ι] in
/-- The last buffer above an element is itself on the path. -/
theorem Upstream.last {n b : ι} {l : List ι} (h : P.Upstream n l) (hb : l.getLast? = some b) :
    ∃ l', P.Upstream b l' ∧ P.IsBuffer b ∧ l = l' ++ [b] := by
  induction h with
  | entry => simp at hb
  | @conn m n l h hmn ih =>
      unfold under at hb ⊢
      split_ifs at hb ⊢ with hm
      · obtain rfl : m = b := by simpa using hb
        exact ⟨l, h, hm, rfl⟩
      · exact ih hb

omit [DecidableEq ι] in
/-- What runs below buffers runs below a buffer. -/
theorem Located.isBuffer {s : Side ι} {l : List ι} {b : ι} (h : P.Located s l)
    (hb : l.getLast? = some b) : P.IsBuffer b := by
  cases s with
  | application => exact absurd hb (by rw [show l = [] from h]; simp)
  | producer c =>
      obtain ⟨-, -, hbuf, -⟩ := h.2.last hb
      exact hbuf
  | base n =>
      obtain ⟨l', hl', rfl⟩ := h
      unfold under at hb
      split_ifs at hb with hn
      · obtain rfl : n = b := by simpa using hb
        exact hn
      · obtain ⟨-, -, hbuf, -⟩ := hl'.last hb
        exact hbuf

omit [DecidableEq ι] in
/-- Only buffers have workers. -/
theorem WellFormed.isBuffer {S : State ι V T σ} (h : P.WellFormed S) {c : ι} {i : ℕ}
    (hlive : S.stack (.worker c i) ≠ []) : P.IsBuffer c := by
  obtain ⟨f, rest, hstack⟩ := List.exists_cons_of_ne_nil hlive
  obtain ⟨l, hl, hruns⟩ := h.located (.worker c i) f (by rw [hstack]; simp)
  exact hl.isBuffer hruns.symm

omit [DecidableEq ι] in
/-- Another way to the last buffer before `n` is another way to `n`. -/
theorem Upstream.reroute {n b : ι} {l l' : List ι} (h : P.Upstream n l) (hb : l.getLast? = some b)
    (h' : P.Upstream b l') : P.Upstream n (l' ++ [b]) := by
  induction h with
  | entry => simp at hb
  | @conn m n l h hmn ih =>
      unfold under at hb
      split_ifs at hb with hm
      · obtain rfl : m = b := by simpa using hb
        have := Upstream.conn h' hmn
        rwa [under, if_pos hm] at this
      · have := Upstream.conn (ih hb) hmn
        rwa [under, if_neg hm] at this

omit [DecidableEq ι] in
/-- If all paths to `n` lead through the same buffers, so do those to the last of
these. -/
theorem Uniform.last {n b : ι} {l : List ι} (hn : P.Uniform n) (h : P.Upstream n l)
    (hb : l.getLast? = some b) : P.Uniform b := fun _ _ h₁ h₂ =>
  List.append_cancel_right (hn _ _ (h.reroute hb h₁) (h.reroute hb h₂))

omit [DecidableEq ι] in
/-- A buffer that all paths reach through the same buffers is not one of these. -/
theorem Uniform.last_ne {c : ι} {l : List ι} (hc : P.Uniform c) (h : P.Upstream c l) :
    l.getLast? ≠ some c := by
  intro hb
  obtain ⟨l', h', -, rfl⟩ := h.last hb
  simpa using congrArg List.length (hc _ _ h h')

/-! #### The threads below -/

variable {S : State ι V T σ}

/-- **A buffer has at most one worker**, if one thread feeds it. -/
theorem StartProtocol.created_le (h : P.StartProtocol S) {c : ι} {l : List ι} (hc : P.Uniform c)
    (hl : P.Upstream c l) : S.shared.created c ≤ 1 :=
  (h c l hc hl).created_le

/-- One thread runs below the buffers before `n`. -/
theorem StartProtocol.eq_threadBelow (h : P.StartProtocol S) (hS : P.WellFormed S) {n : ι} {l : List ι}
    (hn : P.Uniform n) (hl : P.Upstream n l) {t : Thread ι} (ht : S.stack t ≠ [])
    (hruns : RunsBelow t l) : t = threadBelow l := by
  cases t with
  | pusher =>
      obtain rfl : l = [] := List.getLast?_eq_none_iff.mp (Eq.symm hruns)
      rfl
  | worker b i =>
      have hb : l.getLast? = some b := Eq.symm hruns
      obtain ⟨l', hl', -, -⟩ := hl.last hb
      have h₁ := hS.live b i ht
      have h₂ := h.created_le (hn.last hl hb) hl'
      obtain rfl : i = 0 := by omega
      simp [threadBelow, hb]

/-- The enqueuing side of a buffer is used by the thread below the buffers before
it. -/
theorem StartProtocol.producer (h : P.StartProtocol S) (hS : P.WellFormed S) {c : ι} {l : List ι}
    (hc : P.Uniform c) (hl : P.Upstream c l) {t : Thread ι} {f : Frame ι T} (hf : f ∈ S.stack t)
    (hside : f.side = .producer c) : t = threadBelow l := by
  obtain ⟨l', hl', hruns⟩ := hS.located t f hf
  rw [hside] at hl'
  obtain rfl := hc _ _ hl hl'.2
  exact h.eq_threadBelow hS hc hl (List.ne_nil_of_mem hf) hruns

/-- And the rest of an element by the thread below these and, for a buffer, below
itself. -/
theorem StartProtocol.base (h : P.StartProtocol S) (hS : P.WellFormed S) {n : ι} {l : List ι}
    (hn : P.Uniform n) (hl : P.Upstream n l) {t : Thread ι} {f : Frame ι T} (hf : f ∈ S.stack t)
    (hside : f.side = .base n) : t = threadBelow (P.under n l) := by
  obtain ⟨l'', hloc, hruns⟩ := hS.located t f hf
  rw [hside] at hloc
  obtain ⟨l', hl', rfl⟩ := hloc
  obtain rfl := hn _ _ hl hl'
  unfold under at hruns ⊢
  split_ifs at hruns ⊢ with hbuf
  · cases t with
    | pusher => exact absurd hruns (by simp [RunsBelow, Thread.builder])
    | worker b i =>
        obtain rfl : b = n := by simpa [RunsBelow, Thread.builder] using hruns
        have h₁ := hS.live b i (List.ne_nil_of_mem hf)
        have h₂ := h.created_le hn hl
        obtain rfl : i = 0 := by omega
        simp [threadBelow]
  · exact h.eq_threadBelow hS hn hl (List.ne_nil_of_mem hf) hruns

/-! #### Every step keeps the protocol -/

/-- A frame that is not on the enqueuing side of `c` leaves its members alone, and
none of the frames that replace it is further than at the start of a call. -/
theorem Exec.other {sh : Shared ι T σ} {f : Frame ι T} {e : Effect ι V T σ} (h : Exec P sh f e) {c : ι}
    (hf : f.side ≠ .producer c) :
    (∀ g ∈ e.frames, g.phase c = .idle) ∧ e.shared.created c = sh.created c ∧
      e.shared.joinable c = sh.joinable c ∧ e.shared.threadStarted c = sh.threadStarted c := by
  have hpush : ∀ n sdb, (P.pushFrame n sdb).phase c = .idle := by
    intro n sdb
    unfold pushFrame
    split_ifs <;> rfl
  have hne : ∀ c', Side.producer c' ≠ .producer c → c ≠ c' := fun c' h heq => h (by rw [heq])
  cases h with
  | start c' sdb | terminate c' sdb _ | assign c' sdb _ | started c' sdb =>
      have hc := hne c' hf
      simp [Frame.phase, hc, hc.symm]
  | isStarted c' sdb _ | notStarted c' sdb _ => simp [Frame.phase, (hne c' hf).symm]
  | process n sdb => exact ⟨List.forall_mem_singleton.mpr rfl, rfl, rfl, rfl⟩
  | push | forward => exact ⟨List.forall_mem_cons.mpr ⟨hpush _ _, List.forall_mem_singleton.mpr rfl⟩,
      rfl, rfl, rfl⟩
  | _ => simp [Frame.phase]

/-- On the enqueuing side, a frame goes to the next phase. -/
theorem Exec.phase {sh : Shared ι T σ} {f : Frame ι T} {e : Effect ι V T σ} (h : Exec P sh f e) {c : ι}
    (hf : f.side = .producer c)
    (hagrees : (f.phase c).Agrees (sh.created c) (sh.joinable c) (sh.threadStarted c)) :
    (∀ g ∈ e.frames, (g.phase c).Agrees (e.shared.created c) (e.shared.joinable c)
        (e.shared.threadStarted c)) ∧
      (e.frames = [] → Phase.idle.Agrees (e.shared.created c) (e.shared.joinable c)
        (e.shared.threadStarted c)) := by
  cases h <;> simp_all [Frame.side, Frame.phase, Phase.Agrees]

/-- A step of a frame on the enqueuing side of `c` is the next step of the protocol. -/
theorem StartProtocol.step_producer (h : P.StartProtocol S) (hS : P.WellFormed S) {c : ι}
    {l : List ι} (hc : P.Uniform c) (hl : P.Upstream c l) {t : Thread ι} {f : Frame ι T}
    {rest : List (Frame ι T)} {e : Effect ι V T σ} (hstack : S.stack t = f :: rest)
    (hexec : Exec P S.shared f e) (hside : f.side = .producer c) :
    (topPhase c (spawn (Function.update S.stack t (e.frames ++ rest)) e.spawned
      (threadBelow l))).Agrees (e.shared.created c) (e.shared.joinable c)
        (e.shared.threadStarted c) := by
  have hrest : ∀ g ∈ rest, g.Resumes := fun g hg => hS.resumes t g (by rw [hstack]; exact hg)
  have hagrees := h c l hc hl
  obtain rfl := h.producer hS hc hl (show f ∈ S.stack t by simp [hstack]) hside
  rw [hstack] at hagrees
  obtain ⟨hnext, hdone⟩ := hexec.phase hside hagrees
  rcases stack_cases S.stack (threadBelow l) (e.frames ++ rest) e.spawned (threadBelow l) with
    ⟨b, i, ho, heq, -⟩ | ⟨-, hs⟩ | ⟨hne, -⟩
  · -- `c` constructs its own worker, which is not the thread below `l`
    obtain ⟨⟨sdb, rfl⟩, -, -⟩ := hexec.spawned ho
    obtain rfl : b = c := by simpa [Frame.side] using hside
    have hlast : l.getLast? = some b := by
      unfold threadBelow at heq
      split at heq
      · exact absurd heq (by simp)
      · obtain ⟨rfl, -⟩ := Thread.worker.inj heq
        assumption
    exact absurd hlast (hc.last_ne hl)
  · simp only [hs]
    cases hfs : e.frames with
    | nil =>
        rw [List.nil_append, topPhase_of_resumes hrest]
        exact hdone hfs
    | cons g fs => exact hnext g (by rw [hfs]; exact List.mem_cons_self ..)
  · exact absurd rfl hne

/-- Any other step changes nothing for `c`. -/
theorem StartProtocol.step_other (h : P.StartProtocol S) (hS : P.WellFormed S) {c : ι}
    {l : List ι} (hc : P.Uniform c) (hl : P.Upstream c l) {t : Thread ι} {f : Frame ι T}
    {rest : List (Frame ι T)} {e : Effect ι V T σ} (hstack : S.stack t = f :: rest)
    (hexec : Exec P S.shared f e) (hside : f.side ≠ .producer c) :
    (topPhase c (spawn (Function.update S.stack t (e.frames ++ rest)) e.spawned
      (threadBelow l))).Agrees (e.shared.created c) (e.shared.joinable c)
        (e.shared.threadStarted c) := by
  have hrest : ∀ g ∈ rest, g.Resumes := fun g hg => hS.resumes t g (by rw [hstack]; exact hg)
  have hagrees := h c l hc hl
  obtain ⟨hidle, hcreated, hjoinable, hstarted⟩ := hexec.other hside
  simp only [hcreated, hjoinable, hstarted]
  rcases stack_cases S.stack t (e.frames ++ rest) e.spawned
    (threadBelow l) with ⟨b, i, ho, heq, hs⟩ | ⟨heq, hs⟩ | ⟨-, hs⟩ <;> simp only [hs]
  · have hempty : S.stack (threadBelow l) = [] := by
      by_contra hne
      obtain ⟨-, rfl, -⟩ := hexec.spawned ho
      rw [heq] at hne
      exact absurd (hS.live b _ hne) (lt_irrefl _)
    rw [hempty] at hagrees
    exact hagrees
  · have hold : topPhase c (S.stack (threadBelow l)) = .idle := by
      rw [heq, hstack]
      exact Frame.phase_of_ne hside
    have hnew : topPhase c (e.frames ++ rest) = .idle := by
      cases hfs : e.frames with
      | nil => exact topPhase_of_resumes hrest
      | cons g fs => exact hidle g (by rw [hfs]; exact List.mem_cons_self ..)
    rw [hnew]
    rwa [hold] at hagrees
  · exact hagrees

/-- **A buffer that all paths reach through the same buffers is started by one
thread**, in every reachable state. -/
theorem Reachable.startProtocol {priv : ι → σ} {bs : List (SharedDataBlock T)}
    (h : P.Reachable priv bs S) : P.StartProtocol S := by
  refine h.induct (fun c l _ _ => ?_) fun S t f rest e hS ih hstack hexec _ c l hc hl => ?_
  · have htop : topPhase c ((init priv bs : State ι V T σ).stack (threadBelow l)) = .idle := by
      by_cases ht : threadBelow l = .pusher <;> simp [init, ht, topPhase, Frame.phase]
    rw [htop]
    exact Or.inl ⟨rfl, rfl, rfl⟩
  · by_cases hside : f.side = .producer c
    · exact ih.step_producer hS.wellFormed hc hl hstack hexec hside
    · exact ih.step_other hS.wellFormed hc hl hstack hexec hside

/-! ### Confinement -/

/-- The members an event uses; a call uses those of the element called. -/
def eventSide (P : Pipeline ι V T σ) : Event ι V T → Side ι
  | .call _ n _ => if P.IsBuffer n then .producer n else .base n
  | .enqueue n _ => .producer n
  | .skip n _ | .process n _ _ | .visit n _ _ _ | .dequeue n _ | .deliver n _ => .base n

/-- **`n`, before which lie the buffers `l`, is confined** to the thread below `l`
and, if it is a buffer, to its one worker: these are the threads whose stacks hold
the frames that work with its members. -/
structure Confined (P : Pipeline ι V T σ) (S : State ι V T σ) (n : ι) (l : List ι) : Prop where
  base : ∀ t, ∀ f ∈ S.stack t, f.side = .base n → t = threadBelow (P.under n l)
  producer : ∀ t, ∀ f ∈ S.stack t, f.side = .producer n → t = threadBelow l
  oneWorker : S.shared.created n ≤ 1

/-- A step of thread `t` that does something with the members of `n` is a step of
the thread `n` is confined to. -/
structure StepConfined (P : Pipeline ι V T σ) (t : Thread ι) (S S' : State ι V T σ) (n : ι)
    (l : List ι) : Prop where
  events : ∀ evs, S'.log = S.log ++ evs → ∀ ev ∈ evs,
    (P.eventSide ev = .base n → t = threadBelow (P.under n l)) ∧
      (P.eventSide ev = .producer n → t = threadBelow l)
  priv : S'.shared.priv n ≠ S.shared.priv n → t = threadBelow (P.under n l)
  hadError : S'.shared.hadError n ≠ S.shared.hadError n → t = threadBelow (P.under n l)
  threadStarted : S'.shared.threadStarted n ≠ S.shared.threadStarted n → t = threadBelow l
  joinable : S'.shared.joinable n ≠ S.shared.joinable n → t = threadBelow l
  created : S'.shared.created n ≠ S.shared.created n → t = threadBelow l
  queue : S'.shared.queue n ≠ S.shared.queue n →
    (t = threadBelow l ∧ ∃ sdb, S'.shared.queue n = S.shared.queue n ++ [sdb]) ∨
      (t = threadBelow (P.under n l) ∧ ∃ sdb, S.shared.queue n = sdb :: S'.shared.queue n)

/-- An update changes its own place only. -/
theorem eq_of_update_ne {β : Type*} {g : ι → β} {m n : ι} {x : β} (h : Function.update g m x n ≠ g n) :
    m = n := by
  by_contra hne
  exact h (Function.update_of_ne (Ne.symm hne) x g)

omit [DecidableEq ι] in
/-- A call is an event of the side that it is a frame of. -/
theorem eventSide_call (m : ι) (src : Source ι) (sdb : SharedDataBlock T) :
    P.eventSide (.call src m sdb) = (P.pushFrame m sdb).side :=
  (side_pushFrame m sdb).symm

/-- The members that a frame writes are those of its side. -/
theorem Exec.writes {sh : Shared ι T σ} {f : Frame ι T} {e : Effect ι V T σ} (h : Exec P sh f e)
    (n : ι) :
    (e.shared.priv n ≠ sh.priv n → f.side = .base n) ∧
      (e.shared.hadError n ≠ sh.hadError n → f.side = .base n) ∧
      (e.shared.threadStarted n ≠ sh.threadStarted n → f.side = .producer n) ∧
      (e.shared.joinable n ≠ sh.joinable n → f.side = .producer n) ∧
      (e.shared.created n ≠ sh.created n → f.side = .producer n) ∧
      (e.shared.queue n ≠ sh.queue n →
        (f.side = .producer n ∧ ∃ sdb, e.shared.queue n = sh.queue n ++ [sdb]) ∨
          (f.side = .base n ∧ ∃ sdb, sh.queue n = sdb :: e.shared.queue n)) := by
  cases h with
  | process m sdb =>
      refine ⟨fun h => congrArg Side.base (eq_of_update_ne h), fun h => ?_, ?_⟩
      · simp only [Pipeline.process] at h
        split_ifs at h
        · exact congrArg Side.base (eq_of_update_ne h)
        · exact absurd rfl h
      · simp [Pipeline.process]
  | start c sdb =>
      refine ⟨?_, ?_, ?_, ?_, fun h => congrArg Side.producer (eq_of_update_ne h), ?_⟩ <;> simp
  | assign c sdb hj =>
      refine ⟨?_, ?_, ?_, fun h => congrArg Side.producer (eq_of_update_ne h), ?_, ?_⟩ <;> simp
  | started c sdb =>
      refine ⟨?_, ?_, fun h => congrArg Side.producer (eq_of_update_ne h), ?_, ?_, ?_⟩ <;> simp
  | enqueue c sdb hlt =>
      refine ⟨by simp, by simp, by simp, by simp, by simp, fun h => Or.inl ?_⟩
      obtain rfl : c = n := eq_of_update_ne h
      exact ⟨rfl, sdb, Function.update_self ..⟩
  | dequeue c sdb sdbs hq =>
      refine ⟨by simp, by simp, by simp, by simp, by simp, fun h => Or.inr ?_⟩
      obtain rfl : c = n := eq_of_update_ne h
      exact ⟨rfl, sdb, by simp [hq]⟩
  | _ => simp

/-- What a frame does is done to the elements of its side, but for the call it
makes. -/
theorem Exec.eventSide {sh : Shared ι T σ} {f : Frame ι T} {e : Effect ι V T σ} (h : Exec P sh f e) :
    ∀ ev ∈ e.events, P.eventSide ev = f.side ∨ ∃ g ∈ e.frames, P.eventSide ev = g.side := by
  cases h with
  | push | forward =>
      exact List.forall_mem_singleton.mpr (Or.inr ⟨_, List.mem_cons_self .., eventSide_call ..⟩)
  | skip | process | visit | enqueue | dequeue | deliver =>
      exact List.forall_mem_singleton.mpr (Or.inl rfl)
  | _ => exact fun _ hev => absurd hev List.not_mem_nil

/-- **An element that all paths reach through the same buffers is confined.** -/
theorem Reachable.confined {priv : ι → σ} {bs : List (SharedDataBlock T)} (h : P.Reachable priv bs S)
    {n : ι} {l : List ι} (hn : P.Uniform n) (hl : P.Upstream n l) : Confined P S n l where
  base _ _ hf hside := h.startProtocol.base h.wellFormed hn hl hf hside
  producer _ _ hf hside := h.startProtocol.producer h.wellFormed hn hl hf hside
  oneWorker := h.startProtocol.created_le hn hl

/-- And so is every step. -/
theorem Reachable.stepConfined {priv : ι → σ} {bs : List (SharedDataBlock T)}
    (h : P.Reachable priv bs S) {n : ι} {l : List ι} (hn : P.Uniform n) (hl : P.Upstream n l)
    {t : Thread ι} {S' : State ι V T σ} (hstep : P.step t S = some S') : StepConfined P t S S' n l := by
  have hconf := h.confined hn hl
  have h' : P.Reachable priv bs S' := h.tail (.thread ⟨t, hstep⟩)
  have hconf' := h'.confined hn hl
  obtain ⟨f, rest, e, hstack, -, hexec, rfl⟩ := step_cases hstep
  have hf : f ∈ S.stack t := by simp [hstack]
  have hbase := hconf.base t f hf
  have hproducer := hconf.producer t f hf
  obtain ⟨hpriv, herr, hstarted, hjoinable, hcreated, hqueue⟩ := hexec.writes n
  refine ⟨fun evs hevs ev hev => ?_, fun h => hbase (hpriv h), fun h => hbase (herr h),
    fun h => hproducer (hstarted h), fun h => hproducer (hjoinable h), fun h => hproducer (hcreated h),
    fun h => (hqueue h).imp (fun hq => ⟨hproducer hq.1, hq.2⟩) fun hq => ⟨hbase hq.1, hq.2⟩⟩
  obtain rfl := List.append_cancel_left hevs
  rcases hexec.eventSide ev hev with hside | ⟨g, hg, hside⟩
  · rw [hside]
    exact ⟨hbase, hproducer⟩
  · -- a call leaves the first frame of the callee on the stack of the caller
    have hmem := h.wellFormed.mem_stack hstack hexec hg
    rw [hside]
    exact ⟨hconf'.base t g hmem, hconf'.producer t g hmem⟩

omit [DecidableEq ι] in
/-- Frames of `n` below whose every path the same buffer is the last one. -/
theorem WellFormed.builder_eq (h : P.WellFormed S) {n : ι} {b : Option ι}
    (hn : ∀ l, P.Upstream n l → l.getLast? = b) {t : Thread ι} {f : Frame ι T} (hf : f ∈ S.stack t)
    (hside : f.side = .producer n ∨ (¬ P.IsBuffer n ∧ f.side = .base n)) : t.builder = b := by
  obtain ⟨l, hl, hruns⟩ := h.located t f hf
  rcases hside with hside | ⟨hbuf, hside⟩ <;> rw [hside] at hl
  · exact hruns.trans (hn l hl.2)
  · obtain ⟨l', hl', rfl⟩ := hl
    rw [under, if_neg hbuf] at hruns
    exact hruns.trans (hn l' hl')

omit [DecidableEq ι] in
/-- The only worker of a buffer is the first. -/
theorem WellFormed.eq_worker (h : P.WellFormed S) {t : Thread ι} {f : Frame ι T} (hf : f ∈ S.stack t)
    {c : ι} (ht : t.builder = some c) (hc : S.shared.created c ≤ 1) : t = .worker c 0 := by
  rcases t with _ | ⟨c', i⟩
  · exact absurd ht (by simp [Thread.builder])
  · obtain rfl : c' = c := Option.some.inj ht
    have hlt := h.live c' i (List.ne_nil_of_mem hf)
    obtain rfl : i = 0 := by omega
    rfl

/-- **Thread confinement.**  In every reachable state of every interleaving: if all
paths from the entry to `n` lead through the same buffers `l`, then `n` is confined
to the thread below `l` and, if it is a buffer, to its one worker, and so is every
step.  If the last buffer on all paths to `n` is the same (or there is none), then
the frames of `n`, or of its enqueuing side if it is a buffer, are on the stacks of
threads that this buffer has constructed (or of the pushing thread), and on that of
its one worker if it has not constructed a second. -/
theorem thread_confinement {priv : ι → σ} {bs : List (SharedDataBlock T)} (h : P.Reachable priv bs S)
    (n : ι) :
    (∀ l, P.Uniform n → P.Upstream n l → Confined P S n l ∧
      ∀ t S', P.step t S = some S' → StepConfined P t S S' n l) ∧
    ∀ b, (∀ l, P.Upstream n l → l.getLast? = b) → ∀ t, ∀ f ∈ S.stack t,
      f.side = .producer n ∨ (¬ P.IsBuffer n ∧ f.side = .base n) → t.builder = b ∧
        ∀ c, b = some c → S.shared.created c ≤ 1 → t = .worker c 0 :=
  ⟨fun _ hn hl => ⟨h.confined hn hl, fun _ _ hstep => h.stepConfined hn hl hstep⟩,
    fun _ hn _ _ hf hside => by
      have hb := h.wellFormed.builder_eq hn hf hside
      exact ⟨hb, fun _ hc hone => h.wellFormed.eq_worker hf (hb.trans hc) hone⟩⟩

/-! ### Two workers of one buffer -/

end Pipeline

/-- The elements of `racing`. -/
inductive RacingElement where
  | source
  | detour
  | shared
  | target
  deriving DecidableEq

namespace Pipeline

/-- `source` feeds the buffers `detour` and `shared`, and `detour` feeds `shared` as
well, which feeds `target`.  So `shared` is the last buffer on all paths to `target`,
but two threads push into it. -/
def racing : Pipeline RacingElement Unit ℕ Unit where
  processData _ st sdb := (st, sdb)
  visitors _ := []
  processors := fun
    | .source => [.detour, .shared]
    | .detour => [.shared]
    | .shared => [.target]
    | .target => []
  maxBlocks := fun
    | .source | .target => none
    | .detour | .shared => some 4
  entry := .source
  processData_buffer _ _ _ _ := rfl

/-- The pusher and the worker of `detour` both find `_thread_started` of `shared`
unset; both construct a worker, and each of the two takes a block to `target`. -/
def racingSchedule : List (Thread RacingElement) :=
  List.replicate 12 .pusher ++ List.replicate 7 (.worker .detour 0) ++ List.replicate 15 .pusher ++
    [.worker .detour 0] ++ List.replicate 6 (.worker .shared 0) ++ List.replicate 6 (.worker .shared 1)

/-- The last buffer before `target` is `shared`, on all paths. -/
theorem upstream_racing_target {l : List RacingElement} (h : racing.Upstream .target l) :
    l.getLast? = some .shared := by
  generalize hn : RacingElement.target = n at h
  cases h with
  | entry => exact absurd hn (by decide)
  | @conn m _ l' h' hmn =>
      have hm : .target ∈ racing.processors m := hn ▸ hmn
      cases m with
      | shared => simp [under, IsBuffer, racing]
      | _ => exact absurd hm (by decide)

/-- **The last buffer before an element does not confine it**: the element `target`
of `racing`, before which `shared` is the last buffer on all paths, is run by two
threads at the same time. -/
theorem not_confined_racing :
    (∀ l, racing.Upstream .target l → l.getLast? = some .shared) ∧
      ¬ ∀ S, racing.Reachable (fun _ => ()) [⟨some 1, none⟩, ⟨some 2, none⟩] S →
        ∃ t, ∀ t', ∀ f ∈ S.stack t', f.side = .base .target → t' = t := by
  refine ⟨fun l => upstream_racing_target, fun h => ?_⟩
  have hrun : (racing.run racingSchedule
      (init (fun _ => ()) [⟨some 1, none⟩, ⟨some 2, none⟩])).map (fun S =>
        (S.stack (.worker .shared 0)).any (fun f => decide (f.side = .base .target)) &&
          (S.stack (.worker .shared 1)).any fun f => decide (f.side = .base .target)) = some true := by
    decide
  obtain ⟨S, hS, hboth⟩ := Option.map_eq_some_iff.mp hrun
  simp only [Bool.and_eq_true, List.any_eq_true, decide_eq_true_eq] at hboth
  obtain ⟨⟨f₀, hf₀, hside₀⟩, f₁, hf₁, hside₁⟩ := hboth
  have hreach : racing.Reachable (fun _ => ()) [⟨some 1, none⟩, ⟨some 2, none⟩] S :=
    Reachable.run .refl hS
  obtain ⟨t, ht⟩ := h S hreach
  exact absurd ((ht _ f₀ hf₀ hside₀).trans (ht _ f₁ hf₁ hside₁).symm) (by simp)

/-- Only `source` feeds `detour`, and no buffer stands before it. -/
theorem upstream_racing_detour {l : List RacingElement} : racing.Upstream .detour l ↔ l = [] := by
  have hsource : ∀ {n : RacingElement} {l : List RacingElement}, racing.Upstream n l → n = .source →
      l = [] := by
    intro n l h hn
    cases h with
    | entry => rfl
    | @conn m _ l' _ hmn =>
        have hm : .source ∈ racing.processors m := hn ▸ hmn
        cases m <;> exact absurd hm (by decide)
  constructor
  · intro h
    generalize hn : RacingElement.detour = n at h
    cases h with
    | entry => exact absurd hn (by decide)
    | @conn m _ l' h' hmn =>
        have hm : .detour ∈ racing.processors m := hn ▸ hmn
        cases m with
        | source =>
            obtain rfl := hsource h' rfl
            rfl
        | _ => exact absurd hm (by decide)
  · rintro rfl
    have hadj : racing.Adj .source .detour := List.mem_cons_self ..
    exact .conn .entry hadj

/-- At the same time, the buffer `detour` of `racing` is confined to the pusher and
its one worker, and `target` is run only by workers of `shared`. -/
theorem thread_confinement_racing :
    ∃ S, racing.Reachable (fun _ => ()) [⟨some 1, none⟩, ⟨some 2, none⟩] S ∧
      S.stack (.worker .detour 0) ≠ [] ∧ Confined racing S .detour [] ∧
      (∀ t S', racing.step t S = some S' → StepConfined racing t S S' .detour []) ∧
      (∀ t, ∀ f ∈ S.stack t, f.side = .producer .detour → t.builder = none) ∧
      ∀ t, ∀ f ∈ S.stack t, f.side = .base .target → t.builder = some .shared := by
  have hrun : (racing.run racingSchedule
      (init (fun _ => ()) [⟨some 1, none⟩, ⟨some 2, none⟩])).map (fun S =>
        decide (S.stack (.worker .detour 0) = [])) = some false := by
    decide
  obtain ⟨S, hS, hlive⟩ := Option.map_eq_some_iff.mp hrun
  have hreach : racing.Reachable (fun _ => ()) [⟨some 1, none⟩, ⟨some 2, none⟩] S :=
    Reachable.run .refl hS
  obtain ⟨hconfined, hlast⟩ := thread_confinement hreach .detour
  obtain ⟨hnow, hstep⟩ := hconfined []
    (fun l l' hl hl' => (upstream_racing_detour.mp hl).trans (upstream_racing_detour.mp hl').symm)
    (upstream_racing_detour.mpr rfl)
  have hlast' := (thread_confinement hreach .target).2 (some .shared) fun l => upstream_racing_target
  refine ⟨S, hreach, of_decide_eq_false hlive, hnow, hstep, fun t f hf hside => ?_,
    fun t f hf hside => ?_⟩
  · exact (hlast none (fun l hl => by rw [upstream_racing_detour.mp hl]; rfl) t f hf (Or.inl hside)).1
  · exact (hlast' t f hf (Or.inr ⟨by decide, hside⟩)).1

end Pipeline
end CppDataStream
