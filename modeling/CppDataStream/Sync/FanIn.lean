/-
# Fan-in: one block per path, in path order

The push marks nothing unless it meets an error, so a processor that several
paths lead to is entered once for each of them.  With stateless processors that
emit no error, what a push of one block makes processor `n` emit is therefore a
list over the paths from the entry to `n`: in lexicographic order of the
connection positions, the block composed with the processors along the path
(`pushData_outputs_along`).  An exception cuts the list short but keeps it a list
of such paths.
-/

import CppDataStream.Library.Digraph
import CppDataStream.Library.Paths
import CppDataStream.Sync.Calls
import Mathlib.Data.Fintype.EquivFin

namespace CppDataStream

open Streams DirectedGraph Paths

variable {ι V T σ ν : Type*} [DecidableEq ι] [DecidableEq V]
  {G : Graph ι V T σ} {vis : V → StreamVisitor T ν} {fuel : ℕ}

/-- On blocks with `Q`, `processData` of every processor is the stateless function
`f`, which keeps to `Q` and emits no error. -/
structure StatelessOn (G : Graph ι V T σ) (Q : SharedDataBlock T → Prop)
    (f : ι → SharedDataBlock T → SharedDataBlock T) : Prop where
  output : ∀ n st sdb, Q sdb → (G.processData n st sdb).2 = f n sdb
  keeps : ∀ n sdb, Q sdb → Q (f n sdb)
  noError : ∀ n sdb, Q sdb → (f n sdb).isEopError = false

/-- `processData` of every processor is the stateless function `f`, and emits no
error. -/
structure Stateless (G : Graph ι V T σ) (f : ι → SharedDataBlock T → SharedDataBlock T) :
    Prop where
  output : ∀ n st sdb, (G.processData n st sdb).2 = f n sdb
  noError : ∀ n sdb, (f n sdb).isEopError = false

variable {Q : SharedDataBlock T → Prop} {f : ι → SharedDataBlock T → SharedDataBlock T}

omit [DecidableEq ι] [DecidableEq V] in
/-- A stateless graph is stateless on all blocks. -/
theorem Stateless.on (hf : Stateless G f) : StatelessOn G (fun _ => True) f where
  output n st sdb _ := hf.output n st sdb
  keeps _ _ _ := trivial
  noError n sdb _ := hf.noError n sdb

omit [DecidableEq V] in
/-- `processData` computes `f`, and raises no flag. -/
theorem StatelessOn.process (hf : StatelessOn G Q f) (n : ι) {sdb : SharedDataBlock T}
    (hsdb : Q sdb) (s : PushState ι V σ ν) :
    (G.process n sdb s).2 = f n sdb ∧ (G.process n sdb s).1.hadError = s.hadError := by
  have ho : (G.processData n (s.priv n) sdb).2 = f n sdb := hf.output n _ sdb hsdb
  exact ⟨ho, by simp [Graph.process, ho, hf.noError n sdb hsdb]⟩

/-- Paths to `n` in order, all of them unless an exception ended the run, along
which `n` has emitted what it has emitted. -/
structure OutputsAlong (G : Graph ι V T σ) (f : ι → SharedDataBlock T → SharedDataBlock T)
    (p : ι) (k : ℕ) (sdb : SharedDataBlock T) (n : ι) (r : Run ι V T σ ν) (ps : List (List ℕ)) :
    Prop where
  sorted : ps.Pairwise (· < ·)
  sound : ∀ π ∈ ps, walk G.processors p π = some n
  complete : r.thrown = none → ∀ j π, k ≤ j → walk G.processors p (j :: π) = some n → j :: π ∈ ps
  outputs_eq : outputs n r.events = ps.map fun π => along G.processors f p π sdb

/-- The paths take a position from `k` on first. -/
def TakeFrom (k : ℕ) (ps : List (List ℕ)) : Prop := ∀ π ∈ ps, ∃ j π', π = j :: π' ∧ k ≤ j

/-- Paths through position `k` and through later ones take a position from `k` on. -/
theorem TakeFrom.append {k : ℕ} {ps' : List (List ℕ)} (h : TakeFrom (k + 1) ps')
    (ps : List (List ℕ)) : TakeFrom k (ps.map (k :: ·) ++ ps') := by
  intro π hπ
  rcases List.mem_append.mp hπ with hπ | hπ
  · obtain ⟨π', -, rfl⟩ := List.mem_map.mp hπ
    exact ⟨k, π', rfl, le_rfl⟩
  · obtain ⟨j, π', rfl, hj⟩ := h π hπ
    exact ⟨j, π', rfl, by omega⟩

section Along

variable {p m c n : ι} {k : ℕ} {sdb : SharedDataBlock T} {r r' : Run ι V T σ ν}
  {ps ps' : List (List ℕ)}

omit [DecidableEq V] in
/-- Nothing is left at the end of the loop. -/
theorem outputsAlong_nil (s : PushState ι V σ ν) (hend : (G.processors m).drop k = []) :
    OutputsAlong G f m k sdb n ⟨s, [], none⟩ [] := by
  refine ⟨by simp, by simp, fun _ j π hj hw => ?_, rfl⟩
  obtain ⟨c, hc, -⟩ := Option.bind_eq_some_iff.mp hw
  have hlen := (List.getElem?_eq_some_iff.mp hc).1
  have hdrop := List.drop_eq_nil_iff.mp hend
  omega

omit [DecidableEq V] in
/-- A push into the element connected at position `k` runs along the paths through
it; an exception is the end of it. -/
theorem OutputsAlong.through_threw (h : OutputsAlong G f c 0 (f m sdb) n r ps)
    (hc : G.Conn m k c) {e : Exn} (ht : r.thrown = some e) :
    OutputsAlong G f m k sdb n r (ps.map (k :: ·)) := by
  refine ⟨?_, ?_, fun h => absurd (ht.symm.trans h) (by simp), ?_⟩
  · simpa using pairwise_lt_cons (k := k) h.sorted List.Pairwise.nil (by simp)
  · intro π hπ
    obtain ⟨π', hπ', rfl⟩ := List.mem_map.mp hπ
    exact (walk_cons hc π').trans (h.sound π' hπ')
  · rw [h.outputs_eq, List.map_map]
    exact List.map_congr_left fun π _ => by rw [Function.comp_apply, along_cons hc]

omit [DecidableEq V] in
/-- If it returns, the paths through later positions follow. -/
theorem OutputsAlong.through (h : OutputsAlong G f c 0 (f m sdb) n r ps) (hc : G.Conn m k c)
    (ht : r.thrown = none) (hnil : c = n → [] ∈ ps) (h' : OutputsAlong G f m (k + 1) sdb n r' ps')
    (hps' : TakeFrom (k + 1) ps') :
    OutputsAlong G f m k sdb n { r' with events := r.events ++ r'.events }
      (ps.map (k :: ·) ++ ps') := by
  refine ⟨pairwise_lt_cons h.sorted h'.sorted hps', ?_, fun ht' j π hj hw => ?_, ?_⟩
  · intro π hπ
    rcases List.mem_append.mp hπ with hπ | hπ
    · obtain ⟨π', hπ', rfl⟩ := List.mem_map.mp hπ
      exact (walk_cons hc π').trans (h.sound π' hπ')
    · exact h'.sound π hπ
  · rcases Nat.lt_or_ge k j with hkj | hkj
    · exact List.mem_append_right _ (h'.complete ht' j π hkj hw)
    · obtain rfl : k = j := by omega
      rw [walk_cons hc] at hw
      refine List.mem_append_left _ (List.mem_map_of_mem ?_)
      cases π with
      | nil => exact hnil (Option.some.inj hw)
      | cons i π => exact h.complete ht i π (Nat.zero_le i) hw
  · rw [outputs_append, h.outputs_eq, h'.outputs_eq, List.map_append, List.map_map]
    congr 1
    exact List.map_congr_left fun π _ => by rw [Function.comp_apply, along_cons hc]

/-- The part of a call before the loop emits the block of the empty path. -/
theorem outputsAlong_threw (hf : StatelessOn G Q f) (hsdb : Q sdb) (src : Source ι)
    (s : PushState ι V σ ν) {e : Exn} (ht : (G.visited vis src p sdb s).thrown = some e) (n : ι) :
    OutputsAlong G f p 0 sdb n (G.visited vis src p sdb s) (if p = n then [[]] else []) := by
  have ho := (hf.process p hsdb s).1
  by_cases hn : p = n
  · subst hn
    refine ⟨by simp, by simp [walk], fun h => absurd (ht.symm.trans h) (by simp), ?_⟩
    simp [outputs_visited, along, ho]
  · refine ⟨by simp [hn], by simp [hn], fun h => absurd (ht.symm.trans h) (by simp), ?_⟩
    simp [outputs_visited, hn]

/-- And the loop those of the others. -/
theorem OutputsAlong.pass (hf : StatelessOn G Q f) (hsdb : Q sdb) (src : Source ι)
    (s : PushState ι V σ ν) (h : OutputsAlong G f p 0 sdb n r ps) (hps : TakeFrom 0 ps) :
    OutputsAlong G f p 0 sdb n { r with events := (G.visited vis src p sdb s).events ++ r.events }
      (if p = n then [] :: ps else ps) := by
  have ho := (hf.process p hsdb s).1
  by_cases hn : p = n
  · subst hn
    rw [if_pos rfl]
    refine ⟨List.pairwise_cons.mpr ⟨fun π hπ => ?_, h.sorted⟩,
      List.forall_mem_cons.mpr ⟨rfl, h.sound⟩,
      fun ht j π hj hw => List.mem_cons_of_mem _ (h.complete ht j π hj hw), ?_⟩
    · obtain ⟨j, π', rfl, -⟩ := hps π hπ
      exact List.nil_lt_cons _ _
    · rw [outputs_append, outputs_visited, h.outputs_eq]
      simp [along, ho]
  · rw [if_neg hn]
    refine ⟨h.sorted, h.sound, h.complete, ?_⟩
    rw [outputs_append, outputs_visited, h.outputs_eq]
    simp [hn]

end Along

/-- **A push runs along the paths.**  With stateless processors that emit no
error, none of them failed, no flag is set, and every processor emits one block
per path to it, in path order, up to an exception. -/
theorem pushData_outputs_along (hf : StatelessOn G Q f) {src : Source ι} {p : ι}
    {sdb : SharedDataBlock T} (hsdb : Q sdb) {s : PushState ι V σ ν} {r : Run ι V T σ ν}
    (h : pushData G vis fuel src p sdb s = some r) (hs : ∀ n, s.hadError n = false) :
    r.state.hadError = s.hadError ∧ ∀ n, ∃ ps, OutputsAlong G f p 0 sdb n r ps ∧
      (r.thrown = none → p = n → [] ∈ ps) := by
  refine pushData_induct
    (P := fun _ p sdb s r => Q sdb → (∀ n, s.hadError n = false) →
      r.state.hadError = s.hadError ∧ ∀ n, ∃ ps, OutputsAlong G f p 0 sdb n r ps ∧
        (r.thrown = none → p = n → [] ∈ ps))
    (L := fun m output k cs s r => (∀ n, s.hadError n = false) → cs = (G.processors m).drop k →
      ∀ sdb, Q sdb → f m sdb = output →
      r.state.hadError = s.hadError ∧ ∀ n, ∃ ps, OutputsAlong G f m k sdb n r ps ∧ TakeFrom k ps)
    ?_ ?_ ?_ ?_ ?_ ?_ h hsdb hs
  · intro _ p sdb s he _ hs
    exact absurd (hs p) (by simp [he])
  · intro src p sdb s e _ ht hsdb hs
    refine ⟨visited_hadError.trans (hf.process p hsdb s).2, fun n =>
      ⟨_, outputsAlong_threw hf hsdb src s ht n, fun h => absurd (ht.symm.trans h) (by simp)⟩⟩
  · intro src p sdb s r _ ht hL hsdb hs
    obtain ⟨ho, he⟩ := hf.process p hsdb s
    obtain ⟨he', hL⟩ := hL (by rw [visited_hadError, he]; exact hs) rfl sdb hsdb ho.symm
    refine ⟨he'.trans (visited_hadError.trans he), fun n => ?_⟩
    obtain ⟨ps, hps, hfrom⟩ := hL n
    exact ⟨_, hps.pass hf hsdb src s hfrom, fun _ hn => by simp [hn]⟩
  · intro m output k s _ hcs sdb _ _
    exact ⟨rfl, fun n => ⟨[], outputsAlong_nil s hcs.symm, by simp [TakeFrom]⟩⟩
  · rintro fuel m output k c cs s r e - hP ht hs hcs sdb hQ rfl
    have hc : G.Conn m k c := by rw [Graph.Conn, ← List.head?_drop, ← hcs, List.head?_cons]
    obtain ⟨he, hP⟩ := hP (hf.keeps m sdb hQ) hs
    refine ⟨he, fun n => ?_⟩
    obtain ⟨ps, hps, -⟩ := hP n
    have hnone : TakeFrom (k + 1) [] := by simp [TakeFrom]
    exact ⟨_, hps.through_threw hc ht, by simpa using hnone.append ps⟩
  · rintro fuel m output k c cs s r r' - hP ht hL hs hcs sdb hQ rfl
    have hc : G.Conn m k c := by rw [Graph.Conn, ← List.head?_drop, ← hcs, List.head?_cons]
    have hcs' : cs = (G.processors m).drop (k + 1) := by
      rw [← List.tail_drop, ← hcs, List.tail_cons]
    obtain ⟨he, hP⟩ := hP (hf.keeps m sdb hQ) hs
    obtain ⟨he', hL⟩ := hL (by rw [he]; exact hs) hcs' sdb hQ rfl
    refine ⟨he'.trans he, fun n => ?_⟩
    obtain ⟨ps, hps, hnil⟩ := hP n
    obtain ⟨ps', hps', hfrom⟩ := hL n
    exact ⟨_, hps.through hc ht (hnil ht) hps' hfrom, hfrom.append ps⟩

omit [DecidableEq V] in
/-- The list of a push that returns is the list of all paths. -/
theorem OutputsAlong.pathsInOrder {p n : ι} {sdb : SharedDataBlock T} {r : Run ι V T σ ν}
    {ps : List (List ℕ)} (h : OutputsAlong G f p 0 sdb n r ps) (ht : r.thrown = none)
    (hnil : r.thrown = none → p = n → [] ∈ ps) : PathsInOrder G.processors p n ps where
  sorted := h.sorted
  mem_iff π := by
    refine ⟨h.sound π, fun hw => ?_⟩
    cases π with
    | nil => exact hnil ht (Option.some.inj hw)
    | cons j π => exact h.complete ht j π (Nat.zero_le j) hw

/-- **Fan-in delivers one block per path, in path order.**  On a finite acyclic
graph of stateless processors that emit no error, none of them failed, with
visitors that return, a push of `sdb` into `p` returns; what is passed through
every visitor connection of `n` is the list over all paths from `p` to `n`, in
lexicographic order, of `sdb` composed with the processors along the path; `n` is
called once per path, nothing happens at unreachable processors, and no flag
changes. -/
theorem pushData_fanIn [Finite ι] (hG : Acyclic G.Adj) (hf : Stateless G f)
    (hvis : ∀ v, (vis v).Returns) (p : ι) (sdb : SharedDataBlock T) (s : PushState ι V σ ν)
    (hs : ∀ n, s.hadError n = false) :
    ∃ fuel r, pushData G vis fuel .external p sdb s = some r ∧ r.thrown = none ∧
      r.state.hadError = s.hadError ∧
      (∀ n, ∃ ps, PathsInOrder G.processors p n ps ∧
        (inputs n r.events).length = ps.length ∧
        ∀ k, k < (G.visitors n).length →
          seen n k r.events = ps.map fun π => along G.processors f p π sdb) ∧
      (∀ n, ¬ Relation.ReflTransGen G.Adj p n → ∀ e ∈ r.events, e.node ≠ n) := by
  obtain ⟨fuel, hfuel⟩ := exists_fuel (σ := σ) vis hG.wellFounded p
  obtain ⟨r, hr⟩ := Option.isSome_iff_exists.mp (hfuel .external sdb s)
  have ht := (pushData_visited hr).returned hvis
  obtain ⟨he, hps⟩ := pushData_outputs_along hf.on trivial hr hs
  refine ⟨fuel, r, hr, ht, he, fun n => ?_, fun n hn e hev hen =>
    hn (hen ▸ pushData_reachable hr e hev)⟩
  obtain ⟨ps, hps, hnil⟩ := hps n
  refine ⟨ps, hps.pathsInOrder ht hnil, ?_, fun k hk => ?_⟩
  · have hl := (pushData_latch hr n).1
    rw [hs n] at hl
    rw [← length_latchOut_of_forall (fun st b => by rw [hf.output]; exact hf.noError n b), ← hl,
      hps.outputs_eq, List.length_map]
  · have hseen := pushData_seen hr hk
    rw [SeenOutputs, ht] at hseen
    exact hseen.trans hps.outputs_eq

/-- Every processor of the diamond appends its mark to the block: two copies reach
the join, first the one through `1`, then the one through `2`. -/
theorem pushData_fanIn_diamond :
    let G : Graph (Fin 4) Unit (List (Fin 4)) Unit :=
      ⟨fun n _ sdb => ((), ⟨some (sdb.data.getD [] ++ [n]), none⟩), fun _ => [()], diamond⟩
    let s : PushState (Fin 4) Unit Unit Unit := ⟨fun _ => (), fun _ => false, fun _ => ⟨none, ()⟩⟩
    ∃ fuel r, pushData G (fun _ => .user fun _ _ => ((), true)) fuel .external 0 ⟨some [], none⟩ s =
        some r ∧ r.thrown = none ∧ r.state.hadError = s.hadError ∧
      (∀ n, ∃ ps, PathsInOrder diamond 0 n ps ∧ (inputs n r.events).length = ps.length ∧
        ∀ k, k < (G.visitors n).length → seen n k r.events = ps.map fun π =>
          along diamond (fun n sdb => ⟨some (sdb.data.getD [] ++ [n]), none⟩) 0 π ⟨some [], none⟩) ∧
      (∀ n, ¬ Relation.ReflTransGen G.Adj 0 n → ∀ e ∈ r.events, e.node ≠ n) := by
  intro G s
  have hf : Stateless G fun n sdb => ⟨some (sdb.data.getD [] ++ [n]), none⟩ :=
    ⟨fun _ _ _ => rfl, fun _ _ => rfl⟩
  exact pushData_fanIn acyclic_diamond hf
    (fun _ => StreamVisitor.returns_of_ne (by simp)) 0 ⟨some [], none⟩ s fun _ => rfl

end CppDataStream
