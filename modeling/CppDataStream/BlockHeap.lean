/-
# Blocks on the heap

`include/cppdatastream/DataStream.hpp`, lines 169-212.  The data of a block is an object
that its `std::shared_ptr` points to.  Constructing, copying and assigning blocks copies
and drops pointers, `setData` makes a new object, and nothing writes to one; `asShared`
returns a copy, which is dropped when it has been assigned.

`CppDataStream.Block` has blocks as values.  `heap_refines_values` says that this is what
a program sees: whatever it does with its variables, no operation uses an object that was
destroyed, every variable reads the block that it has as a value, and the objects are
those that some variable points to, counted right.  The variables may be those of several
threads, one operation after the other.
-/

import CppDataStream.Block
import CppDataStream.Library.CountedHeap

namespace CppDataStream

open CountedHeap

deriving instance DecidableEq for BlockVar

/-- The variables of a program, with their data on the heap. -/
structure HeapVars (T : Type*) where
  memory : Memory BlockVar T := .init
  eop : BlockVar → Option EopStatus := fun _ => none

namespace HeapVars

variable {T : Type*}

/-- Pointer `p` and the status `eop` are assigned to the variable `v`. -/
def assign (s : HeapVars T) (v : BlockVar) (p : Option ℕ) (eop : Option EopStatus) :
    Option (HeapVars T) :=
  (s.memory.assign v p).map fun memory => ⟨memory, Function.update s.eop v eop⟩

/-- The operations of `BlockOp`; `none` if one uses an object that was destroyed. -/
def exec (A : Allocator T) (s : HeapVars T) : BlockOp T → Option (HeapVars T)
  | .construct x => s.assign (.writable x) none none
  | .constructShared r => s.assign (.shared r) none none
  | .setData x data => (Memory.make A s.memory (.writable x) data).map fun memory => { s with memory }
  | .setEndOfProcessing x eop => some { s with eop := Function.update s.eop (.writable x) (some eop) }
  | .createEos x eop => s.assign (.writable x) none (some eop)
  | .copy x y => s.assign (.writable x) (s.memory.handle (.writable y)) (s.eop (.writable y))
  | .copyShared r r' => s.assign (.shared r) (s.memory.handle (.shared r')) (s.eop (.shared r'))
  | .asShared r x => do
      -- the copy that `asShared` returns, its assignment, and its end
      let p := s.memory.handle (.writable x)
      let memory ← s.memory.copy p
      let s ← assign { s with memory } (.shared r) p (s.eop (.writable x))
      let memory ← s.memory.drop p
      pure { s with memory }

/-- A program. -/
def run (A : Allocator T) (ops : List (BlockOp T)) : Option (HeapVars T) := ops.foldlM (exec A) {}

/-- The block that a variable holds. -/
def block (s : HeapVars T) (v : BlockVar) : SharedDataBlock T := ⟨s.memory.read v, s.eop v⟩

end HeapVars

namespace BlockOp

variable {T : Type*}

/-- The variable that an operation changes. -/
def target : BlockOp T → BlockVar
  | .construct x | .setData x _ | .setEndOfProcessing x _ | .createEos x _ | .copy x _ => .writable x
  | .constructShared r | .copyShared r _ | .asShared r _ => .shared r

/-- The block that this variable has then. -/
def result (get : BlockVar → SharedDataBlock T) : BlockOp T → SharedDataBlock T
  | .construct _ | .constructShared _ => {}
  | .setData x data => { get (.writable x) with data := some data }
  | .setEndOfProcessing x eop => { get (.writable x) with eop := some eop }
  | .createEos _ eop => ⟨none, some eop⟩
  | .copy _ x | .asShared _ x => get (.writable x)
  | .copyShared _ r => get (.shared r)

/-- An operation on values. -/
theorem get_exec (vars : BlockVars T) (op : BlockOp T) :
    (vars.exec op).get = Function.update vars.get op.target (op.result vars.get) := by
  funext v
  cases op <;> cases v <;>
    simp only [BlockVars.exec, BlockVars.get, target, result, Function.update_apply,
      BlockVar.writable.injEq,
      BlockVar.shared.injEq, reduceCtorEq, if_false] <;> split_ifs <;> rfl

end BlockOp

namespace HeapVars

variable {T : Type*} {s : HeapVars T} {vars : BlockVars T} {v : BlockVar}

/-- The counts are right, and every variable holds the block that it has as a value. -/
structure Refines (s : HeapVars T) (vars : BlockVars T) : Prop where
  sound : s.memory.Sound []
  get : vars.get = s.block

/-- Memory and status of one variable change together. -/
theorem block_update {memory : Memory BlockVar T} {data : Option T} (eop : Option EopStatus)
    (hread : memory.read = Function.update s.memory.read v data) :
    block ⟨memory, Function.update s.eop v eop⟩ = Function.update s.block v ⟨data, eop⟩ := by
  funext w
  rw [block, hread]
  by_cases hw : w = v
  · subst hw
    simp
  · simp [Function.update_of_ne hw, block]

/-- No handle dangles. -/
theorem Refines.valid (h : s.Refines vars) {w : BlockVar} (a : ℕ) (ha : s.memory.handle w = some a) :
    s.memory.heap.cells a ≠ none :=
  h.sound.ne_none_of_handle ha

/-- A block that some variable holds, or none, is assigned. -/
theorem Refines.assign (h : s.Refines vars) {p : Option ℕ} {eop : Option EopStatus}
    (hp : ∀ a, p = some a → s.memory.heap.cells a ≠ none) :
    ∃ s', s.assign v p eop = some s' ∧ s'.memory.Sound [] ∧
      s'.block = Function.update vars.get v ⟨p.bind s.memory.heap.value, eop⟩ := by
  obtain ⟨memory, hmemory, hsound, -, hread⟩ := h.sound.assign hp v
  refine ⟨_, by rw [HeapVars.assign, hmemory]; rfl, hsound, ?_⟩
  rw [h.get]
  exact block_update eop hread

/-- **An operation does what it does to values**, and is defined. -/
theorem Refines.exec (h : s.Refines vars) (A : Allocator T) (op : BlockOp T) :
    ∃ s', exec A s op = some s' ∧ s'.Refines (vars.exec op) := by
  suffices hop : ∃ s', HeapVars.exec A s op = some s' ∧ s'.memory.Sound [] ∧
      s'.block = Function.update vars.get op.target (op.result vars.get) by
    obtain ⟨s', hs', hsound, hblock⟩ := hop
    exact ⟨s', hs', hsound, (BlockOp.get_exec vars op).trans hblock.symm⟩
  have hread : ∀ w, vars.get w = ⟨(s.memory.handle w).bind s.memory.heap.value, s.eop w⟩ := fun w =>
    congrFun h.get w
  cases op with
  | construct x | constructShared x | createEos x eop => exact h.assign fun _ hp => absurd hp (by simp)
  | setData x data =>
      obtain ⟨memory, hmemory, hsound, hnew⟩ := h.sound.make A (.writable x) data
      refine ⟨_, by rw [HeapVars.exec, hmemory]; rfl, hsound, ?_⟩
      have hblock := block_update (s.eop (.writable x)) hnew
      rw [Function.update_eq_self] at hblock
      rw [BlockOp.result, hread, h.get]
      exact hblock
  | setEndOfProcessing x eop =>
      refine ⟨_, rfl, h.sound, ?_⟩
      rw [BlockOp.result, hread, h.get]
      exact block_update (some eop) (Function.update_eq_self ..).symm
  | copy x y =>
      rw [BlockOp.result, hread]
      exact h.assign h.valid
  | copyShared r r' =>
      rw [BlockOp.result, hread]
      exact h.assign h.valid
  | asShared r x =>
      obtain ⟨copied, hcopied, hsound, hhandle, hsame⟩ :=
        h.sound.copy (p := s.memory.handle (.writable x))
        h.valid
      obtain ⟨assigned, hassigned, hsound, -, hnew⟩ := hsound.assign (p := s.memory.handle (.writable x))
        (fun a ha => hsound.ne_none_of_handle (x := .writable x) (hhandle ▸ ha)) (.shared r)
      obtain ⟨dropped, hdropped, hsound, -, hread'⟩ := hsound.drop
      have hdata : (s.memory.handle (.writable x)).bind copied.heap.value =
          s.memory.read (.writable x) := by
        rw [← hsame, Memory.read, hhandle]
      rw [hdata, hsame] at hnew
      refine ⟨⟨dropped, Function.update s.eop (.shared r) (s.eop (.writable x))⟩, ?_, hsound, ?_⟩
      · simp [HeapVars.exec, HeapVars.assign, hcopied, hassigned, hdropped]
      · rw [BlockOp.result, hread, h.get]
        exact block_update (s.eop (.writable x)) (hread'.trans hnew)

/-- **So does a program.** -/
theorem Refines.run (h : s.Refines vars) (A : Allocator T) (ops : List (BlockOp T)) :
    ∃ s', ops.foldlM (HeapVars.exec A) s = some s' ∧ s'.Refines (ops.foldl BlockVars.exec vars) := by
  induction ops generalizing s vars with
  | nil => exact ⟨s, rfl, h⟩
  | cons op ops ih =>
      obtain ⟨s₁, hs₁, h₁⟩ := h.exec A op
      obtain ⟨s', hs', h'⟩ := ih h₁
      exact ⟨s', by rw [List.foldlM_cons, hs₁]; exact hs', h'⟩

end HeapVars

/-- **On the heap, blocks are values.**  Whatever a program does with its variables, and
whatever addresses the allocator returns: no operation uses an object that was destroyed;
every variable holds the block that it has in `CppDataStream.Block`; and there is an
object where some variable points to, and nowhere else, whose use count is the number of
variables that point to it. -/
theorem heap_refines_values {T : Type*} (A : Allocator T) (ops : List (BlockOp T)) :
    ∃ s, HeapVars.run A ops = some s ∧ (∀ v, s.block v = build ops v) ∧
      (∀ a, {v | s.memory.handle v = some a}.encard = s.memory.heap.count a) ∧
      ∀ a, s.memory.heap.cells a ≠ none ↔ ∃ v, s.memory.handle v = some a := by
  have hinit : HeapVars.Refines (T := T) {} ⟨fun _ => {}, fun _ => {}⟩ :=
    ⟨Counted.empty, funext fun v => by cases v <;> rfl⟩
  obtain ⟨s, hs, hrefines⟩ := hinit.run A ops
  refine ⟨s, hs, fun v => (congrFun hrefines.get v).symm, fun a => ?_, fun a => ⟨fun ha => ?_, ?_⟩⟩
  · obtain ⟨n, hn, hcount⟩ := hrefines.sound.count a
    exact hn.trans (congrArg _ hcount)
  · exact (hrefines.sound.exists_pointer ha).resolve_right List.not_mem_nil
  · rintro ⟨v, hv⟩
    exact hrefines.sound.ne_none_of_handle hv

end CppDataStream
