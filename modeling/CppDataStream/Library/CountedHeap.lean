/-
# Objects with reference counts

Pointers, some of them null, to objects with a use count.  Copying a pointer increments
the count of its object, dropping one decrements it, and the last one destroys the
object.  Addresses are used again: an `Allocator` returns any that is free.

An operation on an address where there is no object is undefined, `none` here.  None is
as long as the counts are the numbers of the pointers, temporaries included (`Counted`),
which every operation keeps.  Where nobody writes to objects, a variable then reads what
was assigned to it last, as if it had the object for itself (`Memory.Sound.assign`,
`Memory.Sound.make`).
-/

import Mathlib.Data.Set.Card
import Mathlib.Tactic.Common

namespace CppDataStream
namespace CountedHeap

/-- An object, and its use count. -/
structure Cell (α : Type*) where
  count : ℕ
  value : α

/-- The objects by their addresses, finitely many. -/
structure Heap (α : Type*) where
  cells : ℕ → Option (Cell α)
  bound : ℕ
  unused : ∀ a, bound ≤ a → cells a = none

/-- Finds an address where no object is. -/
structure Allocator (α : Type*) where
  alloc : Heap α → ℕ
  free : ∀ h : Heap α, h.cells (alloc h) = none

/-- Returns the addresses one after the other. -/
def Allocator.next (α : Type*) : Allocator α := ⟨Heap.bound, fun h => h.unused _ le_rfl⟩

namespace Heap

variable {α : Type*} {h h' : Heap α} {a : ℕ}

def empty : Heap α := ⟨fun _ => none, 0, fun _ _ => rfl⟩

/-- The heap with `cell` at address `a`. -/
def set (h : Heap α) (a : ℕ) (cell : Option (Cell α)) : Heap α where
  cells := Function.update h.cells a cell
  bound := max h.bound (a + 1)
  unused b hb := by
    rw [Function.update_of_ne (by omega)]
    exact h.unused b (by omega)

/-- The use count; 0 where there is no object. -/
def count (h : Heap α) (a : ℕ) : ℕ := (h.cells a).elim 0 Cell.count

def value (h : Heap α) (a : ℕ) : Option α := (h.cells a).map Cell.value

/-- A pointer is copied. -/
def retain (h : Heap α) : Option ℕ → Option (Heap α)
  | none => some h
  | some a => (h.cells a).map fun cell => h.set a (some { cell with count := cell.count + 1 })

/-- A pointer is dropped. -/
def release (h : Heap α) : Option ℕ → Option (Heap α)
  | none => some h
  | some a => (h.cells a).map fun cell =>
      h.set a (if cell.count ≤ 1 then none else some { cell with count := cell.count - 1 })

/-- A cell that is written holds what is written. -/
@[simp] theorem set_cells (cell : Option (Cell α)) : (h.set a cell).cells a = cell :=
  Function.update_self ..

/-- No other cell is written. -/
theorem set_cells_of_ne {b : ℕ} (hb : b ≠ a) (cell : Option (Cell α)) :
    (h.set a cell).cells b = h.cells b :=
  Function.update_of_ne hb ..

/-- One more handle changes no value. -/
theorem value_retain {p : Option ℕ} (hh : h.retain p = some h') (b : ℕ) : h'.value b = h.value b := by
  cases p with
  | none => rw [Option.some.inj hh]
  | some a =>
      obtain ⟨cell, hcell, rfl⟩ := Option.map_eq_some_iff.mp hh
      by_cases hb : b = a
      · subst hb
        simp [value, hcell]
      · rw [value, set_cells_of_ne hb, value]

/-- What is left is as it was. -/
theorem value_release {p : Option ℕ} (hh : h.release p = some h') {b : ℕ} (hb : h'.cells b ≠ none) :
    h'.value b = h.value b := by
  cases p with
  | none => rw [Option.some.inj hh]
  | some a =>
      obtain ⟨cell, hcell, rfl⟩ := Option.map_eq_some_iff.mp hh
      by_cases hba : b = a
      · subst hba
        rw [set_cells] at hb
        split_ifs at hb with hle
        · exact absurd rfl hb
        · simp [value, hcell, hle]
      · rw [value, set_cells_of_ne hba, value]

end Heap

/-! ### Counts are numbers of pointers -/

variable {X α : Type*}

/-- **The count of an object is the number of pointers to it**: those in `handle`, and
the temporaries `spare`. -/
structure Counted (h : Heap α) (handle : X → Option ℕ) (spare : List ℕ) : Prop where
  count : ∀ a, ∃ n : ℕ, {x | handle x = some a}.encard = n ∧ n + spare.count a = h.count a
  pos : ∀ a cell, h.cells a = some cell → 0 < cell.count

/-- The pointers to `a`, and `x` among them. -/
theorem encard_eq_add (handle : X → Option ℕ) (x : X) (a : ℕ) :
    {y | handle y = some a}.encard =
      {y | y ≠ x ∧ handle y = some a}.encard + (handle x).toList.count a := by
  by_cases hx : handle x = some a
  · have hinsert : {y | handle y = some a} = insert x {y | y ≠ x ∧ handle y = some a} := by
      ext y
      by_cases hy : y = x <;> simp [hy, hx]
    rw [hinsert, Set.encard_insert_of_notMem (by simp), hx]
    simp
  · have hsame : {y | handle y = some a} = {y | y ≠ x ∧ handle y = some a} := by
      ext y
      by_cases hy : y = x <;> simp [hy, hx]
    have hzero : (handle x).toList.count a = 0 :=
      List.count_eq_zero.mpr fun hmem => hx (Option.mem_toList.mp hmem)
    rw [← hsame, hzero, Nat.cast_zero, add_zero]

namespace Counted

variable {h : Heap α} {handle : X → Option ℕ} {spare : List ℕ} {p : Option ℕ} {a : ℕ}

/-- The empty heap counts no handle. -/
theorem empty : Counted (Heap.empty : Heap α) (fun _ : X => none) [] where
  count a := ⟨0, by simp, by simp [Heap.count, Heap.empty]⟩
  pos a cell hcell := by simp [Heap.empty] at hcell

/-- A free cell is not counted. -/
theorem count_eq_zero (ha : h.cells a = none) : h.count a = 0 := by simp [Heap.count, ha]

/-- Where a pointer points to there is an object. -/
theorem ne_none_of_handle (hc : Counted h handle spare) {x : X} (hx : handle x = some a) :
    h.cells a ≠ none := fun hnone => by
  obtain ⟨n, hn, hcount⟩ := hc.count a
  rw [count_eq_zero hnone] at hcount
  obtain rfl : n = 0 := by omega
  exact Set.eq_empty_iff_forall_notMem.mp (Set.encard_eq_zero.mp hn) x hx

/-- A spare handle is of a cell that is there. -/
theorem ne_none_of_spare (hc : Counted h handle spare) (ha : a ∈ spare) :
    h.cells a ≠ none := fun hnone => by
  obtain ⟨n, -, hcount⟩ := hc.count a
  rw [count_eq_zero hnone] at hcount
  have := List.count_pos_iff.mpr ha
  omega

/-- **Nothing leaks**: there is a pointer to every object. -/
theorem exists_pointer (hc : Counted h handle spare) (ha : h.cells a ≠ none) :
    (∃ x, handle x = some a) ∨ a ∈ spare := by
  obtain ⟨cell, hcell⟩ := Option.ne_none_iff_exists'.mp ha
  by_contra hnot
  rw [not_or, not_exists] at hnot
  obtain ⟨n, hn, hcount⟩ := hc.count a
  have hempty : {x | handle x = some a} = ∅ := Set.eq_empty_iff_forall_notMem.mpr hnot.1
  rw [hempty, Set.encard_empty] at hn
  have hzero : n = 0 := by exact_mod_cast hn.symm
  have hpos := hc.pos a cell hcell
  rw [hzero, List.count_eq_zero.mpr hnot.2, Heap.count, hcell, Option.elim_some] at hcount
  omega

/-- Changing one cell, by as much as the temporaries. -/
theorem set (hc : Counted h handle spare) {spare' : List ℕ} {cell : Option (Cell α)}
    (hother : ∀ b, b ≠ a → spare'.count b = spare.count b)
    (hself : cell.elim 0 Cell.count + spare.count a = h.count a + spare'.count a)
    (hpos : ∀ c, cell = some c → 0 < c.count) : Counted (h.set a cell) handle spare' := by
  refine ⟨fun b => ?_, fun b c hcell => ?_⟩
  · obtain ⟨n, hn, hcount⟩ := hc.count b
    refine ⟨n, hn, ?_⟩
    by_cases hb : b = a
    · subst hb
      rw [Heap.count, Heap.set_cells]
      omega
    · rw [Heap.count, Heap.set_cells_of_ne hb, hother b hb]
      exact hcount
  · by_cases hb : b = a
    · subst hb
      rw [Heap.set_cells] at hcell
      exact hpos c hcell
    · rw [Heap.set_cells_of_ne hb] at hcell
      exact hc.pos b c hcell

/-- The copy of a pointer is one more temporary. -/
theorem retain (hc : Counted h handle spare) (hp : ∀ a, p = some a → h.cells a ≠ none) :
    ∃ h', h.retain p = some h' ∧ Counted h' handle (p.toList ++ spare) := by
  cases p with
  | none => exact ⟨h, rfl, hc⟩
  | some a =>
      obtain ⟨cell, hcell⟩ := Option.ne_none_iff_exists'.mp (hp a rfl)
      refine ⟨_, Option.map_eq_some_iff.mpr ⟨cell, hcell, rfl⟩,
        hc.set (fun b hb => ?_) ?_ fun c hc' => ?_⟩
      · simp [hb.symm]
      · simp [Heap.count, hcell]
        omega
      · obtain rfl := Option.some.inj hc'
        exact Nat.succ_pos _

/-- A temporary is dropped. -/
theorem release (hc : Counted h handle (p.toList ++ spare)) :
    ∃ h', h.release p = some h' ∧ Counted h' handle spare := by
  cases p with
  | none => exact ⟨h, rfl, hc⟩
  | some a =>
      obtain ⟨cell, hcell⟩ := Option.ne_none_iff_exists'.mp (hc.ne_none_of_spare (List.mem_cons_self ..))
      have hpos := hc.pos a cell hcell
      refine ⟨_, Option.map_eq_some_iff.mpr ⟨cell, hcell, rfl⟩,
        hc.set (fun b hb => ?_) ?_ fun c hc' => ?_⟩
      · simp [hb.symm]
      · simp [Heap.count, hcell]
        split_ifs <;> simp <;> omega
      · split_ifs at hc' with hle
        obtain rfl := Option.some.inj hc'
        simp only
        omega

/-- A new object has one pointer to it. -/
theorem alloc (hc : Counted h handle spare) (ha : h.cells a = none) (v : α) :
    Counted (h.set a (some ⟨1, v⟩)) handle (a :: spare) := by
  refine hc.set (fun b hb => by simp [hb.symm]) ?_ fun c hc' => ?_
  · simp [count_eq_zero ha]
    omega
  · obtain rfl := Option.some.inj hc'
    exact Nat.one_pos

/-- A temporary is stored, and what was there is a temporary. -/
theorem store [DecidableEq X] (hc : Counted h handle (p.toList ++ spare)) (x : X) :
    Counted h (Function.update handle x p) ((handle x).toList ++ spare) := by
  refine ⟨fun a => ?_, hc.pos⟩
  obtain ⟨n, hn, hcount⟩ := hc.count a
  have hold := encard_eq_add handle x a
  have hnew := encard_eq_add (Function.update handle x p) x a
  have hrest : {y | y ≠ x ∧ Function.update handle x p y = some a} =
      {y | y ≠ x ∧ handle y = some a} := by
    ext y
    by_cases hy : y = x <;> simp [hy]
  rw [hrest, Function.update_self] at hnew
  rw [hn] at hold
  obtain ⟨m, hm⟩ := ENat.ne_top_iff_exists.mp
    (show {y | y ≠ x ∧ handle y = some a}.encard ≠ ⊤ from fun htop => by simp [htop] at hold)
  rw [← hm] at hold hnew
  have hsum : n = m + (handle x).toList.count a := by exact_mod_cast hold
  refine ⟨m + p.toList.count a, by rw [hnew, Nat.cast_add], ?_⟩
  rw [List.count_append] at hcount ⊢
  omega

end Counted

/-! ### Variables that hold pointers -/

/-- The objects, and the pointers of the variables. -/
structure Memory (X α : Type*) where
  heap : Heap α
  handle : X → Option ℕ

namespace Memory

variable [DecidableEq X] {m : Memory X α} {spare : List ℕ} {p : Option ℕ}

omit [DecidableEq X] in
/-- All variables hold null pointers. -/
def init : Memory X α := ⟨.empty, fun _ => none⟩

omit [DecidableEq X] in
/-- The object of `x`; `none` if its pointer is null. -/
def read (m : Memory X α) (x : X) : Option α := (m.handle x).bind m.heap.value

/-- Pointer `p` is assigned to `x`. -/
def assign (m : Memory X α) (x : X) (p : Option ℕ) : Option (Memory X α) :=
  (m.heap.retain p).bind fun h =>
    (h.release (m.handle x)).map fun h => ⟨h, Function.update m.handle x p⟩

/-- A pointer to a new object is moved to `x`. -/
def make (A : Allocator α) (m : Memory X α) (x : X) (v : α) : Option (Memory X α) :=
  ((m.heap.set (A.alloc m.heap) (some ⟨1, v⟩)).release (m.handle x)).map fun h =>
    ⟨h, Function.update m.handle x (some (A.alloc m.heap))⟩

omit [DecidableEq X] in
/-- Pointer `p` is copied to a temporary. -/
def copy (m : Memory X α) (p : Option ℕ) : Option (Memory X α) :=
  (m.heap.retain p).map fun h => { m with heap := h }

omit [DecidableEq X] in
/-- A temporary `p` is dropped. -/
def drop (m : Memory X α) (p : Option ℕ) : Option (Memory X α) :=
  (m.heap.release p).map fun h => { m with heap := h }

omit [DecidableEq X] in
/-- Counts are right, with the temporaries `spare`. -/
def Sound (m : Memory X α) (spare : List ℕ) : Prop := Counted m.heap m.handle spare

/-- What variables read when the pointer of one changes, and the others keep their
objects. -/
theorem read_update {h : Heap α} {x : X} {w : Option α} (hself : p.bind h.value = w)
    (hother : ∀ y a, y ≠ x → m.handle y = some a → h.value a = m.heap.value a) :
    Memory.read ⟨h, Function.update m.handle x p⟩ = Function.update m.read x w := by
  funext y
  by_cases hy : y = x
  · subst hy
    simpa [read] using hself
  · simp only [read, Function.update_of_ne hy]
    cases hm : m.handle y with
    | none => rfl
    | some a => exact hother y a hy hm

/-- **An assignment is defined, and changes what the variable reads and no other.** -/
theorem Sound.assign (hc : m.Sound spare) (hp : ∀ a, p = some a → m.heap.cells a ≠ none) (x : X) :
    ∃ m', m.assign x p = some m' ∧ m'.Sound spare ∧ m'.handle = Function.update m.handle x p ∧
      m'.read = Function.update m.read x (p.bind m.heap.value) := by
  obtain ⟨h, hh, hc'⟩ := hc.retain hp
  obtain ⟨h', hh', hc''⟩ := (hc'.store x).release
  have hvalue : ∀ {y a}, Function.update m.handle x p y = some a → h'.value a = m.heap.value a :=
    fun hy => (Heap.value_release hh' (hc''.ne_none_of_handle hy)).trans (Heap.value_retain hh _)
  refine ⟨⟨h', Function.update m.handle x p⟩, by simp [Memory.assign, hh, hh'], hc'', rfl,
    read_update ?_ fun y a hy hm => hvalue (by rwa [Function.update_of_ne hy])⟩
  cases p with
  | none => rfl
  | some a => exact hvalue (Function.update_self ..)

/-- **A variable that is given a new object reads it, and no other changes.** -/
theorem Sound.make (hc : m.Sound spare) (A : Allocator α) (x : X) (v : α) :
    ∃ m', Memory.make A m x v = some m' ∧ m'.Sound spare ∧
      m'.read = Function.update m.read x (some v) := by
  have hfree := A.free m.heap
  have hc' : Counted _ m.handle ((some (A.alloc m.heap)).toList ++ spare) := hc.alloc hfree v
  obtain ⟨h, hh, hc''⟩ := (hc'.store x).release
  have hvalue : ∀ {y a}, Function.update m.handle x (some (A.alloc m.heap)) y = some a →
      h.value a = (m.heap.set (A.alloc m.heap) (some ⟨1, v⟩)).value a :=
    fun hy => Heap.value_release hh (hc''.ne_none_of_handle hy)
  refine ⟨⟨h, Function.update m.handle x (some (A.alloc m.heap))⟩, by simp [Memory.make, hh], hc'',
    read_update ?_ fun y a hy hm => ?_⟩
  · rw [Option.bind_some, hvalue (Function.update_self ..)]
    simp [Heap.value]
  · -- the new object is nobody else's
    have hne : a ≠ A.alloc m.heap := fun heq => hc.ne_none_of_handle hm (heq ▸ hfree)
    rw [hvalue (by rwa [Function.update_of_ne hy]), Heap.value, Heap.set_cells_of_ne hne, Heap.value]

omit [DecidableEq X] in
/-- No variable sees that a temporary comes. -/
theorem Sound.copy (hc : m.Sound spare) (hp : ∀ a, p = some a → m.heap.cells a ≠ none) :
    ∃ m', m.copy p = some m' ∧ m'.Sound (p.toList ++ spare) ∧ m'.handle = m.handle ∧
      m'.read = m.read := by
  obtain ⟨h, hh, hc'⟩ := hc.retain hp
  refine ⟨⟨h, m.handle⟩, by simp [Memory.copy, hh], hc', rfl, funext fun x => ?_⟩
  exact congrArg (m.handle x).bind (funext (Heap.value_retain hh))

omit [DecidableEq X] in
/-- No variable sees that it goes. -/
theorem Sound.drop (hc : m.Sound (p.toList ++ spare)) :
    ∃ m', m.drop p = some m' ∧ m'.Sound spare ∧ m'.handle = m.handle ∧ m'.read = m.read := by
  obtain ⟨h, hh, hc'⟩ := hc.release
  refine ⟨⟨h, m.handle⟩, by simp [Memory.drop, hh], hc', rfl, funext fun x => ?_⟩
  rw [read, read]
  cases hx : m.handle x with
  | none => rfl
  | some a => exact Heap.value_release hh (hc'.ne_none_of_handle hx)

end Memory
end CountedHeap
end CppDataStream
