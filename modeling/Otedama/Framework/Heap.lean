import Mathlib.Data.List.Basic

/-! # Heaps

Values behind references. A Go map is such a value: several variables
may hold the same map, and a write through one of them is seen through
all. References are never given out twice. -/

/-- Cells, addressed by their position. -/
structure Heap (α : Type*) where
  cells : List α

/-- A reference to a cell. -/
abbrev Ref := Nat

namespace Heap

variable {α : Type*}

/-- The heap without cells. -/
def empty : Heap α := { cells := [] }

/-- How many cells there are; also the next reference to be given out. -/
def size (h : Heap α) : Nat := h.cells.length

/-- The value behind a reference. -/
def read [Inhabited α] (h : Heap α) (r : Ref) : α := h.cells[r]?.getD default

/-- Replace the value behind a reference. -/
def write (h : Heap α) (r : Ref) (v : α) : Heap α := { cells := h.cells.set r v }

/-- A new cell, to be referenced by `h.size`. -/
def alloc (h : Heap α) (v : α) : Heap α := { cells := h.cells ++ [v] }

variable [Inhabited α] {h : Heap α} {r r' : Ref} {v : α}

omit [Inhabited α] in
@[simp] theorem size_write : (h.write r v).size = h.size := List.length_set

omit [Inhabited α] in
@[simp] theorem size_alloc : (h.alloc v).size = h.size + 1 := by
  simp [size, alloc]

theorem read_write_self (hr : r < h.size) : (h.write r v).read r = v := by
  unfold read write
  rw [List.getElem?_set_self hr]
  rfl

theorem read_write_ne (hne : r' ≠ r) : (h.write r v).read r' = h.read r' := by
  unfold read write
  rw [List.getElem?_set_ne (Ne.symm hne)]

@[simp] theorem read_alloc_size : (h.alloc v).read h.size = v := by
  simp [read, alloc, size]

theorem read_alloc_of_lt (hr : r < h.size) : (h.alloc v).read r = h.read r := by
  unfold read alloc
  rw [List.getElem?_append_left hr]

/-- There is nothing behind the references not given out. -/
theorem read_of_size_le (hr : h.size ≤ r) : h.read r = default := by
  unfold read
  rw [List.getElem?_eq_none_iff.mpr hr]
  rfl

end Heap
