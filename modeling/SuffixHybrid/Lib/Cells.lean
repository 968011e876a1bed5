import Mathlib.Data.List.Basic
import Mathlib.Tactic.Common

/-!
# Cells

The objects of one kind on a heap, in the order of their allocation; a reference is a position. An
allocation adds a cell at the end and a write replaces one. A program that writes to no cell but its own
leaves the heap that it finds as a prefix of the one it ends with, and with it every object that was
there (`read_of_prefix`).
-/

namespace Lib

/-- The objects of one kind, in the order of their allocation. -/
abbrev Cells (α : Type) := List α

namespace Cells
variable {α : Type}

/-- The object at a reference. -/
def read (cells : Cells α) (r : ℕ) : Option α := cells[r]?

/-- A new object, and its reference. -/
def alloc (c : Cells α) (a : α) : Cells α × ℕ := (c ++ [a], c.length)

/-- Replace the object at a reference. -/
def write (c : Cells α) (r : ℕ) (a : α) : Option (Cells α) :=
  if r < c.length then some (c.set r a) else none

@[simp] lemma read_append_length (c : Cells α) (a : α) : read (c ++ [a]) c.length = some a := by
  simp [read]

@[simp] lemma write_append_length (c : Cells α) (a b : α) :
    write (c ++ [a]) c.length b = some (c ++ [b]) := by
  simp [write]

/-- Objects that are there stay where they are. -/
lemma read_of_prefix {c c' : Cells α} (h : c <+: c') {r : ℕ} {a : α} (hr : c.read r = some a) :
    c'.read r = some a := by
  obtain ⟨t, rfl⟩ := h
  rw [read, List.getElem?_append_left (List.getElem?_eq_some_iff.mp hr).1]
  exact hr

end Cells
end Lib
