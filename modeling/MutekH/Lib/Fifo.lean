import Mathlib.Data.List.Basic

/-!
Queues of at most `capacity` items, with transfers of whole blocks. A block that does
not fit is cut; what is taken out and what stays make up the old content.
-/
namespace LibFifo

structure Fifo (α : Type) (capacity : Nat) where
  items : List α
  bounded : items.length ≤ capacity

namespace Fifo
variable {α : Type} {capacity : Nat}

def empty : Fifo α capacity := ⟨[], Nat.zero_le _⟩

variable (q : Fifo α capacity)

def count : Nat := q.items.length

def pushbackArray (block : List α) : Fifo α capacity :=
  ⟨q.items ++ block.take (capacity - q.items.length), by
    have bounded := q.bounded
    rw [List.length_append, List.length_take]
    omega⟩

def popArray (n : Nat) : List α × Fifo α capacity :=
  (q.items.take n, ⟨q.items.drop n, by
    have bounded := q.bounded
    rw [List.length_drop]
    omega⟩)

/-- An item put back in front, and whether there was room for it. -/
def push (x : α) : Bool × Fifo α capacity :=
  if room : q.items.length < capacity then (true, ⟨x :: q.items, room⟩) else (false, q)

@[simp] theorem empty_items : (empty : Fifo α capacity).items = [] := rfl

theorem pushbackArray_items {q : Fifo α capacity} {block : List α}
    (room : q.count + block.length ≤ capacity) :
    (q.pushbackArray block).items = q.items ++ block := by
  unfold count at room
  simp only [pushbackArray]
  rw [List.take_of_length_le (by omega)]

theorem popArray_all : q.popArray capacity = (q.items, empty) := by
  have bounded := q.bounded
  simp [popArray, empty, List.take_of_length_le bounded, List.drop_of_length_le bounded]

end Fifo
end LibFifo
