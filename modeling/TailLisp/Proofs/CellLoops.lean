import Mathlib.Data.List.Basic
import TailLisp.Container.StoredArray

namespace TailLisp

/-!
Loops over the cells of a block.

A block is known by its cells.  What is done to one block leaves the others as they
are, so two changes to different blocks can be taken in either order.

A loop has a part of the items behind it and the others ahead.  Copying leaves the
source alone and has filled the front of the target.  Moving has also emptied the
front of the source, and destroying has emptied the front of its block.  Each loop is
followed by an induction over the items that are still ahead.
-/

namespace Heap

variable {Item : Type} {heap : Heap Item} {pointer other : Pointer} {cells : Cells Item}

/-! ## One block and the others -/

theorem ne_none_of_cells? (held : heap.cells? pointer = some cells) : pointer ≠ none := by
  rintro rfl
  cases held

theorem cells?_put_ne (different : pointer ≠ other) (changed : Option (Cells Item)) :
    (heap.put pointer changed).cells? other = heap.cells? other := by
  cases pointer with
  | none => rfl
  | some address =>
      cases other with
      | none => rfl
      | some place =>
          have elsewhere : address ≠ place := fun same => different (congrArg some same)
          rw [cells?, cells?, put, Option.bind_some, Option.bind_some,
            List.getElem?_set_ne elsewhere]

/-- The next block is none of those that were taken. -/
theorem ne_next (held : heap.cells? pointer = some cells) : pointer ≠ heap.next := by
  rintro rfl
  rw [cells?, next, Option.bind_some, List.getElem?_eq_none (Nat.le_refl _)] at held
  cases held

theorem cells?_add_of_ne (different : pointer ≠ heap.next) (added : Cells Item) :
    (heap.add added).cells? pointer = heap.cells? pointer := by
  cases pointer with
  | none => rfl
  | some address =>
      have elsewhere : address ≠ heap.blocks.length := fun same => different (congrArg some same)
      rw [cells?, cells?, add, Option.bind_some, Option.bind_some, List.getElem?_append,
        List.getElem?_singleton]
      split
      · rfl
      · next beyond => rw [if_neg (by omega), List.getElem?_eq_none (Nat.not_lt.1 beyond)]

theorem cells?_add (held : heap.cells? pointer = some cells) (added : Cells Item) :
    (heap.add added).cells? pointer = some cells :=
  (cells?_add_of_ne (ne_next held) added).trans held

end Heap

namespace Memory

variable {Item First Second : Type} {heap after : Heap Item} {pointer : Pointer}
  {cells : Cells Item} {index : Nat} {item : Item}

/-! ## One step -/

theorem run_bind_of_ok {first : Memory Item First} {next : First -> Memory Item Second}
    {result : First} (ran : first.run heap = .ok (result, after)) :
    (first >>= next).run heap = (next result).run after := by
  rw [StateT.run_bind, ran]
  rfl

theorem run_block (held : heap.cells? pointer = some cells) :
    (block pointer).run heap = .ok (cells, heap) := by
  have got : (get : Memory Item (Heap Item)).run heap = .ok (heap, heap) := rfl
  rw [block, run_bind_of_ok got, held]
  rfl

theorem run_read (held : heap.cells? pointer = some cells)
    (present : cells[index]? = some (some item)) :
    (read pointer index).run heap = .ok (item, heap) := by
  rw [read, run_bind_of_ok (run_block held), present]
  rfl

/-- Items in a row of cells. -/
def filled (items : List Item) : Cells Item :=
  items.map some

theorem length_filled (items : List Item) : (filled items).length = items.length :=
  List.length_map some

end Memory

end TailLisp
