import TailLisp.Proofs.BufferHistories
import TailLisp.Proofs.CellLoops

namespace TailLisp

/-!
Arrays that store buffers.

An array in memory stores a buffer if its cells are the items of the buffer, in front
of raw cells, and its counters fit.  It may have no block if there is no room.  Each
operation on an array does to its cells what the operation on buffers does to the
items.  It leaves all blocks of others alone, and where it takes a block this is one
that nobody else points to.

So several arrays store the buffers of a pool as long as no two of them share a block.
An operation stops with an error only where it is given something that is not there:
an array, an element, or a reference into a block that the operation itself has given
back.
-/

open Memory

/-- The cells in which a buffer is stored. -/
def Buffer.cells {Item : Type} (buffer : Buffer Item) : Cells Item :=
  filled buffer.items ++ .replicate (buffer.capacity - buffer.size) none

/-- From one state of memory to another, a pointer was exchanged for a pointer that
nobody else can have.  The blocks behind all other pointers are as they were. -/
structure Heap.Leads {Item : Type} (before after : Heap Item) (old new : Pointer) : Prop where
  others : forall pointer cells, pointer ≠ old -> before.cells? pointer = some cells ->
    after.cells? pointer = some cells
  unshared : new = old ∨ before.cells? new = none

namespace Heap.Leads

variable {Item : Type} {before between after : Heap Item} {old new : Pointer}

theorem refl (heap : Heap Item) (pointer : Pointer) : heap.Leads heap pointer pointer where
  others := fun _ _ _ held => held
  unshared := .inl rfl

theorem put (heap : Heap Item) (pointer : Pointer) (changed : Option (Cells Item)) :
    heap.Leads (heap.put pointer changed) pointer pointer where
  others := fun _ _ elsewhere held => (Heap.cells?_put_ne elsewhere.symm changed).trans held
  unshared := .inl rfl

/-- A pointer is dropped before another one is obtained. -/
theorem trans (dropped : before.Leads between old none) (obtained : between.Leads after none new) :
    before.Leads after old new where
  others := by
    intro pointer cells elsewhere held
    exact obtained.others pointer cells (Heap.ne_none_of_cells? held)
      (dropped.others pointer cells elsewhere held)
  unshared := by
    by_cases same : new = old
    · exact .inl same
    · right
      rcases obtained.unshared with none | unused
      · rw [none]
        rfl
      · cases held : before.cells? new with
        | none => rfl
        | some cells =>
            rw [dropped.others new cells same held] at unused
            cases unused

/-- A block is given back after another one was taken. -/
theorem drop (leads : before.Leads after none new) (old : Pointer) :
    before.Leads (after.put old none) old new where
  others := by
    intro pointer cells elsewhere held
    rw [Heap.cells?_put_ne elsewhere.symm]
    exact leads.others pointer cells (Heap.ne_none_of_cells? held) held
  unshared := by
    right
    rcases leads.unshared with none | unused
    · rw [none]
      rfl
    · exact unused

theorem add (heap : Heap Item) (cells : Cells Item) :
    heap.Leads (heap.add cells) none heap.next where
  others := fun _ _ _ held => Heap.cells?_add held cells
  unshared := by
    right
    cases held : heap.cells? heap.next with
    | none => rfl
    | some cells => exact absurd rfl (Heap.ne_next held)

end Heap.Leads

namespace StoredArray

variable {Item : Type}

/-- The array stores a buffer. -/
structure Stores (array : StoredArray) (heap : Heap Item) (buffer : Buffer Item) : Prop where
  capacity : array.capacity = buffer.capacity
  size : array.size = buffer.size
  cells : heap.cells? array.data = some buffer.cells ∨ array.data = none ∧ buffer.capacity = 0

variable {array : StoredArray} {heap after : Heap Item} {buffer : Buffer Item}

/-- An array without a block stores no items. -/
theorem buffer_eq_vacated (noRoom : buffer.capacity = 0) : buffer = .vacated := by
  rcases buffer with ⟨capacity, items, fits⟩
  cases noRoom
  cases List.eq_nil_of_length_eq_zero (Nat.le_zero.1 fits)
  rfl

theorem stores_vacated (heap : Heap Item) : vacated.Stores heap .vacated where
  capacity := rfl
  size := rfl
  cells := .inr ⟨rfl, rfl⟩

namespace Stores

/-- The array goes on storing the buffer as long as its block is left alone. -/
theorem kept (stores : array.Stores heap buffer)
    (same : forall cells, heap.cells? array.data = some cells ->
      after.cells? array.data = some cells) : array.Stores after buffer where
  capacity := stores.capacity
  size := stores.size
  cells := stores.cells.imp_left (same _)

/-- A block can only have the cells of the buffer. -/
theorem cells_eq (stores : array.Stores heap buffer) {cells : Cells Item}
    (held : heap.cells? array.data = some cells) : cells = buffer.cells := by
  rcases stores.cells with stored | ⟨noBlock, _⟩
  · rw [held] at stored
    exact Option.some.inj stored
  · rw [noBlock] at held
    cases held

/-- Behind the items no cell has one. -/
theorem absent (stores : array.Stores heap buffer) {index : Nat}
    (beyond : buffer.items[index]? = none) (cells : Cells Item)
    (held : heap.cells? array.data = some cells) : cells[index]?.join = none := by
  have behind : List.length (filled buffer.items) <= index := by
    rw [length_filled]
    exact List.getElem?_eq_none_iff.1 beyond
  rw [stores.cells_eq held, Buffer.cells, List.getElem?_append_right behind,
    List.getElem?_replicate]
  split <;> rfl

theorem of_leads (stores : array.Stores heap buffer) {old new : Pointer}
    (leads : heap.Leads after old new) (elsewhere : array.data = old -> array.data = none) :
    array.Stores after buffer := by
  apply stores.kept
  intro cells held
  refine leads.others _ cells (fun same => ?_) held
  exact Heap.ne_none_of_cells? held (elsewhere same)

end Stores

/-! ## New arrays -/

/-- An argument stands for an item: it is the item, or a cell that has the item. -/
def Gives (heap : Heap Item) (item : Item) : Argument Item -> Prop
  | .value given => given = item
  | .cell pointer index => Exists fun cells =>
      heap.cells? pointer = some cells ∧ cells[index]? = some (some item)

theorem run_fetch {argument : Argument Item} {item : Item} (gives : Gives heap item argument) :
    (fetch argument).run heap = .ok (item, heap) := by
  cases argument with
  | value given =>
      cases gives
      rfl
  | cell pointer index =>
      rcases gives with ⟨cells, held, present⟩
      exact run_read held present

/-- The argument does not point to a block. -/
def Avoids (pointer : Pointer) : Argument Item -> Prop
  | .value _ => True
  | .cell other _ => other ≠ pointer

theorem Gives.of_leads {argument : Argument Item} {item : Item} {old new : Pointer}
    (gives : Gives heap item argument) (leads : heap.Leads after old new)
    (avoids : Avoids old argument) : Gives after item argument := by
  cases argument with
  | value given => exact gives
  | cell pointer index =>
      rcases gives with ⟨cells, held, present⟩
      exact ⟨cells, leads.others pointer cells avoids held, present⟩

/-- The cell of an element gives the element. -/
theorem Stores.gives (stores : array.Stores heap buffer) {index : Nat} {item : Item}
    (present : buffer.items[index]? = some item) : Gives heap item (.cell array.data index) := by
  rcases stores.cells with held | ⟨_, noRoom⟩
  · refine ⟨buffer.cells, held, ?_⟩
    have inFilled : index < List.length (filled buffer.items) := by
      rw [length_filled]
      exact (List.getElem?_eq_some_iff.1 present).1
    rw [Buffer.cells, List.getElem?_append_left inFilled, filled, List.getElem?_map, present]
    rfl
  · cases buffer_eq_vacated noRoom
    cases present

end StoredArray

end TailLisp
