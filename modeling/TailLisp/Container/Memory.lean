namespace TailLisp

/-!
Memory in blocks.

A block of cells is taken from memory and given back to it.  A cell is raw until
an item is constructed in it, and raw again once the item was destroyed.  A block
that was given back does not come into use again, so whatever still points to it
can be told from what points to a newer block.

Some ways of using memory have no defined effect.  Here they are errors, each
with its own name.  To lose an item, by constructing another one over it or by
giving back its block, does no harm by itself.  It counts as an error all the same,
because whoever does it has lost count of the items.
-/

/-- What must not be done with memory. -/
inductive MemoryError where
  /-- A block is used that was given back, or no block at all. -/
  | deadBlock
  /-- A cell is used that lies outside of its block. -/
  | outside
  /-- A cell is used for its item and has none. -/
  | rawCell
  /-- An item is lost. -/
  | liveCell
  /-- An array is named that there is not. -/
  | noArray
deriving DecidableEq

/-- Where a block begins, or nowhere. -/
abbrev Pointer := Option Nat

/-- Cells with or without an item. -/
abbrev Cells (Item : Type) := List (Option Item)

/-- The blocks in the order in which they were taken.  Those that were given back have
no cells any more. -/
structure Heap (Item : Type) where
  blocks : List (Option (Cells Item))

namespace Heap

variable {Item : Type}

/-- Memory of which nothing was taken. -/
def fresh : Heap Item where
  blocks := []

/-- The cells of a block. -/
def cells? (heap : Heap Item) (pointer : Pointer) : Option (Cells Item) :=
  pointer.bind fun address => heap.blocks[address]?.join

/-- Changes a block. -/
def put (heap : Heap Item) (pointer : Pointer) (changed : Option (Cells Item)) : Heap Item where
  blocks := match pointer with
    | none => heap.blocks
    | some address => heap.blocks.set address changed

/-- Adds a block. -/
def add (heap : Heap Item) (cells : Cells Item) : Heap Item where
  blocks := heap.blocks ++ [some cells]

/-- Where the next block will begin. -/
def next (heap : Heap Item) : Pointer :=
  some heap.blocks.length

end Heap

/-- Work on memory, which stops with an error where memory is misused. -/
abbrev Memory (Item : Type) := StateT (Heap Item) (Except MemoryError)

namespace Memory

variable {Item : Type}

/-- The cells of a block. -/
def block (pointer : Pointer) : Memory Item (Cells Item) := do
  match (<- get).cells? pointer with
  | some cells => return cells
  | none => throw .deadBlock

/-- The item of a cell. -/
def read (pointer : Pointer) (index : Nat) : Memory Item Item := do
  match (<- block pointer)[index]? with
  | some (some item) => return item
  | some none => throw .rawCell
  | none => throw .outside

/-- Constructs an item in a raw cell. -/
def construct (pointer : Pointer) (index : Nat) (item : Item) : Memory Item Unit := do
  let cells <- block pointer
  match cells[index]? with
  | some none => modify fun heap => heap.put pointer (some (cells.set index (some item)))
  | some (some _) => throw .liveCell
  | none => throw .outside

/-- Assigns to the item of a cell. -/
def overwrite (pointer : Pointer) (index : Nat) (item : Item) : Memory Item Unit := do
  let cells <- block pointer
  match cells[index]? with
  | some (some _) => modify fun heap => heap.put pointer (some (cells.set index (some item)))
  | some none => throw .rawCell
  | none => throw .outside

/-- Destroys the item of a cell. -/
def destroy (pointer : Pointer) (index : Nat) : Memory Item Unit := do
  let cells <- block pointer
  match cells[index]? with
  | some (some _) => modify fun heap => heap.put pointer (some (cells.set index none))
  | some none => throw .rawCell
  | none => throw .outside

/-- Takes a block of raw cells. -/
def allocate (count : Nat) : Memory Item Pointer := do
  let heap <- get
  set (heap.add (.replicate count none))
  return heap.next

/-- Gives a block back.  Nothing happens if there is none. -/
def release (pointer : Pointer) : Memory Item Unit := do
  if pointer = none then
    return ()
  else if (<- block pointer).any Option.isSome then
    throw .liveCell
  else
    modify fun heap => heap.put pointer none

/-- Takes a larger block in place of one, with the same contents in front, bit by bit. -/
def reallocate (pointer : Pointer) (count : Nat) : Memory Item Pointer := do
  if pointer = none then
    allocate count
  else
    let cells <- block pointer
    let heap <- get
    set ((heap.put pointer none).add (cells ++ .replicate (count - cells.length) none))
    return heap.next

end Memory

end TailLisp
