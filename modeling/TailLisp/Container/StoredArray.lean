import TailLisp.Container.Memory
import TailLisp.Container.Pool

namespace TailLisp

/-!
Arrays in memory.

An array is a capacity, a size and a pointer to a block.  Its items are in the first
cells of the block, and the other cells are raw.  All that is done to the items is
done cell by cell, in loops from the first item to the last one.

Items of a type that may be copied bit by bit are taken along when the block is
reallocated.  Other items are moved one by one.  An item that is to be stored is given
by itself or as an element of an array.  The latter is a reference, which is followed
only when the array has grown.  Sizes and capacities are natural numbers, which is
right as long as no more than `2 ^ 31` items are asked for, just as with a buffer.
-/

/-- The parts of an array. -/
structure StoredArray where
  capacity : Nat
  size : Nat
  data : Pointer

/-- An item by itself, or a reference to a cell. -/
inductive Argument (Item : Type) where
  | value (item : Item)
  | cell (pointer : Pointer) (index : Nat)

namespace Memory

variable {Item : Type}

/-! ## Loops over cells

Each begins at an index and goes on for a number of cells.
-/

def copyItems (source target : Pointer) : Nat -> Nat -> Memory Item Unit
  | _, 0 => return ()
  | index, remaining + 1 => do
      construct target index (<- read source index)
      copyItems source target (index + 1) remaining

/-- What is left of an item that was moved is destroyed at once. -/
def moveItems (source target : Pointer) : Nat -> Nat -> Memory Item Unit
  | _, 0 => return ()
  | index, remaining + 1 => do
      construct target index (<- read source index)
      destroy source index
      moveItems source target (index + 1) remaining

def destroyItems (pointer : Pointer) : Nat -> Nat -> Memory Item Unit
  | _, 0 => return ()
  | index, remaining + 1 => do
      destroy pointer index
      destroyItems pointer (index + 1) remaining

def readItems (pointer : Pointer) : Nat -> Nat -> Memory Item (List Item)
  | _, 0 => return []
  | index, remaining + 1 => do
      let item <- read pointer index
      return item :: (<- readItems pointer (index + 1) remaining)

/-- The item that an argument stands for at this moment. -/
def fetch : Argument Item -> Memory Item Item
  | .value item => return item
  | .cell pointer index => read pointer index

end Memory

namespace StoredArray

variable {Item : Type}

open Memory

/-- What is left of an array whose contents were moved away. -/
def vacated : StoredArray where
  capacity := 0
  size := 0
  data := none

/-- A new array. -/
def new : Memory Item StoredArray := do
  let data <- allocate Buffer.initialCapacity
  return { capacity := Buffer.initialCapacity, size := 0, data }

/-- A new array with the same room and copies of the items. -/
def copy (other : StoredArray) : Memory Item StoredArray := do
  let data <- allocate other.capacity
  copyItems other.data data 0 other.size
  return { other with data }

/-- Destroys the items and gives the block back. -/
def discard (array : StoredArray) : Memory Item Unit := do
  destroyItems array.data 0 array.size
  release array.data

/-- Takes the items along to a larger block and gives the old one back. -/
def relocate (bitwise : Bool) (array : StoredArray) (capacity : Nat) : Memory Item Pointer :=
  if bitwise then
    reallocate array.data capacity
  else do
    let data <- allocate capacity
    moveItems array.data data 0 array.size
    release array.data
    return data

/-- Makes room for a number of items.  Nothing changes if there is room already. -/
def reserve (bitwise : Bool) (array : StoredArray) (needed : Nat) : Memory Item StoredArray :=
  if needed <= array.capacity then
    return array
  else do
    let base := if array.capacity = 0 then Buffer.initialCapacity else array.capacity
    let capacity := Buffer.enlarge base needed
    let data <- array.relocate bitwise capacity
    return { array with capacity, data }

/-- Adds an item at the end. -/
def push (bitwise : Bool) (array : StoredArray) (argument : Argument Item) :
    Memory Item StoredArray := do
  let roomy <- array.reserve bitwise (array.size + 1)
  construct roomy.data roomy.size (<- fetch argument)
  return { roomy with size := roomy.size + 1 }

/-- Destroys the items and keeps the block. -/
def clear (array : StoredArray) : Memory Item StoredArray := do
  destroyItems array.data 0 array.size
  return { array with size := 0 }

/-- Assigns to an element. -/
def assign (array : StoredArray) (index : Nat) (argument : Argument Item) :
    Memory Item Unit := do
  overwrite array.data index (<- fetch argument)

/-- The items as they are found through the pointer. -/
def items (array : StoredArray) : Memory Item (List Item) :=
  readItems array.data 0 array.size

end StoredArray

/-! ## Several arrays -/

/-- Where an operation finds an item: by itself, or as an element of an array. -/
inductive Operand (Item : Type) where
  | value (item : Item)
  | element (source index : Nat)

/-- Arrays in the order of their creation. -/
abbrev ArrayPool := List StoredArray

namespace ArrayPool

variable {Item : Type}

/-- The array with a number. -/
def array (arrays : ArrayPool) (number : Nat) : Memory Item StoredArray :=
  match arrays[number]? with
  | some array => return array
  | none => throw .noArray

/-- What an operand refers to. -/
def refer (arrays : ArrayPool) : Operand Item -> Memory Item (Argument Item)
  | .value item => return .value item
  | .element source index => do return .cell (<- arrays.array source).data index

/-- The arrays after an operation.  An array that is assigned to itself is left
alone. -/
def apply (bitwise : Bool) (arrays : ArrayPool) :
    PoolOp (Operand Item) -> Memory Item ArrayPool
  | .new => do return arrays ++ [<- StoredArray.new]
  | .copy source => do return arrays ++ [<- (<- arrays.array source).copy]
  | .move source => do
      let moved <- arrays.array source
      return arrays.set source .vacated ++ [moved]
  | .assign target source => do
      let assigned <- arrays.array target
      let other <- arrays.array source
      if target = source then
        return arrays
      else
        assigned.discard
        return arrays.set target (<- other.copy)
  | .exchange target source => do
      let first <- arrays.array target
      let second <- arrays.array source
      return (arrays.set target second).set source first
  | .push target operand => do
      let pushed <- arrays.array target
      return arrays.set target (<- pushed.push bitwise (<- arrays.refer operand))
  | .reserve target needed => do
      return arrays.set target (<- (<- arrays.array target).reserve bitwise needed)
  | .clear target => do
      return arrays.set target (<- (<- arrays.array target).clear)
  | .set target index operand => do
      let assigned <- arrays.array target
      assigned.assign index (<- arrays.refer operand)
      return arrays

/-- The arrays after some operations, from none on. -/
def run (bitwise : Bool) (history : List (PoolOp (Operand Item))) : Memory Item ArrayPool :=
  history.foldlM (apply bitwise) []

end ArrayPool

end TailLisp
