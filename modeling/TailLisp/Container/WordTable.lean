import TailLisp.Container.ProbeTable

namespace TailLisp

/-!
Probing tables in machine words.

A probing table counts its slots and its entries in natural numbers.  A word
table is the same table with counters of 32 bits.  A capacity that is doubled
often enough wraps around to zero, and no slot number can be taken modulo zero.
So an insertion may break down.  It may also fail to come to an end, because it goes
from slot to slot without counting, and because it doubles the table by inserting
the entries again.  Then it has no outcome.

The capacities that are used are eight times a power of two.  Three quarters of
them are whole numbers, which single precision renders exactly.  Memory is taken
to suffice.
-/

/-- What stops a machine in the middle of its work. -/
inductive Breakdown where
  /-- A number was taken modulo zero. -/
  | divisionByZero
  /-- No id was left for a new name. -/
  | exhausted
deriving DecidableEq

/-- Work that may break down.  Work that never ends has no outcome at all. -/
abbrev Attempt := ExceptT Breakdown Option

/-- Work that never ends. -/
def Attempt.unending {Result : Type} : Attempt Result :=
  ExceptT.mk none

/-- A table from byte strings to values with counters of 32 bits. -/
structure WordTable (Value : Type) where
  capacity : UInt32
  threshold : UInt32
  size : UInt32
  slots : Array (Option (Bytes × Value))

namespace WordTable

variable {Value : Type}

/-- A table with a number of free slots. -/
def withCapacity (capacity : UInt32) : WordTable Value where
  capacity := capacity
  threshold := .ofNat (3 * capacity.toNat / 4)
  size := 0
  slots := .replicate capacity.toNat none

/-- A number modulo the capacity. -/
def wrap (table : WordTable Value) (number : UInt32) : Attempt UInt32 :=
  if table.capacity = 0 then throw .divisionByZero else return number % table.capacity

/-- The value of a key.  This search sees no slot twice. -/
def find? (table : WordTable Value) (key : Bytes) : Attempt (Option Value) := do
  let home <- table.wrap key.fingerprint
  match ProbeTable.seek table.slots key home.toNat table.capacity.toNat with
  | none => return none
  | some index =>
      match table.slots[index]? with
      | some (some entry) => return some entry.2
      | _ => return none

/-- The first slot from an index on that is free or holds the key.  A search that has
seen all slots in vain is back where it began, and so it goes on forever. -/
def probe (table : WordTable Value) (key : Bytes) : Nat -> UInt32 -> Attempt UInt32
  | 0, _ => .unending
  | unseen + 1, index =>
      match table.slots[index.toNat]? with
      | some (some entry) =>
          if entry.1 = key then return index
          else do table.probe key unseen (<- table.wrap (index + 1))
      | _ => return index

/-- Stores a value under a key in the first slot that the search comes to. -/
def place (table : WordTable Value) (key : Bytes) (value : Value) : Attempt (WordTable Value) := do
  let index <- table.probe key table.capacity.toNat (<- table.wrap key.fingerprint)
  let fresh := match table.slots[index.toNat]? with
    | some (some _) => 0
    | _ => 1
  return { table with
    slots := table.slots.setIfInBounds index.toNat (some (key, value))
    size := table.size + fresh }

/-- The entries in the order of their slots. -/
def entries (table : WordTable Value) : List (Bytes × Value) :=
  table.slots.toList.filterMap id

mutual

/-- Stores a value under a key, doubling the table first if it is full to its
threshold.  The number says how deep the calls may be nested. -/
def insertWithin (table : WordTable Value) (key : Bytes) (value : Value) :
    Nat -> Attempt (WordTable Value)
  | 0 => .unending
  | depth + 1 => do
      let roomy <- if table.threshold <= table.size then table.doubleWithin depth else pure table
      roomy.place key value

/-- The same entries in twice the number of slots, as far as a word can hold that
number. -/
def doubleWithin (table : WordTable Value) : Nat -> Attempt (WordTable Value)
  | 0 => .unending
  | depth + 1 =>
      table.entries.foldlM (fun larger entry => larger.insertWithin entry.1 entry.2 depth)
        (withCapacity (2 * table.capacity))

end

/-- How deep insertions and doublings are nested.  Only a table without slots is
doubled within the doubling of another one, and it has no entries to insert. -/
def nesting : Nat := 4

/-- Stores a value under a key. -/
def insert (table : WordTable Value) (key : Bytes) (value : Value) : Attempt (WordTable Value) :=
  table.insertWithin key value nesting

end WordTable

end TailLisp
