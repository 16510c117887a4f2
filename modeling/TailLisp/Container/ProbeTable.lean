import TailLisp.Bytes

namespace TailLisp

/-!
Hash tables with linear probing.

A key lives in the first free slot at or behind its home slot, wrapping around
at the end, when it arrives.  Entries are never removed, so a look-up that
meets a free slot has seen every place where the key could be.  The table
doubles before an insertion once three quarters of the slots are in use, which
keeps a slot free at all times.

Slots and entries are counted in natural numbers, so a table can be doubled
forever.  A `WordTable` has counters of 32 bits and agrees with this table as long
as the capacity stays below `2 ^ 32`.
-/

/-- A table from byte strings to values. -/
structure ProbeTable (Value : Type) where
  slots : Array (Option (Bytes × Value))
  size : Nat

namespace ProbeTable

variable {Value : Type}

/-- A table with a number of free slots. -/
def withCapacity (capacity : Nat) : ProbeTable Value :=
  { slots := .replicate capacity none, size := 0 }

/-- The number of slots. -/
def capacity (table : ProbeTable Value) : Nat :=
  table.slots.size

/-- The number of entries at which the table doubles. -/
def threshold (table : ProbeTable Value) : Nat :=
  3 * table.capacity / 4

/-- The slot where the search for a key begins. -/
def home (table : ProbeTable Value) (key : Bytes) : Nat :=
  key.fingerprint.toNat % table.capacity

/-- The first slot from an index on, among a number of slots, that is free or
holds the key. -/
def seek (slots : Array (Option (Bytes × Value))) (key : Bytes) : Nat -> Nat -> Option Nat
  | _, 0 => none
  | index, remaining + 1 =>
      match slots[index]? with
      | some (some entry) =>
          if entry.1 = key then some index
          else seek slots key ((index + 1) % slots.size) remaining
      | _ => some index

/-- The slot of a key, or the free slot where it belongs. -/
def locate (table : ProbeTable Value) (key : Bytes) : Option Nat :=
  seek table.slots key (table.home key) table.capacity

/-- The value of a key. -/
def find? (table : ProbeTable Value) (key : Bytes) : Option Value :=
  match table.locate key with
  | none => none
  | some index =>
      match table.slots[index]? with
      | some (some entry) => some entry.2
      | _ => none

/-- Whether the table holds a key. -/
def contains (table : ProbeTable Value) (key : Bytes) : Bool :=
  (table.find? key).isSome

/-- Stores a value under a key in a table that has room for it.  An entry for
the key is overwritten. -/
def place (table : ProbeTable Value) (key : Bytes) (value : Value) : ProbeTable Value :=
  match table.locate key with
  | none => table
  | some index =>
      let fresh := match table.slots[index]? with
        | some (some _) => 0
        | _ => 1
      { slots := table.slots.setIfInBounds index (some (key, value))
        size := table.size + fresh }

/-- The entries in the order of their slots. -/
def entries (table : ProbeTable Value) : List (Bytes × Value) :=
  table.slots.toList.filterMap id

/-- The same entries in twice the number of slots. -/
def double (table : ProbeTable Value) : ProbeTable Value :=
  table.entries.foldl (fun larger entry => larger.place entry.1 entry.2)
    (withCapacity (2 * table.capacity))

/-- Stores a value under a key, doubling the table first if it is full to its
threshold. -/
def insert (table : ProbeTable Value) (key : Bytes) (value : Value) : ProbeTable Value :=
  (if table.threshold <= table.size then table.double else table).place key value

end ProbeTable

end TailLisp
