namespace TailLisp

/-!
Growable buffers.

A buffer is a list of items with a capacity that is at least its length.  The
capacity is part of what can be observed: it starts at eight, doubles when
more room is needed, and stays when the buffer is cleared.  A buffer whose
contents were moved away has no capacity at all and grows again from eight.

Capacities are natural numbers.  Counters of 32 bits do not overflow while room is
asked for at most `2 ^ 31` items, since no capacity is larger then.  This is what
is proved of modest histories.
-/

/-- Items in order, in a space of some capacity. -/
structure Buffer (Item : Type) where
  capacity : Nat
  items : List Item
  fits : items.length <= capacity

namespace Buffer

variable {Item : Type}

/-- The capacity of a new buffer. -/
def initialCapacity : Nat := 8

/-- A new buffer. -/
def new : Buffer Item where
  capacity := initialCapacity
  items := []
  fits := Nat.zero_le _

/-- What is left of a buffer whose contents were moved away. -/
def vacated : Buffer Item where
  capacity := 0
  items := []
  fits := Nat.zero_le _

/-- The number of items. -/
def size (buffer : Buffer Item) : Nat :=
  buffer.items.length

/-- Doubles a positive capacity until it is at least what is needed. -/
def enlarge (capacity needed : Nat) : Nat :=
  if 0 < capacity && capacity < needed then
    enlarge (2 * capacity) needed
  else
    capacity
termination_by needed - capacity
decreasing_by simp_all; omega

theorem le_enlarge (capacity needed : Nat) : capacity <= enlarge capacity needed := by
  fun_induction enlarge capacity needed with
  | case1 => omega
  | case2 => exact Nat.le_refl _

theorem needed_le_enlarge {capacity : Nat} (positive : 0 < capacity) (needed : Nat) :
    needed <= enlarge capacity needed := by
  fun_induction enlarge capacity needed with
  | case1 capacity _ inductionHypothesis => exact inductionHypothesis (by omega)
  | case2 capacity enough => simp_all

/-- The capacity after room for a number of items was asked for. -/
def grown (capacity needed : Nat) : Nat :=
  if needed <= capacity then capacity
  else enlarge (if capacity = 0 then initialCapacity else capacity) needed

theorem le_grown (capacity needed : Nat) : capacity <= grown capacity needed := by
  unfold grown
  split
  · exact Nat.le_refl _
  · split
    · omega
    · exact le_enlarge _ _

theorem needed_le_grown (capacity needed : Nat) : needed <= grown capacity needed := by
  unfold grown
  split
  · assumption
  · apply needed_le_enlarge
    split
    · decide
    · omega

/-- Makes room for a number of items. -/
def reserve (buffer : Buffer Item) (needed : Nat) : Buffer Item where
  capacity := grown buffer.capacity needed
  items := buffer.items
  fits := Nat.le_trans buffer.fits (le_grown _ _)

/-- Adds an item at the end, growing first if the buffer is full. -/
def push (buffer : Buffer Item) (item : Item) : Buffer Item where
  capacity := grown buffer.capacity (buffer.size + 1)
  items := buffer.items ++ [item]
  fits := by
    rw [List.length_append, List.length_singleton]
    exact needed_le_grown _ _

/-- Removes all items and keeps the capacity. -/
def clear (buffer : Buffer Item) : Buffer Item where
  capacity := buffer.capacity
  items := []
  fits := Nat.zero_le _

/-- Replaces the item at an index. -/
def set (buffer : Buffer Item) (index : Nat) (item : Item) : Buffer Item where
  capacity := buffer.capacity
  items := buffer.items.set index item
  fits := by
    rw [List.length_set]
    exact buffer.fits

end Buffer

end TailLisp
