import TailLisp.Container.Buffer

namespace TailLisp

/-!
Pools of buffers.

Buffers act on each other by copying and moving.  A pool holds buffers under
the numbers of their creation, and an operation names the buffers it works on.
A copy is independent of its source; moving into a new buffer leaves the
source vacated; moving into an existing one exchanges the two.

A buffer is a list here, and it is counted without a bound.  Where the items are
in memory is said by a `StoredArray`.
-/

/-- An operation on the buffers of a pool. -/
inductive PoolOp (Item : Type) where
  | new
  | copy (source : Nat)
  | move (source : Nat)
  | assign (target source : Nat)
  | exchange (target source : Nat)
  | push (target : Nat) (item : Item)
  | reserve (target needed : Nat)
  | clear (target : Nat)
  | set (target index : Nat) (item : Item)

/-- Buffers in the order of their creation. -/
abbrev Pool (Item : Type) := List (Buffer Item)

namespace Pool

variable {Item : Type}

/-- The buffer with a number; there is a vacated one under every number that
was not given out. -/
def buffer (pool : Pool Item) (number : Nat) : Buffer Item :=
  pool[number]?.getD .vacated

/-- Changes one buffer. -/
def update (pool : Pool Item) (number : Nat) (change : Buffer Item -> Buffer Item) :
    Pool Item :=
  pool.set number (change (pool.buffer number))

/-- The pool after an operation. -/
def apply (pool : Pool Item) : PoolOp Item -> Pool Item
  | .new => pool ++ [.new]
  | .copy source => pool ++ [pool.buffer source]
  | .move source => pool.set source .vacated ++ [pool.buffer source]
  | .assign target source => pool.set target (pool.buffer source)
  | .exchange target source =>
      (pool.set target (pool.buffer source)).set source (pool.buffer target)
  | .push target item => pool.update target fun buffer => buffer.push item
  | .reserve target needed => pool.update target fun buffer => buffer.reserve needed
  | .clear target => pool.update target Buffer.clear
  | .set target index item => pool.update target fun buffer => buffer.set index item

end Pool

end TailLisp
