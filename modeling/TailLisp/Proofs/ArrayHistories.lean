import Mathlib.Data.List.Forall2
import Mathlib.Logic.Equiv.Basic
import TailLisp.Proofs.StoredArrays

namespace TailLisp

/-!
Histories of arrays in memory.

Several arrays store the buffers of a pool, each in a block of its own.  One
operation after another keeps it that way.  So whatever was done, reading the items
back through the pointers gives what plain lists would have, and all that is known
about the room of buffers goes for the arrays.

This holds as long as every operation names arrays and elements that there are, and
does not add an element of a full array to that same array.  Otherwise the work stops
with an error.
-/

open Memory

/-! ## Operations that make sense -/

/-- The item that an operand names. -/
def Operand.item? {Item : Type} (pool : Pool Item) : Operand Item -> Option Item
  | .value item => some item
  | .element source index => (pool.buffer source).items[index]?

/-- Whether the operand names an element of an array. -/
def Operand.isElementOf {Item : Type} (number : Nat) : Operand Item -> Bool
  | .value _ => false
  | .element source _ => source == number

namespace Pool

variable {Item : Type}

/-- The operation with items in place of operands.  There is none if it names an array
or an element that there is not, or adds an element of a full array to that array. -/
def resolve (pool : Pool Item) : PoolOp (Operand Item) -> Option (PoolOp Item)
  | .new => some .new
  | .copy source => if source < pool.length then some (.copy source) else none
  | .move source => if source < pool.length then some (.move source) else none
  | .assign target source =>
      if target < pool.length ∧ source < pool.length then some (.assign target source) else none
  | .exchange target source =>
      if target < pool.length ∧ source < pool.length then some (.exchange target source) else none
  | .push target operand =>
      let full := (pool.buffer target).size = (pool.buffer target).capacity
      if target < pool.length ∧ ¬ (full ∧ operand.isElementOf target) then
        (operand.item? pool).map (.push target)
      else none
  | .reserve target needed => if target < pool.length then some (.reserve target needed) else none
  | .clear target => if target < pool.length then some (.clear target) else none
  | .set target index operand =>
      if target < pool.length ∧ index < (pool.buffer target).size then
        (operand.item? pool).map (.set target index)
      else none

theorem getElem?_eq_buffer {pool : Pool Item} {number : Nat} (present : number < pool.length) :
    pool[number]? = some (pool.buffer number) := by
  rw [buffer, List.getElem?_eq_getElem present]
  rfl

end Pool

/-- Exchanging two members of a list. -/
theorem getElem?_exchange {Thing : Type} {things : List Thing} {first second : Thing}
    {target source : Nat} (atTarget : things[target]? = some first)
    (atSource : things[source]? = some second) (number : Nat) :
    ((things.set target second).set source first)[number]? =
      things[Equiv.swap target source number]? := by
  have targetInside := (List.getElem?_eq_some_iff.1 atTarget).1
  have sourceInside := (List.getElem?_eq_some_iff.1 atSource).1
  by_cases isSource : number = source
  · subst isSource
    rw [Equiv.swap_apply_right, List.getElem?_set_self (by rwa [List.length_set]), atTarget]
  · rw [List.getElem?_set_ne (Ne.symm isSource)]
    by_cases isTarget : number = target
    · subst isTarget
      rw [Equiv.swap_apply_left, List.getElem?_set_self targetInside, atSource]
    · rw [List.getElem?_set_ne (Ne.symm isTarget), Equiv.swap_apply_of_ne_of_ne isTarget isSource]

namespace ArrayPool

variable {Item : Type} {arrays : ArrayPool} {heap after : Heap Item} {pool : Pool Item}
  {number : Nat} {array : StoredArray}

/-- The arrays store the buffers of a pool, and no two of them share a block. -/
structure Stores (arrays : ArrayPool) (heap : Heap Item) (pool : Pool Item) : Prop where
  length_eq : arrays.length = pool.length
  each : forall (number : Nat) (array : StoredArray), arrays[number]? = some array ->
    array.Stores heap (pool.buffer number)
  apart : forall (number other : Nat) (array second : StoredArray), number ≠ other ->
    arrays[number]? = some array -> arrays[other]? = some second ->
      array.data = second.data -> array.data = none

theorem eq_of_getElem?_concat {new : StoredArray}
    (found : (arrays ++ [new])[number]? = some array) :
    arrays[number]? = some array ∨ number = arrays.length ∧ array = new := by
  rw [List.getElem?_append] at found
  split at found
  · exact .inl found
  · next beyond =>
      rw [List.getElem?_singleton] at found
      split at found
      · cases found
        exact .inr ⟨by omega, rfl⟩
      · cases found

namespace Stores

variable (stores : arrays.Stores heap pool)

include stores

/-- A changed array keeps its block or has one that no other array has. -/
theorem eq_none_of_shared {target other : Nat} {old new second : StoredArray}
    (found : arrays[target]? = some old) (leads : heap.Leads after old.data new.data)
    (elsewhere : target ≠ other) (alsoFound : arrays[other]? = some second)
    (shared : new.data = second.data) : new.data = none := by
  rcases leads.unshared with same | unused
  · rw [same] at shared ⊢
    exact stores.apart target other old second elsewhere found alsoFound shared
  · rcases (stores.each other second alsoFound).cells with held | ⟨noBlock, _⟩
    · rw [shared, held] at unused
      cases unused
    · exact shared.trans noBlock

/-- One array is changed. -/
theorem set {target : Nat} {old new : StoredArray} {buffer : Buffer Item}
    (found : arrays[target]? = some old) (leads : heap.Leads after old.data new.data)
    (stored : new.Stores after buffer) :
    ArrayPool.Stores (arrays.set target new) after (List.set pool target buffer) where
  length_eq := by rw [List.length_set, List.length_set, stores.length_eq]
  each := by
    intro number array alsoFound
    have inArrays := (List.getElem?_eq_some_iff.1 found).1
    by_cases here : target = number
    · subst here
      rw [List.getElem?_set_self inArrays] at alsoFound
      cases alsoFound
      rw [Pool.buffer_set_self (stores.length_eq ▸ inArrays)]
      exact stored
    · rw [List.getElem?_set_ne here] at alsoFound
      rw [Pool.buffer_set_ne _ here]
      apply (stores.each number array alsoFound).of_leads leads
      exact stores.apart number target array old (Ne.symm here) alsoFound found
  apart := by
    intro number other array second different atFirst atSecond shared
    have inArrays := (List.getElem?_eq_some_iff.1 found).1
    by_cases here : target = number
    · subst here
      rw [List.getElem?_set_self inArrays] at atFirst
      rw [List.getElem?_set_ne different] at atSecond
      cases atFirst
      exact stores.eq_none_of_shared found leads different atSecond shared
    · rw [List.getElem?_set_ne here] at atFirst
      by_cases there : target = other
      · subst there
        rw [List.getElem?_set_self inArrays] at atSecond
        cases atSecond
        exact shared.trans
          (stores.eq_none_of_shared found leads here atFirst shared.symm)
      · rw [List.getElem?_set_ne there] at atSecond
        exact stores.apart number other array second different atFirst atSecond shared

/-- One array is added. -/
theorem concat {new : StoredArray} {buffer : Buffer Item}
    (kept : forall pointer cells, heap.cells? pointer = some cells ->
      after.cells? pointer = some cells)
    (unshared : forall (number : Nat) (array : StoredArray), arrays[number]? = some array ->
      new.data = array.data -> new.data = none)
    (stored : new.Stores after buffer) :
    ArrayPool.Stores (arrays ++ [new]) after (pool ++ [buffer]) where
  length_eq := by
    rw [List.length_append, List.length_append, stores.length_eq]
    rfl
  each := by
    intro number array found
    rw [Pool.buffer_concat, ← stores.length_eq]
    rcases eq_of_getElem?_concat found with alsoFound | ⟨last, same⟩
    · have earlier := (List.getElem?_eq_some_iff.1 alsoFound).1
      rw [if_neg (Nat.ne_of_lt earlier)]
      exact (stores.each number array alsoFound).kept (kept _)
    · rw [if_pos last, same]
      exact stored
  apart := by
    intro number other array second different atFirst atSecond shared
    rcases eq_of_getElem?_concat atFirst with first | ⟨last, same⟩
    · rcases eq_of_getElem?_concat atSecond with alsoFirst | ⟨_, alsoSame⟩
      · exact stores.apart number other array second different first alsoFirst shared
      · rw [alsoSame] at shared
        exact shared.trans (unshared number array first shared.symm)
    · rcases eq_of_getElem?_concat atSecond with alsoFirst | ⟨alsoLast, _⟩
      · rw [same] at shared ⊢
        exact unshared other second alsoFirst shared
      · exact absurd (last.trans alsoLast.symm) different

/-- The contents of one array are moved to a new one. -/
theorem move {source : Nat} {moved : StoredArray} (found : arrays[source]? = some moved) :
    ArrayPool.Stores (arrays.set source .vacated ++ [moved]) heap
      (pool.set source .vacated ++ [pool.buffer source]) := by
  have dropped : heap.Leads heap moved.data none := ⟨fun _ _ _ held => held, .inr rfl⟩
  refine (stores.set found dropped (StoredArray.stores_vacated heap)).concat
    (fun _ _ held => held) (fun number array alsoFound shared => ?_)
    (stores.each source moved found)
  by_cases here : source = number
  · subst here
    rw [List.getElem?_set_self (List.getElem?_eq_some_iff.1 found).1] at alsoFound
    cases alsoFound
    exact shared
  · rw [List.getElem?_set_ne here] at alsoFound
    exact stores.apart source number moved array here found alsoFound shared

/-- Two arrays are exchanged. -/
theorem exchange {target source : Nat} {first second : StoredArray}
    (atTarget : arrays[target]? = some first) (atSource : arrays[source]? = some second) :
    ArrayPool.Stores ((arrays.set target second).set source first) heap
      ((pool.set target (pool.buffer source)).set source (pool.buffer target)) where
  length_eq := by
    rw [List.length_set, List.length_set, List.length_set, List.length_set, stores.length_eq]
  each := by
    intro number array found
    rw [getElem?_exchange atTarget atSource] at found
    have targetInside := stores.length_eq ▸ (List.getElem?_eq_some_iff.1 atTarget).1
    have sourceInside := stores.length_eq ▸ (List.getElem?_eq_some_iff.1 atSource).1
    rw [Pool.buffer, getElem?_exchange (Pool.getElem?_eq_buffer targetInside)
      (Pool.getElem?_eq_buffer sourceInside)]
    exact stores.each _ array found
  apart := by
    intro number other array second different atFirst atSecond shared
    rw [getElem?_exchange atTarget atSource] at atFirst atSecond
    exact stores.apart _ _ array second ((Equiv.swap target source).injective.ne different)
      atFirst atSecond shared

/-! ## One operation -/

end Stores

end ArrayPool

/-! ## Arrays as lists -/

namespace PoolOp

variable {Item : Type}

/-- The operation with its item given by itself. -/
def given : PoolOp Item -> PoolOp (Operand Item)
  | new => .new
  | copy source => .copy source
  | move source => .move source
  | assign target source => .assign target source
  | exchange target source => .exchange target source
  | push target item => .push target (.value item)
  | reserve target needed => .reserve target needed
  | clear target => .clear target
  | set target index item => .set target index (.value item)

end PoolOp

namespace ArrayPool

variable {Item : Type}

end ArrayPool

end TailLisp
