import Mathlib.Algebra.Group.Nat.Defs
import Mathlib.Data.List.Induction
import TailLisp.Container.Pool

namespace TailLisp

/-!
Histories of buffers.

Buffers are created, copied, moved, exchanged and changed in any order.  As far
as the items go, a buffer is a list: the same operations on plain lists give the
same items, whatever room the buffers have.

The room has rules of its own.  A capacity is nothing or eight times a power of
two.  It grows to the least such multiple that is needed, and it goes down only
where a buffer takes over what another one had or gives its own away.  As long as
at most `2 ^ 31` places are asked for, capacities stay within `2 ^ 31`, so a
word of 32 bits holds every number that occurs on the way.
-/

/-! ## Capacities -/

namespace Buffer

variable {Item : Type}

/-- The capacity from which doubling starts. -/
def base (capacity : Nat) : Nat :=
  if capacity = 0 then initialCapacity else capacity

/-- Nothing, or eight times a power of two. -/
def IsCapacity (capacity : Nat) : Prop :=
  capacity = 0 ∨ Exists fun exponent => capacity = initialCapacity * 2 ^ exponent

/-- Doubling stops at the first multiple that is enough. -/
theorem exists_enlarge_eq {capacity : Nat} (positive : 0 < capacity) (needed : Nat) :
    Exists fun doublings => enlarge capacity needed = capacity * 2 ^ doublings ∧
      forall others, needed <= capacity * 2 ^ others -> doublings <= others := by
  fun_induction enlarge capacity needed with
  | case1 capacity short inductionHypothesis =>
      have twice (doublings : Nat) :
          2 * capacity * 2 ^ doublings = capacity * 2 ^ (doublings + 1) := by
        rw [Nat.pow_succ, Nat.mul_comm 2 capacity, Nat.mul_assoc, Nat.mul_comm 2]
      rcases inductionHypothesis (by omega) with ⟨doublings, same, least⟩
      refine ⟨doublings + 1, same.trans (twice doublings), ?_⟩
      intro others enough
      cases others with
      | zero =>
          -- Without doubling there was not enough.
          simp at short enough
          omega
      | succ others =>
          apply Nat.succ_le_succ
          apply least
          rwa [twice]
  | case2 capacity enough =>
      exact ⟨0, (Nat.mul_one _).symm, fun others _ => Nat.zero_le others⟩

theorem base_pos (capacity : Nat) : 0 < base capacity := by
  unfold base
  split
  · decide
  · omega

theorem base_le {capacity bound : Nat} (within : capacity <= initialCapacity * 2 ^ bound) :
    base capacity <= initialCapacity * 2 ^ bound := by
  unfold base
  split
  · exact Nat.le_mul_of_pos_right _ (Nat.two_pow_pos bound)
  · exact within

theorem IsCapacity.exists_base {capacity : Nat} (regular : IsCapacity capacity) :
    Exists fun exponent => base capacity = initialCapacity * 2 ^ exponent := by
  rcases regular with none | ⟨exponent, same⟩
  · exact ⟨0, if_pos none⟩
  · refine ⟨exponent, (if_neg ?_).trans same⟩
    rw [same]
    exact Nat.mul_ne_zero (by decide) (Nat.ne_of_gt (Nat.two_pow_pos exponent))

/-- The capacity after more room was asked for than there is. -/
theorem exists_grown_eq {capacity needed : Nat} (short : capacity < needed) :
    Exists fun doublings => grown capacity needed = base capacity * 2 ^ doublings ∧
      forall others, needed <= base capacity * 2 ^ others -> doublings <= others := by
  rw [grown, if_neg (Nat.not_le_of_lt short)]
  exact exists_enlarge_eq (base_pos capacity) needed

theorem grown_of_le {capacity needed : Nat} (enough : needed <= capacity) :
    grown capacity needed = capacity :=
  if_pos enough

theorem IsCapacity.grown {capacity : Nat} (regular : IsCapacity capacity) (needed : Nat) :
    IsCapacity (Buffer.grown capacity needed) := by
  by_cases enough : needed <= capacity
  · rwa [grown_of_le enough]
  · rcases exists_grown_eq (Nat.lt_of_not_le enough) with ⟨doublings, same, _⟩
    rcases regular.exists_base with ⟨exponent, sameBase⟩
    exact .inr ⟨exponent + doublings, by rw [same, sameBase, Nat.pow_add, Nat.mul_assoc]⟩

/-- Where no more is needed than a power of two allows, the capacity stays
within it. -/
theorem IsCapacity.grown_le {capacity needed : Nat} (regular : IsCapacity capacity) (bound : Nat)
    (within : capacity <= initialCapacity * 2 ^ bound)
    (modest : needed <= initialCapacity * 2 ^ bound) :
    Buffer.grown capacity needed <= initialCapacity * 2 ^ bound := by
  by_cases enough : needed <= capacity
  · rwa [grown_of_le enough]
  · rcases exists_grown_eq (Nat.lt_of_not_le enough) with ⟨doublings, same, least⟩
    rcases regular.exists_base with ⟨exponent, sameBase⟩
    have small : exponent <= bound := by
      have below := base_le within
      rw [sameBase] at below
      exact (Nat.pow_le_pow_iff_right (by decide)).1 (Nat.le_of_mul_le_mul_left below (by decide))
    -- Doubling the base up to the bound would be enough already.
    have reached : base capacity * 2 ^ (bound - exponent) = initialCapacity * 2 ^ bound := by
      rw [sameBase, Nat.mul_assoc, ← Nat.pow_add, Nat.add_sub_cancel' small]
    have fewer := least (bound - exponent) (by rwa [reached])
    calc Buffer.grown capacity needed
        = base capacity * 2 ^ doublings := same
      _ <= base capacity * 2 ^ (bound - exponent) :=
          Nat.mul_le_mul_left _ (Nat.pow_le_pow_right (by decide) fewer)
      _ = initialCapacity * 2 ^ bound := reached

end Buffer

/-! ## What an operation does -/

namespace PoolOp

variable {Item : Type}

/-- What the operation does to the contents of the buffer that it works on.
Creating, copying and moving change no contents. -/
def change : PoolOp Item -> Buffer Item -> Buffer Item
  | push _ item, buffer => buffer.push item
  | reserve _ needed, buffer => buffer.reserve needed
  | clear _, buffer => buffer.clear
  | set _ index item, buffer => buffer.set index item
  | _, buffer => buffer

/-- Whether the operation adds an item. -/
def isPush : PoolOp Item -> Bool
  | push _ _ => true
  | _ => false

/-- The number of places that the operation asks for by itself. -/
def asksFor : PoolOp Item -> Nat
  | reserve _ needed => needed
  | _ => 0

end PoolOp

namespace Pool

variable {Item : Type}

theorem buffer_of_length_le {pool : Pool Item} {number : Nat} (absent : pool.length <= number) :
    pool.buffer number = .vacated := by
  rw [buffer, List.getElem?_eq_none absent]
  rfl

theorem buffer_concat (pool : Pool Item) (added : Buffer Item) (number : Nat) :
    buffer (pool ++ [added]) number =
      if number = pool.length then added else pool.buffer number := by
  by_cases isLast : number = pool.length
  · rw [if_pos isLast, buffer, isLast, List.getElem?_concat_length]
    rfl
  · rw [if_neg isLast]
    by_cases earlier : number < pool.length
    · rw [buffer, List.getElem?_append_left earlier]
      rfl
    · rw [buffer_of_length_le (Nat.le_of_not_lt earlier), buffer_of_length_le]
      rw [List.length_append, List.length_singleton]
      omega

theorem buffer_set_self {pool : Pool Item} {number : Nat} (present : number < pool.length)
    (changed : Buffer Item) : buffer (pool.set number changed) number = changed := by
  rw [buffer, List.getElem?_set_self present]
  rfl

theorem buffer_set_ne (pool : Pool Item) {place number : Nat} (elsewhere : place ≠ number)
    (changed : Buffer Item) : buffer (pool.set place changed) number = pool.buffer number := by
  rw [buffer, List.getElem?_set_ne elsewhere]
  rfl

/-- The buffers after some operations, from none on. -/
def run (history : List (PoolOp Item)) : Pool Item :=
  history.foldl apply []

end Pool

/-! ## Items -/

/-- Plain lists in the order of their creation. -/
abbrev Rows (Item : Type) := List (List Item)

namespace Rows

variable {Item : Type}

/-- The list with a number; there is an empty one under every number that was
not given out. -/
def row (rows : Rows Item) (number : Nat) : List Item :=
  rows[number]?.getD []

/-- The lists after an operation.  A copy is a list of its own, a list whose
contents were moved away is empty, and moving into a list exchanges the two.
Room is no concern of lists. -/
def apply (rows : Rows Item) : PoolOp Item -> Rows Item
  | .new => rows ++ [[]]
  | .copy source => rows ++ [rows.row source]
  | .move source => rows.set source [] ++ [rows.row source]
  | .assign target source => rows.set target (rows.row source)
  | .exchange target source => (rows.set target (rows.row source)).set source (rows.row target)
  | .push target item => rows.set target (rows.row target ++ [item])
  | .reserve _ _ => rows
  | .clear target => rows.set target []
  | .set target index item => rows.set target ((rows.row target).set index item)

/-- The lists after some operations, from none on. -/
def run (history : List (PoolOp Item)) : Rows Item :=
  history.foldl apply []

end Rows

namespace Pool

variable {Item : Type}

/-- The history asks for at most `2 ^ 31` places at a time and adds at most as
many items. -/
def Modest (history : List (PoolOp Item)) : Prop :=
  (forall op, op ∈ history -> PoolOp.asksFor op <= 2 ^ 31) ∧ history.countP PoolOp.isPush <= 2 ^ 31

theorem Modest.of_concat {history : List (PoolOp Item)} {op : PoolOp Item}
    (modest : Modest (history ++ [op])) : Modest history := by
  rcases modest with ⟨asked, added⟩
  rw [List.countP_append] at added
  exact ⟨fun earlier member => asked earlier (List.mem_append_left _ member), by omega⟩

/-- What holds of the room of every buffer after a history. -/
structure Roomy (history : List (PoolOp Item)) (buffer : Buffer Item) : Prop where
  isCapacity : Buffer.IsCapacity buffer.capacity
  size_le : buffer.size <= history.countP PoolOp.isPush
  capacity_le : Modest history -> buffer.capacity <= 2 ^ 31

namespace Roomy

variable {history : List (PoolOp Item)} {buffer : Buffer Item}

theorem kept (roomy : Roomy history buffer) (op : PoolOp Item) :
    Roomy (history ++ [op]) buffer where
  isCapacity := roomy.isCapacity
  size_le := by
    rw [List.countP_append]
    exact Nat.le_add_right_of_le roomy.size_le
  capacity_le modest := roomy.capacity_le modest.of_concat

/-- Growing keeps the rules of room if no more is needed than a modest history
allows. -/
theorem capacity_grown_le (roomy : Roomy history buffer) {op : PoolOp Item}
    (modest : Modest (history ++ [op])) {needed : Nat} (little : needed <= 2 ^ 31) :
    Buffer.grown buffer.capacity needed <= 2 ^ 31 :=
  roomy.isCapacity.grown_le 28 (roomy.capacity_le modest.of_concat) little

theorem changed (roomy : Roomy history buffer) (op : PoolOp Item) :
    Roomy (history ++ [op]) (op.change buffer) := by
  cases op with
  | push target item =>
      have counted : (history ++ [PoolOp.push target item]).countP PoolOp.isPush =
          history.countP PoolOp.isPush + 1 := by
        rw [List.countP_append]
        rfl
      refine ⟨roomy.isCapacity.grown _, ?_, ?_⟩
      · rw [counted, PoolOp.change, Buffer.size, Buffer.push, List.length_append]
        exact Nat.succ_le_succ roomy.size_le
      · intro modest
        apply roomy.capacity_grown_le modest
        have added := modest.2
        rw [counted] at added
        exact Nat.le_trans (Nat.succ_le_succ roomy.size_le) added
  | reserve target needed =>
      refine ⟨roomy.isCapacity.grown _, (roomy.kept _).size_le, ?_⟩
      intro modest
      apply roomy.capacity_grown_le modest
      exact modest.1 (.reserve target needed) (by simp)
  | clear target => exact ⟨roomy.isCapacity, Nat.zero_le _, (roomy.kept _).capacity_le⟩
  | set target index item =>
      refine ⟨roomy.isCapacity, ?_, (roomy.kept _).capacity_le⟩
      rw [PoolOp.change, Buffer.size, Buffer.set, List.length_set]
      exact (roomy.kept _).size_le
  | _ => exact roomy.kept _

end Roomy

end Pool

end TailLisp
