import TailLisp.Proofs.Completeness
import TailLisp.Source

namespace TailLisp

/-!
Names and ids.

A symbol table numbers distinct names, so on the names that it holds the id
and the name determine each other.  A tree whose symbols are all held can be
moved from names to ids and back without loss, and reading such a tree again
leaves the table as it is.
-/

namespace Reference

/-- The name that a reference stands for in a ready table. -/
def spelling : Reference -> Bytes
  | named name => name
  | reserved form => form.name

end Reference

namespace SymbolTable

/-! ## Ids of names that are held -/

theorem nameOf_idOf {table : SymbolTable} {name : Bytes} (held : name ∈ table.names) :
    table.nameOf (table.idOf name) = name := by
  rw [nameOf, idOf, List.getElem?_idxOf held, Option.getD_some]

theorem nameOf_mem {table : SymbolTable} {id : SymbolId} (given : id < table.size) :
    table.nameOf id ∈ table.names := by
  rw [nameOf, List.getElem?_eq_getElem given, Option.getD_some]
  exact List.getElem_mem given

/-- Distinct names make the ids unambiguous. -/
theorem idOf_nameOf {table : SymbolTable} {id : SymbolId} (given : id < table.size) :
    table.idOf (table.nameOf id) = id := by
  rw [nameOf, List.getElem?_eq_getElem given, Option.getD_some, idOf]
  exact table.distinct.idxOf_getElem id given

/-! ## Adding names -/

theorem insert_of_held {table : SymbolTable} {name : Bytes} (held : name ∈ table.names) :
    table.insert name = table :=
  dif_pos (idOf_lt_size.2 held)

/-- Names that are held already change nothing. -/
theorem insertAll_of_held {table : SymbolTable} {names : List Bytes}
    (held : forall name, name ∈ names -> name ∈ table.names) : table.insertAll names = table := by
  induction names with
  | nil => rfl
  | cons name names inductionHypothesis =>
      change (table.insert name).insertAll names = table
      rw [insert_of_held (held name (by simp))]
      exact inductionHypothesis fun other member => held other (List.mem_cons_of_mem _ member)

theorem insertAll_append (table : SymbolTable) (names others : List Bytes) :
    table.insertAll (names ++ others) = (table.insertAll names).insertAll others :=
  List.foldl_append

theorem ready_insert (table : SymbolTable) (name : Bytes) :
    (table.insert name).ready = table.ready := by
  unfold insert
  split <;> rfl

@[simp]
theorem ready_insertAll (table : SymbolTable) (names : List Bytes) :
    (table.insertAll names).ready = table.ready := by
  induction names generalizing table with
  | nil => rfl
  | cons name names inductionHypothesis =>
      exact (inductionHypothesis (table.insert name)).trans (ready_insert table name)

theorem names_prepare (table : SymbolTable) :
    table.prepare.names = (table.insertAll (SpecialForm.all.map SpecialForm.name)).names := by
  rw [prepare]

theorem ready_prepare (table : SymbolTable) : table.prepare.ready = true := by
  rw [prepare]

/-! ## Growth

A table only grows at its end, so ids that were given out keep their names.
-/

theorem names_isPrefix_insert (table : SymbolTable) (name : Bytes) :
    table.names <+: (table.insert name).names := by
  unfold insert
  split
  · exact List.prefix_rfl
  · exact List.prefix_append _ _

theorem names_isPrefix_insertAll (table : SymbolTable) (names : List Bytes) :
    table.names <+: (table.insertAll names).names := by
  induction names generalizing table with
  | nil => exact List.prefix_rfl
  | cons name names inductionHypothesis =>
      exact (names_isPrefix_insert table name).trans (inductionHypothesis (table.insert name))

theorem names_insert_of_not_held {table : SymbolTable} {name : Bytes}
    (notHeld : name ∉ table.names) : (table.insert name).names = table.names ++ [name] := by
  rw [insert, dif_neg (notHeld ∘ idOf_lt_size.1)]

section Growth

variable {table later : SymbolTable} (grown : table.names <+: later.names)

include grown

theorem nameOf_of_isPrefix {id : SymbolId} (given : id < table.size) :
    later.nameOf id = table.nameOf id := by
  rw [nameOf, nameOf, List.prefix_iff_getElem?.1 grown id given, List.getElem?_eq_getElem given]

theorem idOf_of_isPrefix {name : Bytes} (held : name ∈ table.names) :
    later.idOf name = table.idOf name :=
  (grown.idxOf_eq_of_mem held).symm

end Growth

theorem idOf_of_not_held {table : SymbolTable} {name : Bytes} (notHeld : name ∉ table.names) :
    table.idOf name = table.size :=
  List.idxOf_eq_length notHeld

/-- A name gets the id that was predicted for it. -/
@[simp]
theorem idOf_insert_self (table : SymbolTable) (name : Bytes) :
    (table.insert name).idOf name = table.idOf name := by
  by_cases held : name ∈ table.names
  · rw [insert_of_held held]
  · rw [idOf, names_insert_of_not_held held, List.idxOf_append_of_notMem held,
      List.idxOf_cons_self, idOf_of_not_held held]
    rfl

/-! ## Trees -/

/-- In a ready table a reference has the id of its name. -/
theorem resolve_eq_idOf {table : SymbolTable} (ready : table.ready = true)
    (reference : Reference) : table.resolve reference = table.idOf reference.spelling := by
  cases reference with
  | named name => rfl
  | reserved form => exact if_pos ready

/-- The table holds every name that the tree brings to it. -/
def Holds (table : SymbolTable) (tree : Tree) : Prop :=
  forall name, name ∈ tree.names -> name ∈ table.names

theorem holds_insertAll_names (table : SymbolTable) (tree : Tree) :
    (table.insertAll tree.names).Holds tree :=
  fun _ arrives => mem_insertAll.2 (.inr arrives)

theorem Holds.of_subset {table : SymbolTable} {tree part : Tree} (held : table.Holds tree)
    (subset : part.symbols ⊆ tree.symbols) : table.Holds part := by
  intro name arrives
  rcases List.mem_filterMap.1 arrives with ⟨reference, occurs, same⟩
  exact held name (List.mem_filterMap.2 ⟨reference, subset occurs, same⟩)

theorem Holds.spelling_mem {table : SymbolTable} {tree : Tree} (held : table.Holds tree)
    (ready : table.ready = true) {reference : Reference} (occurs : reference ∈ tree.symbols) :
    reference.spelling ∈ table.names := by
  cases reference with
  | named name => exact held name (List.mem_filterMap.2 ⟨_, occurs, rfl⟩)
  | reserved form => exact table.reserved ready form

theorem Holds.resolve_lt_size {table : SymbolTable} {tree : Tree} (held : table.Holds tree)
    (ready : table.ready = true) (id : SymbolId) (occurs : id ∈ (tree.map table.resolve).symbols) :
    id < table.size := by
  rw [Node.symbols_map] at occurs
  rcases List.mem_map.1 occurs with ⟨reference, inTree, same⟩
  rw [← same, resolve_eq_idOf ready]
  exact idOf_lt_size.2 (held.spelling_mem ready inTree)

/-- The ids of a tree stand for the names it was read with. -/
theorem map_nameOf_resolve {table : SymbolTable} {tree : Tree} (held : table.Holds tree)
    (ready : table.ready = true) :
    (tree.map table.resolve).map table.nameOf = tree.map Reference.spelling := by
  rw [Node.map_map]
  apply Node.map_congr
  intro reference occurs
  rw [Function.comp_apply, resolve_eq_idOf ready]
  exact nameOf_idOf (held.spelling_mem ready occurs)

/-- A tree keeps its ids while the table grows. -/
theorem map_resolve_of_isPrefix {table later : SymbolTable} (grown : table.names <+: later.names)
    {tree : Tree} (held : table.Holds tree) (ready : table.ready = true)
    (laterReady : later.ready = true) : tree.map later.resolve = tree.map table.resolve := by
  apply Node.map_congr
  intro reference occurs
  rw [resolve_eq_idOf ready, resolve_eq_idOf laterReady]
  exact idOf_of_isPrefix grown (held.spelling_mem ready occurs)

/-- A tree with ids that were given out is determined by its names. -/
theorem map_idOf_nameOf {table : SymbolTable} {node : Node SymbolId}
    (given : forall id, id ∈ node.symbols -> id < table.size) :
    (node.map table.nameOf).map table.idOf = node := by
  have kept : node.map (table.idOf ∘ table.nameOf) = node.map id :=
    Node.map_congr fun id occurs => idOf_nameOf (given id occurs)
  rw [Node.map_map, kept, Node.map_id]

end SymbolTable

end TailLisp
