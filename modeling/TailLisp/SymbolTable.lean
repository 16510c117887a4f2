import TailLisp.Keyword

namespace TailLisp

/-!
Symbol tables.

A symbol table numbers names from zero in the order in which they arrive.  A
name keeps its number for good, so ids from different moments can be compared.
Preparing a table adds the names of the special forms; a table that was never
prepared can be filled but is refused by the readers of whole texts.

Ids are natural numbers and never run out.  A `SymbolStore` gives out words of
32 bits and agrees with the table until its counters wrap around.
-/

/-- The number of a name in a symbol table. -/
abbrev SymbolId := Nat

/-- Distinct names in the order of their arrival.  A ready table holds the
names of all special forms. -/
structure SymbolTable where
  names : List Bytes
  ready : Bool
  distinct : names.Nodup
  reserved : ready = true -> forall form : SpecialForm, form.name ∈ names

namespace SymbolTable

/-- A table without names. -/
def empty : SymbolTable where
  names := []
  ready := false
  distinct := List.nodup_nil
  reserved := fun ready => absurd ready Bool.false_ne_true

/-- How many names the table holds. -/
def size (table : SymbolTable) : Nat :=
  table.names.length

/-- The id of a name.  A name that the table does not hold gets the id that
it would receive on arrival. -/
def idOf (table : SymbolTable) (name : Bytes) : SymbolId :=
  table.names.idxOf name

/-- The name with an id; an id that was never given out has the empty name. -/
def nameOf (table : SymbolTable) (id : SymbolId) : Bytes :=
  table.names[id]?.getD []

/-- A name has an id below the size exactly if the table holds it. -/
theorem idOf_lt_size {table : SymbolTable} {name : Bytes} :
    table.idOf name < table.size ↔ name ∈ table.names :=
  List.idxOf_lt_length_iff

/-- Adds a name unless the table holds it. -/
def insert (table : SymbolTable) (name : Bytes) : SymbolTable :=
  if present : table.idOf name < table.size then
    table
  else
    { names := table.names ++ [name]
      ready := table.ready
      distinct := by
        refine List.nodup_append.2 ⟨table.distinct, by simp, ?_⟩
        intro held member fresh single same
        rw [List.mem_singleton.1 single] at same
        exact present (idOf_lt_size.2 (same ▸ member))
      reserved := fun ready form =>
        List.mem_append_left [name] (table.reserved ready form) }

/-- Adds names in turn. -/
def insertAll (table : SymbolTable) (names : List Bytes) : SymbolTable :=
  names.foldl insert table

/-- The id of a name, and the table that holds it. -/
def intern (table : SymbolTable) (name : Bytes) : SymbolId × SymbolTable :=
  (table.idOf name, table.insert name)

theorem mem_insert {table : SymbolTable} {name other : Bytes} :
    other ∈ (table.insert name).names ↔ other ∈ table.names ∨ other = name := by
  unfold insert
  split
  · next present =>
      constructor
      · exact Or.inl
      · rintro (member | same)
        · exact member
        · exact same ▸ idOf_lt_size.1 present
  · simp

/-- A table holds what it held and what was added. -/
theorem mem_insertAll {table : SymbolTable} {names : List Bytes} {other : Bytes} :
    other ∈ (table.insertAll names).names ↔ other ∈ table.names ∨ other ∈ names := by
  induction names generalizing table with
  | nil => simp [insertAll]
  | cons name names inductionHypothesis =>
      change other ∈ ((table.insert name).insertAll names).names ↔ _
      rw [inductionHypothesis, mem_insert, List.mem_cons, or_assoc]

/-- Adds the names of the special forms, after which the table is ready. -/
def prepare (table : SymbolTable) : SymbolTable :=
  let filled := table.insertAll (SpecialForm.all.map SpecialForm.name)
  { names := filled.names
    ready := true
    distinct := filled.distinct
    reserved := fun _ form =>
      mem_insertAll.2 (Or.inr (List.mem_map_of_mem (SpecialForm.mem_all form))) }

/-- The id of a special form's name.  Before the table is prepared no such id
is known, and zero stands in for it. -/
def reservedId (table : SymbolTable) (form : SpecialForm) : SymbolId :=
  if table.ready then table.idOf form.name else 0

end SymbolTable

end TailLisp
