import TailLisp.Container.Buffer
import TailLisp.Container.WordTable
import TailLisp.SymbolTable

namespace TailLisp

/-!
The store of a symbol table.

A symbol table can be looked up in both directions.  Its store keeps one
structure for each: a probing table leads from names to ids, and a buffer,
whose places are the ids, leads from ids to names.  A new name goes into both
at once.  The ids of the special forms' names are noted down when the store is
prepared, so that they need not be looked up again.

Ids are words of 32 bits.  The last sixteen of them are never given out, and a
store that has run out of ids refuses a new name.
-/

/-- Names and their ids in both directions, and the ids of the special forms. -/
structure SymbolStore where
  ids : WordTable UInt32
  names : Buffer Bytes
  reserved : SpecialForm -> UInt32
  ready : Bool

namespace SymbolStore

/-- The number of slots for names in a new store. -/
def initialCapacity : UInt32 := 8

/-- The least id that is not given out. -/
def idLimit : UInt32 := 0xfffffff0

/-- A store without names. -/
def empty : SymbolStore where
  ids := .withCapacity initialCapacity
  names := .new
  reserved := fun _ => 0
  ready := false

/-- How many names the store holds. -/
def size (store : SymbolStore) : UInt32 :=
  .ofNat store.names.size

/-- The name with an id; an id that was never given out has the empty name. -/
def nameOf (store : SymbolStore) (id : UInt32) : Bytes :=
  if store.size <= id then [] else store.names.items[id.toNat]?.getD []

/-- Whether the store holds a name. -/
def contains (store : SymbolStore) (name : Bytes) : Attempt Bool := do
  return (<- store.ids.find? name).isSome

/-- The id of a name, and the store that holds it.  A new name gets the next
place of the buffer. -/
def intern (store : SymbolStore) (name : Bytes) : Attempt (UInt32 × SymbolStore) := do
  match <- store.ids.find? name with
  | some id => return (id, store)
  | none =>
      if idLimit <= store.size then
        throw .exhausted
      else
        let ids <- store.ids.insert name store.size
        return (store.size, { store with ids, names := store.names.push name })

/-- Interns names in turn. -/
def internAll (store : SymbolStore) (names : List Bytes) : Attempt SymbolStore :=
  names.foldlM (fun store name => Prod.snd <$> store.intern name) store

/-- Interns the name of a special form and notes down its id. -/
def reserve (store : SymbolStore) (form : SpecialForm) : Attempt SymbolStore := do
  let (id, after) <- store.intern form.name
  return { after with
    reserved := fun other => if other = form then id else after.reserved other }

/-- Reserves the names of all special forms, after which the store is ready. -/
def prepare (store : SymbolStore) : Attempt SymbolStore := do
  let filled <- SpecialForm.all.foldlM reserve store
  return { filled with ready := true }

end SymbolStore

end TailLisp
