import TailLisp.Reader.Reading
import TailLisp.SymbolTable

namespace TailLisp

/-!
Reading whole texts into a symbol table.

A reading names its symbols; here the names are entered into a symbol table
and the trees are given the ids.  The names of a text that turns out to be
malformed stay in the table.  Whole texts are read only into a table that has
been prepared.
-/

/-- A call that the library refuses to carry out. -/
inductive Misuse where
  | unpreparedTable
  deriving DecidableEq

namespace Misuse

def message : Misuse -> Bytes
  | unpreparedTable =>
      Bytes.ofText "Parser invoked with a symbol table that was never prepared."

end Misuse

/-- The result of reading into a symbol table, the table afterwards, and the
cursor behind what was read. -/
structure Interned (Result : Type) where
  outcome : Except Fault Result
  table : SymbolTable
  cursor : Cursor

namespace SymbolTable

/-- The id of what a symbol refers to. -/
def resolve (table : SymbolTable) : Reference -> SymbolId
  | .named name => table.idOf name
  | .reserved form => table.reservedId form

/-- Refuses a table that was never prepared. -/
def checkReady (table : SymbolTable) : Except Misuse Unit :=
  if table.ready then .ok () else .error .unpreparedTable

/-- Reads the next item in a slot. -/
def readItem (table : SymbolTable) (slot : Slot) (cursor : Cursor) :
    Interned (Node SymbolId) :=
  let reading := Reader.read slot cursor
  let filled := table.insertAll reading.names
  { outcome := reading.outcome.map (Node.map filled.resolve)
    table := filled
    cursor := reading.cursor }

/-- Reads items up to the end of the text or the first fault. -/
def readItems (table : SymbolTable) (slot : Slot) (cursor : Cursor) :
    Batch SymbolId × SymbolTable :=
  let batch := Reader.readAll slot cursor
  let filled := table.insertAll batch.names
  (batch.map filled.resolve, filled)

/-- Reads all forms of a program.  A fault anywhere leaves no forms. -/
def readForms (table : SymbolTable) (cursor : Cursor) :
    Except Misuse (Interned (List (Node SymbolId))) := do
  table.checkReady
  let (batch, filled) := table.readItems (.code false) cursor
  return { outcome := batch.outcome, table := filled, cursor := batch.cursor }

/-- Reads the program in a text. -/
def parseForms (table : SymbolTable) (text : Bytes) :
    Except Misuse (Interned (List (Node SymbolId))) :=
  table.readForms (.ofText text)

/-- Reads the one datum of a text.  Only blank text may follow it. -/
def parseDatum (table : SymbolTable) (text : Bytes) :
    Except Misuse (Interned (Node SymbolId)) := do
  table.checkReady
  let read := table.readItem .data (.ofText text)
  match read.outcome with
  | .error _ => return read
  | .ok _ =>
      let after := read.cursor.skipBlank
      if after.atEnd then
        return { read with cursor := after }
      else
        return { outcome := .error (.syntaxAt after.pos .trailingInput)
                 table := read.table
                 cursor := after }

end SymbolTable

end TailLisp
