import TailLisp.Source

namespace TailLisp

/-!
Sessions.

A session reads one text piece by piece, as tokens or as items, into one
symbol table.  It remembers the latest fault until it is told to forget it; a
later success does not clear it.
-/

/-- A symbol table, a text that is being read, and the latest fault. -/
structure Session where
  table : SymbolTable
  cursor : Cursor
  fault : Option Fault

namespace Session

/-- A session on a text that begins at a line and a column. -/
def start (table : SymbolTable) (line column : Int) (text : Bytes) : Session :=
  { table
    cursor := { pos := { line, column, offset := 0 }, rest := text }
    fault := none }

/-- Reads the next token. -/
def next (session : Session) : Scan × Session :=
  let (scan, after) := session.cursor.next
  (scan, { session with cursor := after })

/-- Moves to the next byte that is not blank. -/
def skipBlank (session : Session) : Session :=
  { session with cursor := session.cursor.skipBlank }

/-- Takes over the table of a reading and its fault, if it has one. -/
def adopt {Result : Type} (session : Session) (read : Interned Result) : Session :=
  { session with
    table := read.table
    fault := match read.outcome with
      | .ok _ => session.fault
      | .error fault => some fault }

/-- Reads the next item in a slot.  Unlike whole texts, single items are read
into any table. -/
def readItem (session : Session) (slot : Slot) : Except Fault (Node SymbolId) × Session :=
  let read := session.table.readItem slot session.cursor
  (read.outcome, { session.adopt read with cursor := read.cursor })

/-- Reads a program in another text. -/
def parseForms (session : Session) (text : Bytes) :
    Except Misuse (List (Node SymbolId) × Session) := do
  let read <- session.table.parseForms text
  return (read.outcome.toOption.getD [], session.adopt read)

/-- Reads the rest of the session's text as a program of its own, with
positions counted anew.  The session's own position stays behind. -/
def parseRest (session : Session) : Except Misuse (List (Node SymbolId) × Session) := do
  let read <- session.table.readForms (.ofText session.cursor.rest)
  let left := { session.cursor with rest := read.cursor.rest }
  return (read.outcome.toOption.getD [], { session.adopt read with cursor := left })

/-- Reads the one datum of another text. -/
def parseDatum (session : Session) (text : Bytes) :
    Except Misuse (Except Fault (Node SymbolId) × Session) := do
  let read <- session.table.parseDatum text
  return (read.outcome, session.adopt read)

end Session

end TailLisp
