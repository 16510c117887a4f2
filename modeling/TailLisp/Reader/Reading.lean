import TailLisp.Reader.Step
import TailLisp.Token.Cursor

namespace TailLisp

/-!
Reading items.

An item is read token by token until its outermost form is complete or a fault
stops the reading.  Nothing behind the last token of the item is looked at.
The names that the item brings to the symbol table are listed in the order in
which they arrive, also when the reading fails, because the table keeps them.
-/

/-- Where the reading of an item has come to.  The unfinished forms around the
current one are kept innermost first. -/
inductive Progress where
  | reading (state : State) (around : List Hole)
  | finished (tree : Tree)

namespace Filled

/-- Puts a completed tree into the innermost hole, and so on outwards as long
as forms are completed by it. -/
def settle : Filled -> List Hole -> Progress
  | waiting state, around => .reading state around
  | complete tree, [] => .finished tree
  | complete tree, hole :: around => (hole.fill tree).settle around

end Filled

namespace Action

/-- The progress made by an action among the unfinished forms. -/
def apply : Action -> List Hole -> Progress
  | settle filled, around => filled.settle around
  | enter hole state, around => .reading state (hole :: around)

end Action

/-- An attempt to read an item: what came of it, the names that were interned
on the way, and the cursor behind the last token. -/
structure Reading where
  outcome : Except Fault Tree
  names : List Bytes
  cursor : Cursor

/-- An attempt to read all items of a text: the items before the first fault,
the fault if there is one, the names that were interned on the way, and the
cursor behind the last token. -/
structure Batch (Symbol : Type) where
  items : List (Node Symbol)
  fault : Option Fault
  names : List Bytes
  cursor : Cursor

namespace Batch

variable {Symbol Target : Type}

/-- Replaces every symbol of the items. -/
def map (replace : Symbol -> Target) (batch : Batch Symbol) : Batch Target :=
  { items := batch.items.map (Node.map replace)
    fault := batch.fault
    names := batch.names
    cursor := batch.cursor }

/-- The items of a text without a fault, or its fault. -/
def outcome (batch : Batch Symbol) : Except Fault (List (Node Symbol)) :=
  match batch.fault with
  | none => .ok batch.items
  | some fault => .error fault

end Batch

namespace Reader

/-- Goes on reading from a state. -/
def resume (state : State) (around : List Hole) (cursor : Cursor) : Reading :=
  match _found : cursor.next with
  | (.finish pos, after) =>
      { outcome := .error (state.faultAtEnd pos), names := [], cursor := after }
  | (.flaw pos error, after) =>
      { outcome := .error { origin := pos, cause := .scan error }, names := [], cursor := after }
  | (.token token, after) =>
      match state.step token with
      | .error fault => { outcome := .error fault, names := [], cursor := after }
      | .ok step =>
          match step.action.apply around with
          | .finished tree =>
              { outcome := .ok tree, names := step.interned.toList, cursor := after }
          | .reading state around =>
              let later := resume state around after
              { later with names := step.interned.toList ++ later.names }
termination_by cursor.rest.length
decreasing_by exact Cursor.length_next_lt_of_token _found

/-- Reads the next item in a slot. -/
def read (slot : Slot) (cursor : Cursor) : Reading :=
  resume (.start slot) [] cursor

/-- An item takes at least one byte. -/
theorem length_resume_lt {state : State} {around : List Hole} {cursor : Cursor} {tree : Tree}
    (done : (resume state around cursor).outcome = .ok tree) :
    (resume state around cursor).cursor.rest.length < cursor.rest.length := by
  fun_induction resume state around cursor with
  | case1 => simp at done
  | case2 => simp at done
  | case3 => simp at done
  | case4 state around cursor token after found step stepped tree applied =>
      exact Cursor.length_next_lt_of_token found
  | case5 state around cursor token after found step stepped next outer applied later
      inductionHypothesis =>
      exact Nat.lt_trans (inductionHypothesis done) (Cursor.length_next_lt_of_token found)

/-- Reads items up to the end of the text or the first fault.  There has to be
a first item; behind each item the reading goes on unless only blank text is
left. -/
def readAll (slot : Slot) (cursor : Cursor) : Batch Reference :=
  let first := read slot cursor
  match _done : first.outcome with
  | .error fault =>
      { items := [], fault := some fault, names := first.names, cursor := first.cursor }
  | .ok tree =>
      let after := first.cursor.skipBlank
      if after.atEnd then
        { items := [tree], fault := none, names := first.names, cursor := after }
      else
        let later := readAll slot after
        { later with items := tree :: later.items, names := first.names ++ later.names }
termination_by cursor.rest.length
decreasing_by
  exact Nat.lt_of_le_of_lt (Cursor.length_skipBlank_le _) (length_resume_lt _done)

end Reader

end TailLisp
