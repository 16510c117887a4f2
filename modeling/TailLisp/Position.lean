import TailLisp.Bytes

namespace TailLisp

/-!
Places in a source text.

A position counts lines from one and columns and offsets from zero.  Columns
and offsets count bytes, and only the newline byte starts a new line.  A
reader may begin at any line and column, which is why these are integers; the
offset always counts the bytes read since that beginning.

None of the three has a largest value here.  They stand for counters of 32 bits,
signed ones for lines and columns and an unsigned one for offsets, and agree with
them while these do not overflow.  No text shorter than `2 ^ 31` bytes makes them
overflow if it is read from the first place.
-/

/-- A place in a source text. -/
structure Position where
  line : Int
  column : Int
  offset : Nat
  deriving DecidableEq

namespace Position

/-- The first place of a text that is read from its beginning. -/
def start : Position :=
  { line := 1, column := 0, offset := 0 }

/-- The place after one more byte. -/
def advance (pos : Position) (byte : UInt8) : Position :=
  if byte = '\n'.toUInt8 then
    { line := pos.line + 1, column := 0, offset := pos.offset + 1 }
  else
    { line := pos.line, column := pos.column + 1, offset := pos.offset + 1 }

/-- The place after a whole text. -/
def after (pos : Position) (text : Bytes) : Position :=
  text.foldl advance pos

@[simp] theorem after_nil (pos : Position) : pos.after [] = pos :=
  rfl

/-- Reading two texts in turn leads to the place after their concatenation. -/
theorem after_append (pos : Position) (first second : Bytes) :
    pos.after (first ++ second) = (pos.after first).after second := by
  simp only [after, List.foldl_append]

/-- The offset moves by the number of bytes read. -/
theorem offset_after (pos : Position) (text : Bytes) :
    (pos.after text).offset = pos.offset + text.length := by
  induction text generalizing pos with
  | nil => rfl
  | cons byte text inductionHypothesis =>
      have moved : (pos.advance byte).offset = pos.offset + 1 := by
        unfold advance
        split <;> rfl
      change ((pos.advance byte).after text).offset = _
      rw [inductionHypothesis, moved, List.length_cons]
      omega

/-- The line and column as messages spell them. -/
def spelling (pos : Position) : Bytes :=
  Bytes.ofText "line " ++ Bytes.ofInt pos.line ++
    Bytes.ofText ", col " ++ Bytes.ofInt pos.column

end Position

end TailLisp
