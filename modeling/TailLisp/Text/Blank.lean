import TailLisp.Text.ByteClass

namespace TailLisp

/-!
Blank text between lexemes.

Blank bytes and comments separate lexemes and mean nothing else.  A comment
runs from a semicolon to the next newline, which belongs to it, or to the end
of the text.
-/

namespace Blank

open ByteClass

/-- Splits a text after its longest blank beginning.  The flag tells that the
text starts inside a comment, where every byte up to the newline is blank. -/
def splitFrom : Bool -> Bytes -> Bytes × Bytes
  | _, [] => ([], [])
  | inComment, byte :: text =>
      if inComment || isBlank byte || byte == commentMark then
        let remaining := splitFrom ((inComment || byte == commentMark) && byte != newline) text
        (byte :: remaining.1, remaining.2)
      else
        ([], byte :: text)

/-- The longest blank beginning of a text, and what follows it. -/
def split (text : Bytes) : Bytes × Bytes :=
  splitFrom false text

/-- Nothing is lost by splitting. -/
theorem splitFrom_append (inComment : Bool) (text : Bytes) :
    (splitFrom inComment text).1 ++ (splitFrom inComment text).2 = text := by
  induction text generalizing inComment with
  | nil => rfl
  | cons byte text inductionHypothesis =>
      unfold splitFrom
      split
      · exact congrArg (byte :: ·) (inductionHypothesis _)
      · rfl

theorem split_append (text : Bytes) : (split text).1 ++ (split text).2 = text :=
  splitFrom_append false text

/-- What follows is no longer than the whole. -/
theorem length_split_le (text : Bytes) : (split text).2.length <= text.length := by
  have whole := congrArg List.length (split_append text)
  rw [List.length_append] at whole
  omega

end Blank

end TailLisp
