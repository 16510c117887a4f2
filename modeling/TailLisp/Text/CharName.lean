import TailLisp.Bytes

namespace TailLisp

/-!
Names of characters.

A character literal writes most bytes as themselves.  Five bytes that would be
hard to see also have names, which the reader accepts and the printer uses.
-/

namespace CharName

/-- The named characters. -/
def all : List (Bytes × UInt8) :=
  [ (Bytes.ofText "space", ' '.toUInt8),
    (Bytes.ofText "newline", '\n'.toUInt8),
    (Bytes.ofText "tab", '\t'.toUInt8),
    (Bytes.ofText "return", '\r'.toUInt8),
    (Bytes.ofText "nul", 0) ]

/-- The character with a name. -/
def value? (name : Bytes) : Option UInt8 :=
  all.lookup name

/-- The text of a character after the mark of a character literal: its name
if it has one, and otherwise the byte itself. -/
def spelling (char : UInt8) : Bytes :=
  match all.find? fun entry => entry.2 = char with
  | some entry => entry.1
  | none => [char]

end CharName

end TailLisp
