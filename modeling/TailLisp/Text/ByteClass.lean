import TailLisp.Bytes

namespace TailLisp

/-!
Classes of bytes.

Three classes decide where lexemes begin and end: blanks separate, delimiters
stand for themselves or open a lexeme of another shape, and all remaining
bytes are constituents of atoms.  Bytes above 127, the zero byte, the
backslash and the number sign are constituents.
-/

namespace ByteClass

/-- Opens a list. -/
def openParen : UInt8 := '('.toUInt8

/-- Closes a list. -/
def closeParen : UInt8 := ')'.toUInt8

/-- Quotes the next datum. -/
def tick : UInt8 := '\x27'.toUInt8

/-- Opens and closes a string. -/
def stringQuote : UInt8 := '\x22'.toUInt8

/-- Opens a comment, which runs to the end of its line. -/
def commentMark : UInt8 := ';'.toUInt8

/-- Protects the next byte of a string, and marks a character literal. -/
def backslash : UInt8 := '\x5c'.toUInt8

/-- Opens a character literal. -/
def numberSign : UInt8 := '#'.toUInt8

/-- Ends a line. -/
def newline : UInt8 := '\n'.toUInt8

/-- Quasiquotation marks are recognised only to be refused. -/
def isQuasiquote (byte : UInt8) : Bool :=
  byte == '\x60'.toUInt8 || byte == ','.toUInt8

/-- Space, tab, newline, vertical tab, form feed and carriage return. -/
def isBlank (byte : UInt8) : Bool :=
  byte == ' '.toUInt8 || (9 <= byte && byte <= 13)

/-- Bytes that end an atom although they are not blank. -/
def isDelimiter (byte : UInt8) : Bool :=
  byte == openParen || byte == closeParen || byte == tick ||
    byte == stringQuote || byte == commentMark || isQuasiquote byte

/-- Bytes that continue an atom. -/
def isConstituent (byte : UInt8) : Bool :=
  !isBlank byte && !isDelimiter byte

/-- The value of a hexadecimal digit of either case. -/
def hexValue? (byte : UInt8) : Option Nat :=
  if '0'.toUInt8 <= byte && byte <= '9'.toUInt8 then
    some (byte.toNat - 48)
  else if 'a'.toUInt8 <= byte && byte <= 'f'.toUInt8 then
    some (byte.toNat - 87)
  else if 'A'.toUInt8 <= byte && byte <= 'F'.toUInt8 then
    some (byte.toNat - 55)
  else
    none

/-- The value of a digit in a base of at most sixteen. -/
def digitValue? (base : Nat) (byte : UInt8) : Option Nat :=
  (hexValue? byte).filter fun value => value < base

end ByteClass

end TailLisp
