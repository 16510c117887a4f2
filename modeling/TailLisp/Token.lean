import TailLisp.Keyword
import TailLisp.Position
import TailLisp.Text.ByteClass

namespace TailLisp

/-!
Tokens.

A lexeme says what was read, a token also where it began.  The end of the text
is not a token: the reader learns of it separately, so no grammar rule can
take it for a piece of source.
-/

/-- What a piece of source text is. -/
inductive Lexeme where
  | opening
  | closing
  | dot
  | tick
  | word (keyword : Keyword)
  | char (value : UInt8)
  | integer (value : Int64)
  /-- The raw text between the quotes, escapes included. -/
  | string (raw : Bytes)
  | symbol (name : Bytes)
  deriving DecidableEq

/-- A lexeme and the place of its first byte. -/
structure Token where
  pos : Position
  lexeme : Lexeme
  deriving DecidableEq

namespace Lexeme

/-- The name a lexeme can give to a thing: symbols and keywords have one. -/
def name? : Lexeme -> Option Bytes
  | word keyword => some keyword.name
  | symbol name => some name
  | _ => none

/-- The text a lexeme carries: the raw text of a string or the name of a
symbol or keyword. -/
def text : Lexeme -> Bytes
  | word keyword => keyword.name
  | string raw => raw
  | symbol name => name
  | _ => []

/-- A spelling of the lexeme that reads back as the same lexeme. -/
def spelling : Lexeme -> Bytes
  | opening => [ByteClass.openParen]
  | closing => [ByteClass.closeParen]
  | dot => ['.'.toUInt8]
  | tick => [ByteClass.tick]
  | word keyword => keyword.name
  | char value => [ByteClass.numberSign, ByteClass.backslash, value]
  | integer value => Bytes.ofInt value.toInt
  | string raw => ByteClass.stringQuote :: raw ++ [ByteClass.stringQuote]
  | symbol name => name

end Lexeme

end TailLisp
