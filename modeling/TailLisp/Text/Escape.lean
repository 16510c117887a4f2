import TailLisp.Text.ByteClass

namespace TailLisp

/-!
Escapes in string literals.

Decoding accepts more spellings than encoding writes.  A backslash is followed
by a letter for a single byte, by `x`, `u` or `U` and one, two or four bytes in
hexadecimal, or by up to three octal digits taken as greedily as possible.
Encoding escapes only the two bytes that would end or bend the literal and the
bytes without a visible shape.

A list of bytes has no longest length.  It stands for a text whose bytes can be
counted in a word of 32 bits, so it is taken to be shorter than `2 ^ 32` bytes.
-/

namespace Escape

open ByteClass

/-- Letters that stand for one byte after a backslash. -/
def letters : List (UInt8 × UInt8) :=
  [ (tick, tick), (stringQuote, stringQuote), ('?'.toUInt8, '?'.toUInt8),
    (backslash, backslash), ('a'.toUInt8, 7), ('b'.toUInt8, 8), ('f'.toUInt8, 12),
    ('n'.toUInt8, 10), ('r'.toUInt8, 13), ('t'.toUInt8, 9), ('v'.toUInt8, 11) ]

/-- Reads a number of bytes, two hexadecimal digits each, and returns them
with the text after them. -/
def hexBytes : Nat -> Bytes -> Option (Bytes × Bytes)
  | 0, text => some ([], text)
  | count + 1, high :: low :: text => do
      let upper <- hexValue? high
      let lower <- hexValue? low
      let (bytes, after) <- hexBytes count text
      return ((16 * upper + lower).toUInt8 :: bytes, after)
  | _ + 1, _ => none

/-- Reads up to a number of octal digits after a value and returns the byte
they write with the text after them.  A digit too many pushes the highest bits
out of the byte. -/
def octalFrom : Nat -> UInt8 -> Bytes -> UInt8 × Bytes
  | count + 1, total, digit :: text =>
      match digitValue? 8 digit with
      | some value => octalFrom count (8 * total + value.toUInt8) text
      | none => (total, digit :: text)
  | _, total, text => (total, text)

/-- The bytes that an escape stands for, and the text after it.  The backslash
has been read; the arguments are the byte after it and the text after that. -/
def sequence (letter : UInt8) (text : Bytes) : Option (Bytes × Bytes) :=
  match letters.lookup letter with
  | some byte => some ([byte], text)
  | none =>
      if letter = 'x'.toUInt8 then hexBytes 1 text
      else if letter = 'u'.toUInt8 then hexBytes 2 text
      else if letter = 'U'.toUInt8 then hexBytes 4 text
      else
        match digitValue? 8 letter with
        | some value =>
            let octal := octalFrom 2 value.toUInt8 text
            some ([octal.1], octal.2)
        | none => none

theorem length_hexBytes_le {count : Nat} {text bytes after : Bytes}
    (read : hexBytes count text = some (bytes, after)) : after.length <= text.length := by
  fun_induction hexBytes count text generalizing bytes after with
  | case1 text => simp_all
  | case2 count high low text inductionHypothesis =>
      simp only [Option.bind_eq_bind, Option.bind_eq_some_iff, Option.pure_def,
        Option.some.injEq, Prod.mk.injEq] at read
      obtain ⟨_, _, _, _, _, found, _, same⟩ := read
      have shorter := inductionHypothesis found
      rw [same] at shorter
      simp only [List.length_cons]
      omega
  | case3 => simp at read

theorem length_octalFrom_le (count : Nat) (total : UInt8) (text : Bytes) :
    (octalFrom count total text).2.length <= text.length := by
  fun_induction octalFrom count total text with
  | case1 count total digit text value _ inductionHypothesis =>
      simp only [List.length_cons]
      omega
  | case2 => simp
  | case3 => simp

/-- An escape leaves no more text than it was given. -/
theorem length_sequence_le {letter : UInt8} {text bytes after : Bytes}
    (read : sequence letter text = some (bytes, after)) : after.length <= text.length := by
  unfold sequence at read
  split at read
  · simp_all
  · repeat' split at read
    · exact length_hexBytes_le read
    · exact length_hexBytes_le read
    · exact length_hexBytes_le read
    · simp only [Option.some.injEq, Prod.mk.injEq] at read
      rw [← read.2]
      exact length_octalFrom_le _ _ _
    · simp at read

/-- The bytes denoted by the raw text of a string literal, or nothing if an
escape is malformed. -/
def decode : Bytes -> Option Bytes
  | [] => some []
  | byte :: text =>
      if byte = backslash then
        match text with
        | [] => none
        | letter :: text =>
            match _read : sequence letter text with
            | none => none
            | some (bytes, after) => (decode after).map (bytes ++ ·)
      else
        (decode text).map (byte :: ·)
termination_by raw => raw.length
decreasing_by
  · have shorter := length_sequence_le _read
    simp only [List.length_cons]
    omega
  · simp

/-- The digit for a value below sixteen, in lower case. -/
def hexDigit (value : Nat) : UInt8 :=
  (Nat.digitChar value).toUInt8

/-- One byte of a string as the printer writes it. -/
def encodeByte (byte : UInt8) : Bytes :=
  if byte = stringQuote || byte = backslash then [backslash, byte]
  else if byte = '\n'.toUInt8 then [backslash, 'n'.toUInt8]
  else if byte = '\t'.toUInt8 then [backslash, 't'.toUInt8]
  else if byte = '\r'.toUInt8 then [backslash, 'r'.toUInt8]
  else if byte < 32 || byte = 127 then
    [backslash, 'x'.toUInt8, hexDigit (byte.toNat / 16), hexDigit (byte.toNat % 16)]
  else [byte]

/-- The raw text that the printer writes for the contents of a string. -/
def encode (contents : Bytes) : Bytes :=
  contents.flatMap encodeByte

end Escape

end TailLisp
