import TailLisp.Proofs.EscapedBytes
import TailLisp.Proofs.Printing

namespace TailLisp

/-!
Tokens as text.

A token can be written down by itself, in a form that need not be the one in
which it was found: numbers are written in decimal and without a plus sign, and
a character behind its mark as the bare byte, be it a blank, a delimiter or a
byte without a shape.  Strings keep their raw text and atoms their names.

Each such text is the lexeme again wherever it stands before a boundary, so a
row of tokens can be written with single spaces between them and scanned once
more.  Only places are lost.
-/

open ByteClass

/-- What is one lexeme by itself is taken for it in front of any boundary. -/
theorem IsLexeme.lexes {text : Bytes} {lexeme : Lexeme} (isLexeme : IsLexeme text lexeme) :
    Lexes text lexeme := by
  rcases isLexeme.ofText_append with ⟨first, more, same, notBlank, noComment, taken⟩
  refine ⟨first, more, same, notBlank, noComment, ?_⟩
  intro rest boundary
  rw [taken rest fun _ => boundary, same]

namespace Cursor

/-- A lexeme that was found in a text is spelled by its own spelling. -/
theorem Finds.lexes_spelling {token : Token} (found : Finds token) :
    Lexes token.lexeme.spelling token.lexeme := by
  cases lexeme : token.lexeme with
  | opening => exact Lexes.opening
  | closing => exact Lexes.closing
  | dot => exact Lexes.dot
  | tick => exact IsLexeme.tick.lexes
  | word keyword => exact Lexes.word keyword
  | char value => exact IsLexeme.character.lexes
  | integer value => exact Lexes.integer value
  | string raw =>
      -- The raw text was cut out at a quote that nothing in it escapes.
      have closed := Escape.closed_of_finds found lexeme
      exact (IsLexeme.string (closed.splitString [])).lexes
  | symbol name =>
      have spelled := found.lexes (congrArg Lexeme.name? lexeme)
      rwa [lexeme] at spelled

/-- Lexemes that can be written are scanned from their spellings to the end. -/
theorem tokens_of_spellings {lexemes : List Lexeme}
    (written : forall lexeme, lexeme ∈ lexemes -> Lexes lexeme.spelling lexeme) (start : Position) :
    Exists fun found => Exists fun pos => Exists fun after =>
      (Cursor.mk start (Bytes.spaced (lexemes.map Lexeme.spelling))).tokens =
        (found, .finish pos, after) ∧ found.map Token.lexeme = lexemes := by
  rcases Spells.lexemes written start [] Boundary.nil with ⟨found, scanned, same⟩
  rw [List.append_nil] at scanned
  rcases tokens_eq_finish_iff.2 ⟨_, scanned, rfl⟩ with ⟨pos, after, finished⟩
  exact ⟨found, pos, after, finished, same⟩

/-- The tokens of a text can be scanned again from their own texts.  If a text
that begins anywhere is scanned to its end, then so is the row of the tokens'
texts with single spaces between them, wherever that begins; and it has as many
tokens, in the same order and with the same lexemes, which is to say of the same
kind, with the same value and with the same text. -/
theorem tokens_rescanned {start : Position} {text : Bytes} {tokens : List Token} {pos : Position}
    {after : Cursor} (scanned : (Cursor.mk start text).tokens = (tokens, .finish pos, after))
    (again : Position) :
    Exists fun found => Exists fun pos => Exists fun after =>
      (Cursor.mk again (Bytes.spaced (tokens.map fun token => token.lexeme.spelling))).tokens =
        (found, .finish pos, after) ∧
      found.length = tokens.length ∧ found.map Token.lexeme = tokens.map Token.lexeme := by
  rcases tokens_eq_finish_iff.1 ⟨pos, after, scanned⟩ with ⟨ending, scans, _⟩
  have written : forall lexeme, lexeme ∈ tokens.map Token.lexeme -> Lexes lexeme.spelling lexeme :=
    List.forall_mem_map.2 fun token member => (scans.finds token member).lexes_spelling
  rcases tokens_of_spellings written again with ⟨found, pos, after, finished, same⟩
  rw [List.map_map] at finished
  refine ⟨found, pos, after, finished, ?_, same⟩
  have lengths := congrArg List.length same
  rwa [List.length_map, List.length_map] at lengths

/-- A named character becomes a bare space between two spaces, a hexadecimal
number decimal, and tokens that touched are set apart. -/
theorem tokens_rescanned_blank :
    let lexemes : List Lexeme :=
      [.char ' '.toUInt8, .integer (-16), .string (Bytes.ofText "\\\""), .tick, .opening,
        .char closeParen, .closing]
    (Exists fun tokens => Exists fun pos => Exists fun after =>
      (ofText (Bytes.ofText "#\\space -0x10\"\\\"\"'(#\\))")).tokens =
        (tokens, .finish pos, after) ∧ tokens.map Token.lexeme = lexemes) ∧
    Exists fun found => Exists fun pos => Exists fun after =>
      (ofText (Bytes.ofText "#\\  -16 \"\\\"\" ' ( #\\) )")).tokens =
        (found, .finish pos, after) ∧
      found.length = lexemes.length ∧ found.map Token.lexeme = lexemes := by
  intro lexemes
  have finished : (ofText (Bytes.ofText "#\\space -0x10\"\\\"\"'(#\\))")).tokens =
      ([⟨⟨1, 0, 0⟩, .char ' '.toUInt8⟩, ⟨⟨1, 8, 8⟩, .integer (-16)⟩,
        ⟨⟨1, 13, 13⟩, .string (Bytes.ofText "\\\"")⟩, ⟨⟨1, 17, 17⟩, .tick⟩,
        ⟨⟨1, 18, 18⟩, .opening⟩, ⟨⟨1, 19, 19⟩, .char closeParen⟩, ⟨⟨1, 22, 22⟩, .closing⟩],
        .finish ⟨1, 23, 23⟩, ⟨⟨1, 23, 23⟩, []⟩) := by
    decide +kernel
  refine ⟨⟨_, _, _, finished, rfl⟩, ?_⟩
  have again := tokens_rescanned finished .start
  have spelled : Bytes.spaced (lexemes.map Lexeme.spelling) =
      Bytes.ofText "#\\  -16 \"\\\"\" ' ( #\\) )" := by
    decide +kernel
  rw [← spelled]
  exact again

end Cursor

end TailLisp
