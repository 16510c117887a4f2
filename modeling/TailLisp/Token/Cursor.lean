import TailLisp.Fault
import TailLisp.Text.Blank
import TailLisp.Text.CharName
import TailLisp.Text.Numeral
import TailLisp.Token

namespace TailLisp

/-!
Reading tokens from a text.

A cursor is a place in a text together with the bytes that remain.  Reading
the next token skips blank text, takes one lexeme and moves the cursor behind
it.  A malformed lexeme is reported at its first byte and is consumed as far
as it was looked at, so a reader can go on behind it.  Every token and every
flaw takes at least one byte, which is why reading a text token by token comes
to an end.

The bytes of a lexeme are counted without a bound, just as those of a `Position`.
-/

/-- A reading of the beginning of a text: the lexeme or what is wrong with it,
the bytes that were taken, and those that remain. -/
structure Lexing where
  outcome : Except ScanError Lexeme
  taken : Bytes
  rest : Bytes

namespace Lexing

open ByteClass

/-- Splits the text after an opening quote at the closing quote, which belongs
to neither part.  A backslash protects the byte after it. -/
def splitString : Bytes -> Option (Bytes × Bytes)
  | [] => none
  | byte :: text =>
      if byte = stringQuote then
        some ([], text)
      else if byte = backslash then
        match text with
        | [] => none
        | shielded :: text =>
            (splitString text).map fun parts => (byte :: shielded :: parts.1, parts.2)
      else
        (splitString text).map fun parts => (byte :: parts.1, parts.2)

/-- Reads a string literal.  The opening quote has been seen. -/
def string (text : Bytes) : Lexing :=
  match splitString text with
  | some (raw, rest) =>
      { outcome := .ok (.string raw)
        taken := stringQuote :: raw ++ [stringQuote]
        rest := rest }
  | none =>
      { outcome := .error .unterminatedString
        taken := stringQuote :: text
        rest := [] }

/-- What the text behind the mark of a character literal says. -/
def charOutcome (first : UInt8) (more : Bytes) : Except ScanError Lexeme :=
  match more with
  | [] => .ok (.char first)
  | more =>
      match CharName.value? (first :: more) with
      | some char => .ok (.char char)
      | none => .error (.unknownCharacter (first :: more))

/-- Reads a character literal.  The number sign has been seen.  Any byte can
follow the backslash; if it is a constituent, all constituents behind it
belong to the name. -/
def character (text : Bytes) : Lexing :=
  match text with
  | [] =>
      { outcome := .error .unrecognizedNumberSign, taken := [numberSign], rest := [] }
  | mark :: text =>
      if mark = backslash then
        match text with
        | [] =>
            { outcome := .error .unfinishedCharacter
              taken := [numberSign, backslash]
              rest := [] }
        | first :: text =>
            let more := if isConstituent first then text.takeWhile isConstituent else []
            let rest := if isConstituent first then text.dropWhile isConstituent else text
            { outcome := charOutcome first more
              taken := numberSign :: backslash :: first :: more
              rest := rest }
      else
        { outcome := .error .unrecognizedNumberSign
          taken := [numberSign]
          rest := mark :: text }

/-- The integer that an atom denotes, if it has the shape of a numeral.  A
numeral that does not fit into 64 bits is a flaw. -/
def integer? (text : Bytes) : Except ScanError (Option Int64) :=
  match Numeral.parts? text with
  | none => .ok none
  | some parts =>
      match parts.word? with
      | some value => .ok (some value)
      | none => .error (.integerOutOfRange text)

/-- What the text of an atom says. -/
def atomOutcome (text : Bytes) : Except ScanError Lexeme :=
  if text = ['.'.toUInt8] then
    .ok .dot
  else
    match integer? text with
    | .error error => .error error
    | .ok (some value) => .ok (.integer value)
    | .ok none =>
        match Keyword.ofName? text with
        | some keyword => .ok (.word keyword)
        | none => .ok (.symbol text)

/-- Reads an atom that begins with a byte: all constituents behind the byte
belong to it. -/
def atom (first : UInt8) (text : Bytes) : Lexing :=
  { outcome := atomOutcome (first :: text.takeWhile isConstituent)
    taken := first :: text.takeWhile isConstituent
    rest := text.dropWhile isConstituent }

/-- Reads a lexeme of one byte. -/
def single (lexeme : Lexeme) (first : UInt8) (text : Bytes) : Lexing :=
  { outcome := .ok lexeme, taken := [first], rest := text }

/-- Reads the lexeme that begins with a byte.  The byte is not blank. -/
def ofText (first : UInt8) (text : Bytes) : Lexing :=
  if first = openParen then single .opening first text
  else if first = closeParen then single .closing first text
  else if first = ByteClass.tick then single .tick first text
  else if isQuasiquote first then
    { outcome := .error .quasiquotation, taken := [first], rest := text }
  else if first = stringQuote then string text
  else if first = numberSign then character text
  else atom first text

theorem splitString_append {text raw rest : Bytes}
    (found : splitString text = some (raw, rest)) : raw ++ stringQuote :: rest = text := by
  fun_induction splitString text generalizing raw rest with
  | case1 => simp at found
  | case2 => simp_all
  | case3 => simp at found
  | case4 shielded text _ inductionHypothesis =>
      obtain ⟨⟨_, _⟩, inner, same⟩ := Option.map_eq_some_iff.1 found
      simp only [Prod.mk.injEq] at same
      rw [← same.1, ← same.2, ← inductionHypothesis inner]
      simp
  | case5 byte text _ _ inductionHypothesis =>
      obtain ⟨⟨_, _⟩, inner, same⟩ := Option.map_eq_some_iff.1 found
      simp only [Prod.mk.injEq] at same
      rw [← same.1, ← same.2, ← inductionHypothesis inner]
      simp

/-- The bytes taken and the bytes left are the text, in order. -/
theorem ofText_append (first : UInt8) (text : Bytes) :
    (ofText first text).taken ++ (ofText first text).rest = first :: text := by
  unfold ofText
  split
  · rfl
  split
  · rfl
  split
  · rfl
  split
  · rfl
  split
  · next isQuote =>
      unfold string
      split
      · next raw rest found =>
          rw [isQuote, ← splitString_append found]
          simp
      · simp [isQuote]
  split
  · next isSign =>
      unfold character
      split
      · rw [isSign]
        rfl
      · split
        · next isMark =>
            rw [isSign, isMark]
            split
            · rfl
            · dsimp only
              split <;> simp
        · rw [isSign]
          rfl
  · simp [atom]

/-- A lexeme takes its first byte. -/
theorem length_rest_ofText (first : UInt8) (text : Bytes) :
    (ofText first text).rest.length <= text.length := by
  have whole := congrArg List.length (ofText_append first text)
  have nonempty : 1 <= (ofText first text).taken.length := by
    unfold ofText single string character atom
    repeat' split
    all_goals simp
  rw [List.length_append, List.length_cons] at whole
  omega

end Lexing

/-- A place in a text and the bytes that remain there. -/
structure Cursor where
  pos : Position
  rest : Bytes
  deriving DecidableEq

/-- What a cursor finds next. -/
inductive Scan where
  | token (token : Token)
  | flaw (pos : Position) (error : ScanError)
  | finish (pos : Position)
  deriving DecidableEq

namespace Cursor

/-- The beginning of a text. -/
def ofText (text : Bytes) : Cursor :=
  { pos := .start, rest := text }

/-- Moves over bytes that were taken from the text. -/
def move (cursor : Cursor) (taken rest : Bytes) : Cursor :=
  { pos := cursor.pos.after taken, rest := rest }

/-- Moves to the next byte that is not blank, or to the end. -/
def skipBlank (cursor : Cursor) : Cursor :=
  cursor.move (Blank.split cursor.rest).1 (Blank.split cursor.rest).2

/-- Whether the text is used up. -/
def atEnd (cursor : Cursor) : Bool :=
  cursor.rest.isEmpty

/-- Reads the token at whose first byte the cursor stands.  The byte is not
blank. -/
def scanHere (cursor : Cursor) : Scan × Cursor :=
  match cursor.rest with
  | [] => (.finish cursor.pos, cursor)
  | first :: text =>
      let lexing := Lexing.ofText first text
      let after := cursor.move lexing.taken lexing.rest
      match lexing.outcome with
      | .ok lexeme => (.token { pos := cursor.pos, lexeme := lexeme }, after)
      | .error error => (.flaw cursor.pos error, after)

/-- Reads the next token of a text that begins at a place.  Blank bytes are
passed one by one.  The flag tells that the text starts inside a comment, where
every byte up to the newline is passed. -/
def nextFrom : Bool -> Position -> Bytes -> Scan × Cursor
  | _, pos, [] => (.finish pos, { pos := pos, rest := [] })
  | true, pos, byte :: text =>
      nextFrom (byte != ByteClass.newline) (pos.advance byte) text
  | false, pos, byte :: text =>
      if ByteClass.isBlank byte then
        nextFrom false (pos.advance byte) text
      else if byte = ByteClass.commentMark then
        nextFrom true (pos.advance byte) text
      else
        scanHere { pos := pos, rest := byte :: text }

/-- Reads the next token and moves behind it. -/
def next (cursor : Cursor) : Scan × Cursor :=
  nextFrom false cursor.pos cursor.rest

/-- The next token stands behind the blank beginning of the text. -/
theorem nextFrom_eq (inComment : Bool) (pos : Position) (text : Bytes) :
    nextFrom inComment pos text =
      scanHere { pos := pos.after (Blank.splitFrom inComment text).1
                 rest := (Blank.splitFrom inComment text).2 } := by
  -- Both ways over blank text are followed byte by byte and stay in step.
  induction text generalizing inComment pos with
  | nil => cases inComment <;> rfl
  | cons byte text inductionHypothesis =>
      cases inComment with
      | true =>
          rw [nextFrom, inductionHypothesis, Blank.splitFrom]
          rfl
      | false =>
          rw [nextFrom]
          split
          · next blank =>
              have noComment : (byte == ByteClass.commentMark) = false := by
                rw [beq_eq_false_iff_ne]
                rintro rfl
                exact absurd blank (by decide)
              rw [inductionHypothesis, Blank.splitFrom, blank, noComment]
              rfl
          · next notBlank =>
              split
              · next isMark =>
                  rw [inductionHypothesis, isMark]
                  rfl
              · next noComment =>
                  rw [Blank.splitFrom, Bool.eq_false_iff.2 notBlank, beq_eq_false_iff_ne.2 noComment]
                  rfl

theorem next_eq_scanHere (cursor : Cursor) : cursor.next = cursor.skipBlank.scanHere :=
  nextFrom_eq false cursor.pos cursor.rest

theorem length_skipBlank_le (cursor : Cursor) :
    cursor.skipBlank.rest.length <= cursor.rest.length :=
  Blank.length_split_le cursor.rest

/-- Unless the text is used up, reading on takes a byte. -/
theorem length_next_lt {cursor : Cursor}
    (more : forall pos, cursor.next.1 ≠ .finish pos) :
    cursor.next.2.rest.length < cursor.rest.length := by
  have skipped := cursor.length_skipBlank_le
  revert more
  rw [next_eq_scanHere, scanHere]
  dsimp only
  split
  · next ended => exact fun more => absurd rfl (more _)
  · next first text begun =>
      intro _
      rw [begun, List.length_cons] at skipped
      have taken := Lexing.length_rest_ofText first text
      split <;> (dsimp only [move]; omega)

theorem length_next_lt_of_token {cursor after : Cursor} {token : Token}
    (found : cursor.next = (.token token, after)) : after.rest.length < cursor.rest.length := by
  have shorter : cursor.next.2.rest.length < cursor.rest.length :=
    length_next_lt (by simp [found])
  rwa [found] at shorter

/-- All tokens up to the end or to the first flaw, with what stopped the
reading and the cursor there. -/
def tokens (cursor : Cursor) : List Token × Scan × Cursor :=
  match _found : cursor.next with
  | (.token token, after) =>
      let (later, stop) := after.tokens
      (token :: later, stop)
  | (stop, after) => ([], stop, after)
termination_by cursor.rest.length
decreasing_by exact length_next_lt_of_token _found

end Cursor

end TailLisp
