import TailLisp.Proofs.Literals
import TailLisp.Proofs.Scanning

namespace TailLisp

/-!
Scanning a text through guarded accesses.

The scanner takes texts apart by their shape, so it cannot ask for a byte that
is not there.  A scanner on a stream has no such luxury.  It asks whether the
text has ended, and then, in another place, looks at a byte or takes it.  Here
the scanner is written a second time in that manner: whoever looks at a byte or
takes one at the end of the text raises an alarm, and nothing but the tests in
front of the accesses keeps this from happening.  Likewise tokens are written as
flat records, in which the kind of a token no longer tells which of its fields
mean something, and a keyword's word has to be looked up by its kind.

No alarm is ever raised, whatever the text is and wherever it begins.  The
guarded scanner finds what the scanner finds and stops where it stops, and each
token that it can find has a spelling.
-/

open ByteClass

/-! ## Tokens as records -/

/-- The kinds of tokens.  The end of the text has a kind of its own. -/
inductive TokenKind where
  | finish
  | opening
  | closing
  | dot
  | tick
  | word (keyword : Keyword)
  | char
  | integer
  | string
  | symbol
  deriving DecidableEq

/-- What must never happen while a text is read. -/
inductive Alarm where
  /-- A byte was asked for behind the end of the text. -/
  | byteBehindEnd (pos : Position)
  /-- No rule says what a token means where it stands. -/
  | unexpectedToken (pos : Position) (text : Bytes)
  /-- The word of a kind was asked for that has none. -/
  | wordless (kind : TokenKind)
  /-- The last expression was asked for where there is none. -/
  | lastOfNone
  deriving DecidableEq

namespace Alarm

/-- What an alarm would say.  The last two would be told by no one. -/
def message? : Alarm -> Option Bytes
  | byteBehindEnd _ => some (Bytes.ofText "Unexpected EOF while scanning.")
  | unexpectedToken _ text =>
      some (Bytes.ofText "Unexpected token " ++ text ++ Bytes.ofText ".")
  | wordless _ => none
  | lastOfNone => none

end Alarm

namespace TokenKind

/-- The word of a kind, looked up among all reserved words. -/
def word? (kind : TokenKind) : Option Bytes :=
  (Keyword.all.find? fun keyword => kind = .word keyword).map Keyword.name

/-- Whether a token of the kind is an expression by itself, in code and in data. -/
def isAtom : TokenKind -> Bool
  | char => true
  | integer => true
  | string => true
  | symbol => true
  | kind => kind.word?.isSome

/-- A keyword is listed with its word. -/
theorem word?_word (keyword : Keyword) : (word keyword).word? = some keyword.name := by
  rcases keyword with value | form
  · cases value <;> rfl
  · rcases form with _ | _ | _ | kind | _ | _ | _
    case scope => cases kind <;> rfl
    all_goals rfl

theorem isAtom_word (keyword : Keyword) : (word keyword).isAtom = true := by
  change (word keyword).word?.isSome = true
  rw [word?_word]
  rfl

end TokenKind

/-- A token with room for whatever tokens carry. -/
structure FlatToken where
  pos : Position
  kind : TokenKind
  text : Bytes
  value : Int64
  byte : UInt8

namespace FlatToken

/-- The token at the end of a text. -/
def finish (pos : Position) : FlatToken :=
  { pos, kind := .finish, text := [], value := 0, byte := 0 }

/-- The spelling of a token.  What has no spelling of its own is taken for a
keyword. -/
def spelling (token : FlatToken) : Except Alarm Bytes :=
  match token.kind with
  | .finish => .ok (Bytes.ofText "EOF")
  | .opening => .ok [openParen]
  | .closing => .ok [closeParen]
  | .dot => .ok ['.'.toUInt8]
  | .tick => .ok [ByteClass.tick]
  | .char => .ok [numberSign, backslash, token.byte]
  | .integer => .ok (Bytes.ofInt token.value.toInt)
  | .string => .ok (stringQuote :: token.text ++ [stringQuote])
  | .symbol => .ok token.text
  | kind =>
      match kind.word? with
      | some name => .ok name
      | none => .error (.wordless kind)

end FlatToken

namespace Lexeme

def kind : Lexeme -> TokenKind
  | opening => .opening
  | closing => .closing
  | dot => .dot
  | tick => .tick
  | word keyword => .word keyword
  | char _ => .char
  | integer _ => .integer
  | string _ => .string
  | symbol _ => .symbol

/-- The number that a lexeme carries. -/
def value : Lexeme -> Int64
  | integer value => value
  | _ => 0

/-- The byte that a lexeme carries. -/
def byte : Lexeme -> UInt8
  | char value => value
  | _ => 0

end Lexeme

namespace Token

def flat (token : Token) : FlatToken :=
  { pos := token.pos
    kind := token.lexeme.kind
    text := token.lexeme.text
    value := token.lexeme.value
    byte := token.lexeme.byte }

/-- No token is without a spelling. -/
theorem spelling_flat (token : Token) : token.flat.spelling = .ok token.lexeme.spelling := by
  rcases token with ⟨pos, lexeme⟩
  cases lexeme with
  | word keyword =>
      simp only [FlatToken.spelling, flat, Lexeme.kind, TokenKind.word?_word]
      rfl
  | _ => rfl

end Token

/-! ## Guarded access to a text -/

namespace Cursor

/-- Looks at the byte where the cursor stands. -/
def peek (cursor : Cursor) : Except Alarm UInt8 :=
  match cursor.rest with
  | [] => .error (.byteBehindEnd cursor.pos)
  | byte :: _ => .ok byte

/-- Takes the byte where the cursor stands, and moves behind it. -/
def take (cursor : Cursor) :
    Except Alarm { taken : UInt8 × Cursor // taken.2.rest.length < cursor.rest.length } :=
  match begun : cursor.rest with
  | [] => .error (.byteBehindEnd cursor.pos)
  | byte :: text =>
      .ok ⟨(byte, { pos := cursor.pos.advance byte, rest := text }),
        by exact Nat.lt_succ_self text.length⟩

@[simp] theorem peek_cons (pos : Position) (byte : UInt8) (text : Bytes) :
    peek ⟨pos, byte :: text⟩ = .ok byte :=
  rfl

@[simp] theorem take_cons (pos : Position) (byte : UInt8) (text : Bytes) :
    take ⟨pos, byte :: text⟩ =
      .ok ⟨(byte, ⟨pos.advance byte, text⟩), Nat.lt_succ_self text.length⟩ :=
  rfl

theorem length_le_pred_of_atEnd {cursor : Cursor} (ended : cursor.atEnd = true) :
    cursor.rest.length <= cursor.rest.length - 1 := by
  rw [List.isEmpty_iff.1 ended]
  exact Nat.le_refl 0

/-- Passes a comment with its newline, or to the end of the text.  Whatever is
left there is passed from its first byte on. -/
def passComment (cursor : Cursor) :
    Except Alarm { after : Cursor // after.rest.length <= cursor.rest.length - 1 } :=
  if ended : cursor.atEnd then
    return ⟨cursor, length_le_pred_of_atEnd ended⟩
  else do
    let ⟨(byte, after), shorter⟩ <- cursor.take
    if byte = newline then
      return ⟨after, Nat.le_sub_one_of_lt shorter⟩
    else
      let ⟨behind, left⟩ <- after.passComment
      return ⟨behind, left.trans ((Nat.sub_le _ 1).trans (Nat.le_sub_one_of_lt shorter))⟩
termination_by cursor.rest.length

/-- Takes constituents as long as there are any, and adds them to a buffer. -/
def takeConstituents (buffer : Bytes) (cursor : Cursor) : Except Alarm (Bytes × Cursor) :=
  if cursor.atEnd then
    return (buffer, cursor)
  else do
    if isConstituent (<- cursor.peek) then
      let ⟨(byte, after), _⟩ <- cursor.take
      takeConstituents (buffer ++ [byte]) after
    else
      return (buffer, cursor)
termination_by cursor.rest.length

/-- Reports what was read from a place on. -/
def report (start : Position) (outcome : Except ScanError Lexeme) : Scan :=
  match outcome with
  | .ok lexeme => .token { pos := start, lexeme := lexeme }
  | .error error => .flaw start error

/-- Takes the rest of a string literal.  A backslash is kept and protects the
byte behind it. -/
def takeString (start : Position) (buffer : Bytes) (cursor : Cursor) :
    Except Alarm (Scan × Cursor) :=
  if cursor.atEnd then
    return (.flaw start .unterminatedString, cursor)
  else do
    let ⟨(byte, after), _shorter⟩ <- cursor.take
    if byte = stringQuote then
      return (.token { pos := start, lexeme := .string buffer }, after)
    else if byte = backslash then
      if after.atEnd then
        return (.flaw start .unterminatedString, after)
      else
        let ⟨(shielded, behind), _shorterStill⟩ <- after.take
        takeString start (buffer ++ [byte] ++ [shielded]) behind
    else
      takeString start (buffer ++ [byte]) after
termination_by cursor.rest.length
decreasing_by
  · exact Nat.lt_trans _shorterStill _shorter
  · exact _shorter

/-- Takes the rest of a character literal, whose mark has been seen. -/
def takeCharacter (start : Position) (cursor : Cursor) : Except Alarm (Scan × Cursor) :=
  if cursor.atEnd then
    return (.flaw start .unfinishedCharacter, cursor)
  else do
    let ⟨(first, after), _⟩ <- cursor.take
    let (more, behind) <-
      if isConstituent first then after.takeConstituents [] else pure ([], after)
    return (report start (Lexing.charOutcome first more), behind)

/-- Takes the rest of an atom. -/
def takeAtom (start : Position) (first : UInt8) (cursor : Cursor) :
    Except Alarm (Scan × Cursor) := do
  let (text, after) <- cursor.takeConstituents [first]
  return (report start (Lexing.atomOutcome text), after)

/-- Takes what a number sign begins. -/
def takeNumberSign (start : Position) (cursor : Cursor) : Except Alarm (Scan × Cursor) := do
  if cursor.atEnd then
    return (.flaw start .unrecognizedNumberSign, cursor)
  else if (<- cursor.peek) = backslash then
    let ⟨(_, after), _⟩ <- cursor.take
    after.takeCharacter start
  else
    return (.flaw start .unrecognizedNumberSign, cursor)

/-- Reads the next token and moves behind it. -/
def nextGuarded (cursor : Cursor) : Except Alarm (Scan × Cursor) :=
  if cursor.atEnd then
    return (.finish cursor.pos, cursor)
  else do
    let start := cursor.pos
    let ⟨(byte, after), _shorter⟩ <- cursor.take
    if isBlank byte then
      after.nextGuarded
    else if byte = commentMark then
      let ⟨behind, _left⟩ <- after.passComment
      behind.nextGuarded
    else if byte = openParen then
      return (.token { pos := start, lexeme := .opening }, after)
    else if byte = closeParen then
      return (.token { pos := start, lexeme := .closing }, after)
    else if byte = ByteClass.tick then
      return (.token { pos := start, lexeme := .tick }, after)
    else if isQuasiquote byte then
      return (.flaw start .quasiquotation, after)
    else if byte = stringQuote then
      after.takeString start []
    else if byte = numberSign then
      after.takeNumberSign start
    else
      after.takeAtom start byte
termination_by cursor.rest.length
decreasing_by
  · exact _shorter
  · dsimp only at _shorter
    omega

/-- Moves to the next byte that is not blank, or to the end. -/
def skipBlankGuarded (cursor : Cursor) : Except Alarm Cursor :=
  if _ended : cursor.atEnd then
    return cursor
  else do
    let byte <- cursor.peek
    if byte = commentMark then
      let ⟨behind, _left⟩ <- cursor.passComment
      behind.skipBlankGuarded
    else if isBlank byte then
      let ⟨(_, after), _shorter⟩ <- cursor.take
      after.skipBlankGuarded
    else
      return cursor
termination_by cursor.rest.length
decreasing_by
  · have more : cursor.rest.length ≠ 0 := by simpa [atEnd] using _ended
    omega
  · exact _shorter

/-! ## Blank text byte by byte -/

theorem not_atEnd_cons (pos : Position) (byte : UInt8) (text : Bytes) :
    ¬ atEnd ⟨pos, byte :: text⟩ = true :=
  Bool.false_ne_true

/-- Moves over blank text that may begin inside a comment. -/
def skipBlankFrom (inComment : Bool) (cursor : Cursor) : Cursor :=
  cursor.move (Blank.splitFrom inComment cursor.rest).1 (Blank.splitFrom inComment cursor.rest).2

theorem skipBlankFrom_comment (pos : Position) (byte : UInt8) (text : Bytes) :
    skipBlankFrom true ⟨pos, byte :: text⟩ =
      skipBlankFrom (byte != newline) ⟨pos.advance byte, text⟩ :=
  rfl

theorem skipBlank_blank {byte : UInt8} (blank : isBlank byte = true) (pos : Position)
    (text : Bytes) :
    skipBlank ⟨pos, byte :: text⟩ = skipBlank ⟨pos.advance byte, text⟩ := by
  have noComment : (byte == commentMark) = false := by
    rw [beq_eq_false_iff_ne]
    rintro rfl
    exact absurd blank (by decide)
  rw [skipBlank, Blank.split, Blank.splitFrom, blank, noComment]
  rfl

theorem skipBlank_commentMark (pos : Position) (text : Bytes) :
    skipBlank ⟨pos, commentMark :: text⟩ = skipBlankFrom true ⟨pos.advance commentMark, text⟩ :=
  rfl

theorem skipBlank_of_not_blank {byte : UInt8} (notBlank : ¬ isBlank byte = true)
    (noComment : byte ≠ commentMark) (pos : Position) (text : Bytes) :
    skipBlank ⟨pos, byte :: text⟩ = ⟨pos, byte :: text⟩ := by
  rw [skipBlank, Blank.split, Blank.splitFrom, Bool.eq_false_iff.2 notBlank,
    beq_eq_false_iff_ne.2 noComment]
  rfl

/-- Passing a comment leaves the blank text behind it. -/
theorem exists_passComment (pos : Position) (text : Bytes) :
    Exists fun behind => passComment ⟨pos, text⟩ = .ok behind ∧
      skipBlankFrom true ⟨pos, text⟩ = behind.val.skipBlank := by
  induction text generalizing pos with
  | nil =>
      rw [passComment]
      exact ⟨_, rfl, rfl⟩
  | cons byte text inductionHypothesis =>
      rw [passComment, dif_neg (not_atEnd_cons pos byte text), skipBlankFrom_comment]
      simp only [take_cons, bind, Except.bind]
      split
      · next isNewline =>
          refine ⟨_, rfl, ?_⟩
          rw [isNewline]
          rfl
      · next inLine =>
          rcases inductionHypothesis (pos.advance byte) with ⟨behind, passed, same⟩
          rw [passed, bne_iff_ne.2 inLine]
          exact ⟨_, rfl, same⟩

/-- The guarded way over blank text leads to the same place. -/
theorem skipBlankGuarded_eq (cursor : Cursor) : cursor.skipBlankGuarded = .ok cursor.skipBlank := by
  induction size : cursor.rest.length using Nat.strongRecOn generalizing cursor with
  | ind size inductionHypothesis =>
      rcases cursor with ⟨pos, text⟩
      rw [skipBlankGuarded]
      cases text with
      | nil => rfl
      | cons byte text =>
          rw [dif_neg (not_atEnd_cons pos byte text)]
          simp only [peek_cons, take_cons, bind, Except.bind]
          split
          · next isMark =>
              rcases exists_passComment pos (byte :: text) with ⟨behind, passed, same⟩
              have shorter := behind.property
              rw [passed, isMark, skipBlank_commentMark]
              subst isMark
              refine (inductionHypothesis _ ?_ behind.val rfl).trans (congrArg _ same.symm)
              simp only [List.length_cons] at shorter size
              omega
          · next noComment =>
              split
              · next blank =>
                  rw [skipBlank_blank blank]
                  exact inductionHypothesis text.length (by simp [← size]) _ rfl
              · next notBlank =>
                  rw [skipBlank_of_not_blank notBlank noComment]
                  rfl

/-! ## Lexemes byte by byte -/

theorem takeConstituents_eq (buffer : Bytes) (pos : Position) (text : Bytes) :
    takeConstituents buffer ⟨pos, text⟩ =
      .ok (buffer ++ text.takeWhile isConstituent,
        ⟨pos.after (text.takeWhile isConstituent), text.dropWhile isConstituent⟩) := by
  induction text generalizing buffer pos with
  | nil =>
      rw [takeConstituents, List.takeWhile_nil, List.append_nil]
      rfl
  | cons byte text inductionHypothesis =>
      rw [takeConstituents, if_neg (not_atEnd_cons pos byte text)]
      simp only [peek_cons, take_cons, bind, Except.bind]
      split
      · next continues =>
          rw [inductionHypothesis, List.takeWhile_cons_of_pos continues,
            List.dropWhile_cons_of_pos continues, List.append_assoc]
          rfl
      · next ends =>
          rw [List.takeWhile_cons_of_neg ends, List.dropWhile_cons_of_neg ends, List.append_nil]
          rfl

/-- What the rest of a string literal is, with what was read of it before. -/
def stringScan (start : Position) (buffer : Bytes) (cursor : Cursor) : Scan × Cursor :=
  match Lexing.splitString cursor.rest with
  | some (raw, rest) =>
      (.token { pos := start, lexeme := .string (buffer ++ raw) },
        cursor.move (raw ++ [stringQuote]) rest)
  | none => (.flaw start .unterminatedString, cursor.move cursor.rest [])

theorem stringScan_quote (start : Position) (buffer : Bytes) (pos : Position) (text : Bytes) :
    stringScan start buffer ⟨pos, stringQuote :: text⟩ =
      (.token { pos := start, lexeme := .string buffer }, ⟨pos.advance stringQuote, text⟩) := by
  rw [stringScan, Lexing.splitString_quote]
  simp only [List.append_nil]
  rfl

theorem stringScan_shielded (start : Position) (buffer : Bytes) (pos : Position) (byte : UInt8)
    (text : Bytes) :
    stringScan start buffer ⟨pos, backslash :: byte :: text⟩ =
      stringScan start (buffer ++ [backslash] ++ [byte])
        ⟨(pos.advance backslash).advance byte, text⟩ := by
  rw [stringScan, stringScan, Lexing.splitString_shielded]
  cases Lexing.splitString text with
  | none => rfl
  | some parts =>
      simp only [Option.map_some, List.append_assoc, List.singleton_append]
      rfl

theorem stringScan_plain {byte : UInt8} (notQuote : byte ≠ stringQuote)
    (notMark : byte ≠ backslash) (start : Position) (buffer : Bytes) (pos : Position)
    (text : Bytes) :
    stringScan start buffer ⟨pos, byte :: text⟩ =
      stringScan start (buffer ++ [byte]) ⟨pos.advance byte, text⟩ := by
  rw [stringScan, stringScan, Lexing.splitString_plain text notQuote notMark]
  cases Lexing.splitString text with
  | none => rfl
  | some parts =>
      simp only [Option.map_some, List.append_assoc, List.singleton_append]
      rfl

theorem takeString_eq (start : Position) (buffer : Bytes) (pos : Position) (text : Bytes) :
    takeString start buffer ⟨pos, text⟩ = .ok (stringScan start buffer ⟨pos, text⟩) := by
  -- Two bytes go at once behind a backslash, so the cases are those of the split.
  fun_induction Lexing.splitString text generalizing buffer pos with
  | case1 =>
      rw [takeString]
      rfl
  | case2 text =>
      rw [takeString, if_neg (not_atEnd_cons pos _ text), stringScan_quote]
      rfl
  | case3 =>
      rw [takeString]
      rfl
  | case4 shielded text _ inductionHypothesis =>
      rw [takeString, if_neg (not_atEnd_cons pos _ _), stringScan_shielded, ← inductionHypothesis]
      rfl
  | case5 byte text notQuote notMark inductionHypothesis =>
      rw [takeString, if_neg (not_atEnd_cons pos byte text), stringScan_plain notQuote notMark,
        ← inductionHypothesis]
      simp only [take_cons, bind, Except.bind, if_neg notQuote, if_neg notMark]

/-- What a lexing of the text at a place amounts to. -/
def ofLexing (cursor : Cursor) (lexing : Lexing) : Scan × Cursor :=
  (report cursor.pos lexing.outcome, cursor.move lexing.taken lexing.rest)

theorem scanHere_cons (pos : Position) (first : UInt8) (text : Bytes) :
    scanHere ⟨pos, first :: text⟩ = ofLexing ⟨pos, first :: text⟩ (Lexing.ofText first text) := by
  rw [scanHere, ofLexing]
  dsimp only
  cases (Lexing.ofText first text).outcome <;> rfl

theorem takeAtom_eq (pos : Position) (first : UInt8) (text : Bytes) :
    takeAtom pos first ⟨pos.advance first, text⟩ =
      .ok (ofLexing ⟨pos, first :: text⟩ (Lexing.atom first text)) := by
  rw [takeAtom, takeConstituents_eq]
  rfl

theorem takeString_eq_ofLexing (pos : Position) (text : Bytes) :
    takeString pos [] ⟨pos.advance stringQuote, text⟩ =
      .ok (ofLexing ⟨pos, stringQuote :: text⟩ (Lexing.string text)) := by
  rw [takeString_eq, stringScan, Lexing.string]
  dsimp only
  cases Lexing.splitString text <;> rfl

theorem takeNumberSign_eq (pos : Position) (text : Bytes) :
    takeNumberSign pos ⟨pos.advance numberSign, text⟩ =
      .ok (ofLexing ⟨pos, numberSign :: text⟩ (Lexing.character text)) := by
  rw [takeNumberSign]
  cases text with
  | nil => rfl
  | cons mark text =>
      rw [if_neg (not_atEnd_cons _ mark text), Lexing.character.eq_def]
      simp only [peek_cons, take_cons, bind, Except.bind]
      split
      · next isMark =>
          rw [takeCharacter, isMark]
          cases text with
          | nil => rfl
          | cons first text =>
              rw [if_neg (not_atEnd_cons _ first text)]
              simp only [take_cons, bind, Except.bind, takeConstituents_eq]
              cases isConstituent first <;> rfl
      · rfl

/-- The guarded scanner raises no alarm: it finds what the scanner finds, and
stops where the scanner stops. -/
theorem nextGuarded_eq (cursor : Cursor) : cursor.nextGuarded = .ok cursor.next := by
  induction size : cursor.rest.length using Nat.strongRecOn generalizing cursor with
  | ind size inductionHypothesis =>
      rcases cursor with ⟨pos, text⟩
      rw [nextGuarded]
      cases text with
      | nil => rfl
      | cons byte text =>
          rw [if_neg (not_atEnd_cons pos byte text), next_eq_scanHere]
          simp only [take_cons, bind, Except.bind]
          split
          · next blank =>
              rw [skipBlank_blank blank, ← next_eq_scanHere]
              exact inductionHypothesis text.length (by simp [← size]) _ rfl
          next notBlank =>
          split
          · next isMark =>
              rcases exists_passComment (pos.advance byte) text with ⟨behind, passed, same⟩
              have shorter := behind.property
              subst isMark
              rw [passed, skipBlank_commentMark, same, ← next_eq_scanHere]
              refine inductionHypothesis _ ?_ behind.val rfl
              simp only [List.length_cons] at shorter size
              omega
          next noComment =>
          rw [skipBlank_of_not_blank notBlank noComment, scanHere_cons, Lexing.ofText]
          -- From here on both tell the same bytes apart in the same order.
          split
          · rfl
          split
          · rfl
          split
          · rfl
          split
          · rfl
          split
          · next isQuote =>
              subst isQuote
              exact takeString_eq_ofLexing pos text
          split
          · next isSign =>
              subst isSign
              exact takeNumberSign_eq pos text
          · exact takeAtom_eq pos byte text

end Cursor

end TailLisp
