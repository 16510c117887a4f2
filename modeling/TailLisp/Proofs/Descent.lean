import TailLisp.Proofs.GuardedScanning
import TailLisp.Proofs.Reporting

namespace TailLisp

/-!
Reading by recursive descent.

The reader takes one token at a time and keeps the unfinished forms on a stack.  Its
faults are values, it works with names, and a table receives them at the end.
Here the reader is written a second time, one function for each form.  These
functions work on a session.  Each takes its tokens from the session's text, enters
names into the session's table at once, and compares parameters by their ids.  A
part that fails sets the session's fault and returns nothing.  These are two
separate acts, and whoever called the part has nothing but the missing result to go
by.  The end of the text is a token like any other, so every loop has to ask for it.

Nothing in the definitions says that a part which returns nothing has set the
fault, that a part which returns something has not, or that a part comes to an end
at all.  The rounds of a loop and the depth of the nesting are counted, and a part
that has used up its count has no outcome.
-/

namespace Token

variable {token : Token}

theorem kind_eq_closing_iff : token.flat.kind = .closing ↔ token.lexeme = .closing := by
  rcases token with ⟨pos, lexeme⟩
  cases lexeme <;> simp [flat, Lexeme.kind]

theorem kind_eq_opening_iff : token.flat.kind = .opening ↔ token.lexeme = .opening := by
  rcases token with ⟨pos, lexeme⟩
  cases lexeme <;> simp [flat, Lexeme.kind]

theorem kind_eq_dot_iff : token.flat.kind = .dot ↔ token.lexeme = .dot := by
  rcases token with ⟨pos, lexeme⟩
  cases lexeme <;> simp [flat, Lexeme.kind]

theorem kind_ne_finish (token : Token) : token.flat.kind ≠ .finish := by
  rcases token with ⟨pos, lexeme⟩
  cases lexeme <;> simp [flat, Lexeme.kind]

end Token

/-- The end of the text is no closing parenthesis. -/
theorem FlatToken.finish_kind_ne_closing (pos : Position) :
    (FlatToken.finish pos).kind ≠ .closing :=
  TokenKind.noConfusion

/-- The end of the text is no opening parenthesis. -/
theorem FlatToken.finish_kind_ne_opening (pos : Position) :
    (FlatToken.finish pos).kind ≠ .opening :=
  TokenKind.noConfusion

namespace Session

/-- The session at another place of its text, with some names entered. -/
def advance (session : Session) (names : List Bytes) (cursor : Cursor) : Session :=
  { session with table := session.table.insertAll names, cursor }

theorem advance_advance (session : Session) (names others : List Bytes) (first second : Cursor) :
    (session.advance names first).advance others second =
      session.advance (names ++ others) second := by
  rw [advance, advance, advance, SymbolTable.insertAll_append]

end Session

/-- A part of the descent.  It may fail to return a result, and the session goes on
from wherever the part has left it.  Without a session the part has not come to
an end. -/
abbrev Descent := OptionT (StateT Session Option)

/-- How the expressions inside of a form are read in their slots, each from its first
token on. -/
abbrev Inner := Slot -> FlatToken -> Descent (Node SymbolId)

namespace Descent

variable {Result : Type}

/-! ## What a part can do by itself -/

/-- Has not come to an end. -/
def unfinished : Descent Result :=
  OptionT.mk fun _ => none

/-- Sets the fault, and goes on. -/
def setFault (fault : Fault) : Descent Unit :=
  OptionT.mk fun session => some (some (), { session with fault := some fault })

/-- Returns nothing, and leaves the fault as it is. -/
def nothing : Descent Result :=
  OptionT.mk fun session => some (none, session)

/-- Sets the fault, then returns nothing. -/
def fail (pos : Position) (error : SyntaxError) : Descent Result := do
  setFault (.syntaxAt pos error)
  nothing

/-- Looks for the next token, which may be a flaw of the text. -/
def scan : Descent Scan :=
  OptionT.mk fun session => some (some session.next.1, session.next.2)

/-- Takes the next token.  A flaw of the text is reported in place of a token. -/
def fetch : Descent FlatToken := do
  match <- scan with
  | .token token => return token.flat
  | .finish pos => return .finish pos
  | .flaw pos error => do
      setFault { origin := pos, cause := .scan error }
      nothing

/-- The id of a name, which the table holds from now on. -/
def intern (name : Bytes) : Descent SymbolId :=
  OptionT.mk fun session =>
    let (id, table) := session.table.intern name
    some (some id, { session with table })

/-- The id that a prepared table has at hand for the name of a special form. -/
def reservedId (form : SpecialForm) : Descent SymbolId :=
  OptionT.mk fun session => some (some (session.table.reservedId form), session)

/-- Whether only blank text is left, which is passed. -/
def endsHere : Descent Bool :=
  OptionT.mk fun session => some (some session.skipBlank.cursor.atEnd, session.skipBlank)

/-! ## Atoms and small pieces -/

def parseAtom (token : FlatToken) : Descent (Node SymbolId) :=
  match token.kind with
  | .integer => return .integer (.plain token.pos) token.value
  | .char => return .char (.plain token.pos) token.byte
  | .string =>
      match Escape.decode token.text with
      | some contents => return .string (.plain token.pos) contents
      | none => fail token.pos .malformedEscape
  | .word (.truth value) => return .boolean (.plain token.pos) value
  | _ => return .symbol (.plain token.pos) (<- intern token.text)

/-- Takes the closing parenthesis of a form that is complete. -/
def expectClosing (error : SyntaxError) : Descent Unit := do
  let token <- fetch
  if token.kind = .closing then return () else fail token.pos error

/-- Clears the tail flags on the way out of a tree that was read as the last of a
body and is not. -/
def demote (node : Node SymbolId) : Descent (Node SymbolId) :=
  match node.demote with
  | .ok demoted => return demoted
  | .error pos => fail pos .recurOutsideTail

/-- Takes parameters up to the closing parenthesis.  They are told apart by their
ids. -/
def parseParams (params : List SymbolId) : Nat -> Descent (List SymbolId)
  | 0 => unfinished
  | rounds + 1 => do
      let token <- fetch
      if token.kind = .closing then
        return params
      else if token.kind ≠ .symbol then
        fail token.pos .parameterName
      else
        let id <- intern token.text
        if id ∈ params then
          fail token.pos (.duplicateParameter token.text)
        else
          parseParams (params ++ [id]) rounds

/-! ## Rows of expressions -/

section Forms

variable (inner : Inner)

/-- Reads one expression that has to be there. -/
def parseOperand (slot : Slot) (ifClosed : SyntaxError) : Descent (Node SymbolId) := do
  let token <- fetch
  if token.kind = .closing then
    fail token.pos ifClosed
  else
    inner slot token

/-- Reads the elements of a list from a token on. -/
def parseElements (slot : Slot) (pos : Position) (items : List (Node SymbolId))
    (token : FlatToken) : Nat -> Descent (Node SymbolId)
  | 0 => unfinished
  | rounds + 1 =>
      if token.kind = .closing then
        return .ofList (.plain pos) items
      else if token.kind = .finish then
        fail token.pos .unclosed
      else if token.kind = .dot then
        if items.isEmpty then
          fail token.pos .nothingBeforeDot
        else do
          let ending <- parseOperand inner slot .nothingAfterDot
          expectClosing .tooMuchAfterDot
          return (Node.chain ending items).withMark (.plain pos)
      else do
        let node <- inner slot token
        let next <- fetch
        parseElements slot pos (items ++ [node]) next rounds

/-- Reads expressions from a token on up to the closing parenthesis.  Where the last
one is in tail position, each is read as if it were the last, and demoted when it
is not. -/
def parseSequence (tail : Bool) (items : List (Node SymbolId)) (token : FlatToken) :
    Nat -> Descent (List (Node SymbolId))
  | 0 => unfinished
  | rounds + 1 =>
      if token.kind = .closing then
        return items
      else if token.kind = .finish then
        fail token.pos .unclosed
      else do
        let node <- inner (.code tail) token
        let next <- fetch
        if tail && next.kind != .closing then do
          let demoted <- demote node
          parseSequence tail (items ++ [demoted]) next rounds
        else
          parseSequence tail (items ++ [node]) next rounds

/-- Reads bindings up to the closing parenthesis.  The name of a binding is interned
when its value has been read. -/
def parseBindings (bindings : List (SymbolId × Node SymbolId)) :
    Nat -> Descent (List (SymbolId × Node SymbolId))
  | 0 => unfinished
  | rounds + 1 => do
      let token <- fetch
      if token.kind = .closing then
        return bindings
      else if token.kind ≠ .opening then
        fail token.pos .malformedBinding
      else
        let name <- fetch
        if name.kind ≠ .symbol then
          fail name.pos .bindingName
        else
          let value <- parseOperand inner (.code false) (.bindingWithoutValue name.text)
          expectClosing .bindingWithMoreValues
          let id <- intern name.text
          parseBindings (bindings ++ [(id, value)]) rounds

/-! ## Forms -/

def parseDefine (pos : Position) : Descent (Node SymbolId) := do
  let token <- fetch
  if token.kind ≠ .symbol && token.kind.word?.isNone then
    fail token.pos .defineName
  else
    let name <- intern token.text
    let value <- parseOperand inner (.code false) .defineArity
    expectClosing .defineArity
    return .define (.plain pos) name value

def parseConditional (pos : Position) (tail : Bool) : Descent (Node SymbolId) := do
  let test <- parseOperand inner (.code false) .conditionalArity
  let consequent <- parseOperand inner (.code tail) .conditionalArity
  let alternative <- parseOperand inner (.code tail) .conditionalArity
  expectClosing .conditionalArity
  return .conditional { pos, tail } test consequent alternative

variable (rounds : Nat)

/-- Reads the body of a form, which must not be shorter than a length. -/
def parseBody (form : SpecialForm) (pos : Position) (tail : Bool) (leastLength : Nat) :
    Descent (List (Node SymbolId)) := do
  let token <- fetch
  let body <- parseSequence inner tail [] token rounds
  if body.length < leastLength then
    fail pos (.emptyBody form)
  else
    return body

/-- Reads a scope.  A loop that no `recur` leads back to is a plain scope. -/
def parseScope (kind : ScopeKind) (pos : Position) (tail : Bool) : Descent (Node SymbolId) := do
  let token <- fetch
  if token.kind ≠ .opening then
    fail token.pos (.missingBindings kind)
  else
    let bindings <- parseBindings inner [] rounds
    let body <- parseBody inner rounds (.scope kind) pos true 1
    if kind = .loop && Node.lastReachesRecur body then
      return .scope { pos, tail } .loop bindings body
    else
      return .scope { pos, tail } .once bindings body

/-- Reads the parameters and the body of a lambda from a token on. -/
def parseLambdaFrom (pos : Position) (name : Option Bytes) (token : FlatToken) :
    Descent (Node SymbolId) :=
  if token.kind ≠ .opening then
    fail token.pos .missingParameters
  else do
    let params <- parseParams [] rounds
    let body <- parseBody inner rounds .lambda pos true 1
    return .lambda (.plain pos) name params body

/-- Reads a lambda.  Any symbol or keyword can be its name. -/
def parseLambda (pos : Position) : Descent (Node SymbolId) := do
  let token <- fetch
  if token.kind = .symbol || token.kind.word?.isSome then
    let next <- fetch
    parseLambdaFrom inner rounds pos (some token.text) next
  else
    parseLambdaFrom inner rounds pos none token

/-- Reads a special form whose word follows an opening parenthesis at a place. -/
def parseSpecial (form : SpecialForm) (pos : Position) (tail : Bool) : Descent (Node SymbolId) :=
  match form with
  | .begin => do
      let body <- parseBody inner rounds .begin pos tail 0
      return .begin { pos, tail } body
  | .define => parseDefine inner pos
  | .conditional => parseConditional inner pos tail
  | .scope kind => parseScope inner rounds kind pos tail
  | .lambda => parseLambda inner rounds pos
  | .recur =>
      if tail then do
        let token <- fetch
        let args <- parseSequence inner false [] token rounds
        return .recur { pos, tail := true } args
      else
        fail pos .recurOutsideTail
  | .quote => do
      let datum <- parseOperand inner .data .quoteArity
      expectClosing .quoteArity
      return .quote (.plain pos) datum

/-! ## Expressions -/

/-- Reads the datum that begins with a token.  A token of any kind that is not
named here is an atom. -/
def parseData (token : FlatToken) : Descent (Node SymbolId) :=
  match token.kind with
  | .opening => do
      let next <- fetch
      if next.kind = .closing then
        return .empty (.plain token.pos)
      else
        parseElements inner .data token.pos [] next rounds
  | .tick => do
      let next <- fetch
      let datum <- inner .data next
      let quote <- reservedId .quote
      return .list (.plain token.pos) (.symbol (.plain token.pos) quote) [datum]
  | .closing => fail token.pos .unmatchedClosing
  | .dot => fail token.pos .strayDot
  | .finish => fail token.pos .unexpectedEnd
  | _ => parseAtom token

/-- Reads the expression that begins with a token.  Keywords are special only
behind an opening parenthesis. -/
def parseCode (tail : Bool) (token : FlatToken) : Descent (Node SymbolId) :=
  match token.kind with
  | .opening => do
      let head <- fetch
      match head.kind with
      | .closing => return .empty (.plain token.pos)
      | .word (.head form) => parseSpecial inner rounds form token.pos tail
      | _ => do
          let node <- parseElements inner (.code false) token.pos [] head rounds
          if node.kind = .list then return node.withTail tail else return node
  | .tick => do
      let next <- fetch
      let datum <- inner .data next
      return .quote (.plain token.pos) datum
  | _ => parseData inner rounds token

/-- Reads what begins with a token as data or as code. -/
def parseExpression (slot : Slot) (token : FlatToken) : Descent (Node SymbolId) :=
  match slot with
  | .data => parseData inner rounds token
  | .code tail => parseCode inner rounds tail token

end Forms

/-- Reads expressions that are nested to a depth.  No loop takes more rounds. -/
def parseIn : Nat -> Inner
  | 0 => fun _ _ => unfinished
  | depth + 1 => parseExpression (parseIn depth) depth

/-! ## Calls -/

section Calls

variable (depth : Nat)

/-- Reads the next item in a slot. -/
def parseItem (slot : Slot) : Descent (Node SymbolId) := do
  let token <- fetch
  parseIn depth slot token

/-- Reads items of a program up to the end of the text.  There has to be a first
one. -/
def parseStream (items : List (Node SymbolId)) : Nat -> Descent (List (Node SymbolId))
  | 0 => unfinished
  | rounds + 1 => do
      let node <- parseItem depth (.code false)
      if <- endsHere then
        return items ++ [node]
      else
        parseStream (items ++ [node]) rounds

/-- Reads one datum, behind which only blank text may follow. -/
def parseDatum : Descent (Node SymbolId) := do
  let node <- parseItem depth .data
  if <- endsHere then
    return node
  else
    let session <- get
    fail session.cursor.pos .trailingInput

end Calls

/-! ## Laws of the small pieces -/

variable {Other : Type}

theorem run_bind_of_some {part : Descent Result} {use : Result -> Descent Other}
    {session later : Session} {result : Result}
    (ran : part.run session = some (some result, later)) :
    (part >>= use).run session = (use result).run later := by
  rw [OptionT.run_bind]
  change (part.run session >>= _) = _
  rw [ran]
  rfl

theorem run_bind_of_none {part : Descent Result} {use : Result -> Descent Other}
    {session later : Session} (ran : part.run session = some (none, later)) :
    (part >>= use).run session = some (none, later) := by
  rw [OptionT.run_bind]
  change (part.run session >>= _) = _
  rw [ran]
  rfl

theorem fail_bind (pos : Position) (error : SyntaxError) (use : Result -> Descent Other) :
    (fail pos error >>= use) = fail pos error :=
  rfl

theorem run_fetch (session : Session) :
    fetch.run session =
      match session.cursor.next with
      | (.token token, after) => some (some token.flat, session.advance [] after)
      | (.finish pos, after) => some (some (.finish pos), session.advance [] after)
      | (.flaw pos error, after) =>
          some (none, { session.advance [] after with
            fault := some { origin := pos, cause := .scan error } }) := by
  have scanned : scan.run session =
      some (some session.cursor.next.1, session.advance [] session.cursor.next.2) :=
    rfl
  rw [fetch, run_bind_of_some scanned]
  rcases session.cursor.next with ⟨found, after⟩
  cases found <;> rfl

/-! ## The functions one by one

A part that reads on from a token is told apart by the kind of the token. -/

section Forms

variable {inner : Inner} {rounds : Nat}

/-- Only behind an opening parenthesis or a tick does code differ from data. -/
theorem parseExpression_eq_parseData {token : FlatToken} (noList : token.kind ≠ .opening)
    (noTick : token.kind ≠ .tick) (slot : Slot) :
    parseExpression inner rounds slot token = parseData inner rounds token := by
  cases slot with
  | data => rfl
  | code tail =>
      rw [parseExpression, parseCode]
      split
      · next isList => exact absurd isList noList
      · next isTick => exact absurd isTick noTick
      · rfl

theorem parseExpression_of_isAtom {token : FlatToken} (atom : token.kind.isAtom = true)
    (slot : Slot) : parseExpression inner rounds slot token = parseAtom token := by
  have other {kind : TokenKind} (noAtom : kind.isAtom = false) : token.kind ≠ kind := by
    rintro rfl
    exact Bool.false_ne_true (noAtom.symm.trans atom)
  rw [parseExpression_eq_parseData (other rfl) (other rfl), parseData]
  split
  · next isList => exact absurd isList (other rfl)
  · next isTick => exact absurd isTick (other rfl)
  · next isClosing => exact absurd isClosing (other rfl)
  · next isDot => exact absurd isDot (other rfl)
  · next isFinish => exact absurd isFinish (other rfl)
  · rfl

theorem parseExpression_finish (slot : Slot) (pos : Position) :
    parseExpression inner rounds slot (.finish pos) = fail pos .unexpectedEnd := by
  cases slot <;> rfl

section Elements

variable {slot : Slot} {pos : Position} {items : List (Node SymbolId)} {token : FlatToken}

theorem parseElements_of_closing (closes : token.kind = .closing) :
    parseElements inner slot pos items token (rounds + 1) = pure (.ofList (.plain pos) items) := by
  rw [parseElements, if_pos closes]

theorem parseElements_finish (left : 0 < rounds) (place : Position) :
    parseElements inner slot pos items (.finish place) rounds = fail place .unclosed := by
  cases rounds with
  | zero => cases left
  | succ rounds => rfl

theorem parseElements_of_dot (isDot : token.kind = .dot) :
    parseElements inner slot pos items token (rounds + 1) =
      if items.isEmpty then
        fail token.pos .nothingBeforeDot
      else do
        let ending <- parseOperand inner slot .nothingAfterDot
        expectClosing .tooMuchAfterDot
        return (Node.chain ending items).withMark (.plain pos) := by
  have more : ¬ token.kind = .closing := by simp [isDot]
  have going : ¬ token.kind = .finish := by simp [isDot]
  rw [parseElements, if_neg more, if_neg going, if_pos isDot]

theorem parseElements_of_other (more : token.kind ≠ .closing) (going : token.kind ≠ .finish)
    (noDot : token.kind ≠ .dot) :
    parseElements inner slot pos items token (rounds + 1) = (do
      let node <- inner slot token
      let next <- fetch
      parseElements inner slot pos (items ++ [node]) next rounds) := by
  rw [parseElements, if_neg more, if_neg going, if_neg noDot]

end Elements

section Sequence

variable {tail : Bool} {items : List (Node SymbolId)} {token : FlatToken}

theorem parseSequence_of_closing (closes : token.kind = .closing) :
    parseSequence inner tail items token (rounds + 1) = pure items := by
  rw [parseSequence, if_pos closes]

theorem parseSequence_finish (left : 0 < rounds) (place : Position) :
    parseSequence inner tail items (.finish place) rounds = fail place .unclosed := by
  cases rounds with
  | zero => cases left
  | succ rounds => rfl

theorem parseSequence_of_other (more : token.kind ≠ .closing) (going : token.kind ≠ .finish) :
    parseSequence inner tail items token (rounds + 1) = (do
      let node <- inner (.code tail) token
      let next <- fetch
      if tail && next.kind != .closing then do
        let demoted <- demote node
        parseSequence inner tail (items ++ [demoted]) next rounds
      else
        parseSequence inner tail (items ++ [node]) next rounds) := by
  rw [parseSequence, if_neg more, if_neg going]

end Sequence

theorem parseLambdaFrom_of_other {pos : Position} {name : Option Bytes} {token : FlatToken}
    (other : token.kind ≠ .opening) :
    parseLambdaFrom inner rounds pos name token = fail token.pos .missingParameters := by
  rw [parseLambdaFrom, if_pos other]

end Forms

end Descent

namespace Session

/-- What a call gives back, and the session afterwards, if the call comes to an end
within a depth.  Other texts are read with a cursor of their own, and the table is
tried before anything is read. -/
def performDescending (session : Session) (depth : Nat) : ReadCall -> Option (Reply × Session)
  | .item slot => do
      let (result, after) <- (Descent.parseItem depth slot).run session
      return (.returned result.toList, after)
  | .program text =>
      match session.table.checkReady with
      | .error misuse => return (.refused misuse, session)
      | .ok _ => do
          let (result, after) <-
            (Descent.parseStream depth [] depth).run { session with cursor := .ofText text }
          return (.returned (result.getD []), { after with cursor := session.cursor })
  | .rest =>
      match session.table.checkReady with
      | .error misuse => return (.refused misuse, session)
      | .ok _ => do
          let (result, after) <- (Descent.parseStream depth [] depth).run
            { session with cursor := .ofText session.cursor.rest }
          let left := { session.cursor with rest := after.cursor.rest }
          return (.returned (result.getD []), { after with cursor := left })
  | .datum text =>
      match session.table.checkReady with
      | .error misuse => return (.refused misuse, session)
      | .ok _ => do
          let (result, after) <-
            (Descent.parseDatum depth).run { session with cursor := .ofText text }
          return (.returned result.toList, { after with cursor := session.cursor })

end Session

end TailLisp
