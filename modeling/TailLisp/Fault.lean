import TailLisp.Keyword
import TailLisp.Position

namespace TailLisp

/-!
Faults.

A text can be malformed in two layers.  A scan error spoils a single lexeme; a
syntax error is a sequence of sound tokens that no grammar rule accepts.  Each
cause is a constructor, and the wording stands in one function per layer.
-/

/-- Why a lexeme cannot be read. -/
inductive ScanError where
  | quasiquotation
  | unterminatedString
  | unrecognizedNumberSign
  | unfinishedCharacter
  | unknownCharacter (name : Bytes)
  | integerOutOfRange (text : Bytes)
  deriving DecidableEq

/-- Why a sequence of tokens cannot be read. -/
inductive SyntaxError where
  | unmatchedClosing
  | strayDot
  | unexpectedEnd
  | unclosed
  | malformedEscape
  | nothingBeforeDot
  | nothingAfterDot
  | tooMuchAfterDot
  | recurOutsideTail
  | emptyBody (form : SpecialForm)
  | defineName
  | defineArity
  | conditionalArity
  | quoteArity
  | missingBindings (kind : ScopeKind)
  | malformedBinding
  | bindingName
  | bindingWithoutValue (name : Bytes)
  | bindingWithMoreValues
  | missingParameters
  | parameterName
  | duplicateParameter (name : Bytes)
  | trailingInput
  deriving DecidableEq

/-- The layer of a fault and its cause there. -/
inductive Cause where
  | scan (error : ScanError)
  | parse (error : SyntaxError)
  deriving DecidableEq

/-- Why and where a text is malformed. -/
structure Fault where
  origin : Position
  cause : Cause
  deriving DecidableEq

namespace ScanError

def message : ScanError -> Bytes
  | quasiquotation => Bytes.ofText "Quasiquotation is not supported."
  | unterminatedString => Bytes.ofText "Unterminated string literal."
  | unrecognizedNumberSign => Bytes.ofText "Unrecognized # syntax."
  | unfinishedCharacter => Bytes.ofText "Unexpected EOF in character literal."
  | unknownCharacter name => Bytes.ofText "Unknown character name: " ++ name
  | integerOutOfRange text => Bytes.ofText "Integer literal out of range: " ++ text

end ScanError

namespace SyntaxError

def message : SyntaxError -> Bytes
  | unmatchedClosing => Bytes.ofText "Unmatched delimiter ')'."
  | strayDot => Bytes.ofText "Unexpected '.' outside of a list."
  | unexpectedEnd => Bytes.ofText "Unexpected EOF."
  | unclosed => Bytes.ofText "Encountered EOF while expecting closing delimiter."
  | malformedEscape => Bytes.ofText "Malformed escape sequence in string literal."
  | nothingBeforeDot => Bytes.ofText "Expected a list element before '.'."
  | nothingAfterDot => Bytes.ofText "Expected an element after '.'."
  | tooMuchAfterDot => Bytes.ofText "Expected ')' after the tail of a dotted pair."
  | recurOutsideTail => Bytes.ofText "recur is only allowed in tail position."
  | emptyBody form => form.name ++ Bytes.ofText " requires at least one body expression."
  | defineName => Bytes.ofText "First argument to define must be a symbol."
  | defineArity => Bytes.ofText "define requires exactly 2 arguments."
  | conditionalArity => Bytes.ofText "if requires exactly 3 arguments."
  | quoteArity => Bytes.ofText "quote requires exactly 1 argument."
  | missingBindings kind => kind.name ++ Bytes.ofText " requires a binding list."
  | malformedBinding => Bytes.ofText "Expected a (name value) binding."
  | bindingName => Bytes.ofText "Binding name must be a symbol."
  | bindingWithoutValue name =>
      Bytes.ofText "Binding for " ++ name ++ Bytes.ofText " has no value."
  | bindingWithMoreValues => Bytes.ofText "Binding has more than one value."
  | missingParameters => Bytes.ofText "lambda requires a parameter list."
  | parameterName => Bytes.ofText "Parameter names must be symbols."
  | duplicateParameter name => Bytes.ofText "Duplicate parameter name: " ++ name
  | trailingInput => Bytes.ofText "Unexpected input after datum."

end SyntaxError

namespace Fault

/-- The name of the layer that found the fault. -/
def subsystem (fault : Fault) : Bytes :=
  match fault.cause with
  | .scan _ => Bytes.ofText "scanner"
  | .parse _ => Bytes.ofText "parser"

/-- What is wrong, without the place. -/
def message (fault : Fault) : Bytes :=
  match fault.cause with
  | .scan error => error.message
  | .parse error => error.message

/-- The whole fault as a text of two lines.  A summary ends before its first
zero byte, which a message can hold when it quotes the source. -/
def summary (fault : Fault) : Bytes :=
  (Bytes.ofText "[" ++ fault.subsystem ++ Bytes.ofText "] error at " ++
    fault.origin.spelling ++ Bytes.ofText ":\n\t" ++ fault.message).takeWhile (· != 0)

end Fault

end TailLisp
