import TailLisp.Fault
import TailLisp.Node.Basic

namespace TailLisp

/-!
Unfinished forms.

While a text is read, the forms that have been opened and not yet closed are
kept as holes, innermost first.  A hole is a form with one place left open
where the next expression belongs, together with everything that was read
before that place.  Between tokens the reader is in a state that says what the
current form is waiting for.

Symbols are kept by name.  The tick of quoted data is the exception: it
stands for the reserved word `quote` without spelling it, so it refers to the
special form.
-/

/-- What a symbol refers to before the symbol table is consulted. -/
inductive Reference where
  | named (name : Bytes)
  | reserved (form : SpecialForm)
  deriving DecidableEq

/-- A tree as the reader builds it. -/
abbrev Tree := Node Reference

/-- The place of an expression: in quoted data, where special forms are plain
lists, or in code, inside or outside tail position. -/
inductive Slot where
  | data
  | code (tail : Bool)
  deriving DecidableEq

namespace Slot

/-- The slot of the elements of a list that stands in a slot. -/
def element : Slot -> Slot
  | data => data
  | code _ => code false

/-- Whether a list in the slot is in tail position. -/
def isTail : Slot -> Bool
  | data => false
  | code tail => tail

end Slot

/-- A scope whose bindings are being read, newest first. -/
structure ScopeHead where
  pos : Position
  kind : ScopeKind
  tail : Bool
  bindings : List (Reference × Tree)

/-- The form whose body is being read. -/
inductive BodyForm where
  | begin (tail : Bool)
  | scope (kind : ScopeKind) (tail : Bool) (bindings : List (Reference × Tree))
  | lambda (name : Option Bytes) (params : List Bytes)

namespace BodyForm

/-- Whether the last expression of the body is in tail position. -/
def endsInTail : BodyForm -> Bool
  | begin tail => tail
  | scope _ _ _ => true
  | lambda _ _ => true

end BodyForm

/-- What the expressions up to a closing parenthesis are. -/
inductive SeriesKind where
  /-- The elements of a list in a slot. -/
  | elements (slot : Slot)
  /-- The body of a form. -/
  | body (form : BodyForm)
  /-- The arguments of a `recur`. -/
  | args

/-- Expressions up to a closing parenthesis, newest first, and the place where
their form was opened. -/
structure Series where
  kind : SeriesKind
  pos : Position
  items : List Tree

namespace Series

/-- The slot of the next expression.  Each expression of a body is read as if
it were the last. -/
def slot (series : Series) : Slot :=
  match series.kind with
  | .elements slot => slot.element
  | .body form => .code form.endsInTail
  | .args => .code false

end Series

/-- A form with one place left open. -/
inductive Hole where
  /-- The whole item that was asked for. -/
  | whole (slot : Slot)
  /-- The datum behind a tick, in code or in data. -/
  | ticked (inCode : Bool) (pos : Position)
  /-- The next expression of a series. -/
  | item (series : Series)
  /-- The tail behind the dot of a list. -/
  | dotted (slot : Slot) (pos : Position) (items : List Tree)
  | quoted (pos : Position)
  | defined (pos : Position) (name : Bytes)
  | ifTest (pos : Position) (tail : Bool)
  | ifConsequent (pos : Position) (tail : Bool) (test : Tree)
  | ifAlternative (pos : Position) (tail : Bool) (test consequent : Tree)
  /-- The value of a binding. -/
  | bound (head : ScopeHead) (name : Bytes)

namespace Hole

/-- The slot of the expression that is missing. -/
def slot : Hole -> Slot
  | whole slot => slot
  | ticked _ _ => .data
  | item series => series.slot
  | dotted slot _ _ => slot.element
  | quoted _ => .data
  | defined _ _ => .code false
  | ifTest _ _ => .code false
  | ifConsequent _ tail _ => .code tail
  | ifAlternative _ tail _ _ => .code tail
  | bound _ _ => .code false

end Hole

/-- What the innermost form is waiting for. -/
inductive State where
  /-- An expression for a hole.  A closing parenthesis in its place has its
  own complaint. -/
  | operand (hole : Hole) (ifClosed : SyntaxError)
  /-- Whatever follows an opening parenthesis. -/
  | opened (slot : Slot) (pos : Position)
  /-- A further expression of a series, or its end. -/
  | series (series : Series)
  /-- The closing parenthesis of a form that is complete. -/
  | closing (tree : Tree) (otherwise : SyntaxError)
  /-- The name of a definition. -/
  | definition (pos : Position)
  /-- The opening parenthesis of a binding list. -/
  | scopeHead (head : ScopeHead)
  /-- A further binding, or the end of the bindings. -/
  | bindings (head : ScopeHead)
  /-- The name of a binding. -/
  | bindingName (head : ScopeHead)
  /-- The end of a binding. -/
  | bindingEnd (head : ScopeHead) (name : Bytes) (value : Tree)
  /-- The name of a lambda or its parameter list. -/
  | lambdaHead (pos : Position)
  /-- The parameter list of a lambda that has a name. -/
  | namedLambdaHead (pos : Position) (name : Bytes)
  /-- A further parameter, newest first, or the end of the parameters. -/
  | parameters (pos : Position) (name : Option Bytes) (params : List Bytes)

namespace State

/-- The state before an item is read. -/
def start (slot : Slot) : State :=
  operand (.whole slot) .unmatchedClosing

end State

end TailLisp
