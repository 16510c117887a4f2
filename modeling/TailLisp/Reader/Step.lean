import TailLisp.Node.Expansion
import TailLisp.Node.Tail
import TailLisp.Reader.Unfinished
import TailLisp.Text.Escape
import TailLisp.Token

namespace TailLisp

/-!
Reading one token.

A step takes the state of the innermost form and a token.  It either changes
the state, opens a nested form and leaves a hole in the current one, or
completes the form.  It never looks at the forms further out, so how a form is
read depends on its slot alone.

A completed tree goes into the innermost hole.  Filling a hole can complete
the form with the hole in turn: a tick is complete with its datum.
-/

/-- What a hole becomes when it is filled. -/
inductive Filled where
  | waiting (state : State)
  | complete (tree : Tree)

/-- What a token does to the innermost form. -/
inductive Action where
  | settle (filled : Filled)
  /-- Opens a nested form that will fill the hole. -/
  | enter (hole : Hole) (state : State)

/-- An action, and the name that it adds to the symbol table. -/
structure Step where
  action : Action
  interned : Option Bytes

namespace Fault

/-- A syntax error at a place. -/
def syntaxAt (pos : Position) (error : SyntaxError) : Fault :=
  { origin := pos, cause := .parse error }

end Fault

namespace Step

/-- Waits in a state. -/
def wait (state : State) : Step :=
  { action := .settle (.waiting state), interned := none }

/-- Completes the form. -/
def complete (tree : Tree) : Step :=
  { action := .settle (.complete tree), interned := none }

end Step

namespace Hole

/-- Puts a tree into a hole. -/
def fill : Hole -> Tree -> Filled
  | whole _, tree => .complete tree
  | ticked true pos, tree => .complete (.quote (.plain pos) tree)
  | ticked false pos, tree =>
      .complete (.list (.plain pos) (.symbol (.plain pos) (.reserved .quote)) [tree])
  | item series, tree => .waiting (.series { series with items := tree :: series.items })
  | dotted _ pos items, tree =>
      .waiting (.closing ((Node.chain tree items.reverse).withMark (.plain pos)) .tooMuchAfterDot)
  | quoted pos, tree => .waiting (.closing (.quote (.plain pos) tree) .quoteArity)
  | defined pos name, tree =>
      .waiting (.closing (.define (.plain pos) (.named name) tree) .defineArity)
  | ifTest pos tail, tree =>
      .waiting (.operand (.ifConsequent pos tail tree) .conditionalArity)
  | ifConsequent pos tail test, tree =>
      .waiting (.operand (.ifAlternative pos tail test tree) .conditionalArity)
  | ifAlternative pos tail test consequent, tree =>
      .waiting (.closing (.conditional { pos, tail } test consequent tree) .conditionalArity)
  | bound head name, tree => .waiting (.bindingEnd head name tree)

/-- Fills a hole with an atom. -/
def fillAtom (hole : Hole) (tree : Tree) : Step :=
  { action := .settle (hole.fill tree), interned := none }

/-- Fills a hole with a symbol, which is thereby interned. -/
def fillSymbol (hole : Hole) (pos : Position) (name : Bytes) : Step :=
  { action := .settle (hole.fill (.symbol (.plain pos) (.named name))), interned := some name }

/-- Begins the expression that is missing with its first token. -/
def receive (hole : Hole) (token : Token) : Except Fault Step :=
  let pos := token.pos
  match token.lexeme with
  | .opening => .ok { action := .enter hole (.opened hole.slot pos), interned := none }
  | .tick =>
      .ok { action := .enter hole
              (.operand (.ticked (hole.slot != .data) pos) .unmatchedClosing)
            interned := none }
  | .closing => .error (.syntaxAt pos .unmatchedClosing)
  | .dot => .error (.syntaxAt pos .strayDot)
  | .integer value => .ok (hole.fillAtom (.integer (.plain pos) value))
  | .char value => .ok (hole.fillAtom (.char (.plain pos) value))
  | .string raw =>
      match Escape.decode raw with
      | some contents => .ok (hole.fillAtom (.string (.plain pos) contents))
      | none => .error (.syntaxAt pos .malformedEscape)
  | .word (.truth value) => .ok (hole.fillAtom (.boolean (.plain pos) value))
  | .word (.head form) => .ok (hole.fillSymbol pos form.name)
  | .symbol name => .ok (hole.fillSymbol pos name)

end Hole

namespace BodyForm

/-- The form with its body.  Only a `begin` may do without one.  A loop whose
last expression does not reach a `recur` is never entered again and is read as
a plain scope. -/
def close (form : BodyForm) (pos : Position) (body : List Tree) : Except Fault Tree :=
  match form with
  | begin tail => .ok (.begin { pos, tail } body)
  | scope kind tail bindings =>
      if body.isEmpty then
        .error (.syntaxAt pos (.emptyBody (.scope kind)))
      else
        let kept := if Node.lastReachesRecur body then kind else .once
        .ok (.scope { pos, tail } kept bindings.reverse body)
  | lambda name params =>
      if body.isEmpty then
        .error (.syntaxAt pos (.emptyBody .lambda))
      else
        .ok (.lambda (.plain pos) name (params.reverse.map .named) body)

end BodyForm

namespace Series

/-- The form of a series that ends. -/
def close (series : Series) : Except Fault Tree :=
  let items := series.items.reverse
  match series.kind with
  | .elements slot => .ok (.ofList { pos := series.pos, tail := slot.isTail } items)
  | .body form => form.close series.pos items
  | .args => .ok (.recur { pos := series.pos, tail := true } items)

/-- The series when something follows its newest expression.  In a body that
ends in tail position the expression was read as the last, which it is not. -/
def goOn (series : Series) : Except Fault Series :=
  match series.kind, series.items with
  | .body form, newest :: older =>
      if form.endsInTail then
        match newest.demote with
        | .ok demoted => .ok { series with items := demoted :: older }
        | .error pos => .error (.syntaxAt pos .recurOutsideTail)
      else
        .ok series
  | _, _ => .ok series

/-- Reads a token behind the expressions of a series. -/
def step (series : Series) (token : Token) : Except Fault Step :=
  match token.lexeme with
  | .closing => series.close.map .complete
  | .dot =>
      match series.kind, series.items with
      | .elements _, [] => .error (.syntaxAt token.pos .nothingBeforeDot)
      | .elements slot, items =>
          .ok (.wait (.operand (.dotted slot series.pos items) .nothingAfterDot))
      | _, _ => series.goOn.bind fun series => (Hole.item series).receive token
  | _ => series.goOn.bind fun series => (Hole.item series).receive token

end Series

namespace SpecialForm

/-- Begins a special form whose word follows an opening parenthesis at a
place.  A `recur` outside tail position is refused at once. -/
def enter (form : SpecialForm) (pos : Position) (tail : Bool) : Except Fault State :=
  match form with
  | .begin => .ok (.series { kind := .body (.begin tail), pos, items := [] })
  | .define => .ok (.definition pos)
  | .conditional => .ok (.operand (.ifTest pos tail) .conditionalArity)
  | .scope kind => .ok (.scopeHead { pos, kind, tail, bindings := [] })
  | .lambda => .ok (.lambdaHead pos)
  | .recur =>
      if tail then .ok (.series { kind := .args, pos, items := [] })
      else .error (.syntaxAt pos .recurOutsideTail)
  | .quote => .ok (.operand (.quoted pos) .quoteArity)

end SpecialForm

namespace State

/-- What a state complains about when it cannot use what comes, and about the
end of the text. -/
def complaint : State -> SyntaxError
  | operand _ _ => .unexpectedEnd
  | opened _ _ => .unclosed
  | series _ => .unclosed
  | closing _ otherwise => otherwise
  | definition _ => .defineName
  | scopeHead head => .missingBindings head.kind
  | bindings _ => .malformedBinding
  | bindingName _ => .bindingName
  | bindingEnd _ _ _ => .bindingWithMoreValues
  | lambdaHead _ => .missingParameters
  | namedLambdaHead _ _ => .missingParameters
  | parameters _ _ _ => .parameterName

/-- The fault of a text that ends in a state.  The end follows the newest
expression of a body as any token would. -/
def faultAtEnd (state : State) (pos : Position) : Fault :=
  match state with
  | series items =>
      match items.goOn with
      | .ok _ => .syntaxAt pos .unclosed
      | .error fault => fault
  | state => .syntaxAt pos state.complaint

/-- The body of a scope whose bindings are complete. -/
def scopeBody (head : ScopeHead) : State :=
  series { kind := .body (.scope head.kind head.tail head.bindings), pos := head.pos, items := [] }

/-- The body of a lambda whose parameters are complete. -/
def lambdaBody (pos : Position) (name : Option Bytes) (params : List Bytes) : State :=
  series { kind := .body (.lambda name params), pos, items := [] }

/-- Reads a token in a state. -/
def step (state : State) (token : Token) : Except Fault Step :=
  let refused : Except Fault Step := .error (.syntaxAt token.pos state.complaint)
  match state with
  | operand hole ifClosed =>
      match token.lexeme with
      | .closing => .error (.syntaxAt token.pos ifClosed)
      | _ => hole.receive token
  | opened slot pos =>
      match slot, token.lexeme with
      | .code tail, .word (.head form) => (form.enter pos tail).map .wait
      | _, _ => Series.step { kind := .elements slot, pos, items := [] } token
  | series items => items.step token
  | closing tree _ =>
      match token.lexeme with
      | .closing => .ok (.complete tree)
      | _ => refused
  | definition pos =>
      match token.lexeme.name? with
      | some name =>
          .ok { action := .settle (.waiting (.operand (.defined pos name) .defineArity))
                interned := some name }
      | none => refused
  | scopeHead head =>
      match token.lexeme with
      | .opening => .ok (.wait (.bindings head))
      | _ => refused
  | bindings head =>
      match token.lexeme with
      | .closing => .ok (.wait (scopeBody head))
      | .opening => .ok (.wait (.bindingName head))
      | _ => refused
  | bindingName head =>
      match token.lexeme with
      | .symbol name => .ok (.wait (.operand (.bound head name) (.bindingWithoutValue name)))
      | _ => refused
  | bindingEnd head name value =>
      match token.lexeme with
      | .closing =>
          let extended := { head with bindings := (.named name, value) :: head.bindings }
          .ok { action := .settle (.waiting (.bindings extended)), interned := some name }
      | _ => refused
  | lambdaHead pos =>
      match token.lexeme with
      | .opening => .ok (.wait (.parameters pos none []))
      | lexeme =>
          match lexeme.name? with
          | some name => .ok (.wait (.namedLambdaHead pos name))
          | none => refused
  | namedLambdaHead pos name =>
      match token.lexeme with
      | .opening => .ok (.wait (.parameters pos (some name) []))
      | _ => refused
  | parameters pos name params =>
      match token.lexeme with
      | .closing => .ok (.wait (lambdaBody pos name params))
      | .symbol param =>
          if param ∈ params then
            .error (.syntaxAt token.pos (.duplicateParameter param))
          else
            .ok { action := .settle (.waiting (.parameters pos name (param :: params)))
                  interned := some param }
      | _ => refused

end State

end TailLisp
