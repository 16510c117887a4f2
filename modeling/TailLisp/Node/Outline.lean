import TailLisp.Node.Printer

namespace TailLisp

/-!
Trees as outlines.

An outline shows one node on each line, indented by its depth, with a remark
on the nodes in tail position.  Atoms and quoted data are printed on the line
of their node.  Bindings and bodies have a line of their own, which stands for
no node.
-/

/-- A line of an outline. -/
structure OutlineLine where
  depth : Nat
  text : Bytes

namespace OutlineLine

/-- The line with its indentation and its end. -/
def render (line : OutlineLine) : Bytes :=
  List.replicate (2 * line.depth) ' '.toUInt8 ++ line.text ++ [ByteClass.newline]

end OutlineLine

namespace Node

variable {Symbol : Type}

/-- The first words on the line of a node. -/
def caption (node : Node Symbol) : Bytes :=
  node.kindName ++ if node.mark.tail then Bytes.ofText " [tail]" else []

/-- The line above the body of a form. -/
def bodyLine (depth : Nat) : OutlineLine :=
  { depth := depth, text := Bytes.ofText "body:" }

/-- The name of a lambda with the space before it. -/
def outlineLambdaName : Option Bytes -> Bytes
  | some name => Bytes.ofText " " ++ name
  | none => []

mutual

/-- The lines of a tree whose root stands at a depth. -/
def outlineAt (name : Symbol -> Bytes) (depth : Nat) : Node Symbol -> List OutlineLine
  | integer mark value =>
      [{ depth, text := caption (integer mark value : Node Symbol) ++ Bytes.ofText " " ++
          Bytes.ofInt value.toInt }]
  | char mark value =>
      [{ depth, text := caption (char mark value : Node Symbol) ++ Bytes.ofText " " ++
          printChar value }]
  | string mark contents =>
      [{ depth, text := caption (string mark contents : Node Symbol) ++ Bytes.ofText " " ++
          printString contents }]
  | boolean mark value =>
      [{ depth, text := caption (boolean mark value : Node Symbol) ++ Bytes.ofText " " ++
          printBoolean value }]
  | symbol mark label =>
      [{ depth, text := caption (symbol mark label) ++ Bytes.ofText " " ++ name label }]
  | empty mark => [{ depth, text := caption (empty mark : Node Symbol) }]
  | pair mark car cdr =>
      { depth, text := caption (pair mark car cdr) } ::
        (car.outlineAt name (depth + 1) ++ cdr.outlineAt name (depth + 1))
  | list mark first others =>
      { depth, text := caption (list mark first others) } ::
        (first.outlineAt name (depth + 1) ++ outlineSeries name (depth + 1) others)
  | quote mark datum =>
      [{ depth, text := caption (quote mark datum) ++ Bytes.ofText " " ++ datum.print name }]
  | begin mark body =>
      { depth, text := caption (begin mark body) } :: outlineSeries name (depth + 1) body
  | define mark label value =>
      { depth, text := caption (define mark label value) ++ Bytes.ofText " " ++ name label } ::
        value.outlineAt name (depth + 1)
  | conditional mark test consequent alternative =>
      { depth, text := caption (conditional mark test consequent alternative) } ::
        (test.outlineAt name (depth + 1) ++
          (consequent.outlineAt name (depth + 1) ++ alternative.outlineAt name (depth + 1)))
  | scope mark kind bindings body =>
      { depth, text := caption (scope mark kind bindings body) } ::
        (outlineBindings name (depth + 1) bindings ++
          bodyLine (depth + 1) :: outlineSeries name (depth + 2) body)
  | lambda mark lambdaName params body =>
      { depth, text := caption (lambda mark lambdaName params body) ++
          outlineLambdaName lambdaName ++ Bytes.ofText " " ++ printParams name params } ::
        bodyLine (depth + 1) :: outlineSeries name (depth + 2) body
  | recur mark args =>
      { depth, text := caption (recur mark args) } :: outlineSeries name (depth + 1) args

/-- The lines of some trees at one depth. -/
def outlineSeries (name : Symbol -> Bytes) (depth : Nat) :
    List (Node Symbol) -> List OutlineLine
  | [] => []
  | node :: nodes => node.outlineAt name depth ++ outlineSeries name depth nodes

/-- The lines of some bindings: the name, and below it the value. -/
def outlineBindings (name : Symbol -> Bytes) (depth : Nat) :
    List (Symbol × Node Symbol) -> List OutlineLine
  | [] => []
  | (label, value) :: bindings =>
      { depth, text := name label ++ Bytes.ofText " =" } ::
        (value.outlineAt name (depth + 1) ++ outlineBindings name depth bindings)

end

/-- The outline of a tree as text. -/
def outline (name : Symbol -> Bytes) (node : Node Symbol) : Bytes :=
  (node.outlineAt name 0).flatMap OutlineLine.render

end Node

end TailLisp
