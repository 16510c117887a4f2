import TailLisp.Keyword
import TailLisp.Position

namespace TailLisp

/-!
Syntax trees.

One type of tree serves for data and for code.  Data use the atoms, the empty
list, pairs and lists; code adds the special forms.  A tree is generic in what
stands for a symbol: the reader works with names, a finished tree holds the
ids of a symbol table.

Every node carries a mark with its place in the source and a flag for tail
position.  The flag belongs to the reader's account of the program and has no
part in what the tree says, so comparisons leave it out.
-/

/-- What a node carries beside its content. -/
structure Mark where
  pos : Position
  tail : Bool
  deriving DecidableEq

namespace Mark

/-- A mark outside tail position. -/
def plain (pos : Position) : Mark :=
  { pos := pos, tail := false }

end Mark

/-- A tree whose symbols are of a given type. -/
inductive Node (Symbol : Type) where
  | integer (mark : Mark) (value : Int64)
  | char (mark : Mark) (value : UInt8)
  | string (mark : Mark) (contents : Bytes)
  | boolean (mark : Mark) (value : Bool)
  | symbol (mark : Mark) (name : Symbol)
  | empty (mark : Mark)
  | pair (mark : Mark) (car cdr : Node Symbol)
  /-- A proper list.  It has a first element, since a list without elements is
  the empty list. -/
  | list (mark : Mark) (first : Node Symbol) (others : List (Node Symbol))
  | quote (mark : Mark) (datum : Node Symbol)
  | begin (mark : Mark) (body : List (Node Symbol))
  | define (mark : Mark) (name : Symbol) (value : Node Symbol)
  | conditional (mark : Mark) (test consequent alternative : Node Symbol)
  | scope (mark : Mark) (kind : ScopeKind) (bindings : List (Symbol × Node Symbol))
      (body : List (Node Symbol))
  | lambda (mark : Mark) (name : Option Bytes) (params : List Symbol)
      (body : List (Node Symbol))
  | recur (mark : Mark) (args : List (Node Symbol))

/-- The kinds of nodes. -/
inductive NodeKind where
  | integer
  | char
  | string
  | boolean
  | symbol
  | empty
  | pair
  | list
  | quote
  | begin
  | define
  | conditional
  | scope (kind : ScopeKind)
  | lambda
  | recur
  deriving DecidableEq

namespace NodeKind

/-- The word for the kind. -/
def name : NodeKind -> Bytes
  | integer => Bytes.ofText "integer"
  | char => Bytes.ofText "char"
  | string => Bytes.ofText "string"
  | boolean => Bytes.ofText "bool"
  | symbol => Bytes.ofText "symbol"
  | empty => Bytes.ofText "empty"
  | pair => Bytes.ofText "pair"
  | list => Bytes.ofText "list"
  | quote => Bytes.ofText "quote"
  | begin => Bytes.ofText "begin"
  | define => Bytes.ofText "define"
  | conditional => Bytes.ofText "if"
  | scope kind => kind.name
  | lambda => Bytes.ofText "lambda"
  | recur => Bytes.ofText "recur"

end NodeKind

namespace Node

variable {Symbol Target : Type}

def mark : Node Symbol -> Mark
  | integer mark _ => mark
  | char mark _ => mark
  | string mark _ => mark
  | boolean mark _ => mark
  | symbol mark _ => mark
  | empty mark => mark
  | pair mark _ _ => mark
  | list mark _ _ => mark
  | quote mark _ => mark
  | begin mark _ => mark
  | define mark _ _ => mark
  | conditional mark _ _ _ => mark
  | scope mark _ _ _ => mark
  | lambda mark _ _ _ => mark
  | recur mark _ => mark

/-- The place where the text of the tree begins. -/
def pos (node : Node Symbol) : Position :=
  node.mark.pos

/-- The same tree with another mark at its root. -/
def withMark (mark : Mark) : Node Symbol -> Node Symbol
  | integer _ value => integer mark value
  | char _ value => char mark value
  | string _ contents => string mark contents
  | boolean _ value => boolean mark value
  | symbol _ name => symbol mark name
  | empty _ => empty mark
  | pair _ car cdr => pair mark car cdr
  | list _ first others => list mark first others
  | quote _ datum => quote mark datum
  | begin _ body => begin mark body
  | define _ name value => define mark name value
  | conditional _ test consequent alternative => conditional mark test consequent alternative
  | scope _ kind bindings body => scope mark kind bindings body
  | lambda _ name params body => lambda mark name params body
  | recur _ args => recur mark args

/-- The same tree with another tail flag at its root. -/
def withTail (tail : Bool) (node : Node Symbol) : Node Symbol :=
  node.withMark { pos := node.mark.pos, tail := tail }

/-- The list of some elements; without elements it is the empty list, which is
never in tail position. -/
def ofList (mark : Mark) : List (Node Symbol) -> Node Symbol
  | [] => empty (.plain mark.pos)
  | first :: others => list mark first others

def kind : Node Symbol -> NodeKind
  | integer _ _ => .integer
  | char _ _ => .char
  | string _ _ => .string
  | boolean _ _ => .boolean
  | symbol _ _ => .symbol
  | empty _ => .empty
  | pair _ _ _ => .pair
  | list _ _ _ => .list
  | quote _ _ => .quote
  | begin _ _ => .begin
  | define _ _ _ => .define
  | conditional _ _ _ _ => .conditional
  | scope _ kind _ _ => .scope kind
  | lambda _ _ _ _ => .lambda
  | recur _ _ => .recur

/-- The word for the kind of a node. -/
def kindName (node : Node Symbol) : Bytes :=
  node.kind.name

mutual

/-- Replaces every symbol of a tree and keeps all else, marks included. -/
def map (replace : Symbol -> Target) : Node Symbol -> Node Target
  | integer mark value => integer mark value
  | char mark value => char mark value
  | string mark contents => string mark contents
  | boolean mark value => boolean mark value
  | symbol mark name => symbol mark (replace name)
  | empty mark => empty mark
  | pair mark car cdr => pair mark (car.map replace) (cdr.map replace)
  | list mark first others => list mark (first.map replace) (mapSeries replace others)
  | quote mark datum => quote mark (datum.map replace)
  | begin mark body => begin mark (mapSeries replace body)
  | define mark name value => define mark (replace name) (value.map replace)
  | conditional mark test consequent alternative =>
      conditional mark (test.map replace) (consequent.map replace) (alternative.map replace)
  | scope mark kind bindings body =>
      scope mark kind (mapBindings replace bindings) (mapSeries replace body)
  | lambda mark name params body =>
      lambda mark name (params.map replace) (mapSeries replace body)
  | recur mark args => recur mark (mapSeries replace args)

def mapSeries (replace : Symbol -> Target) : List (Node Symbol) -> List (Node Target)
  | [] => []
  | node :: nodes => node.map replace :: mapSeries replace nodes

def mapBindings (replace : Symbol -> Target) :
    List (Symbol × Node Symbol) -> List (Target × Node Target)
  | [] => []
  | (name, value) :: bindings =>
      (replace name, value.map replace) :: mapBindings replace bindings

end

end Node

end TailLisp
