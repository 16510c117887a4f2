import TailLisp.Node.Basic

namespace TailLisp

/-!
Copies of trees.

A copy is built anew from the leaves up.  Every node is made at the place of
the node that it copies, at first outside tail position, and is given the flag
of that node when it is complete.
-/

namespace Node

variable {Symbol : Type}

mutual

/-- A tree built anew after another. -/
def copy : Node Symbol -> Node Symbol
  | integer mark value => (integer (.plain mark.pos) value).withTail mark.tail
  | char mark value => (char (.plain mark.pos) value).withTail mark.tail
  | string mark contents => (string (.plain mark.pos) contents).withTail mark.tail
  | boolean mark value => (boolean (.plain mark.pos) value).withTail mark.tail
  | symbol mark name => (symbol (.plain mark.pos) name).withTail mark.tail
  | empty mark => (empty (.plain mark.pos)).withTail mark.tail
  | pair mark car cdr => (pair (.plain mark.pos) car.copy cdr.copy).withTail mark.tail
  | list mark first others =>
      (ofList (.plain mark.pos) (first.copy :: copySeries others)).withTail mark.tail
  | quote mark datum => (quote (.plain mark.pos) datum.copy).withTail mark.tail
  | begin mark body => (begin (.plain mark.pos) (copySeries body)).withTail mark.tail
  | define mark name value => (define (.plain mark.pos) name value.copy).withTail mark.tail
  | conditional mark test consequent alternative =>
      (conditional (.plain mark.pos) test.copy consequent.copy alternative.copy).withTail mark.tail
  | scope mark kind bindings body =>
      (scope (.plain mark.pos) kind (copyBindings bindings) (copySeries body)).withTail mark.tail
  | lambda mark name params body =>
      (lambda (.plain mark.pos) name params (copySeries body)).withTail mark.tail
  | recur mark args => (recur (.plain mark.pos) (copySeries args)).withTail mark.tail

def copySeries : List (Node Symbol) -> List (Node Symbol)
  | [] => []
  | node :: nodes => node.copy :: copySeries nodes

def copyBindings : List (Symbol × Node Symbol) -> List (Symbol × Node Symbol)
  | [] => []
  | (name, value) :: bindings => (name, value.copy) :: copyBindings bindings

end

end Node

end TailLisp
