import TailLisp.Node.Copy

namespace TailLisp

/-!
Lists as chains of pairs.

A list says the same as a chain of pairs that ends in the empty list.
Expanding a tree writes its list in that way, and the lists among the list's
elements, but does not look into pairs or special forms, which are copied.
-/

namespace Node

variable {Symbol : Type}

mutual

/-- The tree with its outermost lists written as chains of pairs.  Each pair
stands where its first part stands, the final empty list where the list
stands. -/
def expand : Node Symbol -> Node Symbol
  | list mark first others =>
      pair (.plain first.pos) first.expand (expandSeries mark.pos others)
  | node => node.copy

/-- The chain of the expanded elements. -/
def expandSeries (pos : Position) : List (Node Symbol) -> Node Symbol
  | [] => empty (.plain pos)
  | node :: nodes => pair (.plain node.pos) node.expand (expandSeries pos nodes)

end

/-- A chain of pairs that ends in a given tree.  Each pair stands where its
first part stands. -/
def chain (ending : Node Symbol) : List (Node Symbol) -> Node Symbol
  | [] => ending
  | node :: nodes => pair (.plain node.pos) node (chain ending nodes)

end Node

end TailLisp
