import TailLisp.Node.Basic

namespace TailLisp

/-!
Tail position.

A `recur` leaves through the last expression of a body.  Two questions are
asked about that way out: whether it meets a `recur` at all, which decides
whether a loop is one, and what becomes of an expression that was read as the
last of a body and turns out not to be the last.
-/

namespace Node

variable {Symbol : Type}

mutual

/-- Whether a tree can end in a `recur` that belongs to the form around it.
The way leads through the last expression of a `begin` or a `let` and through
the branches of a conditional; a loop and a lambda keep their own. -/
def reachesRecur : Node Symbol -> Bool
  | recur _ _ => true
  | begin _ body => lastReachesRecur body
  | conditional _ _ consequent alternative =>
      consequent.reachesRecur || alternative.reachesRecur
  | scope _ .once _ body => lastReachesRecur body
  | _ => false

/-- Whether the last of some trees can end in such a `recur`. -/
def lastReachesRecur : List (Node Symbol) -> Bool
  | [] => false
  | [node] => node.reachesRecur
  | _ :: next :: nodes => lastReachesRecur (next :: nodes)

end

mutual

/-- The tree as it stands outside tail position.  The tail flags along the way
out are cleared; a `recur` on that way is out of place, and the first one's
position is returned instead.  The bodies of scopes end in a tail slot of
their own wherever the scope stands, so only the scope's flag is cleared. -/
def demote : Node Symbol -> Except Position (Node Symbol)
  | recur mark _ => .error mark.pos
  | begin mark body => return begin (.plain mark.pos) (<- demoteLast body)
  | conditional mark test consequent alternative =>
      return conditional (.plain mark.pos) test (<- consequent.demote) (<- alternative.demote)
  | scope mark kind bindings body => return scope (.plain mark.pos) kind bindings body
  | list mark first others => return list (.plain mark.pos) first others
  | node => return node

/-- Some trees with the last of them outside tail position. -/
def demoteLast : List (Node Symbol) -> Except Position (List (Node Symbol))
  | [] => return []
  | [node] => return [<- node.demote]
  | node :: next :: nodes => return node :: (<- demoteLast (next :: nodes))

end

end Node

end TailLisp
