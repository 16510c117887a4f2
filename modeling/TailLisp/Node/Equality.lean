import TailLisp.Node.Basic

namespace TailLisp

/-!
Sameness of trees.

Two trees are the same when they say the same: same kinds, same values, same
symbols in the same order.  Places and tail flags are not compared.  The name
of a lambda is part of what it says.
-/

namespace Node

variable {Symbol : Type} [DecidableEq Symbol]

mutual

/-- Whether two trees agree in everything but their marks. -/
def same : Node Symbol -> Node Symbol -> Bool
  | integer _ left, integer _ right => left == right
  | char _ left, char _ right => left == right
  | string _ left, string _ right => left == right
  | boolean _ left, boolean _ right => left == right
  | symbol _ left, symbol _ right => left == right
  | empty _, empty _ => true
  | pair _ leftCar leftCdr, pair _ rightCar rightCdr =>
      leftCar.same rightCar && leftCdr.same rightCdr
  | list _ left lefts, list _ right rights => left.same right && sameSeries lefts rights
  | quote _ left, quote _ right => left.same right
  | begin _ lefts, begin _ rights => sameSeries lefts rights
  | define _ leftName left, define _ rightName right => leftName == rightName && left.same right
  | conditional _ leftTest leftYes leftNo, conditional _ rightTest rightYes rightNo =>
      leftTest.same rightTest && leftYes.same rightYes && leftNo.same rightNo
  | scope _ leftKind leftBindings lefts, scope _ rightKind rightBindings rights =>
      leftKind == rightKind && sameBindings leftBindings rightBindings && sameSeries lefts rights
  | lambda _ leftName leftParams lefts, lambda _ rightName rightParams rights =>
      leftName == rightName && leftParams == rightParams && sameSeries lefts rights
  | recur _ lefts, recur _ rights => sameSeries lefts rights
  | _, _ => false

def sameSeries : List (Node Symbol) -> List (Node Symbol) -> Bool
  | [], [] => true
  | left :: lefts, right :: rights => left.same right && sameSeries lefts rights
  | _, _ => false

def sameBindings : List (Symbol × Node Symbol) -> List (Symbol × Node Symbol) -> Bool
  | [], [] => true
  | (leftName, left) :: lefts, (rightName, right) :: rights =>
      leftName == rightName && left.same right && sameBindings lefts rights
  | _, _ => false

end

end Node

end TailLisp
