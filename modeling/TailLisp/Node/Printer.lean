import TailLisp.Node.Basic
import TailLisp.Text.CharName
import TailLisp.Text.Escape

namespace TailLisp

/-!
Trees as text.

The printed text of a tree reads back as the same tree.  Elements are
separated by single spaces and nothing is broken over lines.  Chains of pairs
are written as one dotted list, and special forms as the list of their parts.
-/

namespace Node

variable {Symbol : Type}

/-- The text of a character literal. -/
def printChar (char : UInt8) : Bytes :=
  ByteClass.numberSign :: ByteClass.backslash :: CharName.spelling char

/-- The text of a string literal. -/
def printString (contents : Bytes) : Bytes :=
  ByteClass.stringQuote :: Escape.encode contents ++ [ByteClass.stringQuote]

/-- The text of a truth value. -/
def printBoolean (value : Bool) : Bytes :=
  (Keyword.truth value).name

/-- A text in parentheses. -/
def parenthesized (text : Bytes) : Bytes :=
  ByteClass.openParen :: text ++ [ByteClass.closeParen]

/-- The text of a tree that is not a pair at its place: alone, or as the end
of a chain of pairs, where it closes the dotted list. -/
def place (inChain : Bool) (text : Bytes) : Bytes :=
  if inChain then Bytes.ofText " . " ++ text ++ [ByteClass.closeParen] else text

/-- The names of a parameter list. -/
def printParams (name : Symbol -> Bytes) (params : List Symbol) : Bytes :=
  parenthesized (Bytes.spaced (params.map name))

/-- The name of a lambda with the space behind it. -/
def printLambdaName : Option Bytes -> Bytes
  | some name => name ++ Bytes.ofText " "
  | none => []

mutual

/-- Writes a tree at its place.  Inside a chain of pairs a pair continues the
dotted list that an earlier pair has opened. -/
def printAt (name : Symbol -> Bytes) (inChain : Bool) : Node Symbol -> Bytes
  | integer _ value => place inChain (Bytes.ofInt value.toInt)
  | char _ value => place inChain (printChar value)
  | string _ contents => place inChain (printString contents)
  | boolean _ value => place inChain (printBoolean value)
  | symbol _ label => place inChain (name label)
  | empty _ => place inChain (parenthesized [])
  | pair _ car cdr =>
      Bytes.ofText (if inChain then " " else "(") ++ car.printAt name false ++
        cdr.printAt name true
  | list _ first others =>
      place inChain (parenthesized (first.printAt name false ++ printSeries name others))
  | quote _ datum =>
      place inChain (parenthesized (Bytes.ofText "quote " ++ datum.printAt name false))
  | begin _ body =>
      place inChain (parenthesized (Bytes.ofText "begin" ++ printSeries name body))
  | define _ label value =>
      place inChain (parenthesized
        (Bytes.ofText "define " ++ name label ++ Bytes.ofText " " ++ value.printAt name false))
  | conditional _ test consequent alternative =>
      place inChain (parenthesized
        (Bytes.ofText "if " ++ test.printAt name false ++
          Bytes.ofText " " ++ consequent.printAt name false ++
          Bytes.ofText " " ++ alternative.printAt name false))
  | scope _ kind bindings body =>
      place inChain (parenthesized
        (kind.name ++ Bytes.ofText " " ++
          parenthesized (Bytes.spaced (printBindings name bindings)) ++ printSeries name body))
  | lambda _ lambdaName params body =>
      place inChain (parenthesized
        (Bytes.ofText "lambda " ++ printLambdaName lambdaName ++ printParams name params ++
          printSeries name body))
  | recur _ args =>
      place inChain (parenthesized (Bytes.ofText "recur" ++ printSeries name args))

/-- Writes some trees, each with a space before it. -/
def printSeries (name : Symbol -> Bytes) : List (Node Symbol) -> Bytes
  | [] => []
  | node :: nodes => Bytes.ofText " " ++ node.printAt name false ++ printSeries name nodes

/-- Writes each binding as a list of its name and its value. -/
def printBindings (name : Symbol -> Bytes) : List (Symbol × Node Symbol) -> List Bytes
  | [] => []
  | (label, value) :: bindings =>
      parenthesized (name label ++ Bytes.ofText " " ++ value.printAt name false) ::
        printBindings name bindings

end

/-- The text of a tree. -/
def print (name : Symbol -> Bytes) (node : Node Symbol) : Bytes :=
  node.printAt name false

end Node

end TailLisp
