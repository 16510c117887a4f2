import TailLisp.Bytes

namespace TailLisp

/-!
Reserved words.

Ten words have a token of their own: the two truth values and the heads of
the eight special forms.  They are special only where the grammar looks for
them; anywhere else a special form's word is a symbol like any other.
-/

/-- The two forms that open a scope of bindings.  A `loop` is a `let` that can
be entered again by `recur`. -/
inductive ScopeKind where
  | once
  | loop
  deriving DecidableEq

/-- The forms of code that are not plain lists. -/
inductive SpecialForm where
  | begin
  | define
  | conditional
  | scope (kind : ScopeKind)
  | lambda
  | recur
  | quote
  deriving DecidableEq

/-- A word with a token of its own. -/
inductive Keyword where
  | truth (value : Bool)
  | head (form : SpecialForm)
  deriving DecidableEq

namespace ScopeKind

/-- The word at the head of such a scope. -/
def name : ScopeKind -> Bytes
  | once => Bytes.ofText "let"
  | loop => Bytes.ofText "loop"

end ScopeKind

namespace SpecialForm

/-- The word at the head of the form. -/
def name : SpecialForm -> Bytes
  | begin => Bytes.ofText "begin"
  | define => Bytes.ofText "define"
  | conditional => Bytes.ofText "if"
  | scope kind => kind.name
  | lambda => Bytes.ofText "lambda"
  | recur => Bytes.ofText "recur"
  | quote => Bytes.ofText "quote"

/-- The eight forms in the alphabetical order of their words.  A symbol table
reserves their names in this order. -/
def all : List SpecialForm :=
  [begin, define, conditional, lambda, scope .once, scope .loop, quote, recur]

theorem mem_all (form : SpecialForm) : form ∈ all := by
  rcases form with _ | _ | _ | kind | _ | _ | _
  case scope => cases kind <;> decide
  all_goals decide

end SpecialForm

namespace Keyword

/-- The word itself. -/
def name : Keyword -> Bytes
  | truth true => Bytes.ofText "true"
  | truth false => Bytes.ofText "false"
  | head form => form.name

/-- All reserved words. -/
def all : List Keyword :=
  truth true :: truth false :: SpecialForm.all.map head

/-- The keyword spelled by a text, if there is one. -/
def ofName? (text : Bytes) : Option Keyword :=
  all.find? fun keyword => keyword.name = text

/-- A keyword is found under its own name. -/
theorem ofName?_name (keyword : Keyword) : ofName? keyword.name = some keyword := by
  rcases keyword with value | form
  · cases value <;> decide
  · rcases form with _ | _ | _ | kind | _ | _ | _
    case scope => cases kind <;> decide
    all_goals decide

/-- Only a keyword's own name finds it. -/
theorem name_of_ofName?_eq_some {text : Bytes} {keyword : Keyword}
    (found : ofName? text = some keyword) : keyword.name = text := by
  simpa using List.find?_some found

end Keyword

end TailLisp
