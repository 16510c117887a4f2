import TailLisp.Proofs.Spelling

namespace TailLisp

/-!
Printed text.

The text of a form is put together from the texts of its parts in the same way
as its tokens are.  `Spells` says of a text that it is scanned as tokens with
some property, wherever it stands before a boundary.  The property composes
along the spaces and parentheses that the printer writes.
-/

open ByteClass

/-- Wherever the text stands before a boundary, it is scanned as tokens with
the property. -/
def Spells (text : Bytes) (property : List Token -> Prop) : Prop :=
  forall pos rest, Boundary rest -> Exists fun tokens =>
    Cursor.Scans ⟨pos, text ++ rest⟩ tokens ⟨pos.after text, rest⟩ ∧ property tokens

/-- The tokens of one thing after the other, each with its property. -/
inductive Row {Thing : Type} (property : Thing -> List Token -> Prop) :
    List Thing -> List Token -> Prop
  | nil : Row property [] []
  | cons {thing things tokens later} :
      property thing tokens ->
      Row property things later ->
      Row property (thing :: things) (tokens ++ later)

/-- If the property says of which piece the tokens are, a row comes from a list
of pieces. -/
theorem Row.exists_pieces {Thing Piece : Type} {property : Thing -> List Token -> Prop}
    {good : Piece -> Prop} {view : Piece -> Thing} {text : Piece -> List Token}
    (found : forall thing tokens, property thing tokens ->
      Exists fun piece => good piece ∧ thing = view piece ∧ tokens = text piece)
    {things : List Thing} {tokens : List Token} (row : Row property things tokens) :
    Exists fun pieces : List Piece => (forall piece, piece ∈ pieces -> good piece) ∧
      things = pieces.map view ∧ tokens = pieces.flatMap text := by
  induction row with
  | nil => exact ⟨[], nofun, rfl, rfl⟩
  | cons holds _ inductionHypothesis =>
      rcases found _ _ holds with ⟨piece, isGood, sameThing, sameTokens⟩
      rcases inductionHypothesis with ⟨pieces, areGood, sameThings, sameLater⟩
      refine ⟨piece :: pieces, List.forall_mem_cons.2 ⟨isGood, areGood⟩, ?_, ?_⟩
      · rw [List.map_cons, sameThing, sameThings]
      · rw [List.flatMap_cons, sameTokens, sameLater]

theorem Row.map_lexeme {lexemes : List Lexeme} {tokens : List Token}
    (row : Row (fun lexeme tokens => Exists fun pos => tokens = [⟨pos, lexeme⟩]) lexemes tokens) :
    tokens.map Token.lexeme = lexemes := by
  induction row with
  | nil => rfl
  | cons single _ inductionHypothesis =>
      rcases single with ⟨pos, same⟩
      rw [same, List.map_append, inductionHypothesis]
      rfl

namespace Boundary

theorem space (text : Bytes) : Boundary (Bytes.ofText " " ++ text) :=
  cons text (by decide)

theorem series {Thing : Type} (text : Thing -> Bytes) (things : List Thing) :
    Boundary (things.flatMap fun thing => Bytes.ofText " " ++ text thing) := by
  cases things with
  | nil => exact nil
  | cons thing things =>
      rw [List.flatMap_cons, List.append_assoc]
      exact space _

end Boundary

namespace Spells

variable {left right text : Bytes} {first second property : List Token -> Prop}

theorem mono (spells : Spells text first) (weaker : forall tokens, first tokens -> second tokens) :
    Spells text second := by
  intro pos rest boundary
  rcases spells pos rest boundary with ⟨tokens, scanned, holds⟩
  exact ⟨tokens, scanned, weaker tokens holds⟩

theorem nil : Spells [] (· = []) := by
  intro pos rest boundary
  exact ⟨[], .nil _, rfl⟩

theorem lexeme {lexeme : Lexeme} (lexes : Lexes text lexeme) :
    Spells text fun tokens => Exists fun pos => tokens = [⟨pos, lexeme⟩] := by
  intro pos rest boundary
  exact ⟨_, .cons (Cursor.next_of_lexes lexes pos boundary) (.nil _), pos, rfl⟩

/-- Two texts in a row, if the second stops the last atom of the first. -/
theorem append (before : Spells left first) (after : Spells right second)
    (stops : Boundary right) :
    Spells (left ++ right) fun tokens =>
      Exists fun earlier => Exists fun later =>
        first earlier ∧ second later ∧ tokens = earlier ++ later := by
  intro pos rest boundary
  rcases before pos (right ++ rest) (stops.append boundary) with ⟨earlier, scanned, holds⟩
  rcases after (pos.after left) rest boundary with ⟨later, alsoScanned, alsoHolds⟩
  refine ⟨earlier ++ later, ?_, earlier, later, holds, alsoHolds, rfl⟩
  rw [List.append_assoc, Position.after_append]
  exact scanned.append alsoScanned

/-- A space before some tokens does not matter. -/
theorem space (spells : Spells text property)
    (nonempty : forall tokens, property tokens -> tokens ≠ []) :
    Spells (Bytes.ofText " " ++ text) property := by
  intro pos rest boundary
  rcases spells (pos.after (Bytes.ofText " ")) rest boundary with ⟨tokens, scanned, holds⟩
  refine ⟨tokens, ?_, holds⟩
  rw [Position.after_append, List.append_assoc]
  exact scanned.of_next_eq (Cursor.next_space pos _).symm (nonempty tokens holds)

theorem parenthesized (spells : Spells text property) :
    Spells (Node.parenthesized text) fun tokens =>
      Exists fun opening => Exists fun inside => Exists fun closing => property inside ∧
        tokens = ⟨opening, .opening⟩ :: (inside ++ [⟨closing, .closing⟩]) := by
  intro pos rest boundary
  rcases spells (pos.after [openParen]) (closeParen :: rest) (.cons rest (by decide)) with
    ⟨inside, scanned, holds⟩
  refine ⟨_, ?_, pos, inside, (pos.after [openParen]).after text, holds, rfl⟩
  have closed : Cursor.Scans ⟨(pos.after [openParen]).after text, closeParen :: rest⟩
      [⟨(pos.after [openParen]).after text, .closing⟩]
      ⟨((pos.after [openParen]).after text).after [closeParen], rest⟩ :=
    .cons (Cursor.next_closing _ _) (.nil _)
  have shape : Node.parenthesized text = [openParen] ++ (text ++ [closeParen]) := rfl
  rw [shape, Position.after_append, Position.after_append, List.append_assoc, List.append_assoc]
  exact .cons (Cursor.next_opening pos _) (scanned.append closed)

/-- Things in a row, each with a space before it. -/
theorem series {Thing : Type} {text : Thing -> Bytes} {property : Thing -> List Token -> Prop}
    {things : List Thing}
    (spells : forall thing, thing ∈ things -> Spells (text thing) (property thing))
    (nonempty : forall thing tokens, property thing tokens -> tokens ≠ []) :
    Spells (things.flatMap fun thing => Bytes.ofText " " ++ text thing) (Row property things) := by
  induction things with
  | nil => exact nil.mono fun tokens nothing => nothing ▸ .nil
  | cons thing things inductionHypothesis =>
      rcases List.forall_mem_cons.1 spells with ⟨one, others⟩
      have row := ((one.space (nonempty thing)).append (inductionHypothesis others)
        (Boundary.series text things))
      rw [List.flatMap_cons]
      apply row.mono
      rintro tokens ⟨earlier, later, holds, alsoHold, same⟩
      rw [same]
      exact .cons holds alsoHold

theorem spaced_cons (part : Bytes) (parts : List Bytes) :
    Bytes.spaced (part :: parts) = part ++ parts.flatMap fun part => Bytes.ofText " " ++ part := by
  induction parts generalizing part with
  | nil => exact (List.append_nil part).symm
  | cons next parts inductionHypothesis =>
      rw [Bytes.spaced, inductionHypothesis next, List.flatMap_cons, List.append_assoc]
      rfl

/-- Things in a row with spaces between them. -/
theorem spaced {Thing : Type} {text : Thing -> Bytes} {property : Thing -> List Token -> Prop}
    {things : List Thing}
    (spells : forall thing, thing ∈ things -> Spells (text thing) (property thing))
    (nonempty : forall thing tokens, property thing tokens -> tokens ≠ []) :
    Spells (Bytes.spaced (things.map text)) (Row property things) := by
  cases things with
  | nil => exact nil.mono fun tokens nothing => nothing ▸ .nil
  | cons thing things =>
      rcases List.forall_mem_cons.1 spells with ⟨one, others⟩
      rw [List.map_cons, spaced_cons, List.flatMap_map]
      apply (one.append (series others nonempty) (Boundary.series text things)).mono
      rintro tokens ⟨earlier, later, holds, alsoHold, same⟩
      rw [same]
      exact .cons holds alsoHold

/-- Lexemes that can be written are spelled by their spellings with spaces
between them. -/
theorem lexemes {lexemes : List Lexeme}
    (written : forall lexeme, lexeme ∈ lexemes -> Lexes lexeme.spelling lexeme) :
    Spells (Bytes.spaced (lexemes.map Lexeme.spelling))
      fun tokens => tokens.map Token.lexeme = lexemes := by
  refine (Spells.spaced (fun lexeme member => Spells.lexeme (written lexeme member)) ?_).mono
    fun tokens row => row.map_lexeme
  rintro lexeme tokens ⟨pos, same⟩
  rw [same]
  exact List.cons_ne_nil _ _

end Spells

end TailLisp
