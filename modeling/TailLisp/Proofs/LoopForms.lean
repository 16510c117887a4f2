import TailLisp.Proofs.Relocation
import TailLisp.Proofs.Subexpressions
import TailLisp.Proofs.Tiling

namespace TailLisp

/-!
Which loops are loops.

The reader decides whether a `loop` is one by looking at the tree of its last
expression.  In that tree some loops have become `let`s already, and the way out
leads through a `let`.  Here the question is asked of the text: `Reaches` follows
the last expression of a `begin` or of a `let` and the branches of an `if`, and
it never enters a `loop`.  Both answers agree, because a loop that has become a
`let` is one whose own last expression reaches no `recur`.

What a loop form is read as is then compared with the same text in which its
first word is `let`.  The two texts differ in length, so all places behind the
word differ, but the items are read from the same lexemes.
-/

open ByteClass Grammar

namespace Grammar

/-! ## The way to a recur -/

/-- From the tokens of an expression a `recur` form is reached by the way out. -/
inductive Reaches : List Token -> Prop
  | recur {pos word ending} {args : List Passage} :
      (forall part, part ∈ args -> Item (.code false) part.tokens part.tree) ->
      Reaches (⟨pos, .opening⟩ :: ⟨word, .word (.head .recur)⟩ ::
        (args.flatMap Passage.tokens ++ [⟨ending, .closing⟩]))
  | begin {pos word tokens ending} {init : List Passage} :
      (forall part, part ∈ init -> Item (.code false) part.tokens part.tree) ->
      Reaches tokens ->
      Reaches (⟨pos, .opening⟩ :: ⟨word, .word (.head .begin)⟩ ::
        (init.flatMap Passage.tokens ++ (tokens ++ [⟨ending, .closing⟩])))
  | consequent {pos word testTokens test tokens otherTokens other ending} :
      Item (.code false) testTokens test ->
      Reaches tokens ->
      Item (.code true) otherTokens other ->
      Reaches (⟨pos, .opening⟩ :: ⟨word, .word (.head .conditional)⟩ ::
        (testTokens ++ (tokens ++ (otherTokens ++ [⟨ending, .closing⟩]))))
  | alternative {pos word testTokens test otherTokens other tokens ending} :
      Item (.code false) testTokens test ->
      Item (.code true) otherTokens other ->
      Reaches tokens ->
      Reaches (⟨pos, .opening⟩ :: ⟨word, .word (.head .conditional)⟩ ::
        (testTokens ++ (otherTokens ++ (tokens ++ [⟨ending, .closing⟩]))))
  | once {pos word opening closing tokens ending} {bindings : List BindingPart}
      {init : List Passage} :
      (forall binding, binding ∈ bindings ->
        Item (.code false) binding.value.tokens binding.value.tree) ->
      (forall part, part ∈ init -> Item (.code false) part.tokens part.tree) ->
      Reaches tokens ->
      Reaches (⟨pos, .opening⟩ :: ⟨word, .word (.head (.scope .once))⟩ :: ⟨opening, .opening⟩ ::
        (bindings.flatMap BindingPart.tokens ++ ⟨closing, .closing⟩ ::
          (init.flatMap Passage.tokens ++ (tokens ++ [⟨ending, .closing⟩]))))

/-- What reaches a `recur` is an expression for a tail slot whose tree does. -/
theorem Reaches.exists_item {tokens : List Token} (reaches : Reaches tokens) :
    Exists fun tree => Item (.code true) tokens tree ∧ tree.reachesRecur = true := by
  induction reaches with
  | recur args => exact ⟨_, .recur args, rfl⟩
  | begin init _ inductionHypothesis =>
      rcases inductionHypothesis with ⟨last, item, found⟩
      refine ⟨_, .begin init item, ?_⟩
      rw [Node.reachesRecur, Node.lastReachesRecur_concat, found]
  | consequent test _ alternative inductionHypothesis =>
      rcases inductionHypothesis with ⟨tree, item, found⟩
      refine ⟨_, .conditional test item alternative, ?_⟩
      rw [Node.reachesRecur, found, Bool.true_or]
  | alternative test consequent _ inductionHypothesis =>
      rcases inductionHypothesis with ⟨tree, item, found⟩
      refine ⟨_, .conditional test consequent item, ?_⟩
      rw [Node.reachesRecur, found, Bool.or_true]
  | once bindings init _ inductionHypothesis =>
      rcases inductionHypothesis with ⟨last, item, found⟩
      refine ⟨_, .scope bindings init item, ?_⟩
      rw [ite_self, Node.reachesRecur, Node.lastReachesRecur_concat, found]

/-- A scope reaches a `recur` through its last expression if it is a `let`, and
never if it is a `loop`, whatever has become of it. -/
theorem reachesRecur_scope (mark : Mark) (kind : ScopeKind) (bindings : List (Reference × Tree))
    (init : List Tree) (last : Tree) :
    (Node.scope mark (if last.reachesRecur then kind else .once) bindings
      (init ++ [last])).reachesRecur = (kind == .once && last.reachesRecur) := by
  cases found : last.reachesRecur with
  | true => cases kind <;> simp [Node.reachesRecur, found]
  | false => simp [Node.reachesRecur, found]

theorem reachesRecur_of_atom {token : Token} {tree : Tree} (atom : token.atom? = some tree) :
    tree.reachesRecur = false := by
  unfold Token.atom? at atom
  split at atom
  case h_3 =>
      rcases Option.map_eq_some_iff.1 atom with ⟨contents, _, same⟩
      rw [← same]
      rfl
  all_goals cases atom
  all_goals rfl

/-- The tree of an expression in a tail slot tells whether its tokens reach a
`recur`. -/
theorem Item.reachesRecur_iff {tokens : List Token} {tree : Tree}
    (item : Item (.code true) tokens tree) : tree.reachesRecur = true ↔ Reaches tokens := by
  constructor
  · -- All expressions on the way out are in a tail slot again.
    intro found
    generalize inTail : Slot.code true = slot at item
    induction item with
    | atom atom =>
        rw [reachesRecur_of_atom atom] at found
        cases found
    | recur args _ => exact .recur args
    | begin init _ _ lastReaches =>
        cases inTail
        rw [Node.reachesRecur, Node.lastReachesRecur_concat] at found
        exact .begin init (lastReaches found rfl)
    | conditional test consequent alternative _ consequentReaches alternativeReaches =>
        cases inTail
        rw [Node.reachesRecur, Bool.or_eq_true] at found
        rcases found with found | found
        · exact .consequent test (consequentReaches found rfl) alternative
        · exact .alternative test consequent (alternativeReaches found rfl)
    | scope bindings init _ _ _ lastReaches =>
        rw [reachesRecur_scope, Bool.and_eq_true, beq_iff_eq] at found
        rcases found with ⟨once, found⟩
        subst once
        exact .once bindings init (lastReaches found rfl)
    | ticked _ _ =>
        subst inTail
        cases found
    | _ => cases found
  · intro reaches
    rcases reaches.exists_item with ⟨other, otherItem, found⟩
    have same := item.unique otherItem (rfl : tokens ++ [] = tokens ++ [])
    rw [same.2]
    exact found

/-! ## Loop forms -/

/-- A `loop` with its bindings and its body. -/
structure LoopForm where
  pos : Position
  word : Position
  opening : Position
  bindings : List BindingPart
  closing : Position
  init : List Passage
  last : Passage
  ending : Position
  boundItems : forall binding, binding ∈ bindings ->
    Item (.code false) binding.value.tokens binding.value.tree
  initItems : forall part, part ∈ init -> Item (.code false) part.tokens part.tree
  lastItem : Item (.code true) last.tokens last.tree

namespace LoopForm

variable (form : LoopForm)

/-- The tokens behind the first word. -/
def later : List Token :=
  ⟨form.opening, .opening⟩ :: (form.bindings.flatMap BindingPart.tokens ++
    ⟨form.closing, .closing⟩ :: (form.init.flatMap Passage.tokens ++
      (form.last.tokens ++ [⟨form.ending, .closing⟩])))

/-- The tokens of the form, with the word of either kind. -/
def tokens (kind : ScopeKind) : List Token :=
  ⟨form.pos, .opening⟩ :: ⟨form.word, .word (.head (.scope kind))⟩ :: form.later

/-- The scope of either kind with the bindings and the body of the form. -/
def tree (tail : Bool) (kind : ScopeKind) : Tree :=
  .scope ⟨form.pos, tail⟩ kind (form.bindings.map BindingPart.pair)
    (form.init.map Passage.tree ++ [form.last.tree])

/-- The kind of scope that the form is read as. -/
def kind : ScopeKind :=
  if form.last.tree.reachesRecur then .loop else .once

theorem kind_of_reaches (reaches : Reaches form.last.tokens) : form.kind = .loop :=
  if_pos (form.lastItem.reachesRecur_iff.2 reaches)

theorem kind_of_not_reaches (unreached : ¬ Reaches form.last.tokens) : form.kind = .once :=
  if_neg (unreached ∘ form.lastItem.reachesRecur_iff.1)

/-- No `recur` gets out of the form. -/
theorem reachesRecur_tree (tail : Bool) : (form.tree tail form.kind).reachesRecur = false :=
  reachesRecur_scope _ .loop _ _ _

/-- Under the word `let` the form is a `let`. -/
theorem item_once (tail : Bool) : Item (.code tail) (form.tokens .once) (form.tree tail .once) := by
  have item := @Item.scope tail form.pos form.word .once form.opening form.closing _ _ form.ending
    _ _ form.boundItems form.initItems form.lastItem
  rw [ite_self] at item
  exact item

end LoopForm

/-- What begins a plain list in code is not the word of a special form. -/
theorem not_admits_word {slot : Slot} {tail : Bool} {word : Position} {head : SpecialForm}
    {first : Passage} {others : List Passage} {rest remaining : List Token}
    (items : forall part, part ∈ first :: others -> Item slot part.tokens part.tree)
    (same : ⟨word, .word (.head head)⟩ :: rest =
      (first :: others).flatMap Passage.tokens ++ remaining) :
    ¬ (Slot.code tail).admits first.tokens = true := by
  have nonempty := (items first (by simp)).tokens_ne_nil
  rw [List.flatMap_cons, List.append_assoc] at same
  rw [← Slot.admits_append nonempty, ← same]
  exact Bool.false_ne_true

/-- An item that begins with the word `loop` is a loop form. -/
theorem Item.exists_loopForm {tail : Bool} {pos word : Position} {rest : List Token} {tree : Tree}
    (item : Item (.code tail)
      (⟨pos, .opening⟩ :: ⟨word, .word (.head (.scope .loop))⟩ :: rest) tree) :
    Exists fun form : LoopForm =>
      form.tokens .loop = ⟨pos, .opening⟩ :: ⟨word, .word (.head (.scope .loop))⟩ :: rest ∧
        tree = form.tree tail form.kind := by
  generalize whole : ⟨pos, Lexeme.opening⟩ :: ⟨word, .word (.head (.scope .loop))⟩ :: rest = tokens
    at item
  cases item with
  | @scope _ pos word kind opening closing tokens last ending bindings init bound inits item =>
      cases whole
      exact ⟨⟨_, _, _, _, _, _, ⟨_, _⟩, _, bound, inits, item⟩, rfl, rfl⟩
  | list admitted items => exact (not_admits_word items (List.cons.inj whole).2 admitted).elim
  | dotted admitted items _ => exact (not_admits_word items (List.cons.inj whole).2 admitted).elim
  | _ => cases whole

/-! ## The text of a loop form -/

/-- The text of a scope: a word of either kind between a gap and the rest. -/
def scopeText (kind : ScopeKind) (gap rest : Bytes) : Bytes :=
  openParen :: (gap ++ (kind.name ++ rest))

theorem isLexeme_scopeKind (kind : ScopeKind) :
    IsLexeme kind.name (.word (.head (.scope kind))) := by
  cases kind <;> exact .atom (by decide) (by decide) (by decide) rfl

/-- The text of a scope is scanned to a parenthesis, the word and the pieces of
the rest. -/
theorem scans_scopeText (kind : ScopeKind) {gap : Bytes} {pos : Position} {later : List Piece}
    (isGap : Blank.Gap gap) (tiled : Tiled pos later [])
    (boundary : Boundary (later.flatMap Piece.bytes)) :
    Exists fun others => Exists fun reached =>
      (Cursor.ofText (scopeText kind gap (later.flatMap Piece.bytes))).Scans others
        ⟨reached, []⟩ ∧
      others.map Token.lexeme =
        .opening :: .word (.head (.scope kind)) :: later.map (Token.lexeme ∘ Piece.token) := by
  have opened := @Cursor.next_of_isLexeme [] _ (gap ++ (kind.name ++ later.flatMap Piece.bytes)) _
    .nil .opening nofun Position.start
  have named := Cursor.next_of_isLexeme isGap (isLexeme_scopeKind kind) (fun _ => boundary)
    (Position.start.after [openParen])
  rcases tiled.replace_pos ((Position.start.after [openParen]).after (gap ++ kind.name)) with
    ⟨others, othersTiled, sameBytes, sameLexemes⟩
  have rest := Cursor.scans_of_tiled othersTiled
  rw [List.append_nil, sameBytes] at rest
  refine ⟨_, _, .cons opened (.cons named rest), ?_⟩
  rw [List.map_cons, List.map_cons, List.map_map]
  exact congrArg (_ :: _ :: ·) sameLexemes

/-- From a cursor on, the form is written with the gap before its word and with
the rest behind it, up to its closing parenthesis. -/
def LoopForm.Written (form : LoopForm) (cursor : Cursor) (gap rest : Bytes) : Prop :=
  Exists fun before => Exists fun after =>
    cursor.rest = before ++ (scopeText .loop gap rest ++ after) ∧
    form.pos = cursor.pos.after before ∧
    form.word = cursor.pos.after (before ++ openParen :: gap) ∧
    form.ending.advance closeParen = cursor.pos.after (before ++ scopeText .loop gap rest)

namespace LoopForm

variable {form : LoopForm} {opening word : Piece} {later : List Piece}

theorem exists_later_eq (form : LoopForm) :
    Exists fun before => form.later = before ++ [⟨form.ending, .closing⟩] := by
  refine ⟨⟨form.opening, .opening⟩ :: (form.bindings.flatMap BindingPart.tokens ++
    ⟨form.closing, .closing⟩ :: (form.init.flatMap Passage.tokens ++ form.last.tokens)), ?_⟩
  simp [LoopForm.later]

/-- The pieces of a loop form give its text. -/
theorem written_of_tiled {cursor : Cursor} {before after : Bytes}
    (tiled : Tiled (cursor.pos.after before) (opening :: word :: later) after)
    (tokens : (opening :: word :: later).map Piece.token = form.tokens .loop)
    (whole : cursor.rest = before ++ ((opening :: word :: later).flatMap Piece.bytes ++ after)) :
    form.Written cursor word.gap (later.flatMap Piece.bytes) := by
  rcases List.cons.inj tokens with ⟨openingToken, tokens⟩
  rcases List.cons.inj tokens with ⟨wordToken, laterTokens⟩
  rcases form.exists_later_eq with ⟨_, closed⟩
  rw [closed] at laterTokens
  rcases List.map_eq_append_iff.1 laterTokens with ⟨init, last, split, _, lastToken⟩
  rcases List.map_eq_singleton_iff.1 lastToken with ⟨closing, single, closingToken⟩
  subst single
  cases tiled with
  | cons _ openingLexeme _ openingPlace tiled =>
      cases tiled with
      | cons _ wordLexeme _ wordPlace tiled =>
          rcases tiled.lies split with ⟨_, closingLexeme, _, closingPlace⟩
          rw [openingToken] at openingLexeme openingPlace
          rw [wordToken] at wordLexeme wordPlace
          rw [closingToken] at closingLexeme closingPlace
          have openingText := openingLexeme.eq_openParen
          have wordText : word.text = ScopeKind.name .loop := wordLexeme.eq_name
          have closingText := closingLexeme.eq_closeParen
          rw [Piece.bytes, openingText] at wordPlace closingPlace
          refine ⟨before ++ opening.gap, after, ?_, ?_, ?_, ?_⟩
          · simp [whole, scopeText, Piece.bytes, openingText, wordText]
          · rw [Position.after_append]
            exact openingPlace
          · refine wordPlace.trans ?_
            simp only [← Position.after_append, List.append_assoc, List.singleton_append]
          · refine (congrArg (Position.after · [closeParen]) closingPlace).trans ?_
            rw [split]
            simp only [← Position.after_append, List.flatMap_append, List.flatMap_singleton,
              Piece.bytes, closingText, wordText, scopeText, List.append_assoc, List.cons_append,
              List.nil_append]

/-- The same pieces with another word are scanned by themselves. -/
theorem scans_once_of_tiled {pos : Position} {after : Bytes}
    (tiled : Tiled pos (opening :: word :: later) after)
    (tokens : (opening :: word :: later).map Piece.token = form.tokens .loop) :
    Exists fun others => Exists fun reached =>
      (Cursor.ofText (scopeText .once word.gap (later.flatMap Piece.bytes))).Scans others
        ⟨reached, []⟩ ∧ others.map Token.lexeme = (form.tokens .once).map Token.lexeme := by
  rcases List.cons.inj tokens with ⟨_, tokens⟩
  rcases List.cons.inj tokens with ⟨wordToken, laterTokens⟩
  cases tiled with
  | cons _ _ _ _ tiled =>
      cases tiled with
      | cons wordGap wordLexeme wordStops _ tiled =>
          rw [wordToken] at wordLexeme
          have wordText : word.text = ScopeKind.name .loop := wordLexeme.eq_name
          -- The new word ends where the old one did, in front of a boundary.
          have boundary : Boundary (later.flatMap Piece.bytes) := by
            refine (wordStops ?_).of_append
            rw [wordText]
            decide
          rcases scans_scopeText .once wordGap (tiled.replace_rest .nil) boundary with
            ⟨others, reached, scanned, lexemes⟩
          refine ⟨others, reached, scanned, ?_⟩
          rw [lexemes, ← List.map_map, laterTokens]
          rfl

/-- A loop form in a text is written somewhere there.  Its text with the word
`let` is scanned to the tokens of a `let`, at other places. -/
theorem exists_written {cursor ending : Cursor} {tokens : List Token}
    (scanned : cursor.Scans tokens ending) (inside : form.tokens .loop <:+: tokens) :
    Exists fun gap => Exists fun rest => form.Written cursor gap rest ∧
      Exists fun move : Position -> Position => Exists fun reached : Position =>
        (Cursor.ofText (scopeText .once gap rest)).Scans
          ((form.tokens .once).map (Token.relocate move)) ⟨reached, []⟩ := by
  rcases scanned.exists_tiled with ⟨pieces, tiled, sameTokens, whole, _⟩
  have distinct : (tokens.map Token.pos).Nodup := by
    rw [← sameTokens, List.map_map]
    exact tiled.nodup_pos
  have formDistinct : ((form.tokens .once).map Token.pos).Nodup :=
    (inside.sublist.map Token.pos).nodup distinct
  rcases inside with ⟨before, after, same⟩
  rw [← sameTokens] at same
  rcases List.map_eq_append_iff.1 same.symm with ⟨pieces, afterPieces, split, first, _⟩
  rcases List.map_eq_append_iff.1 first with ⟨beforePieces, formPieces, splitFirst, _, formTokens⟩
  rcases List.map_eq_cons_iff.1 formTokens with ⟨opening, behind, splitOpening, _, rest⟩
  rcases List.map_eq_cons_iff.1 rest with ⟨word, later, splitWord, _, _⟩
  subst splitWord
  subst splitOpening
  subst splitFirst
  subst split
  have formTiled := tiled.of_append.1.of_append.2
  refine ⟨word.gap, later.flatMap Piece.bytes, ?_, ?_⟩
  · refine written_of_tiled formTiled formTokens ?_
    simp [whole]
  · rcases scans_once_of_tiled formTiled formTokens with ⟨others, reached, again, alike⟩
    rcases Token.exists_relocate formDistinct alike with ⟨move, moved⟩
    exact ⟨move, reached, moved ▸ again⟩

/-! ## Reading the form as a let -/

/-- The text of the form with the word `let` is read by the table, which gets no
new names, as the `let` with the bindings and the body of the form.  In any slot
it is that `let` up to places, and it is the same as the one in the form's own
slot. -/
def ReadsAsLet (form : LoopForm) (table : SymbolTable) (cursor : Cursor) (tail : Bool) : Prop :=
  Exists fun gap => Exists fun rest =>
    form.Written cursor gap rest ∧ forall other : Bool, Exists fun again => Exists fun ending =>
    table.readItem (.code other) (.ofText (scopeText .once gap rest)) =
      { outcome := .ok again, table := table, cursor := ending } ∧
    ending.atEnd = true ∧
    again.unplaced = ((form.tree other .once).map table.resolve).unplaced ∧
    ((form.tree tail .once).map table.resolve).same again = true ∧
    (table.ready = true -> other = false ->
      table.parseForms (scopeText .once gap rest) =
        .ok { outcome := .ok [again], table := table, cursor := ending })

theorem readsAsLet {table : SymbolTable} {cursor ending : Cursor} {tokens : List Token}
    (scanned : cursor.Scans tokens ending) (inside : form.tokens .loop <:+: tokens) (tail : Bool)
    (held : table.Holds (form.tree tail .once)) : form.ReadsAsLet table cursor tail := by
  rcases exists_written scanned inside with ⟨gap, rest, written, move, reached, again⟩
  refine ⟨gap, rest, written, ?_⟩
  intro other
  have item := (form.item_once other).relocate move
  have names : table.insertAll ((form.tree other .once).relocate move).names = table := by
    apply SymbolTable.insertAll_of_held
    rw [Node.names_relocate]
    exact held
  have unplaced : (((form.tree other .once).relocate move).map table.resolve).unplaced =
      ((form.tree other .once).map table.resolve).unplaced := by
    rw [← Node.relocate_map, Node.unplaced_relocate]
  refine ⟨((form.tree other .once).relocate move).map table.resolve, ⟨reached, []⟩, ?_, rfl,
    unplaced, ?_, ?_⟩
  · rw [SymbolTable.readItem_of_item again item, names]
  · rw [Node.same_iff_bare_eq, Node.bare_eq_of_unplaced_eq unplaced]
    rfl
  · intro ready outside
    subst outside
    rw [SymbolTable.parseForms_of_item ready item again rfl, names]
    rfl

end LoopForm

/-! ## Loops in what is read -/

/-- Every loop form in an expression is what its text says.  The node that is
built from it is a loop if the last expression of the body reaches a `recur`, and
else the `let` with the same bindings and the same body, which is also what the
text gives with the word `let`.  In both cases no `recur` gets out of it. -/
def Expression.LoopsDecided (whole : Expression) (table : SymbolTable) (cursor : Cursor) : Prop :=
  forall tail part pos word rest,
    Occurs whole
      { tokens := ⟨pos, .opening⟩ :: ⟨word, .word (.head (.scope .loop))⟩ :: rest
        tree := part
        tail } ->
    Exists fun form : LoopForm =>
      form.tokens .loop = ⟨pos, .opening⟩ :: ⟨word, .word (.head (.scope .loop))⟩ :: rest ∧
      Node.Stands whole.tail (whole.tree.map table.resolve) tail (part.map table.resolve) ∧
      (Reaches form.last.tokens -> part = form.tree tail .loop) ∧
      (¬ Reaches form.last.tokens -> part = form.tree tail .once) ∧
      (part.map table.resolve).reachesRecur = false ∧
      form.ReadsAsLet table cursor tail

theorem Expression.IsItem.loopsDecided {whole : Expression} {table : SymbolTable}
    {cursor ending : Cursor} {tokens : List Token} (item : whole.IsItem)
    (held : table.Holds whole.tree) (scanned : cursor.Scans tokens ending)
    (inside : whole.tokens <:+: tokens) : whole.LoopsDecided table cursor := by
  intro tail part pos word rest occurs
  rcases (occurs.isItem item).exists_loopForm with ⟨form, sameTokens, sameTree⟩
  change part = form.tree tail form.kind at sameTree
  have formInside := occurs.tokens_infix.trans inside
  have partHeld : table.Holds part := held.of_subset occurs.stands.symbols_subset
  have formHeld : table.Holds (form.tree tail .once) := by
    rw [sameTree] at partHeld
    exact partHeld
  refine ⟨form, sameTokens, occurs.stands.map _, ?_, ?_, ?_,
    form.readsAsLet scanned (sameTokens ▸ formInside) tail formHeld⟩
  · intro reaches
    rw [sameTree, form.kind_of_reaches reaches]
  · intro unreached
    rw [sameTree, form.kind_of_not_reaches unreached]
  · rw [Node.reachesRecur_map, sameTree]
    exact form.reachesRecur_tree tail

end Grammar

namespace SymbolTable

/-- Loops are decided by the text.  What is read as an item, and each form of a
program, is the tree of an expression in the text, and every loop form inside
that expression is a loop or a `let` as its last expression demands. -/
theorem loops_decided (table : SymbolTable) :
    (forall cursor node, (table.readItem (.code false) cursor).outcome = .ok node ->
      Exists fun whole : Expression =>
        whole.IsItem ∧ whole.tail = false ∧
        cursor.Scans whole.tokens (table.readItem (.code false) cursor).cursor ∧
        node = whole.tree.map (table.readItem (.code false) cursor).table.resolve ∧
        whole.LoopsDecided (table.readItem (.code false) cursor).table cursor) ∧
    (forall text result forms, table.parseForms text = .ok result -> result.outcome = .ok forms ->
      Exists fun wholes : List Expression =>
        (Exists fun pos => Exists fun after => (Cursor.ofText text).tokens =
          (wholes.flatMap fun whole => whole.tokens, .finish pos, after)) ∧
        forms = wholes.map (fun whole => whole.tree.map result.table.resolve) ∧
        forall whole, whole ∈ wholes -> whole.IsItem ∧ whole.tail = false ∧
          whole.LoopsDecided result.table (.ofText text)) := by
  constructor
  · intro cursor node done
    rcases item_of_readItem done with ⟨tokens, tree, scanned, item, filled, same⟩
    have whole : Expression.IsItem ⟨⟨tokens, tree⟩, false⟩ := item
    have held : (table.readItem (.code false) cursor).table.Holds tree := by
      rw [filled]
      exact holds_insertAll_names table tree
    refine ⟨⟨⟨tokens, tree⟩, false⟩, whole, rfl, scanned, ?_, ?_⟩
    · rw [filled]
      exact same
    · exact whole.loopsDecided held scanned List.infix_rfl
  · intro text result forms parsed done
    rcases parts_of_parseForms parsed done with
      ⟨ready, parts, ending, nonempty, items, scanned, ended⟩
    cases parsed.symm.trans (parseForms_of_parts ready nonempty items scanned ended)
    cases done
    refine ⟨parts.map (Passage.inCode false), ?_, ?_, ?_⟩
    · rw [List.flatMap_map]
      exact Cursor.tokens_eq_finish_iff.2 ⟨ending, scanned, ended⟩
    · rw [List.map_map]
      rfl
    · intro whole member
      rcases List.mem_map.1 member with ⟨part, inside, same⟩
      subst same
      have item : (part.inCode false).IsItem := items part inside
      exact ⟨item, rfl, item.loopsDecided (holds_insertAll table inside) scanned
        (infix_flatMap inside)⟩

/-- A loop around a loop: the inner one keeps its `recur` for itself, and the
outer one is read as a `let`. -/
theorem loops_decided_nested :
    let text := Bytes.ofText "(loop () (loop () (recur)))"
    let read := empty.prepare.readItem (.code false) (.ofText text)
    Exists fun node => Exists fun outer => Exists fun inner =>
      read.outcome = .ok node ∧
      LoopForm.tokens outer .loop = (Cursor.ofText text).tokens.1 ∧
      ¬ Reaches outer.last.tokens ∧
      node = (outer.tree false .once).map read.table.resolve ∧
      outer.ReadsAsLet read.table (.ofText text) false ∧
      LoopForm.tokens inner .loop <:+: outer.tokens .loop ∧
      Reaches inner.last.tokens := by
  have scanned : (Cursor.ofText (Bytes.ofText "(loop () (loop () (recur)))")).Scans _
      ⟨⟨1, 27, 27⟩, []⟩ :=
    .cons rfl (.cons rfl (.cons rfl (.cons rfl (.cons rfl (.cons rfl (.cons rfl (.cons rfl
      (.cons rfl (.cons rfl (.cons rfl (.cons rfl (.cons rfl (.nil _)))))))))))))
  have again : Item (.code true) _ _ :=
    @Item.recur ⟨1, 18, 18⟩ ⟨1, 19, 19⟩ ⟨1, 24, 24⟩ [] nofun
  have inner : Item (.code true) _ _ :=
    @Item.scope true ⟨1, 9, 9⟩ ⟨1, 10, 10⟩ .loop ⟨1, 15, 15⟩ ⟨1, 16, 16⟩ _ _ ⟨1, 25, 25⟩ [] [] nofun
      nofun again
  have outer : Item (.code false) _ _ :=
    @Item.scope false ⟨1, 0, 0⟩ ⟨1, 1, 1⟩ .loop ⟨1, 6, 6⟩ ⟨1, 7, 7⟩ _ _ ⟨1, 26, 26⟩ [] [] nofun
      nofun inner
  have read := @readItem_of_item empty.prepare _ _ _ _ _ scanned outer
  rcases (loops_decided empty.prepare).1 _ _ (congrArg Interned.outcome read) with
    ⟨⟨⟨tokens, tree⟩, tail⟩, item, outside, itemScanned, named, decided⟩
  subst outside
  rcases Cursor.isPrefix_tokens_iff.2 ⟨_, itemScanned⟩ with ⟨_, itemFirst⟩
  have all := congrArg Prod.fst scanned.tokens_eq
  rcases Item.unique item outer (itemFirst.trans all) with ⟨sameTokens, sameTree⟩
  change tokens = _ at sameTokens
  change tree = _ at sameTree
  subst sameTokens
  subst sameTree
  rcases decided false _ _ _ _ .self with ⟨outerForm, outerTokens, _, outerLoop, outerLet, _, asLet⟩
  have unreached : ¬ Reaches outerForm.last.tokens := by
    intro reaches
    have kept := (Node.scope.inj (outerLoop reaches)).2.1
    exact absurd kept (by decide)
  have inside : Occurs _ ⟨⟨_, _⟩, true⟩ :=
    .within (@Consists.scope false ⟨1, 0, 0⟩ ⟨1, 1, 1⟩ .loop ⟨1, 6, 6⟩ ⟨1, 7, 7⟩ ⟨1, 26, 26⟩ [] []
      ⟨_, _⟩) (List.forall_mem_singleton.2 inner) (List.mem_singleton.2 rfl) .self
  rcases decided true _ _ _ _ inside with ⟨innerForm, innerTokens, _, _, innerLet, _⟩
  have reached : Reaches innerForm.last.tokens := by
    by_contra unreached
    have kept := (Node.scope.inj (innerLet unreached)).2.1
    exact absurd kept (by decide)
  rcases Cursor.tokens_eq_finish_iff.2 ⟨_, scanned, rfl⟩ with ⟨_, _, finished⟩
  refine ⟨_, outerForm, innerForm, congrArg Interned.outcome read, ?_, unreached, ?_, asLet, ?_,
    reached⟩
  · exact outerTokens.trans (congrArg Prod.fst finished).symm
  · exact named.trans (congrArg (Node.map _) (outerLet unreached))
  · rw [innerTokens, outerTokens]
    exact inside.tokens_infix

end SymbolTable

end TailLisp
