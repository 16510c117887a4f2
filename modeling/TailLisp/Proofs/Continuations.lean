import TailLisp.Proofs.Advancing
import TailLisp.Proofs.Printing

namespace TailLisp

/-!
What can follow a text.

A text that fails may still be the beginning of a program.  Whether it is one
depends on what the reader refused.  A refused token spoils the text for good:
on a line below it nothing can be written that makes a program of the two.  If
only the end of the text was refused, a few tokens close all open forms.

The end of a text is read behind the newest expression of a body as any other
token would be, and the expression loses its tail position by it.  A text that
breaks off behind a `recur` is therefore blamed for a `recur` outside tail
position, although a closing parenthesis is all that is missing.
-/

open ByteClass Grammar

/-! ## More text behind a text -/

theorem Boundary.newline (text : Bytes) : Boundary (ByteClass.newline :: text) :=
  .cons text (by decide)

/-- Pieces that lie in front of a rest lie in front of a longer one too. -/
theorem Tiled.append_rest {pos : Position} {pieces : List Piece} {rest : Bytes}
    (tiled : Tiled pos pieces rest) {other : Bytes} (boundary : Boundary other) :
    Tiled pos pieces (rest ++ other) := by
  induction tiled with
  | nil => exact .nil
  | @cons pos piece pieces rest isGap isLexeme stops place _ inductionHypothesis =>
      refine .cons isGap isLexeme ?_ place inductionHypothesis
      intro constituents
      rw [← List.append_assoc]
      exact (stops constituents).append boundary

/-- The tokens of a text are found in front of more text, if that begins with a
boundary. -/
theorem Cursor.Scans.append_rest {cursor ending : Cursor} {tokens : List Token}
    (scanned : cursor.Scans tokens ending) {other : Bytes} (boundary : Boundary other) :
    Scans ⟨cursor.pos, cursor.rest ++ other⟩ tokens ⟨ending.pos, ending.rest ++ other⟩ := by
  rcases scanned.exists_tiled with ⟨pieces, tiled, sameTokens, whole, reached⟩
  have again := Cursor.scans_of_tiled (tiled.append_rest boundary)
  rwa [sameTokens, ← List.append_assoc, ← whole, ← reached] at again

namespace Reader

variable {slot : Slot} {cursor ending : Cursor} {state : State} {around : List Hole}

theorem ComesTo.append_rest (comes : ComesTo slot cursor state around ending) {other : Bytes}
    (boundary : Boundary other) :
    ComesTo slot ⟨cursor.pos, cursor.rest ++ other⟩ state around
      ⟨ending.pos, ending.rest ++ other⟩ := by
  rcases comes with ⟨parts, tokens, items, scanned, advanced⟩
  exact ⟨parts, tokens, items, scanned.append_rest boundary, advanced⟩

/-- A refused token is the fault of the text. -/
theorem fault_of_refused_token (comes : ComesTo slot cursor state around ending) {token : Token}
    {after : Cursor} {fault : Fault} (found : ending.next = (.token token, after))
    (refused : state.step token = .error fault) : (readAll slot cursor).fault = some fault := by
  rcases comes with ⟨parts, tokens, items, scanned, advanced⟩
  rcases scanned.of_append with ⟨middle, first, second⟩
  have failed : (read slot middle).outcome = .error fault := by
    rcases advanced.resume_eq second with ⟨names, same⟩
    change ((Progress.reading (.start slot) []).resume middle).outcome = _
    rw [same]
    exact (State.Refuses.token found refused).resume_outcome around
  have stopped := readAll_of_error failed
  by_cases single : parts = []
  · subst single
    cases first
    rw [stopped]
  · have more := (second.append (.cons found (.nil _))).not_atEnd
      (List.append_ne_nil_of_right_ne_nil _ (List.cons_ne_nil _ _))
    rw [readAll_of_parts_append single items first more, stopped]
    rfl

/-- A refused token is the fault of the text whatever follows on the line below. -/
theorem refused_token_is_final (comes : ComesTo slot cursor state around ending) {token : Token}
    {after : Cursor} {fault : Fault} (found : ending.next = (.token token, after))
    (refused : state.step token = .error fault) {other : Bytes} (boundary : Boundary other) :
    (readAll slot ⟨cursor.pos, cursor.rest ++ other⟩).fault = some fault := by
  have alone : ending.Scans [token] after := .cons found (.nil _)
  cases alone.append_rest boundary with
  | cons foundAgain _ =>
      exact fault_of_refused_token (comes.append_rest boundary) foundAgain refused

end Reader

/-! ## Closing what is open -/

/-- Tokens with these lexemes complete the form after the action, wherever they
stand, and each of the lexemes can be written. -/
structure Action.ClosedBy (action : Action) (lexemes : List Lexeme) : Prop where
  written : forall lexeme, lexeme ∈ lexemes -> Lexes lexeme.spelling lexeme
  completes : forall tokens, tokens.map Token.lexeme = lexemes ->
    Exists fun tree => Exists fun names => action.Completes tokens tree names

namespace Action.ClosedBy

theorem complete (tree : Tree) : ClosedBy (.settle (.complete tree)) [] where
  written := nofun
  completes := by
    intro tokens nothing
    rw [List.map_eq_nil_iff.1 nothing]
    exact ⟨tree, [], .complete tree⟩

/-- A token that the state takes, and what closes the form behind it. -/
theorem step {state : State} {lexeme : Lexeme} {lexemes : List Lexeme}
    (lexes : Lexes lexeme.spelling lexeme)
    (closed : forall pos, Exists fun step =>
      state.step ⟨pos, lexeme⟩ = .ok step ∧ step.action.ClosedBy lexemes) :
    ClosedBy (.settle (.waiting state)) (lexeme :: lexemes) where
  written := by
    rcases closed .start with ⟨_, _, later⟩
    exact List.forall_mem_cons.2 ⟨lexes, later.written⟩
  completes := by
    intro tokens same
    rcases List.map_eq_cons_iff.1 same with ⟨⟨pos, other⟩, rest, whole, sameLexeme, sameRest⟩
    cases sameLexeme
    rcases closed pos with ⟨step, stepped, later⟩
    rcases later.completes rest sameRest with ⟨tree, names, completed⟩
    rw [whole]
    exact ⟨tree, _, .wait stepped completed⟩

/-- A form that is complete. -/
theorem closing (tree : Tree) (otherwise : SyntaxError) :
    ClosedBy (.settle (.waiting (.closing tree otherwise))) [.closing] :=
  step Lexes.closing fun _ => ⟨.complete tree, rfl, complete tree⟩

/-- A series with an expression can be closed at once. -/
theorem series (kind : SeriesKind) (pos : Position) (newest : Tree) (older : List Tree) :
    ClosedBy (.settle (.waiting (.series ⟨kind, pos, newest :: older⟩))) [.closing] := by
  have nonempty : (newest :: older).reverse.isEmpty = false := by simp
  have closes : Exists fun tree => Series.close ⟨kind, pos, newest :: older⟩ = .ok tree := by
    cases kind with
    | elements slot => exact ⟨_, rfl⟩
    | args => exact ⟨_, rfl⟩
    | body form =>
        cases form with
        | begin tail => exact ⟨_, rfl⟩
        | scope kind tail bindings =>
            simp only [Series.close, BodyForm.close, nonempty]
            exact ⟨_, rfl⟩
        | lambda name params =>
            simp only [Series.close, BodyForm.close, nonempty]
            exact ⟨_, rfl⟩
  rcases closes with ⟨tree, closed⟩
  refine step Lexes.closing fun place => ⟨.complete tree, ?_, complete tree⟩
  change (Series.close ⟨kind, pos, newest :: older⟩).map Step.complete = _
  rw [closed]
  rfl

/-- A series without expressions gets one first. -/
theorem newSeries (kind : SeriesKind) (pos : Position) :
    ClosedBy (.settle (.waiting (.series ⟨kind, pos, []⟩))) [.integer 0, .closing] := by
  refine step (Lexes.integer 0) fun place =>
    ⟨Hole.fillAtom (.item ⟨kind, pos, []⟩) (.integer (.plain place) 0), ?_,
      series kind pos (.integer (.plain place) 0) []⟩
  cases kind <;> rfl

/-- An operand is filled with a number. -/
theorem operand {hole : Hole} {ifClosed : SyntaxError} {lexemes : List Lexeme}
    (closed : forall part, ClosedBy (.settle (hole.fill part)) lexemes) :
    ClosedBy (.settle (.waiting (.operand hole ifClosed))) (.integer 0 :: lexemes) :=
  step (Lexes.integer 0) fun place =>
    ⟨hole.fillAtom (.integer (.plain place) 0), rfl, closed (.integer (.plain place) 0)⟩

theorem bindings (head : ScopeHead) :
    ClosedBy (.settle (.waiting (.bindings head))) [.closing, .integer 0, .closing] :=
  step Lexes.closing fun _ => ⟨.wait (State.scopeBody head), rfl, newSeries _ _⟩

theorem parameters (pos : Position) (name : Option Bytes) (params : List Bytes) :
    ClosedBy (.settle (.waiting (.parameters pos name params))) [.closing, .integer 0, .closing] :=
  step Lexes.closing fun _ => ⟨.wait (State.lambdaBody pos name params), rfl, newSeries _ _⟩

theorem bindingEnd (head : ScopeHead) (name : Bytes) (value : Tree) :
    ClosedBy (.settle (.waiting (.bindingEnd head name value)))
      [.closing, .closing, .integer 0, .closing] :=
  step Lexes.closing fun _ => ⟨_, rfl, bindings _⟩

end Action.ClosedBy

/-- What closes a form whose hole is filled does not depend on what fills it. -/
theorem Action.ClosedBy.exists_of_hole (hole : Hole) :
    Exists fun lexemes => forall part, ClosedBy (.settle (hole.fill part)) lexemes := by
  cases hole with
  | whole slot => exact ⟨[], complete⟩
  | ticked inCode pos => cases inCode <;> exact ⟨[], fun part => complete _⟩
  | item items => exact ⟨[.closing], fun part => series _ _ part _⟩
  | dotted slot pos items => exact ⟨[.closing], fun part => closing _ _⟩
  | quoted pos => exact ⟨[.closing], fun part => closing _ _⟩
  | defined pos name => exact ⟨[.closing], fun part => closing _ _⟩
  | ifAlternative pos tail test consequent => exact ⟨[.closing], fun part => closing _ _⟩
  | ifConsequent pos tail test => exact ⟨_, fun part => operand fun alternative => closing _ _⟩
  | ifTest pos tail =>
      exact ⟨_, fun part => operand fun consequent => operand fun alternative => closing _ _⟩
  | bound head name => exact ⟨_, fun part => bindingEnd head name part⟩

/-- Every unfinished form can be closed. -/
theorem Action.ClosedBy.exists_of_state (state : State) :
    Exists fun lexemes => ClosedBy (.settle (.waiting state)) lexemes := by
  have name : Lexes (Lexeme.spelling (.symbol (Bytes.ofText "x"))) (.symbol (Bytes.ofText "x")) :=
    .of_atom (by decide) (by decide) (by decide) rfl
  cases state with
  | operand hole ifClosed =>
      rcases exists_of_hole hole with ⟨lexemes, closed⟩
      exact ⟨_, operand closed⟩
  | opened slot pos =>
      refine ⟨_, step Lexes.closing fun place => ⟨.complete (.empty (.plain pos)), ?_, complete _⟩⟩
      cases slot <;> rfl
  | series items =>
      rcases items with ⟨kind, pos, _ | ⟨newest, older⟩⟩
      · exact ⟨_, newSeries kind pos⟩
      · exact ⟨_, series kind pos newest older⟩
  | closing tree otherwise => exact ⟨_, closing tree otherwise⟩
  | definition pos =>
      exact ⟨_, step name fun place => ⟨_, rfl, operand fun part => closing _ _⟩⟩
  | scopeHead head => exact ⟨_, step Lexes.opening fun place => ⟨_, rfl, bindings head⟩⟩
  | bindings head => exact ⟨_, bindings head⟩
  | bindingName head =>
      exact ⟨_, step name fun place => ⟨_, rfl, operand fun part => bindingEnd head _ part⟩⟩
  | bindingEnd head label value => exact ⟨_, bindingEnd head label value⟩
  | lambdaHead pos => exact ⟨_, step Lexes.opening fun place => ⟨_, rfl, parameters pos none []⟩⟩
  | namedLambdaHead pos label =>
      exact ⟨_, step Lexes.opening fun place => ⟨_, rfl, parameters pos (some label) []⟩⟩
  | parameters pos label params => exact ⟨_, parameters pos label params⟩

/-- Some lexemes finish the reading, wherever their tokens stand. -/
structure Progress.FinishedBy (progress : Progress) (lexemes : List Lexeme) : Prop where
  written : forall lexeme, lexeme ∈ lexemes -> Lexes lexeme.spelling lexeme
  advances : forall tokens, tokens.map Token.lexeme = lexemes ->
    Exists fun tree => progress.Advances tokens (.finished tree)

/-- What closes a form is followed by what closes the forms around it. -/
theorem Action.ClosedBy.finishedBy {action : Action} {lexemes outer : List Lexeme}
    {around : List Hole} (closed : action.ClosedBy lexemes)
    (finished : forall tree, ((Filled.complete tree).settle around).FinishedBy outer) :
    (action.apply around).FinishedBy (lexemes ++ outer) where
  written := by
    exact List.forall_mem_append.2 ⟨closed.written, (finished (.empty (.plain .start))).written⟩
  advances := by
    intro tokens same
    rcases List.map_eq_append_iff.1 same with ⟨first, second, whole, sameFirst, sameSecond⟩
    rcases closed.completes first sameFirst with ⟨part, names, completed⟩
    rcases (finished part).advances second sameSecond with ⟨tree, advanced⟩
    rw [whole]
    exact ⟨tree, (completed.advances around).append advanced⟩

/-- The forms around a completed one can be closed one after the other. -/
theorem Filled.exists_finishedBy (around : List Hole) :
    Exists fun lexemes => forall tree, ((Filled.complete tree).settle around).FinishedBy lexemes := by
  induction around with
  | nil =>
      refine ⟨[], fun tree => ⟨nofun, fun tokens nothing => ⟨tree, ?_⟩⟩⟩
      rw [List.map_eq_nil_iff.1 nothing]
      exact .nil _
  | cons hole around inductionHypothesis =>
      rcases Action.ClosedBy.exists_of_hole hole with ⟨first, closed⟩
      rcases inductionHypothesis with ⟨outer, finished⟩
      exact ⟨first ++ outer, fun tree => (closed tree).finishedBy finished⟩

/-- Every reading can be finished. -/
theorem Progress.exists_finishedBy (state : State) (around : List Hole) :
    Exists fun lexemes => (Progress.reading state around).FinishedBy lexemes := by
  rcases Action.ClosedBy.exists_of_state state with ⟨first, closed⟩
  rcases Filled.exists_finishedBy around with ⟨outer, finished⟩
  have whole := closed.finishedBy finished
  rw [Action.apply, Filled.settle_waiting] at whole
  exact ⟨_, whole⟩

/-! ## Texts without a refused token -/

namespace Reader

variable {slot : Slot} {cursor : Cursor}

/-- No token of the text is refused: the reading comes to a state behind which
only blank text is left. -/
def TakesAll (slot : Slot) (cursor : Cursor) : Prop :=
  Exists fun state => Exists fun around => Exists fun ending =>
    ComesTo slot cursor state around ending ∧ ending.skipBlank.atEnd = true

/-- A text without a refused token is the beginning of a row of items.  What is
missing can be written on the line below. -/
theorem TakesAll.exists_parts (takes : TakesAll slot cursor) :
    Exists fun more : Bytes => Exists fun parts => Exists fun ending => parts ≠ [] ∧
      (forall part, part ∈ parts -> Item slot part.tokens part.tree) ∧
        Cursor.Scans ⟨cursor.pos, cursor.rest ++ newline :: more⟩
          (parts.flatMap Passage.tokens) ending ∧ ending.skipBlank.atEnd = true := by
  rcases takes with ⟨state, around, ending, ⟨parts, tokens, items, scanned, advanced⟩, ended⟩
  rcases Progress.exists_finishedBy state around with ⟨lexemes, finished⟩
  have last := ending.atEnd_skipBlank_iff_lastGap.1 ended
  let more := Bytes.spaced (lexemes.map Lexeme.spelling)
  rcases Spells.lexemes finished.written (ending.pos.after (ending.rest ++ [newline])) [] .nil with
    ⟨later, below, sameLexemes⟩
  rcases finished.advances later sameLexemes with ⟨tree, advancedLater⟩
  have nonempty : later ≠ [] := by
    rintro rfl
    cases advancedLater
  -- The blanks at the end of the text and the newline are one gap.
  have split : ending.rest ++ newline :: more = (ending.rest ++ [newline]) ++ more := by
    rw [List.append_assoc, List.singleton_append]
  have skipped := Cursor.skipBlank_of_gap (.of_lastGap last) ending.pos more
  rw [List.append_nil, ← Cursor.scans_skipBlank nonempty, ← skipped, ← split,
    Cursor.scans_skipBlank nonempty] at below
  have again := scanned.append_rest (.newline more)
  rcases again.of_append with ⟨middle, before, inside⟩
  rcases (advanced.append advancedLater).resume_eq (inside.append below) with ⟨names, same⟩
  rcases read_eq_ok_iff.1 same with ⟨_, taken, scannedItem, item⟩
  have row := before.append scannedItem
  have single : ([⟨taken, tree⟩] : List Passage).flatMap Passage.tokens = taken :=
    List.flatMap_singleton _ _
  rw [← single, ← List.flatMap_append] at row
  exact ⟨more, parts ++ [⟨taken, tree⟩], _, by simp,
    List.forall_mem_append.2 ⟨items, List.forall_mem_singleton.2 item⟩, row, rfl⟩

/-- A text with a refused token is not taken to its end. -/
theorem not_takesAll_of_refused_token {ending : Cursor} {state : State} {around : List Hole}
    (comes : ComesTo slot cursor state around ending) {token : Token} {after : Cursor}
    {fault : Fault} (found : ending.next = (.token token, after))
    (refused : state.step token = .error fault) : ¬ TakesAll slot cursor := by
  intro takes
  rcases takes.exists_parts with ⟨more, parts, last, nonempty, items, scanned, ended⟩
  have failed := refused_token_is_final comes found refused (.newline more)
  rw [readAll_of_parts nonempty items scanned ended] at failed
  cases failed

/-- A syntax error is found at the end of a text that is taken, or at a token,
and then it is there to stay. -/
theorem takesAll_or_fault_is_final {fault : Fault}
    (failed : (readAll slot cursor).fault = some fault) (syntactic : fault.Syntactic) :
    TakesAll slot cursor ∨ ¬ TakesAll slot cursor ∧ forall other, Boundary other ->
      (readAll slot ⟨cursor.pos, cursor.rest ++ other⟩).fault = some fault := by
  rcases exists_comesTo_of_fault failed with ⟨state, around, ending, comes, refuses⟩
  cases refuses with
  | token found refused =>
      refine .inr ⟨not_takesAll_of_refused_token comes found refused, ?_⟩
      intro other boundary
      exact refused_token_is_final comes found refused boundary
  | flaw found =>
      rcases syntactic with ⟨error, isSyntax⟩
      cases isSyntax
  | @finish pos after found =>
      refine .inl ⟨state, around, ending, comes, (Cursor.atEnd_skipBlank ending).2 ⟨pos, ?_⟩⟩
      rw [found]

end Reader

/-! ## A misplaced `recur` -/

/-- No scan error speaks about `recur`. -/
theorem ScanError.message_ne_recurOutsideTail (error : ScanError) :
    error.message ≠ SyntaxError.message .recurOutsideTail := by
  have begins : error.message.head? ≠ some 'r'.toUInt8 := by
    cases error with
    | unknownCharacter name =>
        rw [message, List.head?_append_of_ne_nil _ (Bytes.ofText_ne_nil (by decide))]
        decide
    | integerOutOfRange text =>
        rw [message, List.head?_append_of_ne_nil _ (Bytes.ofText_ne_nil (by decide))]
        decide
    | _ => decide
  intro same
  rw [same] at begins
  exact begins (by decide)

theorem Fault.syntactic_of_message {fault : Fault}
    (spoken : fault.message = SyntaxError.message .recurOutsideTail) : fault.Syntactic := by
  rcases fault with ⟨origin, error | error⟩
  · exact (error.message_ne_recurOutsideTail spoken).elim
  · exact ⟨error, rfl⟩

namespace SymbolTable

/-- The text is a program. -/
def Accepts (table : SymbolTable) (text : Bytes) : Prop :=
  Exists fun read => Exists fun forms => table.parseForms text = .ok read ∧ read.outcome = .ok forms

theorem accepts_of_parts {table : SymbolTable} {text : Bytes} {parts : List Passage}
    {ending : Cursor} (ready : table.ready = true) (nonempty : parts ≠ [])
    (items : forall part, part ∈ parts -> Item (.code false) part.tokens part.tree)
    (scanned : (Cursor.ofText text).Scans (parts.flatMap Passage.tokens) ending)
    (ended : ending.skipBlank.atEnd = true) : table.Accepts text :=
  ⟨_, _, parseForms_of_parts ready nonempty items scanned ended, rfl⟩

theorem exists_parseForms_of_fault {table : SymbolTable} (ready : table.ready = true) {text : Bytes}
    {fault : Fault} (failed : (Reader.readAll (.code false) (.ofText text)).fault = some fault) :
    Exists fun read => table.parseForms text = .ok read ∧ read.outcome = .error fault := by
  refine ⟨_, parseForms_of_ready ready text, ?_⟩
  simp only [Batch.outcome, Batch.map, failed]

theorem fault_of_parseForms {table : SymbolTable} (ready : table.ready = true) {text : Bytes}
    {read : Interned (List (Node SymbolId))} {fault : Fault}
    (parsed : table.parseForms text = .ok read) (failed : read.outcome = .error fault) :
    (Reader.readAll (.code false) (.ofText text)).fault = some fault := by
  rw [parseForms_of_ready ready] at parsed
  cases parsed
  cases found : (Reader.readAll (.code false) (.ofText text)).fault with
  | none =>
      simp only [Batch.outcome, Batch.map, found] at failed
      cases failed
  | some other =>
      simp only [Batch.outcome, Batch.map, found] at failed
      cases failed
      rfl

/-- A `recur` outside tail position is reported for good unless it was the end of
the text that was refused.  If a token was refused, the same fault is reported
whatever is written on the line below; if all of the text was taken, a program
can be made of it. -/
theorem recur_fault_final_iff {table : SymbolTable} (ready : table.ready = true) {text : Bytes}
    {read : Interned (List (Node SymbolId))} {fault : Fault}
    (parsed : table.parseForms text = .ok read) (failed : read.outcome = .error fault)
    (spoken : fault.message = Bytes.ofText "recur is only allowed in tail position.") :
    ((forall more, ¬ table.Accepts (text ++ newline :: more)) ↔
      ¬ Reader.TakesAll (.code false) (.ofText text)) ∧
    (¬ Reader.TakesAll (.code false) (.ofText text) -> forall more,
      Exists fun whole => table.parseForms (text ++ newline :: more) = .ok whole ∧
        whole.outcome = .error fault) := by
  have found := fault_of_parseForms ready parsed failed
  rcases Reader.takesAll_or_fault_is_final found (Fault.syntactic_of_message spoken) with
    takes | ⟨notTaken, final⟩
  · have continued : Exists fun more => table.Accepts (text ++ newline :: more) := by
      rcases takes.exists_parts with ⟨more, parts, ending, nonempty, items, scanned, ended⟩
      exact ⟨more, accepts_of_parts ready nonempty items scanned ended⟩
    constructor
    · exact iff_of_false (fun rejected => continued.elim rejected) (not_not_intro takes)
    · exact fun notTaken => (notTaken takes).elim
  · have again (more : Bytes) : Exists fun whole =>
        table.parseForms (text ++ newline :: more) = .ok whole ∧ whole.outcome = .error fault :=
      exists_parseForms_of_fault ready (final (newline :: more) (.newline more))
    refine ⟨iff_of_true (fun more => ?_) notTaken, fun _ => again⟩
    rintro ⟨whole, forms, alsoParsed, done⟩
    rcases again more with ⟨other, otherParsed, otherFailed⟩
    cases alsoParsed.symm.trans otherParsed
    cases done.symm.trans otherFailed

/-- A `recur` among the elements of a list stays misplaced. -/
theorem recur_fault_final_in_call :
    (Exists fun read => empty.prepare.parseForms (Bytes.ofText "(f (recur))") = .ok read ∧
      read.outcome = .error (.syntaxAt ⟨1, 3, 3⟩ .recurOutsideTail)) ∧
    forall more, Exists fun whole =>
      empty.prepare.parseForms (Bytes.ofText "(f (recur))" ++ newline :: more) = .ok whole ∧
        whole.outcome = .error (.syntaxAt ⟨1, 3, 3⟩ .recurOutsideTail) := by
  have ready : empty.prepare.ready = true := ready_prepare empty
  have scanned : (Cursor.ofText (Bytes.ofText "(f (recur))")).Scans
      [⟨.start, .opening⟩, ⟨⟨1, 1, 1⟩, .symbol (Bytes.ofText "f")⟩, ⟨⟨1, 3, 3⟩, .opening⟩]
      ⟨⟨1, 4, 4⟩, Bytes.ofText "recur))"⟩ :=
    .cons rfl (.cons rfl (.cons rfl (.nil _)))
  have comes : Reader.ComesTo (.code false) (.ofText (Bytes.ofText "(f (recur))"))
      (.opened (.code false) ⟨1, 3, 3⟩) _ ⟨⟨1, 4, 4⟩, Bytes.ofText "recur))"⟩ :=
    ⟨[], _, nofun, scanned, .cons rfl (.cons rfl (.cons rfl (.nil _)))⟩
  have notTaken := Reader.not_takesAll_of_refused_token comes rfl rfl
  have failed := Reader.fault_of_refused_token comes rfl rfl
  rcases exists_parseForms_of_fault ready failed with ⟨read, parsed, outcome⟩
  exact ⟨⟨read, parsed, outcome⟩, (recur_fault_final_iff ready parsed outcome rfl).2 notTaken⟩

/-- The end of a text behind the `recur` of a body is reported as if the `recur`
were misplaced, although the text is the beginning of a program. -/
theorem recur_fault_at_end_not_final :
    (Exists fun read => Exists fun fault =>
      empty.prepare.parseForms (Bytes.ofText "(lambda () (recur)") = .ok read ∧
      read.outcome = .error fault ∧
        fault.message = Bytes.ofText "recur is only allowed in tail position.") ∧
    empty.prepare.Accepts (Bytes.ofText "(lambda () (recur)" ++ newline :: Bytes.ofText ")") := by
  have ready : empty.prepare.ready = true := ready_prepare empty
  have failed : (Reader.readAll (.code false) (.ofText (Bytes.ofText "(lambda () (recur)"))).fault =
      some (.syntaxAt ⟨1, 11, 11⟩ .recurOutsideTail) := by
    decide +kernel
  have faultless : (Reader.readAll (.code false)
      (.ofText (Bytes.ofText "(lambda () (recur)" ++ newline :: Bytes.ofText ")"))).fault = none := by
    decide +kernel
  constructor
  · rcases exists_parseForms_of_fault ready failed with ⟨read, parsed, outcome⟩
    exact ⟨read, _, parsed, outcome, rfl⟩
  · rcases Reader.parts_of_readAll faultless with ⟨parts, ending, nonempty, items, scanned, ended⟩
    exact accepts_of_parts ready nonempty items scanned ended

end SymbolTable

end TailLisp
