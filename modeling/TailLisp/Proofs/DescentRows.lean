import TailLisp.Proofs.DescentAgreement

namespace TailLisp

/-!
Atoms, operands and rows of expressions.

An expression is read for a hole, and so it is compared: behind it the reader fills the
hole and goes on.  A row is read in a loop, which has taken a token before it knows
whether there is a further expression.  In the reader the same token is a step behind
the newest expression.  The elements of a list are left alone by it.  In a body it
has the newest expression demoted first, and the loop does so in the same place, also
when the token is the end of the text.
-/

namespace Series

/-- A token that neither ends a series nor is a dot begins a further expression. -/
theorem step_of_other (series : Series) {token : Token} (more : token.lexeme ≠ .closing)
    (noDot : token.lexeme ≠ .dot) :
    series.step token = series.goOn.bind fun series => (Hole.item series).receive token := by
  rcases token with ⟨pos, lexeme⟩
  cases lexeme with
  | closing => exact absurd rfl more
  | dot => exact absurd rfl noDot
  | _ => rfl

end Series

/-- Whether the last expression of a series is in tail position.  This is not asked of
the elements of a list. -/
def SeriesKind.endsInTail? : SeriesKind -> Option Bool
  | elements _ => none
  | body form => some form.endsInTail
  | args => some false

namespace Series

variable {kind : SeriesKind} {tail : Bool}

theorem slot_of_endsInTail? (ends : kind.endsInTail? = some tail) (pos : Position)
    (items : List Tree) : slot { kind, pos, items } = .code tail := by
  cases kind with
  | elements inner => cases ends
  | body form => exact congrArg Slot.code (Option.some.inj ends)
  | args => exact congrArg Slot.code (Option.some.inj ends)

/-- Outside lists a dot is like any other token. -/
theorem step_of_endsInTail? (ends : kind.endsInTail? = some tail) (pos : Position)
    (items : List Tree) {token : Token} (more : token.lexeme ≠ .closing) :
    step { kind, pos, items } token =
      (goOn { kind, pos, items }).bind fun series => (Hole.item series).receive token := by
  rcases token with ⟨place, lexeme⟩
  cases lexeme with
  | closing => exact absurd rfl more
  | dot =>
      cases kind with
      | elements inner => cases ends
      | _ => cases items <;> rfl
  | _ => rfl

/-- What follows the newest expression has it demoted. -/
theorem goOn_of_endsInTail (ends : kind.endsInTail? = some true) (pos : Position) (newest : Tree)
    (older : List Tree) :
    goOn { kind, pos, items := newest :: older } =
      match newest.demote with
      | .ok demoted => .ok { kind, pos, items := demoted :: older }
      | .error place => .error (.syntaxAt place .recurOutsideTail) := by
  cases kind with
  | elements inner => cases ends
  | body form =>
      have tail : form.endsInTail = true := Option.some.inj ends
      cases demoted : newest.demote with
      | ok tree => simp only [goOn, if_pos tail, demoted]
      | error place => simp only [goOn, if_pos tail, demoted]
  | args => cases ends

theorem goOn_of_not_endsInTail (ends : kind.endsInTail? = some false) (pos : Position)
    (items : List Tree) : goOn { kind, pos, items } = .ok { kind, pos, items } := by
  cases kind with
  | elements inner => cases ends
  | body form =>
      have notTail : ¬ form.endsInTail = true := by simp [Option.some.inj ends]
      cases items with
      | nil => rfl
      | cons newest older => simp only [goOn, if_neg notTail]
  | args => cases items <;> rfl

/-- What a token does to a series whose expressions are known not to be the last. -/
def arrive (series : Series) (token : Token) : Except Fault Step :=
  if token.lexeme = .closing then series.close.map .complete
  else (Hole.item series).receive token

theorem arrive_of_closing (series : Series) {token : Token} (closes : token.lexeme = .closing) :
    series.arrive token = series.close.map .complete :=
  if_pos closes

theorem arrive_of_other (series : Series) {token : Token} (more : token.lexeme ≠ .closing) :
    series.arrive token = (Hole.item series).receive token :=
  if_neg more

/-- There is nothing to demote before the first expression. -/
theorem goOn_nil (kind : SeriesKind) (pos : Position) :
    goOn { kind, pos, items := [] } = .ok { kind, pos, items := [] } := by
  cases kind <;> rfl

theorem step_eq_arrive (ends : kind.endsInTail? = some tail) (pos : Position) (token : Token) :
    step { kind, pos, items := [] } token = arrive { kind, pos, items := [] } token := by
  by_cases closed : token.lexeme = .closing
  · rw [arrive_of_closing _ closed]
    rcases token with ⟨place, lexeme⟩
    cases closed
    rfl
  · rw [step_of_endsInTail? ends pos [] closed, arrive_of_other _ closed, goOn_nil]
    rfl

theorem step_of_closing (series : Series) {token : Token} (closes : token.lexeme = .closing) :
    series.step token = series.close.map .complete := by
  rcases token with ⟨pos, lexeme⟩
  cases closes
  rfl

end Series

namespace Descent

open Reader (proceed continueWith)
open SymbolTable (nodeOf nodesOf)

variable {Result Other Piece Whole : Type}

/-! ## Expressions -/

/-- An expression is read in a slot from a token on as the reader reads it in a hole. -/
def ParsesIn (parse : Inner) (slot : Slot) (token : Token) (session : Session) : Prop :=
  forall hole around, hole.slot = slot ->
    (parse slot token.flat).Agrees session nodeOf
      (proceed (hole.receive token) around session.cursor) (continueWith (hole :: around))

/-- Expressions are read as they should be where less than a length of the text is
left, and none is found at the end of the text. -/
structure ParsesBelow (parse : Inner) (bound : Nat) : Prop where
  token : forall slot token session, session.cursor.rest.length < bound ->
    ParsesIn parse slot token session
  finish : forall slot pos, parse slot (.finish pos) = fail pos .unexpectedEnd

/-- An atom is read without anything behind it. -/
theorem parsesIn_of_isAtom {token : Token} (atom : token.lexeme.kind.isAtom = true) (inner : Inner)
    (rounds : Nat) (slot : Slot) (session : Session) :
    ParsesIn (parseExpression inner rounds) slot token session := by
  intro hole around same
  rw [parseExpression_of_isAtom atom]
  rcases token with ⟨pos, lexeme⟩
  have plain (node : Node SymbolId) (tree : Tree)
      (fixed : session.table.Fixes node (nodeOf tree)) :
      (pure node : Descent (Node SymbolId)).Agrees session nodeOf
        (continueWith (hole :: around) tree session.cursor) (continueWith (hole :: around)) :=
    .of_pure tree fixed rfl
  have named (name : Bytes) :
      (intern name >>= fun id => (return .symbol (.plain pos) id)).Agrees session nodeOf
        (proceed (.ok (hole.fillSymbol pos name)) around session.cursor)
        (continueWith (hole :: around)) := by
    let tree : Tree := .symbol (.plain pos) (.named name)
    change Agrees _ _ _ ((continueWith (hole :: around) tree session.cursor).prepend [name]) _
    refine .intern_bind (.of_pure tree ?_ rfl)
    intro later grows
    exact congrArg (Node.symbol (.plain pos)) (session.table.fixes_idOf name later grows)
  cases lexeme with
  | word keyword =>
      cases keyword with
      | truth value => exact plain _ (.boolean (.plain pos) value) fun _ _ => rfl
      | head form => exact named form.name
  | char value => exact plain _ (.char (.plain pos) value) fun _ _ => rfl
  | integer value => exact plain _ (.integer (.plain pos) value) fun _ _ => rfl
  | string raw =>
      cases decoded : Escape.decode raw with
      | some contents =>
          have received : hole.receive ⟨pos, .string raw⟩ =
              .ok (hole.fillAtom (.string (.plain pos) contents)) := by
            simp only [Hole.receive, decoded]
          have parsed : parseAtom (Token.flat ⟨pos, .string raw⟩) =
              pure (.string (.plain pos) contents) := by
            simp only [parseAtom, Token.flat, Lexeme.kind, Lexeme.text, decoded]
          rw [received, parsed]
          exact plain _ (.string (.plain pos) contents) fun _ _ => rfl
      | none =>
          have received : hole.receive ⟨pos, .string raw⟩ =
              .error (.syntaxAt pos .malformedEscape) := by
            simp only [Hole.receive, decoded]
          have parsed : parseAtom (Token.flat ⟨pos, .string raw⟩) =
              fail pos .malformedEscape := by
            simp only [parseAtom, Token.flat, Lexeme.kind, Lexeme.text, decoded]
          rw [received, parsed]
          exact .of_fail pos .malformedEscape
  | symbol name => exact named name
  | _ => cases atom

section Below

variable {inner : Inner} {bound : Nat} (below : ParsesBelow inner bound) {session : Session}

include below

/-- One expression is read where one has to be. -/
theorem parseOperand_agrees (fits : session.cursor.rest.length <= bound) {slot : Slot} (hole : Hole)
    (same : hole.slot = slot) (ifClosed : SyntaxError) (around : List Hole) :
    (parseOperand inner slot ifClosed).Agrees session nodeOf
      (Reader.resume (.operand hole ifClosed) around session.cursor)
      (continueWith (hole :: around)) := by
  rw [parseOperand]
  apply Agrees.fetch_bind
  · intro token after leads shorter
    by_cases closed : token.lexeme = .closing
    · rcases token with ⟨pos, lexeme⟩
      cases closed
      exact .of_fail pos ifClosed
    · have other : ¬ token.flat.kind = .closing := mt Token.kind_eq_closing_iff.1 closed
      have stepped : (State.operand hole ifClosed).step token = hole.receive token := by
        simp only [State.step]
      rw [if_neg other, stepped]
      exact below.token slot token after (Nat.lt_of_lt_of_le shorter fits) hole around same
  · intro pos after _
    rw [if_neg (FlatToken.finish_kind_ne_closing pos), below.finish]
    exact .of_fail pos .unexpectedEnd

/-! ## Rows of expressions -/

omit below in
/-- A form that is complete is returned when it has been closed. -/
theorem closed_agrees {error : SyntaxError} {result : Result} {around : List Hole}
    {meaning : Piece -> SymbolTable -> Result} {goOn : Piece -> Cursor -> Reading} (piece : Piece)
    (tree : Tree) (goes : forall cursor, goOn piece cursor = continueWith around tree cursor)
    (fixed : session.table.Fixes result (meaning piece)) :
    (expectClosing error >>= fun _ => pure result).Agrees session meaning
      (Reader.resume (.closing tree error) around session.cursor) goOn := by
  apply Agrees.expectClosing_bind
  · intro token more
    rcases token with ⟨pos, lexeme⟩
    cases lexeme with
    | closing => exact absurd rfl more
    | _ => rfl
  · exact fun _ => rfl
  · intro pos after leads _
    change Agrees _ _ _ (proceed (.ok (.complete tree)) around after.cursor) _
    rw [Reader.proceed_complete]
    exact .of_pure piece (fixed.later leads.grows) (goes after.cursor).symm

/-- The end of a chain of pairs is read behind a dot. -/
theorem parseElements_agrees_of_dot (slot : Slot) (pos place : Position) (around : List Hole)
    (finish : Tree -> Tree)
    (ofPair : forall car cdr, finish (.pair (.plain pos) car cdr) = .pair (.plain pos) car cdr)
    (fits : session.cursor.rest.length <= bound) (rounds : Nat) (trees : List Tree)
    (nodes : List (Node SymbolId)) (fixed : session.table.Fixes nodes (nodesOf trees)) :
    (parseElements inner slot.element pos nodes (Token.flat ⟨place, .dot⟩) (rounds + 1)).Agrees
      session nodeOf
      (proceed (Series.step { kind := .elements slot, pos, items := trees.reverse } ⟨place, .dot⟩)
        around session.cursor)
      fun tree cursor => continueWith around (finish tree) cursor := by
  rw [parseElements_of_dot rfl]
  cases trees with
  | nil =>
      have empty : nodes = [] := fixed _ (.refl _)
      subst empty
      exact .of_fail place .nothingBeforeDot
  | cons first others =>
      have nonempty : nodes.isEmpty = false := by
        rw [fixed _ (.refl _)]
        rfl
      have present := List.reverse_ne_nil_iff.2 (List.cons_ne_nil first others)
      rcases List.exists_cons_of_ne_nil present with ⟨newest, older, reversed⟩
      have opened :
          Series.step { kind := .elements slot, pos, items := (first :: others).reverse }
            ⟨place, .dot⟩ =
              .ok (.wait (.operand (.dotted slot pos (first :: others).reverse)
                .nothingAfterDot)) := by
        rw [reversed]
        rfl
      rw [nonempty, opened, Reader.proceed_wait]
      refine .bind (parseOperand_agrees below fits (.dotted slot pos _) rfl _ around)
        fun ending last after leads fixedLast => ?_
      rw [Reader.continueWith_of_waiting rfl, List.reverse_reverse]
      exact closed_agrees (.pair (.plain pos) first (.chain last others)) _
        (fun cursor => congrArg (continueWith around · cursor) (ofPair _ _))
        ((fixed.later leads.grows).chain fixedLast pos)

/-- The elements of a list are read from a token on.  The list is finished by the
caller, who does not touch a chain of pairs.  A round takes its token and leaves one
to the next round, so there are at most two more of them than bytes are left. -/
theorem parseElements_agrees (slot : Slot) (pos : Position) (around : List Hole)
    (finish : Tree -> Tree)
    (ofList : forall trees, finish (.ofList (.plain pos) trees) =
      .ofList { pos, tail := slot.isTail } trees)
    (ofPair : forall car cdr, finish (.pair (.plain pos) car cdr) = .pair (.plain pos) car cdr)
    (fits : session.cursor.rest.length < bound) {rounds : Nat}
    (enough : session.cursor.rest.length + 2 <= rounds) (token : Token) (trees : List Tree)
    (nodes : List (Node SymbolId)) (fixed : session.table.Fixes nodes (nodesOf trees)) :
    (parseElements inner slot.element pos nodes token.flat rounds).Agrees session nodeOf
      (proceed (Series.step { kind := .elements slot, pos, items := trees.reverse } token) around
        session.cursor)
      fun tree cursor => continueWith around (finish tree) cursor := by
  induction rounds generalizing session token trees nodes with
  | zero => cases enough
  | succ rounds inductionHypothesis =>
  by_cases closed : token.lexeme = .closing
  · have closing : Series.step { kind := .elements slot, pos, items := trees.reverse } token =
        .ok (.complete (finish (.ofList (.plain pos) trees))) := by
      rcases token with ⟨place, lexeme⟩
      cases closed
      rw [ofList]
      simp only [Series.step, Series.close, List.reverse_reverse]
      rfl
    rw [parseElements_of_closing (Token.kind_eq_closing_iff.2 closed), closing,
      Reader.proceed_complete]
    exact .of_pure (Node.ofList (.plain pos) trees) (fixed.ofList pos) rfl
  by_cases isDot : token.lexeme = .dot
  · rcases token with ⟨place, lexeme⟩
    cases isDot
    exact parseElements_agrees_of_dot below slot pos place around finish ofPair fits.le rounds
      trees nodes fixed
  · have more := mt Token.kind_eq_closing_iff.1 closed
    have noDot := mt Token.kind_eq_dot_iff.1 isDot
    rw [parseElements_of_other more token.kind_ne_finish noDot, Series.step_of_other _ closed isDot]
    let series : Series := { kind := .elements slot, pos, items := trees.reverse }
    refine .bind (below.token slot.element token session fits (.item series) around rfl)
      fun node tree after leads fixedNode => ?_
    rw [Reader.continueWith_of_waiting rfl]
    apply Agrees.fetch_bind
    · intro next later leadsLater shorter
      have left := shorter.trans_le leads.shorter
      have both := (fixed.later leads.grows).concat fixedNode
      have rest := inductionHypothesis (left.trans fits) (by omega) next (trees ++ [tree])
        (nodes ++ [node]) (both.later leadsLater.grows)
      rw [List.reverse_concat] at rest
      exact rest
    · intro place later _
      rw [parseElements_finish (by omega)]
      exact .of_fail place .unclosed

omit below in
/-- The newest expression of a series is kept when the next token closes the series.
Otherwise it is demoted, if it was read as the last one. -/
theorem keptOrDemoted_agrees {kind : SeriesKind} {tail : Bool}
    (ends : kind.endsInTail? = some tail) (pos : Position) (around : List Hole) (items : List Tree)
    (token : Token) {node : Node SymbolId} {tree : Tree}
    (fixed : session.table.Fixes node (nodeOf tree)) {use : Node SymbolId -> Descent Other}
    {whole : Whole -> SymbolTable -> Other} {later : Whole -> Cursor -> Reading}
    (next : forall kept last, session.table.Fixes kept (nodeOf last) ->
      (use kept).Agrees session whole
        (proceed (Series.arrive { kind, pos, items := last :: items } token) around session.cursor)
        later) :
    (if tail && token.flat.kind != .closing then demote node >>= use else use node).Agrees session
      whole
      (proceed (Series.step { kind, pos, items := tree :: items } token) around session.cursor)
      later := by
  by_cases closed : token.lexeme = .closing
  · rw [Series.step_of_closing _ closed, ← Series.arrive_of_closing _ closed]
    simpa only [Token.kind_eq_closing_iff.2 closed, bne_self_eq_false, Bool.and_false,
      Bool.false_eq_true, if_false] using next node tree fixed
  · have goes : (token.flat.kind != .closing) = true :=
      bne_iff_ne.2 (mt Token.kind_eq_closing_iff.1 closed)
    rw [Series.step_of_endsInTail? ends pos _ closed, goes, Bool.and_true]
    cases tail with
    | false =>
        have kept := next node tree fixed
        rw [Series.arrive_of_other _ closed] at kept
        rw [Series.goOn_of_not_endsInTail ends, if_neg Bool.false_ne_true]
        exact kept
    | true =>
        rw [Series.goOn_of_endsInTail ends, if_pos rfl]
        refine .demote_bind fixed ?_ ?_
        · intro place demotes
          rw [demotes]
          rfl
        · intro result demoted demotes fixedLast
          have goesOn := next result demoted fixedLast
          rw [Series.arrive_of_other _ closed] at goesOn
          rw [demotes]
          exact goesOn

omit below in
/-- At the end of the text the newest expression is demoted, too, before it is noticed
that the series was not closed. -/
theorem demotedAtEnd_agrees {kind : SeriesKind} {tail : Bool}
    (ends : kind.endsInTail? = some tail) (pos place : Position) (items : List Tree) {node : Node SymbolId} {tree : Tree}
    (fixed : session.table.Fixes node (nodeOf tree)) {use : Node SymbolId -> Descent Other}
    {whole : Whole -> SymbolTable -> Other} {later : Whole -> Cursor -> Reading}
    (stops : forall kept, use kept = fail place .unclosed) :
    (if tail && (FlatToken.finish place).kind != .closing then demote node >>= use
      else use node).Agrees session whole
        { outcome := .error ((State.series { kind, pos, items := tree :: items }).faultAtEnd place)
          names := [], cursor := session.cursor }
        later := by
  cases tail with
  | false =>
      simp only [State.faultAtEnd, Series.goOn_of_not_endsInTail ends]
      rw [Bool.false_and, if_neg Bool.false_ne_true, stops]
      exact .of_fail place .unclosed
  | true =>
      simp only [State.faultAtEnd, Series.goOn_of_endsInTail ends]
      refine .demote_bind fixed ?_ ?_
      · intro pos demotes
        simp only [demotes]
      · intro result demoted demotes _
        rw [stops]
        simp only [demotes]
        exact .of_fail place .unclosed

/-- The expressions of a body are read from a token on. -/
theorem parseSequence_agrees {kind : SeriesKind} {tail : Bool}
    (ends : kind.endsInTail? = some tail) (pos : Position) (around : List Hole)
    (fits : session.cursor.rest.length < bound) {rounds : Nat}
    (enough : session.cursor.rest.length + 2 <= rounds) (token : Token) (trees : List Tree)
    (nodes : List (Node SymbolId)) (fixed : session.table.Fixes nodes (nodesOf trees)) :
    (parseSequence inner tail nodes token.flat rounds).Agrees session nodesOf
      (proceed (Series.arrive { kind, pos, items := trees.reverse } token) around session.cursor)
      fun trees cursor =>
        proceed ((Series.close { kind, pos, items := trees.reverse }).map .complete) around
          cursor := by
  induction rounds generalizing session token trees nodes with
  | zero => cases enough
  | succ rounds inductionHypothesis =>
  by_cases closed : token.lexeme = .closing
  · rw [parseSequence_of_closing (Token.kind_eq_closing_iff.2 closed),
      Series.arrive_of_closing _ closed]
    exact .of_pure trees fixed rfl
  · rw [parseSequence_of_other (mt Token.kind_eq_closing_iff.1 closed) token.kind_ne_finish,
      Series.arrive_of_other _ closed]
    let series : Series := { kind, pos, items := trees.reverse }
    refine .bind (below.token (.code tail) token session fits (.item series) around
      (Series.slot_of_endsInTail? ends pos _)) fun node tree after leads fixedNode => ?_
    have before := fixed.later leads.grows
    rw [Reader.continueWith_of_waiting rfl]
    apply Agrees.fetch_bind
    · intro next later leadsLater shorter
      have left := shorter.trans_le leads.shorter
      refine keptOrDemoted_agrees ends pos around _ next (fixedNode.later leadsLater.grows)
        fun kept last fixedLast => ?_
      have rest := inductionHypothesis (left.trans fits) (by omega) next (trees ++ [last])
        (nodes ++ [kept]) ((before.later leadsLater.grows).concat fixedLast)
      rw [List.reverse_concat] at rest
      exact rest
    · intro place later leadsLater
      exact demotedAtEnd_agrees ends pos place _ (fixedNode.later leadsLater.grows)
        fun kept => parseSequence_finish (by omega) place

end Below

end Descent

end TailLisp
