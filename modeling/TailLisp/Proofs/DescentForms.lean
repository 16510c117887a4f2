import TailLisp.Proofs.DescentRows

namespace TailLisp

/-!
Bodies, binding lists, parameters and special forms.

Each form is compared with the state that the reader enters for it.  What the reader
keeps in a state, newest first, the descent keeps in a buffer, oldest first.  The
buffer of the parameters holds ids.  Two of them are equal exactly if their names
are, because both names have arrived in the table by then.

An expression is read as it should be if the expressions inside it are, and these lie
behind at least one token.  So one more level of depth is enough for one more byte of
the text, which is the induction that closes the module.
-/

namespace Descent

open Reader (proceed continueWith)
open SymbolTable (nodeOf nodesOf bindingsOf idsOf)

variable {Result Other Piece Whole : Type}

section Below

variable {inner : Inner} {bound : Nat} (below : ParsesBelow inner bound) {session : Session}

include below

/-! ## Bindings and parameters -/

/-- A binding is read from its name on, and whatever follows it. -/
theorem parseBindings_agrees_of_label (head : ScopeHead) (around : List Hole)
    (fits : session.cursor.rest.length <= bound) (label : Token)
    {use : SymbolId -> Node SymbolId -> Descent Other} {whole : Whole -> SymbolTable -> Other}
    {later : Whole -> Cursor -> Reading}
    (next : forall name id node tree after, session.LeadsTo after ->
      after.table.Fixes id (fun table => table.idOf name) -> after.table.Fixes node (nodeOf tree) ->
        (use id node).Agrees after whole
          (Reader.resume (.bindings { head with bindings := (.named name, tree) :: head.bindings })
            around after.cursor) later) :
    (if label.flat.kind ≠ .symbol then
        fail label.flat.pos .bindingName
      else do
        let value <- parseOperand inner (.code false) (.bindingWithoutValue label.flat.text)
        expectClosing .bindingWithMoreValues
        let id <- intern label.flat.text
        use id value).Agrees session whole
      (proceed (State.step (.bindingName head) label) around session.cursor) later := by
  rcases label with ⟨place, lexeme⟩
  cases lexeme with
  | symbol name =>
      change Agrees (parseOperand inner (.code false) (.bindingWithoutValue name) >>= _) _ _
        (proceed (.ok (.wait (.operand (.bound head name) (.bindingWithoutValue name)))) _ _) _
      rw [Reader.proceed_wait]
      refine .bind (parseOperand_agrees below fits (.bound head name) rfl _ around)
        fun node tree valued leads fixedNode => ?_
      rw [Reader.continueWith_of_waiting rfl]
      apply Agrees.expectClosing_bind
      · intro token more
        rcases token with ⟨pos, lexeme⟩
        cases lexeme with
        | closing => exact absurd rfl more
        | _ => rfl
      · exact fun _ => rfl
      · intro pos after leadsAfter _
        let extended : ScopeHead := { head with bindings := (.named name, tree) :: head.bindings }
        change Agrees _ _ _ (proceed
          (.ok { action := .settle (.waiting (.bindings extended)), interned := some name })
          around after.cursor) _
        rw [Reader.proceed_waiting]
        have grows := after.table.growsTo_insert name
        exact .intern_bind (next name _ node tree _
          ⟨leads.grows.trans (leadsAfter.grows.trans grows), leadsAfter.shorter.trans leads.shorter⟩
          (after.table.fixes_idOf name) (fixedNode.later (leadsAfter.grows.trans grows)))
  | _ => exact .of_fail place .bindingName

/-- Bindings are read. -/
theorem parseBindings_agrees (head : ScopeHead) (around : List Hole)
    (fits : session.cursor.rest.length <= bound) {rounds : Nat}
    (enough : session.cursor.rest.length < rounds) (pairs : List (Reference × Tree))
    (bindings : List (SymbolId × Node SymbolId))
    (fixed : session.table.Fixes bindings (bindingsOf pairs)) :
    (parseBindings inner bindings rounds).Agrees session bindingsOf
      (Reader.resume (.bindings { head with bindings := pairs.reverse }) around session.cursor)
      fun pairs cursor =>
        Reader.resume (State.scopeBody { head with bindings := pairs.reverse }) around cursor := by
  induction rounds generalizing session pairs bindings with
  | zero => exact absurd enough (Nat.not_lt_zero _)
  | succ rounds inductionHypothesis =>
  rw [parseBindings]
  apply Agrees.fetch_bind
  · intro token after leads shorter
    by_cases closed : token.lexeme = .closing
    · rw [if_pos (Token.kind_eq_closing_iff.2 closed)]
      rcases token with ⟨place, lexeme⟩
      cases closed
      refine .of_pure pairs (fixed.later leads.grows) ?_
      exact Reader.proceed_wait _ _ _
    rw [if_neg (mt Token.kind_eq_closing_iff.1 closed)]
    by_cases opens : token.lexeme = .opening
    · rw [if_neg (not_not_intro (Token.kind_eq_opening_iff.2 opens))]
      rcases token with ⟨place, lexeme⟩
      cases opens
      have opened : State.step (.bindings { head with bindings := pairs.reverse })
          ⟨place, .opening⟩ =
            .ok (.wait (.bindingName { head with bindings := pairs.reverse })) :=
        rfl
      rw [opened, Reader.proceed_wait]
      apply Agrees.fetch_bind
      · intro label named leadsNamed shorterNamed
        have fitsNamed := (shorterNamed.trans_le leads.shorter).le.trans fits
        refine parseBindings_agrees_of_label below _ around fitsNamed label ?_
        intro name id node tree later leadsLater fixedId fixedNode
        have left := leadsLater.shorter.trans_lt (shorterNamed.trans shorter)
        have grows := leads.grows.trans (leadsNamed.grows.trans leadsLater.grows)
        have rest := inductionHypothesis (left.le.trans fits)
          (left.trans_le (Nat.le_of_lt_succ enough)) (pairs ++ [(.named name, tree)])
          (bindings ++ [(id, node)]) ((fixed.later grows).concat_binding fixedId fixedNode)
        rw [List.reverse_concat] at rest
        exact rest
      · intro place named _
        exact .of_fail place .bindingName
    · rw [if_pos (mt Token.kind_eq_opening_iff.1 opens)]
      have refused : State.step (.bindings { head with bindings := pairs.reverse }) token =
          .error (.syntaxAt token.pos .malformedBinding) := by
        rcases token with ⟨place, lexeme⟩
        cases lexeme with
        | closing => exact absurd rfl closed
        | opening => exact absurd rfl opens
        | _ => rfl
      rw [refused]
      exact .of_fail token.pos .malformedBinding
  · intro place later _
    exact .of_fail place .malformedBinding

omit below in
/-- A parameter is refused for its id exactly if the reader refuses it for its name. -/
theorem newParam_agrees (pos : Position) (name : Option Bytes) (around : List Hole)
    {params : List Bytes} {ids : List SymbolId} (fixed : session.table.Fixes ids (idsOf params))
    (held : forall param, param ∈ params -> param ∈ session.table.names) (place : Position)
    (param : Bytes) {use : SymbolId -> Descent Other} {whole : Whole -> SymbolTable -> Other}
    {later : Whole -> Cursor -> Reading}
    (next : (use (session.table.idOf param)).Agrees
      { session with table := session.table.insert param } whole
        (Reader.resume (.parameters pos name (param :: params.reverse)) around session.cursor)
          later) :
    (intern param >>= fun id =>
      if id ∈ ids then fail place (.duplicateParameter param) else use id).Agrees session whole
        (proceed (State.step (.parameters pos name params.reverse) ⟨place, .symbol param⟩) around
          session.cursor)
        later := by
  have grows := session.table.growsTo_insert param
  -- Ids tell names apart only in a table that has received one of the two.
  have told := SymbolTable.mem_ids_iff (fixed.later grows)
    (SymbolTable.mem_insert.2 (.inr rfl) : param ∈ (session.table.insert param).names)
  rw [SymbolTable.idOf_insert_self] at told
  by_cases known : param ∈ params
  · have interned : (intern param).run session =
        some (some (session.table.idOf param), session) := by
      change some (some _, { session with table := session.table.insert param }) = _
      rw [SymbolTable.insert_of_held (held param known)]
    have refused : State.step (.parameters pos name params.reverse) ⟨place, .symbol param⟩ =
        .error (.syntaxAt place (.duplicateParameter param)) := by
      simp only [State.step, List.mem_reverse, if_pos known]
    rw [refused]
    refine .of_run_eq (run_bind_of_some interned) ?_
    rw [if_pos (told.2 known)]
    exact .of_fail place (.duplicateParameter param)
  · have taken : State.step (.parameters pos name params.reverse) ⟨place, .symbol param⟩ =
        .ok { action := .settle (.waiting (.parameters pos name (param :: params.reverse)))
              interned := some param } := by
      simp only [State.step, List.mem_reverse, if_neg known]
    rw [taken, Reader.proceed_waiting]
    apply Agrees.intern_bind
    rw [if_neg (mt told.1 known)]
    exact next

omit below in
/-- Parameters are read.  A parameter whose name has arrived before is no other in the
table either. -/
theorem parseParams_agrees (pos : Position) (name : Option Bytes) (around : List Hole)
    {rounds : Nat} (enough : session.cursor.rest.length < rounds) (params : List Bytes)
    (ids : List SymbolId) (fixed : session.table.Fixes ids (idsOf params))
    (held : forall param, param ∈ params -> param ∈ session.table.names) :
    (parseParams ids rounds).Agrees session idsOf
      (Reader.resume (.parameters pos name params.reverse) around session.cursor)
      fun params cursor =>
        Reader.resume (State.lambdaBody pos name params.reverse) around cursor := by
  induction rounds generalizing session params ids with
  | zero => exact absurd enough (Nat.not_lt_zero _)
  | succ rounds inductionHypothesis =>
  rw [parseParams]
  apply Agrees.fetch_bind
  · intro token after leads shorter
    rcases token with ⟨place, lexeme⟩
    cases lexeme with
    | closing => exact .of_pure params (fixed.later leads.grows) (Reader.proceed_wait _ _ _)
    | symbol param =>
        have here := fixed.later leads.grows
        have heldHere (param : Bytes) (member : param ∈ params) : param ∈ after.table.names :=
          leads.grows.names.subset (held param member)
        have grows := after.table.growsTo_insert param
        refine newParam_agrees pos name around here heldHere place param ?_
        rw [← List.reverse_concat]
        refine @inductionHypothesis { after with table := after.table.insert param }
          (shorter.trans_le (Nat.le_of_lt_succ enough)) (params ++ [param]) _
          ((here.later grows).concat_id (after.table.fixes_idOf param)) ?_
        intro other member
        rcases List.mem_append.1 member with earlier | last
        · exact grows.names.subset (heldHere other earlier)
        · rw [List.mem_singleton.1 last]
          exact SymbolTable.mem_insert.2 (.inr rfl)
    | _ => exact .of_fail place .parameterName
  · intro place after _
    exact .of_fail place .parameterName

/-! ## Special forms -/

theorem parseDefine_agrees (pos : Position) (around : List Hole)
    (fits : session.cursor.rest.length <= bound) :
    (parseDefine inner pos).Agrees session nodeOf
      (Reader.resume (.definition pos) around session.cursor) (continueWith around) := by
  rw [parseDefine]
  apply Agrees.fetch_bind
  · intro token after leads shorter
    -- Symbols and keywords are names; whatever else comes is refused.
    have named (name : Bytes) :
        (intern name >>= fun id => parseOperand inner (.code false) .defineArity >>= fun value =>
          expectClosing .defineArity >>= fun _ => pure (.define (.plain pos) id value)).Agrees after
            nodeOf
            (proceed (.ok { action := .settle (.waiting (.operand (.defined pos name) .defineArity))
                            interned := some name }) around after.cursor)
            (continueWith around) := by
      rw [Reader.proceed_waiting]
      apply Agrees.intern_bind
      refine .bind (parseOperand_agrees below (by exact shorter.le.trans fits) (.defined pos name)
        rfl _ around) fun node tree later leadsLater fixed => ?_
      rw [Reader.continueWith_of_waiting rfl]
      refine closed_agrees _ _ (fun _ => rfl) fun table grows => ?_
      rw [after.table.fixes_idOf name table (leadsLater.grows.trans grows), fixed table grows]
      rfl
    rcases token with ⟨place, lexeme⟩
    cases lexeme with
    | word keyword =>
        have isNone : (TokenKind.word keyword).word?.isNone = false := by
          rw [TokenKind.word?_word]
          rfl
        have goes : ¬ (decide ((Token.flat ⟨place, .word keyword⟩).kind ≠ .symbol) &&
            (Token.flat ⟨place, .word keyword⟩).kind.word?.isNone) = true := by
          change ¬ (_ && (TokenKind.word keyword).word?.isNone) = true
          rw [isNone, Bool.and_false]
          exact Bool.false_ne_true
        rw [if_neg goes]
        exact named keyword.name
    | symbol name => exact named name
    | _ => exact .of_fail place .defineName
  · intro place after _
    exact .of_fail place .defineName

theorem parseConditional_agrees (pos : Position) (tail : Bool) (around : List Hole)
    (fits : session.cursor.rest.length <= bound) :
    (parseConditional inner pos tail).Agrees session nodeOf
      (Reader.resume (.operand (.ifTest pos tail) .conditionalArity) around session.cursor)
      (continueWith around) := by
  rw [parseConditional]
  refine .bind (parseOperand_agrees below fits (.ifTest pos tail) rfl _ around)
    fun first test afterTest leadsTest fixedTest => ?_
  rw [Reader.continueWith_of_waiting rfl]
  refine .bind (parseOperand_agrees below (leadsTest.shorter.trans fits)
    (.ifConsequent pos tail test) rfl _ around)
    fun second consequent afterSecond leadsSecond fixedSecond => ?_
  rw [Reader.continueWith_of_waiting rfl]
  refine .bind (parseOperand_agrees below ((leadsSecond.shorter.trans leadsTest.shorter).trans fits)
    (.ifAlternative pos tail test consequent) rfl _ around)
    fun third alternative afterThird leadsThird fixedThird => ?_
  rw [Reader.continueWith_of_waiting rfl]
  refine closed_agrees _ _ (fun _ => rfl) fun table grows => ?_
  rw [fixedTest table (leadsSecond.grows.trans (leadsThird.grows.trans grows)),
    fixedSecond table (leadsThird.grows.trans grows), fixedThird table grows]
  rfl

variable {rounds : Nat} (deep : bound < rounds)

include deep

/-- The expressions of a series are read from its first token on and used. -/
theorem parseSequence_bind {kind : SeriesKind} {tail : Bool}
    (ends : kind.endsInTail? = some tail) (pos : Position) (around : List Hole)
    (fits : session.cursor.rest.length <= bound) {use : List (Node SymbolId) -> Descent Other}
    {whole : Whole -> SymbolTable -> Other} {later : Whole -> Cursor -> Reading}
    (next : forall nodes trees after, after.table.Fixes nodes (nodesOf trees) ->
      (use nodes).Agrees after whole
        (proceed ((Series.close { kind, pos, items := trees.reverse }).map .complete) around
          after.cursor) later) :
    (fetch >>= fun token => parseSequence inner tail [] token rounds >>= use).Agrees session whole
      (Reader.resume (.series { kind, pos, items := [] }) around session.cursor) later := by
  apply Agrees.fetch_bind
  · intro token after leads shorter
    change Agrees _ _ _ (proceed (Series.step _ token) around after.cursor) _
    rw [Series.step_eq_arrive ends]
    exact .bind (parseSequence_agrees below ends pos around (shorter.trans_le fits) (by omega)
      token [] [] fun _ _ => rfl) fun nodes trees ending _ fixed => next nodes trees ending fixed
  · intro place after _
    have unclosed : (State.series { kind, pos, items := [] }).faultAtEnd place =
        .syntaxAt place .unclosed := by
      rw [State.faultAtEnd, Series.goOn_nil]
    rw [parseSequence_finish (Nat.zero_lt_of_lt deep), fail_bind, unclosed]
    exact .of_fail place .unclosed

/-- The body of a form is read.  The form says how long its body has to be and what
becomes of it. -/
theorem parseBody_agrees {form : SpecialForm} {least : Nat} {tail : Bool} (body : BodyForm)
    (ends : body.endsInTail = tail) (pos : Position) (build : List Tree -> Tree)
    (closes : forall trees, body.close pos trees =
      if trees.length < least then .error (.syntaxAt pos (.emptyBody form)) else .ok (build trees))
    (around : List Hole) (fits : session.cursor.rest.length <= bound) :
    (parseBody inner rounds form pos tail least).Agrees session nodesOf
      (Reader.resume (.series { kind := .body body, pos, items := [] }) around session.cursor)
      fun trees cursor => continueWith around (build trees) cursor := by
  rw [parseBody]
  have sequence : (SeriesKind.body body).endsInTail? = some tail := congrArg some ends
  refine parseSequence_bind below deep sequence pos around fits fun nodes trees after fixed => ?_
  have length : nodes.length = trees.length := by
    rw [fixed _ (.refl _), nodesOf, List.length_map]
  have closing : Series.close { kind := .body body, pos, items := trees.reverse } =
      body.close pos trees := by
    simp only [Series.close, List.reverse_reverse]
  rw [closing, closes, length]
  split
  · exact .of_fail pos (.emptyBody form)
  · exact .of_pure trees fixed (Reader.proceed_complete _ _ _)

theorem parseScope_agrees (kind : ScopeKind) (pos : Position) (tail : Bool) (around : List Hole)
    (fits : session.cursor.rest.length <= bound) :
    (parseScope inner rounds kind pos tail).Agrees session nodeOf
      (Reader.resume (.scopeHead { pos, kind, tail, bindings := [] }) around session.cursor)
      (continueWith around) := by
  rw [parseScope]
  apply Agrees.fetch_bind
  · intro token after leads shorter
    rcases token with ⟨place, lexeme⟩
    cases lexeme with
    | opening =>
        change Agrees (parseBindings inner [] rounds >>= _) _ _
          (proceed (.ok (.wait (.bindings { pos, kind, tail, bindings := [] }))) _ _) _
        rw [Reader.proceed_wait]
        have fitsAfter := shorter.le.trans fits
        refine .bind (parseBindings_agrees below { pos, kind, tail, bindings := [] } around
          fitsAfter (fitsAfter.trans_lt deep) [] [] fun _ _ => rfl)
          fun bindings pairs opened leadsOpened fixedBindings => ?_
        let build (trees : List Tree) : Tree :=
          .scope { pos, tail } (if Node.lastReachesRecur trees then kind else .once) pairs trees
        have closes (trees : List Tree) : (BodyForm.scope kind tail pairs.reverse).close pos trees =
            if trees.length < 1 then .error (.syntaxAt pos (.emptyBody (.scope kind)))
            else .ok (build trees) := by
          rw [BodyForm.close, List.reverse_reverse]
          cases trees <;> rfl
        refine .bind (parseBody_agrees below deep (.scope kind tail pairs.reverse) rfl pos build
          closes around (leadsOpened.shorter.trans fitsAfter))
          fun body trees closed leadsBody fixed => ?_
        have reaches : Node.lastReachesRecur body = Node.lastReachesRecur trees := by
          rw [fixed _ (.refl _), nodesOf]
          exact Node.lastReachesRecur_map fun tree _ => Node.reachesRecur_map _ tree
        have built (kept : ScopeKind) :
            closed.table.Fixes (.scope { pos, tail } kept bindings body)
              (nodeOf (.scope { pos, tail } kept pairs trees)) := by
          intro table grows
          rw [fixed table grows, fixedBindings table (leadsBody.grows.trans grows), nodeOf,
            Node.map, Node.mapBindings_eq, Node.mapSeries_eq]
          rfl
        rw [reaches]
        cases kind with
        | once => exact .of_pure _ (built .once) (by simp only [build, ite_self])
        | loop =>
            cases found : Node.lastReachesRecur trees with
            | true => exact .of_pure _ (built .loop) (by simp only [build, found, if_true])
            | false =>
                exact .of_pure _ (built .once)
                  (by simp only [build, found, Bool.false_eq_true, if_false])
    | _ => exact .of_fail place (.missingBindings kind)
  · intro place after _
    exact .of_fail place (.missingBindings kind)

/-- The parameters and the body of a lambda are read from a token on. -/
theorem parseLambdaFrom_agrees (pos : Position) (name : Option Bytes) (around : List Hole)
    (fits : session.cursor.rest.length <= bound) {token : Token} (opens : token.lexeme = .opening) :
    (parseLambdaFrom inner rounds pos name token.flat).Agrees session nodeOf
      (Reader.resume (.parameters pos name []) around session.cursor) (continueWith around) := by
  rw [parseLambdaFrom, if_neg (not_not_intro (Token.kind_eq_opening_iff.2 opens))]
  refine .bind (parseParams_agrees pos name around (fits.trans_lt deep) [] [] (fun _ _ => rfl)
    (List.forall_mem_nil _)) fun ids params opened leads fixedIds => ?_
  let build (trees : List Tree) : Tree := .lambda (.plain pos) name (params.map .named) trees
  have closes (trees : List Tree) : (BodyForm.lambda name params.reverse).close pos trees =
      if trees.length < 1 then .error (.syntaxAt pos (.emptyBody .lambda))
      else .ok (build trees) := by
    rw [BodyForm.close, List.reverse_reverse]
    cases trees <;> rfl
  refine .bind (parseBody_agrees below deep (.lambda name params.reverse) rfl pos build closes
    around (leads.shorter.trans fits)) fun body trees closed leadsBody fixed => ?_
  refine .of_pure (build trees) (fun table grows => ?_) rfl
  rw [fixed table grows, fixedIds table (leadsBody.grows.trans grows), nodeOf, Node.map,
    Node.mapSeries_eq, List.map_map]
  rfl

/-- A lambda with a name is read behind its name. -/
theorem parseLambda_agrees_of_name (pos : Position) (name : Bytes) (around : List Hole)
    (fits : session.cursor.rest.length <= bound) :
    (fetch >>= fun token => parseLambdaFrom inner rounds pos (some name) token).Agrees session
      nodeOf (proceed (.ok (.wait (.namedLambdaHead pos name))) around session.cursor)
      (continueWith around) := by
  rw [Reader.proceed_wait]
  apply Agrees.fetch_bind
  · intro token after leads shorter
    by_cases opens : token.lexeme = .opening
    · have opened : State.step (.namedLambdaHead pos name) token =
          .ok (.wait (.parameters pos (some name) [])) := by
        simp only [State.step, opens]
      rw [opened, Reader.proceed_wait]
      exact parseLambdaFrom_agrees below deep pos (some name) around (shorter.le.trans fits) opens
    · have refused : State.step (.namedLambdaHead pos name) token =
          .error (.syntaxAt token.pos .missingParameters) := by
        rcases token with ⟨place, lexeme⟩
        cases lexeme with
        | opening => exact absurd rfl opens
        | _ => rfl
      rw [refused, parseLambdaFrom_of_other (mt Token.kind_eq_opening_iff.1 opens)]
      exact .of_fail token.pos .missingParameters
  · intro place after _
    rw [parseLambdaFrom_of_other (FlatToken.finish_kind_ne_opening place)]
    exact .of_fail place .missingParameters

theorem parseLambda_agrees (pos : Position) (around : List Hole)
    (fits : session.cursor.rest.length <= bound) :
    (parseLambda inner rounds pos).Agrees session nodeOf
      (Reader.resume (.lambdaHead pos) around session.cursor) (continueWith around) := by
  rw [parseLambda]
  apply Agrees.fetch_bind
  · intro token after leads shorter
    have fitsAfter := shorter.le.trans fits
    rcases token with ⟨place, lexeme⟩
    cases lexeme with
    | word keyword =>
        have isSome : (TokenKind.word keyword).word?.isSome = true := TokenKind.isAtom_word keyword
        have goes : (decide ((Token.flat ⟨place, .word keyword⟩).kind = .symbol) ||
            (Token.flat ⟨place, .word keyword⟩).kind.word?.isSome) = true := by
          change (_ || (TokenKind.word keyword).word?.isSome) = true
          rw [isSome, Bool.or_true]
        rw [if_pos goes]
        exact parseLambda_agrees_of_name below deep pos keyword.name around fitsAfter
    | symbol name => exact parseLambda_agrees_of_name below deep pos name around fitsAfter
    | opening =>
        change Agrees (parseLambdaFrom inner rounds pos none (Token.flat ⟨place, .opening⟩)) _ _
          (proceed (.ok (.wait (.parameters pos none []))) around after.cursor) _
        rw [Reader.proceed_wait]
        exact parseLambdaFrom_agrees below deep pos none around fitsAfter rfl
    | _ => exact .of_fail place .missingParameters
  · intro place after _
    exact .of_fail place .missingParameters

/-- A special form is read behind its word. -/
theorem parseSpecial_agrees (form : SpecialForm) (pos : Position) (tail : Bool) (around : List Hole)
    (fits : session.cursor.rest.length <= bound) :
    (parseSpecial inner rounds form pos tail).Agrees session nodeOf
      (proceed ((form.enter pos tail).map .wait) around session.cursor) (continueWith around) := by
  cases form with
  | begin =>
      have closes (trees : List Tree) : (BodyForm.begin tail).close pos trees =
          if trees.length < 0 then .error (.syntaxAt pos (.emptyBody .begin))
          else .ok (.begin { pos, tail } trees) :=
        rfl
      rw [parseSpecial]
      change Agrees _ _ _
        (proceed (.ok (.wait (.series { kind := .body (.begin tail), pos, items := [] }))) _ _) _
      rw [Reader.proceed_wait]
      refine .bind (parseBody_agrees below deep (.begin tail) rfl pos _ closes around fits)
        fun body trees after _ fixed => .of_pure (.begin { pos, tail } trees) ?_ rfl
      intro table grows
      rw [fixed table grows, nodeOf, Node.map, Node.mapSeries_eq]
      rfl
  | define =>
      rw [parseSpecial]
      change Agrees _ _ _ (proceed (.ok (.wait (.definition pos))) _ _) _
      rw [Reader.proceed_wait]
      exact parseDefine_agrees below pos around fits
  | conditional =>
      rw [parseSpecial]
      change Agrees _ _ _
        (proceed (.ok (.wait (.operand (.ifTest pos tail) .conditionalArity))) _ _) _
      rw [Reader.proceed_wait]
      exact parseConditional_agrees below pos tail around fits
  | scope kind =>
      rw [parseSpecial]
      change Agrees _ _ _
        (proceed (.ok (.wait (.scopeHead { pos, kind, tail, bindings := [] }))) _ _) _
      rw [Reader.proceed_wait]
      exact parseScope_agrees below deep kind pos tail around fits
  | lambda =>
      rw [parseSpecial]
      change Agrees _ _ _ (proceed (.ok (.wait (.lambdaHead pos))) _ _) _
      rw [Reader.proceed_wait]
      exact parseLambda_agrees below deep pos around fits
  | recur =>
      rw [parseSpecial]
      cases tail with
      | false => exact .of_fail pos .recurOutsideTail
      | true =>
          change Agrees _ _ _
            (proceed (.ok (.wait (.series { kind := .args, pos, items := [] }))) _ _) _
          rw [Reader.proceed_wait, if_pos rfl]
          have ends : SeriesKind.args.endsInTail? = some false := rfl
          refine parseSequence_bind below deep ends pos around fits fun args trees after fixed =>
            .of_pure (.recur { pos, tail := true } trees) ?_ ?_
          · intro table grows
            rw [fixed table grows, nodeOf, Node.map, Node.mapSeries_eq]
            rfl
          · simp only [Series.close, List.reverse_reverse]
            exact Reader.proceed_complete _ _ _
  | quote =>
      rw [parseSpecial]
      change Agrees _ _ _ (proceed (.ok (.wait (.operand (.quoted pos) .quoteArity))) _ _) _
      rw [Reader.proceed_wait]
      refine .bind (parseOperand_agrees below fits (.quoted pos) rfl _ around)
        fun datum tree after _ fixed => ?_
      rw [Reader.continueWith_of_waiting rfl]
      refine closed_agrees _ _ (fun _ => rfl) fun table grows => ?_
      rw [fixed table grows]
      rfl

/-! ## Expressions of both kinds -/

omit deep in
/-- The datum behind a tick is read and used. -/
theorem parseTicked_bind (inCode : Bool) (pos : Position) (around : List Hole)
    (fits : session.cursor.rest.length <= bound) {use : Node SymbolId -> Descent Other}
    {whole : Whole -> SymbolTable -> Other} {later : Whole -> Cursor -> Reading}
    (next : forall datum tree after, after.table.Fixes datum (nodeOf tree) ->
      (use datum).Agrees after whole
        (continueWith (.ticked inCode pos :: around) tree after.cursor) later) :
    (fetch >>= fun token => inner .data token >>= use).Agrees session whole
      (Reader.resume (.operand (.ticked inCode pos) .unmatchedClosing) around session.cursor)
      later := by
  apply Agrees.fetch_bind
  · intro token after leads shorter
    have stepped : State.step (.operand (.ticked inCode pos) .unmatchedClosing) token =
        (Hole.ticked inCode pos).receive token := by
      rcases token with ⟨place, lexeme⟩
      cases lexeme <;> rfl
    rw [stepped]
    exact .bind
      (below.token .data token after (shorter.trans_le fits) (.ticked inCode pos) around rfl)
      fun datum tree ending _ fixed => next datum tree ending fixed
  · intro place after _
    rw [below.finish, fail_bind]
    exact .of_fail place .unexpectedEnd

/-- What an opening parenthesis begins in data is read. -/
theorem parseData_agrees_of_opening (pos : Position) (around : List Hole)
    (fits : session.cursor.rest.length <= bound) :
    (parseData inner rounds (Token.flat ⟨pos, .opening⟩)).Agrees session nodeOf
      (Reader.resume (.opened .data pos) around session.cursor) (continueWith around) := by
  rw [parseData]
  change Agrees (fetch >>= fun next =>
    if next.kind = .closing then pure (.empty (.plain pos))
    else parseElements inner .data pos [] next rounds) _ _ _ _
  apply Agrees.fetch_bind
  · intro token after leads shorter
    by_cases closed : token.lexeme = .closing
    · rw [if_pos (Token.kind_eq_closing_iff.2 closed)]
      rcases token with ⟨place, lexeme⟩
      cases closed
      exact .of_pure (.empty (.plain pos)) (fun _ _ => rfl) (Reader.proceed_complete _ _ _)
    · rw [if_neg (mt Token.kind_eq_closing_iff.1 closed)]
      exact parseElements_agrees below .data pos around id (fun _ => rfl)
        (fun _ _ => rfl) (shorter.trans_le fits) (by omega) token [] [] fun _ _ => rfl
  · intro place after _
    rw [parseElements_finish (Nat.zero_lt_of_lt deep)]
    exact .of_fail place .unclosed

/-- What an opening parenthesis begins in code is read.  The tail flag of a list is set
afterwards. -/
theorem parseCode_agrees_of_opening (tail : Bool) (pos : Position) (around : List Hole)
    (fits : session.cursor.rest.length <= bound) :
    (parseCode inner rounds tail (Token.flat ⟨pos, .opening⟩)).Agrees session nodeOf
      (Reader.resume (.opened (.code tail) pos) around session.cursor) (continueWith around) := by
  let flagged (tree : Tree) : Tree := if tree.kind = .list then tree.withTail tail else tree
  rw [parseCode]
  apply Agrees.fetch_bind
  · intro token after leads shorter
    have elements :
        (parseElements inner (.code false) pos [] token.flat rounds >>= fun node =>
          if node.kind = .list then pure (node.withTail tail) else pure node).Agrees after nodeOf
            (proceed (Series.step { kind := .elements (.code tail), pos, items := [] } token) around
              after.cursor)
            (continueWith around) := by
      have ofList (trees : List Tree) : flagged (.ofList (.plain pos) trees) =
          .ofList { pos, tail } trees := by
        cases trees <;> rfl
      refine .bind (parseElements_agrees below (.code tail) pos around flagged ofList
        (fun _ _ => rfl) (shorter.trans_le fits) (by omega) token [] [] fun _ _ => rfl)
        fun node tree later _ fixed => ?_
      have kind : node.kind = tree.kind := by
        rw [fixed _ (.refl _), nodeOf]
        cases tree <;> rfl
      rw [kind]
      split
      · next isList =>
          refine .of_pure (tree.withTail tail) (fun table grows => ?_)
            (by simp only [flagged, if_pos isList])
          rw [fixed table grows]
          cases tree <;> rfl
      · next notList => exact .of_pure tree fixed (by simp only [flagged, if_neg notList])
    rcases token with ⟨place, lexeme⟩
    cases lexeme with
    | closing =>
        exact .of_pure (.empty (.plain pos)) (fun _ _ => rfl) (Reader.proceed_complete _ _ _)
    | word keyword =>
        cases keyword with
        | truth value => exact elements
        | head form =>
            exact parseSpecial_agrees below deep form pos tail around (shorter.le.trans fits)
    | _ => exact elements
  · intro place after _
    change Agrees (parseElements inner (.code false) pos [] (.finish place) rounds >>= _) _ _ _ _
    rw [parseElements_finish (Nat.zero_lt_of_lt deep), fail_bind]
    exact .of_fail place .unclosed

/-- An expression is read from its first token on. -/
theorem parsesIn_of_below (slot : Slot) (token : Token)
    (fits : session.cursor.rest.length <= bound) :
    ParsesIn (parseExpression inner rounds) slot token session := by
  by_cases atom : token.lexeme.kind.isAtom = true
  · exact parsesIn_of_isAtom atom inner rounds slot session
  rcases token with ⟨pos, lexeme⟩
  intro hole around same
  cases lexeme with
  | opening =>
      change Agrees _ _ _ (Reader.resume (.opened hole.slot pos) (hole :: around) session.cursor) _
      rw [same]
      cases slot with
      | data => exact parseData_agrees_of_opening below deep pos _ fits
      | code tail => exact parseCode_agrees_of_opening below deep tail pos _ fits
  | tick =>
      change Agrees _ _ _ (Reader.resume (.operand (.ticked (hole.slot != .data) pos)
        .unmatchedClosing) (hole :: around) session.cursor) _
      rw [same]
      cases slot with
      | data =>
          rw [parseExpression, parseData]
          refine parseTicked_bind below false pos _ fits fun datum tree after fixed => ?_
          refine .reservedId_bind (.of_pure
            (.list (.plain pos) (.symbol (.plain pos) (.reserved .quote)) [tree]) ?_ rfl)
          intro table grows
          rw [fixed table grows, after.table.fixes_reservedId .quote table grows]
          rfl
      | code tail =>
          rw [parseExpression, parseCode]
          refine parseTicked_bind below true pos _ fits fun datum tree after fixed => ?_
          refine .of_pure (.quote (.plain pos) tree) (fun table grows => ?_) rfl
          rw [fixed table grows]
          rfl
  | closing =>
      have same : parseExpression inner rounds slot (Token.flat ⟨pos, .closing⟩) =
          fail pos .unmatchedClosing := by
        cases slot <;> rfl
      rw [same]
      exact .of_fail pos .unmatchedClosing
  | dot =>
      have same : parseExpression inner rounds slot (Token.flat ⟨pos, .dot⟩) =
          fail pos .strayDot := by
        cases slot <;> rfl
      rw [same]
      exact .of_fail pos .strayDot
  | word keyword => exact absurd (TokenKind.isAtom_word keyword) atom
  | _ => exact absurd rfl atom

end Below

/-- Every part of the descent comes to an end, and to what the reader comes to.  The
nesting is no deeper than the text is long. -/
theorem parsesBelow (depth : Nat) : ParsesBelow (parseIn (depth + 1)) depth := by
  induction depth with
  | zero =>
      exact ⟨fun slot token session fits => absurd fits (Nat.not_lt_zero _),
        parseExpression_finish⟩
  | succ depth below =>
      refine ⟨fun slot token session fits => ?_, parseExpression_finish⟩
      exact parsesIn_of_below below (Nat.lt_succ_self depth) slot token (Nat.le_of_lt_succ fits)

end Descent

end TailLisp
