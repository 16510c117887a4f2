import Mathlib.Data.List.Nodup
import TailLisp.Proofs.Completion
import TailLisp.Proofs.Grammar

namespace TailLisp

/-!
Every item is accepted.

An item is read part by part, and each part is accepted by the hole where it
belongs.  The expressions of a body are accepted as candidates for the last
one; the candidate of an inner expression demotes to the tree that the grammar
gives it.  The names that arrive at the symbol table on the way are the names
of the tree in the order of its symbols.
-/

open Grammar

namespace Reference

/-- The name that a reference brings to the symbol table.  A reserved word is
there already. -/
def arriving? : Reference -> Option Bytes
  | named name => some name
  | reserved _ => none

end Reference

namespace Node

/-- The names that reading the tree brings to the symbol table, in order. -/
def names (tree : Tree) : List Bytes :=
  tree.symbols.filterMap Reference.arriving?

theorem names_series (items : List Tree) :
    (symbolsOfSeries items).filterMap Reference.arriving? = items.flatMap names := by
  rw [symbolsOfSeries_eq, List.filterMap_flatMap]
  rfl

theorem names_list (mark : Mark) (first : Tree) (others : List Tree) :
    names (list mark first others) = (first :: others).flatMap names := by
  rw [names, symbols, List.filterMap_append, names_series, List.flatMap_cons]
  rfl

theorem names_begin (mark : Mark) (body : List Tree) :
    names (begin mark body) = body.flatMap names :=
  names_series body

theorem names_recur (mark : Mark) (args : List Tree) :
    names (recur mark args) = args.flatMap names :=
  names_series args

theorem names_quote (mark : Mark) (datum : Tree) : names (quote mark datum) = datum.names :=
  rfl

theorem names_define (mark : Mark) (name : Bytes) (value : Tree) :
    names (define mark (.named name) value) = name :: value.names := by
  simp [names, symbols, Reference.arriving?]

theorem names_conditional (mark : Mark) (test consequent alternative : Tree) :
    names (conditional mark test consequent alternative) =
      test.names ++ (consequent.names ++ alternative.names) := by
  simp [names, symbols]

theorem names_pair (mark : Mark) (car cdr : Tree) :
    names (pair mark car cdr) = car.names ++ cdr.names := by
  simp [names, symbols]

theorem names_chain (last : Tree) (items : List Tree) :
    (chain last items).names = items.flatMap names ++ last.names := by
  induction items with
  | nil => rfl
  | cons item items inductionHypothesis =>
      rw [chain, names_pair, inductionHypothesis, List.flatMap_cons, List.append_assoc]

theorem names_scope (mark : Mark) (kind : ScopeKind) (bindings : List BindingPart)
    (body : List Tree) :
    names (scope mark kind (bindings.map BindingPart.pair) body) =
      (bindings.flatMap fun binding => binding.value.tree.names ++ [binding.name]) ++
        body.flatMap names := by
  rw [names, symbols, List.filterMap_append, names_series, symbolsOfBindings_eq, List.flatMap_map,
    List.filterMap_flatMap]
  simp only [List.filterMap_append]
  rfl

theorem names_lambda (mark : Mark) (name : Option Bytes) (params : List Param)
    (body : List Tree) :
    names (lambda mark name (params.map fun param => .named param.name) body) =
      params.map Param.name ++ body.flatMap names := by
  have arrived : (fun param : Param => Reference.arriving? (.named param.name)) =
      fun param => some (Param.name param) := by
    funext param
    rfl
  rw [names, symbols, List.filterMap_append, names_series, List.filterMap_map, Function.comp_def,
    arrived, List.filterMap_eq_map']

end Node

theorem Slot.names_quoted (slot : Slot) (pos : Position) (datum : Tree) :
    (slot.quoted pos datum).names = datum.names := by
  cases slot with
  | data =>
      rw [quoted, Node.names_list, List.flatMap_cons, List.flatMap_singleton]
      rfl
  | code tail => rfl

/-- The hole takes the tokens as an expression: the first of them is received,
and when all are read the tree is in the hole. -/
def Hole.Accepts (hole : Hole) (tokens : List Token) (part : Tree) : Prop :=
  Exists fun token => Exists fun rest => Exists fun step =>
    tokens = token :: rest ∧ hole.receive token = .ok step ∧
    forall {later tree names}, Action.Completes (.settle (hole.fill part)) later tree names ->
      Exists fun restNames => step.interned.toList ++ restNames = part.names ++ names ∧
        step.action.Completes (rest ++ later) tree restNames

namespace Hole

/-- What is received neither closes a form nor stands behind its elements. -/
theorem lexeme_of_receive {hole : Hole} {token : Token} {step : Step}
    (received : hole.receive token = .ok step) :
    token.lexeme ≠ .closing ∧ token.lexeme ≠ .dot := by
  rcases token with ⟨pos, lexeme⟩
  cases lexeme with
  | closing => cases received
  | dot => cases received
  | _ => exact ⟨nofun, nofun⟩

/-- A form that is completed behind its opening parenthesis is accepted. -/
theorem accepts_of_opened {hole : Hole} {pos : Position} {rest : List Token} {part : Tree}
    (completed : Action.Completes (.settle (.waiting (.opened hole.slot pos))) rest part
      part.names) :
    hole.Accepts (⟨pos, .opening⟩ :: rest) part :=
  ⟨_, rest, _, rfl, rfl, fun filled => ⟨_, rfl, .enter completed filled⟩⟩

theorem accepts_atom {hole : Hole} {token : Token} {part : Tree}
    (atom : token.atom? = some part) : hole.Accepts [token] part := by
  rcases token with ⟨pos, lexeme⟩
  -- Every atom settles the hole at once; a symbol also arrives at the table.
  have settled (step : Step) (received : hole.receive ⟨pos, lexeme⟩ = .ok step)
      (filled : step.action = .settle (hole.fill part))
      (arrived : step.interned.toList = part.names) : hole.Accepts [⟨pos, lexeme⟩] part := by
    refine ⟨_, [], step, rfl, received, fun {later tree names} completed => ⟨names, ?_, ?_⟩⟩
    · rw [arrived]
    · rw [filled]
      exact completed
  cases lexeme with
  | integer value =>
      cases atom
      exact settled _ rfl rfl rfl
  | char value =>
      cases atom
      exact settled _ rfl rfl rfl
  | string raw =>
      rcases Option.map_eq_some_iff.1 atom with ⟨contents, decoded, same⟩
      subst same
      refine settled (hole.fillAtom (.string (.plain pos) contents)) ?_ rfl rfl
      simp only [receive, decoded]
  | word keyword =>
      cases keyword with
      | truth value =>
          cases atom
          exact settled _ rfl rfl rfl
      | head form =>
          cases atom
          exact settled _ rfl rfl rfl
  | symbol name =>
      cases atom
      exact settled _ rfl rfl rfl
  | _ => cases atom

end Hole

namespace Action.Completes

theorem operand {hole : Hole} {ifClosed : SyntaxError} {tokens later : List Token}
    {part tree : Tree} {names : List Bytes} (accepted : hole.Accepts tokens part)
    (filled : Completes (.settle (hole.fill part)) later tree names) :
    Completes (.settle (.waiting (.operand hole ifClosed))) (tokens ++ later) tree
      (part.names ++ names) := by
  rcases accepted with ⟨token, rest, step, same, received, continues⟩
  rcases continues filled with ⟨restNames, sameNames, completed⟩
  rw [same, ← sameNames]
  refine .wait ?_ completed
  have notClosing := (Hole.lexeme_of_receive received).1
  rcases token with ⟨pos, lexeme⟩
  cases lexeme with
  | closing => exact (notClosing rfl).elim
  | _ => exact received

/-- A token that only changes the state. -/
theorem waits {state next : State} {token : Token} {later : List Token} {tree : Tree}
    {names : List Bytes} (stepped : state.step token = .ok (.wait next))
    (completed : Completes (.settle (.waiting next)) later tree names) :
    Completes (.settle (.waiting state)) (token :: later) tree names :=
  @wait _ _ (.wait next) _ _ _ stepped completed

/-- A token that changes the state and brings a name to the symbol table. -/
theorem arrives {state next : State} {token : Token} {name : Bytes} {later : List Token}
    {tree : Tree} {names : List Bytes}
    (stepped : state.step token = .ok ⟨.settle (.waiting next), some name⟩)
    (completed : Completes (.settle (.waiting next)) later tree names) :
    Completes (.settle (.waiting state)) (token :: later) tree (name :: names) :=
  @wait _ _ ⟨.settle (.waiting next), some name⟩ _ _ _ stepped completed

/-- The closing parenthesis of a form that is complete. -/
theorem closing {ready : Tree} {otherwise : SyntaxError} {ending : Position} :
    Completes (.settle (.waiting (.closing ready otherwise))) [⟨ending, .closing⟩] ready [] :=
  @wait _ _ (.complete ready) [] ready [] rfl (.complete ready)

/-- An operand before the closing parenthesis of its form. -/
theorem last_operand {hole : Hole} {ifClosed otherwise : SyntaxError} {tokens : List Token}
    {part ready : Tree} {ending : Position} (accepted : hole.Accepts tokens part)
    (filled : hole.fill part = .waiting (.closing ready otherwise)) :
    Completes (.settle (.waiting (.operand hole ifClosed))) (tokens ++ [⟨ending, .closing⟩]) ready
      part.names := by
  rw [← List.append_nil part.names]
  refine operand accepted ?_
  rw [filled]
  exact closing

/-- A series goes on with an expression. -/
theorem series {series next : Series} {tokens later : List Token} {part tree : Tree}
    {names : List Bytes} (gone : series.goOn = .ok next)
    (accepted : (Hole.item next).Accepts tokens part)
    (completed : Completes (.settle (.waiting (.series { next with items := part :: next.items })))
      later tree names) :
    Completes (.settle (.waiting (.series series))) (tokens ++ later) tree
      (part.names ++ names) := by
  rcases accepted with ⟨token, rest, step, same, received, continues⟩
  rcases continues completed with ⟨restNames, sameNames, remaining⟩
  rw [same, ← sameNames]
  refine .wait ?_ remaining
  have received : (series.goOn.bind fun next => (Hole.item next).receive token) = .ok step := by
    rw [gone]
    exact received
  have notSpecial := Hole.lexeme_of_receive ‹_›
  rcases token with ⟨pos, lexeme⟩
  cases lexeme with
  | closing => exact (notSpecial.1 rfl).elim
  | dot => exact (notSpecial.2 rfl).elim
  | _ => exact received

/-- A series that is closed. -/
theorem closed {series : Series} {tree : Tree} {ending : Position}
    (closed : series.close = .ok tree) :
    Completes (.settle (.waiting (.series series))) [⟨ending, .closing⟩] tree [] := by
  refine @wait _ _ (.complete tree) [] tree [] ?_ (.complete tree)
  change series.close.map Step.complete = _
  rw [closed]
  rfl

/-- The tail of a list behind a dot, and the end of the list. -/
theorem dotted {slot : Slot} {pos dot ending : Position} {items : List Tree}
    {tokens : List Token} {last : Tree} (nonempty : items ≠ [])
    (accepted : (Hole.dotted slot pos items).Accepts tokens last) :
    Completes (.settle (.waiting (.series ⟨.elements slot, pos, items⟩)))
      (⟨dot, .dot⟩ :: (tokens ++ [⟨ending, .closing⟩]))
      ((Node.chain last items.reverse).withMark (.plain pos)) last.names := by
  cases items with
  | nil => exact (nonempty rfl).elim
  | cons newest older => exact waits rfl (last_operand accepted rfl)

end Action.Completes

namespace Reader

/-- The holes of a slot accept the items with fewer than a number of tokens. -/
def AcceptsBelow (bound : Nat) : Prop :=
  forall {hole : Hole} {tokens : List Token} {part : Tree}, tokens.length < bound ->
    Item hole.slot tokens part -> hole.Accepts tokens part

section Parts

variable {bound : Nat} (accepts : AcceptsBelow bound)

include accepts

/-- Items of a series whose expressions are never taken back. -/
theorem steady_parts {kind : SeriesKind} {pos : Position} {items : List Tree}
    {parts : List Passage} {later : List Token} {tree : Tree} {names : List Bytes}
    (steady : forall items, Series.goOn ⟨kind, pos, items⟩ = .ok ⟨kind, pos, items⟩)
    (short : (parts.flatMap Passage.tokens).length < bound)
    (all : forall part, part ∈ parts ->
      Item (Series.slot ⟨kind, pos, []⟩) part.tokens part.tree)
    (completed : Action.Completes (.settle (.waiting (.series
      ⟨kind, pos, (parts.map Passage.tree).reverse ++ items⟩))) later tree names) :
    Action.Completes (.settle (.waiting (.series ⟨kind, pos, items⟩)))
      (parts.flatMap Passage.tokens ++ later) tree
      ((parts.map Passage.tree).flatMap Node.names ++ names) := by
  induction parts generalizing items with
  | nil => exact completed
  | cons part parts inductionHypothesis =>
      rw [List.forall_mem_cons] at all
      rw [List.flatMap_cons, List.length_append] at short
      have rest : Action.Completes
          (.settle (.waiting (.series ⟨kind, pos, part.tree :: items⟩)))
          (parts.flatMap Passage.tokens ++ later) tree _ :=
        inductionHypothesis (by omega) all.2 (by simpa using completed)
      have accepted : (Hole.item ⟨kind, pos, items⟩).Accepts part.tokens part.tree :=
        accepts (by omega) all.1
      have whole := Action.Completes.series (steady items) accepted rest
      simpa using whole

/-- The expressions of a body.  What was read before them turns into settled
expressions as soon as another one follows. -/
theorem body_parts {form : BodyForm} {pos : Position} {items settled : List Tree}
    {init : List Passage} {tokens later : List Token} {last tree : Tree} {names : List Bytes}
    (gone : Series.goOn ⟨.body form, pos, items⟩ = .ok ⟨.body form, pos, settled⟩)
    (short : (init.flatMap Passage.tokens).length + tokens.length < bound)
    (all : forall part, part ∈ init -> Item (.code false) part.tokens part.tree)
    (lastItem : Item (.code form.endsInTail) tokens last)
    (completed : Action.Completes (.settle (.waiting (.series
      ⟨.body form, pos, last :: ((init.map Passage.tree).reverse ++ settled)⟩))) later tree names) :
    Action.Completes (.settle (.waiting (.series ⟨.body form, pos, items⟩)))
      (init.flatMap Passage.tokens ++ (tokens ++ later)) tree
      ((init.map Passage.tree ++ [last]).flatMap Node.names ++ names) := by
  induction init generalizing items settled with
  | nil =>
      have accepted : (Hole.item ⟨.body form, pos, settled⟩).Accepts tokens last :=
        accepts (by omega) lastItem
      simpa using Action.Completes.series gone accepted completed
  | cons part init inductionHypothesis =>
      rw [List.forall_mem_cons] at all
      rw [List.flatMap_cons, List.length_append] at short
      -- The reader takes the part for the last one; the candidate demotes to its tree.
      have candidate : Exists fun tree => Item (.code form.endsInTail) part.tokens tree ∧
          tree.names = part.tree.names ∧
          Series.goOn ⟨.body form, pos, tree :: settled⟩ =
            .ok ⟨.body form, pos, part.tree :: settled⟩ := by
        cases inTail : form.endsInTail with
        | false => exact ⟨part.tree, all.1, rfl, by simp [Series.goOn, inTail]⟩
        | true =>
            rcases all.1.promote with ⟨tree, item, demoted⟩
            have sameSymbols := Node.symbols_eq_of_bare_eq (Node.bare_of_demote demoted)
            refine ⟨tree, item, ?_, by simp [Series.goOn, inTail, demoted]⟩
            rw [Node.names, Node.names, sameSymbols]
      rcases candidate with ⟨tree, item, sameNames, demotes⟩
      have accepted : (Hole.item ⟨.body form, pos, settled⟩).Accepts part.tokens tree :=
        accepts (by omega) item
      have rest := inductionHypothesis demotes (by omega) all.2 (by simpa using completed)
      have whole := Action.Completes.series gone accepted rest
      simpa [sameNames] using whole

/-- A whole body with its closing parenthesis. -/
theorem whole_body {form : BodyForm} {pos ending : Position} {init : List Passage}
    {tokens : List Token} {last tree : Tree}
    (short : (init.flatMap Passage.tokens).length + tokens.length < bound)
    (all : forall part, part ∈ init -> Item (.code false) part.tokens part.tree)
    (lastItem : Item (.code form.endsInTail) tokens last)
    (closed : form.close pos (init.map Passage.tree ++ [last]) = .ok tree) :
    Action.Completes (.settle (.waiting (.series ⟨.body form, pos, []⟩)))
      (init.flatMap Passage.tokens ++ (tokens ++ [⟨ending, .closing⟩])) tree
      ((init.map Passage.tree ++ [last]).flatMap Node.names) := by
  have fresh : Series.goOn ⟨.body form, pos, []⟩ = .ok ⟨.body form, pos, []⟩ := rfl
  rw [← List.append_nil (List.flatMap Node.names _)]
  refine body_parts accepts fresh short all lastItem (Action.Completes.closed ?_)
  rw [← closed]
  simp [Series.close]

theorem bindings_parts {head : ScopeHead} {bindings : List BindingPart} {closing : Position}
    {later : List Token} {tree : Tree} {names : List Bytes}
    (short : (bindings.flatMap BindingPart.tokens).length < bound)
    (all : forall binding, binding ∈ bindings ->
      Item (.code false) binding.value.tokens binding.value.tree)
    (completed : Action.Completes (.settle (.waiting (State.scopeBody
      { head with bindings := (bindings.map BindingPart.pair).reverse ++ head.bindings })))
      later tree names) :
    Action.Completes (.settle (.waiting (.bindings head)))
      (bindings.flatMap BindingPart.tokens ++ ⟨closing, .closing⟩ :: later) tree
      ((bindings.flatMap fun binding => binding.value.tree.names ++ [binding.name]) ++ names) := by
  induction bindings generalizing head with
  | nil => exact .waits rfl completed
  | cons binding bindings inductionHypothesis =>
      rw [List.forall_mem_cons] at all
      rw [List.flatMap_cons, List.length_append, BindingPart.tokens, List.length_cons,
        List.length_cons, List.length_append] at short
      have further : Action.Completes
          (.settle (.waiting (.bindings { head with bindings := binding.pair :: head.bindings })))
          (bindings.flatMap BindingPart.tokens ++ ⟨closing, .closing⟩ :: later) tree _ :=
        inductionHypothesis (by omega) all.2 (by simpa using completed)
      have ended : Action.Completes
          (.settle (.waiting (.bindingEnd head binding.name binding.value.tree)))
          (⟨binding.closing, .closing⟩ ::
            (bindings.flatMap BindingPart.tokens ++ ⟨closing, .closing⟩ :: later)) tree _ :=
        .arrives rfl further
      have accepted : (Hole.bound head binding.name).Accepts binding.value.tokens
          binding.value.tree := accepts (by omega) all.1
      have value : Action.Completes
          (.settle (.waiting (.operand (.bound head binding.name)
            (.bindingWithoutValue binding.name))))
          (binding.value.tokens ++ ⟨binding.closing, .closing⟩ :: _) tree _ :=
        .operand accepted ended
      have named : Action.Completes (.settle (.waiting (.bindingName head)))
          (⟨binding.label, .symbol binding.name⟩ :: _) tree _ := .waits rfl value
      have opened : Action.Completes (.settle (.waiting (.bindings head)))
          (⟨binding.opening, .opening⟩ :: _) tree _ := .waits rfl named
      simpa [BindingPart.tokens] using opened

omit accepts in
theorem parameters_parts {pos : Position} {name : Option Bytes} {known : List Bytes}
    {params : List Param} {closing : Position} {later : List Token} {tree : Tree}
    {names : List Bytes} (distinct : ((params.map Param.name).reverse ++ known).Nodup)
    (completed : Action.Completes (.settle (.waiting (State.lambdaBody pos name
      ((params.map Param.name).reverse ++ known)))) later tree names) :
    Action.Completes (.settle (.waiting (.parameters pos name known)))
      (params.map Param.token ++ ⟨closing, .closing⟩ :: later) tree
      (params.map Param.name ++ names) := by
  induction params generalizing known with
  | nil => exact .waits rfl completed
  | cons param params inductionHypothesis =>
      simp only [List.map_cons, List.reverse_cons, List.append_assoc, List.singleton_append]
        at distinct completed
      have further := inductionHypothesis distinct completed
      have fresh : param.name ∉ known := by
        have parts := (List.nodup_append.1 distinct).2.1
        exact (List.nodup_cons.1 parts).1
      refine .arrives ?_ further
      simp only [State.step, Param.token, fresh, if_false]

omit accepts in
/-- The optional name of a lambda leads to its parameters. -/
theorem lambda_head {pos opening : Position} {label : List Token} {name : Option Bytes}
    {later : List Token} {tree : Tree} {names : List Bytes} (labelled : Label label name)
    (completed : Action.Completes (.settle (.waiting (.parameters pos name []))) later tree
      names) :
    Action.Completes (.settle (.waiting (.lambdaHead pos)))
      (label ++ ⟨opening, .opening⟩ :: later) tree names := by
  cases labelled with
  | absent => exact .waits rfl completed
  | @present token name named =>
      have opened : Action.Completes (.settle (.waiting (.namedLambdaHead pos name)))
          (⟨opening, .opening⟩ :: later) tree names := .waits rfl completed
      refine .waits ?_ opened
      rcases token with ⟨place, lexeme⟩
      cases lexeme with
      | word keyword =>
          cases named
          rfl
      | symbol name =>
          cases named
          rfl
      | _ => cases named

omit accepts in
/-- A plain list behind its opening parenthesis is a series of elements. -/
theorem opened_elements {slot : Slot} {pos : Position} {tokens : List Token} {tree : Tree}
    {names : List Bytes} (admitted : slot.admits tokens = true)
    (completed : Action.Completes (.settle (.waiting (.series ⟨.elements slot, pos, []⟩))) tokens
      tree names) :
    Action.Completes (.settle (.waiting (.opened slot pos))) tokens tree names := by
  cases completed with
  | @wait _ token step rest _ names stepped remaining =>
      refine .wait ?_ remaining
      rcases token with ⟨place, lexeme⟩
      cases slot with
      | data => exact stepped
      | code tail =>
          cases lexeme with
          | word keyword =>
              cases keyword with
              | truth value => exact stepped
              | head form => cases admitted
          | _ => exact stepped

/-- A form is completed behind its opening parenthesis as the grammar says. -/
theorem opened_item {slot : Slot} {pos : Position} {rest : List Token} {tree : Tree}
    (short : rest.length <= bound) (item : Item slot (⟨pos, .opening⟩ :: rest) tree) :
    Action.Completes (.settle (.waiting (.opened slot pos))) rest tree tree.names := by
  cases item with
  | atom atom => cases atom
  | empty => exact opened_elements (by cases slot <;> rfl) (.closed rfl)
  | @list _ _ ending first others admitted parts =>
      rw [List.length_append] at short
      have firstItem := parts first List.mem_cons_self
      refine opened_elements ?_ ?_
      · rw [List.flatMap_cons, List.append_assoc, Slot.admits_append firstItem.tokens_ne_nil]
        exact admitted
      · rw [Node.names_list, ← List.append_nil (List.flatMap Node.names _), ← List.map_cons]
        refine steady_parts accepts (fun _ => rfl) (Nat.lt_of_succ_le short) parts (.closed ?_)
        simp [Series.close, Node.ofList]
  | @dotted _ _ dot tokens last ending first others admitted parts lastItem =>
      simp only [List.length_append, List.length_cons] at short
      have firstItem := parts first List.mem_cons_self
      refine opened_elements ?_ ?_
      · rw [List.flatMap_cons, List.append_assoc, Slot.admits_append firstItem.tokens_ne_nil]
        exact admitted
      · rw [Node.names_pair, Node.names_chain, ← List.append_assoc, ← List.flatMap_cons,
          ← List.map_cons]
        refine steady_parts accepts (fun _ => rfl) (by omega) parts ?_
        have tail : (Hole.dotted slot pos (((first :: others).map Passage.tree).reverse ++ [])).Accepts
            tokens last := accepts (by omega) lastItem
        have chained : (Node.chain last (((first :: others).map Passage.tree).reverse ++ []).reverse
            ).withMark (.plain pos) =
              .pair (.plain pos) first.tree (.chain last (others.map Passage.tree)) := by
          simp [Node.chain, Node.withMark]
        rw [← chained]
        exact .dotted (by simp) tail
  | @quote tail _ word tokens datum ending datumItem =>
      simp only [List.length_append, List.length_cons] at short
      have inside : (Hole.quoted pos).Accepts tokens datum := accepts (by omega) datumItem
      rw [Node.names_quote]
      exact .waits rfl (.last_operand inside rfl)
  | emptyBegin => exact .waits rfl (.closed rfl)
  | @begin tail _ word tokens last ending init parts lastItem =>
      simp only [List.length_append, List.length_cons] at short
      rw [Node.names_begin]
      exact .waits rfl (whole_body accepts (by omega) parts lastItem rfl)
  | @define tail _ word name tokens value ending label named valueItem =>
      simp only [List.length_append, List.length_cons] at short
      have inside : (Hole.defined pos name).Accepts tokens value := accepts (by omega) valueItem
      rw [Node.names_define]
      have valued : Action.Completes
          (.settle (.waiting (.operand (.defined pos name) .defineArity)))
          (tokens ++ [⟨ending, .closing⟩]) (.define (.plain pos) (.named name) value) value.names :=
        .last_operand inside rfl
      refine .waits rfl (.arrives ?_ valued)
      simp only [State.step, named]
  | @conditional tail _ word testTokens test consequentTokens consequent alternativeTokens
      alternative ending testItem consequentItem alternativeItem =>
      simp only [List.length_append, List.length_cons] at short
      have first : (Hole.ifTest pos tail).Accepts testTokens test := accepts (by omega) testItem
      have second : (Hole.ifConsequent pos tail test).Accepts consequentTokens consequent :=
        accepts (by omega) consequentItem
      have third : (Hole.ifAlternative pos tail test consequent).Accepts alternativeTokens
          alternative := accepts (by omega) alternativeItem
      rw [Node.names_conditional]
      exact .waits rfl (.operand first (.operand second (.last_operand third rfl)))
  | @scope tail _ word kind opening closing tokens last ending bindings init values parts
      lastItem =>
      simp only [List.length_append, List.length_cons] at short
      rw [Node.names_scope]
      refine .waits rfl (.waits rfl (bindings_parts accepts (by omega) values ?_))
      rw [List.append_nil]
      refine whole_body accepts (by omega) parts lastItem ?_
      simp [BodyForm.close]
  | @lambda tail _ word label name opening closing tokens last ending params init labelled
      distinct parts lastItem =>
      simp only [List.length_append, List.length_cons] at short
      rw [Node.names_lambda]
      refine .waits rfl (lambda_head labelled (parameters_parts ?_ ?_))
      · rw [List.append_nil]
        exact List.nodup_reverse.2 distinct
      · rw [List.append_nil]
        refine whole_body accepts (by omega) parts lastItem ?_
        simp [BodyForm.close]
  | @recur _ word ending args parts =>
      simp only [List.length_append, List.length_cons] at short
      rw [Node.names_recur, ← List.append_nil (List.flatMap Node.names _)]
      refine .waits rfl (steady_parts accepts (fun _ => rfl) (by omega) parts (.closed ?_))
      simp [Series.close]

end Parts

theorem acceptsBelow (bound : Nat) : AcceptsBelow bound := by
  induction bound with
  | zero =>
      intro _ _ _ impossible
      exact (Nat.not_lt_zero _ impossible).elim
  | succ bound accepts =>
      intro hole tokens part short item
      -- Parenthesized forms are completed behind the parenthesis, whatever they are.
      have opened {pos : Position} {rest : List Token} (same : tokens = ⟨pos, .opening⟩ :: rest) :
          hole.Accepts tokens part := by
        subst same
        have inside : rest.length <= bound := Nat.lt_succ_iff.1 (Nat.lt_of_succ_lt short)
        exact Hole.accepts_of_opened (opened_item accepts inside item)
      generalize slotSame : hole.slot = slot at item
      cases item with
      | atom atom => exact Hole.accepts_atom atom
      | @ticked _ pos tokens datum datumItem =>
          have inside : tokens.length < bound := Nat.lt_of_succ_lt_succ short
          have accepted : (Hole.ticked (hole.slot != .data) pos).Accepts tokens datum :=
            accepts inside datumItem
          have filled : Action.Completes
              (.settle ((Hole.ticked (hole.slot != .data) pos).fill datum)) []
              (slot.quoted pos datum) [] := by
            rw [Hole.fill_ticked, slotSame]
            exact .complete _
          refine ⟨_, tokens, _, rfl, rfl, fun completed => ⟨_, rfl, ?_⟩⟩
          rw [Slot.names_quoted, ← List.append_nil tokens, ← List.append_nil datum.names]
          exact .enter (.operand accepted filled) completed
      | _ => exact opened rfl

/-- An item completes its reading, and its names arrive in order. -/
theorem completes_of_item {slot : Slot} {tokens : List Token} {tree : Tree}
    (item : Item slot tokens tree) :
    Action.Completes (.settle (.waiting (.start slot))) tokens tree tree.names := by
  have accepted : (Hole.whole slot).Accepts tokens tree :=
    acceptsBelow (tokens.length + 1) (Nat.lt_succ_self _) item
  have filled : Action.Completes (.settle ((Hole.whole slot).fill tree)) [] tree [] :=
    .complete tree
  rw [← List.append_nil tokens, ← List.append_nil tree.names]
  exact .operand accepted filled

end Reader

end TailLisp
