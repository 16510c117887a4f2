import Mathlib.Data.List.Nodup
import TailLisp.Proofs.Completion
import TailLisp.Proofs.Grammar

namespace TailLisp

/-!
What the reader accepts is an item.

Each state of the reader is described by the tokens that complete a form from
there: a closing parenthesis, a name and what follows it, the remaining parts
of a series.  The descriptions of the states that wait for a part rely on the
parts being items, which holds by induction because a part is shorter than the
form around it.
-/

open Grammar

/-- The tokens begin with an item for the hole, and what follows the item
completes the form with the hole. -/
inductive Hole.Filling (hole : Hole) : List Token -> Tree -> Prop
  | intro {first part later tree names} :
      Item hole.slot first part ->
      Action.Completes (.settle (hole.fill part)) later tree names ->
      Filling hole (first ++ later) tree

/-- The tokens end the series: with its closing parenthesis, or with a dot and
a tail before it. -/
inductive Series.Ending (series : Series) : List Token -> Tree -> Prop
  | closed {pos tree} :
      series.close = .ok tree ->
      Ending series [⟨pos, .closing⟩] tree
  | dotted {slot dot tokens last ending} :
      series.kind = .elements slot ->
      series.items ≠ [] ->
      Item slot.element tokens last ->
      Ending series (⟨dot, .dot⟩ :: (tokens ++ [⟨ending, .closing⟩]))
        ((Node.chain last series.items.reverse).withMark (.plain series.pos))

namespace Reader

theorem closing_completed {ready tree : Tree} {otherwise : SyntaxError} {tokens : List Token}
    {names : List Bytes}
    (completed : Action.Completes (.settle (.waiting (.closing ready otherwise))) tokens tree
      names) :
    tree = ready ∧ Exists fun pos => tokens = [⟨pos, .closing⟩] := by
  cases completed with
  | @wait _ token step rest _ names stepped remaining =>
      rcases token with ⟨pos, lexeme⟩
      cases lexeme with
      | closing =>
          cases stepped
          cases remaining
          exact ⟨rfl, pos, rfl⟩
      | _ => cases stepped

/-- Expressions of which fewer than a number of tokens follow the first are
items of the slot in which they are received. -/
def ReceivesBelow (bound : Nat) : Prop :=
  forall {hole : Hole} {token : Token} {rest : List Token} {step : Step} {tree : Tree}
    {names : List Bytes}, rest.length < bound -> hole.receive token = .ok step ->
      step.action.Completes rest tree names -> hole.Filling (token :: rest) tree

section Parts

variable {bound : Nat} (receives : ReceivesBelow bound)

include receives

theorem operand_completed {hole : Hole} {ifClosed : SyntaxError} {tokens : List Token}
    {tree : Tree} {names : List Bytes} (short : tokens.length <= bound)
    (completed : Action.Completes (.settle (.waiting (.operand hole ifClosed))) tokens tree
      names) :
    hole.Filling tokens tree := by
  cases completed with
  | @wait _ token step rest _ names stepped remaining =>
      rcases token with ⟨pos, lexeme⟩
      refine receives short ?_ remaining
      cases lexeme with
      | closing => cases stepped
      | _ => exact stepped

/-- An operand whose form only waits for its closing parenthesis afterwards. -/
theorem last_operand_completed {hole : Hole} {ifClosed otherwise : SyntaxError}
    {ready : Tree -> Tree} {tokens : List Token} {tree : Tree} {names : List Bytes}
    (filled : forall part, hole.fill part = .waiting (.closing (ready part) otherwise))
    (short : tokens.length <= bound)
    (completed : Action.Completes (.settle (.waiting (.operand hole ifClosed))) tokens tree
      names) :
    Exists fun first => Exists fun part => Exists fun ending =>
      Item hole.slot first part ∧ tokens = first ++ [⟨ending, .closing⟩] ∧
      tree = ready part := by
  rcases operand_completed receives short completed with ⟨item, rest⟩
  rw [filled] at rest
  rcases closing_completed rest with ⟨same, ending, alone⟩
  rw [alone]
  exact ⟨_, _, ending, item, rfl, same⟩

/-- A series ends, or it goes on with an item. -/
theorem series_completed {series : Series} {tokens : List Token} {tree : Tree}
    {names : List Bytes} (short : tokens.length <= bound)
    (completed : Action.Completes (.settle (.waiting (.series series))) tokens tree names) :
    series.Ending tokens tree ∨
      Exists fun next => series.goOn = .ok next ∧ (Hole.item next).Filling tokens tree := by
  cases completed with
  | @wait _ token step rest _ names stepped remaining =>
      rcases token with ⟨pos, lexeme⟩
      -- Every lexeme but a closing parenthesis or a dot goes to the next item.
      have further (received : (series.goOn.bind fun next =>
          (Hole.item next).receive ⟨pos, lexeme⟩) = .ok step) :
          Exists fun next => series.goOn = .ok next ∧
            (Hole.item next).Filling (⟨pos, lexeme⟩ :: rest) tree := by
        cases gone : series.goOn with
        | error fault =>
            rw [gone] at received
            cases received
        | ok next =>
            rw [gone] at received
            exact ⟨next, rfl, receives short received remaining⟩
      cases lexeme with
      | closing =>
          change series.close.map Step.complete = .ok step at stepped
          cases closed : series.close with
          | error fault =>
              rw [closed] at stepped
              cases stepped
          | ok whole =>
              rw [closed] at stepped
              cases stepped
              cases remaining
              exact .inl (.closed closed)
      | dot =>
          rcases series with ⟨kind, place, items⟩
          cases kind with
          | elements slot =>
              cases items with
              | nil => cases stepped
              | cons newest older =>
                  cases stepped
                  have shorter : rest.length <= bound := Nat.le_of_succ_le short
                  rcases last_operand_completed receives (fun _ => rfl) shorter remaining with
                    ⟨first, part, ending, item, tokens, whole⟩
                  rw [tokens, whole]
                  exact .inl (.dotted rfl (List.cons_ne_nil _ _) item)
          | _ => exact .inr (further stepped)
      | _ => exact .inr (further stepped)

/-- A series whose items are never taken back consists of items of one slot. -/
theorem steady_series_completed {kind : SeriesKind} {pos : Position} {items : List Tree}
    {tokens : List Token} {tree : Tree} {names : List Bytes}
    (steady : forall items, Series.goOn ⟨kind, pos, items⟩ = .ok ⟨kind, pos, items⟩)
    (short : tokens.length <= bound)
    (completed : Action.Completes (.settle (.waiting (.series ⟨kind, pos, items⟩))) tokens tree
      names) :
    Exists fun parts : List Passage => Exists fun rest : List Token => (forall part, part ∈ parts ->
        Item (Series.slot ⟨kind, pos, []⟩) part.tokens part.tree) ∧
      tokens = parts.flatMap Passage.tokens ++ rest ∧
        Series.Ending ⟨kind, pos, (parts.map Passage.tree).reverse ++ items⟩ rest tree := by
  induction length : tokens.length using Nat.strongRecOn generalizing tokens items names with
  | ind count shorter =>
      rcases series_completed receives short completed with ending | ⟨next, gone, filling⟩
      · exact ⟨[], tokens, by simp, rfl, ending⟩
      · rw [steady, Except.ok.injEq] at gone
        subst gone
        rcases filling with @⟨first, part, later, _, _, item, rest⟩
        have positive := List.length_pos_iff.2 item.tokens_ne_nil
        rw [List.length_append] at length short
        rcases shorter later.length (by omega) (by omega) rest rfl with
          ⟨parts, remaining, itemsOk, same, ending⟩
        refine ⟨⟨first, part⟩ :: parts, remaining, ?_, ?_, ?_⟩
        · exact List.forall_mem_cons.2 ⟨item, itemsOk⟩
        · rw [same, List.flatMap_cons, List.append_assoc]
        · simpa using ending

/-- A body with an expression already read ends in an item of the slot of its
last expression, and all other items stand outside tail position.  The
expression was read as the last one, so it is an item of that slot. -/
theorem body_completed {form : BodyForm} {pos : Position} {older : List Tree} {newest : Tree}
    {before tokens : List Token} {tree : Tree} {names : List Bytes}
    (item : Item (.code form.endsInTail) before newest) (short : tokens.length <= bound)
    (completed : Action.Completes (.settle (.waiting (.series ⟨.body form, pos, newest :: older⟩)))
      tokens tree names) :
    Exists fun init : List Passage => Exists fun last : Passage => Exists fun ending : Position =>
      (forall part, part ∈ init -> Item (.code false) part.tokens part.tree) ∧
        Item (.code form.endsInTail) last.tokens last.tree ∧
        before ++ tokens = init.flatMap Passage.tokens ++ (last.tokens ++ [⟨ending, .closing⟩]) ∧
        form.close pos (older.reverse ++ (init.map Passage.tree ++ [last.tree])) = .ok tree := by
  induction length : tokens.length using Nat.strongRecOn
    generalizing before tokens older newest names with
  | ind count shorter =>
      rcases series_completed receives short completed with ending | ⟨next, gone, filling⟩
      · cases ending with
        | @closed ending _ closed =>
            refine ⟨[], ⟨before, newest⟩, ending, by simp, item, rfl, ?_⟩
            rw [← closed]
            simp only [Series.close, List.reverse_cons, List.map_nil, List.nil_append]
        | dotted isElements => cases isElements
      · -- What follows makes the newest expression an inner one.
        have demoted : Exists fun inner => Item (.code false) before inner ∧
            next = ⟨.body form, pos, inner :: older⟩ := by
          simp only [Series.goOn] at gone
          split at gone
          · next inTail =>
              rw [inTail] at item
              split at gone
              · next inner demotes =>
                  cases gone
                  exact ⟨inner, item.demote demotes, rfl⟩
              · cases gone
          · next outside =>
              rw [Bool.not_eq_true] at outside
              rw [outside] at item
              cases gone
              exact ⟨newest, item, rfl⟩
        rcases demoted with ⟨inner, innerItem, same⟩
        subst same
        rcases filling with @⟨first, part, later, _, _, nextItem, rest⟩
        have positive := List.length_pos_iff.2 nextItem.tokens_ne_nil
        rw [List.length_append] at length short
        rcases shorter later.length (by omega) nextItem (by omega) rest rfl with
          ⟨init, last, ending, initItems, lastItem, sameTokens, closed⟩
        refine ⟨⟨before, inner⟩ :: init, last, ending, ?_, lastItem, ?_, ?_⟩
        · exact List.forall_mem_cons.2 ⟨innerItem, initItems⟩
        · rw [sameTokens, List.flatMap_cons, List.append_assoc]
        · rw [← closed, List.reverse_cons, List.append_assoc]
          rfl

theorem bindings_completed {head : ScopeHead} {tokens : List Token} {tree : Tree}
    {names : List Bytes} (short : tokens.length <= bound)
    (completed : Action.Completes (.settle (.waiting (.bindings head))) tokens tree names) :
    Exists fun bindings : List BindingPart => Exists fun closing : Position =>
      Exists fun later : List Token => Exists fun laterNames : List Bytes =>
      (forall binding, binding ∈ bindings ->
        Item (.code false) binding.value.tokens binding.value.tree) ∧
      tokens = bindings.flatMap BindingPart.tokens ++ ⟨closing, .closing⟩ :: later ∧
      Action.Completes (.settle (.waiting (State.scopeBody
        { head with bindings := (bindings.map BindingPart.pair).reverse ++ head.bindings })))
        later tree laterNames := by
  induction length : tokens.length using Nat.strongRecOn generalizing tokens head names with
  | ind count shorter =>
      cases completed with
      | @wait _ token step rest _ names stepped remaining =>
          rcases token with ⟨pos, lexeme⟩
          rw [List.length_cons] at length short
          cases lexeme with
          | closing =>
              cases stepped
              exact ⟨[], pos, rest, _, by simp, rfl, remaining⟩
          | opening =>
              cases stepped
              cases remaining with
              | @wait _ label labelStep inside _ _ named afterName =>
                  rcases label with ⟨labelPos, lexeme⟩
                  rw [List.length_cons] at length short
                  cases lexeme with
                  | symbol name =>
                      cases named
                      have valueShort : inside.length <= bound := by omega
                      rcases operand_completed receives valueShort afterName with
                        @⟨first, value, later, _, _, valueItem, afterValue⟩
                      cases afterValue with
                      | @wait _ ending _ remaining _ _ ended further =>
                          rcases ending with ⟨ending, lexeme⟩
                          rw [List.length_append, List.length_cons] at length short
                          cases lexeme with
                          | closing =>
                              cases ended
                              rcases shorter remaining.length (by omega) (by omega) further rfl with
                                ⟨bindings, closing, later, laterNames, items, same, body⟩
                              refine ⟨⟨pos, labelPos, name, ⟨first, value⟩, ending⟩ :: bindings,
                                closing, later, laterNames, ?_, ?_, ?_⟩
                              · exact List.forall_mem_cons.2 ⟨valueItem, items⟩
                              · simp [same, BindingPart.tokens]
                              · simpa [BindingPart.pair] using body
                          | _ => cases ended
                  | _ => cases named
          | _ => cases stepped

omit receives in
theorem parameters_completed {pos : Position} {name : Option Bytes} {known : List Bytes}
    {tokens : List Token} {tree : Tree} {names : List Bytes} (distinct : known.Nodup)
    (completed : Action.Completes (.settle (.waiting (.parameters pos name known))) tokens tree
      names) :
    Exists fun params : List Param => Exists fun closing : Position =>
      Exists fun later : List Token => Exists fun laterNames : List Bytes =>
      ((params.map Param.name).reverse ++ known).Nodup ∧
      tokens = params.map Param.token ++ ⟨closing, .closing⟩ :: later ∧
      Action.Completes (.settle (.waiting (State.lambdaBody pos name
        ((params.map Param.name).reverse ++ known)))) later tree laterNames := by
  induction tokens generalizing known names with
  | nil => cases completed
  | cons token rest inductionHypothesis =>
      cases completed with
      | @wait _ _ step _ _ names stepped remaining =>
          rcases token with ⟨place, lexeme⟩
          cases lexeme with
          | closing =>
              cases stepped
              exact ⟨[], place, rest, _, distinct, rfl, remaining⟩
          | symbol param =>
              simp only [State.step] at stepped
              split at stepped
              · cases stepped
              · next fresh =>
                  cases stepped
                  have extended : (param :: known).Nodup := List.nodup_cons.2 ⟨fresh, distinct⟩
                  rcases inductionHypothesis extended remaining with
                    ⟨params, closing, later, laterNames, allDistinct, same, body⟩
                  refine ⟨⟨place, param⟩ :: params, closing, later, laterNames, ?_, ?_, ?_⟩
                  · simpa using allDistinct
                  · rw [same]
                    rfl
                  · simpa using body
          | _ => cases stepped

/-- A body from its beginning: without expressions it is closed at once. -/
theorem whole_body_completed {form : BodyForm} {pos : Position} {tokens : List Token}
    {tree : Tree} {names : List Bytes} (short : tokens.length <= bound)
    (completed : Action.Completes (.settle (.waiting (.series ⟨.body form, pos, []⟩))) tokens tree
      names) :
    (Exists fun ending => tokens = [⟨ending, .closing⟩] ∧ form.close pos [] = .ok tree) ∨
    Exists fun init : List Passage => Exists fun last : Passage => Exists fun ending : Position =>
      (forall part, part ∈ init -> Item (.code false) part.tokens part.tree) ∧
        Item (.code form.endsInTail) last.tokens last.tree ∧
        tokens = init.flatMap Passage.tokens ++ (last.tokens ++ [⟨ending, .closing⟩]) ∧
        form.close pos (init.map Passage.tree ++ [last.tree]) = .ok tree := by
  rcases series_completed receives short completed with ending | ⟨next, gone, filling⟩
  · cases ending with
    | @closed ending _ closed => exact .inl ⟨ending, rfl, closed⟩
    | dotted isElements => cases isElements
  · cases gone
    rcases filling with @⟨first, part, later, _, _, item, rest⟩
    rw [List.length_append] at short
    exact .inr (body_completed receives item (by omega) rest)

theorem elements_completed {slot : Slot} {pos : Position} {tokens : List Token} {tree : Tree}
    {names : List Bytes} (short : tokens.length <= bound) (admitted : slot.admits tokens = true)
    (completed : Action.Completes (.settle (.waiting (.series ⟨.elements slot, pos, []⟩))) tokens
      tree names) :
    Item slot (⟨pos, .opening⟩ :: tokens) tree := by
  rcases steady_series_completed receives (fun _ => rfl) short completed with
    ⟨parts, rest, items, same, ending⟩
  rw [List.append_nil] at ending
  cases parts with
  | nil =>
      cases ending with
      | closed closed =>
          cases closed
          rw [same]
          exact .empty
      | dotted _ nonempty => exact (nonempty rfl).elim
  | cons first others =>
      have firstItem := items first List.mem_cons_self
      have firstAdmitted : slot.admits first.tokens = true := by
        rwa [same, List.flatMap_cons, List.append_assoc,
          Slot.admits_append firstItem.tokens_ne_nil] at admitted
      cases ending with
      | closed closed =>
          simp only [Series.close, List.reverse_reverse, List.map_cons] at closed
          cases closed
          rw [same]
          exact .list firstAdmitted items
      | @dotted slot dot tokens last ending isElements _ lastItem =>
          cases isElements
          simp only [List.reverse_reverse, List.map_cons]
          rw [same]
          exact .dotted firstAdmitted items lastItem

/-! ## Special forms -/

theorem scope_completed {kind : ScopeKind} {pos word : Position} {tail : Bool}
    {tokens : List Token} {tree : Tree} {names : List Bytes} (short : tokens.length <= bound)
    (completed : Action.Completes (.settle (.waiting (.scopeHead ⟨pos, kind, tail, []⟩))) tokens
      tree names) :
    Item (.code tail) (⟨pos, .opening⟩ :: ⟨word, .word (.head (.scope kind))⟩ :: tokens) tree := by
  cases completed with
  | @wait _ token step rest _ _ stepped remaining =>
      rcases token with ⟨opening, lexeme⟩
      rw [List.length_cons] at short
      cases lexeme with
      | opening =>
          cases stepped
          have inside : rest.length <= bound := by omega
          rcases bindings_completed receives inside remaining with
            ⟨bindings, closing, later, laterNames, values, same, body⟩
          rw [List.append_nil] at body
          rw [same, List.length_append, List.length_cons] at inside
          rcases whole_body_completed receives (by omega) body with
            ⟨ending, _, closed⟩ | ⟨init, last, ending, initItems, lastItem, sameBody, closed⟩
          · cases closed
          · simp only [BodyForm.close, List.isEmpty_eq_false_iff.2 (List.append_ne_nil_of_right_ne_nil _
              (List.cons_ne_nil _ _)), Bool.false_eq_true, if_false, Except.ok.injEq,
              Node.lastReachesRecur_concat, List.reverse_reverse] at closed
            rw [← closed, same, sameBody]
            exact .scope values initItems lastItem
      | _ => cases stepped

omit receives in
/-- The optional name of a lambda, and its opening parenthesis. -/
theorem lambda_head_completed {pos : Position} {tokens : List Token} {tree : Tree}
    {names : List Bytes}
    (completed : Action.Completes (.settle (.waiting (.lambdaHead pos))) tokens tree names) :
    Exists fun label : List Token => Exists fun name : Option Bytes =>
      Exists fun opening : Position => Exists fun later : List Token =>
      Exists fun laterNames : List Bytes => Label label name ∧
      tokens = label ++ ⟨opening, .opening⟩ :: later ∧
      Action.Completes (.settle (.waiting (.parameters pos name []))) later tree laterNames := by
  cases completed with
  | @wait _ token step rest _ _ stepped remaining =>
      rcases token with ⟨place, lexeme⟩
      -- A name leads to the same parenthesis that stands first without one.
      have named (name : Bytes) (isName : lexeme.name? = some name)
          (waits : step = .wait (.namedLambdaHead pos name)) :
          Exists fun label : List Token => Exists fun name : Option Bytes =>
            Exists fun opening : Position => Exists fun later : List Token =>
            Exists fun laterNames : List Bytes => Label label name ∧
            ⟨place, lexeme⟩ :: rest = label ++ ⟨opening, .opening⟩ :: later ∧
            Action.Completes (.settle (.waiting (.parameters pos name []))) later tree
              laterNames := by
        subst waits
        cases remaining with
        | @wait _ token step rest _ _ stepped remaining =>
            rcases token with ⟨opening, after⟩
            cases after with
            | opening =>
                cases stepped
                exact ⟨[⟨place, lexeme⟩], some name, opening, rest, _, .present isName, rfl,
                  remaining⟩
            | _ => cases stepped
      cases lexeme with
      | opening =>
          cases stepped
          exact ⟨[], none, place, rest, _, .absent, rfl, remaining⟩
      | word keyword => exact named keyword.name rfl (Except.ok.inj stepped).symm
      | symbol name => exact named name rfl (Except.ok.inj stepped).symm
      | _ => cases stepped

theorem lambda_completed {pos word : Position} {tail : Bool} {tokens : List Token} {tree : Tree}
    {names : List Bytes} (short : tokens.length <= bound)
    (completed : Action.Completes (.settle (.waiting (.lambdaHead pos))) tokens tree names) :
    Item (.code tail) (⟨pos, .opening⟩ :: ⟨word, .word (.head .lambda)⟩ :: tokens) tree := by
  rcases lambda_head_completed completed with
    ⟨label, name, opening, rest, _, labelled, same, remaining⟩
  rcases parameters_completed List.nodup_nil remaining with
    ⟨params, closing, later, _, distinct, sameParams, body⟩
  rw [List.append_nil] at distinct body
  have inside : later.length <= bound := by
    rw [same, sameParams] at short
    simp only [List.length_append, List.length_cons] at short
    omega
  rcases whole_body_completed receives inside body with
    ⟨ending, _, closed⟩ | ⟨init, last, ending, initItems, lastItem, sameBody, closed⟩
  · cases closed
  · simp only [BodyForm.close, List.isEmpty_eq_false_iff.2 (List.append_ne_nil_of_right_ne_nil _
      (List.cons_ne_nil _ _)), Bool.false_eq_true, if_false, Except.ok.injEq, List.reverse_reverse,
      List.map_map] at closed
    rw [← closed, same, sameParams, sameBody]
    exact .lambda labelled (List.nodup_reverse.1 distinct) initItems lastItem

/-- The word of a special form leads to an item of that form. -/
theorem special_form_completed {form : SpecialForm} {pos word : Position} {tail : Bool}
    {state : State} {tokens : List Token} {tree : Tree} {names : List Bytes}
    (short : tokens.length <= bound) (entered : form.enter pos tail = .ok state)
    (completed : Action.Completes (.settle (.waiting state)) tokens tree names) :
    Item (.code tail) (⟨pos, .opening⟩ :: ⟨word, .word (.head form)⟩ :: tokens) tree := by
  cases form with
  | begin =>
      cases entered
      rcases whole_body_completed receives short completed with
        ⟨ending, same, closed⟩ | ⟨init, last, ending, initItems, lastItem, same, closed⟩
      · cases closed
        rw [same]
        exact .emptyBegin
      · cases closed
        rw [same]
        exact .begin initItems lastItem
  | define =>
      cases entered
      cases completed with
      | @wait _ label step rest _ _ stepped remaining =>
          rw [List.length_cons] at short
          simp only [State.step] at stepped
          split at stepped
          · next name isName =>
              cases stepped
              rcases last_operand_completed receives (fun _ => rfl) (by omega) remaining with
                ⟨first, value, ending, item, same, whole⟩
              rw [same, whole]
              exact .define isName item
          · cases stepped
  | conditional =>
      cases entered
      rcases operand_completed receives short completed with @⟨_, test, later, _, _, testItem, rest⟩
      rw [List.length_append] at short
      rcases operand_completed receives (by omega) rest with
        @⟨_, consequent, later, _, _, consequentItem, rest⟩
      rw [List.length_append] at short
      rcases last_operand_completed receives (fun _ => rfl) (by omega) rest with
        ⟨first, alternative, ending, alternativeItem, same, whole⟩
      rw [same, whole]
      exact .conditional testItem consequentItem alternativeItem
  | scope kind =>
      cases entered
      exact scope_completed receives short completed
  | lambda =>
      cases entered
      exact lambda_completed receives short completed
  | recur =>
      cases tail with
      | false => cases entered
      | true =>
          cases entered
          rcases steady_series_completed receives (fun _ => rfl) short completed with
            ⟨args, rest, items, same, ending⟩
          rw [List.append_nil] at ending
          cases ending with
          | closed closed =>
              simp only [Series.close, List.reverse_reverse] at closed
              cases closed
              rw [same]
              exact .recur items
          | dotted isElements => cases isElements
  | quote =>
      cases entered
      rcases last_operand_completed receives (fun _ => rfl) short completed with
        ⟨first, datum, ending, item, same, whole⟩
      rw [same, whole]
      exact .quote item

theorem opened_completed {slot : Slot} {pos : Position} {tokens : List Token} {tree : Tree}
    {names : List Bytes} (short : tokens.length <= bound)
    (completed : Action.Completes (.settle (.waiting (.opened slot pos))) tokens tree names) :
    Item slot (⟨pos, .opening⟩ :: tokens) tree := by
  cases completed with
  | @wait _ token step rest _ _ stepped remaining =>
      rcases token with ⟨place, lexeme⟩
      -- Without a special form's word the first token is read as that of a plain list.
      have plain (admitted : slot.admits (⟨place, lexeme⟩ :: rest) = true)
          (stepped : State.step (.series ⟨.elements slot, pos, []⟩) ⟨place, lexeme⟩ = .ok step) :
          Item slot (⟨pos, .opening⟩ :: ⟨place, lexeme⟩ :: rest) tree :=
        elements_completed receives short admitted (.wait stepped remaining)
      cases slot with
      | data => exact plain rfl stepped
      | code tail =>
          cases lexeme with
          | word keyword =>
              cases keyword with
              | truth value => exact plain rfl stepped
              | head form =>
                  change (form.enter pos tail).map Step.wait = .ok step at stepped
                  cases entered : form.enter pos tail with
                  | error fault =>
                      rw [entered] at stepped
                      cases stepped
                  | ok state =>
                      rw [entered] at stepped
                      cases stepped
                      rw [List.length_cons] at short
                      exact special_form_completed receives (by omega) entered remaining
          | _ => exact plain rfl stepped

end Parts

theorem receivesBelow (bound : Nat) : ReceivesBelow bound := by
  induction bound with
  | zero =>
      intro _ _ _ _ _ _ impossible
      exact (Nat.not_lt_zero _ impossible).elim
  | succ bound receives =>
      intro hole token rest step tree names short received remaining
      have inside : rest.length <= bound := Nat.le_of_lt_succ short
      rcases token with ⟨pos, lexeme⟩
      -- An atom is an item by itself, and nothing of what follows belongs to it.
      have alone (part : Tree) (atom : Token.atom? ⟨pos, lexeme⟩ = some part)
          (filled : step.action = .settle (hole.fill part)) :
          hole.Filling (⟨pos, lexeme⟩ :: rest) tree := by
        rw [filled] at remaining
        exact .intro (.atom atom) remaining
      cases lexeme with
      | opening =>
          cases received
          cases remaining with
          | @enter _ _ tokens part _ later _ _ completed outer =>
              rw [List.length_append] at inside
              exact .intro (opened_completed receives (by omega) completed) outer
      | tick =>
          cases received
          cases remaining with
          | @enter _ _ tokens part _ later _ _ completed outer =>
              rw [List.length_append] at inside
              rcases operand_completed receives (by omega) completed with
                @⟨first, datum, nothing, _, _, item, filled⟩
              rw [Hole.fill_ticked] at filled
              cases filled
              rw [List.append_nil, ← List.cons_append]
              exact .intro (.ticked item) outer
      | closing => cases received
      | dot => cases received
      | integer value =>
          cases received
          exact alone _ rfl rfl
      | char value =>
          cases received
          exact alone _ rfl rfl
      | string raw =>
          simp only [Hole.receive] at received
          split at received
          · next contents decoded =>
              cases received
              exact alone (.string (.plain pos) contents) (by simp [Token.atom?, decoded]) rfl
          · cases received
      | word keyword =>
          cases keyword with
          | truth value =>
              cases received
              exact alone _ rfl rfl
          | head form =>
              cases received
              exact alone _ rfl rfl
      | symbol name =>
          cases received
          exact alone _ rfl rfl

/-- Tokens that complete the reading of an item are an item. -/
theorem item_of_completes {slot : Slot} {tokens : List Token} {tree : Tree} {names : List Bytes}
    (completed : Action.Completes (.settle (.waiting (.start slot))) tokens tree names) :
    Item slot tokens tree := by
  rcases operand_completed (receivesBelow tokens.length) (Nat.le_refl _) completed with
    @⟨first, part, later, _, _, item, rest⟩
  cases rest
  rw [List.append_nil]
  exact item

end Reader

end TailLisp
