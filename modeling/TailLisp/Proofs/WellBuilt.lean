import TailLisp.Proofs.Advancing
import TailLisp.Proofs.NodePlaces
import TailLisp.Proofs.Subexpressions

namespace TailLisp

/-!
What the reader builds is complete.

The type of trees admits scopes and lambdas without a body, and lambdas with the
same parameter twice.  Some questions about trees have no answer for these, such
as where the way out of a scope leads.  The reader never builds one.  It asks for
a body in one place, when a series of expressions is closed, and for distinct
parameters in another, when a name is read; the trees are put together later and
are asked about in yet other places.

What connects these places is an invariant.  All trees that an unfinished form
holds are complete, and so are the trees that a step puts together from them.  It
holds of every state that the reader comes to, also on the way to a fault, and at
the end of the tree that is returned.
-/

namespace Reference

/-- Both are names, and they differ. -/
def Apart : Reference -> Reference -> Prop
  | named first, named second => first ≠ second
  | _, _ => False

end Reference

open Reference (Apart)

/-! ## Complete trees -/

namespace Node

variable {Symbol Target : Type} {apart : Symbol -> Symbol -> Prop}
  {other : Target -> Target -> Prop}

/-- Nothing is missing in the node: a list has an element, and a scope or a
lambda has a body.  The parameters of a lambda are told apart. -/
def Complete (apart : Symbol -> Symbol -> Prop) : Node Symbol -> Prop
  | list mark first others => (list mark first others).children ≠ []
  | scope _ _ _ body => body ≠ []
  | lambda _ _ params body => body ≠ [] ∧ params.Pairwise apart
  | _ => True

/-- All nodes of the tree are complete. -/
def WellBuilt (apart : Symbol -> Symbol -> Prop) (tree : Node Symbol) : Prop :=
  forall node, node ∈ tree.preorder -> node.Complete apart

theorem wellBuilt_iff {tree : Node Symbol} :
    tree.WellBuilt apart ↔
      tree.Complete apart ∧ forall child, child ∈ tree.children -> child.WellBuilt apart := by
  rw [WellBuilt, preorder_eq, List.forall_mem_cons, List.forall_mem_flatMap]
  rfl

namespace WellBuilt

theorem complete {node : Node Symbol} (built : node.WellBuilt apart) : node.Complete apart :=
  (wellBuilt_iff.1 built).1

/-- Every node of a well built tree is the root of a well built tree. -/
theorem of_mem {tree inner : Node Symbol} (built : tree.WellBuilt apart)
    (member : inner ∈ tree.preorder) : inner.WellBuilt apart := by
  induction tree using byChildren with
  | step tree inChildren =>
      rw [preorder_eq] at member
      rcases List.mem_cons.1 member with same | below
      · rwa [same]
      · rcases List.mem_flatMap.1 below with ⟨child, isChild, inside⟩
        exact inChildren child isChild ((wellBuilt_iff.1 built).2 child isChild) inside

/-- A node that has no parts is complete. -/
theorem atom {node : Node Symbol} (complete : node.Complete apart) (alone : node.children = []) :
    node.WellBuilt apart := by
  refine wellBuilt_iff.2 ⟨complete, ?_⟩
  rw [alone]
  exact List.forall_mem_nil _

theorem list {mark : Mark} {first : Node Symbol} {others : List (Node Symbol)}
    (parts : forall part, part ∈ first :: others -> part.WellBuilt apart) :
    (Node.list mark first others).WellBuilt apart := by
  rw [wellBuilt_iff, Complete, children_list]
  exact ⟨List.cons_ne_nil _ _, parts⟩

theorem ofList {mark : Mark} {items : List (Node Symbol)}
    (parts : forall item, item ∈ items -> item.WellBuilt apart) :
    (Node.ofList mark items).WellBuilt apart := by
  cases items with
  | nil => exact atom trivial rfl
  | cons first others => exact list parts

theorem quote {mark : Mark} {datum : Node Symbol} (part : datum.WellBuilt apart) :
    (Node.quote mark datum).WellBuilt apart :=
  wellBuilt_iff.2 ⟨trivial, List.forall_mem_singleton.2 part⟩

theorem define {mark : Mark} {name : Symbol} {value : Node Symbol}
    (part : value.WellBuilt apart) : (Node.define mark name value).WellBuilt apart :=
  wellBuilt_iff.2 ⟨trivial, List.forall_mem_singleton.2 part⟩

theorem pair {mark : Mark} {car cdr : Node Symbol} (inCar : car.WellBuilt apart)
    (inCdr : cdr.WellBuilt apart) : (Node.pair mark car cdr).WellBuilt apart :=
  wellBuilt_iff.2 ⟨trivial, List.forall_mem_cons.2 ⟨inCar, List.forall_mem_singleton.2 inCdr⟩⟩

theorem chain {items : List (Node Symbol)} {ending : Node Symbol}
    (parts : forall item, item ∈ items -> item.WellBuilt apart)
    (inEnding : ending.WellBuilt apart) : (Node.chain ending items).WellBuilt apart := by
  induction items with
  | nil => exact inEnding
  | cons item items inductionHypothesis =>
      rcases List.forall_mem_cons.1 parts with ⟨inFirst, inOthers⟩
      exact pair inFirst (inductionHypothesis inOthers)

theorem begin_iff {mark : Mark} {body : List (Node Symbol)} :
    (Node.begin mark body).WellBuilt apart ↔
      forall item, item ∈ body -> item.WellBuilt apart := by
  rw [wellBuilt_iff, children_begin]
  exact and_iff_right trivial

theorem conditional_iff {mark : Mark} {test consequent alternative : Node Symbol} :
    (Node.conditional mark test consequent alternative).WellBuilt apart ↔
      test.WellBuilt apart ∧ consequent.WellBuilt apart ∧ alternative.WellBuilt apart := by
  rw [wellBuilt_iff]
  refine (and_iff_right trivial).trans ?_
  rw [children, parts, List.map_cons, List.map_cons, List.map_cons, List.map_nil,
    List.forall_mem_cons, List.forall_mem_cons, List.forall_mem_singleton]

theorem scope_iff {mark : Mark} {kind : ScopeKind} {bindings : List (Symbol × Node Symbol)}
    {body : List (Node Symbol)} :
    (Node.scope mark kind bindings body).WellBuilt apart ↔
      body ≠ [] ∧ (forall binding, binding ∈ bindings -> binding.2.WellBuilt apart) ∧
        forall item, item ∈ body -> item.WellBuilt apart := by
  rw [wellBuilt_iff, children_scope, List.forall_mem_append, List.forall_mem_map]
  rfl

theorem lambda_iff {mark : Mark} {name : Option Bytes} {params : List Symbol}
    {body : List (Node Symbol)} :
    (Node.lambda mark name params body).WellBuilt apart ↔
      (body ≠ [] ∧ params.Pairwise apart) ∧ forall item, item ∈ body -> item.WellBuilt apart := by
  rw [wellBuilt_iff, children_lambda]
  rfl

theorem recur {mark : Mark} {args : List (Node Symbol)}
    (parts : forall item, item ∈ args -> item.WellBuilt apart) :
    (Node.recur mark args).WellBuilt apart := by
  rw [wellBuilt_iff, children_recur]
  exact ⟨trivial, parts⟩

/-- Marks have no part in it. -/
theorem withMark {tree : Node Symbol} (built : tree.WellBuilt apart) (mark : Mark) :
    (tree.withMark mark).WellBuilt apart := by
  rw [wellBuilt_iff] at built ⊢
  cases tree <;> exact built

/-- Neither has demotion. -/
theorem demote {tree demoted : Node Symbol} (built : tree.WellBuilt apart)
    (demotes : tree.demote = .ok demoted) : demoted.WellBuilt apart := by
  induction tree generalizing demoted with
  | begin mark body inBody =>
      rcases List.eq_nil_or_concat' body with nothing | ⟨init, last, same⟩
      · subst nothing
        cases demotes
        exact begin_iff.2 (List.forall_mem_nil _)
      · subst same
        rcases demote_begin_eq_ok.1 demotes with ⟨ending, endingDemoted, same⟩
        rcases List.forall_mem_append.1 (begin_iff.1 built) with ⟨inInit, inLast⟩
        have inEnding := inBody last (by simp) (inLast last (by simp)) endingDemoted
        rw [same, begin_iff]
        exact List.forall_mem_append.2 ⟨inInit, List.forall_mem_singleton.2 inEnding⟩
  | conditional mark test consequent alternative _ inConsequent inAlternative =>
      rcases demote_conditional_eq_ok.1 demotes with ⟨left, right, leftDemoted, rightDemoted, same⟩
      rcases conditional_iff.1 built with ⟨testBuilt, consequentBuilt, alternativeBuilt⟩
      rw [same, conditional_iff]
      exact ⟨testBuilt, inConsequent consequentBuilt leftDemoted,
        inAlternative alternativeBuilt rightDemoted⟩
  | recur mark args => cases demotes
  | list mark first others =>
      cases demotes
      exact built.withMark _
  | scope mark kind bindings body =>
      cases demotes
      exact built.withMark _
  | _ =>
      cases demotes
      exact built

/-- A tree stays well built if its symbols are replaced and those that were told
apart still are. -/
theorem map {replace : Symbol -> Target} {tree : Node Symbol} (built : tree.WellBuilt apart)
    (keeps : forall first, first ∈ tree.symbols -> forall second, second ∈ tree.symbols ->
      apart first second -> other (replace first) (replace second)) :
    (tree.map replace).WellBuilt other := by
  induction tree using byChildren with
  | step tree inductionHypothesis =>
      rcases wellBuilt_iff.1 built with ⟨complete, inChildren⟩
      rw [wellBuilt_iff, children_map, List.forall_mem_map]
      constructor
      · cases tree with
        | list mark first others =>
            rw [Node.map, Complete, children_list]
            exact List.cons_ne_nil _ _
        | scope mark kind bindings body =>
            rw [Node.map, Complete, mapSeries_eq]
            exact List.map_eq_nil_iff.not.2 complete
        | lambda mark name params body =>
            rw [Node.map, Complete, mapSeries_eq, List.pairwise_map]
            refine ⟨List.map_eq_nil_iff.not.2 complete.1, complete.2.imp_of_mem ?_⟩
            intro first second inFirst inSecond
            exact keeps first (List.mem_append_left _ inFirst) second
              (List.mem_append_left _ inSecond)
        | _ => trivial
      · intro child member
        rcases List.mem_map.1 member with ⟨⟨slot, part⟩, isPart, same⟩
        have subset : child.symbols ⊆ tree.symbols := same ▸ symbols_subset_of_parts isPart
        refine inductionHypothesis child member (inChildren child member) ?_
        intro first inFirst second inSecond
        exact keeps first (subset inFirst) second (subset inSecond)

end WellBuilt

end Node

/-! ## Unfinished forms -/

/-- The values of the bindings are well built. -/
def ScopeHead.WellBuilt (head : ScopeHead) : Prop :=
  forall binding, binding ∈ head.bindings -> binding.2.WellBuilt Apart

/-- What was read of the form before its body is well built. -/
def BodyForm.WellBuilt : BodyForm -> Prop
  | begin _ => True
  | scope _ _ bindings => forall binding, binding ∈ bindings -> binding.2.WellBuilt Apart
  | lambda _ params => params.Nodup

/-- What was read of the form before its series is well built. -/
def SeriesKind.WellBuilt : SeriesKind -> Prop
  | body form => form.WellBuilt
  | _ => True

/-- The form of the series and the expressions read so far are well built. -/
structure Series.WellBuilt (series : Series) : Prop where
  kind : series.kind.WellBuilt
  items : forall item, item ∈ series.items -> item.WellBuilt Apart

/-- A series begins with what was read before it. -/
theorem Series.WellBuilt.begun (kind : SeriesKind) (pos : Position) (built : kind.WellBuilt) :
    Series.WellBuilt { kind, pos, items := [] } :=
  ⟨built, List.forall_mem_nil _⟩

/-- What was read of the form before the hole is well built. -/
def Hole.WellBuilt : Hole -> Prop
  | item series => series.WellBuilt
  | dotted _ _ items => forall item, item ∈ items -> item.WellBuilt Apart
  | ifConsequent _ _ test => test.WellBuilt Apart
  | ifAlternative _ _ test consequent => test.WellBuilt Apart ∧ consequent.WellBuilt Apart
  | bound head _ => head.WellBuilt
  | _ => True

/-- What the form holds is well built, and its parameters are distinct. -/
def State.WellBuilt : State -> Prop
  | operand hole _ => hole.WellBuilt
  | series items => items.WellBuilt
  | closing tree _ => tree.WellBuilt Apart
  | scopeHead head => head.WellBuilt
  | bindings head => head.WellBuilt
  | bindingName head => head.WellBuilt
  | bindingEnd head _ value => head.WellBuilt ∧ value.WellBuilt Apart
  | parameters _ _ params => params.Nodup
  | _ => True

def Filled.WellBuilt : Filled -> Prop
  | waiting state => state.WellBuilt
  | complete tree => tree.WellBuilt Apart

def Action.WellBuilt : Action -> Prop
  | settle filled => filled.WellBuilt
  | enter hole state => hole.WellBuilt ∧ state.WellBuilt

def Progress.WellBuilt : Progress -> Prop
  | reading state around => state.WellBuilt ∧ forall hole, hole ∈ around -> hole.WellBuilt
  | finished tree => tree.WellBuilt Apart

/-! ## One token -/

/-- A well built tree in a hole of a well built form leaves it well built. -/
theorem Hole.WellBuilt.fill {hole : Hole} {tree : Tree} (outside : hole.WellBuilt)
    (inside : tree.WellBuilt Apart) : (hole.fill tree).WellBuilt := by
  cases hole with
  | whole slot => exact inside
  | ticked inCode pos =>
      cases inCode with
      | true => exact .quote inside
      | false =>
          refine .list (List.forall_mem_cons.2 ⟨.atom trivial rfl, ?_⟩)
          exact List.forall_mem_singleton.2 inside
  | item series => exact ⟨outside.kind, List.forall_mem_cons.2 ⟨inside, outside.items⟩⟩
  | dotted slot pos items =>
      refine Node.WellBuilt.withMark (.chain ?_ inside) _
      intro item member
      exact outside item (List.mem_reverse.1 member)
  | quoted pos => exact .quote inside
  | defined pos name => exact .define inside
  | ifTest pos tail => exact inside
  | ifConsequent pos tail test => exact ⟨outside, inside⟩
  | ifAlternative pos tail test consequent =>
      exact Node.WellBuilt.conditional_iff.2 ⟨outside.1, outside.2, inside⟩
  | bound head name => exact ⟨outside, inside⟩

theorem Filled.WellBuilt.settle {filled : Filled} {around : List Hole} (inside : filled.WellBuilt)
    (outside : forall hole, hole ∈ around -> hole.WellBuilt) :
    (filled.settle around).WellBuilt := by
  induction around generalizing filled with
  | nil =>
      cases filled with
      | waiting state => exact ⟨inside, outside⟩
      | complete tree => exact inside
  | cons hole around inductionHypothesis =>
      cases filled with
      | waiting state => exact ⟨inside, outside⟩
      | complete tree =>
          rcases List.forall_mem_cons.1 outside with ⟨inHole, further⟩
          exact inductionHypothesis (inHole.fill inside) further

theorem Action.WellBuilt.apply {action : Action} {around : List Hole} (inside : action.WellBuilt)
    (outside : forall hole, hole ∈ around -> hole.WellBuilt) :
    (action.apply around).WellBuilt := by
  cases action with
  | settle filled => exact Filled.WellBuilt.settle inside outside
  | enter hole state => exact ⟨inside.2, List.forall_mem_cons.2 ⟨inside.1, outside⟩⟩

theorem Hole.WellBuilt.receive {hole : Hole} {token : Token} {step : Step}
    (outside : hole.WellBuilt) (received : hole.receive token = .ok step) :
    step.action.WellBuilt := by
  rcases token with ⟨pos, lexeme⟩
  cases lexeme with
  | opening =>
      cases received
      exact ⟨outside, trivial⟩
  | tick =>
      cases received
      exact ⟨outside, trivial⟩
  | string raw =>
      simp only [Hole.receive] at received
      split at received
      · cases received
        exact outside.fill (.atom trivial rfl)
      · cases received
  | word keyword =>
      cases keyword <;>
      · cases received
        exact outside.fill (.atom trivial rfl)
  | closing => cases received
  | dot => cases received
  | _ =>
      cases received
      exact outside.fill (.atom trivial rfl)

/-- Names that differ are told apart when they have become references. -/
theorem Reference.pairwise_named {names : List Bytes} (distinct : names.Nodup) :
    (names.map named).Pairwise Apart :=
  List.pairwise_map.2 distinct

/-- A form is closed only with a body, if it needs one. -/
theorem BodyForm.WellBuilt.close {form : BodyForm} {pos : Position} {body : List Tree}
    {tree : Tree} (before : form.WellBuilt)
    (inBody : forall item, item ∈ body -> item.WellBuilt Apart)
    (closed : form.close pos body = .ok tree) : tree.WellBuilt Apart := by
  cases form with
  | begin tail =>
      cases closed
      exact Node.WellBuilt.begin_iff.2 inBody
  | scope kind tail bindings =>
      simp only [BodyForm.close] at closed
      split at closed
      · cases closed
      · next nonempty =>
          cases closed
          refine Node.WellBuilt.scope_iff.2 ⟨List.isEmpty_iff.not.1 nonempty, ?_, inBody⟩
          intro binding member
          exact before binding (List.mem_reverse.1 member)
  | lambda name params =>
      simp only [BodyForm.close] at closed
      split at closed
      · cases closed
      · next nonempty =>
          cases closed
          refine Node.WellBuilt.lambda_iff.2 ⟨⟨List.isEmpty_iff.not.1 nonempty, ?_⟩, inBody⟩
          exact Reference.pairwise_named (List.nodup_reverse.2 before)

namespace Series.WellBuilt

variable {series : Series}

theorem close (built : series.WellBuilt) {tree : Tree} (closed : series.close = .ok tree) :
    tree.WellBuilt Apart := by
  have inItems : forall item, item ∈ series.items.reverse -> item.WellBuilt Apart :=
    fun item member => built.items item (List.mem_reverse.1 member)
  rcases series with ⟨kind, pos, items⟩
  cases kind with
  | elements slot =>
      cases closed
      exact .ofList inItems
  | body form => exact BodyForm.WellBuilt.close built.kind inItems closed
  | args =>
      cases closed
      exact .recur inItems

theorem goOn (built : series.WellBuilt) {next : Series} (gone : series.goOn = .ok next) :
    next.WellBuilt := by
  simp only [Series.goOn] at gone
  split at gone
  · next form newest older isBody items =>
      split at gone
      · split at gone
        · next demoted demotes =>
            cases gone
            have inItems := built.items
            rw [items] at inItems
            rcases List.forall_mem_cons.1 inItems with ⟨inNewest, inOlder⟩
            exact ⟨built.kind, List.forall_mem_cons.2 ⟨inNewest.demote demotes, inOlder⟩⟩
        · cases gone
      · cases gone
        exact built
  · cases gone
    exact built

theorem step (built : series.WellBuilt) {token : Token} {step : Step}
    (stepped : series.step token = .ok step) : step.action.WellBuilt := by
  have further (received : (series.goOn.bind fun next => (Hole.item next).receive token) =
      .ok step) : step.action.WellBuilt := by
    cases gone : series.goOn with
    | error fault =>
        rw [gone] at received
        cases received
    | ok next =>
        rw [gone] at received
        have outside : (Hole.item next).WellBuilt := built.goOn gone
        exact outside.receive received
  simp only [Series.step] at stepped
  split at stepped
  · cases closed : series.close with
    | error fault =>
        rw [closed] at stepped
        cases stepped
    | ok tree =>
        rw [closed] at stepped
        cases stepped
        exact built.close closed
  · split at stepped
    · cases stepped
    · cases stepped
      exact built.items
    · exact further stepped
  · exact further stepped

end Series.WellBuilt

theorem SpecialForm.wellBuilt_of_enter {form : SpecialForm} {pos : Position} {tail : Bool}
    {state : State} (entered : form.enter pos tail = .ok state) : state.WellBuilt := by
  cases form with
  | begin =>
      cases entered
      exact Series.WellBuilt.begun (.body (.begin tail)) pos trivial
  | recur =>
      cases tail with
      | false => cases entered
      | true =>
          cases entered
          exact Series.WellBuilt.begun .args pos trivial
  | scope kind =>
      cases entered
      exact List.forall_mem_nil _
  | _ =>
      cases entered
      trivial

/-- A step from a well built form leads to well built forms. -/
theorem State.WellBuilt.step {state : State} {token : Token} {step : Step}
    (built : state.WellBuilt) (stepped : state.step token = .ok step) :
    step.action.WellBuilt := by
  cases state with
  | operand hole ifClosed =>
      simp only [State.step] at stepped
      split at stepped
      · cases stepped
      · exact Hole.WellBuilt.receive built stepped
  | opened slot pos =>
      have begun (slot : Slot) : Series.WellBuilt { kind := .elements slot, pos, items := [] } :=
        .begun (.elements slot) pos trivial
      simp only [State.step] at stepped
      split at stepped
      · next tail form _ =>
          cases entered : form.enter pos tail with
          | error fault =>
              rw [entered] at stepped
              cases stepped
          | ok inner =>
              rw [entered] at stepped
              cases stepped
              exact SpecialForm.wellBuilt_of_enter entered
      · exact (begun _).step stepped
  | series items => exact Series.WellBuilt.step built stepped
  | bindings head =>
      simp only [State.step] at stepped
      split at stepped
      · cases stepped
        exact Series.WellBuilt.begun (.body (.scope head.kind head.tail head.bindings)) head.pos
          built
      · cases stepped
        exact built
      · cases stepped
  | bindingEnd head name value =>
      simp only [State.step] at stepped
      split at stepped
      · cases stepped
        exact List.forall_mem_cons.2 ⟨built.2, built.1⟩
      · cases stepped
  | lambdaHead pos =>
      simp only [State.step] at stepped
      split at stepped
      · cases stepped
        exact List.nodup_nil
      · split at stepped
        · cases stepped
          trivial
        · cases stepped
  | namedLambdaHead pos name =>
      simp only [State.step] at stepped
      split at stepped
      · cases stepped
        exact List.nodup_nil
      · cases stepped
  | parameters pos name params =>
      simp only [State.step] at stepped
      split at stepped
      · cases stepped
        exact Series.WellBuilt.begun (.body (.lambda name params)) pos built
      · split at stepped
        · cases stepped
        · next fresh =>
            cases stepped
            exact List.nodup_cons.2 ⟨fresh, built⟩
      · cases stepped
  | definition pos =>
      simp only [State.step] at stepped
      split at stepped
      · cases stepped
        trivial
      · cases stepped
  | _ =>
      -- The form goes on with what it holds.
      simp only [State.step] at stepped
      split at stepped
      · cases stepped
        exact built
      · cases stepped

/-- From well built forms tokens lead to well built forms. -/
theorem Progress.Advances.wellBuilt {progress last : Progress} {tokens : List Token}
    (advanced : progress.Advances tokens last) (built : progress.WellBuilt) : last.WellBuilt := by
  induction advanced with
  | nil => exact built
  | cons stepped _ inductionHypothesis =>
      exact inductionHypothesis ((built.1.step stepped).apply built.2)

/-! ## Whole readings -/

namespace Reader

theorem start_wellBuilt (slot : Slot) : (State.start slot).WellBuilt :=
  trivial

/-- A reading that goes on from well built forms returns a well built tree. -/
theorem wellBuilt_of_resume {state : State} {around : List Hole} {cursor : Cursor} {tree : Tree}
    (built : state.WellBuilt) (outside : forall hole, hole ∈ around -> hole.WellBuilt)
    (done : (resume state around cursor).outcome = .ok tree) : tree.WellBuilt Apart := by
  fun_induction resume state around cursor with
  | case1 => cases done
  | case2 => cases done
  | case3 => cases done
  | case4 state around cursor token after found step stepped whole applied =>
      cases done
      have reached := (built.step stepped).apply outside
      rwa [applied] at reached
  | case5 state around cursor token after found step stepped next outer applied later
      inductionHypothesis =>
      have reached := (built.step stepped).apply outside
      rw [applied] at reached
      exact inductionHypothesis reached.1 reached.2 done

theorem wellBuilt_of_read {slot : Slot} {cursor : Cursor} {tree : Tree}
    (done : (read slot cursor).outcome = .ok tree) : tree.WellBuilt Apart :=
  wellBuilt_of_resume (start_wellBuilt slot) (List.forall_mem_nil _) done

/-- All items of a text are well built, also those before a fault, and their names
have been interned. -/
theorem wellBuilt_of_readAll {slot : Slot} {cursor : Cursor} {tree : Tree}
    (member : tree ∈ (readAll slot cursor).items) :
    tree.WellBuilt Apart ∧ tree.names ⊆ (readAll slot cursor).names := by
  fun_induction readAll slot cursor with
  | case1 => cases member
  | case2 cursor first whole done after ended =>
      cases List.mem_singleton.1 member
      exact ⟨wellBuilt_of_read done, (read_outcome_eq_ok done).1 ▸ List.Subset.refl _⟩
  | case3 cursor first whole done after more later inductionHypothesis =>
      rcases List.mem_cons.1 member with same | inside
      · rw [same]
        refine ⟨wellBuilt_of_read done, List.subset_append_of_subset_left _ ?_⟩
        exact (read_outcome_eq_ok done).1 ▸ List.Subset.refl _
      · rcases inductionHypothesis inside with ⟨built, subset⟩
        exact ⟨built, List.subset_append_of_subset_right _ subset⟩

end Reader

/-! ## Trees with ids -/

namespace SymbolTable

/-- Names that a table holds and that differ have different ids. -/
theorem resolve_ne_of_apart {table : SymbolTable} {tree : Tree} (held : table.Holds tree)
    {first second : Reference} (inFirst : first ∈ tree.symbols) (inSecond : second ∈ tree.symbols)
    (apart : Apart first second) : table.resolve first ≠ table.resolve second := by
  cases first with
  | reserved form => cases apart
  | named name =>
      cases second with
      | reserved form => cases apart
      | named other =>
          have nameHeld := held name (List.mem_filterMap.2 ⟨_, inFirst, rfl⟩)
          have otherHeld := held other (List.mem_filterMap.2 ⟨_, inSecond, rfl⟩)
          intro same
          apply apart
          rw [← nameOf_idOf nameHeld, ← nameOf_idOf otherHeld]
          exact congrArg table.nameOf same

theorem wellBuilt_map_resolve {table : SymbolTable} {tree : Tree} (held : table.Holds tree)
    (built : tree.WellBuilt Apart) : (tree.map table.resolve).WellBuilt (· ≠ ·) :=
  built.map fun _ inFirst _ inSecond => resolve_ne_of_apart held inFirst inSecond

theorem wellBuilt_of_readItem {table : SymbolTable} {slot : Slot} {cursor : Cursor}
    {node : Node SymbolId} (done : (table.readItem slot cursor).outcome = .ok node) :
    node.WellBuilt (· ≠ ·) := by
  rw [readItem] at done
  cases outcome : (Reader.read slot cursor).outcome with
  | error fault =>
      rw [outcome] at done
      cases done
  | ok tree =>
      rw [outcome] at done
      cases done
      rw [(Reader.read_outcome_eq_ok outcome).1]
      exact wellBuilt_map_resolve (holds_insertAll_names table tree)
        (Reader.wellBuilt_of_read outcome)

theorem wellBuilt_of_readForms {table : SymbolTable} {cursor : Cursor}
    {read : Interned (List (Node SymbolId))} {forms : List (Node SymbolId)}
    (parsed : table.readForms cursor = .ok read) (done : read.outcome = .ok forms) :
    forall form, form ∈ forms -> form.WellBuilt (· ≠ ·) := by
  by_cases ready : table.ready = true
  · rw [readForms, checkReady, if_pos ready] at parsed
    cases parsed
    simp only [Batch.outcome, Batch.map] at done
    split at done
    · cases done
      intro form member
      rcases List.mem_map.1 member with ⟨tree, inItems, same⟩
      rcases Reader.wellBuilt_of_readAll inItems with ⟨built, interned⟩
      rw [← same]
      refine wellBuilt_map_resolve ?_ built
      intro name arrives
      exact mem_insertAll.2 (.inr (interned arrives))
    · cases done
  · rw [readForms_of_not_ready ready] at parsed
    cases parsed

theorem wellBuilt_of_parseDatum {table : SymbolTable} {text : Bytes}
    {read : Interned (Node SymbolId)} {node : Node SymbolId}
    (parsed : table.parseDatum text = .ok read) (done : read.outcome = .ok node) :
    node.WellBuilt (· ≠ ·) := by
  by_cases ready : table.ready = true
  · rw [parseDatum, checkReady, if_pos ready] at parsed
    simp only [bind, Except.bind] at parsed
    split at parsed
    · cases parsed
      exact wellBuilt_of_readItem done
    · next whole outcome =>
        split at parsed
        · cases parsed
          exact wellBuilt_of_readItem done
        · cases parsed
          cases done
  · rw [parseDatum_of_not_ready ready] at parsed
    cases parsed

end SymbolTable

end TailLisp
