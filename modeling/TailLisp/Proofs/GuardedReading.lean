import TailLisp.Proofs.GuardedScanning
import TailLisp.Proofs.Termination
import TailLisp.Proofs.WellBuilt

namespace TailLisp

/-!
Reading a text through guarded accesses.

The reader relies on what it has checked elsewhere.  It asks for the last
expression of a body after a series was closed that had to have one, it follows
the way out of a `let` that was read long before, and it takes it for granted that
some rule says what a token means.  Here the reader is written a second time with
an alarm in each of these places, on top of the guarded scanner.  The tests are
where they were: the length of a body is looked at when it is closed, and never
again.

No alarm is ever raised, because every state that the reader comes to is well
built.
-/

/-! ## The last expression of a body -/

namespace Node

variable {Symbol : Type} {apart : Symbol -> Symbol -> Prop}

mutual

/-- Whether a tree can end in a `recur`.  A `begin` may be without a body, which
is asked first; a scope is taken to have one. -/
def reachesRecurGuarded : Node Symbol -> Except Alarm Bool
  | recur _ _ => return true
  | begin _ body => if body.isEmpty then return false else lastReachesRecurGuarded body
  | conditional _ _ consequent alternative => do
      if <- consequent.reachesRecurGuarded then return true
      else alternative.reachesRecurGuarded
  | scope _ .once _ body => lastReachesRecurGuarded body
  | _ => return false

/-- Whether the last of some trees can end in a `recur`. -/
def lastReachesRecurGuarded : List (Node Symbol) -> Except Alarm Bool
  | [] => .error .lastOfNone
  | [node] => node.reachesRecurGuarded
  | _ :: next :: nodes => lastReachesRecurGuarded (next :: nodes)

end

mutual

/-- The tree as it stands outside tail position, or the place of a `recur` on the
way out. -/
def demoteGuarded : Node Symbol -> Except Alarm (Except Position (Node Symbol))
  | recur mark _ => return .error mark.pos
  | begin mark body =>
      if body.isEmpty then return .ok (begin (.plain mark.pos) [])
      else return (<- demoteLastGuarded body).map (begin (.plain mark.pos))
  | conditional mark test consequent alternative => do
      match <- consequent.demoteGuarded with
      | .error pos => return .error pos
      | .ok left =>
          return (<- alternative.demoteGuarded).map (conditional (.plain mark.pos) test left)
  | scope mark kind bindings body => return .ok (scope (.plain mark.pos) kind bindings body)
  | list mark first others => return .ok (list (.plain mark.pos) first others)
  | node => return .ok node

/-- Some trees with the last of them outside tail position. -/
def demoteLastGuarded : List (Node Symbol) -> Except Alarm (Except Position (List (Node Symbol)))
  | [] => .error .lastOfNone
  | [node] => return (<- node.demoteGuarded).map fun demoted => [demoted]
  | node :: next :: nodes => return (<- demoteLastGuarded (next :: nodes)).map (node :: ·)

end

theorem lastReachesRecurGuarded_concat (init : List (Node Symbol)) (last : Node Symbol) :
    lastReachesRecurGuarded (init ++ [last]) = last.reachesRecurGuarded := by
  induction init with
  | nil => rfl
  | cons first init inductionHypothesis =>
      cases init with
      | nil => rfl
      | cons second init => exact inductionHypothesis

/-- The way out of a well built tree never leads into a scope without a body. -/
theorem WellBuilt.reachesRecurGuarded {node : Node Symbol} (built : node.WellBuilt apart) :
    node.reachesRecurGuarded = .ok node.reachesRecur := by
  induction node with
  | begin mark body inBody =>
      rcases List.eq_nil_or_concat' body with nothing | ⟨init, last, same⟩
      · subst nothing
        rfl
      · subst same
        have lastBuilt := begin_iff.1 built last (by simp)
        rw [Node.reachesRecurGuarded, if_neg (by simp), lastReachesRecurGuarded_concat,
          inBody last (by simp) lastBuilt, reachesRecur, lastReachesRecur_concat]
  | conditional mark test consequent alternative _ inConsequent inAlternative =>
      rcases conditional_iff.1 built with ⟨_, consequentBuilt, alternativeBuilt⟩
      rw [Node.reachesRecurGuarded, inConsequent consequentBuilt,
        inAlternative alternativeBuilt, reachesRecur]
      cases consequent.reachesRecur <;> rfl
  | scope mark kind bindings body _ inBody =>
      cases kind with
      | loop => rfl
      | once =>
          rcases scope_iff.1 built with ⟨nonempty, _, bodyBuilt⟩
          rcases List.eq_nil_or_concat' body with nothing | ⟨init, last, same⟩
          · exact absurd nothing nonempty
          · subst same
            rw [Node.reachesRecurGuarded, lastReachesRecurGuarded_concat,
              inBody last (by simp) (bodyBuilt last (by simp)), reachesRecur,
              lastReachesRecur_concat]
  | _ => rfl

/-- A scope without a body is what the alarm is for. -/
example : ((.scope (.plain .start) .once [] [] : Tree).reachesRecurGuarded) =
    .error .lastOfNone :=
  rfl

theorem lastReachesRecurGuarded_eq {body : List (Node Symbol)} (nonempty : body ≠ [])
    (built : forall item, item ∈ body -> item.WellBuilt apart) :
    lastReachesRecurGuarded body = .ok (lastReachesRecur body) := by
  rcases List.eq_nil_or_concat' body with nothing | ⟨init, last, same⟩
  · exact absurd nothing nonempty
  · subst same
    rw [lastReachesRecurGuarded_concat, lastReachesRecur_concat]
    exact (built last (by simp)).reachesRecurGuarded

theorem demoteLastGuarded_concat (init : List (Node Symbol)) {last : Node Symbol}
    (lastSame : last.demoteGuarded = .ok last.demote) :
    demoteLastGuarded (init ++ [last]) = .ok (demoteLast (init ++ [last])) := by
  rw [demoteLast_concat]
  induction init with
  | nil =>
      rw [List.nil_append, demoteLastGuarded, lastSame]
      rfl
  | cons first init inductionHypothesis =>
      have unfolded : demoteLastGuarded (first :: init ++ [last]) =
          demoteLastGuarded (init ++ [last]) >>= fun demoted =>
            return demoted.map (first :: ·) := by
        cases init <;> rfl
      rw [unfolded, inductionHypothesis]
      cases last.demote <;> rfl

/-- Demotion asks for the last expression only where there is one, in every
tree. -/
theorem demoteGuarded_eq (node : Node Symbol) : node.demoteGuarded = .ok node.demote := by
  induction node with
  | begin mark body inBody =>
      rcases List.eq_nil_or_concat' body with nothing | ⟨init, last, same⟩
      · subst nothing
        rfl
      · subst same
        rw [demoteGuarded, if_neg (by simp), demoteLastGuarded_concat init (inBody last (by simp)),
          demote]
        cases demoteLast (init ++ [last]) <;> rfl
  | conditional mark test consequent alternative _ inConsequent inAlternative =>
      rw [demoteGuarded, inConsequent, inAlternative, demote]
      cases consequent.demote with
      | error pos => rfl
      | ok left => cases alternative.demote <;> rfl
  | _ => rfl

end Node

/-! ## One token -/

namespace FlatToken

/-- Why no expression begins with a token that is neither an atom nor opens a
form. -/
def refusal (token : FlatToken) : Except Alarm SyntaxError :=
  match token.kind with
  | .closing => return .unmatchedClosing
  | .dot => return .strayDot
  | .finish => return .unexpectedEnd
  | _ => do
      let text <- token.spelling
      .error (.unexpectedToken token.pos text)

end FlatToken

namespace Hole

/-- Fills a hole with a token that is an expression by itself.  Keywords are
symbols here. -/
def receiveAtom (hole : Hole) (token : FlatToken) : Except Fault Step :=
  let pos := token.pos
  match token.kind with
  | .integer => .ok (hole.fillAtom (.integer (.plain pos) token.value))
  | .char => .ok (hole.fillAtom (.char (.plain pos) token.byte))
  | .string =>
      match Escape.decode token.text with
      | some contents => .ok (hole.fillAtom (.string (.plain pos) contents))
      | none => .error (.syntaxAt pos .malformedEscape)
  | .word (.truth value) => .ok (hole.fillAtom (.boolean (.plain pos) value))
  | _ => .ok (hole.fillSymbol pos token.text)

/-- Begins the expression that is missing with its first token. -/
def receiveGuarded (hole : Hole) (token : FlatToken) : Except Alarm (Except Fault Step) :=
  let pos := token.pos
  if token.kind.isAtom then
    return hole.receiveAtom token
  else
    match token.kind with
    | .opening => return .ok { action := .enter hole (.opened hole.slot pos), interned := none }
    | .tick =>
        return .ok { action := .enter hole
                       (.operand (.ticked (hole.slot != .data) pos) .unmatchedClosing)
                     interned := none }
    | _ => return .error (.syntaxAt pos (<- token.refusal))

/-- Some rule says what a token means where an expression is missing. -/
theorem receiveGuarded_eq (hole : Hole) (token : Token) :
    hole.receiveGuarded token.flat = .ok (hole.receive token) := by
  rcases token with ⟨pos, lexeme⟩
  cases lexeme with
  | word keyword =>
      rw [receiveGuarded]
      refine (if_pos (TokenKind.isAtom_word keyword)).trans ?_
      cases keyword <;> rfl
  | _ => rfl

end Hole

namespace BodyForm

/-- How many expressions the body must have at least. -/
def leastLength : BodyForm -> Nat
  | begin _ => 0
  | scope _ _ _ => 1
  | lambda _ _ => 1

/-- The form at whose head the body is read. -/
def head : BodyForm -> SpecialForm
  | begin _ => .begin
  | scope kind _ _ => .scope kind
  | lambda _ _ => .lambda

/-- The form with a body that is long enough.  The last expression decides whether
a loop stays one. -/
def build (form : BodyForm) (pos : Position) (body : List Tree) : Except Alarm Tree :=
  match form with
  | begin tail => return .begin { pos, tail } body
  | scope .once tail bindings => return .scope { pos, tail } .once bindings.reverse body
  | scope .loop tail bindings => do
      let kept := if <- Node.lastReachesRecurGuarded body then .loop else .once
      return .scope { pos, tail } kept bindings.reverse body
  | lambda name params => return .lambda (.plain pos) name (params.reverse.map .named) body

/-- The form with its body. -/
def closeGuarded (form : BodyForm) (pos : Position) (body : List Tree) :
    Except Alarm (Except Fault Tree) :=
  if body.length < form.leastLength then
    return .error (.syntaxAt pos (.emptyBody form.head))
  else
    return .ok (<- form.build pos body)

/-- A loop is asked for its last expression only if it has one. -/
theorem closeGuarded_eq (form : BodyForm) (pos : Position) {body : List Tree}
    (inBody : forall item, item ∈ body -> item.WellBuilt Reference.Apart) :
    form.closeGuarded pos body = .ok (form.close pos body) := by
  cases form with
  | begin tail => rfl
  | scope kind tail bindings =>
      cases body with
      | nil => cases kind <;> rfl
      | cons first others =>
          rw [closeGuarded, if_neg (by simp [leastLength]), close]
          cases kind with
          | once =>
              rw [build, ite_self]
              rfl
          | loop =>
              rw [build, Node.lastReachesRecurGuarded_eq (List.cons_ne_nil first others) inBody]
              rfl
  | lambda name params => cases body <;> rfl

end BodyForm

namespace Series

/-- The form of a series that ends. -/
def closeGuarded (series : Series) : Except Alarm (Except Fault Tree) :=
  match series.kind with
  | .body form => form.closeGuarded series.pos series.items.reverse
  | _ => return series.close

/-- The series when something follows its newest expression. -/
def goOnGuarded (series : Series) : Except Alarm (Except Fault Series) :=
  match series.kind, series.items with
  | .body form, newest :: older =>
      if form.endsInTail then do
        match <- newest.demoteGuarded with
        | .ok demoted => return .ok { series with items := demoted :: older }
        | .error pos => return .error (.syntaxAt pos .recurOutsideTail)
      else
        return .ok series
  | _, _ => return .ok series

/-- Begins a further expression of a series with its first token. -/
def furtherGuarded (series : Series) (token : FlatToken) : Except Alarm (Except Fault Step) := do
  match <- series.goOnGuarded with
  | .ok series => (Hole.item series).receiveGuarded token
  | .error fault => return .error fault

/-- Reads a token behind the expressions of a series. -/
def stepGuarded (series : Series) (token : Token) : Except Alarm (Except Fault Step) :=
  match token.lexeme, series.kind with
  | .closing, _ => return (<- series.closeGuarded).map .complete
  | .dot, .elements _ => return series.step token
  | _, _ => series.furtherGuarded token.flat

theorem WellBuilt.closeGuarded {series : Series} (built : series.WellBuilt) :
    series.closeGuarded = .ok series.close := by
  rcases series with ⟨kind, pos, items⟩
  cases kind with
  | body form =>
      exact form.closeGuarded_eq pos fun item member =>
        built.items item (List.mem_reverse.1 member)
  | _ => rfl

theorem goOnGuarded_eq (series : Series) : series.goOnGuarded = .ok series.goOn := by
  rcases series with ⟨kind, pos, items⟩
  cases kind with
  | body form =>
      cases items with
      | nil => rfl
      | cons newest older =>
          rw [goOnGuarded, goOn]
          dsimp only
          split
          · rw [newest.demoteGuarded_eq]
            cases newest.demote <;> rfl
          · rfl
  | _ => rfl

theorem furtherGuarded_eq (series : Series) (token : Token) :
    series.furtherGuarded token.flat =
      .ok (series.goOn.bind fun series => (Hole.item series).receive token) := by
  rw [furtherGuarded, goOnGuarded_eq]
  cases series.goOn with
  | error fault => rfl
  | ok further => exact (Hole.item further).receiveGuarded_eq token

theorem WellBuilt.stepGuarded {series : Series} (built : series.WellBuilt) (token : Token) :
    series.stepGuarded token = .ok (series.step token) := by
  rcases token with ⟨pos, lexeme⟩
  cases lexeme with
  | closing =>
      rw [Series.stepGuarded, built.closeGuarded]
      rfl
  | dot =>
      rcases series with ⟨kind, opened, items⟩
      cases kind with
      | elements slot => rfl
      | _ => exact furtherGuarded_eq _ ⟨pos, .dot⟩
  | _ => exact series.furtherGuarded_eq _

end Series

namespace State

/-- Reads a token in a state. -/
def stepGuarded (state : State) (token : Token) : Except Alarm (Except Fault Step) :=
  match state with
  | operand hole ifClosed =>
      match token.lexeme with
      | .closing => return .error (.syntaxAt token.pos ifClosed)
      | _ => hole.receiveGuarded token.flat
  | opened slot pos =>
      match slot, token.lexeme with
      | .code tail, .word (.head form) => return (form.enter pos tail).map .wait
      | _, _ => Series.stepGuarded { kind := .elements slot, pos, items := [] } token
  | series items => items.stepGuarded token
  | state => return state.step token

/-- The fault of a text that ends in a state.  Where an expression is missing the
end is refused like a token. -/
def faultAtEndGuarded (state : State) (pos : Position) : Except Alarm Fault :=
  match state with
  | operand _ _ => return .syntaxAt pos (<- (FlatToken.finish pos).refusal)
  | series items => do
      match <- items.goOnGuarded with
      | .ok _ => return .syntaxAt pos .unclosed
      | .error fault => return fault
  | state => return state.faultAtEnd pos

theorem WellBuilt.stepGuarded {state : State} (built : state.WellBuilt) (token : Token) :
    state.stepGuarded token = .ok (state.step token) := by
  rcases token with ⟨place, lexeme⟩
  cases state with
  | operand hole ifClosed =>
      have received := hole.receiveGuarded_eq ⟨place, lexeme⟩
      cases lexeme with
      | closing => rfl
      | _ => exact received
  | opened slot pos =>
      have begun : Series.WellBuilt { kind := .elements slot, pos, items := [] } :=
        .begun (.elements slot) pos trivial
      have stepped := begun.stepGuarded ⟨place, lexeme⟩
      cases slot with
      | data => exact stepped
      | code tail =>
          cases lexeme with
          | word keyword =>
              cases keyword with
              | truth value => exact stepped
              | head form => rfl
          | _ => exact stepped
  | series items => exact Series.WellBuilt.stepGuarded built _
  | _ => rfl

theorem faultAtEndGuarded_eq (state : State) (pos : Position) :
    state.faultAtEndGuarded pos = .ok (state.faultAtEnd pos) := by
  cases state with
  | series items =>
      rw [faultAtEndGuarded, items.goOnGuarded_eq, faultAtEnd]
      cases items.goOn <;> rfl
  | _ => rfl

end State

/-! ## Whole readings -/

namespace Reader

/-- Goes on reading from a state. -/
def resumeGuarded (state : State) (around : List Hole) (cursor : Cursor) :
    Except Alarm Reading :=
  match _found : cursor.nextGuarded with
  | .error alarm => .error alarm
  | .ok (.finish pos, after) =>
      return { outcome := .error (<- state.faultAtEndGuarded pos), names := [], cursor := after }
  | .ok (.flaw pos error, after) =>
      return { outcome := .error { origin := pos, cause := .scan error }, names := []
               cursor := after }
  | .ok (.token token, after) => do
      match <- state.stepGuarded token with
      | .error fault => return { outcome := .error fault, names := [], cursor := after }
      | .ok step =>
          match step.action.apply around with
          | .finished tree =>
              return { outcome := .ok tree, names := step.interned.toList, cursor := after }
          | .reading state around =>
              return (<- resumeGuarded state around after).prepend step.interned.toList
termination_by cursor.rest.length
decreasing_by
  exact Cursor.length_next_lt_of_token (Except.ok.inj (cursor.nextGuarded_eq.symm.trans _found))

/-- Reads the next item in a slot. -/
def readGuarded (slot : Slot) (cursor : Cursor) : Except Alarm Reading :=
  resumeGuarded (.start slot) [] cursor

/-- The guarded scanner can be exchanged for the scanner. -/
theorem resumeGuarded_of_next (state : State) (around : List Hole) (cursor : Cursor) :
    resumeGuarded state around cursor =
      match cursor.next with
      | (.finish pos, after) =>
          return { outcome := .error (<- state.faultAtEndGuarded pos), names := []
                   cursor := after }
      | (.flaw pos error, after) =>
          return { outcome := .error { origin := pos, cause := .scan error }, names := []
                   cursor := after }
      | (.token token, after) => do
          match <- state.stepGuarded token with
          | .error fault => return { outcome := .error fault, names := [], cursor := after }
          | .ok step =>
              match step.action.apply around with
              | .finished tree =>
                  return { outcome := .ok tree, names := step.interned.toList, cursor := after }
              | .reading state around =>
                  return (<- resumeGuarded state around after).prepend step.interned.toList := by
  have same := cursor.nextGuarded_eq
  rw [resumeGuarded]
  split
  · next found => cases same.symm.trans found
  · next found => rw [Except.ok.inj (same.symm.trans found)]
  · next found => rw [Except.ok.inj (same.symm.trans found)]
  · next found => rw [Except.ok.inj (same.symm.trans found)]

/-- A reading that goes on from well built forms raises no alarm. -/
theorem resumeGuarded_eq {state : State} {around : List Hole} (cursor : Cursor)
    (built : state.WellBuilt) (outside : forall hole, hole ∈ around -> hole.WellBuilt) :
    resumeGuarded state around cursor = .ok (resume state around cursor) := by
  fun_induction resume state around cursor with
  | case1 state around cursor pos after found =>
      rw [resumeGuarded_of_next, found]
      simp only [state.faultAtEndGuarded_eq]
      rfl
  | case2 state around cursor pos error after found =>
      rw [resumeGuarded_of_next, found]
      rfl
  | case3 state around cursor token after found fault failed =>
      rw [resumeGuarded_of_next, found]
      simp only [built.stepGuarded, failed]
      rfl
  | case4 state around cursor token after found step stepped tree applied =>
      rw [resumeGuarded_of_next, found]
      simp only [built.stepGuarded, stepped, bind, Except.bind, applied]
      rfl
  | case5 state around cursor token after found step stepped next outer applied later
      inductionHypothesis =>
      have reached := (built.step stepped).apply outside
      rw [applied] at reached
      rw [resumeGuarded_of_next, found]
      simp only [built.stepGuarded, stepped, bind, Except.bind, applied,
        inductionHypothesis reached.1 reached.2]
      rfl

theorem readGuarded_eq (slot : Slot) (cursor : Cursor) :
    readGuarded slot cursor = .ok (read slot cursor) :=
  resumeGuarded_eq cursor (start_wellBuilt slot) (List.forall_mem_nil _)

/-- Reads items up to the end of the text or the first fault. -/
def readAllGuarded (slot : Slot) (cursor : Cursor) : Except Alarm (Batch Reference) :=
  match _read : readGuarded slot cursor with
  | .error alarm => .error alarm
  | .ok first =>
      match _done : first.outcome with
      | .error fault =>
          return { items := [], fault := some fault, names := first.names, cursor := first.cursor }
      | .ok tree =>
          match _skipped : first.cursor.skipBlankGuarded with
          | .error alarm => .error alarm
          | .ok after =>
              if after.atEnd then
                return { items := [tree], fault := none, names := first.names, cursor := after }
              else do
                let later <- readAllGuarded slot after
                return { later with items := tree :: later.items
                                    names := first.names ++ later.names }
termination_by cursor.rest.length
decreasing_by
  have isFirst := Except.ok.inj ((readGuarded_eq slot cursor).symm.trans _read)
  have isAfter := Except.ok.inj (first.cursor.skipBlankGuarded_eq.symm.trans _skipped)
  rw [← isAfter, ← isFirst]
  exact Nat.lt_of_le_of_lt (Cursor.length_skipBlank_le _) (length_resume_lt (isFirst ▸ _done))

/-- The guarded reading of an item can be exchanged for the reading. -/
theorem readAllGuarded_of_read (slot : Slot) (cursor : Cursor) :
    readAllGuarded slot cursor =
      let first := read slot cursor
      match first.outcome with
      | .error fault =>
          return { items := [], fault := some fault, names := first.names, cursor := first.cursor }
      | .ok tree =>
          let after := first.cursor.skipBlank
          if after.atEnd then
            return { items := [tree], fault := none, names := first.names, cursor := after }
          else do
            let later <- readAllGuarded slot after
            return { later with items := tree :: later.items
                                names := first.names ++ later.names } := by
  rw [readAllGuarded]
  split
  · next alarmed => cases (readGuarded_eq slot cursor).symm.trans alarmed
  · next first isRead =>
      rw [Except.ok.inj ((readGuarded_eq slot cursor).symm.trans isRead)]
      dsimp only
      split
      · next failed => rw [failed]
      · next done =>
          rw [done]
          split
          · next alarmed => cases first.cursor.skipBlankGuarded_eq.symm.trans alarmed
          · next skipped =>
              rw [Except.ok.inj (first.cursor.skipBlankGuarded_eq.symm.trans skipped)]

theorem readAllGuarded_eq (slot : Slot) (cursor : Cursor) :
    readAllGuarded slot cursor = .ok (readAll slot cursor) := by
  fun_induction readAll slot cursor with
  | case1 cursor first fault failed =>
      change (read slot cursor).outcome = _ at failed
      rw [readAllGuarded_of_read]
      simp only [failed]
      rfl
  | case2 cursor first tree done after ended =>
      change (read slot cursor).outcome = _ at done
      rw [readAllGuarded_of_read]
      simp only [done]
      exact if_pos ended
  | case3 cursor first tree done after more later inductionHypothesis =>
      change (read slot cursor).outcome = _ at done
      rw [readAllGuarded_of_read]
      simp only [done]
      refine (if_neg more).trans ?_
      rw [inductionHypothesis]
      rfl

end Reader

end TailLisp
