import TailLisp.Proofs.Acceptance

namespace TailLisp

/-!
Moving a text to another place.

The reader copies places from the tokens into trees and faults.  It never
computes with a place and never compares two of them, so replacing the place
of every token, by whatever function, replaces the places in the result and
nothing else.  This is shown for one step of the reader and carried to whole
readings.

The scanner does compute places, one byte after the other.  Moving the
beginning of a text moves what is scanned in it if the move agrees with
advancing over a byte, as a shift by some lines and bytes does.
-/

open Grammar

/-! ## Trees -/

namespace Mark

/-- The mark with its place moved. -/
def relocate (move : Position -> Position) (mark : Mark) : Mark :=
  { mark with pos := move mark.pos }

end Mark

namespace Node

variable {Symbol Target : Type} (move : Position -> Position)

/-- The tree with every place moved. -/
def relocate (node : Node Symbol) : Node Symbol :=
  node.remark (Mark.relocate move)

/-- The bindings with every place in their values moved. -/
def relocateBindings (bindings : List (Symbol × Node Symbol)) : List (Symbol × Node Symbol) :=
  bindings.map fun binding => (binding.1, binding.2.relocate move)

theorem pos_relocate (node : Node Symbol) : (node.relocate move).pos = move node.pos := by
  cases node <;> rfl

theorem relocate_map (replace : Symbol -> Target) (node : Node Symbol) :
    (node.map replace).relocate move = (node.relocate move).map replace :=
  remark_map _ replace node

theorem unplaced_relocate (node : Node Symbol) : (node.relocate move).unplaced = node.unplaced :=
  remark_remark _ _ node

/-- A tree that is moved stays the same. -/
theorem same_relocate [DecidableEq Symbol] (node : Node Symbol) :
    node.same (node.relocate move) = true := by
  rw [same_iff_bare_eq]
  exact bare_eq_of_unplaced_eq (unplaced_relocate move node).symm

theorem names_relocate (tree : Tree) : (tree.relocate move).names = tree.names := by
  rw [names, relocate, symbols_remark, names]

theorem relocate_chain (ending : Node Symbol) (items : List (Node Symbol)) :
    (chain ending items).relocate move =
      chain (ending.relocate move) (items.map (relocate move)) := by
  induction items with
  | nil => rfl
  | cons item items inductionHypothesis =>
      rw [List.map_cons, chain, chain, ← inductionHypothesis, pos_relocate]
      rfl

theorem relocate_withMark (mark : Mark) (node : Node Symbol) :
    (node.withMark mark).relocate move = (node.relocate move).withMark (mark.relocate move) := by
  cases node <;> rfl

theorem relocate_ofList (mark : Mark) (items : List (Node Symbol)) :
    (ofList mark items).relocate move =
      ofList (mark.relocate move) (items.map (relocate move)) := by
  cases items with
  | nil => rfl
  | cons first others =>
      rw [ofList, relocate, remark, remarkSeries_eq]
      rfl

theorem lastReachesRecur_relocate (items : List (Node Symbol)) :
    lastReachesRecur (items.map (relocate move)) = lastReachesRecur items := by
  exact lastReachesRecur_map fun item _ => reachesRecur_remark _ item

/-- A tree that is moved is demoted as it would be in its old place, and a
`recur` in its way is found at the new one. -/
theorem demote_relocate (node : Node Symbol) :
    (node.relocate move).demote =
      match node.demote with
      | .ok demoted => .ok (demoted.relocate move)
      | .error pos => .error (move pos) := by
  induction node with
  | begin mark body bodySame =>
      rcases List.eq_nil_or_concat' body with nothing | ⟨init, last, same⟩
      · rw [nothing]
        rfl
      · have lastSame := bodySame last (by simp [same])
        have moved (mark : Mark) (last : Node Symbol) :
            (begin mark (init ++ [last])).relocate move =
              begin (mark.relocate move) (init.map (relocate move) ++ [last.relocate move]) := by
          rw [relocate, remark, remarkSeries_eq, List.map_append]
          rfl
        rw [same, moved, demote, demote, demoteLast_concat, demoteLast_concat, lastSame]
        cases last.demote with
        | error pos => rfl
        | ok demoted => exact congrArg Except.ok (moved (.plain mark.pos) demoted).symm
  | conditional mark test consequent alternative _ consequentSame alternativeSame =>
      have moved : (conditional mark test consequent alternative).relocate move =
          conditional (mark.relocate move) (test.relocate move) (consequent.relocate move)
            (alternative.relocate move) := rfl
      rw [moved, demote, demote, consequentSame, alternativeSame]
      cases consequent.demote with
      | error pos => rfl
      | ok left => cases alternative.demote <;> rfl
  | _ => rfl

end Node

/-! ## The state of the reader -/

section

variable (move : Position -> Position)

def Token.relocate (token : Token) : Token :=
  { token with pos := move token.pos }

def Fault.relocate (fault : Fault) : Fault :=
  { fault with origin := move fault.origin }

/-- An attempt with its result moved in a way of its own, or its fault. -/
def Fault.relocateOr {Result : Type} (onResult : Result -> Result) :
    Except Fault Result -> Except Fault Result
  | .ok result => .ok (onResult result)
  | .error fault => .error (fault.relocate move)

def ScopeHead.relocate (head : ScopeHead) : ScopeHead :=
  { head with
    pos := move head.pos
    bindings := Node.relocateBindings move head.bindings }

def BodyForm.relocate : BodyForm -> BodyForm
  | begin tail => begin tail
  | scope kind tail bindings => scope kind tail (Node.relocateBindings move bindings)
  | lambda name params => lambda name params

def SeriesKind.relocate : SeriesKind -> SeriesKind
  | elements slot => elements slot
  | body form => body (form.relocate move)
  | args => args

def Series.relocate (series : Series) : Series :=
  { kind := series.kind.relocate move
    pos := move series.pos
    items := series.items.map (Node.relocate move) }

def Hole.relocate : Hole -> Hole
  | whole slot => whole slot
  | ticked inCode pos => ticked inCode (move pos)
  | item series => item (series.relocate move)
  | dotted slot pos items => dotted slot (move pos) (items.map (Node.relocate move))
  | quoted pos => quoted (move pos)
  | defined pos name => defined (move pos) name
  | ifTest pos tail => ifTest (move pos) tail
  | ifConsequent pos tail test => ifConsequent (move pos) tail (test.relocate move)
  | ifAlternative pos tail test consequent =>
      ifAlternative (move pos) tail (test.relocate move) (consequent.relocate move)
  | bound head name => bound (head.relocate move) name

def State.relocate : State -> State
  | operand hole ifClosed => operand (hole.relocate move) ifClosed
  | opened slot pos => opened slot (move pos)
  | series items => series (items.relocate move)
  | closing tree otherwise => closing (tree.relocate move) otherwise
  | definition pos => definition (move pos)
  | scopeHead head => scopeHead (head.relocate move)
  | bindings head => bindings (head.relocate move)
  | bindingName head => bindingName (head.relocate move)
  | bindingEnd head name value => bindingEnd (head.relocate move) name (value.relocate move)
  | lambdaHead pos => lambdaHead (move pos)
  | namedLambdaHead pos name => namedLambdaHead (move pos) name
  | parameters pos name params => parameters (move pos) name params

def Filled.relocate : Filled -> Filled
  | waiting state => waiting (state.relocate move)
  | complete tree => complete (tree.relocate move)

def Action.relocate : Action -> Action
  | settle filled => settle (filled.relocate move)
  | enter hole state => enter (hole.relocate move) (state.relocate move)

def Step.relocate (step : Step) : Step :=
  { step with action := step.action.relocate move }

/-! ## One step -/

namespace Hole

theorem slot_relocate (hole : Hole) : (hole.relocate move).slot = hole.slot := by
  cases hole with
  | item series =>
      rcases series with ⟨kind, pos, items⟩
      cases kind with
      | body form => cases form <;> rfl
      | _ => rfl
  | _ => rfl

theorem fill_relocate (hole : Hole) (tree : Tree) :
    (hole.relocate move).fill (tree.relocate move) = (hole.fill tree).relocate move := by
  cases hole with
  | ticked inCode pos => cases inCode <;> rfl
  | dotted slot pos items =>
      simp only [relocate, fill, Filled.relocate, State.relocate, Node.relocate_withMark,
        Node.relocate_chain, List.map_reverse]
      rfl
  | _ => rfl

theorem receive_relocate (hole : Hole) (token : Token) :
    (hole.relocate move).receive (token.relocate move) =
      Fault.relocateOr move (Step.relocate move) (hole.receive token) := by
  rcases token with ⟨pos, lexeme⟩
  -- A tree of one token is moved by moving the token.
  have atom (tree : Tree) : (hole.relocate move).fillAtom (tree.relocate move) =
      (hole.fillAtom tree).relocate move := by
    rw [fillAtom, fill_relocate]
    rfl
  have symbol (name : Bytes) : (hole.relocate move).fillSymbol (move pos) name =
      (hole.fillSymbol pos name).relocate move := by
    have filled := hole.fill_relocate move (.symbol (.plain pos) (.named name))
    exact congrArg (fun filled => Step.mk (.settle filled) (some name)) filled
  cases lexeme with
  | opening => simp only [receive, Token.relocate, slot_relocate]; rfl
  | tick => simp only [receive, Token.relocate, slot_relocate]; rfl
  | closing => rfl
  | dot => rfl
  | integer value => exact congrArg Except.ok (atom (.integer (.plain pos) value))
  | char value => exact congrArg Except.ok (atom (.char (.plain pos) value))
  | string raw =>
      simp only [receive, Token.relocate]
      cases Escape.decode raw with
      | none => rfl
      | some contents => exact congrArg Except.ok (atom (.string (.plain pos) contents))
  | word keyword =>
      cases keyword with
      | truth value => exact congrArg Except.ok (atom (.boolean (.plain pos) value))
      | head form => exact congrArg Except.ok (symbol form.name)
  | symbol name => exact congrArg Except.ok (symbol name)

end Hole

namespace BodyForm

theorem endsInTail_relocate (form : BodyForm) :
    (form.relocate move).endsInTail = form.endsInTail := by
  cases form <;> rfl

theorem close_relocate (form : BodyForm) (pos : Position) (body : List Tree) :
    (form.relocate move).close (move pos) (body.map (Node.relocate move)) =
      Fault.relocateOr move (Node.relocate move) (form.close pos body) := by
  cases form with
  | begin tail =>
      simp only [relocate, close, Fault.relocateOr, Node.relocate, Node.remark, Node.remarkSeries_eq]
      rfl
  | scope kind tail bindings =>
      cases body with
      | nil => rfl
      | cons first others =>
          have ending := Node.lastReachesRecur_relocate move (first :: others)
          simp only [relocate, close, List.map_cons, List.isEmpty_cons, Bool.false_eq_true, if_false,
            Fault.relocateOr, Node.relocate, Node.remark, Node.remarkSeries_eq,
            Node.remarkBindings_eq, Node.relocateBindings, List.map_reverse] at ending ⊢
          rw [ending]
          rfl
  | lambda name params =>
      cases body with
      | nil => rfl
      | cons first others =>
          simp only [relocate, close, List.map_cons, List.isEmpty_cons, Bool.false_eq_true, if_false,
            Fault.relocateOr, Node.relocate, Node.remark, Node.remarkSeries_eq]
          rfl

end BodyForm

namespace Series

theorem close_relocate (series : Series) :
    (series.relocate move).close =
      Fault.relocateOr move (Node.relocate move) series.close := by
  rcases series with ⟨kind, pos, items⟩
  simp only [relocate, close, ← List.map_reverse]
  cases kind with
  | elements slot =>
      exact congrArg Except.ok (Node.relocate_ofList move ⟨pos, slot.isTail⟩ items.reverse).symm
  | body form => exact form.close_relocate move pos items.reverse
  | args =>
      simp only [SeriesKind.relocate, Fault.relocateOr, Node.relocate, Node.remark,
        Node.remarkSeries_eq]
      rfl

theorem goOn_relocate (series : Series) :
    (series.relocate move).goOn = Fault.relocateOr move (relocate move) series.goOn := by
  rcases series with ⟨kind, pos, items⟩
  cases kind with
  | elements slot => rfl
  | args => rfl
  | body form =>
      cases items with
      | nil => rfl
      | cons newest older =>
          have demoted := newest.demote_relocate move
          have tail := form.endsInTail_relocate move
          simp only [relocate, SeriesKind.relocate, goOn, List.map_cons, tail, demoted]
          cases form.endsInTail with
          | false => rfl
          | true => cases newest.demote <;> rfl

/-- Every token but a closing parenthesis or the dot of a list begins a further
expression. -/
theorem further_relocate (series : Series) (token : Token) :
    ((series.relocate move).goOn.bind fun next => (Hole.item next).receive (token.relocate move)) =
      Fault.relocateOr move (Step.relocate move)
        (series.goOn.bind fun next => (Hole.item next).receive token) := by
  rw [goOn_relocate]
  cases series.goOn with
  | error fault => rfl
  | ok next => exact (Hole.item next).receive_relocate move token

theorem step_relocate (series : Series) (token : Token) :
    (series.relocate move).step (token.relocate move) =
      Fault.relocateOr move (Step.relocate move) (series.step token) := by
  have further := series.further_relocate move token
  rcases token with ⟨pos, lexeme⟩
  cases lexeme with
  | closing =>
      change (series.relocate move).close.map Step.complete = _
      rw [close_relocate]
      change _ = Fault.relocateOr move _ (series.close.map Step.complete)
      cases series.close <;> rfl
  | dot =>
      rcases series with ⟨kind, place, items⟩
      cases kind with
      | elements slot => cases items <;> rfl
      | body form => exact further
      | args => exact further
  | _ => exact further

end Series

theorem SpecialForm.enter_relocate (form : SpecialForm) (pos : Position) (tail : Bool) :
    form.enter (move pos) tail =
      Fault.relocateOr move (State.relocate move) (form.enter pos tail) := by
  cases form with
  | recur => cases tail <;> rfl
  | _ => rfl

namespace State

theorem faultAtEnd_relocate (state : State) (pos : Position) :
    (state.relocate move).faultAtEnd (move pos) = (state.faultAtEnd pos).relocate move := by
  cases state with
  | series items =>
      simp only [relocate, faultAtEnd, Series.goOn_relocate]
      cases items.goOn <;> rfl
  | _ => rfl

/-- A step at other places is the same step, at other places. -/
theorem step_relocate (state : State) (token : Token) :
    (state.relocate move).step (token.relocate move) =
      Fault.relocateOr move (Step.relocate move) (state.step token) := by
  rcases token with ⟨pos, lexeme⟩
  cases state with
  | operand hole ifClosed =>
      have received := hole.receive_relocate move ⟨pos, lexeme⟩
      cases lexeme with
      | closing => rfl
      | _ => exact received
  | opened slot place =>
      have plain := Series.step_relocate move ⟨.elements slot, place, []⟩ ⟨pos, lexeme⟩
      cases slot with
      | data => exact plain
      | code tail =>
          cases lexeme with
          | word keyword =>
              cases keyword with
              | truth value => exact plain
              | head form =>
                  change (form.enter (move place) tail).map Step.wait =
                    Fault.relocateOr move _ ((form.enter place tail).map Step.wait)
                  rw [form.enter_relocate]
                  cases form.enter place tail <;> rfl
          | _ => exact plain
  | series items => exact items.step_relocate move _
  | closing tree otherwise => cases lexeme <;> rfl
  | definition place => cases lexeme <;> rfl
  | scopeHead head => cases lexeme <;> rfl
  | bindings head => cases lexeme <;> rfl
  | bindingName head => cases lexeme <;> rfl
  | bindingEnd head name value => cases lexeme <;> rfl
  | lambdaHead place => cases lexeme <;> rfl
  | namedLambdaHead place name => cases lexeme <;> rfl
  | parameters place name params =>
      cases lexeme with
      | symbol param =>
          by_cases known : param ∈ params
          · simp only [relocate, Token.relocate, step, if_pos known]
            rfl
          · simp only [relocate, Token.relocate, step, if_neg known]
            rfl
      | _ => rfl

end State

/-! ## Whole readings -/

def Progress.relocate : Progress -> Progress
  | reading state around => reading (state.relocate move) (around.map (Hole.relocate move))
  | finished tree => finished (tree.relocate move)

theorem Filled.settle_relocate (filled : Filled) (around : List Hole) :
    (filled.relocate move).settle (around.map (Hole.relocate move)) =
      (filled.settle around).relocate move := by
  induction around generalizing filled with
  | nil => cases filled <;> rfl
  | cons hole around inductionHypothesis =>
      cases filled with
      | waiting state => rfl
      | complete tree =>
          change ((hole.relocate move).fill (tree.relocate move)).settle _ = _
          rw [Hole.fill_relocate, inductionHypothesis]
          rfl

theorem Action.apply_relocate (action : Action) (around : List Hole) :
    (action.relocate move).apply (around.map (Hole.relocate move)) =
      (action.apply around).relocate move := by
  cases action with
  | settle filled => exact filled.settle_relocate move around
  | enter hole state => rfl

/-- Tokens that complete a form complete it wherever they stand. -/
theorem Action.Completes.relocate {action : Action} {tokens : List Token} {tree : Tree}
    {names : List Bytes} (completed : action.Completes tokens tree names) :
    (action.relocate move).Completes (tokens.map (Token.relocate move)) (tree.relocate move)
      names := by
  induction completed with
  | complete tree => exact .complete _
  | @wait state token step tokens tree names stepped _ inductionHypothesis =>
      have moved := state.step_relocate move token
      rw [stepped] at moved
      exact @Action.Completes.wait _ _ (step.relocate move) _ _ _ moved inductionHypothesis
  | @enter hole inner tokens part names later tree laterNames _ _ insideMoved outsideMoved =>
      have filled := hole.fill_relocate move part
      rw [List.map_append]
      exact .enter insideMoved (filled ▸ outsideMoved)

/-- An item is an item wherever its tokens stand. -/
theorem Grammar.Item.relocate {slot : Slot} {tokens : List Token} {tree : Tree}
    (item : Item slot tokens tree) :
    Item slot (tokens.map (Token.relocate move)) (tree.relocate move) :=
  Reader.item_of_completes ((Reader.completes_of_item item).relocate move)

/-- The same lexemes at other places are the tokens, moved, if no two of these
stand at one place. -/
theorem Token.exists_relocate {tokens others : List Token} (distinct : (tokens.map Token.pos).Nodup)
    (alike : others.map Token.lexeme = tokens.map Token.lexeme) :
    Exists fun move : Position -> Position => others = tokens.map (Token.relocate move) := by
  induction tokens generalizing others with
  | nil => exact ⟨id, List.map_eq_nil_iff.1 alike⟩
  | cons token tokens inductionHypothesis =>
      rcases List.map_eq_cons_iff.1 alike with ⟨other, later, same, sameLexeme, laterAlike⟩
      rcases List.nodup_cons.1 distinct with ⟨single, laterDistinct⟩
      rcases inductionHypothesis laterDistinct laterAlike with ⟨move, moved⟩
      refine ⟨fun pos => if pos = token.pos then other.pos else move pos, ?_⟩
      have first : other = ⟨other.pos, token.lexeme⟩ := by
        rw [← sameLexeme]
      rw [same, moved, List.map_cons, Token.relocate, if_pos rfl, ← first]
      refine congrArg (other :: ·) (List.map_congr_left fun member inside => ?_)
      have elsewhere : member.pos ≠ token.pos :=
        fun same => single (same ▸ List.mem_map_of_mem inside)
      rw [Token.relocate, Token.relocate, if_neg elsewhere]

/-- What is read is decided by what is found next. -/
theorem Reader.resume_eq (state : State) (around : List Hole) (cursor : Cursor) :
    Reader.resume state around cursor =
      match cursor.next with
      | (.finish pos, after) =>
          { outcome := .error (state.faultAtEnd pos), names := [], cursor := after }
      | (.flaw pos error, after) =>
          { outcome := .error { origin := pos, cause := .scan error }, names := [], cursor := after }
      | (.token token, after) =>
          match state.step token with
          | .error fault => { outcome := .error fault, names := [], cursor := after }
          | .ok step =>
              ((step.action.apply around).resume after).prepend step.interned.toList := by
  cases found : cursor.next with
  | mk scan after =>
      cases scan with
      | finish pos =>
          rw [Reader.resume]
          split <;> simp_all
      | flaw pos error =>
          rw [Reader.resume]
          split <;> simp_all
      | token token =>
          cases stepped : state.step token with
          | error fault =>
              rw [Reader.resume]
              split <;> simp_all
          | ok step =>
              simp only [stepped]
              exact Progress.resume_token found stepped around

theorem Reader.readAll_of_error {slot : Slot} {cursor : Cursor} {fault : Fault}
    (failed : (Reader.read slot cursor).outcome = .error fault) :
    Reader.readAll slot cursor =
      { items := []
        fault := some fault
        names := (Reader.read slot cursor).names
        cursor := (Reader.read slot cursor).cursor } := by
  rw [Reader.readAll]
  split
  · next alsoFailed =>
      cases alsoFailed.symm.trans failed
      rfl
  · next done => cases done.symm.trans failed

def Scan.relocate : Scan -> Scan
  | token found => token (found.relocate move)
  | flaw pos error => flaw (move pos) error
  | finish pos => finish (move pos)

def Cursor.relocate (cursor : Cursor) : Cursor :=
  { cursor with pos := move cursor.pos }

def Reading.relocate (reading : Reading) : Reading :=
  { outcome := Fault.relocateOr move (Node.relocate move) reading.outcome
    names := reading.names
    cursor := reading.cursor.relocate move }

def Batch.relocate {Symbol : Type} (batch : Batch Symbol) : Batch Symbol :=
  { items := batch.items.map (Node.relocate move)
    fault := batch.fault.map (Fault.relocate move)
    names := batch.names
    cursor := batch.cursor.relocate move }

/-- The move agrees with advancing over a byte. -/
def Position.Translates : Prop :=
  forall pos byte, move (advance pos byte) = advance (move pos) byte

variable {move} (translates : Position.Translates move)

include translates

theorem Position.Translates.after (pos : Position) (text : Bytes) :
    move (pos.after text) = (move pos).after text := by
  induction text generalizing pos with
  | nil => rfl
  | cons byte text inductionHypothesis =>
      change move ((pos.advance byte).after text) = ((move pos).advance byte).after text
      rw [inductionHypothesis, translates]

namespace Cursor

theorem move_relocate (cursor : Cursor) (taken rest : Bytes) :
    (cursor.relocate move).move taken rest = (cursor.move taken rest).relocate move := by
  rw [Cursor.move, Cursor.move, relocate, relocate, translates.after]

theorem skipBlank_relocate (cursor : Cursor) :
    (cursor.relocate move).skipBlank = cursor.skipBlank.relocate move :=
  move_relocate translates cursor _ _

/-- In a text that begins elsewhere the same is found, elsewhere. -/
theorem next_relocate (cursor : Cursor) :
    (cursor.relocate move).next =
      (cursor.next.1.relocate move, cursor.next.2.relocate move) := by
  rw [next_eq_scanHere, next_eq_scanHere, skipBlank_relocate translates, scanHere, scanHere]
  cases rest : cursor.skipBlank.rest with
  | nil =>
      simp only [relocate, rest]
      rfl
  | cons first text =>
      simp only [relocate, rest]
      have moved := move_relocate translates cursor.skipBlank (Lexing.ofText first text).taken
        (Lexing.ofText first text).rest
      cases (Lexing.ofText first text).outcome with
      | ok lexeme => exact congrArg (Prod.mk _) moved
      | error error => exact congrArg (Prod.mk _) moved

end Cursor

namespace Reader

/-- In a text that begins elsewhere the same is read, elsewhere. -/
theorem resume_relocate (state : State) (around : List Hole) (cursor : Cursor) :
    resume (state.relocate move) (around.map (Hole.relocate move)) (cursor.relocate move) =
      (resume state around cursor).relocate move := by
  fun_induction resume state around cursor with
  | case1 state around cursor pos after found =>
      rw [resume_eq, Cursor.next_relocate translates, found]
      simp only [Scan.relocate, State.faultAtEnd_relocate]
      rfl
  | case2 state around cursor pos error after found =>
      rw [resume_eq, Cursor.next_relocate translates, found]
      rfl
  | case3 state around cursor token after found fault failed =>
      rw [resume_eq, Cursor.next_relocate translates, found]
      simp only [Scan.relocate, State.step_relocate, failed]
      rfl
  | case4 state around cursor token after found step stepped tree applied =>
      have moved := step.action.apply_relocate move around
      rw [applied] at moved
      rw [resume_eq, Cursor.next_relocate translates, found]
      simp only [Scan.relocate, State.step_relocate, stepped, Fault.relocateOr, Step.relocate, moved]
      simp [Progress.relocate, Progress.resume, Reading.prepend, Reading.relocate, Fault.relocateOr]
  | case5 state around cursor token after found step stepped next outer applied later
      inductionHypothesis =>
      have moved := step.action.apply_relocate move around
      rw [applied] at moved
      rw [resume_eq, Cursor.next_relocate translates, found]
      simp only [Scan.relocate, State.step_relocate, stepped, Fault.relocateOr, Step.relocate, moved,
        Progress.relocate, Progress.resume, inductionHypothesis]
      rfl

theorem read_relocate (slot : Slot) (cursor : Cursor) :
    read slot (cursor.relocate move) = (read slot cursor).relocate move :=
  resume_relocate translates (.start slot) [] cursor

theorem outcome_read_relocate {slot : Slot} {cursor : Cursor} {tree : Tree}
    (done : (read slot cursor).outcome = .ok tree) :
    (read slot (cursor.relocate move)).outcome = .ok (tree.relocate move) := by
  rw [read_relocate translates, Reading.relocate, done]
  rfl

theorem readAll_relocate (slot : Slot) (cursor : Cursor) :
    readAll slot (cursor.relocate move) = (readAll slot cursor).relocate move := by
  fun_induction readAll slot cursor with
  | case1 cursor first fault failed =>
      have alsoFailed : (read slot (cursor.relocate move)).outcome =
          .error (fault.relocate move) := by
        rw [read_relocate translates, Reading.relocate, failed]
        rfl
      rw [readAll_of_error alsoFailed, read_relocate translates]
      rfl
  | case2 cursor first tree done after ended =>
      have alsoEnded : (after.relocate move).atEnd = true := ended
      have moved : read slot (cursor.relocate move) = first.relocate move :=
        read_relocate translates slot cursor
      have skipped : (first.cursor.relocate move).skipBlank = after.relocate move :=
        Cursor.skipBlank_relocate translates first.cursor
      rw [readAll_of_ok (outcome_read_relocate translates done), moved]
      simp only [Reading.relocate, skipped, if_pos alsoEnded]
      rfl
  | case3 cursor first tree done after more later inductionHypothesis =>
      have alsoMore : ¬ (after.relocate move).atEnd = true := more
      have moved : read slot (cursor.relocate move) = first.relocate move :=
        read_relocate translates slot cursor
      have skipped : (first.cursor.relocate move).skipBlank = after.relocate move :=
        Cursor.skipBlank_relocate translates first.cursor
      rw [readAll_of_ok (outcome_read_relocate translates done), moved]
      simp only [Reading.relocate, skipped, if_neg alsoMore, inductionHypothesis]
      rfl

end Reader

end

end TailLisp
