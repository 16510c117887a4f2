import TailLisp.Proofs.Acceptance
import TailLisp.Proofs.Numbering
import TailLisp.Session

namespace TailLisp

/-!
Reports of failure.

A session keeps one place for the latest fault, which all its readings share.
A reading that fails returns no tree and writes its fault there, over whatever
stood there before; a reading that succeeds leaves the place alone.  Whether a
call fails is decided by the grammar: it fails exactly if its text is not what
it asks for.

The layer that a fault names is the one that found it.  No step of the reader
blames the scanner, so a fault of the scanner is always the first flaw of the
text, told with its own place and message.
-/

open Grammar

/-! ## The layer of a fault -/

namespace Fault

/-- The fault is a syntax error. -/
def Syntactic (fault : Fault) : Prop :=
  Exists fun error => fault.cause = .parse error

theorem syntactic_at (pos : Position) (error : SyntaxError) : (syntaxAt pos error).Syntactic :=
  ⟨error, rfl⟩

/-- What is done with a success has no part in the fault of a failure. -/
theorem of_map_eq_error {Result Other : Type} {attempt : Except Fault Result}
    {use : Result -> Other} {fault : Fault} (failed : attempt.map use = .error fault) :
    attempt = .error fault := by
  cases attempt with
  | error found =>
      cases failed
      rfl
  | ok result => cases failed

end Fault

theorem Hole.receive_fault {hole : Hole} {token : Token} {fault : Fault}
    (failed : hole.receive token = .error fault) : fault.Syntactic := by
  rcases token with ⟨pos, lexeme⟩
  cases lexeme with
  | closing =>
      cases failed
      exact Fault.syntactic_at _ _
  | dot =>
      cases failed
      exact Fault.syntactic_at _ _
  | string raw =>
      simp only [receive] at failed
      split at failed
      · cases failed
      · cases failed
        exact Fault.syntactic_at _ _
  | word keyword => cases keyword <;> cases failed
  | _ => cases failed

theorem BodyForm.close_fault {form : BodyForm} {pos : Position} {body : List Tree} {fault : Fault}
    (failed : form.close pos body = .error fault) : fault.Syntactic := by
  cases form with
  | begin tail => cases failed
  | scope kind tail bindings =>
      simp only [close] at failed
      split at failed
      · cases failed
        exact Fault.syntactic_at _ _
      · cases failed
  | lambda name params =>
      simp only [close] at failed
      split at failed
      · cases failed
        exact Fault.syntactic_at _ _
      · cases failed

namespace Series

theorem close_fault {series : Series} {fault : Fault} (failed : series.close = .error fault) :
    fault.Syntactic := by
  simp only [close] at failed
  split at failed
  · cases failed
  · exact BodyForm.close_fault failed
  · cases failed

theorem goOn_fault {series : Series} {fault : Fault} (failed : series.goOn = .error fault) :
    fault.Syntactic := by
  simp only [goOn] at failed
  split at failed
  · split at failed
    · split at failed
      · cases failed
      · cases failed
        exact Fault.syntactic_at _ _
    · cases failed
  · cases failed

theorem step_fault {series : Series} {token : Token} {fault : Fault}
    (failed : series.step token = .error fault) : fault.Syntactic := by
  have further (refused : (series.goOn.bind fun series => (Hole.item series).receive token) =
      .error fault) : fault.Syntactic := by
    cases gone : series.goOn with
    | error found =>
        rw [gone] at refused
        cases refused
        exact goOn_fault gone
    | ok next =>
        rw [gone] at refused
        exact Hole.receive_fault refused
  simp only [step] at failed
  split at failed
  · exact close_fault (Fault.of_map_eq_error failed)
  · split at failed
    · cases failed
      exact Fault.syntactic_at _ _
    · cases failed
    · exact further failed
  · exact further failed

end Series

theorem SpecialForm.enter_fault {form : SpecialForm} {pos : Position} {tail : Bool} {fault : Fault}
    (failed : form.enter pos tail = .error fault) : fault.Syntactic := by
  cases form with
  | recur =>
      simp only [enter] at failed
      split at failed
      · cases failed
      · cases failed
        exact Fault.syntactic_at _ _
  | _ => cases failed

namespace State

/-- Whatever a state refuses, it refuses as a syntax error. -/
theorem step_fault {state : State} {token : Token} {fault : Fault}
    (failed : state.step token = .error fault) : fault.Syntactic := by
  have refused (error : SyntaxError)
      (complains : (Except.error (.syntaxAt token.pos error) : Except Fault Step) = .error fault) :
      fault.Syntactic := by
    cases complains
    exact Fault.syntactic_at _ _
  cases state with
  | series items => exact Series.step_fault failed
  | operand hole ifClosed =>
      simp only [step] at failed
      split at failed
      · exact refused _ failed
      · exact Hole.receive_fault failed
  | opened slot pos =>
      simp only [step] at failed
      split at failed
      · exact SpecialForm.enter_fault (Fault.of_map_eq_error failed)
      · exact Series.step_fault failed
  | lambdaHead pos =>
      simp only [step] at failed
      split at failed
      · cases failed
      · split at failed
        · cases failed
        · exact refused _ failed
  | parameters pos name params =>
      simp only [step] at failed
      split at failed
      · cases failed
      · split at failed
        · exact refused _ failed
        · cases failed
      · exact refused _ failed
  | bindings head =>
      simp only [step] at failed
      split at failed
      · cases failed
      · cases failed
      · exact refused _ failed
  | _ =>
      simp only [step] at failed
      split at failed
      · cases failed
      · exact refused _ failed

theorem faultAtEnd_syntactic (state : State) (pos : Position) :
    (state.faultAtEnd pos).Syntactic := by
  cases state with
  | series items =>
      simp only [faultAtEnd]
      split
      · exact Fault.syntactic_at _ _
      · next failed => exact Series.goOn_fault failed
  | _ => exact Fault.syntactic_at _ _

end State

/-! ## Faults of a text -/

theorem Cursor.tokens_of_flaw {cursor after : Cursor} {pos : Position} {error : ScanError}
    (found : cursor.next = (.flaw pos error, after)) : cursor.tokens = ([], .flaw pos error, after) := by
  rw [Cursor.tokens]
  split
  · next token middle alsoFound =>
      rw [found] at alsoFound
      cases alsoFound
  · next stop middle _ alsoFound =>
      rw [found] at alsoFound
      cases alsoFound
      rfl

theorem Cursor.tokens_skipBlank (cursor : Cursor) : cursor.skipBlank.tokens = cursor.tokens := by
  rw [Cursor.tokens, Cursor.tokens, next_skipBlank]

namespace Fault

/-- The fault belongs to the text at a cursor: it is a syntax error, or it is
the flaw at which scanning the text stops. -/
def Befalls (fault : Fault) (cursor : Cursor) : Prop :=
  fault.Syntactic ∨ Exists fun error =>
    fault.cause = .scan error ∧ cursor.tokens.2.1 = .flaw fault.origin error

/-- A fault behind some tokens of a text is a fault of the text. -/
theorem Befalls.of_scans {fault : Fault} {cursor ending : Cursor} {tokens : List Token}
    (befalls : fault.Befalls ending) (scanned : cursor.Scans tokens ending) :
    fault.Befalls cursor := by
  rcases befalls with syntactic | ⟨error, isScan, flaw⟩
  · exact .inl syntactic
  · refine .inr ⟨error, isScan, ?_⟩
    rw [scanned.tokens_eq]
    exact flaw

end Fault

namespace Reader

theorem resume_fault {state : State} {around : List Hole} {cursor : Cursor} {fault : Fault}
    (failed : (resume state around cursor).outcome = .error fault) : fault.Befalls cursor := by
  fun_induction resume state around cursor with
  | case1 state around cursor pos after found =>
      cases failed
      exact .inl (State.faultAtEnd_syntactic state pos)
  | case2 state around cursor pos error after found =>
      cases failed
      refine .inr ⟨error, rfl, ?_⟩
      rw [Cursor.tokens_of_flaw found]
  | case3 state around cursor token after found other stepped =>
      cases failed
      exact .inl (State.step_fault stepped)
  | case4 => cases failed
  | case5 state around cursor token after found step stepped next outer applied later
      inductionHypothesis =>
      exact (inductionHypothesis failed).of_scans (.cons found (.nil after))

theorem readAll_fault {slot : Slot} {cursor : Cursor} {fault : Fault}
    (failed : (readAll slot cursor).fault = some fault) : fault.Befalls cursor := by
  fun_induction readAll slot cursor with
  | case1 cursor first found stopped =>
      cases failed
      exact resume_fault stopped
  | case2 => cases failed
  | case3 cursor first tree done after more later inductionHypothesis =>
      rcases read_outcome_eq_ok done with ⟨_, tokens, scanned, _⟩
      have befalls : fault.Befalls first.cursor.skipBlank := inductionHypothesis failed
      rw [Fault.Befalls, Cursor.tokens_skipBlank] at befalls
      exact Fault.Befalls.of_scans befalls scanned

/-- A text that is read has a first item. -/
theorem readAll_items_ne_nil {slot : Slot} {cursor : Cursor}
    (faultless : (readAll slot cursor).fault = none) : (readAll slot cursor).items ≠ [] := by
  fun_induction readAll slot cursor with
  | case1 => cases faultless
  | case2 => exact List.cons_ne_nil _ _
  | case3 => exact List.cons_ne_nil _ _

end Reader

/-! ## Messages -/

theorem Bytes.ofText_ne_nil {text : String} (nonempty : text ≠ "") : ofText text ≠ [] := by
  rw [ofText]
  intro nothing
  exact nonempty (String.toList_eq_nil_iff.1 (List.map_eq_nil_iff.1 nothing))

theorem ScanError.message_ne_nil (error : ScanError) : error.message ≠ [] := by
  cases error with
  | unknownCharacter name =>
      exact List.append_ne_nil_of_left_ne_nil (Bytes.ofText_ne_nil (by decide)) _
  | integerOutOfRange text =>
      exact List.append_ne_nil_of_left_ne_nil (Bytes.ofText_ne_nil (by decide)) _
  | _ => exact Bytes.ofText_ne_nil (by decide)

theorem SyntaxError.message_ne_nil (error : SyntaxError) : error.message ≠ [] := by
  cases error with
  | emptyBody form => exact List.append_ne_nil_of_right_ne_nil _ (Bytes.ofText_ne_nil (by decide))
  | missingBindings kind =>
      exact List.append_ne_nil_of_right_ne_nil _ (Bytes.ofText_ne_nil (by decide))
  | bindingWithoutValue name =>
      exact List.append_ne_nil_of_right_ne_nil _ (Bytes.ofText_ne_nil (by decide))
  | duplicateParameter name =>
      exact List.append_ne_nil_of_left_ne_nil (Bytes.ofText_ne_nil (by decide)) _
  | _ => exact Bytes.ofText_ne_nil (by decide)

namespace Fault

/-- A fault as it has to be reported for the text at a cursor: with a message,
and in the name of the layer that found it.  The scanner reports the flaw at
which it stops. -/
structure Reports (fault : Fault) (cursor : Cursor) : Prop where
  message : fault.message ≠ []
  layer : fault.subsystem = Bytes.ofText "parser" ∨
    fault.subsystem = Bytes.ofText "scanner" ∧ Exists fun error =>
      cursor.tokens.2.1 = .flaw fault.origin error ∧ fault.message = error.message

theorem Befalls.reports {fault : Fault} {cursor : Cursor} (befalls : fault.Befalls cursor) :
    fault.Reports cursor := by
  rcases befalls with ⟨error, isParse⟩ | ⟨error, isScan, flaw⟩
  · constructor
    · rw [Fault.message, isParse]
      exact error.message_ne_nil
    · refine .inl ?_
      rw [subsystem, isParse]
  · have told : fault.message = error.message := by rw [Fault.message, isScan]
    constructor
    · rw [told]
      exact error.message_ne_nil
    · refine .inr ⟨?_, error, flaw, told⟩
      rw [subsystem, isScan]

end Fault

/-! ## Readings into a table -/

namespace Interned

variable {Result : Type}

/-- The trees that a reading returns: none if it failed. -/
def trees (items : Result -> List (Node SymbolId)) (read : Interned Result) :
    List (Node SymbolId) :=
  match read.outcome with
  | .ok result => items result
  | .error _ => []

theorem trees_singleton (read : Interned (Node SymbolId)) :
    read.trees (fun node => [node]) = read.outcome.toOption.toList := by
  rw [trees]
  cases read.outcome <;> rfl

theorem trees_list (read : Interned (List (Node SymbolId))) :
    read.trees (fun forms => forms) = read.outcome.toOption.getD [] := by
  rw [trees]
  cases read.outcome <;> rfl

/-- The fault that a reading writes, if it failed. -/
def written (read : Interned Result) : Option Fault :=
  match read.outcome with
  | .ok _ => none
  | .error fault => some fault

/-- A reading from a text into a table is as it should be.  It succeeds exactly
if the text is accepted, and then there are trees; otherwise it has a fault to
report.  Either way the table has only grown. -/
structure Exact (read : Interned Result) (items : Result -> List (Node SymbolId))
    (before : SymbolTable) (source : Cursor) (accepted : Prop) : Prop where
  accepts : (Exists fun result => read.outcome = .ok result) ↔ accepted
  nonempty : forall result, read.outcome = .ok result -> items result ≠ []
  reports : forall fault, read.outcome = .error fault -> fault.Reports source
  grown : before.names <+: read.table.names
  ready : read.table.ready = before.ready

section Exact

variable {read : Interned Result} {items : Result -> List (Node SymbolId)} {before : SymbolTable}
  {source : Cursor} {accepted : Prop} (exact : read.Exact items before source accepted)

include exact

theorem Exact.trees_eq_nil_iff : read.trees items = [] ↔ read.written ≠ none := by
  rw [trees, written]
  cases outcome : read.outcome with
  | ok result => simpa using exact.nonempty result outcome
  | error fault => simp

theorem Exact.written_eq_none_iff : read.written = none ↔ accepted := by
  rw [← exact.accepts, written]
  cases read.outcome with
  | ok result => exact ⟨fun _ => ⟨result, rfl⟩, fun _ => rfl⟩
  | error fault => exact ⟨nofun, nofun⟩

theorem Exact.reports_written {fault : Fault} (isWritten : read.written = some fault) :
    fault.Reports source := by
  apply exact.reports
  rw [written] at isWritten
  cases outcome : read.outcome with
  | ok result =>
      rw [outcome] at isWritten
      cases isWritten
  | error found =>
      rw [outcome] at isWritten
      cases isWritten
      rfl

end Exact

end Interned

namespace SymbolTable

/-- The tokens of a text begin with an item of the slot. -/
def BeginsWithItem (slot : Slot) (cursor : Cursor) : Prop :=
  Exists fun tokens => Exists fun tree => tokens <+: cursor.tokens.1 ∧ Item slot tokens tree

/-- A text is a row of one or more items of the slot, and nothing else. -/
def IsRow (slot : Slot) (cursor : Cursor) : Prop :=
  Exists fun parts : List Passage => parts ≠ [] ∧
    (forall part, part ∈ parts -> Item slot part.tokens part.tree) ∧
      Exists fun pos => Exists fun after =>
        cursor.tokens = (parts.flatMap Passage.tokens, .finish pos, after)

/-- A text is one item of the slot, and nothing else. -/
def IsItem (slot : Slot) (cursor : Cursor) : Prop :=
  Exists fun tokens => Exists fun tree => Item slot tokens tree ∧
    Exists fun pos => Exists fun after => cursor.tokens = (tokens, .finish pos, after)

theorem readItem_exact (table : SymbolTable) (slot : Slot) (cursor : Cursor) :
    (table.readItem slot cursor).Exact (fun node => [node]) table cursor
      (BeginsWithItem slot cursor) where
  accepts := readItem_ok_iff table slot cursor
  nonempty := fun node _ => List.cons_ne_nil node []
  reports := by
    intro fault failed
    exact (Reader.resume_fault (Fault.of_map_eq_error failed)).reports
  grown := names_isPrefix_insertAll table _
  ready := ready_insertAll table _

theorem parseForms_exact {table : SymbolTable} (ready : table.ready = true) (text : Bytes) :
    Exists fun read => table.parseForms text = .ok read ∧
      read.Exact (fun forms => forms) table (.ofText text) (IsRow (.code false) (.ofText text)) := by
  have parsed : Exists fun read => table.parseForms text = .ok read ∧
      read.outcome = ((Reader.readAll (.code false) (.ofText text)).map read.table.resolve).outcome ∧
        read.table = table.insertAll (Reader.readAll (.code false) (.ofText text)).names := by
    rw [parseForms, readForms, checkReady, if_pos ready]
    exact ⟨_, rfl, rfl, rfl⟩
  rcases parsed with ⟨read, parsed, outcome, filled⟩
  refine ⟨read, parsed, ?_, ?_, ?_, ?_, ?_⟩
  · rw [IsRow, ← parseForms_ok_iff ready text]
    constructor
    · rintro ⟨forms, done⟩
      exact ⟨read, forms, parsed, done⟩
    · rintro ⟨other, forms, alsoParsed, done⟩
      cases parsed.symm.trans alsoParsed
      exact ⟨forms, done⟩
  · intro forms done
    rw [outcome, Batch.outcome] at done
    split at done
    · next faultless =>
        cases done
        have items := Reader.readAll_items_ne_nil faultless
        exact List.map_eq_nil_iff.not.2 items
    · cases done
  · intro fault failed
    rw [outcome, Batch.outcome] at failed
    split at failed
    · cases failed
    · next found =>
        cases failed
        exact (Reader.readAll_fault found).reports
  · rw [filled]
    exact names_isPrefix_insertAll table _
  · rw [filled]
    exact ready_insertAll table _

/-- A text that begins with an item is nothing else if only blank text is left
where the reading stopped. -/
theorem isItem_iff_atEnd {table : SymbolTable} {slot : Slot} {cursor : Cursor}
    {node : Node SymbolId} (done : (table.readItem slot cursor).outcome = .ok node) :
    IsItem slot cursor ↔ (table.readItem slot cursor).cursor.skipBlank.atEnd = true := by
  constructor
  · rintro ⟨tokens, tree, item, whole⟩
    rcases Cursor.tokens_eq_finish_iff.1 whole with ⟨ending, scanned, ended⟩
    rw [readItem_of_item scanned item]
    exact ended
  · intro ended
    rcases item_of_readItem done with ⟨tokens, tree, scanned, item, _, _⟩
    exact ⟨tokens, tree, item, Cursor.tokens_eq_finish_iff.2 ⟨_, scanned, ended⟩⟩

theorem parseDatum_exact {table : SymbolTable} (ready : table.ready = true) (text : Bytes) :
    Exists fun read => table.parseDatum text = .ok read ∧
      read.Exact (fun node => [node]) table (.ofText text) (IsItem .data (.ofText text)) := by
  have first := readItem_exact table .data (.ofText text)
  rw [parseDatum, checkReady, if_pos ready]
  cases outcome : (table.readItem .data (.ofText text)).outcome with
  | error fault =>
      refine ⟨table.readItem .data (.ofText text), ?_, ?_, first.nonempty, first.reports,
        first.grown, first.ready⟩
      · simp only [bind, Except.bind, outcome]
        rfl
      · rw [outcome]
        constructor
        · rintro ⟨node, impossible⟩
          cases impossible
        · rintro ⟨tokens, tree, item, pos, after, whole⟩
          have begins : BeginsWithItem .data (.ofText text) :=
            ⟨tokens, tree, by rw [whole], item⟩
          rcases first.accepts.2 begins with ⟨node, done⟩
          rw [outcome] at done
          cases done
  | ok node =>
      simp only [bind, Except.bind, outcome]
      split
      · next ended =>
          refine ⟨_, rfl, ?_, fun node _ => List.cons_ne_nil node [], ?_, first.grown, first.ready⟩
          · rw [isItem_iff_atEnd outcome]
            exact ⟨fun _ => ended, fun _ => ⟨node, rfl⟩⟩
          · intro fault failed
            cases failed
      · next more =>
          refine ⟨_, rfl, ?_, fun node _ => List.cons_ne_nil node [], ?_, first.grown, first.ready⟩
          · rw [isItem_iff_atEnd outcome]
            constructor
            · rintro ⟨node, impossible⟩
              cases impossible
            · intro ended
              exact absurd ended more
          · intro fault failed
            cases failed
            exact Fault.Befalls.reports (.inl (Fault.syntactic_at _ _))

end SymbolTable

/-! ## Calls of a session -/

/-- A reading that a session can be asked for. -/
inductive ReadCall where
  /-- The next item of the session's text. -/
  | item (slot : Slot)
  /-- A program in another text. -/
  | program (text : Bytes)
  /-- The rest of the session's text as a program. -/
  | rest
  /-- The one datum of another text. -/
  | datum (text : Bytes)

/-- What a call gives back.  A failed reading gives no trees. -/
inductive Reply where
  | returned (trees : List (Node SymbolId))
  | refused (misuse : Misuse)

namespace ReadCall

/-- Whether the call is refused before the table is prepared. -/
def wantsReady : ReadCall -> Bool
  | item _ => false
  | _ => true

/-- The text that the call reads. -/
def source (session : Session) : ReadCall -> Cursor
  | item _ => session.cursor
  | program text => .ofText text
  | rest => .ofText session.cursor.rest
  | datum text => .ofText text

/-- The text is what the call asks for, by the rules of the grammar. -/
def Accepts (cursor : Cursor) : ReadCall -> Prop
  | item slot => SymbolTable.BeginsWithItem slot cursor
  | program _ => SymbolTable.IsRow (.code false) cursor
  | rest => SymbolTable.IsRow (.code false) cursor
  | datum _ => SymbolTable.IsItem .data cursor

end ReadCall

namespace Session

/-- What a call gives back, and the session afterwards.  A call that is refused
leaves the session as it is. -/
def perform (session : Session) : ReadCall -> Reply × Session
  | .item slot =>
      let (outcome, after) := session.readItem slot
      (.returned outcome.toOption.toList, after)
  | .program text =>
      match session.parseForms text with
      | .ok (forms, after) => (.returned forms, after)
      | .error misuse => (.refused misuse, session)
  | .rest =>
      match session.parseRest with
      | .ok (forms, after) => (.returned forms, after)
      | .error misuse => (.refused misuse, session)
  | .datum text =>
      match session.parseDatum text with
      | .ok (outcome, after) => (.returned outcome.toOption.toList, after)
      | .error misuse => (.refused misuse, session)

/-- A reading's fault is written over the latest one. -/
theorem adopt_eq {Result : Type} (session : Session) (read : Interned Result) :
    session.adopt read =
      { table := read.table
        cursor := session.cursor
        fault := read.written.or session.fault } := by
  rw [adopt, Interned.written]
  cases read.outcome <;> rfl

/-- A call returns trees or writes a fault, never both and never neither.  Which of
the two happens is decided by the text, the fault tells what is wrong with it, and
the table keeps its names and may get more. -/
structure ReportsExactly (session : Session) (call : ReadCall) (trees : List (Node SymbolId))
    (written : Option Fault) (table : SymbolTable) : Prop where
  nothing_iff : trees = [] ↔ written ≠ none
  accepts_iff : written = none ↔ call.Accepts (call.source session)
  reports : forall fault, written = some fault -> fault.Reports (call.source session)
  grown : session.table.names <+: table.names
  ready : table.ready = session.table.ready

/-- The call returns the trees of a reading and writes its fault.  The fault is written
over any older one, and if none is written the older one is left alone. -/
def Performs {Result : Type} (session : Session) (call : ReadCall)
    (items : Result -> List (Node SymbolId)) (read : Interned Result) (cursor : Cursor) : Prop :=
  forall older, ({ session with fault := older } : Session).perform call =
    (.returned (read.trees items), { table := read.table, cursor, fault := read.written.or older })

theorem performs_item (session : Session) (slot : Slot) :
    session.Performs (.item slot) (fun node => [node])
      (session.table.readItem slot session.cursor)
      (session.table.readItem slot session.cursor).cursor := by
  intro older
  simp only [perform, readItem, adopt_eq, Interned.trees_singleton]

theorem performs_program {session : Session} {text : Bytes}
    {read : Interned (List (Node SymbolId))} (parsed : session.table.parseForms text = .ok read) :
    session.Performs (.program text) (fun forms => forms) read session.cursor := by
  intro older
  simp only [perform, parseForms, parsed, bind, Except.bind, pure, Except.pure, adopt_eq,
    Interned.trees_list]

theorem performs_rest {session : Session} {read : Interned (List (Node SymbolId))}
    (parsed : session.table.parseForms session.cursor.rest = .ok read) :
    session.Performs .rest (fun forms => forms) read
      { session.cursor with rest := read.cursor.rest } := by
  rw [SymbolTable.parseForms] at parsed
  intro older
  simp only [perform, parseRest, parsed, bind, Except.bind, pure, Except.pure, adopt_eq,
    Interned.trees_list]

theorem performs_datum {session : Session} {text : Bytes} {read : Interned (Node SymbolId)}
    (parsed : session.table.parseDatum text = .ok read) :
    session.Performs (.datum text) (fun node => [node]) read session.cursor := by
  intro older
  simp only [perform, parseDatum, parsed, bind, Except.bind, pure, Except.pure, adopt_eq,
    Interned.trees_singleton]

theorem ReportsExactly.of_exact {Result : Type} {session : Session} {call : ReadCall}
    {items : Result -> List (Node SymbolId)} {read : Interned Result}
    (exact : read.Exact items session.table (call.source session)
      (call.Accepts (call.source session))) :
    session.ReportsExactly call (read.trees items) read.written read.table where
  nothing_iff := exact.trees_eq_nil_iff
  accepts_iff := exact.written_eq_none_iff
  reports := fun _ => exact.reports_written
  grown := exact.grown
  ready := exact.ready

/-- Without a prepared table a call that wants one is refused. -/
theorem perform_of_not_ready {session : Session} {call : ReadCall}
    (wantsReady : call.wantsReady = true) (notReady : ¬ session.table.ready = true) :
    session.perform call = (.refused .unpreparedTable, session) := by
  cases call with
  | item slot => cases wantsReady
  | program text =>
      simp only [perform, parseForms, SymbolTable.parseForms,
        SymbolTable.readForms_of_not_ready notReady, bind, Except.bind]
  | rest =>
      simp only [perform, parseRest, SymbolTable.readForms_of_not_ready notReady, bind, Except.bind]
  | datum text =>
      simp only [perform, parseDatum, SymbolTable.parseDatum_of_not_ready notReady, bind,
        Except.bind]

/-- Every call is carried out and reports its failures exactly, unless it wants a
prepared table and has none. -/
theorem performs_of_ready {session : Session} {call : ReadCall}
    (ready : call.wantsReady = true -> session.table.ready = true) :
    Exists fun trees => Exists fun written => Exists fun table => Exists fun cursor =>
      (forall older, ({ session with fault := older } : Session).perform call =
        (.returned trees, { table, cursor, fault := written.or older })) ∧
          session.ReportsExactly call trees written table := by
  cases call with
  | item slot =>
      have exact := SymbolTable.readItem_exact session.table slot session.cursor
      exact ⟨_, _, _, _, performs_item session slot, .of_exact exact⟩
  | program text =>
      rcases SymbolTable.parseForms_exact (ready rfl) text with ⟨read, parsed, exact⟩
      exact ⟨_, _, _, _, performs_program parsed, .of_exact exact⟩
  | rest =>
      rcases SymbolTable.parseForms_exact (ready rfl) session.cursor.rest with
        ⟨read, parsed, exact⟩
      exact ⟨_, _, _, _, performs_rest parsed, .of_exact exact⟩
  | datum text =>
      rcases SymbolTable.parseDatum_exact (ready rfl) text with ⟨read, parsed, exact⟩
      exact ⟨_, _, _, _, performs_datum parsed, .of_exact exact⟩

end Session

end TailLisp
