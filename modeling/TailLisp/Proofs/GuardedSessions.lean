import TailLisp.Proofs.GuardedReading
import TailLisp.Proofs.Reporting

namespace TailLisp

/-!
Sessions through guarded accesses.

A session can be asked for tokens and for whole readings in any order, and each
call goes on from wherever the one before it stopped, also behind a flaw or in the
middle of a form.  The guarded session makes the same calls through the guarded
scanner and the guarded reader.  It answers as the session does, since neither
raises an alarm from any place.

That an alarm is not raised is also seen from the outside: no fault that can be
reported says what an alarm would say, and the trees that are returned have no
place where an alarm could come from.
-/

/-! ## Guarded calls -/

namespace SymbolTable

/-- Reads all forms of a program. -/
def readFormsGuarded (table : SymbolTable) (cursor : Cursor) :
    Except Alarm (Except Misuse (Interned (List (Node SymbolId)))) :=
  match table.checkReady with
  | .error misuse => return .error misuse
  | .ok _ => return .ok (table.enterAll (<- Reader.readAllGuarded (.code false) cursor))

/-- Reads the one datum of a text. -/
def parseDatumGuarded (table : SymbolTable) (text : Bytes) :
    Except Alarm (Except Misuse (Interned (Node SymbolId))) :=
  match table.checkReady with
  | .error misuse => return .error misuse
  | .ok _ => do
      let read := table.enter (<- Reader.readGuarded .data (.ofText text))
      match read.outcome with
      | .error _ => return .ok read
      | .ok _ =>
          let after <- read.cursor.skipBlankGuarded
          if after.atEnd then
            return .ok { read with cursor := after }
          else
            return .ok { outcome := .error (.syntaxAt after.pos .trailingInput)
                         table := read.table
                         cursor := after }

theorem readFormsGuarded_eq (table : SymbolTable) (cursor : Cursor) :
    table.readFormsGuarded cursor = .ok (table.readForms cursor) := by
  rw [readFormsGuarded, readForms, Reader.readAllGuarded_eq]
  cases table.checkReady <;> rfl

theorem parseDatumGuarded_eq (table : SymbolTable) (text : Bytes) :
    table.parseDatumGuarded text = .ok (table.parseDatum text) := by
  rw [parseDatumGuarded, parseDatum, Reader.readGuarded_eq]
  cases table.checkReady with
  | error misuse => rfl
  | ok _ =>
      have entered : table.enter (Reader.read .data (.ofText text)) =
          table.readItem .data (.ofText text) :=
        rfl
      simp only [bind, Except.bind, entered]
      cases outcome : (table.readItem .data (.ofText text)).outcome with
      | error fault => rfl
      | ok node =>
          simp only [Cursor.skipBlankGuarded_eq]
          split <;> rfl

end SymbolTable

namespace Session

/-- What a call gives back, and the session afterwards. -/
def performGuarded (session : Session) : ReadCall -> Except Alarm (Reply × Session)
  | .item slot => do
      let read := session.table.enter (<- Reader.readGuarded slot session.cursor)
      return (.returned read.outcome.toOption.toList,
        { session.adopt read with cursor := read.cursor })
  | .program text => do
      match <- session.table.readFormsGuarded (.ofText text) with
      | .ok read => return (.returned (read.outcome.toOption.getD []), session.adopt read)
      | .error misuse => return (.refused misuse, session)
  | .rest => do
      match <- session.table.readFormsGuarded (.ofText session.cursor.rest) with
      | .ok read =>
          let left := { session.cursor with rest := read.cursor.rest }
          return (.returned (read.outcome.toOption.getD []),
            { session.adopt read with cursor := left })
      | .error misuse => return (.refused misuse, session)
  | .datum text => do
      match <- session.table.parseDatumGuarded text with
      | .ok read => return (.returned read.outcome.toOption.toList, session.adopt read)
      | .error misuse => return (.refused misuse, session)

theorem performGuarded_eq (session : Session) (call : ReadCall) :
    session.performGuarded call = .ok (session.perform call) := by
  cases call with
  | item slot =>
      rw [performGuarded, Reader.readGuarded_eq]
      rfl
  | program text =>
      rw [performGuarded, SymbolTable.readFormsGuarded_eq, perform, parseForms,
        SymbolTable.parseForms]
      cases session.table.readForms (.ofText text) <;> rfl
  | rest =>
      rw [performGuarded, SymbolTable.readFormsGuarded_eq, perform, parseRest]
      cases session.table.readForms (.ofText session.cursor.rest) <;> rfl
  | datum text =>
      rw [performGuarded, SymbolTable.parseDatumGuarded_eq, perform, parseDatum]
      cases session.table.parseDatum text <;> rfl

end Session

/-! ## What an alarm would say -/

namespace Alarm

/-- Whether a message begins like that of an alarm. -/
def announces (message : Bytes) : Bool :=
  (Bytes.ofText "Unexpected EOF while").isPrefixOf message ||
    (Bytes.ofText "Unexpected token").isPrefixOf message

theorem announces_of_message? {alarm : Alarm} {message : Bytes}
    (told : alarm.message? = some message) : announces message = true := by
  cases alarm with
  | wordless kind => cases told
  | lastOfNone => cases told
  | _ =>
      cases told
      rfl

end Alarm

theorem ScanError.not_announces_message (error : ScanError) :
    Alarm.announces error.message = false := by
  cases error <;> rfl

theorem SyntaxError.not_announces_message (error : SyntaxError) :
    Alarm.announces error.message = false := by
  cases error with
  | emptyBody form =>
      cases form with
      | scope kind => cases kind <;> rfl
      | _ => rfl
  | missingBindings kind => cases kind <;> rfl
  | _ => rfl

/-- No fault says what an alarm would say. -/
theorem Alarm.message?_ne_message (alarm : Alarm) (fault : Fault) :
    alarm.message? ≠ some fault.message := by
  intro same
  have announced := announces_of_message? same
  rcases fault with ⟨origin, error | error⟩
  · exact Bool.false_ne_true (error.not_announces_message.symm.trans announced)
  · exact Bool.false_ne_true (error.not_announces_message.symm.trans announced)

theorem Alarm.message?_ne_misuse (alarm : Alarm) (misuse : Misuse) :
    alarm.message? ≠ some misuse.message := by
  intro same
  have announced := announces_of_message? same
  cases misuse
  exact absurd announced (by decide)

/-! ## What a call returns -/

theorem Interned.outcome_of_mem {read : Interned (Node SymbolId)} {node : Node SymbolId}
    (member : node ∈ read.outcome.toOption.toList) : read.outcome = .ok node := by
  cases outcome : read.outcome with
  | error fault =>
      rw [outcome] at member
      cases member
  | ok single =>
      rw [outcome] at member
      rw [List.mem_singleton.1 member]

theorem SymbolTable.wellBuilt_of_mem_forms {table : SymbolTable} {cursor : Cursor}
    {read : Interned (List (Node SymbolId))} {form : Node SymbolId}
    (parsed : table.readForms cursor = .ok read)
    (member : form ∈ read.outcome.toOption.getD []) : form.WellBuilt (· ≠ ·) := by
  cases outcome : read.outcome with
  | error fault =>
      rw [outcome] at member
      cases member
  | ok forms =>
      rw [outcome] at member
      exact wellBuilt_of_readForms parsed outcome form member

namespace Session

/-- The trees that a call returns are well built. -/
theorem wellBuilt_of_perform {session : Session} {call : ReadCall}
    {trees : List (Node SymbolId)} (returned : (session.perform call).1 = .returned trees)
    {tree : Node SymbolId} (member : tree ∈ trees) : tree.WellBuilt (· ≠ ·) := by
  cases call with
  | item slot =>
      cases returned
      exact SymbolTable.wellBuilt_of_readItem (Interned.outcome_of_mem member)
  | program text =>
      simp only [perform, parseForms] at returned
      cases parsed : session.table.parseForms text with
      | error misuse =>
          rw [parsed] at returned
          cases returned
      | ok read =>
          rw [parsed] at returned
          cases returned
          exact SymbolTable.wellBuilt_of_mem_forms parsed member
  | rest =>
      simp only [perform, parseRest] at returned
      cases parsed : session.table.readForms (.ofText session.cursor.rest) with
      | error misuse =>
          rw [parsed] at returned
          cases returned
      | ok read =>
          rw [parsed] at returned
          cases returned
          exact SymbolTable.wellBuilt_of_mem_forms parsed member
  | datum text =>
      simp only [perform, parseDatum] at returned
      cases parsed : session.table.parseDatum text with
      | error misuse =>
          rw [parsed] at returned
          cases returned
      | ok read =>
          rw [parsed] at returned
          cases returned
          exact SymbolTable.wellBuilt_of_parseDatum parsed (Interned.outcome_of_mem member)

end Session

/-! ## Sequences of calls -/

/-- A call of a session, on its scanner or for a reading. -/
inductive SessionCall where
  | next
  /-- Whether the text has ended. -/
  | atEnd
  /-- Whether the text ends behind the blank text that comes next. -/
  | atEndBehindBlank
  | read (call : ReadCall)

/-- What a call of a session gives back. -/
inductive Answer where
  | scanned (scan : Scan)
  | ended (ended : Bool)
  | replied (reply : Reply)

/-- The trees that an answer brings. -/
def Answer.trees : Answer -> List (Node SymbolId)
  | replied (.returned trees) => trees
  | _ => []

namespace Session

/-- The answer to a call, and the session afterwards. -/
def answer (session : Session) : SessionCall -> Answer × Session
  | .next => (.scanned session.next.1, session.next.2)
  | .atEnd => (.ended session.cursor.atEnd, session)
  | .atEndBehindBlank => (.ended session.skipBlank.cursor.atEnd, session.skipBlank)
  | .read call => (.replied (session.perform call).1, (session.perform call).2)

/-- Makes calls in turn, whatever the answers are. -/
def run : List SessionCall -> Session -> List Answer × Session
  | [], session => ([], session)
  | call :: calls, session =>
      let first := session.answer call
      let later := run calls first.2
      (first.1 :: later.1, later.2)

/-- The answer to a call through guarded accesses. -/
def answerGuarded (session : Session) : SessionCall -> Except Alarm (Answer × Session)
  | .next => do
      let (scan, after) <- session.cursor.nextGuarded
      return (.scanned scan, { session with cursor := after })
  | .atEnd => return (.ended session.cursor.atEnd, session)
  | .atEndBehindBlank => do
      let after <- session.cursor.skipBlankGuarded
      return (.ended after.atEnd, { session with cursor := after })
  | .read call => do
      let (reply, after) <- session.performGuarded call
      return (.replied reply, after)

/-- Makes calls in turn, until one of them raises an alarm. -/
def runGuarded : List SessionCall -> Session -> Except Alarm (List Answer × Session)
  | [], session => return ([], session)
  | call :: calls, session => do
      let (first, after) <- session.answerGuarded call
      let (later, last) <- runGuarded calls after
      return (first :: later, last)

theorem answerGuarded_eq (session : Session) (call : SessionCall) :
    session.answerGuarded call = .ok (session.answer call) := by
  cases call with
  | next =>
      rw [answerGuarded, Cursor.nextGuarded_eq]
      rfl
  | atEnd => rfl
  | atEndBehindBlank =>
      rw [answerGuarded, Cursor.skipBlankGuarded_eq]
      rfl
  | read call =>
      rw [answerGuarded, performGuarded_eq]
      rfl

theorem runGuarded_eq (session : Session) (calls : List SessionCall) :
    session.runGuarded calls = .ok (session.run calls) := by
  induction calls generalizing session with
  | nil => rfl
  | cons call calls inductionHypothesis =>
      rw [runGuarded, answerGuarded_eq]
      simp only [bind, Except.bind, inductionHypothesis]
      rfl

theorem wellBuilt_of_answer {session : Session} {call : SessionCall} {tree : Node SymbolId}
    (member : tree ∈ (session.answer call).1.trees) : tree.WellBuilt (· ≠ ·) := by
  cases call with
  | read call =>
      cases replied : (session.perform call).1 with
      | returned trees =>
          rw [answer, replied] at member
          exact wellBuilt_of_perform replied member
      | refused misuse =>
          rw [answer, replied] at member
          cases member
  | _ => cases member

/-- Whatever a run brings is well built. -/
theorem wellBuilt_of_run {session : Session} {calls : List SessionCall} {tree : Node SymbolId}
    (member : tree ∈ (session.run calls).1.flatMap Answer.trees) : tree.WellBuilt (· ≠ ·) := by
  induction calls generalizing session with
  | nil => cases member
  | cons call calls inductionHypothesis =>
      rw [run, List.flatMap_cons, List.mem_append] at member
      rcases member with first | later
      · exact wellBuilt_of_answer first
      · exact inductionHypothesis later

end Session

/-- Reading raises no alarm.  Whatever calls are made to a session, on whatever text
and wherever it begins, the guarded session answers as the session does.

The places on which this rests are sound.  Every token has a spelling, as the end
has one.  Whatever a reading has put together is well built, also if the reading
fails later, and so is each tree that is returned: its lists have an element, its
scopes and lambdas have a body, and the parameters of a lambda differ.  From any
node of it the way out can be followed to its end, and the node can be moved out of
tail position.  And nothing that is reported reads like an alarm. -/
theorem Session.run_raises_no_alarm (session : Session) (calls : List SessionCall) :
    session.runGuarded calls = .ok (session.run calls) ∧
    (forall token : Token, token.flat.spelling = .ok token.lexeme.spelling) ∧
    (forall pos, (FlatToken.finish pos).spelling = .ok (Bytes.ofText "EOF")) ∧
    (forall slot tokens progress,
      (Progress.reading (.start slot) []).Advances tokens progress -> progress.WellBuilt) ∧
    (forall tree, tree ∈ (session.run calls).1.flatMap Answer.trees ->
      forall node, node ∈ tree.preorder ->
        node.Complete (· ≠ ·) ∧
          node.reachesRecurGuarded = .ok node.reachesRecur ∧
          node.demoteGuarded = .ok node.demote) ∧
    (forall (alarm : Alarm) (fault : Fault), alarm.message? ≠ some fault.message) ∧
    (forall (alarm : Alarm) (error : ScanError), alarm.message? ≠ some error.message) ∧
    (forall (alarm : Alarm) (misuse : Misuse), alarm.message? ≠ some misuse.message) := by
  refine ⟨Session.runGuarded_eq session calls, Token.spelling_flat, fun _ => rfl, ?_, ?_,
    Alarm.message?_ne_message, ?_, Alarm.message?_ne_misuse⟩
  · intro slot tokens progress advanced
    exact advanced.wellBuilt ⟨Reader.start_wellBuilt slot, List.forall_mem_nil _⟩
  · intro tree returned node inTree
    have built := (Session.wellBuilt_of_run returned).of_mem inTree
    exact ⟨built.complete, built.reachesRecurGuarded, node.demoteGuarded_eq⟩
  · intro alarm error
    exact alarm.message?_ne_message { origin := .start, cause := .scan error }

/-- An item, a datum that breaks off in a flaw, and the end of the text. -/
theorem Session.run_raises_no_alarm_broken_off :
    let session := Session.start SymbolTable.empty.prepare 1 0
      (Bytes.ofText "(lambda (x y) (let () (begin) y)) '#")
    let calls : List SessionCall :=
      [.atEnd, .read (.item (.code false)), .atEndBehindBlank, .read (.item .data), .next]
    session.runGuarded calls = .ok (session.run calls) ∧
      Exists fun tree => Exists fun fault => (session.run calls).1.flatMap Answer.trees = [tree] ∧
        tree.Complete (· ≠ ·) ∧ (session.run calls).2.fault = some fault ∧
          forall alarm : Alarm, alarm.message? ≠ some fault.message := by
  intro session calls
  rcases run_raises_no_alarm session calls with ⟨same, _, _, _, sound, untold, _, _⟩
  have single : ((session.run calls).1.flatMap Answer.trees).length = 1 := by
    decide +kernel
  have failed : (session.run calls).2.fault.isSome = true := by
    decide +kernel
  rcases List.length_eq_one_iff.1 single with ⟨tree, isTree⟩
  rcases Option.isSome_iff_exists.1 failed with ⟨fault, isFault⟩
  have returned : tree ∈ (session.run calls).1.flatMap Answer.trees := by
    rw [isTree]
    exact List.mem_singleton_self tree
  exact ⟨same, tree, fault, isTree, (sound tree returned tree tree.self_mem_preorder).1, isFault,
    fun alarm => untold alarm fault⟩

end TailLisp
