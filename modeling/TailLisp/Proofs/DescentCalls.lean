import TailLisp.Proofs.DescentForms
import TailLisp.Proofs.TableIndependence

namespace TailLisp

/-!
Calls that are carried out by descent.

The calls of a session are carried out by descent exactly as the session carries them
out.  So what is known of the one holds of the other, and two facts are stated here for
the descent because it is there that they could fail.  Its parts set the fault and
return nothing in many places of their own, and nothing but the text of each part keeps
the two together.  And its parts see ids: they compare the ids of parameters and use an
id that the table has at hand for a tick.

A depth that exceeds the length of the text is enough for every call.
-/

namespace Descent

open Reader (continueWith)
open SymbolTable (nodeOf)

section Depth

variable {depth : Nat} {session : Session} (deep : session.cursor.rest.length < depth)

include deep

/-- An item is read by descent as the reader reads it. -/
theorem parseItem_agrees (slot : Slot) :
    (parseItem depth slot).Agrees session nodeOf (Reader.read slot session.cursor)
      (continueWith [.whole slot]) := by
  rcases Nat.exists_eq_succ_of_ne_zero (Nat.ne_zero_of_lt deep) with ⟨less, rfl⟩
  rw [parseItem, Reader.read]
  apply Agrees.fetch_bind
  · intro token after _ shorter
    have stepped : (State.start slot).step token = (Hole.whole slot).receive token := by
      rcases token with ⟨place, lexeme⟩
      cases lexeme <;> rfl
    rw [stepped]
    have fits := shorter.trans_le (Nat.le_of_lt_succ deep)
    exact (parsesBelow less).token slot token after fits (.whole slot) [] rfl
  · intro place after _
    rw [(parsesBelow less).finish]
    exact .of_fail place .unexpectedEnd

/-- Either there is an item, or there is a fault. -/
theorem parseItem_cases (slot : Slot) :
    (Exists fun fault => Exists fun names => Exists fun cursor =>
      Reader.read slot session.cursor = { outcome := .error fault, names, cursor } ∧
        (parseItem depth slot).run session =
          some (none, { session.advance names cursor with fault := some fault })) ∨
      Exists fun tree => Exists fun node => Exists fun names => Exists fun cursor =>
        Reader.read slot session.cursor = { outcome := .ok tree, names, cursor } ∧
          (session.advance names cursor).table.Fixes node (nodeOf tree) ∧
            (parseItem depth slot).run session =
              some (some node, session.advance names cursor) := by
  cases parseItem_agrees deep slot with
  | @failed fault names cursor ran same => exact .inl ⟨fault, names, cursor, same, ran⟩
  | @returned node tree names cursor ran _ fixed same =>
      refine .inr ⟨tree, node, names, cursor, ?_, fixed, ran⟩
      rw [same]
      change Reading.prepend names { outcome := .ok tree, names := [], cursor } = _
      rw [Reading.prepend, List.append_nil]

theorem run_parseItem (slot : Slot) :
    (parseItem depth slot).run session =
      some ((session.readItem slot).1.toOption, (session.readItem slot).2) := by
  rw [Session.readItem, SymbolTable.readItem]
  rcases parseItem_cases deep slot with
    ⟨fault, names, cursor, read, ran⟩ | ⟨tree, node, names, cursor, read, fixed, ran⟩
  · rw [ran, read]
    rfl
  · rw [ran, read, fixed _ (.refl _)]
    rfl

omit deep in
theorem run_endsHere (session : Session) :
    endsHere.run session = some (some session.cursor.skipBlank.atEnd, session.skipBlank) :=
  rfl

/-- What a row of items comes to.  A fault leaves none of them. -/
theorem run_parseStream (items : List (Node SymbolId)) {rounds : Nat}
    (enough : session.cursor.rest.length < rounds) :
    (parseStream depth items rounds).run session =
      let batch := Reader.readAll (.code false) session.cursor
      let filled := session.table.insertAll batch.names
      some (batch.fault.elim (some (items ++ batch.items.map (Node.map filled.resolve)))
          fun _ => none,
        { table := filled, cursor := batch.cursor, fault := batch.fault.or session.fault }) := by
  induction rounds generalizing session items with
  | zero => exact absurd enough (Nat.not_lt_zero _)
  | succ rounds inductionHypothesis =>
  rw [parseStream]
  rcases parseItem_cases deep (.code false) with
    ⟨fault, names, cursor, read, ran⟩ | ⟨tree, node, names, cursor, read, fixed, ran⟩
  · have all := Reader.readAll_of_error (congrArg Reading.outcome read)
    rw [run_bind_of_none ran, all, read]
    rfl
  · have done : (Reader.read (.code false) session.cursor).outcome = .ok tree := by rw [read]
    have all := Reader.readAll_of_ok done
    have shorter : cursor.skipBlank.rest.length < session.cursor.rest.length := by
      have taken := Reader.length_resume_lt done
      change (Reader.read (.code false) session.cursor).cursor.rest.length < _ at taken
      rw [read] at taken
      exact cursor.length_skipBlank_le.trans_lt taken
    rw [run_bind_of_some ran, run_bind_of_some (run_endsHere _), all, read]
    change (if cursor.skipBlank.atEnd = true then (pure (items ++ [node]) : Descent _)
      else parseStream depth (items ++ [node]) rounds).run
        (session.advance names cursor).skipBlank = _
    dsimp only
    split
    · rw [fixed _ (.refl _)]
      rfl
    · let after := (session.advance names cursor).skipBlank
      have rest := @inductionHypothesis after (shorter.trans deep) (items ++ [node])
        (shorter.trans_le (Nat.le_of_lt_succ enough))
      have grown : (session.advance names cursor).table.GrowsTo
          (session.table.insertAll
            (names ++ (Reader.readAll (.code false) cursor.skipBlank).names)) := by
        rw [SymbolTable.insertAll_append]
        exact SymbolTable.growsTo_insertAll _ _
      refine rest.trans ?_
      change some (Option.elim (Reader.readAll (.code false) cursor.skipBlank).fault _ _, _) = _
      rw [fixed _ grown, SymbolTable.insertAll_append, List.append_assoc]
      rfl

/-- What a single datum comes to.  Whatever follows it is a fault of its own. -/
theorem run_parseDatum :
    (parseDatum depth).run session =
      let read := session.table.readItem .data session.cursor
      let after := read.cursor.skipBlank
      let later : Session := { table := read.table, cursor := after, fault := session.fault }
      some (match read.outcome with
        | .error fault => (none, { later with cursor := read.cursor, fault := some fault })
        | .ok node =>
            if after.atEnd then (some node, later)
            else (none, { later with fault := some (.syntaxAt after.pos .trailingInput) })) := by
  rw [parseDatum, SymbolTable.readItem]
  rcases parseItem_cases deep .data with
    ⟨fault, names, cursor, read, ran⟩ | ⟨tree, node, names, cursor, read, fixed, ran⟩
  · rw [run_bind_of_none ran, read]
    rfl
  · rw [run_bind_of_some ran, run_bind_of_some (run_endsHere _), read, fixed _ (.refl _)]
    dsimp only [Except.map]
    change (if cursor.skipBlank.atEnd = true then (pure _ : Descent _)
      else get >>= fun after => fail after.cursor.pos .trailingInput).run _ = _
    split <;> rfl

end Depth

end Descent

/-- The ids of all symbols in the trees of a reply. -/
def Reply.symbols : Reply -> List SymbolId
  | .returned trees => trees.flatMap Node.symbols
  | .refused _ => []

namespace Session

/-- A row of items is read as the table reads it. -/
theorem run_parseStream_nil {session : Session} {depth : Nat}
    (deep : session.cursor.rest.length < depth) (ready : session.table.ready = true) :
    Exists fun read => session.table.readForms session.cursor = .ok read ∧
      (Descent.parseStream depth [] depth).run session =
        some (read.outcome.toOption, { session.adopt read with cursor := read.cursor }) := by
  let batch := Reader.readAll (.code false) session.cursor
  let filled := session.table.insertAll batch.names
  let read : Interned (List (Node SymbolId)) :=
    { outcome := (batch.map filled.resolve).outcome, table := filled, cursor := batch.cursor }
  have formed : session.table.readForms session.cursor = .ok read := by
    rw [SymbolTable.readForms, SymbolTable.checkReady, if_pos ready]
    rfl
  refine ⟨read, formed, ?_⟩
  rw [Descent.run_parseStream deep [] deep, adopt_eq, Interned.written]
  simp only [read, Batch.outcome, Batch.map]
  cases batch.fault <;> rfl

/-- The descent carries out every call within a depth that exceeds the length of the
text, and as the reader does. -/
theorem performDescending_eq {session : Session} {call : ReadCall} {depth : Nat}
    (deep : (call.source session).rest.length < depth) :
    session.performDescending depth call = some (session.perform call) := by
  cases call with
  | item slot =>
      rw [performDescending, Descent.run_parseItem deep]
      rfl
  | program text =>
      rw [performDescending, perform, parseForms, SymbolTable.parseForms]
      by_cases ready : session.table.ready = true
      · let restarted := { session with cursor := .ofText text }
        rcases @run_parseStream_nil restarted depth deep ready with ⟨read, formed, ran⟩
        rw [SymbolTable.checkReady, if_pos ready, formed]
        dsimp only
        rw [ran]
        rfl
      · rw [SymbolTable.checkReady, if_neg ready, SymbolTable.readForms_of_not_ready ready]
        rfl
  | rest =>
      rw [performDescending, perform, parseRest]
      by_cases ready : session.table.ready = true
      · let restarted := { session with cursor := .ofText session.cursor.rest }
        rcases @run_parseStream_nil restarted depth deep ready with ⟨read, formed, ran⟩
        rw [SymbolTable.checkReady, if_pos ready, formed]
        dsimp only
        rw [ran]
        rfl
      · rw [SymbolTable.checkReady, if_neg ready, SymbolTable.readForms_of_not_ready ready]
        rfl
  | datum text =>
      rw [performDescending, perform, parseDatum]
      by_cases ready : session.table.ready = true
      · let restarted := { session with cursor := .ofText text }
        rw [SymbolTable.parseDatum_of_ready ready, SymbolTable.checkReady, if_pos ready]
        dsimp only
        rw [@Descent.run_parseDatum depth restarted deep]
        cases read : (session.table.readItem .data (.ofText text)).outcome with
        | error fault =>
            simp only [restarted, read, bind, Except.bind, pure, Except.pure, adopt_eq,
              Interned.written]
            rfl
        | ok node =>
            simp only [restarted, read, bind, Except.bind, pure, Except.pure]
            split <;> rfl
      · rw [SymbolTable.parseDatum_of_not_ready ready, SymbolTable.checkReady, if_neg ready]
        rfl

/-! ## Failures -/

/-- Every call comes to an end within any depth that exceeds the length of the text,
and reports its failures exactly.  Without a prepared table the calls for whole texts
are refused and change nothing.  Otherwise a call returns no tree if and only if it has
set the fault, over whatever was there before, and if it returns trees it has left the
fault alone. -/
theorem descent_reports_exactly {session : Session} {call : ReadCall} {depth : Nat}
    (deep : (call.source session).rest.length < depth) :
    (call.wantsReady = true ∧ session.table.ready = false ∧
      session.performDescending depth call = some (.refused .unpreparedTable, session)) ∨
    ((call.wantsReady = true -> session.table.ready = true) ∧
      Exists fun trees => Exists fun written => Exists fun table => Exists fun cursor =>
        (forall older, ({ session with fault := older } : Session).performDescending depth call =
          some (.returned trees, { table, cursor, fault := written.or older })) ∧
            session.ReportsExactly call trees written table) := by
  by_cases ready : call.wantsReady = true -> session.table.ready = true
  · refine .inr ⟨ready, ?_⟩
    rcases performs_of_ready ready with ⟨trees, written, table, cursor, performs, exactly⟩
    refine ⟨trees, written, table, cursor, fun older => ?_, exactly⟩
    have sameText : call.source { session with fault := older } = call.source session := by
      cases call <;> rfl
    rw [performDescending_eq (sameText ▸ deep), performs older]
  · rw [Classical.not_imp] at ready
    refine .inl ⟨ready.1, Bool.eq_false_iff.2 ready.2, ?_⟩
    rw [performDescending_eq deep, perform_of_not_ready ready.1 ready.2]

/-- A closing parenthesis too many behind a sound form.  The form is dropped, its
name stays in the table, and the older fault is overwritten. -/
theorem descent_reports_exactly_second_form :
    let session : Session :=
      { start SymbolTable.empty.prepare 1 0 [] with fault := some (.syntaxAt .start .strayDot) }
    Exists fun after =>
      session.performDescending 6 (.program (Bytes.ofText "(a) )")) =
          some (.returned [], after) ∧
        after.fault = some (.syntaxAt ⟨1, 4, 4⟩ .unmatchedClosing) ∧
          session.table.names <+: after.table.names ∧ Bytes.ofText "a" ∈ after.table.names := by
  intro session
  have deep : ((ReadCall.program (Bytes.ofText "(a) )")).source session).rest.length < 6 := by
    decide
  have latest : (session.perform (.program (Bytes.ofText "(a) )"))).2.fault =
      some (.syntaxAt ⟨1, 4, 4⟩ .unmatchedClosing) := by
    decide +kernel
  have entered : Bytes.ofText "a" ∈
      (session.perform (.program (Bytes.ofText "(a) )"))).2.table.names := by
    decide +kernel
  rcases descent_reports_exactly deep with
    ⟨_, notReady, _⟩ | ⟨_, trees, written, table, cursor, performs, exactly⟩
  · cases notReady
  · have performed := performs session.fault
    change session.performDescending _ _ = _ at performed
    have same := performed
    rw [performDescending_eq deep, Option.some.injEq] at same
    rw [same] at latest entered
    -- The older fault would still be there if the call had written none.
    have failed : written ≠ none := by
      intro none
      rw [none] at latest
      cases latest
    rw [exactly.nothing_iff.2 failed] at performed
    exact ⟨_, performed, latest, exactly.grown, entered⟩

/-! ## Two tables -/

/-- The descent answers a call in two sessions alike.  Either both answers are the same
fault and no trees, or neither is a fault, and there are as many trees, which are
alike one by one, each in the table of its session. -/
def AnswersAlike (left right : Session) (depth : Nat) (call : ReadCall) : Prop :=
  Exists fun trees => Exists fun others => Exists fun after => Exists fun later =>
    left.performDescending depth call = some (.returned trees, after) ∧
      right.performDescending depth call = some (.returned others, later) ∧
        ((Exists fun fault => trees = [] ∧ others = [] ∧ after.fault = some fault ∧
            later.fault = some fault) ∨
          trees ≠ [] ∧ after.fault = left.fault ∧ later.fault = right.fault ∧
            List.Forall₂ (Node.Alike after.table later.table) trees others)

theorem AnswersAlike.of_performs {Result : Type} {left right : Session} {call : ReadCall}
    {depth : Nat} {items : Result -> List (Node SymbolId)} {first second : Interned Result}
    {ending other : Cursor} (deep : (call.source left).rest.length < depth)
    (same : call.source left = call.source right)
    (nonempty : forall result, first.outcome = .ok result -> items result ≠ [])
    (alike : SymbolTable.AlikeReads items first second)
    (leftPerforms : left.Performs call items first ending)
    (rightPerforms : right.Performs call items second other) :
    left.AnswersAlike right depth call := by
  have leftDone := performDescending_eq deep
  have rightDone := performDescending_eq (same ▸ deep)
  rw [leftPerforms left.fault] at leftDone
  rw [rightPerforms right.fault] at rightDone
  refine ⟨_, _, _, _, leftDone, rightDone, ?_⟩
  rw [Interned.trees, Interned.trees, Interned.written, Interned.written]
  rcases alike with ⟨fault, failed, alsoFailed⟩ | ⟨result, same, done, alsoDone, trees⟩
  · rw [failed, alsoFailed]
    exact .inl ⟨fault, rfl, rfl, rfl, rfl⟩
  · have some := nonempty result done
    rw [done, alsoDone]
    exact .inr ⟨some, rfl, rfl, trees⟩

/-- What a prepared table holds besides the names of the special forms changes no answer
to a call on the same text. -/
theorem descent_answers_alike {left right : Session} {call : ReadCall} {depth : Nat}
    (leftReady : left.table.ready = true) (rightReady : right.table.ready = true)
    (same : call.source left = call.source right)
    (deep : (call.source left).rest.length < depth) : left.AnswersAlike right depth call := by
  have sameText := same
  cases call with
  | item slot =>
      have exact := SymbolTable.readItem_exact left.table slot left.cursor
      have alike := SymbolTable.readItem_alike leftReady rightReady slot left.cursor
      change left.cursor = right.cursor at same
      have rightPerforms := performs_item right slot
      rw [← same] at rightPerforms
      exact .of_performs deep sameText exact.nonempty alike (performs_item left slot) rightPerforms
  | program text =>
      rcases SymbolTable.parseForms_alike leftReady rightReady text with
        ⟨first, second, parsed, alsoParsed, alike⟩
      rcases SymbolTable.parseForms_exact leftReady text with ⟨read, again, exact⟩
      cases parsed.symm.trans again
      exact .of_performs deep sameText exact.nonempty alike (performs_program parsed)
        (performs_program alsoParsed)
  | rest =>
      change Cursor.ofText _ = Cursor.ofText _ at same
      have rest := congrArg Cursor.rest same
      change left.cursor.rest = right.cursor.rest at rest
      rcases SymbolTable.parseForms_alike leftReady rightReady left.cursor.rest with
        ⟨first, second, parsed, alsoParsed, alike⟩
      rcases SymbolTable.parseForms_exact leftReady left.cursor.rest with ⟨read, again, exact⟩
      cases parsed.symm.trans again
      rw [rest] at alsoParsed
      exact .of_performs deep sameText exact.nonempty alike (performs_rest parsed)
        (performs_rest alsoParsed)
  | datum text =>
      rcases SymbolTable.parseDatum_alike leftReady rightReady text with
        ⟨first, second, parsed, alsoParsed, alike⟩
      rcases SymbolTable.parseDatum_exact leftReady text with ⟨read, again, exact⟩
      cases parsed.symm.trans again
      exact .of_performs deep sameText exact.nonempty alike (performs_datum parsed)
        (performs_datum alsoParsed)

/-- A table that held a name before it was prepared has another id for it, and the same
text. -/
theorem descent_answers_alike_shifted :
    let left := start SymbolTable.empty.prepare 1 0 []
    let right := start (SymbolTable.empty.insert (Bytes.ofText "b")).prepare 1 0 []
    let call := ReadCall.program (Bytes.ofText "(lambda (b) b)")
    Exists fun trees => Exists fun others => Exists fun after => Exists fun later =>
      left.performDescending 15 call = some (.returned trees, after) ∧
        right.performDescending 15 call = some (.returned others, later) ∧
          trees.flatMap Node.symbols = [8, 8] ∧ others.flatMap Node.symbols = [0, 0] ∧
            List.Forall₂ (Node.Alike after.table later.table) trees others := by
  intro left right call
  have leftIds : (left.perform call).1.symbols = [8, 8] := by decide +kernel
  have rightIds : (right.perform call).1.symbols = [0, 0] := by decide +kernel
  have ready := SymbolTable.ready_prepare SymbolTable.empty
  have shifted := SymbolTable.ready_prepare (SymbolTable.empty.insert (Bytes.ofText "b"))
  have same : call.source left = call.source right := by
    change Cursor.ofText _ = Cursor.ofText _
    rfl
  have deep : (call.source left).rest.length < 15 := by decide
  rcases @descent_answers_alike left right call 15 ready shifted same deep with
    ⟨trees, others, after, later, leftDone, rightDone, agree⟩
  have leftSame := leftDone
  have rightSame := rightDone
  rw [performDescending_eq deep, Option.some.injEq] at leftSame
  rw [performDescending_eq (same ▸ deep), Option.some.injEq] at rightSame
  rw [leftSame] at leftIds
  rw [rightSame] at rightIds
  refine ⟨trees, others, after, later, leftDone, rightDone, leftIds, rightIds, ?_⟩
  rcases agree with ⟨fault, nothing, _⟩ | ⟨_, _, _, alike⟩
  · rw [nothing] at leftIds
    cases leftIds
  · exact alike

end Session

end TailLisp
