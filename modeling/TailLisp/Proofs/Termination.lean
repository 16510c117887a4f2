import TailLisp.Proofs.Advancing
import TailLisp.Proofs.Driver

namespace TailLisp

/-!
How long reading takes.

Whatever the scanner returns short of the end, it has moved on by a byte.  At
the end it stays where it is and can be asked forever; every state of a reading
gives up there.  So a reading makes no more steps than its text has bytes, and
one for the end, and it is nested no deeper than that.

To say so of the functions themselves, they are written a second time with a
budget.  The second versions give up when the depth, the steps or the rounds of
a budget are used up, and with a budget that is linear in the length of the text
this never happens.
-/

open Grammar

/-! ## Calls of the scanner -/

namespace Cursor

/-- Bytes that are taken are counted by the offset. -/
theorem offset_move (cursor : Cursor) {taken rest : Bytes} (whole : taken ++ rest = cursor.rest) :
    (cursor.move taken rest).pos.offset + (cursor.move taken rest).rest.length =
      cursor.pos.offset + cursor.rest.length := by
  rw [move, Position.offset_after, ← whole, List.length_append]
  exact Nat.add_assoc _ _ _

theorem offset_skipBlank (cursor : Cursor) :
    cursor.skipBlank.pos.offset + cursor.skipBlank.rest.length =
      cursor.pos.offset + cursor.rest.length :=
  cursor.offset_move (Blank.split_append cursor.rest)

/-- The offset and what is left of a text make up its length. -/
theorem offset_next (cursor : Cursor) :
    cursor.next.2.pos.offset + cursor.next.2.rest.length =
      cursor.pos.offset + cursor.rest.length := by
  rw [← offset_skipBlank cursor, next_eq_scanHere, scanHere]
  dsimp only
  split
  · rfl
  · next first text begun =>
      have moved := cursor.skipBlank.offset_move
        ((Lexing.ofText_append first text).trans begun.symm)
      split <;> exact moved

/-- Unless the text is used up, a call moves on. -/
theorem offset_lt_next {cursor : Cursor} (more : forall pos, cursor.next.1 ≠ .finish pos) :
    cursor.pos.offset < cursor.next.2.pos.offset := by
  have shorter := length_next_lt more
  have counted := cursor.offset_next
  omega

theorem Scans.offset_le {cursor ending : Cursor} {tokens : List Token}
    (scanned : cursor.Scans tokens ending) :
    cursor.pos.offset + tokens.length <= ending.pos.offset := by
  induction scanned with
  | nil => exact Nat.le_refl _
  | @cons cursor token middle tokens ending found _ inductionHypothesis =>
      have moved := @offset_lt_next cursor (by simp [found])
      simp only [found] at moved
      rw [List.length_cons]
      omega

/-- The cursor after some calls, whatever they return. -/
def afterCalls : Nat -> Cursor -> Cursor
  | 0, cursor => cursor
  | calls + 1, cursor => cursor.next.2.afterCalls calls

/-- The end is found again. -/
theorem next_of_finish {cursor : Cursor} {pos : Position} (ended : cursor.next.1 = .finish pos) :
    cursor.next.2.next = cursor.next := by
  have rest : cursor.skipBlank.rest = [] :=
    List.isEmpty_iff.1 ((atEnd_skipBlank cursor).2 ⟨pos, ended⟩)
  have stays : cursor.next.2 = cursor.skipBlank := by
    rw [next_eq_scanHere, scanHere]
    dsimp only
    split
    · rfl
    · next begun => cases rest.symm.trans begun
  rw [stays, next_skipBlank]

theorem afterCalls_of_finish {cursor : Cursor} {pos : Position}
    (ended : cursor.next.1 = .finish pos) (calls : Nat) :
    (cursor.afterCalls calls).next.1 = .finish pos := by
  induction calls generalizing cursor with
  | zero => exact ended
  | succ calls inductionHypothesis =>
      apply inductionHypothesis
      rw [next_of_finish ended]
      exact ended

/-- The end is found after no more calls than there are bytes, and from then on. -/
theorem exists_afterCalls_finish (cursor : Cursor) :
    Exists fun calls => Exists fun pos => calls <= cursor.rest.length ∧
      forall more, (cursor.afterCalls (calls + more)).next.1 = .finish pos := by
  induction size : cursor.rest.length using Nat.strong_induction_on generalizing cursor with
  | _ size inductionHypothesis =>
      by_cases ended : Exists fun pos => cursor.next.1 = .finish pos
      · rcases ended with ⟨pos, ended⟩
        refine ⟨0, pos, Nat.zero_le _, fun more => ?_⟩
        rw [Nat.zero_add]
        exact afterCalls_of_finish ended more
      · have shorter := length_next_lt (not_exists.1 ended)
        rcases inductionHypothesis _ (size ▸ shorter) cursor.next.2 rfl with
          ⟨calls, pos, few, finished⟩
        refine ⟨calls + 1, pos, by omega, fun more => ?_⟩
        rw [Nat.add_right_comm]
        exact finished more

end Cursor

/-! ## Reading within a budget -/

namespace Reader

/-- Goes on reading from a state, in a number of steps, and never below a depth.
The steps that are left are returned with the reading. -/
def resumeWithin (depth : Nat) : Nat -> State -> List Hole -> Cursor -> Option (Reading × Nat)
  | 0, _, _, _ => none
  | steps + 1, state, around, cursor =>
      if depth < around.length then none else
      match cursor.next with
      | (.finish pos, after) =>
          some ({ outcome := .error (state.faultAtEnd pos), names := [], cursor := after }, steps)
      | (.flaw pos error, after) =>
          some ({ outcome := .error { origin := pos, cause := .scan error }, names := []
                  cursor := after }, steps)
      | (.token token, after) =>
          match state.step token with
          | .error fault => some ({ outcome := .error fault, names := [], cursor := after }, steps)
          | .ok step =>
              match step.action.apply around with
              | .finished tree =>
                  some ({ outcome := .ok tree, names := step.interned.toList, cursor := after },
                    steps)
              | .reading state around =>
                  (resumeWithin depth steps state around after).map fun later =>
                    ({ later.1 with names := step.interned.toList ++ later.1.names }, later.2)

/-- Reads the next item in a slot. -/
def readWithin (depth steps : Nat) (slot : Slot) (cursor : Cursor) : Option (Reading × Nat) :=
  resumeWithin depth steps (.start slot) [] cursor

/-- Reads items up to the end of the text or the first fault, in a number of
rounds.  All rounds share the steps. -/
def readAllWithin (depth : Nat) (slot : Slot) : Nat -> Nat -> Cursor -> Option (Batch Reference)
  | 0, _, _ => none
  | rounds + 1, steps, cursor =>
      match readWithin depth steps slot cursor with
      | none => none
      | some (first, left) =>
          match first.outcome with
          | .error fault =>
              some { items := [], fault := some fault, names := first.names, cursor := first.cursor }
          | .ok tree =>
              let after := first.cursor.skipBlank
              if after.atEnd then
                some { items := [tree], fault := none, names := first.names, cursor := after }
              else
                (readAllWithin depth slot rounds left after).map fun later =>
                  { later with items := tree :: later.items, names := first.names ++ later.names }

/-- With a step for each byte and one more, and as much depth, a reading does not
run out.  A reading that succeeds leaves a step for each byte that it left. -/
theorem resumeWithin_eq {depth steps : Nat} {state : State} {around : List Hole} {cursor : Cursor}
    (enough : cursor.rest.length < steps) (deep : around.length + cursor.rest.length <= depth) :
    Exists fun left =>
      resumeWithin depth steps state around cursor = some (resume state around cursor, left) ∧
        forall tree, (resume state around cursor).outcome = .ok tree ->
          steps + (resume state around cursor).cursor.rest.length <= left + cursor.rest.length := by
  rcases steps with _ | steps
  · omega
  fun_induction resume state around cursor generalizing steps with
  | case1 state around cursor pos after found =>
      have shallow : ¬ depth < around.length := by omega
      refine ⟨steps, by simp only [resumeWithin, if_neg shallow, found], ?_⟩
      intro tree impossible
      cases impossible
  | case2 state around cursor pos error after found =>
      have shallow : ¬ depth < around.length := by omega
      refine ⟨steps, by simp only [resumeWithin, if_neg shallow, found], ?_⟩
      intro tree impossible
      cases impossible
  | case3 state around cursor token after found other stepped =>
      have shallow : ¬ depth < around.length := by omega
      refine ⟨steps, by simp only [resumeWithin, if_neg shallow, found, stepped], ?_⟩
      intro tree impossible
      cases impossible
  | case4 state around cursor token after found step stepped tree applied =>
      have shallow : ¬ depth < around.length := by omega
      have shorter := Cursor.length_next_lt_of_token found
      refine ⟨steps, by simp only [resumeWithin, if_neg shallow, found, stepped, applied], ?_⟩
      intro tree done
      dsimp only
      omega
  | case5 state around cursor token after found step stepped next outer applied later
      inductionHypothesis =>
      have shallow : ¬ depth < around.length := by omega
      have shorter := Cursor.length_next_lt_of_token found
      -- A token opens one form at most, and it takes a byte.
      have opened : outer.length <= around.length + 1 := by
        have opened := step.action.depth_apply_le around
        rwa [applied] at opened
      rcases steps with _ | steps
      · omega
      rcases inductionHypothesis (by omega) steps (by omega) with ⟨left, same, saved⟩
      refine ⟨left, ?_, ?_⟩
      · rw [resumeWithin]
        simp only [if_neg shallow, found, stepped, applied, same, Option.map_some]
        rfl
      · intro tree done
        have kept : steps + 1 + later.cursor.rest.length <= left + after.rest.length :=
          saved tree done
        dsimp only
        omega

theorem readWithin_eq {depth steps : Nat} (slot : Slot) {cursor : Cursor}
    (enough : cursor.rest.length < steps) (deep : cursor.rest.length <= depth) :
    Exists fun left => readWithin depth steps slot cursor = some (read slot cursor, left) ∧
      forall tree, (read slot cursor).outcome = .ok tree ->
        steps + (read slot cursor).cursor.rest.length <= left + cursor.rest.length := by
  apply resumeWithin_eq enough
  rwa [List.length_nil, Nat.zero_add]

/-- The rounds, like the steps, do not run out. -/
theorem readAllWithin_eq {depth rounds steps : Nat} (slot : Slot) {cursor : Cursor}
    (enoughRounds : cursor.rest.length < rounds) (enoughSteps : cursor.rest.length < steps)
    (deep : cursor.rest.length <= depth) :
    readAllWithin depth slot rounds steps cursor = some (readAll slot cursor) := by
  induction rounds generalizing steps cursor with
  | zero => omega
  | succ rounds inductionHypothesis =>
      rcases readWithin_eq slot enoughSteps deep with ⟨left, first, saved⟩
      rw [readAllWithin, first]
      cases outcome : (read slot cursor).outcome with
      | error fault =>
          rw [readAll_of_error outcome]
          simp only [outcome]
      | ok tree =>
          have kept := saved tree outcome
          have shorter : (read slot cursor).cursor.rest.length < cursor.rest.length :=
            length_resume_lt outcome
          have skipped := (read slot cursor).cursor.length_skipBlank_le
          rw [readAll_of_ok outcome]
          simp only [outcome]
          split
          · rfl
          · rw [inductionHypothesis (by omega) (by omega) (by omega)]
            rfl

end Reader

/-- What a reading may use up: its nesting, its steps, and the rounds of a loop
over items. -/
structure Budget where
  depth : Nat
  steps : Nat
  rounds : Nat

/-- Enough for a text of a size. -/
def Budget.linear (size : Nat) : Budget :=
  { depth := size, steps := size + 1, rounds := size + 1 }

namespace SymbolTable

/-- Takes over what came of reading an item. -/
def enter (table : SymbolTable) (reading : Reading) : Interned (Node SymbolId) :=
  let filled := table.insertAll reading.names
  { outcome := reading.outcome.map (Node.map filled.resolve)
    table := filled
    cursor := reading.cursor }

/-- Takes over what came of reading a program. -/
def enterAll (table : SymbolTable) (batch : Batch Reference) : Interned (List (Node SymbolId)) :=
  let filled := table.insertAll batch.names
  { outcome := (batch.map filled.resolve).outcome, table := filled, cursor := batch.cursor }

/-- Reads the next item in a slot. -/
def readItemWithin (table : SymbolTable) (budget : Budget) (slot : Slot) (cursor : Cursor) :
    Option (Interned (Node SymbolId)) :=
  (Reader.readWithin budget.depth budget.steps slot cursor).map fun read => table.enter read.1

/-- Reads all forms of a program. -/
def readFormsWithin (table : SymbolTable) (budget : Budget) (cursor : Cursor) :
    Option (Except Misuse (Interned (List (Node SymbolId)))) :=
  match table.checkReady with
  | .error misuse => some (.error misuse)
  | .ok _ =>
      (Reader.readAllWithin budget.depth (.code false) budget.rounds budget.steps cursor).map
        fun batch => .ok (table.enterAll batch)

/-- Reads the one datum of a text. -/
def parseDatumWithin (table : SymbolTable) (budget : Budget) (text : Bytes) :
    Option (Except Misuse (Interned (Node SymbolId))) :=
  match table.checkReady with
  | .error misuse => some (.error misuse)
  | .ok _ =>
      (table.readItemWithin budget .data (.ofText text)).map fun read =>
        match read.outcome with
        | .error _ => .ok read
        | .ok _ =>
            let after := read.cursor.skipBlank
            if after.atEnd then
              .ok { read with cursor := after }
            else
              .ok { outcome := .error (.syntaxAt after.pos .trailingInput)
                    table := read.table
                    cursor := after }

theorem readItemWithin_linear (table : SymbolTable) (slot : Slot) (cursor : Cursor) :
    table.readItemWithin (.linear cursor.rest.length) slot cursor =
      some (table.readItem slot cursor) := by
  rcases Reader.readWithin_eq slot (Nat.lt_succ_self _) (Nat.le_refl cursor.rest.length) with
    ⟨left, within, _⟩
  rw [readItemWithin, Budget.linear, within]
  rfl

theorem readFormsWithin_linear (table : SymbolTable) (cursor : Cursor) :
    table.readFormsWithin (.linear cursor.rest.length) cursor = some (table.readForms cursor) := by
  have within := Reader.readAllWithin_eq (.code false) (Nat.lt_succ_self _) (Nat.lt_succ_self _)
    (Nat.le_refl cursor.rest.length)
  rw [readFormsWithin, readForms]
  cases table.checkReady with
  | error misuse => rfl
  | ok _ =>
      rw [Budget.linear, within]
      rfl

theorem parseDatumWithin_linear (table : SymbolTable) (text : Bytes) :
    table.parseDatumWithin (.linear text.length) text = some (table.parseDatum text) := by
  have within := table.readItemWithin_linear .data (.ofText text)
  rw [parseDatumWithin, parseDatum]
  cases table.checkReady with
  | error misuse => rfl
  | ok _ =>
      change (table.readItemWithin (.linear (Cursor.ofText text).rest.length) .data _).map _ = _
      rw [within, Option.map_some]
      refine congrArg some ?_
      cases outcome : (table.readItem .data (.ofText text)).outcome with
      | error fault =>
          simp only [outcome]
          rfl
      | ok node =>
          simp only [outcome]
          split <;> rfl

/-- A successful reading of an item moves on. -/
theorem offset_lt_readItem {table : SymbolTable} {slot : Slot} {cursor : Cursor}
    {node : Node SymbolId} (done : (table.readItem slot cursor).outcome = .ok node) :
    cursor.pos.offset < (table.readItem slot cursor).cursor.pos.offset := by
  rcases item_of_readItem done with ⟨tokens, tree, scanned, item, _⟩
  have nonempty := List.length_pos_of_ne_nil item.tokens_ne_nil
  have moved := scanned.offset_le
  omega

end SymbolTable

namespace Session

/-- Reads the next item in a slot, and returns the steps that are left. -/
def readItemWithin (session : Session) (depth steps : Nat) (slot : Slot) :
    Option ((Except Fault (Node SymbolId) × Session) × Nat) :=
  (Reader.readWithin depth steps slot session.cursor).map fun read =>
    let entered := session.table.enter read.1
    ((entered.outcome, { session.adopt entered with cursor := entered.cursor }), read.2)

/-- Reads one item after the other, in a number of rounds.  All rounds share the
steps. -/
def readEachFor (slot : Slot) (depth : Nat) :
    Nat -> Nat -> Session -> Option (List (SymbolTable × Node SymbolId) × Option Fault)
  | 0, _, _ => none
  | rounds + 1, steps, session =>
      let here := session.skipBlank
      if here.cursor.atEnd then
        some ([], none)
      else
        match here.readItemWithin depth steps slot with
        | none => none
        | some (read, left) =>
            match read.1 with
            | .error fault => some ([], some fault)
            | .ok node =>
                (readEachFor slot depth rounds left read.2).map fun later =>
                  ((read.2.table, node) :: later.1, later.2)

/-- Reads one item after the other within a budget. -/
def readEachWithin (session : Session) (budget : Budget) (slot : Slot) :
    Option (List (SymbolTable × Node SymbolId) × Option Fault) :=
  readEachFor slot budget.depth budget.rounds budget.steps session

theorem readItemWithin_eq {session : Session} {depth steps : Nat} (slot : Slot)
    (enough : session.cursor.rest.length < steps) (deep : session.cursor.rest.length <= depth) :
    Exists fun left => session.readItemWithin depth steps slot = some (session.readItem slot, left) ∧
      forall node, (session.readItem slot).1 = .ok node ->
        steps + (session.readItem slot).2.cursor.rest.length <=
          left + session.cursor.rest.length := by
  rcases Reader.readWithin_eq slot enough deep with ⟨left, within, saved⟩
  refine ⟨left, ?_, ?_⟩
  · rw [readItemWithin, within]
    rfl
  · intro node done
    cases outcome : (Reader.read slot session.cursor).outcome with
    | error fault =>
        rw [readItem, SymbolTable.readItem, outcome] at done
        cases done
    | ok tree => exact saved tree outcome

theorem readEachFor_eq {session : Session} {slot : Slot} {depth rounds steps : Nat}
    (enoughRounds : session.cursor.rest.length < rounds)
    (enoughSteps : session.cursor.rest.length < steps)
    (deep : session.cursor.rest.length <= depth) :
    readEachFor slot depth rounds steps session = some (session.readEach slot) := by
  induction rounds generalizing steps session with
  | zero => omega
  | succ rounds inductionHypothesis =>
      have skipped : session.skipBlank.cursor.rest.length <= session.cursor.rest.length :=
        session.cursor.length_skipBlank_le
      rcases readItemWithin_eq slot (Nat.lt_of_le_of_lt skipped enoughSteps)
        (Nat.le_trans skipped deep) with ⟨left, within, saved⟩
      rw [readEachFor]
      by_cases ended : session.cursor.skipBlank.atEnd = true
      · rw [readEach_of_atEnd ended]
        exact if_pos ended
      · rw [readEach_eq ended]
        refine (if_neg ended).trans ?_
        simp only [within]
        cases done : (session.skipBlank.readItem slot).1 with
        | error fault => rfl
        | ok node =>
            have kept := saved node done
            have shorter : (session.skipBlank.readItem slot).2.cursor.rest.length <
                session.skipBlank.cursor.rest.length :=
              SymbolTable.length_readItem_lt done
            have later := @inductionHypothesis (session.skipBlank.readItem slot).2 left
              (by omega) (by omega) (by omega)
            simp only [later, Option.map_some]

theorem readEachWithin_linear (session : Session) (slot : Slot) :
    session.readEachWithin (.linear session.cursor.rest.length) slot =
      some (session.readEach slot) :=
  readEachFor_eq (Nat.lt_succ_self _) (Nat.lt_succ_self _) (Nat.le_refl _)

end Session

/-! ## Termination -/

/-- Every state gives up at the end of the text. -/
theorem Reader.resume_of_finish (state : State) (around : List Hole) {cursor : Cursor}
    {pos : Position} (ended : cursor.next.1 = .finish pos) :
    resume state around cursor =
      { outcome := .error (state.faultAtEnd pos), names := [], cursor := cursor.next.2 } := by
  have found : cursor.next = (.finish pos, cursor.next.2) := by
    rw [← ended]
  rw [resume_eq, found]

/-- Scanning and reading come to an end.  Each call of the scanner moves on by a
byte until it finds the end, which it does after one call for each byte of the
text and one more.  There every state of a reading gives up.  Each token of a
reading takes a byte and opens one form at most, and each item takes a byte.
Hence items, programs and single data are read within a budget that is linear in
the length of the text, and so is a text that is read item by item. -/
theorem reading_terminates :
    (forall cursor : Cursor, (forall pos, cursor.next.1 ≠ .finish pos) ->
      cursor.pos.offset < cursor.next.2.pos.offset) ∧
    (forall cursor : Cursor, Exists fun calls => Exists fun pos => calls <= cursor.rest.length ∧
      forall more, (cursor.afterCalls (calls + more)).next.1 = .finish pos) ∧
    (forall state around (cursor : Cursor) pos, cursor.next.1 = .finish pos ->
      Reader.resume state around cursor =
        { outcome := .error (state.faultAtEnd pos), names := [], cursor := cursor.next.2 }) ∧
    (forall (progress last : Progress) tokens (cursor ending : Cursor),
      progress.Advances tokens last -> cursor.Scans tokens ending ->
        last.depth <= progress.depth + tokens.length ∧
          cursor.pos.offset + tokens.length <= ending.pos.offset) ∧
    (forall (table : SymbolTable) slot cursor node,
      (table.readItem slot cursor).outcome = .ok node ->
        cursor.pos.offset < (table.readItem slot cursor).cursor.pos.offset) ∧
    (forall (table : SymbolTable) slot cursor,
      table.readItemWithin (.linear cursor.rest.length) slot cursor =
        some (table.readItem slot cursor)) ∧
    (forall (table : SymbolTable) cursor,
      table.readFormsWithin (.linear cursor.rest.length) cursor = some (table.readForms cursor)) ∧
    (forall (table : SymbolTable) text,
      table.parseDatumWithin (.linear text.length) text = some (table.parseDatum text)) ∧
    (forall (session : Session) slot,
      session.readEachWithin (.linear session.cursor.rest.length) slot =
        some (session.readEach slot)) := by
  refine ⟨fun _ => Cursor.offset_lt_next, Cursor.exists_afterCalls_finish,
    fun state around _ _ => Reader.resume_of_finish state around, ?_,
    fun _ _ _ _ => SymbolTable.offset_lt_readItem, SymbolTable.readItemWithin_linear,
    SymbolTable.readFormsWithin_linear, SymbolTable.parseDatumWithin_linear,
    Session.readEachWithin_linear⟩
  intro progress last tokens cursor ending advanced scanned
  exact ⟨advanced.depth_le, scanned.offset_le⟩

/-- Nothing but opening parentheses: as deep as a text can be nested. -/
theorem reading_terminates_nested :
    SymbolTable.empty.prepare.readFormsWithin (.linear 3) (.ofText (Bytes.ofText "(((")) =
        some (SymbolTable.empty.prepare.parseForms (Bytes.ofText "(((")) ∧
      SymbolTable.empty.prepare.readFormsWithin ⟨2, 4, 4⟩ (.ofText (Bytes.ofText "(((")) = none := by
  rcases reading_terminates with ⟨_, _, _, _, _, _, programs, _, _⟩
  exact ⟨programs SymbolTable.empty.prepare (.ofText (Bytes.ofText "(((")), rfl⟩

end TailLisp
