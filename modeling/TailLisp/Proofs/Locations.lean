import Mathlib.Data.List.DropRight
import TailLisp.Proofs.Concatenation

namespace TailLisp

/-!
Places as counts of bytes.

A cursor keeps its line, column and offset up to date with every byte that it
takes.  Here the same three numbers are said of the bytes alone: newlines are
counted for the line, the bytes behind the last newline for the column, and all
bytes for the offset.  Whatever calls have been made, and whether or not they
met flaws, a cursor stands at the place that its consumed bytes give.

What a call reports stands behind the bytes consumed before it and the gap that
it skips, so tokens and flaws are placed at the first byte of their own text.
Each takes at least that byte, which is why no two of them share an offset.
-/

open ByteClass

namespace Position

/-- The place behind some bytes of a text that begins at a line and a column.
The column counts the bytes behind the last newline; on the first line it goes
on from the column of the beginning. -/
def behind (line column : Int) (consumed : Bytes) : Position where
  line := line + consumed.count newline
  column :=
    if newline ∈ consumed then (consumed.rtakeWhile fun byte => byte ≠ newline).length
    else column + consumed.length
  offset := consumed.length

theorem column_after (pos : Position) (text : Bytes) :
    (pos.after text).column =
      if newline ∈ text then ((text.rtakeWhile fun byte => byte ≠ newline).length : Int)
      else pos.column + text.length := by
  -- The last byte decides, so the text is taken apart from its end.
  induction text using List.reverseRecOn with
  | nil => simp
  | append_singleton text byte inductionHypothesis =>
      rw [after_append]
      change ((pos.after text).advance byte).column = _
      by_cases ends : byte = newline
      · have reset : ((pos.after text).advance byte).column = 0 :=
          congrArg column (if_pos ends)
        rw [reset, ends, if_pos (by simp), List.rtakeWhile_concat_neg _ _ _ (by simp)]
        rfl
      · have counted : ((pos.after text).advance byte).column = (pos.after text).column + 1 :=
          congrArg column (if_neg ends)
        have sameLine : newline ∈ text ++ [byte] ↔ newline ∈ text := by
          rw [List.mem_append, List.mem_singleton, or_iff_left (Ne.symm ends)]
        rw [counted, inductionHypothesis, List.rtakeWhile_concat_pos _ _ _ (by simpa using ends)]
        simp only [sameLine, List.length_append, List.length_singleton]
        split <;> omega

/-- Taking bytes one by one leads to the place that their counts give. -/
theorem after_eq_behind (line column : Int) (consumed : Bytes) :
    after { line, column, offset := 0 } consumed = behind line column consumed := by
  have sameLine := line_after { line, column, offset := 0 } consumed
  have sameColumn := column_after { line, column, offset := 0 } consumed
  have sameOffset := offset_after { line, column, offset := 0 } consumed
  rw [Nat.zero_add] at sameOffset
  rw [behind, ← sameLine, ← sameColumn, ← sameOffset]

example :
    behind 3 7 (Bytes.ofText "ab") = ⟨3, 9, 2⟩ ∧
      behind 3 7 (Bytes.ofText "ab\n;c\nde") = ⟨5, 2, 8⟩ := by
  decide

end Position

/-- A gap ends before the first byte that neither is blank nor opens a comment. -/
theorem Blank.split_gap {gap : Bytes} (isGap : Gap gap) {first : UInt8}
    (notBlank : isBlank first = false) (noComment : first ≠ commentMark) (rest : Bytes) :
    split (gap ++ first :: rest) = (gap, first :: rest) := by
  rw [isGap.split_append, split_cons notBlank noComment, List.append_nil]

/-! ## Calls of the scanner -/

namespace Scan

/-- The place of a token or a flaw.  The end of a text is neither. -/
def place? : Scan -> Option Position
  | .token found => some found.pos
  | .flaw pos _ => some pos
  | .finish _ => none

/-- What a call can report when some bytes of a text have been consumed, and
what it leaves of the text.  A token stands behind the gap in front of its
lexeme, a flaw likewise in front of the malformed bytes, and the end behind the
whole text. -/
inductive Located (place : Bytes -> Position) (text consumed : Bytes) : Scan -> Bytes -> Prop
  | token {gap lexeme rest token} :
      Blank.Gap gap ->
      IsLexeme lexeme token.lexeme ->
      text = consumed ++ (gap ++ (lexeme ++ rest)) ->
      token.pos = place (consumed ++ gap) ->
      Located place text consumed (.token token) rest
  | flaw {gap first more taken rest error} :
      Blank.Gap gap ->
      isBlank first = false ->
      first ≠ commentMark ->
      Lexing.ofText first more = { outcome := .error error, taken, rest } ->
      text = consumed ++ (gap ++ (taken ++ rest)) ->
      Located place text consumed (.flaw (place (consumed ++ gap)) error) rest
  | finish {gap} :
      Blank.LastGap gap ->
      text = consumed ++ gap ->
      Located place text consumed (.finish (place text)) []

end Scan

namespace Cursor

/-- The beginning of a text that is read from a line and a column on. -/
def startingAt (line column : Int) (text : Bytes) : Cursor where
  pos := { line, column, offset := 0 }
  rest := text

/-- One cursor is reached from another by consuming some bytes. -/
structure ReachedBy (start : Cursor) (consumed : Bytes) (cursor : Cursor) : Prop where
  rest : start.rest = consumed ++ cursor.rest
  pos : cursor.pos = start.pos.after consumed

namespace ReachedBy

variable {start cursor : Cursor} {consumed : Bytes}

theorem refl (start : Cursor) : start.ReachedBy [] start where
  rest := rfl
  pos := rfl

theorem move (reached : start.ReachedBy consumed cursor) {taken rest : Bytes}
    (whole : cursor.rest = taken ++ rest) :
    start.ReachedBy (consumed ++ taken) (cursor.move taken rest) where
  rest := by rw [reached.rest, whole, List.append_assoc]; rfl
  pos := by rw [Position.after_append, ← reached.pos]; rfl

theorem skipBlank (reached : start.ReachedBy consumed cursor) :
    start.ReachedBy (consumed ++ (Blank.split cursor.rest).1) cursor.skipBlank :=
  reached.move (Blank.split_append cursor.rest).symm

/-- A call consumes what it reports, and reports it where it stands. -/
theorem next (reached : start.ReachedBy consumed cursor) :
    (Exists fun taken => start.ReachedBy (consumed ++ taken) cursor.next.2) ∧
      cursor.next.1.Located start.pos.after start.rest consumed cursor.next.2.rest := by
  rcases Blank.split_cases cursor.rest with
    ⟨gap, first, more, isGap, notBlank, noComment, same⟩ | last
  · have split : Blank.split cursor.rest = (gap, first :: more) := by
      rw [same]
      exact Blank.split_gap isGap notBlank noComment more
    have skipped := reached.skipBlank
    have begun : cursor.skipBlank.rest = first :: more := congrArg Prod.snd split
    rw [split] at skipped
    have whole := Lexing.ofText_append first more
    have behind := skipped.move (begun.trans whole.symm)
    have text : start.rest = consumed ++
        (gap ++ ((Lexing.ofText first more).taken ++ (Lexing.ofText first more).rest)) := by
      rw [reached.rest, same, whole]
    rw [List.append_assoc] at behind
    cases read : (Lexing.ofText first more).outcome with
    | ok lexeme =>
        have found : cursor.next = (.token ⟨cursor.skipBlank.pos, lexeme⟩,
            cursor.skipBlank.move (Lexing.ofText first more).taken
              (Lexing.ofText first more).rest) := by
          simp only [Cursor.next_eq_scanHere, Cursor.scanHere, begun, read]
        have isLexeme := (Lexing.isLexeme_of_ok notBlank noComment read).1
        rw [found]
        exact ⟨⟨_, behind⟩, .token isGap isLexeme text skipped.pos⟩
    | error error =>
        have found : cursor.next = (.flaw (start.pos.after (consumed ++ gap)) error,
            cursor.skipBlank.move (Lexing.ofText first more).taken
              (Lexing.ofText first more).rest) := by
          simp only [Cursor.next_eq_scanHere, Cursor.scanHere, begun, read, skipped.pos]
        have reading : Lexing.ofText first more =
            { outcome := .error error
              taken := (Lexing.ofText first more).taken
              rest := (Lexing.ofText first more).rest } := by
          rw [← read]
        rw [found]
        exact ⟨⟨_, behind⟩, .flaw isGap notBlank noComment reading text⟩
  · have skipped := reached.skipBlank
    rw [last.split_eq] at skipped
    have begun : cursor.skipBlank.rest = [] := congrArg Prod.snd last.split_eq
    have ended : cursor.skipBlank.pos = start.pos.after start.rest := by
      rw [skipped.pos, reached.rest]
    have found : cursor.next = (.finish (start.pos.after start.rest), cursor.skipBlank) := by
      simp only [Cursor.next_eq_scanHere, Cursor.scanHere, begun, ended]
    rw [found]
    refine ⟨⟨_, skipped⟩, ?_⟩
    rw [begun]
    exact .finish last reached.rest

end ReachedBy

/-- Scanning tokens consumes bytes. -/
theorem Scans.exists_reachedBy {cursor ending : Cursor} {tokens : List Token}
    (scanned : cursor.Scans tokens ending) :
    Exists fun consumed => cursor.ReachedBy consumed ending := by
  rcases scanned.exists_tiled with ⟨pieces, _, _, rest, pos⟩
  exact ⟨pieces.flatMap Piece.bytes, rest, pos⟩

/-! ## Sequences of calls -/

/-- A request to a scanner. -/
inductive Call where
  | next
  | skipBlank

/-- Makes calls in turn.  The reports of the calls that ask for a token are
listed, and a flaw among them does not end the run. -/
def run : List Call -> Cursor -> List Scan × Cursor
  | [], cursor => ([], cursor)
  | .next :: calls, cursor =>
      let later := run calls cursor.next.2
      (cursor.next.1 :: later.1, later.2)
  | .skipBlank :: calls, cursor => run calls cursor.skipBlank

/-- Every run consumes the bytes between its two cursors. -/
theorem ReachedBy.run {start cursor : Cursor} {consumed : Bytes}
    (reached : start.ReachedBy consumed cursor) (calls : List Call) :
    Exists fun taken => start.ReachedBy (consumed ++ taken) (cursor.run calls).2 := by
  induction calls generalizing cursor consumed with
  | nil =>
      refine ⟨[], ?_⟩
      rw [List.append_nil]
      exact reached
  | cons call calls inductionHypothesis =>
      cases call with
      | next =>
          rcases reached.next.1 with ⟨taken, behind⟩
          rcases inductionHypothesis behind with ⟨later, ending⟩
          rw [List.append_assoc] at ending
          exact ⟨taken ++ later, ending⟩
      | skipBlank =>
          rcases inductionHypothesis reached.skipBlank with ⟨later, ending⟩
          rw [List.append_assoc] at ending
          exact ⟨_, ending⟩

/-- A token or a flaw lies between the places before and behind its call. -/
theorem offset_of_place? {cursor : Cursor} {pos : Position}
    (placed : cursor.next.1.place? = some pos) :
    cursor.pos.offset <= pos.offset ∧ pos.offset < cursor.next.2.pos.offset := by
  rcases (ReachedBy.refl cursor).next with ⟨⟨taken, behind⟩, located⟩
  have bytes := congrArg List.length behind.rest
  rw [List.nil_append] at behind bytes
  rw [behind.pos, Position.offset_after]
  -- Both cases compare the gap with all that the call has taken.
  cases found : cursor.next.1 with
  | token token =>
      rw [found] at placed located
      cases placed
      cases located with
      | @token gap lexeme rest token isGap isLexeme text place =>
          have nonempty := List.length_pos_iff.2 isLexeme.ne_nil
          have pieces := congrArg List.length text
          rw [List.nil_append] at place pieces
          rw [place, Position.offset_after]
          simp only [List.length_append] at bytes pieces
          omega
  | flaw place error =>
      rw [found] at placed located
      cases placed
      cases located with
      | @flaw gap first more taken rest error isGap notBlank noComment reading text =>
          have shorter := Lexing.length_rest_ofText first more
          have whole := congrArg List.length (Lexing.ofText_append first more)
          have pieces := congrArg List.length text
          rw [List.nil_append] at pieces
          rw [List.nil_append, Position.offset_after]
          rw [reading] at shorter whole
          simp only [List.length_append, List.length_cons] at bytes pieces whole shorter
          omega
  | finish place =>
      rw [found] at placed
      cases placed

theorem offset_le_skipBlank (cursor : Cursor) :
    cursor.pos.offset <= cursor.skipBlank.pos.offset := by
  rw [skipBlank, move, Position.offset_after]
  exact Nat.le_add_right _ _

theorem offset_le_next (cursor : Cursor) : cursor.pos.offset <= cursor.next.2.pos.offset := by
  rcases (ReachedBy.refl cursor).next.1 with ⟨taken, behind⟩
  rw [behind.pos, Position.offset_after]
  exact Nat.le_add_right _ _

/-- The places that a run reports lie behind its beginning, in strict order. -/
theorem places_of_run (calls : List Call) (cursor : Cursor) :
    let offsets := ((cursor.run calls).1.filterMap Scan.place?).map Position.offset
    (forall offset, offset ∈ offsets -> cursor.pos.offset <= offset) ∧
      offsets.Pairwise (· < ·) := by
  induction calls generalizing cursor with
  | nil => exact ⟨nofun, .nil⟩
  | cons call calls inductionHypothesis =>
      cases call with
      | skipBlank =>
          rcases inductionHypothesis cursor.skipBlank with ⟨behind, ordered⟩
          refine ⟨?_, ordered⟩
          intro offset member
          exact cursor.offset_le_skipBlank.trans (behind offset member)
      | next =>
          rcases inductionHypothesis cursor.next.2 with ⟨behind, ordered⟩
          have later (offset : Nat) (member : offset ∈
              ((cursor.next.2.run calls).1.filterMap Scan.place?).map Position.offset) :
              cursor.pos.offset <= offset :=
            cursor.offset_le_next.trans (behind offset member)
          dsimp only [run]
          cases placed : cursor.next.1.place? with
          | none =>
              rw [List.filterMap_cons_none placed]
              exact ⟨later, ordered⟩
          | some pos =>
              have between := offset_of_place? placed
              rw [List.filterMap_cons_some placed, List.map_cons]
              refine ⟨List.forall_mem_cons.2 ⟨between.1, later⟩, List.pairwise_cons.2 ⟨?_, ordered⟩⟩
              intro offset member
              exact between.2.trans_le (behind offset member)

/-- Places are a function of the bytes consumed.  After any calls on a text
that begins at any line and column, the bytes that are no longer left give the
place of the cursor.  The next call reports a token or a flaw at the place
behind those bytes and the gap that follows them, where its own text begins,
and the end of the text behind all of it.  The offsets of the tokens and flaws
of a run are in strict order. -/
theorem run_places_by_bytes (line column : Int) (text : Bytes) (calls : List Call) :
    let reports := ((startingAt line column text).run calls).1
    let cursor := ((startingAt line column text).run calls).2
    (Exists fun consumed =>
      text = consumed ++ cursor.rest ∧
      cursor.pos = Position.behind line column consumed ∧
      cursor.next.1.Located (Position.behind line column) text consumed cursor.next.2.rest) ∧
    ((reports.filterMap Scan.place?).map Position.offset).Pairwise (· < ·) := by
  intro reports cursor
  have places : (startingAt line column text).pos.after = Position.behind line column := by
    funext consumed
    exact Position.after_eq_behind line column consumed
  rcases (ReachedBy.refl (startingAt line column text)).run calls with ⟨consumed, reached⟩
  rw [List.nil_append] at reached
  have located := reached.next.2
  have pos := reached.pos
  rw [places] at located pos
  refine ⟨⟨consumed, reached.rest, pos, located⟩, ?_⟩
  exact (places_of_run calls (startingAt line column text)).2

end Cursor

end TailLisp
