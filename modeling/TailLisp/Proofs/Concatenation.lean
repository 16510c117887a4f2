import TailLisp.Proofs.Relocation
import TailLisp.Proofs.Tiling

namespace TailLisp

/-!
One program behind another.

A program is read to the end of its last item and no further.  A newline behind
it ends an atom as well as a comment, so whatever the next line holds is read
as if a new text began there.  The only traces of the first program are its
names in the symbol table and the lines and bytes that it takes up.
-/

open ByteClass Grammar

/-! ## The line below a text -/

namespace Position

/-- A place of a text that is put on the line below another one. -/
def below (text : Bytes) (pos : Position) : Position :=
  { line := pos.line + (1 + text.count newline)
    column := pos.column
    offset := pos.offset + (text.length + 1) }

theorem below_translates (text : Bytes) : Translates (below text) := by
  intro pos byte
  unfold below advance
  split <;> simp <;> omega

theorem line_advance (pos : Position) (byte : UInt8) :
    (pos.advance byte).line = pos.line + [byte].count newline := by
  by_cases ends : byte = newline
  · rw [ends]
    rfl
  · rw [List.count_singleton, beq_eq_false_iff_ne.2 ends]
    exact (congrArg line (if_neg ends)).trans (Int.add_zero _).symm

theorem line_after (pos : Position) (text : Bytes) :
    (pos.after text).line = pos.line + text.count newline := by
  induction text generalizing pos with
  | nil => simp
  | cons byte text inductionHypothesis =>
      change ((pos.advance byte).after text).line = _
      have counted : (byte :: text).count newline = [byte].count newline + text.count newline :=
        @List.count_append _ _ newline [byte] text
      rw [inductionHypothesis, line_advance, counted]
      omega

/-- Behind a text and a newline the text below begins. -/
theorem start_after_newline (text : Bytes) :
    start.after (text ++ [newline]) = below text start := by
  have line : (start.after (text ++ [newline])).line = 1 + (1 + text.count newline) := by
    rw [line_after, List.count_append]
    change (1 : Int) + ((text.count newline + 1 : Nat) : Int) = _
    omega
  have column : (start.after (text ++ [newline])).column = 0 := by
    rw [after_append]
    rfl
  have offset : (start.after (text ++ [newline])).offset = 0 + (text.length + 1) := by
    rw [offset_after, List.length_append]
    rfl
  cases behind : start.after (text ++ [newline]) with
  | mk behindLine behindColumn behindOffset =>
      rw [behind] at line column offset
      exact congr (congr (congrArg Position.mk line) column) offset

end Position

/-! ## Reading on -/

namespace Batch

variable {Symbol Target : Type}

/-- The batch with items and names that were read before it. -/
def prepend (items : List (Node Symbol)) (names : List Bytes) (batch : Batch Symbol) :
    Batch Symbol :=
  { batch with items := items ++ batch.items, names := names ++ batch.names }

theorem names_prepend (items : List (Node Symbol)) (names : List Bytes) (batch : Batch Symbol) :
    (batch.prepend items names).names = names ++ batch.names :=
  rfl

theorem names_relocate (move : Position -> Position) (batch : Batch Symbol) :
    (batch.relocate move).names = batch.names :=
  rfl

theorem outcome_prepend (items : List (Node Symbol)) (names : List Bytes) (batch : Batch Symbol) :
    (batch.prepend items names).outcome = batch.outcome.map (items ++ ·) := by
  rcases batch with ⟨_, _ | fault, _, _⟩ <;> rfl

theorem outcome_map (replace : Symbol -> Target) (batch : Batch Symbol) :
    (batch.map replace).outcome = batch.outcome.map (List.map (Node.map replace)) := by
  rcases batch with ⟨_, _ | fault, _, _⟩ <;> rfl

theorem outcome_relocate (move : Position -> Position) (batch : Batch Symbol) :
    (batch.relocate move).outcome =
      Fault.relocateOr move (List.map (Node.relocate move)) batch.outcome := by
  rcases batch with ⟨_, _ | fault, _, _⟩ <;> rfl

end Batch

namespace Reader

theorem read_skipBlank (slot : Slot) (cursor : Cursor) :
    read slot cursor.skipBlank = read slot cursor := by
  rw [read, read, resume_eq, resume_eq, Cursor.next_skipBlank]

theorem readAll_skipBlank (slot : Slot) (cursor : Cursor) :
    readAll slot cursor.skipBlank = readAll slot cursor := by
  have same := read_skipBlank slot cursor
  cases outcome : (read slot cursor).outcome with
  | error fault => rw [readAll_of_error outcome, readAll_of_error (same ▸ outcome), same]
  | ok tree => rw [readAll_of_ok outcome, readAll_of_ok (same ▸ outcome), same]

/-- Behind some items the reading goes on as if it began there. -/
theorem readAll_of_parts_append {slot : Slot} {parts : List Passage} {cursor ending : Cursor}
    (nonempty : parts ≠ [])
    (items : forall part, part ∈ parts -> Item slot part.tokens part.tree)
    (scanned : cursor.Scans (parts.flatMap Passage.tokens) ending)
    (more : ¬ ending.skipBlank.atEnd = true) :
    readAll slot cursor =
      (readAll slot ending).prepend (parts.map Passage.tree)
        (parts.flatMap fun part => part.tree.names) := by
  induction parts generalizing cursor with
  | nil => exact (nonempty rfl).elim
  | cons part parts inductionHypothesis =>
      rcases List.forall_mem_cons.1 items with ⟨item, otherItems⟩
      rw [List.flatMap_cons] at scanned
      rcases scanned.of_append with ⟨middle, first, others⟩
      have done := read_eq_ok_iff.2 ⟨rfl, part.tokens, first, item⟩
      rw [readAll_of_ok (congrArg Reading.outcome done), done]
      by_cases single : parts = []
      · subst single
        cases others
        simp only [if_neg more, readAll_skipBlank, List.map_cons, List.map_nil, List.flatMap_cons,
          List.flatMap_nil, List.append_nil]
        rfl
      · have found := flatMap_tokens_ne_nil single otherItems
        have goesOn := others.not_atEnd found
        simp only [if_neg goesOn, readAll_skipBlank, inductionHypothesis single otherItems others,
          Batch.prepend, List.map_cons, List.flatMap_cons, List.append_assoc, List.cons_append]

end Reader

/-! ## Two programs -/

namespace Blank

theorem Gap.boundary {gap : Bytes} (isGap : Gap gap) : Boundary gap := by
  cases isGap with
  | nil => exact .nil
  | @blank byte text blank _ =>
      refine .cons _ ?_
      rw [Bool.eq_false_iff]
      intro constituent
      rw [(isConstituent_iff.1 constituent).1] at blank
      cases blank
  | comment _ _ => exact .cons _ (by decide)

theorem LastGap.boundary {gap : Bytes} (last : LastGap gap) : Boundary gap := by
  cases last with
  | closed closed => exact closed.boundary
  | unclosed closed _ => exact closed.boundary.append (.cons _ (by decide))

end Blank

namespace Cursor

theorem atEnd_skipBlank_iff_lastGap (cursor : Cursor) :
    cursor.skipBlank.atEnd = true ↔ Blank.LastGap cursor.rest :=
  List.isEmpty_iff.trans Blank.lastGap_iff.symm

theorem skipBlank_of_gap {gap : Bytes} (isGap : Blank.Gap gap) (pos : Position) (rest : Bytes) :
    skipBlank ⟨pos, gap ++ rest⟩ = skipBlank ⟨pos.after gap, rest⟩ := by
  rw [skipBlank, skipBlank, isGap.split_append, move, move, Position.after_append]

/-- What was scanned up to the end of a text is scanned in front of a line below
too, and behind it only the text of that line is left. -/
theorem Scans.onto_newline {text : Bytes} {tokens : List Token} {ending : Cursor}
    (scanned : (ofText text).Scans tokens ending) (ended : ending.skipBlank.atEnd = true)
    (second : Bytes) :
    Exists fun reached : Cursor => (ofText (text ++ newline :: second)).Scans tokens reached ∧
      reached.skipBlank = ((ofText second).relocate (Position.below text)).skipBlank := by
  have last : Blank.LastGap ending.rest := Blank.lastGap_iff.2 (List.isEmpty_iff.1 ended)
  rcases scanned.exists_tiled with ⟨pieces, tiled, sameTokens, whole, _⟩
  change text = _ at whole
  have boundary : Boundary (ending.rest ++ newline :: second) :=
    last.boundary.append (.cons second (by decide))
  have again := scans_of_tiled (tiled.replace_rest boundary)
  rw [← List.append_assoc, ← whole, sameTokens] at again
  refine ⟨_, again, ?_⟩
  -- The blanks at the end of the text and the newline are one gap.
  have split : ending.rest ++ newline :: second = (ending.rest ++ [newline]) ++ second := by
    rw [List.append_assoc, List.singleton_append]
  rw [split, skipBlank_of_gap (.of_lastGap last), ← Position.after_append, ← List.append_assoc,
    ← whole]
  exact congrArg (fun pos => skipBlank ⟨pos, second⟩) (Position.start_after_newline text)

end Cursor

/-- Behind the items of a text the line below is read as a text of its own. -/
theorem Reader.readAll_onto_newline {slot : Slot} {parts : List Passage} {first second : Bytes}
    {ending : Cursor} (nonempty : parts ≠ [])
    (items : forall part, part ∈ parts -> Item slot part.tokens part.tree)
    (scanned : (Cursor.ofText first).Scans (parts.flatMap Passage.tokens) ending)
    (ended : ending.skipBlank.atEnd = true) (more : ¬ Blank.LastGap second) :
    readAll slot (.ofText (first ++ newline :: second)) =
      ((readAll slot (.ofText second)).relocate (Position.below first)).prepend
        (parts.map Passage.tree) (parts.flatMap fun part => part.tree.names) := by
  have translates := Position.below_translates first
  rcases scanned.onto_newline ended second with ⟨reached, again, left⟩
  have notEnded : ¬ reached.skipBlank.atEnd = true := by
    rw [left, Cursor.skipBlank_relocate translates]
    intro alsoEnded
    exact more (Blank.lastGap_iff.2 (List.isEmpty_iff.1 alsoEnded))
  rw [readAll_of_parts_append nonempty items again notEnded, ← readAll_skipBlank slot reached, left,
    readAll_skipBlank, readAll_relocate translates]

namespace SymbolTable

/-- A program in front of a line that is not blank is read first, and then the
text of that line is read as a program of its own, into the table that the first
one leaves. -/
theorem parseForms_append {table : SymbolTable} {first second : Bytes}
    {read : Interned (List (Node SymbolId))} {forms : List (Node SymbolId)}
    (parsed : table.parseForms first = .ok read) (done : read.outcome = .ok forms)
    (more : ¬ Blank.LastGap second) :
    Exists fun later => Exists fun whole =>
      read.table.parseForms second = .ok later ∧
      table.parseForms (first ++ newline :: second) = .ok whole ∧
      whole.table = later.table ∧
      (forall others, later.outcome = .ok others ->
        whole.outcome = .ok (forms ++ others.map (Node.relocate (Position.below first)))) ∧
      (forall fault, later.outcome = .error fault ->
        Exists fun moved : Fault => whole.outcome = .error moved ∧
          moved.origin = Position.below first fault.origin ∧
          moved.subsystem = fault.subsystem ∧ moved.message = fault.message) := by
  rcases parts_of_parseForms parsed done with
    ⟨ready, parts, ending, nonempty, items, scanned, ended⟩
  cases parsed.symm.trans (parseForms_of_parts ready nonempty items scanned ended)
  cases done
  have filledReady : (table.insertAll (parts.flatMap fun part => part.tree.names)).ready = true :=
    (ready_insertAll table _).trans ready
  refine ⟨_, _, parseForms_of_ready filledReady second, parseForms_of_ready ready _, ?_⟩
  simp only [Reader.readAll_onto_newline nonempty items scanned ended more, Batch.outcome_map,
    Batch.outcome_prepend, Batch.outcome_relocate, Batch.names_prepend, Batch.names_relocate,
    insertAll_append]
  cases (Reader.readAll (.code false) (.ofText second)).outcome with
  | error fault =>
      refine ⟨trivial, nofun, ?_⟩
      rintro _ ⟨⟩
      exact ⟨_, rfl, rfl, rfl, rfl⟩
  | ok trees =>
      refine ⟨trivial, ?_, nofun⟩
      rintro _ ⟨⟩
      simp only [Fault.relocateOr, Except.map, List.map_append, List.map_map]
      congr 2
      · -- The forms of the first program keep their ids while the table grows.
        apply List.map_congr_left
        intro part member
        exact map_resolve_of_isPrefix (names_isPrefix_insertAll _ _) (holds_insertAll table member)
          filledReady ((ready_insertAll _ _).trans filledReady)
      · apply List.map_congr_left
        intro tree _
        exact (Node.relocate_map _ _ tree).symm

/-- A comment at the end of the first program leaves the next line alone, where
a fault is found. -/
theorem parseForms_append_fault :
    Exists fun whole : Interned (List (Node SymbolId)) => Exists fun moved : Fault =>
      empty.prepare.parseForms (Bytes.ofText "a;" ++ newline :: Bytes.ofText ")") = .ok whole ∧
      whole.outcome = .error moved ∧ moved.origin = ⟨2, 0, 3⟩ ∧
      moved.message = Bytes.ofText "Unmatched delimiter ')'." := by
  have ready : empty.prepare.ready = true := ready_prepare empty
  have scanned : (Cursor.ofText (Bytes.ofText "a;")).Scans
      [⟨.start, .symbol (Bytes.ofText "a")⟩] ⟨⟨1, 1, 1⟩, Bytes.ofText ";"⟩ :=
    .cons rfl (.nil _)
  have item : Item (.code false) [⟨.start, .symbol (Bytes.ofText "a")⟩] _ := .atom rfl
  have parsed := parseForms_of_item ready item scanned rfl
  have more : ¬ Blank.LastGap (Bytes.ofText ")") := by
    rw [Blank.lastGap_iff]
    decide
  rcases parseForms_append parsed rfl more with ⟨later, whole, second, both, _, _, failed⟩
  have unmatched : (Reader.read (.code false) (.ofText (Bytes.ofText ")"))).outcome =
      .error ⟨.start, .parse .unmatchedClosing⟩ := by
    rw [Reader.read, Reader.resume_eq]
    rfl
  have laterFailed : later.outcome = .error ⟨.start, .parse .unmatchedClosing⟩ := by
    rw [parseForms_of_ready ((ready_insertAll _ _).trans ready),
      Reader.readAll_of_error unmatched] at second
    cases second
    rfl
  rcases failed _ laterFailed with ⟨moved, outcome, origin, _, message⟩
  exact ⟨whole, moved, both, outcome, origin.trans (by decide), message⟩

end SymbolTable

end TailLisp
