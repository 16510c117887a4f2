import TailLisp.Proofs.Locations
import TailLisp.Session

namespace TailLisp

/-!
How far a reading looks.

Whatever is read from a text is decided by the bytes that are taken and by one
byte behind them, which tells that an atom has ended or that a number sign opens
no character.  It is shown first of a function that takes the beginning of a
text, for each of the few ways in which the scanner takes bytes, and then
carried along the tokens of a reading.  A session that reads one item of a text
after the other relies on it: what an item says does not change with what is
written behind it.
-/

open ByteClass

/-- What the function takes from the beginning of a text is decided by the bytes
that it takes and one more.  Where it leaves more than some end of the text, it
does not see that end: a non-empty part of what stands before the end is left as
well, and any other end can stand in its place. -/
structure PeeksOneByte {Result : Type} (read : Bytes -> Result × Bytes) : Prop where
  leaves : forall text, (read text).2 <:+ text
  decided : forall window rest, rest.length < (read (window ++ rest)).2.length ->
    Exists fun result => Exists fun left =>
      left ≠ [] ∧ forall other, read (window ++ other) = (result, left ++ other)

namespace PeeksOneByte

variable {Result Next : Type}

/-- Taking nothing. -/
theorem nothing (result : Result) : PeeksOneByte fun text => (result, text) where
  leaves _ := List.suffix_rfl
  decided window _ more := by
    refine ⟨result, window, ?_, fun _ => rfl⟩
    rintro rfl
    exact absurd more (Nat.lt_irrefl _)

/-- Taking one thing, and then another that may depend on it. -/
theorem andThen {first : Bytes -> Result × Bytes} {second : Result -> Bytes -> Next × Bytes}
    (peeksFirst : PeeksOneByte first) (peeksSecond : forall result, PeeksOneByte (second result)) :
    PeeksOneByte fun text => second (first text).1 (first text).2 where
  leaves text := ((peeksSecond _).leaves _).trans (peeksFirst.leaves text)
  decided window rest more := by
    have shorter := ((peeksSecond (first (window ++ rest)).1).leaves
      (first (window ++ rest)).2).length_le
    rcases peeksFirst.decided window rest (Nat.lt_of_lt_of_le more shorter) with
      ⟨result, middle, _, taken⟩
    rw [taken] at more
    rcases (peeksSecond result).decided middle rest more with ⟨last, left, nonempty, takenLater⟩
    refine ⟨last, left, nonempty, fun other => ?_⟩
    rw [taken, takenLater]

theorem map {read : Bytes -> Result × Bytes} (peeks : PeeksOneByte read) (change : Result -> Next) :
    PeeksOneByte fun text => (change (read text).1, (read text).2) :=
  peeks.andThen fun result => nothing (change result)

/-- Looking at the first byte, and taking it with more or leaving it. -/
theorem byte {absent : Result} {takes : UInt8 -> Bool} {refused : UInt8 -> Result}
    {read : UInt8 -> Bytes -> Result × Bytes}
    (peeks : forall byte, takes byte = true -> PeeksOneByte (read byte)) :
    PeeksOneByte fun text =>
      match text with
      | [] => (absent, [])
      | byte :: text => if takes byte then read byte text else (refused byte, byte :: text) where
  leaves text := by
    cases text with
    | nil => exact List.suffix_rfl
    | cons byte text =>
        by_cases taken : takes byte = true
        · simp only [if_pos taken]
          exact ((peeks byte taken).leaves text).trans (List.suffix_cons byte text)
        · simp only [if_neg taken]
          exact List.suffix_rfl
  decided window rest more := by
    cases window with
    | nil =>
        cases rest with
        | nil => exact absurd more (Nat.lt_irrefl 0)
        | cons byte rest =>
            simp only [List.nil_append] at more
            by_cases taken : takes byte = true
            · have shorter := ((peeks byte taken).leaves rest).length_le
              simp only [if_pos taken, List.length_cons] at more
              omega
            · simp only [if_neg taken] at more
              exact absurd more (Nat.lt_irrefl _)
    | cons byte window =>
        simp only [List.cons_append] at more ⊢
        by_cases taken : takes byte = true
        · simp only [if_pos taken] at more ⊢
          exact (peeks byte taken).decided window rest more
        · simp only [if_neg taken]
          exact ⟨refused byte, byte :: window, List.cons_ne_nil _ _, fun _ => rfl⟩

/-- Taking bytes as long as they are of a kind. -/
theorem span (kind : UInt8 -> Bool) :
    PeeksOneByte fun text => (text.takeWhile kind, text.dropWhile kind) where
  leaves text := List.dropWhile_suffix kind
  decided window rest more := by
    induction window with
    | nil => exact absurd (List.dropWhile_suffix kind).length_le (Nat.not_le_of_lt more)
    | cons byte window inductionHypothesis =>
        simp only [List.cons_append] at more ⊢
        by_cases taken : kind byte = true
        · simp only [List.dropWhile_cons_of_pos taken] at more
          rcases inductionHypothesis more with ⟨result, left, nonempty, same⟩
          refine ⟨byte :: result, left, nonempty, fun other => ?_⟩
          rcases Prod.mk.inj (same other) with ⟨sameTaken, sameLeft⟩
          rw [List.takeWhile_cons_of_pos taken, List.dropWhile_cons_of_pos taken, sameTaken,
            sameLeft]
        · refine ⟨[], byte :: window, List.cons_ne_nil _ _, fun other => ?_⟩
          rw [List.takeWhile_cons_of_neg taken, List.dropWhile_cons_of_neg taken]
          rfl

end PeeksOneByte

/-! ## One token -/

theorem Blank.splitFrom_peeksOneByte (inComment : Bool) : PeeksOneByte (splitFrom inComment) where
  leaves text := ⟨_, splitFrom_append inComment text⟩
  decided window rest more := by
    induction window generalizing inComment with
    | nil =>
        have whole := congrArg List.length (splitFrom_append inComment rest)
        rw [List.length_append] at whole
        rw [List.nil_append] at more
        omega
    | cons byte window inductionHypothesis =>
        simp only [List.cons_append, splitFrom] at more ⊢
        split
        · next skipped =>
            rw [if_pos skipped] at more
            rcases inductionHypothesis _ more with ⟨gap, left, nonempty, same⟩
            refine ⟨byte :: gap, left, nonempty, fun other => ?_⟩
            rw [same]
        · exact ⟨[], byte :: window, List.cons_ne_nil _ _, fun _ => rfl⟩

namespace Lexing

/-- What a lexing finds, and what it leaves. -/
def parts (lexing : Lexing) : (Except ScanError Lexeme × Bytes) × Bytes :=
  ((lexing.outcome, lexing.taken), lexing.rest)

/-- A string looks for its closing quote and not behind it. -/
theorem splitString_decided {window rest raw behind : Bytes}
    (found : splitString (window ++ rest) = some (raw, behind))
    (more : rest.length < behind.length) :
    Exists fun left => left ≠ [] ∧
      forall other, splitString (window ++ other) = some (raw, left ++ other) := by
  fun_induction splitString window generalizing raw with
  | case1 =>
      have whole := congrArg List.length (splitString_append found)
      rw [List.nil_append, List.length_append, List.length_cons] at whole
      omega
  | case2 window =>
      rw [List.cons_append, splitString_quote] at found
      cases found
      refine ⟨window, ?_, fun other => splitString_quote _⟩
      rintro rfl
      exact absurd more (Nat.lt_irrefl _)
  | case3 =>
      -- The backslash is the last byte before the end, which begins with what it protects.
      have whole := congrArg List.length (splitString_append found)
      cases rest with
      | nil => cases found
      | cons shielded rest =>
          rw [List.singleton_append, splitString_shielded] at found
          rcases Option.map_eq_some_iff.1 found with ⟨⟨inner, behind⟩, _, same⟩
          cases same
          rw [List.length_append, List.length_append, List.length_cons] at whole
          simp only [List.length_cons, List.length_nil] at whole more
          omega
  | case4 shielded window _ inductionHypothesis =>
      rw [List.cons_append, List.cons_append, splitString_shielded] at found
      rcases Option.map_eq_some_iff.1 found with ⟨⟨inner, behind⟩, foundInner, same⟩
      cases same
      rcases inductionHypothesis foundInner with ⟨left, nonempty, again⟩
      refine ⟨left, nonempty, fun other => ?_⟩
      rw [List.cons_append, List.cons_append, splitString_shielded, again]
      rfl
  | case5 byte window notQuote notMark inductionHypothesis =>
      rw [List.cons_append, splitString_plain _ notQuote notMark] at found
      rcases Option.map_eq_some_iff.1 found with ⟨⟨inner, behind⟩, foundInner, same⟩
      cases same
      rcases inductionHypothesis foundInner with ⟨left, nonempty, again⟩
      refine ⟨left, nonempty, fun other => ?_⟩
      rw [List.cons_append, splitString_plain _ notQuote notMark, again]
      rfl

theorem string_peeksOneByte : PeeksOneByte fun text => (string text).parts where
  leaves text := by
    unfold string
    split
    · next raw rest found =>
        refine ⟨raw ++ [stringQuote], ?_⟩
        rw [List.append_assoc]
        exact splitString_append found
    · exact List.nil_suffix
  decided window rest more := by
    cases found : splitString (window ++ rest) with
    | none =>
        simp only [parts, string, found] at more
        exact absurd more (Nat.not_lt_zero _)
    | some split =>
        rcases split with ⟨raw, behind⟩
        simp only [parts, string, found] at more
        rcases splitString_decided found more with ⟨left, nonempty, again⟩
        refine ⟨(.ok (.string raw), stringQuote :: raw ++ [stringQuote]), left, nonempty, ?_⟩
        intro other
        simp only [parts, string, again]

theorem named_peeksOneByte (first : UInt8) :
    PeeksOneByte fun text => (character (backslash :: first :: text)).parts := by
  simp only [character_marked, parts]
  by_cases runs : isConstituent first = true
  · simp only [if_pos runs]
    exact (PeeksOneByte.span isConstituent).map fun more =>
      (charOutcome first more, numberSign :: backslash :: first :: more)
  · simp only [if_neg runs]
    exact .nothing _

theorem character_peeksOneByte : PeeksOneByte fun text => (character text).parts := by
  have marked : PeeksOneByte fun text => (character (backslash :: text)).parts := by
    have behind := @PeeksOneByte.byte _ (.error .unfinishedCharacter, [numberSign, backslash])
      (fun _ => true) (fun _ => (.error .unfinishedCharacter, [])) _
      fun first _ => named_peeksOneByte first
    convert behind using 2 with text
    cases text <;> rfl
  have peeked := @PeeksOneByte.byte _ (.error .unrecognizedNumberSign, [numberSign])
    (fun mark => mark == backslash) (fun _ => (.error .unrecognizedNumberSign, [numberSign])) _
    fun mark _ => marked
  convert peeked using 2 with text
  cases text with
  | nil => rfl
  | cons mark text =>
      by_cases same : mark = backslash
      · subst same
        rfl
      · simp only [character, if_neg same, parts, beq_eq_false_iff_ne.2 same]
        rfl

/-- A lexeme is decided by its own bytes and one byte behind them. -/
theorem ofText_peeksOneByte (first : UInt8) :
    PeeksOneByte fun text => (ofText first text).parts := by
  have single (outcome : Except ScanError Lexeme) :
      PeeksOneByte fun text => parts { outcome, taken := [first], rest := text } :=
    .nothing (outcome, [first])
  unfold ofText
  split
  · exact single (.ok .opening)
  split
  · exact single (.ok .closing)
  split
  · exact single (.ok .tick)
  split
  · exact single (.error .quasiquotation)
  split
  · exact string_peeksOneByte
  split
  · exact character_peeksOneByte
  · exact (PeeksOneByte.span isConstituent).map fun more =>
      (atomOutcome (first :: more), first :: more)

end Lexing

namespace Scan

/-- What a lexeme that begins at a place is reported as. -/
def ofOutcome (pos : Position) : Except ScanError Lexeme -> Scan
  | .ok lexeme => .token ⟨pos, lexeme⟩
  | .error error => .flaw pos error

end Scan

namespace Cursor

theorem next_eq (cursor : Cursor) :
    cursor.next =
      match cursor.skipBlank.rest with
      | [] => (.finish cursor.skipBlank.pos, cursor.skipBlank)
      | first :: text =>
          (.ofOutcome cursor.skipBlank.pos (Lexing.ofText first text).outcome,
            cursor.skipBlank.move (Lexing.ofText first text).taken
              (Lexing.ofText first text).rest) := by
  rw [next_eq_scanHere, scanHere]
  cases cursor.skipBlank.rest with
  | nil => rfl
  | cons first text =>
      dsimp only
      cases (Lexing.ofText first text).outcome <;> rfl

/-- What is found next, the place behind it, and what is left of the text. -/
theorem next_peeksOneByte (pos : Position) :
    PeeksOneByte fun text =>
      (((next ⟨pos, text⟩).1, (next ⟨pos, text⟩).2.pos), (next ⟨pos, text⟩).2.rest) := by
  have lexeme (gap : Bytes) := @PeeksOneByte.byte _ (.finish (pos.after gap), pos.after gap)
    (fun _ => true) (fun _ => (.finish pos, pos)) _
    fun first _ => (Lexing.ofText_peeksOneByte first).map fun found =>
      (Scan.ofOutcome (pos.after gap) found.1, (pos.after gap).after found.2)
  convert (Blank.splitFrom_peeksOneByte false).andThen lexeme using 2 with text
  rw [next_eq, skipBlank, move]
  dsimp only [Blank.split]
  cases (Blank.splitFrom false text).2 <;> rfl

/-- A token or a flaw that leaves a part of the text before some end is found
before any other end, and leaves the same part. -/
theorem next_decided {pos : Position} {window rest : Bytes} {scan : Scan} {after : Cursor}
    (found : next ⟨pos, window ++ rest⟩ = (scan, after)) (more : rest.length < after.rest.length) :
    Exists fun place => Exists fun left => left ≠ [] ∧ after = ⟨place, left ++ rest⟩ ∧
      forall other, next ⟨pos, window ++ other⟩ = (scan, ⟨place, left ++ other⟩) := by
  have decided := (next_peeksOneByte pos).decided window rest
  rw [found] at decided
  rcases decided more with ⟨⟨report, place⟩, left, nonempty, again⟩
  have same := again rest
  rw [found] at same
  simp only [Prod.mk.injEq] at same again
  refine ⟨place, left, nonempty, ?_, fun other => ?_⟩
  · rw [← same.1.2, ← same.2]
  · rw [same.1.1, ← (again other).1.1, ← (again other).1.2, ← (again other).2]

end Cursor

/-! ## One item -/

namespace Reader

theorem resume_leaves (state : State) (around : List Hole) (cursor : Cursor) :
    (resume state around cursor).cursor.rest <:+ cursor.rest := by
  have behind {cursor after : Cursor} {scan : Scan} (found : cursor.next = (scan, after)) :
      after.rest <:+ cursor.rest := by
    have left := (Cursor.next_peeksOneByte cursor.pos).leaves cursor.rest
    rwa [found] at left
  fun_induction resume state around cursor with
  | case1 state around cursor pos after found => exact behind found
  | case2 state around cursor pos error after found => exact behind found
  | case3 state around cursor token after found fault failed => exact behind found
  | case4 state around cursor token after found step stepped tree applied => exact behind found
  | case5 state around cursor token after found step stepped next outer applied later
      inductionHypothesis =>
      exact inductionHypothesis.trans (behind found)

/-- A reading that leaves a part of the text before some end leaves it before
any other end, with the same result. -/
theorem resume_decided {state : State} {around : List Hole} (pos : Position) (window : Bytes)
    {rest : Bytes}
    (more : rest.length < (resume state around ⟨pos, window ++ rest⟩).cursor.rest.length) :
    Exists fun outcome => Exists fun names => Exists fun place => Exists fun left =>
      left ≠ [] ∧ forall other,
      resume state around ⟨pos, window ++ other⟩ =
        { outcome, names, cursor := ⟨place, left ++ other⟩ } := by
  generalize start : Cursor.mk pos (window ++ rest) = cursor at more
  fun_induction resume state around cursor generalizing pos window with
  | case1 state around cursor ended after found =>
      subst start
      rcases Cursor.next_decided found more with ⟨place, left, nonempty, _, again⟩
      refine ⟨.error (state.faultAtEnd ended), [], place, left, nonempty, fun other => ?_⟩
      rw [resume_eq, again]
  | case2 state around cursor origin error after found =>
      subst start
      rcases Cursor.next_decided found more with ⟨place, left, nonempty, _, again⟩
      refine ⟨.error ⟨origin, .scan error⟩, [], place, left, nonempty, fun other => ?_⟩
      rw [resume_eq, again]
  | case3 state around cursor token after found fault failed =>
      subst start
      rcases Cursor.next_decided found more with ⟨place, left, nonempty, _, again⟩
      refine ⟨.error fault, [], place, left, nonempty, fun other => ?_⟩
      rw [resume_eq, again]
      simp only [failed]
  | case4 state around cursor token after found step stepped tree applied =>
      subst start
      rcases Cursor.next_decided found more with ⟨place, left, nonempty, _, again⟩
      refine ⟨.ok tree, step.interned.toList, place, left, nonempty, fun other => ?_⟩
      rw [Progress.resume_token (again other) stepped, applied]
      simp only [Progress.resume, Reading.prepend, List.append_nil]
  | case5 state around cursor token after found step stepped next outer applied later
      inductionHypothesis =>
      subst start
      -- What is left at last lies behind the token, so a part of the window is left there.
      have shorter := (resume_leaves next outer after).length_le
      rcases Cursor.next_decided found (Nat.lt_of_lt_of_le more shorter) with
        ⟨place, window, _, same, again⟩
      rcases inductionHypothesis place window same.symm more with
        ⟨outcome, names, last, left, nonempty, rest⟩
      refine ⟨outcome, step.interned.toList ++ names, last, left, nonempty, fun other => ?_⟩
      rw [Progress.resume_token (again other) stepped, applied, Progress.resume, rest]
      rfl

end Reader

/-- An item that leaves a part of the text before some end is read alike before
any other end. -/
theorem SymbolTable.readItem_decided (table : SymbolTable) (slot : Slot) (pos : Position)
    (window : Bytes) {rest : Bytes}
    (more : rest.length < (table.readItem slot ⟨pos, window ++ rest⟩).cursor.rest.length) :
    Exists fun outcome => Exists fun filled => Exists fun place => Exists fun consumed =>
      Exists fun left => left ≠ [] ∧ window = consumed ++ left ∧ forall other,
      table.readItem slot ⟨pos, window ++ other⟩ =
        { outcome, table := filled, cursor := ⟨place, left ++ other⟩ } := by
  rcases Reader.resume_decided pos window more with ⟨outcome, names, place, left, nonempty, same⟩
  rcases Reader.resume_leaves (.start slot) [] ⟨pos, window ++ []⟩ with ⟨consumed, whole⟩
  rw [same] at whole
  simp only [List.append_nil] at whole
  refine ⟨outcome.map (Node.map (table.insertAll names).resolve), table.insertAll names, place,
    consumed, left, nonempty, whole.symm, fun other => ?_⟩
  rw [readItem, Reader.read, same]

namespace Session

/-- No hidden lookahead.  If reading an item, of code or of data, takes no more
than the first `count` bytes of a text, then every other text that agrees with it
there and on one byte more gives the same tree or the same fault.  The same bytes
are taken of it, and the symbol table and the remembered fault become the same. -/
theorem readItem_no_lookahead (table : SymbolTable) (fault : Option Fault) (pos : Position)
    (slot : Slot) {text other : Bytes} {count : Nat} (long : count + 1 <= text.length)
    (agree : text.take (count + 1) = other.take (count + 1))
    (within : text.length -
      (readItem { table, cursor := ⟨pos, text⟩, fault } slot).2.cursor.rest.length <= count) :
    let first := readItem { table, cursor := ⟨pos, text⟩, fault } slot
    let second := readItem { table, cursor := ⟨pos, other⟩, fault } slot
    second.1 = first.1 ∧ second.2.table = first.2.table ∧ second.2.fault = first.2.fault ∧
      second.2.cursor.pos = first.2.cursor.pos ∧
      Exists fun consumed => consumed.length <= count ∧
        text = consumed ++ first.2.cursor.rest ∧ other = consumed ++ second.2.cursor.rest := by
  have splitText := List.take_append_drop (count + 1) text
  have splitOther := List.take_append_drop (count + 1) other
  have more : (text.drop (count + 1)).length < (table.readItem slot
      ⟨pos, text.take (count + 1) ++ text.drop (count + 1)⟩).cursor.rest.length := by
    change text.length - (table.readItem slot ⟨pos, text⟩).cursor.rest.length <= count at within
    rw [splitText, List.length_drop]
    omega
  rcases table.readItem_decided slot pos _ more with
    ⟨outcome, filled, place, consumed, left, nonempty, window, same⟩
  have few : consumed.length <= count := by
    have total := congrArg List.length window
    have remains := List.length_pos_iff.2 nonempty
    rw [List.length_take, Nat.min_eq_left long, List.length_append] at total
    omega
  have first := same (text.drop (count + 1))
  have second := same (other.drop (count + 1))
  rw [splitText] at first
  rw [agree, splitOther] at second
  unfold readItem
  dsimp only
  rw [first, second]
  refine ⟨rfl, rfl, rfl, rfl, consumed, few, ?_, ?_⟩
  · rw [← List.append_assoc, ← window, splitText]
  · rw [← List.append_assoc, ← window, agree, splitOther]

/-- The byte behind a number sign is looked at and left, and what follows it does
not matter; nor does what follows the blank behind a symbol. -/
theorem readItem_no_lookahead_number_sign :
    (let refused := readItem
      { table := .empty, cursor := ⟨.start, Bytes.ofText "#a)"⟩, fault := none } .data
    refused.1 = .error ⟨.start, .scan .unrecognizedNumberSign⟩ ∧
      refused.2.cursor.pos = ⟨1, 1, 1⟩) ∧
    (let read := readItem
      { table := .empty, cursor := ⟨.start, Bytes.ofText "f )"⟩, fault := none } (.code false)
    read.1 = .ok (.symbol (.plain .start) 0) ∧ read.2.cursor.pos = ⟨1, 1, 1⟩) := by
  constructor
  · have flawed : readItem
        { table := .empty, cursor := ⟨.start, Bytes.ofText "#a"⟩, fault := none } .data =
          (.error ⟨.start, .scan .unrecognizedNumberSign⟩,
            { table := .empty
              cursor := ⟨⟨1, 1, 1⟩, Bytes.ofText "a"⟩
              fault := some ⟨.start, .scan .unrecognizedNumberSign⟩ }) := by
      rw [readItem, SymbolTable.readItem, Reader.read, Reader.resume_eq]
      rfl
    rcases @readItem_no_lookahead .empty none .start .data (Bytes.ofText "#a") (Bytes.ofText "#a)")
      1 (by decide) (by decide) (by rw [flawed]; decide) with ⟨same, _, _, place, _⟩
    rw [flawed] at same place
    exact ⟨same, place⟩
  · have scanned : Cursor.Scans ⟨.start, Bytes.ofText "f "⟩
        [⟨.start, .symbol (Bytes.ofText "f")⟩] ⟨⟨1, 1, 1⟩, Bytes.ofText " "⟩ :=
      .cons rfl (.nil _)
    have item : Grammar.Item (.code false) [⟨.start, .symbol (Bytes.ofText "f")⟩] _ := .atom rfl
    have read := @SymbolTable.readItem_of_item .empty _ _ _ _ _ scanned item
    have found : readItem
        { table := .empty, cursor := ⟨.start, Bytes.ofText "f "⟩, fault := none } (.code false) =
          (.ok (.symbol (.plain .start) 0),
            { table := SymbolTable.empty.insertAll [Bytes.ofText "f"]
              cursor := ⟨⟨1, 1, 1⟩, Bytes.ofText " "⟩
              fault := none }) := by
      rw [readItem, read]
      rfl
    rcases @readItem_no_lookahead .empty none .start (.code false) (Bytes.ofText "f ")
      (Bytes.ofText "f )") 1 (by decide) (by decide) (by rw [found]; decide) with
      ⟨same, _, _, place, _⟩
    rw [found] at same place
    exact ⟨same, place⟩

end Session

end TailLisp
