import TailLisp.Proofs.Spelling

namespace TailLisp

/-!
Texts as lexemes and gaps.

A text that can be scanned to its end is covered by the texts of its lexemes
and by the gaps between them, with nothing left over and nothing used twice.
Both kinds of pieces are described here without the scanner: gaps by the rules
for blank bytes and comments, lexemes by one rule for each of their shapes.

A lexeme can stand in front of any text that does not run on with it.  Only
lexemes that consist of constituents can be run on with, so only these need a
boundary behind them.  With that condition the account of one scanning step is
exact: a token is found if and only if a gap, the text of its lexeme and a rest
that stops it are what remains of the text.
-/

open ByteClass

/-! ## Gaps -/

namespace Blank

/-- Blank bytes and comments.  Each comment ends with its line. -/
inductive Gap : Bytes -> Prop
  | nil : Gap []
  | blank {byte text} : isBlank byte = true -> Gap text -> Gap (byte :: text)
  | comment {line text} : newline ∉ line -> Gap text ->
      Gap (commentMark :: (line ++ newline :: text))

/-- A gap at the end of a text, where the last comment may end with the text. -/
inductive LastGap : Bytes -> Prop
  | closed {text} : Gap text -> LastGap text
  | unclosed {text line} : Gap text -> newline ∉ line -> LastGap (text ++ commentMark :: line)

namespace Gap

theorem append {gap other : Bytes} (first : Gap gap) (second : Gap other) :
    Gap (gap ++ other) := by
  induction first with
  | nil => exact second
  | blank isBlank _ inductionHypothesis => exact .blank isBlank inductionHypothesis
  | comment noNewline _ inductionHypothesis =>
      rw [List.cons_append, List.append_assoc, List.cons_append]
      exact .comment noNewline inductionHypothesis

/-- The end of the text closes a comment as well as a newline does. -/
theorem of_lastGap {gap : Bytes} (last : LastGap gap) : Gap (gap ++ [newline]) := by
  cases last with
  | closed closed => exact closed.append (.blank (by decide) .nil)
  | unclosed closed noNewline =>
      rw [List.append_assoc, List.cons_append]
      exact closed.append (.comment noNewline .nil)

end Gap

theorem splitFrom_blank {byte : UInt8} (text : Bytes) (blank : isBlank byte = true) :
    splitFrom false (byte :: text) = (byte :: (split text).1, (split text).2) := by
  have notMark : (byte == commentMark) = false := by
    rw [beq_eq_false_iff_ne]
    intro same
    rw [same] at blank
    exact absurd blank (by decide)
  simp only [splitFrom, blank, notMark, Bool.or_false, Bool.or_true, Bool.false_and, if_true, split]

theorem splitFrom_commentMark (text : Bytes) :
    splitFrom false (commentMark :: text) =
      (commentMark :: (splitFrom true text).1, (splitFrom true text).2) :=
  rfl

/-- Inside a comment all bytes are skipped up to the newline. -/
theorem splitFrom_line {line : Bytes} (text : Bytes) (noNewline : newline ∉ line) :
    splitFrom true (line ++ newline :: text) =
      (line ++ newline :: (split text).1, (split text).2) := by
  induction line with
  | nil => rfl
  | cons byte line inductionHypothesis =>
      rw [List.mem_cons, not_or] at noNewline
      have inside : (byte != newline) = true := bne_iff_ne.2 (Ne.symm noNewline.1)
      simp only [List.cons_append, splitFrom, Bool.true_or, if_true, inside, Bool.and_true,
        inductionHypothesis noNewline.2]

theorem splitFrom_unclosed {line : Bytes} (noNewline : newline ∉ line) :
    splitFrom true line = (line, []) := by
  induction line with
  | nil => rfl
  | cons byte line inductionHypothesis =>
      rw [List.mem_cons, not_or] at noNewline
      have inside : (byte != newline) = true := bne_iff_ne.2 (Ne.symm noNewline.1)
      simp only [splitFrom, Bool.true_or, if_true, inside, Bool.and_true,
        inductionHypothesis noNewline.2]

/-- A gap in front of a text is skipped before the text's own blanks. -/
theorem Gap.split_append {gap : Bytes} (isGap : Gap gap) (text : Bytes) :
    split (gap ++ text) = (gap ++ (split text).1, (split text).2) := by
  induction isGap with
  | nil => rfl
  | blank isBlank _ inductionHypothesis =>
      rw [List.cons_append, split, splitFrom_blank _ isBlank, inductionHypothesis]
      rfl
  | comment noNewline _ inductionHypothesis =>
      rw [List.cons_append, List.append_assoc, List.cons_append, split, splitFrom_commentMark,
        splitFrom_line _ noNewline, inductionHypothesis]
      simp

theorem LastGap.split_eq {gap : Bytes} (last : LastGap gap) : split gap = (gap, []) := by
  cases last with
  | closed closed =>
      have skipped := closed.split_append []
      rw [List.append_nil] at skipped
      rw [skipped]
      exact congrArg (Prod.mk · []) (List.append_nil _)
  | unclosed closed noNewline =>
      rw [closed.split_append, split, splitFrom_commentMark, splitFrom_unclosed noNewline]

theorem LastGap.of_append {gap last : Bytes} (isGap : Gap gap) (isLast : LastGap last) :
    LastGap (gap ++ last) := by
  cases isLast with
  | closed closed => exact .closed (isGap.append closed)
  | unclosed closed noNewline =>
      rw [← List.append_assoc]
      exact .unclosed (isGap.append closed) noNewline

/-- A text begins with a gap and goes on with a byte that is not blank, or it
is a gap to its end. -/
theorem split_cases (text : Bytes) :
    (Exists fun gap => Exists fun first => Exists fun rest =>
      Gap gap ∧ isBlank first = false ∧ first ≠ commentMark ∧
      text = gap ++ first :: rest) ∨ LastGap text := by
  induction size : text.length using Nat.strongRecOn generalizing text with
  | ind length shorter =>
      -- What begins with a gap is as described if its remainder is, which is shorter.
      have behind (gap later : Bytes) (isGap : Gap gap) (same : text = gap ++ later)
          (less : later.length < text.length) :
          (Exists fun gap => Exists fun first => Exists fun rest =>
            Gap gap ∧ isBlank first = false ∧ first ≠ commentMark ∧
            text = gap ++ first :: rest) ∨ LastGap text := by
        rcases shorter later.length (size ▸ less) later rfl with
          ⟨more, first, rest, isMore, notBlank, noComment, sameLater⟩ | last
        · refine .inl ⟨gap ++ more, first, rest, isGap.append isMore, notBlank, noComment, ?_⟩
          rw [same, sameLater, List.append_assoc]
        · rw [same]
          exact .inr (.of_append isGap last)
      rcases text with _ | ⟨byte, text⟩
      · exact .inr (.closed .nil)
      by_cases blank : isBlank byte = true
      · exact behind [byte] text (.blank blank .nil) rfl (by simp)
      by_cases mark : byte = commentMark
      · subst mark
        by_cases ended : newline ∈ text
        · rcases List.eq_append_cons_of_mem ended with ⟨line, later, same, noNewline⟩
          subst same
          refine behind _ later (.comment noNewline .nil) (by simp) ?_
          rw [List.length_cons, List.length_append, List.length_cons]
          omega
        · exact .inr (@LastGap.unclosed [] text .nil ended)
      · exact .inl ⟨[], byte, text, .nil, Bool.eq_false_iff.2 blank, mark, rfl⟩

/-- A byte that is neither blank nor opens a comment ends a gap. -/
theorem split_cons {first : UInt8} {text : Bytes} (notBlank : isBlank first = false)
    (noComment : first ≠ commentMark) : split (first :: text) = ([], first :: text) := by
  simp [split, splitFrom, notBlank, noComment]

/-- A text is a gap to its end exactly if nothing is left behind its blanks. -/
theorem lastGap_iff {text : Bytes} : LastGap text ↔ (split text).2 = [] := by
  constructor
  · intro last
    rw [last.split_eq]
  · intro nothing
    rcases split_cases text with ⟨gap, first, rest, isGap, notBlank, noComment, same⟩ | last
    · rw [same, isGap.split_append, split_cons notBlank noComment] at nothing
      cases nothing
    · exact last

end Blank

/-! ## Lexemes -/

/-- A lexeme with this text ends in front of the rest.  Constituents would run
on with further constituents. -/
def Stops (text rest : Bytes) : Prop :=
  text.all isConstituent = true -> Boundary rest

/-- The text is one lexeme by itself. -/
inductive IsLexeme : Bytes -> Lexeme -> Prop
  | opening : IsLexeme [openParen] .opening
  | closing : IsLexeme [closeParen] .closing
  | tick : IsLexeme [ByteClass.tick] .tick
  /-- The raw text of a string ends at its first quote that is not protected. -/
  | string {raw} :
      Lexing.splitString (raw ++ [stringQuote]) = some (raw, []) ->
      IsLexeme (stringQuote :: (raw ++ [stringQuote])) (.string raw)
  /-- Any byte can be written as a character, a delimiter or a blank too. -/
  | character {byte} : IsLexeme [numberSign, backslash, byte] (.char byte)
  | named {name value} :
      CharName.value? name = some value ->
      IsLexeme (numberSign :: backslash :: name) (.char value)
  | atom {text lexeme} :
      text ≠ [] ->
      text.all isConstituent = true ->
      text.head? ≠ some numberSign ->
      Lexing.atomOutcome text = .ok lexeme ->
      IsLexeme text lexeme

/-- Whether the lexeme is an atom: a dot, a number, a reserved word or a symbol. -/
def Lexeme.isAtom : Lexeme -> Bool
  | dot => true
  | word _ => true
  | integer _ => true
  | symbol _ => true
  | _ => false

namespace Lexing

/-- The raw text of a string is found again in front of any rest. -/
theorem splitString_transplant {text raw rest : Bytes}
    (found : splitString text = some (raw, rest)) (other : Bytes) :
    splitString (raw ++ stringQuote :: other) = some (raw, other) := by
  fun_induction splitString text generalizing raw rest with
  | case1 => cases found
  | case2 text =>
      cases found
      exact splitString_quote other
  | case3 => cases found
  | case4 shielded text _ inductionHypothesis =>
      obtain ⟨⟨_, _⟩, inner, same⟩ := Option.map_eq_some_iff.1 found
      cases same
      rw [List.cons_append, List.cons_append, splitString_shielded, inductionHypothesis inner]
      rfl
  | case5 byte text notQuote notMark inductionHypothesis =>
      obtain ⟨⟨_, _⟩, inner, same⟩ := Option.map_eq_some_iff.1 found
      cases same
      rw [List.cons_append, splitString_plain _ notQuote notMark, inductionHypothesis inner]
      rfl

/-- The name of a character consists of two or more constituents. -/
theorem charName_of_value? {name : Bytes} {value : UInt8}
    (named : CharName.value? name = some value) :
    name.all isConstituent = true ∧ Exists fun first => Exists fun second => Exists fun more =>
      name = first :: second :: more := by
  have listed : forall entry, entry ∈ CharName.all ->
      entry.1.all isConstituent = true ∧ 2 <= entry.1.length := by
    decide
  rcases List.lookup_eq_some_iff.1 named with ⟨before, after, whole, _⟩
  rcases listed (name, value) (by rw [whole]; simp) with ⟨constituents, long⟩
  refine ⟨constituents, ?_⟩
  rcases name with _ | ⟨first, _ | ⟨second, more⟩⟩
  · exact absurd long (by simp)
  · exact absurd long (by simp)
  · exact ⟨first, second, more, rfl⟩

theorem isAtom_of_atomOutcome {text : Bytes} {lexeme : Lexeme}
    (means : atomOutcome text = .ok lexeme) : lexeme.isAtom = true := by
  unfold atomOutcome at means
  split at means
  · cases means
    rfl
  · split at means
    · cases means
    · cases means
      rfl
    · split at means <;> cases means <;> rfl

/-- The constituents that are taken run on to a boundary. -/
theorem boundary_dropWhile (text : Bytes) : Boundary (text.dropWhile isConstituent) := by
  intro byte isNext
  have stopped := List.head?_dropWhile_not isConstituent text
  rw [isNext] at stopped
  simpa using stopped

theorem charOutcome_eq_ok {first : UInt8} {more : Bytes} {lexeme : Lexeme}
    (read : charOutcome first more = .ok lexeme) :
    IsLexeme (numberSign :: backslash :: first :: more) lexeme := by
  unfold charOutcome at read
  split at read
  · cases read
    exact .character
  · split at read
    · next named =>
        cases read
        exact .named named
    · cases read

/-- The mark of a character literal runs on with the name behind it. -/
theorem all_marked (name : Bytes) :
    (numberSign :: backslash :: name).all isConstituent = name.all isConstituent :=
  rfl

theorem character_marked (first : UInt8) (text : Bytes) :
    character (backslash :: first :: text) =
      { outcome := charOutcome first
          (if isConstituent first then text.takeWhile isConstituent else [])
        taken := numberSign :: backslash :: first ::
          (if isConstituent first then text.takeWhile isConstituent else [])
        rest := if isConstituent first then text.dropWhile isConstituent else text } :=
  rfl

/-- A character literal that is read is the text of a lexeme, and it ends there. -/
theorem character_isLexeme {text : Bytes} {lexeme : Lexeme}
    (read : (character text).outcome = .ok lexeme) :
    IsLexeme (character text).taken lexeme ∧ Stops (character text).taken (character text).rest := by
  rcases text with _ | ⟨mark, text⟩
  · cases read
  by_cases marked : mark = backslash
  · subst marked
    rcases text with _ | ⟨first, text⟩
    · cases read
    rw [character_marked] at read ⊢
    refine ⟨charOutcome_eq_ok read, ?_⟩
    intro constituents
    -- The byte behind the mark is one of them, so all that follow it were taken.
    have begins : isConstituent first = true := by
      rw [all_marked, List.all_cons, Bool.and_eq_true] at constituents
      exact constituents.1
    simp only [if_pos begins]
    exact boundary_dropWhile text
  · rw [character.eq_def] at read
    simp only [if_neg marked] at read
    cases read

/-- What is read as a lexeme is the text of one, and it ends there. -/
theorem isLexeme_of_ok {first : UInt8} {text : Bytes} {lexeme : Lexeme}
    (notBlank : isBlank first = false) (noComment : first ≠ commentMark)
    (read : (ofText first text).outcome = .ok lexeme) :
    IsLexeme (ofText first text).taken lexeme ∧
      Stops (ofText first text).taken (ofText first text).rest := by
  unfold ofText at read ⊢
  split at read
  · next isOpen =>
      cases read
      rw [if_pos isOpen, isOpen]
      exact ⟨.opening, nofun⟩
  next notOpen =>
  rw [if_neg notOpen]
  split at read
  · next isClose =>
      cases read
      rw [if_pos isClose, isClose]
      exact ⟨.closing, nofun⟩
  next notClose =>
  rw [if_neg notClose]
  split at read
  · next isTick =>
      cases read
      rw [if_pos isTick, isTick]
      exact ⟨.tick, nofun⟩
  next notTick =>
  rw [if_neg notTick]
  split at read
  · cases read
  next notQuasi =>
  rw [if_neg notQuasi]
  split at read
  · next isQuote =>
      rw [if_pos isQuote]
      unfold string at read ⊢
      split at read
      · next raw rest found =>
          cases read
          exact ⟨.string (splitString_transplant found []), nofun⟩
      · cases read
  next notQuote =>
  rw [if_neg notQuote]
  split at read
  · next isSign =>
      rw [if_pos isSign]
      exact character_isLexeme read
  · next notSign =>
      rw [if_neg notSign]
      have begins : isConstituent first = true :=
        isConstituent_iff.2 ⟨notBlank, noComment, notOpen, notClose, notTick, notQuote,
          Bool.not_eq_true _ ▸ notQuasi⟩
      refine ⟨.atom (List.cons_ne_nil _ _) ?_ ?_ read, fun _ => boundary_dropWhile text⟩
      · rw [atom, List.all_cons, begins]
        exact List.all_takeWhile
      · intro signed
        exact notSign (Option.some.inj signed)

end Lexing

namespace IsLexeme

variable {text : Bytes} {lexeme : Lexeme}

/-- The text of a lexeme is taken as that lexeme in front of any rest that
stops it. -/
theorem ofText_append (isLexeme : IsLexeme text lexeme) :
    Exists fun first => Exists fun more =>
      text = first :: more ∧ isBlank first = false ∧ first ≠ commentMark ∧
      forall rest, Stops text rest ->
        Lexing.ofText first (more ++ rest) =
          { outcome := .ok lexeme, taken := text, rest := rest } := by
  cases isLexeme with
  | opening => exact ⟨openParen, [], rfl, by decide, by decide, fun rest _ => rfl⟩
  | closing => exact ⟨closeParen, [], rfl, by decide, by decide, fun rest _ => rfl⟩
  | tick => exact ⟨ByteClass.tick, [], rfl, by decide, by decide, fun rest _ => rfl⟩
  | @string raw found =>
      refine ⟨stringQuote, raw ++ [stringQuote], rfl, by decide, by decide, ?_⟩
      intro rest _
      change Lexing.string (raw ++ [stringQuote] ++ rest) = _
      rw [Lexing.string, List.append_assoc, List.singleton_append,
        Lexing.splitString_transplant found]
      rfl
  | @character byte =>
      refine ⟨numberSign, [backslash, byte], rfl, by decide, by decide, ?_⟩
      intro rest stops
      change Lexing.character (backslash :: byte :: rest) = _
      rw [Lexing.character_marked]
      by_cases begins : isConstituent byte = true
      · have boundary : Boundary rest :=
          stops ((Lexing.all_marked [byte]).trans (by rw [List.all_cons, begins, List.all_nil]; rfl))
        have nothing := @Boundary.takeWhile_append rest boundary [] (List.forall_mem_nil _)
        rw [List.nil_append] at nothing
        simp only [if_pos begins, nothing.1, nothing.2]
        rfl
      · simp only [if_neg begins]
        rfl
  | @named name value named =>
      rcases Lexing.charName_of_value? named with ⟨constituents, first, second, more, same⟩
      subst same
      refine ⟨numberSign, backslash :: first :: second :: more, rfl, by decide, by decide, ?_⟩
      intro rest stops
      rcases List.forall_mem_cons.1 (List.all_eq_true.1 constituents) with ⟨begins, others⟩
      have boundary : Boundary rest := stops constituents
      have taken := boundary.takeWhile_append others
      change Lexing.character (backslash :: first :: (second :: more ++ rest)) = _
      rw [Lexing.character_marked]
      simp only [if_pos begins, taken.1, taken.2, Lexing.charOutcome, named]
  | atom nonempty constituents unsigned means =>
      rcases Lexes.of_atom nonempty constituents unsigned means with
        ⟨first, more, same, notBlank, noComment, taken⟩
      refine ⟨first, more, same, notBlank, noComment, ?_⟩
      intro rest stops
      rw [taken rest (stops constituents), same]

theorem ne_nil (isLexeme : IsLexeme text lexeme) : text ≠ [] := by
  cases isLexeme with
  | atom nonempty => exact nonempty
  | _ => exact List.cons_ne_nil _ _

/-- An atom consists of constituents. -/
theorem all_isConstituent (isLexeme : IsLexeme text lexeme) (isAtom : lexeme.isAtom = true) :
    text.all isConstituent = true := by
  cases isLexeme with
  | atom _ constituents _ _ => exact constituents
  | _ => cases isAtom

theorem eq_openParen (isLexeme : IsLexeme text .opening) : text = [openParen] := by
  cases isLexeme with
  | opening => rfl
  | atom _ _ _ means => cases Lexing.isAtom_of_atomOutcome means

theorem eq_closeParen (isLexeme : IsLexeme text .closing) : text = [closeParen] := by
  cases isLexeme with
  | closing => rfl
  | atom _ _ _ means => cases Lexing.isAtom_of_atomOutcome means

/-- A reserved word is written as its name. -/
theorem eq_name {keyword : Keyword} (isLexeme : IsLexeme text (.word keyword)) :
    text = keyword.name := by
  cases isLexeme with
  | atom _ _ _ means =>
      unfold Lexing.atomOutcome at means
      split at means
      · cases means
      · split at means
        · cases means
        · cases means
        · split at means
          · next found =>
              cases means
              exact (Keyword.name_of_ofName?_eq_some found).symm
          · cases means

end IsLexeme

/-! ## Tokens -/

namespace Cursor

/-- A gap, the text of a lexeme and a rest that stops it make a token. -/
theorem next_of_isLexeme {gap text rest : Bytes} {lexeme : Lexeme} (isGap : Blank.Gap gap)
    (isLexeme : IsLexeme text lexeme) (stops : Stops text rest) (pos : Position) :
    next ⟨pos, gap ++ (text ++ rest)⟩ =
      (.token ⟨pos.after gap, lexeme⟩, ⟨pos.after (gap ++ text), rest⟩) := by
  rcases isLexeme.ofText_append with ⟨first, more, same, notBlank, noComment, taken⟩
  have skipped : skipBlank ⟨pos, gap ++ (text ++ rest)⟩ = ⟨pos.after gap, text ++ rest⟩ := by
    rw [skipBlank, move, isGap.split_append, same, List.cons_append,
      Blank.split_cons notBlank noComment, List.append_nil]
  rw [next_eq_scanHere, skipped, same, scanHere]
  simp only [List.cons_append, taken rest stops, move, Position.after_append, same]

/-- A token is made of nothing else. -/
theorem exists_of_next_eq_token {cursor after : Cursor} {token : Token}
    (found : cursor.next = (.token token, after)) :
    Exists fun gap => Exists fun text =>
      Blank.Gap gap ∧ IsLexeme text token.lexeme ∧ Stops text after.rest ∧
      cursor.rest = gap ++ (text ++ after.rest) ∧ token.pos = cursor.pos.after gap ∧
        after.pos = cursor.pos.after (gap ++ text) := by
  rcases Blank.split_cases cursor.rest with
    ⟨gap, first, rest, isGap, notBlank, noComment, same⟩ | last
  · have skipped : cursor.skipBlank = ⟨cursor.pos.after gap, first :: rest⟩ := by
      rw [skipBlank, move, same, isGap.split_append, Blank.split_cons notBlank noComment,
        List.append_nil]
    rw [next_eq_scanHere, skipped, scanHere] at found
    have whole := Lexing.ofText_append first rest
    cases read : (Lexing.ofText first rest).outcome with
    | error error => simp [read] at found
    | ok lexeme =>
        simp only [read, Prod.mk.injEq, Scan.token.injEq] at found
        rcases found with ⟨rfl, rfl⟩
        rcases Lexing.isLexeme_of_ok notBlank noComment read with ⟨isLexeme, stops⟩
        refine ⟨gap, _, isGap, isLexeme, stops, ?_, rfl, ?_⟩
        · rw [same, move, whole]
        · rw [move, Position.after_append]
  · rw [next_eq_scanHere, skipBlank, move, last.split_eq, scanHere] at found
    cases found

end Cursor

/-! ## Whole texts -/

/-- A token with its text and the gap in front of it. -/
structure Piece where
  gap : Bytes
  text : Bytes
  token : Token

namespace Piece

def bytes (piece : Piece) : Bytes :=
  piece.gap ++ piece.text

end Piece

/-- The pieces lie one behind the other, from a place on and in front of a
rest. -/
inductive Tiled : Position -> List Piece -> Bytes -> Prop
  | nil {pos rest} : Tiled pos [] rest
  | cons {pos piece pieces rest} :
      Blank.Gap piece.gap ->
      IsLexeme piece.text piece.token.lexeme ->
      Stops piece.text (pieces.flatMap Piece.bytes ++ rest) ->
      piece.token.pos = pos.after piece.gap ->
      Tiled (pos.after piece.bytes) pieces rest ->
      Tiled pos (piece :: pieces) rest

namespace Tiled

variable {pos : Position} {pieces : List Piece} {rest : Bytes}

/-- Each piece stands at the place behind what comes before it. -/
theorem lies (tiled : Tiled pos pieces rest) {before later : List Piece} {piece : Piece}
    (same : pieces = before ++ piece :: later) :
    Blank.Gap piece.gap ∧ IsLexeme piece.text piece.token.lexeme ∧
      Stops piece.text (later.flatMap Piece.bytes ++ rest) ∧
        piece.token.pos = pos.after (before.flatMap Piece.bytes ++ piece.gap) := by
  induction tiled generalizing before with
  | nil => simp at same
  | cons isGap isLexeme stops place _ inductionHypothesis =>
      rcases before with _ | ⟨first, before⟩
      · cases same
        exact ⟨isGap, isLexeme, stops, place⟩
      · cases same
        have inside := inductionHypothesis rfl
        rwa [List.flatMap_cons, List.append_assoc, Position.after_append _ (Piece.bytes _)]

/-- The first of some pieces lie in front of the others. -/
theorem of_append {others : List Piece} (tiled : Tiled pos (pieces ++ others) rest) :
    Tiled pos pieces (others.flatMap Piece.bytes ++ rest) ∧
      Tiled (pos.after (pieces.flatMap Piece.bytes)) others rest := by
  induction pieces generalizing pos with
  | nil => exact ⟨.nil, tiled⟩
  | cons piece pieces inductionHypothesis =>
      cases tiled with
      | cons isGap isLexeme stops place later =>
          rcases inductionHypothesis later with ⟨first, second⟩
          have joined : (pieces ++ others).flatMap Piece.bytes ++ rest =
              pieces.flatMap Piece.bytes ++ (others.flatMap Piece.bytes ++ rest) := by
            rw [List.flatMap_append, List.append_assoc]
          rw [List.flatMap_cons, Position.after_append]
          exact ⟨.cons isGap isLexeme (joined ▸ stops) place first, second⟩

theorem offset_le (tiled : Tiled pos pieces rest) :
    forall piece, piece ∈ pieces -> pos.offset <= piece.token.pos.offset := by
  induction tiled with
  | nil => nofun
  | cons _ _ _ place _ inductionHypothesis =>
      refine List.forall_mem_cons.2 ⟨?_, ?_⟩
      · rw [place, Position.offset_after]
        exact Nat.le_add_right _ _
      · intro piece member
        have behind := inductionHypothesis piece member
        rw [Position.offset_after] at behind
        omega

/-- Each token begins behind the ones before it. -/
theorem growing (tiled : Tiled pos pieces rest) :
    pieces.Pairwise fun earlier later => earlier.token.pos.offset < later.token.pos.offset := by
  induction tiled with
  | nil => exact .nil
  | @cons pos piece pieces rest isGap isLexeme stops place later inductionHypothesis =>
      refine List.pairwise_cons.2 ⟨?_, inductionHypothesis⟩
      intro other member
      -- The text of the lexeme lies between the two places.
      have behind := later.offset_le other member
      have nonempty := List.length_pos_iff.2 isLexeme.ne_nil
      rw [Position.offset_after, Piece.bytes, List.length_append] at behind
      rw [place, Position.offset_after]
      omega

/-- No two tokens have the same place. -/
theorem nodup_pos (tiled : Tiled pos pieces rest) :
    (pieces.map fun piece => piece.token.pos).Nodup := by
  rw [List.nodup_iff_pairwise_ne, List.pairwise_map]
  apply tiled.growing.imp
  intro earlier later before same
  rw [same] at before
  exact Nat.lt_irrefl _ before

/-- Pieces can be followed by whatever stops an atom. -/
theorem replace_rest (tiled : Tiled pos pieces rest) {other : Bytes} (boundary : Boundary other) :
    Tiled pos pieces other := by
  induction tiled with
  | nil => exact .nil
  | @cons pos piece pieces rest isGap isLexeme stops place _ inductionHypothesis =>
      refine .cons isGap isLexeme ?_ place inductionHypothesis
      exact fun constituents => (stops constituents).of_append.append boundary

/-- The same texts make the same lexemes from any other place on. -/
theorem replace_pos (tiled : Tiled pos pieces rest) (start : Position) :
    Exists fun others : List Piece => Tiled start others rest ∧
      others.flatMap Piece.bytes = pieces.flatMap Piece.bytes ∧
        others.map (fun piece => piece.token.lexeme) =
          pieces.map fun piece => piece.token.lexeme := by
  induction tiled generalizing start with
  | nil => exact ⟨[], .nil, rfl, rfl⟩
  | @cons pos piece pieces rest isGap isLexeme stops place _ inductionHypothesis =>
      rcases inductionHypothesis (start.after piece.bytes) with
        ⟨others, tiled, sameBytes, sameLexemes⟩
      let moved : Piece := ⟨piece.gap, piece.text, ⟨start.after piece.gap, piece.token.lexeme⟩⟩
      refine ⟨moved :: others, .cons isGap isLexeme ?_ rfl tiled, ?_, ?_⟩
      · rwa [sameBytes]
      · exact congrArg (piece.bytes ++ ·) sameBytes
      · exact congrArg (piece.token.lexeme :: ·) sameLexemes

end Tiled

namespace Cursor

/-- Pieces that lie in front of a rest are scanned up to it. -/
theorem scans_of_tiled {pos : Position} {pieces : List Piece} {rest : Bytes}
    (tiled : Tiled pos pieces rest) :
    Scans ⟨pos, pieces.flatMap Piece.bytes ++ rest⟩ (pieces.map Piece.token)
      ⟨pos.after (pieces.flatMap Piece.bytes), rest⟩ := by
  induction tiled with
  | nil => exact .nil _
  | @cons pos piece pieces rest isGap isLexeme stops place _ inductionHypothesis =>
      have found := next_of_isLexeme isGap isLexeme stops pos
      rw [← place] at found
      rw [List.flatMap_cons, Position.after_append, List.append_assoc, Piece.bytes,
        List.append_assoc]
      exact .cons found inductionHypothesis

/-- What is scanned lies piece by piece in front of what remains. -/
theorem Scans.exists_tiled {cursor ending : Cursor} {tokens : List Token}
    (scanned : cursor.Scans tokens ending) :
    Exists fun pieces : List Piece => Tiled cursor.pos pieces ending.rest ∧
      pieces.map Piece.token = tokens ∧
        cursor.rest = pieces.flatMap Piece.bytes ++ ending.rest ∧
          ending.pos = cursor.pos.after (pieces.flatMap Piece.bytes) := by
  induction scanned with
  | nil cursor => exact ⟨[], .nil, rfl, rfl, rfl⟩
  | @cons cursor token middle tokens ending found _ inductionHypothesis =>
      rcases exists_of_next_eq_token found with
        ⟨gap, text, isGap, isLexeme, stops, whole, place, moved⟩
      rcases inductionHypothesis with ⟨pieces, tiled, sameTokens, rest, reached⟩
      rw [moved] at tiled reached
      refine ⟨⟨gap, text, token⟩ :: pieces, .cons isGap isLexeme (rest ▸ stops) place tiled,
        congrArg (token :: ·) sameTokens, ?_, ?_⟩
      · rw [whole, rest, List.flatMap_cons, List.append_assoc, Piece.bytes, List.append_assoc]
      · rw [reached, ← Position.after_append]
        rfl

theorem Scans.growing {cursor ending : Cursor} {tokens : List Token}
    (scanned : cursor.Scans tokens ending) :
    tokens.Pairwise fun earlier later => earlier.pos.offset < later.pos.offset := by
  rcases scanned.exists_tiled with ⟨pieces, tiled, same, _, _⟩
  rw [← same, List.pairwise_map]
  exact tiled.growing

/-- The text of a lexeme has no other token. -/
theorem tokens_of_isLexeme {text : Bytes} {lexeme : Lexeme} (isLexeme : IsLexeme text lexeme) :
    Exists fun pos => Exists fun after =>
      (ofText text).tokens = ([⟨.start, lexeme⟩], .finish pos, after) := by
  have found := next_of_isLexeme .nil isLexeme (fun _ => Boundary.nil) Position.start
  rw [List.nil_append, List.append_nil] at found
  exact tokens_eq_finish_iff.2 ⟨_, .cons found (.nil _), rfl⟩

/-- A text that can be scanned to its end is tiled by its tokens.  It consists
of a gap and the text of a lexeme for each of them and of a gap at the end.
Each token stands at the offset where the text of its lexeme begins, that text
alone is scanned as the one lexeme, and an atom or a character literal made of
constituents is not followed by a further constituent. -/
theorem tokens_tile {text : Bytes} {tokens : List Token} {pos : Position} {after : Cursor}
    (scanned : (ofText text).tokens = (tokens, .finish pos, after)) :
    Exists fun pieces : List Piece => Exists fun last : Bytes =>
      pieces.map Piece.token = tokens ∧
      text = pieces.flatMap Piece.bytes ++ last ∧
      Blank.LastGap last ∧
      forall before piece later, pieces = before ++ piece :: later ->
        Blank.Gap piece.gap ∧
        piece.token.pos.offset = (before.flatMap Piece.bytes ++ piece.gap).length ∧
        (Exists fun pos => Exists fun after => (ofText piece.text).tokens =
          ([⟨.start, piece.token.lexeme⟩], .finish pos, after)) ∧
        (piece.token.lexeme.isAtom = true ∨
            (Exists fun value => piece.token.lexeme = .char value) ∧
              piece.text.all isConstituent = true ->
          forall byte, (later.flatMap Piece.bytes ++ last).head? = some byte ->
            isConstituent byte = false) := by
  rcases tokens_eq_finish_iff.1 ⟨pos, after, scanned⟩ with ⟨ending, scans, ended⟩
  rcases scans.exists_tiled with ⟨pieces, tiled, sameTokens, whole, _⟩
  have last : Blank.LastGap ending.rest :=
    Blank.lastGap_iff.2 (List.isEmpty_iff.1 ended)
  refine ⟨pieces, ending.rest, sameTokens, whole, last, ?_⟩
  intro before piece later same
  rcases tiled.lies same with ⟨isGap, isLexeme, stops, place⟩
  refine ⟨isGap, ?_, tokens_of_isLexeme isLexeme, ?_⟩
  · rw [place, Position.offset_after]
    exact Nat.zero_add _
  · rintro (isAtom | ⟨_, constituents⟩)
    · exact stops (isLexeme.all_isConstituent isAtom)
    · exact stops constituents

/-- Lexemes without a gap between them, a character literal of a semicolon and
a comment that ends with the text. -/
theorem tokens_tile_adjacent :
    Exists fun pieces : List Piece => Exists fun last : Bytes =>
      pieces.map Piece.token =
        [⟨⟨1, 0, 0⟩, .opening⟩, ⟨⟨1, 1, 1⟩, .symbol (Bytes.ofText "a")⟩,
          ⟨⟨1, 3, 3⟩, .char commentMark⟩, ⟨⟨1, 6, 6⟩, .closing⟩] ∧
      Bytes.ofText "(a #\\;);end" = pieces.flatMap Piece.bytes ++ last ∧
      Blank.LastGap last := by
  have scanned : (ofText (Bytes.ofText "(a #\\;);end")).Scans
      [⟨⟨1, 0, 0⟩, .opening⟩, ⟨⟨1, 1, 1⟩, .symbol (Bytes.ofText "a")⟩,
        ⟨⟨1, 3, 3⟩, .char commentMark⟩, ⟨⟨1, 6, 6⟩, .closing⟩]
      ⟨⟨1, 7, 7⟩, Bytes.ofText ";end"⟩ :=
    .cons rfl (.cons rfl (.cons rfl (.cons rfl (.nil _))))
  rcases tokens_eq_finish_iff.2 ⟨_, scanned, rfl⟩ with ⟨pos, after, finished⟩
  rcases tokens_tile finished with ⟨pieces, last, sameTokens, whole, isLast, _⟩
  exact ⟨pieces, last, sameTokens, whole, isLast⟩

end Cursor

end TailLisp
