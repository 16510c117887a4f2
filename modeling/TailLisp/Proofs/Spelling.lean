import TailLisp.Proofs.Literals
import TailLisp.Proofs.Scanning
import Mathlib.Tactic.Tauto

namespace TailLisp

/-!
Spellings.

A text spells a lexeme if the scanner takes exactly that text for the lexeme
wherever it stands.  Atoms run on as long as constituents follow, so what
comes behind has to stop them; `Boundary` says that it does.  The printer
writes literals and words that spell what they mean, and a name that was once
found in a text spells itself.
-/

open ByteClass

/-- A text in front of which an atom ends. -/
def Boundary (rest : Bytes) : Prop :=
  forall byte, rest.head? = some byte -> isConstituent byte = false

namespace Boundary

theorem nil : Boundary [] :=
  nofun

theorem cons {byte : UInt8} (text : Bytes) (stops : isConstituent byte = false) :
    Boundary (byte :: text) := by
  intro first same
  cases same
  exact stops

theorem append {text rest : Bytes} (first : Boundary text) (second : Boundary rest) :
    Boundary (text ++ rest) := by
  cases text with
  | nil => exact second
  | cons byte text => exact first

theorem of_append {text rest : Bytes} (boundary : Boundary (text ++ rest)) : Boundary text := by
  cases text with
  | nil => exact nil
  | cons byte text => exact boundary

/-- The constituents before a boundary are taken, and nothing more. -/
theorem takeWhile_append {rest : Bytes} (boundary : Boundary rest) {text : Bytes}
    (constituents : forall byte, byte ∈ text -> isConstituent byte = true) :
    (text ++ rest).takeWhile isConstituent = text ∧
      (text ++ rest).dropWhile isConstituent = rest := by
  have stops : rest.takeWhile isConstituent = [] ∧ rest.dropWhile isConstituent = rest := by
    cases rest with
    | nil => exact ⟨rfl, rfl⟩
    | cons byte rest =>
        have stop := boundary byte rfl
        exact ⟨List.takeWhile_cons_of_neg (by simp [stop]),
          List.dropWhile_cons_of_neg (by simp [stop])⟩
  rw [List.takeWhile_append_of_pos constituents, List.dropWhile_append_of_pos constituents,
    stops.1, stops.2, List.append_nil]
  exact ⟨rfl, rfl⟩

end Boundary

/-- The scanner takes the text for the lexeme, wherever an atom may end behind
it. -/
def Lexes (text : Bytes) (lexeme : Lexeme) : Prop :=
  Exists fun first => Exists fun more =>
    text = first :: more ∧ isBlank first = false ∧ first ≠ commentMark ∧
    forall rest, Boundary rest ->
      Lexing.ofText first (more ++ rest) =
        { outcome := .ok lexeme, taken := first :: more, rest := rest }

namespace Cursor

/-- A byte that is neither blank nor opens a comment begins the next token. -/
theorem next_cons {pos : Position} {first : UInt8} {text : Bytes}
    (notBlank : isBlank first = false) (noComment : first ≠ commentMark) :
    next ⟨pos, first :: text⟩ =
      match (Lexing.ofText first text).outcome with
      | .ok lexeme =>
          (.token ⟨pos, lexeme⟩,
            ⟨pos.after (Lexing.ofText first text).taken, (Lexing.ofText first text).rest⟩)
      | .error error =>
          (.flaw pos error,
            ⟨pos.after (Lexing.ofText first text).taken, (Lexing.ofText first text).rest⟩) := by
  rw [next, nextFrom, if_neg (Bool.eq_false_iff.1 notBlank), if_neg noComment]
  rfl

theorem next_of_lexes {text : Bytes} {lexeme : Lexeme} (lexes : Lexes text lexeme)
    (pos : Position) {rest : Bytes} (boundary : Boundary rest) :
    next ⟨pos, text ++ rest⟩ = (.token ⟨pos, lexeme⟩, ⟨pos.after text, rest⟩) := by
  rcases lexes with ⟨first, more, same, notBlank, noComment, taken⟩
  rw [same, List.cons_append, next_cons notBlank noComment, taken rest boundary]

theorem next_opening (pos : Position) (rest : Bytes) :
    next ⟨pos, openParen :: rest⟩ =
      (.token ⟨pos, .opening⟩, ⟨pos.after [openParen], rest⟩) := by
  rw [next_cons (by decide) (by decide)]
  rfl

theorem next_closing (pos : Position) (rest : Bytes) :
    next ⟨pos, closeParen :: rest⟩ =
      (.token ⟨pos, .closing⟩, ⟨pos.after [closeParen], rest⟩) := by
  rw [next_cons (by decide) (by decide)]
  rfl

/-- A space before a token is skipped. -/
theorem next_space (pos : Position) (rest : Bytes) :
    next ⟨pos, ' '.toUInt8 :: rest⟩ = next ⟨pos.after [' '.toUInt8], rest⟩ :=
  rfl

end Cursor

/-! ## What the printer writes -/

namespace ByteClass

theorem isConstituent_iff {byte : UInt8} :
    isConstituent byte = true ↔
      isBlank byte = false ∧ byte ≠ commentMark ∧ byte ≠ openParen ∧ byte ≠ closeParen ∧
        byte ≠ tick ∧ byte ≠ stringQuote ∧ isQuasiquote byte = false := by
  simp only [isConstituent, isDelimiter, Bool.and_eq_true, Bool.not_eq_true', Bool.or_eq_false_iff,
    beq_eq_false_iff_ne]
  tauto

end ByteClass

namespace Lexes

/-- Constituents that do not begin with a number sign are an atom. -/
theorem of_atom {text : Bytes} {lexeme : Lexeme} (nonempty : text ≠ [])
    (constituents : text.all isConstituent = true)
    (unsigned : text.head? ≠ some numberSign) (means : Lexing.atomOutcome text = .ok lexeme) :
    Lexes text lexeme := by
  rcases text with _ | ⟨first, more⟩
  · exact (nonempty rfl).elim
  · have notSign : first ≠ numberSign := fun same => unsigned (congrArg some same)
    rcases List.forall_mem_cons.1 (List.all_eq_true.1 constituents) with ⟨begins, others⟩
    rcases isConstituent_iff.1 begins with
      ⟨notBlank, noComment, notOpen, notClose, notTick, notQuote, notQuasi⟩
    refine ⟨first, more, rfl, notBlank, noComment, ?_⟩
    intro rest boundary
    have taken := boundary.takeWhile_append others
    simp only [Lexing.ofText, if_neg notOpen, if_neg notClose, if_neg notTick, notQuasi,
      Bool.false_eq_true, if_false, if_neg notQuote, if_neg notSign, Lexing.atom, taken.1, taken.2,
      means]

theorem opening : Lexes (Lexeme.spelling .opening) .opening :=
  ⟨openParen, [], rfl, by decide, by decide, fun _ _ => rfl⟩

theorem closing : Lexes (Lexeme.spelling .closing) .closing :=
  ⟨closeParen, [], rfl, by decide, by decide, fun _ _ => rfl⟩

/-- A keyword is spelled by its name. -/
theorem word (keyword : Keyword) : Lexes keyword.name (.word keyword) := by
  have listed : keyword ∈ Keyword.all := by
    cases keyword with
    | truth value => cases value <;> decide
    | head form =>
        exact List.mem_cons_of_mem _ (List.mem_cons_of_mem _
          (List.mem_map_of_mem (SpecialForm.mem_all form)))
  have ordinary : forall keyword, keyword ∈ Keyword.all ->
      keyword.name ≠ [] ∧ keyword.name.all isConstituent = true ∧
        keyword.name.head? ≠ some numberSign ∧ keyword.name ≠ ['.'.toUInt8] ∧
          (Numeral.parts? keyword.name).isNone = true := by
    decide
  rcases ordinary keyword listed with ⟨nonempty, constituents, unsigned, notDot, notNumeral⟩
  apply of_atom nonempty constituents unsigned
  have notInteger : Lexing.integer? keyword.name = .ok none := by
    rw [Lexing.integer?, Option.isNone_iff_eq_none.1 notNumeral]
  rw [Lexing.atomOutcome, if_neg notDot, notInteger, Keyword.ofName?_name]

theorem dot : Lexes ['.'.toUInt8] .dot :=
  of_atom (by decide) (by decide) (by decide) rfl

theorem integer (value : Int64) : Lexes (Bytes.ofInt value.toInt) (.integer value) := by
  have digits : forall read, read < 10 ->
      isConstituent (Bytes.digit read) = true ∧ Bytes.digit read ≠ numberSign ∧
        Bytes.digit read ≠ '.'.toUInt8 := by
    decide
  -- Both signs are settled by what holds of every byte of the text.
  have bytes : forall byte, byte ∈ Bytes.ofInt value.toInt ->
      isConstituent byte = true ∧ byte ≠ numberSign ∧ byte ≠ '.'.toUInt8 := by
    intro byte member
    cases number : value.toInt with
    | ofNat magnitude =>
        rw [number, Bytes.ofInt] at member
        rcases Bytes.exists_digit_of_mem_ofNat member with ⟨read, small, same⟩
        rw [same]
        exact digits read small
    | negSucc lower =>
        rw [number, Bytes.ofInt] at member
        rcases List.mem_cons.1 member with same | member
        · rw [same]
          decide
        · rcases Bytes.exists_digit_of_mem_ofNat member with ⟨read, small, same⟩
          rw [same]
          exact digits read small
  have means : Lexing.integer? (Bytes.ofInt value.toInt) = .ok (some value) :=
    Lexing.integer?_eq_some_iff.2 (Numeral.denotes_ofInt value.toInt)
  apply of_atom
  · intro nothing
    rw [nothing] at means
    cases means
  · exact List.all_eq_true.2 fun byte member => (bytes byte member).1
  · intro signed
    exact (bytes _ (List.mem_of_head? signed)).2.1 rfl
  · have notDot : Bytes.ofInt value.toInt ≠ ['.'.toUInt8] := by
      intro same
      rw [same] at bytes
      exact (bytes _ (List.mem_singleton.2 rfl)).2.2 rfl
    rw [Lexing.atomOutcome, if_neg notDot, means]

theorem char (value : UInt8) : Lexes (Node.printChar value) (.char value) := by
  refine ⟨numberSign, backslash :: CharName.spelling value, rfl, by decide, by decide, ?_⟩
  intro rest boundary
  have sign (text : Bytes) : Lexing.ofText numberSign text = Lexing.character text := rfl
  have marked (first : UInt8) (text : Bytes) : Lexing.character (backslash :: first :: text) =
      { outcome := Lexing.charOutcome first
          (if isConstituent first then text.takeWhile isConstituent else [])
        taken := numberSign :: backslash :: first ::
          (if isConstituent first then text.takeWhile isConstituent else [])
        rest := if isConstituent first then text.dropWhile isConstituent else text } := rfl
  rw [sign, List.cons_append]
  rcases CharName.spelling_cases value with single | ⟨first, more, named, long, means, constituents⟩
  · rw [single, List.singleton_append, marked]
    have stops := @Boundary.takeWhile_append rest boundary [] nofun
    rw [List.nil_append] at stops
    by_cases runs : isConstituent value = true
    · simp only [runs, if_true, stops.1, stops.2]
      rfl
    · simp only [runs]
      rfl
  · rcases List.forall_mem_cons.1 (List.all_eq_true.1 constituents) with ⟨begins, others⟩
    have taken := boundary.takeWhile_append others
    rw [named, List.cons_append, marked]
    simp only [begins, if_true, taken.1, taken.2]
    cases more with
    | nil => exact (long rfl).elim
    | cons second more => simp only [Lexing.charOutcome, means]

theorem string (contents : Bytes) :
    Lexes (Node.printString contents) (.string (Escape.encode contents)) := by
  refine ⟨stringQuote, Escape.encode contents ++ [stringQuote], rfl, by decide, by decide, ?_⟩
  intro rest boundary
  have quote (text : Bytes) : Lexing.ofText stringQuote text = Lexing.string text := rfl
  rw [quote, Lexing.string, List.append_assoc, List.singleton_append, Escape.splitString_encode]
  rfl

end Lexes

/-! ## Names that were found -/

namespace Lexing

theorem charOutcome_ne_symbol {first : UInt8} {more name : Bytes} :
    charOutcome first more ≠ .ok (.symbol name) := by
  unfold charOutcome
  split
  · nofun
  · split <;> nofun

/-- An atom that is read as a symbol is its name, and no other lexeme gives one. -/
theorem lexes_of_symbol {first : UInt8} {text name : Bytes} (notBlank : isBlank first = false)
    (noComment : first ≠ commentMark) (read : (ofText first text).outcome = .ok (.symbol name)) :
    Lexes name (.symbol name) := by
  unfold ofText at read
  split at read
  · cases read
  next notOpen =>
  split at read
  · cases read
  next notClose =>
  split at read
  · cases read
  next notTick =>
  split at read
  · cases read
  next notQuasi =>
  split at read
  · unfold string at read
    split at read <;> cases read
  next notQuote =>
  split at read
  · unfold character at read
    split at read
    · cases read
    · split at read
      · split at read
        · cases read
        · exact (charOutcome_ne_symbol read).elim
      · cases read
  next notSign =>
  have begins : isConstituent first = true :=
    isConstituent_iff.2 ⟨notBlank, noComment, notOpen, notClose, notTick, notQuote,
      Bool.not_eq_true _ ▸ notQuasi⟩
  have outcome : atomOutcome (first :: text.takeWhile isConstituent) = .ok (.symbol name) := read
  have same : first :: text.takeWhile isConstituent = name := by
    unfold atomOutcome at outcome
    split at outcome
    · cases outcome
    · split at outcome
      · cases outcome
      · cases outcome
      · split at outcome <;> cases outcome
        rfl
  rw [same] at outcome
  apply Lexes.of_atom _ _ _ outcome
  · rw [← same]
    exact List.cons_ne_nil _ _
  · rw [← same, List.all_cons, begins]
    exact List.all_takeWhile
  · rw [← same]
    intro signed
    exact notSign (Option.some.inj signed)

end Lexing

theorem Blank.begins_of_split {first : UInt8} {text : Bytes}
    (kept : split (first :: text) = ([], first :: text)) :
    isBlank first = false ∧ first ≠ commentMark := by
  rw [split, splitFrom] at kept
  split at kept
  · cases congrArg Prod.fst kept
  · next ordinary =>
      simp only [Bool.false_or, Bool.or_eq_true, beq_iff_eq, not_or, Bool.not_eq_true] at ordinary
      exact ordinary

namespace Cursor.Finds

theorem exists_lexing {token : Token} (found : Finds token) :
    Exists fun first => Exists fun text => isBlank first = false ∧ first ≠ commentMark ∧
      (Lexing.ofText first text).outcome = .ok token.lexeme := by
  rcases found with ⟨cursor, after, found⟩
  have kept := Blank.split_rest cursor.rest
  rw [next_eq_scanHere, skipBlank, move, scanHere] at found
  cases left : (Blank.split cursor.rest).2 with
  | nil =>
      rw [left] at found
      cases found
  | cons first text =>
      rw [left] at found kept
      have begins := Blank.begins_of_split kept
      refine ⟨first, text, begins.1, begins.2, ?_⟩
      cases read : (Lexing.ofText first text).outcome with
      | error error => simp [read] at found
      | ok lexeme =>
          simp only [read, Prod.mk.injEq, Scan.token.injEq] at found
          rw [← found.1]

/-- A name that was found in a text spells itself. -/
theorem lexes {token : Token} {name : Bytes} (found : Finds token)
    (named : token.lexeme.name? = some name) : Lexes name token.lexeme := by
  rcases found.exists_lexing with ⟨first, text, notBlank, noComment, read⟩
  cases lexeme : token.lexeme with
  | word keyword =>
      rw [lexeme] at named
      cases named
      exact Lexes.word keyword
  | symbol label =>
      rw [lexeme] at named read
      cases named
      exact Lexing.lexes_of_symbol notBlank noComment read
  | _ =>
      rw [lexeme] at named
      cases named

end Cursor.Finds

end TailLisp
