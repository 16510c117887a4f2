import TailLisp.Proofs.EscapeGrammar
import TailLisp.Proofs.Tiling

namespace TailLisp

/-!
Escaped bytes.

The scanner knows nothing of glyphs: it pairs each backslash with the byte
behind it in order to find the closing quote.  The decoder takes longer units
and pairs nothing.  Both agree on which bytes are escaped, because a glyph
escapes the byte behind its backslash and no digit is a backslash.  A decoder
that has read some glyphs of the raw text of a token is therefore never left
with a single backslash.
-/

open ByteClass

namespace Escape

/-! ## Pairing -/

/-- For each byte of a text, whether a backslash before it escapes it.  An
escaped backslash does not escape the byte behind it. -/
def shieldsFrom : Bool -> Bytes -> List Bool
  | _, [] => []
  | shielded, byte :: text => shielded :: shieldsFrom (!shielded && byte = backslash) text

/-- For each byte of a raw text, whether it is escaped. -/
def shields (raw : Bytes) : List Bool :=
  shieldsFrom false raw

theorem shields_plain {byte : UInt8} (notMark : byte ≠ backslash) (raw : Bytes) :
    shields (byte :: raw) = false :: shields raw := by
  simp [shields, shieldsFrom, notMark]

theorem shields_escaped (byte : UInt8) (raw : Bytes) :
    shields (backslash :: byte :: raw) = false :: true :: shields raw := by
  simp [shields, shieldsFrom]

/-- Of the bytes of a glyph, the one behind its backslash is escaped. -/
def Glyph.shields : Glyph -> List Bool
  | plain _ _ => [false]
  | glyph => false :: true :: List.replicate (glyph.spelling.length - 2) false

/-- A glyph is a single byte, or a backslash, the byte that it escapes, and
bytes that escape nothing. -/
theorem Glyph.spelling_cases (glyph : Glyph) :
    (Exists fun byte => byte ≠ backslash ∧ glyph.spelling = [byte] ∧ glyph.shields = [false]) ∨
      Exists fun name => Exists fun more =>
        (forall byte, byte ∈ more -> byte ≠ backslash) ∧
          glyph.spelling = backslash :: name :: more ∧
            glyph.shields = false :: true :: List.replicate more.length false := by
  cases glyph with
  | plain byte notMark => exact .inl ⟨byte, notMark, rfl, rfl⟩
  | letter name byte listed => exact .inr ⟨name, [], nofun, rfl, rfl⟩
  | hexadecimal mark pairs counted =>
      refine .inr ⟨mark, pairs.flatMap spellPair, ?_, rfl, rfl⟩
      intro byte member
      rcases List.mem_flatMap.1 member with ⟨pair, _, inPair⟩
      rcases List.mem_cons.1 inPair with same | inPair
      · rw [same]
        exact pair.1.ne_backslash (Nat.le_refl 16)
      · rw [List.mem_singleton.1 inPair]
        exact pair.2.ne_backslash (Nat.le_refl 16)
  | octal first others few =>
      refine .inr ⟨first.byte, others.map Digit.byte, ?_, rfl, rfl⟩
      intro byte member
      rcases List.mem_map.1 member with ⟨digit, _, same⟩
      rw [← same]
      exact digit.ne_backslash (by decide)

/-- A raw text ends in front of the first quote that is not escaped. -/
structure Closed (raw : Bytes) : Prop where
  inside : forall place, place ∈ raw.zip (shields raw) -> place.1 = stringQuote -> place.2 = true
  ending : shields (raw ++ [stringQuote]) = shields raw ++ [false]

namespace Closed

theorem nil : Closed [] where
  inside := nofun
  ending := by decide

theorem not_backslash : ¬ Closed [backslash] := by
  intro closed
  cases closed.ending

theorem plain_iff {byte : UInt8} (notMark : byte ≠ backslash) {raw : Bytes} :
    Closed (byte :: raw) ↔ byte ≠ stringQuote ∧ Closed raw := by
  constructor
  · rintro ⟨inside, ending⟩
    rw [shields_plain notMark, List.zip_cons_cons, List.forall_mem_cons] at inside
    rw [List.cons_append, shields_plain notMark, shields_plain notMark, List.cons_append] at ending
    exact ⟨fun isQuote => (by cases inside.1 isQuote), inside.2, List.tail_eq_of_cons_eq ending⟩
  · rintro ⟨notQuote, inside, ending⟩
    refine ⟨?_, ?_⟩
    · rw [shields_plain notMark, List.zip_cons_cons, List.forall_mem_cons]
      exact ⟨fun isQuote => (notQuote isQuote).elim, inside⟩
    · rw [List.cons_append, shields_plain notMark, shields_plain notMark, ending, List.cons_append]

theorem escaped_iff {byte : UInt8} {raw : Bytes} :
    Closed (backslash :: byte :: raw) ↔ Closed raw := by
  constructor
  · rintro ⟨inside, ending⟩
    rw [shields_escaped, List.zip_cons_cons, List.zip_cons_cons, List.forall_mem_cons,
      List.forall_mem_cons] at inside
    rw [List.cons_append, List.cons_append, shields_escaped, shields_escaped, List.cons_append,
      List.cons_append] at ending
    exact ⟨inside.2.2, List.tail_eq_of_cons_eq (List.tail_eq_of_cons_eq ending)⟩
  · rintro ⟨inside, ending⟩
    refine ⟨?_, ?_⟩
    · rw [shields_escaped, List.zip_cons_cons, List.zip_cons_cons, List.forall_mem_cons,
        List.forall_mem_cons]
      exact ⟨fun isQuote => absurd isQuote (by decide), fun _ => rfl, inside⟩
    · rw [List.cons_append, List.cons_append, shields_escaped, shields_escaped, ending,
        List.cons_append, List.cons_append]

end Closed

theorem Closed.splitString {raw : Bytes} (closed : Closed raw) (rest : Bytes) :
    Lexing.splitString (raw ++ stringQuote :: rest) = some (raw, rest) := by
  induction length : raw.length using Nat.strongRecOn generalizing raw with
  | ind size inductionHypothesis =>
      rcases raw with _ | ⟨byte, raw⟩
      · exact Lexing.splitString_quote rest
      by_cases isMark : byte = backslash
      · rcases raw with _ | ⟨shielded, raw⟩
        · rw [isMark] at closed
          exact (not_backslash closed).elim
        · rw [isMark] at closed ⊢
          have shorter : raw.length < size := by
            simp only [List.length_cons] at length
            omega
          rw [List.cons_append, List.cons_append, Lexing.splitString_shielded,
            inductionHypothesis _ shorter (escaped_iff.1 closed) rfl]
          rfl
      · rcases (plain_iff isMark).1 closed with ⟨notQuote, closed⟩
        have shorter : raw.length < size := by
          simp only [List.length_cons] at length
          omega
        rw [List.cons_append, Lexing.splitString_plain _ notQuote isMark,
          inductionHypothesis _ shorter closed rfl]
        rfl

/-- The scanner takes exactly the raw text up to the first quote that is not
escaped. -/
theorem splitString_eq_some_iff {text raw rest : Bytes} :
    Lexing.splitString text = some (raw, rest) ↔
      text = raw ++ stringQuote :: rest ∧ Closed raw := by
  constructor
  · intro found
    refine ⟨(Lexing.splitString_append found).symm, ?_⟩
    fun_induction Lexing.splitString text generalizing raw rest with
    | case1 => cases found
    | case2 text =>
        cases found
        exact .nil
    | case3 => cases found
    | case4 byte text _ inductionHypothesis =>
        rcases Option.map_eq_some_iff.1 found with ⟨⟨_, _⟩, inner, same⟩
        cases same
        exact Closed.escaped_iff.2 (inductionHypothesis inner)
    | case5 byte text notQuote notMark inductionHypothesis =>
        rcases Option.map_eq_some_iff.1 found with ⟨⟨_, _⟩, inner, same⟩
        cases same
        exact (Closed.plain_iff notMark).2 ⟨notQuote, inductionHypothesis inner⟩
  · rintro ⟨rfl, closed⟩
    exact closed.splitString rest

/-! ## Agreement of scanner and decoder -/

theorem shields_unmarked {more : Bytes} (unmarked : forall byte, byte ∈ more -> byte ≠ backslash)
    (rest : Bytes) :
    shields (more ++ rest) = List.replicate more.length false ++ shields rest := by
  induction more with
  | nil => rfl
  | cons byte more inductionHypothesis =>
      rcases List.forall_mem_cons.1 unmarked with ⟨notMark, unmarked⟩
      rw [List.cons_append, shields_plain notMark, inductionHypothesis unmarked]
      rfl

theorem shields_glyph (glyph : Glyph) (rest : Bytes) :
    shields (glyph.spelling ++ rest) = glyph.shields ++ shields rest := by
  rcases glyph.spelling_cases with
    ⟨byte, notMark, spelled, flags⟩ | ⟨name, more, unmarked, spelled, flags⟩
  · rw [spelled, flags, List.singleton_append, shields_plain notMark]
    rfl
  · rw [spelled, flags, List.cons_append, List.cons_append, shields_escaped,
      shields_unmarked unmarked]
    rfl

/-- Wherever some glyphs end, what follows is escaped as it is by itself. -/
theorem shields_glyphs (glyphs : List Glyph) (rest : Bytes) :
    shields (glyphs.flatMap Glyph.spelling ++ rest) =
      glyphs.flatMap Glyph.shields ++ shields rest := by
  induction glyphs with
  | nil => rfl
  | cons glyph glyphs inductionHypothesis =>
      rw [List.flatMap_cons, List.append_assoc, shields_glyph, inductionHypothesis,
        List.flatMap_cons, List.append_assoc]

namespace Closed

theorem of_unmarked {more rest : Bytes} (unmarked : forall byte, byte ∈ more -> byte ≠ backslash)
    (closed : Closed (more ++ rest)) : Closed rest := by
  induction more with
  | nil => exact closed
  | cons byte more inductionHypothesis =>
      rcases List.forall_mem_cons.1 unmarked with ⟨notMark, unmarked⟩
      exact inductionHypothesis unmarked ((plain_iff notMark).1 closed).2

theorem of_glyphs {glyphs : List Glyph} {rest : Bytes}
    (closed : Closed (glyphs.flatMap Glyph.spelling ++ rest)) : Closed rest := by
  induction glyphs with
  | nil => exact closed
  | cons glyph glyphs inductionHypothesis =>
      rw [List.flatMap_cons, List.append_assoc] at closed
      apply inductionHypothesis
      rcases glyph.spelling_cases with
        ⟨byte, notMark, spelled, _⟩ | ⟨name, more, unmarked, spelled, _⟩
      · rw [spelled] at closed
        exact ((plain_iff notMark).1 closed).2
      · rw [spelled] at closed
        exact of_unmarked unmarked (escaped_iff.1 closed)

end Closed

/-- The raw text of a string token is one that the scanner has cut out. -/
theorem closed_of_finds {token : Token} {raw : Bytes} (found : Cursor.Finds token)
    (isString : token.lexeme = .string raw) : Closed raw := by
  rcases found with ⟨cursor, after, found⟩
  rcases Cursor.exists_of_next_eq_token found with ⟨gap, text, _, isLexeme, _⟩
  rw [isString] at isLexeme
  cases isLexeme with
  | string taken => exact (splitString_eq_some_iff.1 taken).2
  | atom _ _ _ means => cases Lexing.isAtom_of_atomOutcome means

/-- Decoding accepts exactly the raw texts that are sequences of glyphs, each
of them in one way, and gives what the glyphs stand for.  In the raw text of a
token no glyphs are followed by a single backslash, and the bytes that the
scanner takes as escaped are those that the glyphs escape. -/
theorem decode_iff_splits :
    (forall raw contents, decode raw = some contents ↔
      Exists fun glyphs => Splits glyphs raw ∧ contents = glyphs.flatMap Glyph.bytes) ∧
    (forall raw glyphs others, Splits glyphs raw -> Splits others raw -> glyphs = others) ∧
    (forall raw, decode raw = none ↔ ¬ Exists fun glyphs => Splits glyphs raw) ∧
    (forall text raw rest, Lexing.splitString text = some (raw, rest) ↔
      text = raw ++ stringQuote :: rest ∧ Closed raw) ∧
    (forall token raw, Cursor.Finds token -> token.lexeme = .string raw ->
      Closed raw ∧
      forall (glyphs : List Glyph) rest, raw = glyphs.flatMap Glyph.spelling ++ rest ->
        rest ≠ [backslash] ∧ shields raw = glyphs.flatMap Glyph.shields ++ shields rest) := by
  have accepted (raw contents : Bytes) : decode raw = some contents ↔
      Exists fun glyphs => Splits glyphs raw ∧ contents = glyphs.flatMap Glyph.bytes := by
    constructor
    · exact exists_splits_of_decode
    · rintro ⟨glyphs, splits, rfl⟩
      exact splits.decode
  refine ⟨accepted, fun _ _ _ => Splits.unique, ?_, fun _ _ _ => splitString_eq_some_iff, ?_⟩
  · intro raw
    constructor
    · rintro refused ⟨glyphs, splits⟩
      cases refused.symm.trans splits.decode
    · intro unsplit
      rw [Option.eq_none_iff_forall_ne_some]
      intro contents decoded
      rcases exists_splits_of_decode decoded with ⟨glyphs, splits, _⟩
      exact unsplit ⟨glyphs, splits⟩
  · intro token raw found isString
    have closed := closed_of_finds found isString
    refine ⟨closed, ?_⟩
    rintro glyphs rest rfl
    refine ⟨?_, shields_glyphs glyphs rest⟩
    rintro rfl
    exact Closed.not_backslash closed.of_glyphs

/-- An octal number beyond a byte, a digit that is not octal, two bytes behind
one mark, and a backslash at the end that is itself escaped; against a text
whose last backslash escapes nothing. -/
theorem decode_iff_splits_wrapped :
    (Exists fun glyphs => Splits glyphs (Bytes.ofText "\\7778\\u4a4b\\\\") ∧
      [255, 56, 74, 75, 92] = glyphs.flatMap Glyph.bytes) ∧
    (¬ Exists fun glyphs => Splits glyphs (Bytes.ofText "\\18\\")) ∧
    Closed (Bytes.ofText "\\7778\\u4a4b\\\\") := by
  have found : Cursor.Finds ⟨.start, .string (Bytes.ofText "\\7778\\u4a4b\\\\")⟩ :=
    ⟨_, _, Cursor.next_of_isLexeme .nil (.string (by decide +kernel)) (fun _ => Boundary.nil)
      .start⟩
  have decoded : decode (Bytes.ofText "\\7778\\u4a4b\\\\") = some [255, 56, 74, 75, 92] := by
    rw [decode_of_unit? (show unit? _ = some ([255], Bytes.ofText "8\\u4a4b\\\\") by decide),
      decode_of_unit? (show unit? _ = some ([56], Bytes.ofText "\\u4a4b\\\\") by decide),
      decode_of_unit? (show unit? _ = some ([74, 75], Bytes.ofText "\\\\") by decide),
      decode_of_unit? (show unit? _ = some ([92], []) by decide), decode_nil]
    rfl
  have refused : decode (Bytes.ofText "\\18\\") = none := by
    rw [decode_of_unit? (show unit? _ = some ([1], Bytes.ofText "8\\") by decide),
      decode_of_unit? (show unit? _ = some ([56], Bytes.ofText "\\") by decide),
      decode_of_unit?_eq_none (by decide) (show unit? (Bytes.ofText "\\") = none by decide)]
    rfl
  exact ⟨(decode_iff_splits.1 _ _).1 decoded, (decode_iff_splits.2.2.1 _).1 refused,
    (decode_iff_splits.2.2.2.2 _ _ found rfl).1⟩

end Escape

end TailLisp
