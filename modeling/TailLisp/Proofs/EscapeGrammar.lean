import TailLisp.Proofs.Literals

namespace TailLisp

/-!
The grammar of escapes.

The raw text of a string is a sequence of glyphs.  A glyph is a byte other
than the backslash, or a backslash with what it introduces: a letter for one
byte, a mark with pairs of hexadecimal digits, or up to three octal digits.
Decoding accepts exactly the texts that are such sequences, where an octal
glyph is taken as long as possible, and a text is such a sequence in at most
one way.
-/

open ByteClass

namespace Escape

/-! ## Glyphs -/

/-- A digit of a base with its value. -/
structure Digit (base : Nat) where
  byte : UInt8
  value : Nat
  isDigit : Numeral.IsDigit base byte value

/-- The bytes that stand for one byte after a backslash, and the codes of the
bytes that they stand for. -/
def simple : List (UInt8 × UInt8) :=
  (Bytes.ofText "'\"?\\abfnrtv").zip [39, 34, 63, 92, 7, 8, 12, 10, 13, 9, 11]

/-- The marks of hexadecimal digits, with the number of pairs behind them. -/
def marks : List (UInt8 × Nat) :=
  [('x'.toUInt8, 1), ('u'.toUInt8, 2), ('U'.toUInt8, 4)]

/-- The smallest pieces of raw text that stand for bytes. -/
inductive Glyph where
  | plain (byte : UInt8) (notMark : byte ≠ backslash)
  | letter (name byte : UInt8) (listed : (name, byte) ∈ simple)
  | hexadecimal (mark : UInt8) (pairs : List (Digit 16 × Digit 16))
      (counted : (mark, pairs.length) ∈ marks)
  | octal (first : Digit 8) (others : List (Digit 8)) (few : others.length <= 2)

/-- The two digits of a pair. -/
def spellPair (pair : Digit 16 × Digit 16) : Bytes :=
  [pair.1.byte, pair.2.byte]

/-- The byte that a pair of digits writes. -/
def pairByte (pair : Digit 16 × Digit 16) : UInt8 :=
  (16 * pair.1.value + pair.2.value).toUInt8

namespace Glyph

/-- The raw text of a glyph. -/
def spelling : Glyph -> Bytes
  | plain byte _ => [byte]
  | letter name _ _ => [backslash, name]
  | hexadecimal mark pairs _ => backslash :: mark :: pairs.flatMap spellPair
  | octal first others _ => backslash :: first.byte :: others.map Digit.byte

/-- The bytes that a glyph stands for.  An octal number counts modulo 256. -/
def bytes : Glyph -> Bytes
  | plain byte _ => [byte]
  | letter _ byte _ => [byte]
  | hexadecimal _ pairs _ => pairs.map pairByte
  | octal first others _ =>
      [(Nat.ofDigits 8 ((first :: others).map Digit.value).reverse % 256).toUInt8]

/-- An octal glyph with room for a further digit is not followed by one. -/
def Stops (rest : Bytes) : Glyph -> Prop
  | octal _ others _ =>
      others.length < 2 -> forall byte, rest.head? = some byte ->
        ¬ Exists fun value => Numeral.IsDigit 8 byte value
  | _ => True

end Glyph

/-- The raw text is a sequence of glyphs, each taken as long as possible. -/
inductive Splits : List Glyph -> Bytes -> Prop
  | nil : Splits [] []
  | cons {glyph : Glyph} {glyphs : List Glyph} {rest : Bytes} (stops : glyph.Stops rest)
      (splits : Splits glyphs rest) : Splits (glyph :: glyphs) (glyph.spelling ++ rest)

/-! ## Reading one glyph -/

/-- The bytes of the first glyph of a text, and the text after it. -/
def unit? : Bytes -> Option (Bytes × Bytes)
  | [] => none
  | byte :: text =>
      if byte = backslash then
        match text with
        | [] => none
        | letter :: text => sequence letter text
      else
        some ([byte], text)

theorem decode_of_unit? {raw bytes after : Bytes} (read : unit? raw = some (bytes, after)) :
    decode raw = (decode after).map (bytes ++ ·) := by
  unfold unit? at read
  split at read
  · cases read
  split at read
  · next isMark =>
      rw [isMark]
      split at read
      · cases read
      · exact decode_escape read
  · next notMark =>
      cases read
      exact decode_plain after notMark

theorem decode_of_unit?_eq_none {raw : Bytes} (nonempty : raw ≠ []) (read : unit? raw = none) :
    decode raw = none := by
  unfold unit? at read
  split at read
  · exact (nonempty rfl).elim
  split at read
  · next isMark =>
      rw [isMark, decode.eq_def]
      split at read
      · rfl
      · simp only [if_true]
        split
        · rfl
        · next found => cases read.symm.trans found
  · cases read

theorem lookup_letters_iff {name byte : UInt8} :
    letters.lookup name = some byte ↔ (name, byte) ∈ simple := by
  have same : letters = simple := rfl
  constructor
  · intro found
    rcases List.lookup_eq_some_iff.1 found with ⟨before, after, whole, _⟩
    rw [← same, whole]
    simp
  · have listed : simple.all (fun entry => letters.lookup entry.1 == some entry.2) := by decide
    intro member
    exact beq_iff_eq.1 (List.all_eq_true.1 listed _ member)

theorem sequence_mark {mark : UInt8} {count : Nat} (counted : (mark, count) ∈ marks)
    (text : Bytes) : sequence mark text = hexBytes count text := by
  simp only [marks, List.mem_cons, Prod.mk.injEq, List.not_mem_nil, or_false] at counted
  rcases counted with ⟨isMark, one⟩ | ⟨isMark, two⟩ | ⟨isMark, four⟩
  · rw [isMark, one]
    rfl
  · rw [isMark, two]
    rfl
  · rw [isMark, four]
    rfl

namespace Digit

theorem digitValue? {base : Nat} (small : base <= 16) (digit : Digit base) :
    ByteClass.digitValue? base digit.byte = some digit.value :=
  (Numeral.digitValue?_eq_some_iff small).2 digit.isDigit

theorem hexValue? (digit : Digit 16) : ByteClass.hexValue? digit.byte = some digit.value :=
  Numeral.hexValue?_eq_some_iff.2 digit.isDigit

theorem eq_of_byte_eq {base : Nat} (small : base <= 16) {digit other : Digit base}
    (same : digit.byte = other.byte) : digit = other := by
  have value := digit.digitValue? small
  rw [same, other.digitValue? small] at value
  cases digit
  cases other
  cases same
  cases value
  rfl

/-- No digit is a backslash. -/
theorem ne_backslash {base : Nat} (small : base <= 16) (digit : Digit base) :
    digit.byte ≠ backslash := by
  intro same
  have value := digit.digitValue? small
  rw [same] at value
  cases value

/-- An octal digit is neither a letter nor a mark. -/
theorem ne_mark (digit : Digit 8) :
    letters.lookup digit.byte = none ∧ digit.byte ≠ 'x'.toUInt8 ∧ digit.byte ≠ 'u'.toUInt8 ∧
      digit.byte ≠ 'U'.toUInt8 := by
  have isDigit := digit.isDigit
  generalize digit.byte = byte at isDigit
  generalize digit.value = value at isDigit
  apply isDigit.of_listed
  decide +kernel

theorem not_listed (digit : Digit 8) {byte : UInt8} : (digit.byte, byte) ∉ simple := by
  intro listed
  cases digit.ne_mark.1.symm.trans (lookup_letters_iff.2 listed)

theorem not_counted (digit : Digit 8) {count : Nat} : (digit.byte, count) ∉ marks := by
  simp [marks, digit.ne_mark.2]

end Digit

theorem not_counted_of_listed {name byte : UInt8} {count : Nat} (listed : (name, byte) ∈ simple) :
    (name, count) ∉ marks := by
  have distinct : simple.all fun entry => marks.all fun mark => entry.1 != mark.1 := by decide
  intro counted
  have apart := List.all_eq_true.1 (List.all_eq_true.1 distinct _ listed) _ counted
  exact bne_iff_ne.1 apart rfl

theorem hexBytes_append (pairs : List (Digit 16 × Digit 16)) (rest : Bytes) :
    hexBytes pairs.length (pairs.flatMap spellPair ++ rest) = some (pairs.map pairByte, rest) := by
  induction pairs with
  | nil => rfl
  | cons pair pairs inductionHypothesis =>
      rw [List.length_cons, List.flatMap_cons, List.append_assoc, spellPair, List.cons_append,
        List.singleton_append, hexBytes, pair.1.hexValue?, pair.2.hexValue?, inductionHypothesis]
      rfl

theorem exists_pairs_of_hexBytes {count : Nat} {text bytes after : Bytes}
    (read : hexBytes count text = some (bytes, after)) :
    Exists fun pairs : List (Digit 16 × Digit 16) =>
      pairs.length = count ∧ text = pairs.flatMap spellPair ++ after ∧
        pairs.map pairByte = bytes := by
  fun_induction hexBytes count text generalizing bytes after with
  | case1 text =>
      cases read
      exact ⟨[], rfl, rfl, rfl⟩
  | case2 count high low text inductionHypothesis =>
      simp only [Option.bind_eq_bind, Option.bind_eq_some_iff, Option.pure_def,
        Option.some.injEq, Prod.mk.injEq] at read
      rcases read with ⟨upper, isHigh, lower, isLow, ⟨later, _⟩, found, same, rfl⟩
      rcases inductionHypothesis found with ⟨pairs, length, whole, meant⟩
      refine ⟨(⟨high, upper, Numeral.hexValue?_eq_some_iff.1 isHigh⟩,
        ⟨low, lower, Numeral.hexValue?_eq_some_iff.1 isLow⟩) :: pairs, ?_, ?_, ?_⟩
      · rw [List.length_cons, length]
      · rw [whole]
        rfl
      · rw [List.map_cons, meant, ← same]
        rfl
  | case3 => cases read

/-- The octal number that digits write behind a number. -/
def octalValue (number : Nat) (digits : List (Digit 8)) : Nat :=
  digits.foldl (fun total digit => 8 * total + digit.value) number

theorem ofDigits_eq_octalValue (digits : List (Digit 8)) :
    Nat.ofDigits 8 (digits.map Digit.value).reverse = octalValue 0 digits := by
  rw [Nat.ofDigits_eq_foldr, List.foldr_reverse, List.foldl_map, octalValue]
  simp only [Nat.cast_id, Nat.add_comm]

/-- The number is kept modulo 256 from digit to digit. -/
theorem toUInt8_octal (number value : Nat) :
    (8 * number + value).toUInt8 = 8 * number.toUInt8 + value.toUInt8 := by
  simp [Nat.toUInt8_eq, UInt8.ofNat_add, UInt8.ofNat_mul]

theorem octalFrom_append {count : Nat} {digits : List (Digit 8)} {rest : Bytes} (number : Nat)
    (few : digits.length <= count)
    (stops : digits.length < count -> forall byte, rest.head? = some byte ->
      ¬ Exists fun value => Numeral.IsDigit 8 byte value) :
    octalFrom count number.toUInt8 (digits.map Digit.byte ++ rest) =
      ((octalValue number digits).toUInt8, rest) := by
  induction digits generalizing count number with
  | nil =>
      rw [List.map_nil, List.nil_append]
      rcases count with _ | count
      · rfl
      rcases rest with _ | ⟨byte, rest⟩
      · rfl
      have noDigit : digitValue? 8 byte = none := by
        rw [Option.eq_none_iff_forall_ne_some]
        intro value found
        exact stops (Nat.succ_pos count) byte rfl
          ⟨value, (Numeral.digitValue?_eq_some_iff (by decide)).1 found⟩
      rw [octalFrom, noDigit]
      rfl
  | cons digit digits inductionHypothesis =>
      rcases count with _ | count
      · exact absurd few (by simp)
      · rw [List.map_cons, List.cons_append, octalFrom, digit.digitValue? (by decide)]
        dsimp only
        rw [← toUInt8_octal]
        exact inductionHypothesis _ (Nat.le_of_succ_le_succ few)
          (fun shorter => stops (Nat.succ_lt_succ shorter))

theorem exists_digits_of_octalFrom {count : Nat} {text after : Bytes} {byte : UInt8} (number : Nat)
    (read : octalFrom count number.toUInt8 text = (byte, after)) :
    Exists fun digits : List (Digit 8) =>
      digits.length <= count ∧
      (digits.length < count -> forall byte, after.head? = some byte ->
        ¬ Exists fun value => Numeral.IsDigit 8 byte value) ∧
      text = digits.map Digit.byte ++ after ∧ (octalValue number digits).toUInt8 = byte := by
  induction count generalizing text number with
  | zero =>
      cases read
      exact ⟨[], Nat.le_refl 0, fun absurd => (Nat.not_lt_zero _ absurd).elim, rfl, rfl⟩
  | succ count inductionHypothesis =>
      rcases text with _ | ⟨first, text⟩
      · cases read
        exact ⟨[], Nat.zero_le _, fun _ _ nothing => (by cases nothing), rfl, rfl⟩
      rw [octalFrom] at read
      split at read
      · next value found =>
          rw [← toUInt8_octal] at read
          rcases inductionHypothesis _ read with ⟨digits, few, stops, whole, same⟩
          refine ⟨⟨first, value, (Numeral.digitValue?_eq_some_iff (by decide)).1 found⟩ :: digits,
            Nat.succ_le_succ few, fun shorter => stops (Nat.lt_of_succ_lt_succ shorter), ?_, same⟩
          rw [whole]
          rfl
      · next noDigit =>
          cases read
          refine ⟨[], Nat.zero_le _, ?_, rfl, rfl⟩
          rintro _ byte isNext ⟨value, isDigit⟩
          cases isNext
          rw [(Numeral.digitValue?_eq_some_iff (by decide)).2 isDigit] at noDigit
          cases noDigit

namespace Glyph

theorem bytes_octal (first : Digit 8) (others : List (Digit 8)) (few : others.length <= 2) :
    (octal first others few).bytes = [(octalValue first.value others).toUInt8] := by
  have appended : octalValue 0 (first :: others) = octalValue first.value others := by
    rw [octalValue, List.foldl_cons, Nat.mul_zero, Nat.zero_add, octalValue]
  rw [bytes, ofDigits_eq_octalValue, appended, Nat.toUInt8_eq, Nat.toUInt8_eq,
    UInt8.ofNat_mod_size]

/-- A glyph is read from the front of a text. -/
theorem unit?_spelling_append (glyph : Glyph) {rest : Bytes} (stops : glyph.Stops rest) :
    unit? (glyph.spelling ++ rest) = some (glyph.bytes, rest) := by
  cases glyph with
  | plain byte notMark => exact if_neg notMark
  | letter name byte listed =>
      have read : unit? ((letter name byte listed).spelling ++ rest) = sequence name rest := rfl
      rw [read, sequence, lookup_letters_iff.2 listed]
      rfl
  | hexadecimal mark pairs counted =>
      have read : unit? ((hexadecimal mark pairs counted).spelling ++ rest) =
          sequence mark (pairs.flatMap spellPair ++ rest) := rfl
      rw [read, sequence_mark counted, hexBytes_append]
      rfl
  | octal first others few =>
      have read : unit? ((octal first others few).spelling ++ rest) =
          sequence first.byte (others.map Digit.byte ++ rest) := rfl
      rcases first.ne_mark with ⟨noLetter, notOne, notTwo, notFour⟩
      rw [read, sequence, noLetter]
      simp only [if_neg notOne, if_neg notTwo, if_neg notFour, first.digitValue? (by decide),
        octalFrom_append first.value few stops, bytes_octal]

theorem exists_of_hexBytes {mark : UInt8} {count : Nat} {text bytes after : Bytes}
    (counted : (mark, count) ∈ marks) (read : hexBytes count text = some (bytes, after)) :
    Exists fun glyph : Glyph =>
      backslash :: mark :: text = glyph.spelling ++ after ∧ glyph.Stops after ∧
        glyph.bytes = bytes := by
  rcases exists_pairs_of_hexBytes read with ⟨pairs, length, whole, meant⟩
  rw [← length] at counted
  rw [whole]
  exact ⟨.hexadecimal mark pairs counted, rfl, trivial, meant⟩

theorem exists_of_sequence {name : UInt8} {text bytes after : Bytes}
    (read : sequence name text = some (bytes, after)) :
    Exists fun glyph : Glyph =>
      backslash :: name :: text = glyph.spelling ++ after ∧ glyph.Stops after ∧
        glyph.bytes = bytes := by
  unfold sequence at read
  split at read
  · next byte listed =>
      cases read
      exact ⟨.letter name byte (lookup_letters_iff.1 listed), rfl, trivial, rfl⟩
  split at read
  · next isMark => exact exists_of_hexBytes (by rw [isMark]; decide) read
  split at read
  · next isMark => exact exists_of_hexBytes (by rw [isMark]; decide) read
  split at read
  · next isMark => exact exists_of_hexBytes (by rw [isMark]; decide) read
  split at read
  · next value found =>
      cases read
      have run : octalFrom 2 value.toUInt8 text =
          ((octalFrom 2 value.toUInt8 text).1, (octalFrom 2 value.toUInt8 text).2) := rfl
      rcases exists_digits_of_octalFrom value run with ⟨digits, few, stops, whole, same⟩
      have isDigit := (Numeral.digitValue?_eq_some_iff (show 8 <= 16 by decide)).1 found
      refine ⟨.octal ⟨name, value, isDigit⟩ digits few, ?_, stops, ?_⟩
      · exact congrArg (backslash :: name :: ·) whole
      · rw [bytes_octal, same]
  · cases read

/-- What is read from the front of a text is a glyph. -/
theorem exists_of_unit? {raw bytes after : Bytes} (read : unit? raw = some (bytes, after)) :
    Exists fun glyph : Glyph =>
      raw = glyph.spelling ++ after ∧ glyph.Stops after ∧ glyph.bytes = bytes := by
  unfold unit? at read
  split at read
  · cases read
  split at read
  · next isMark =>
      rw [isMark]
      split at read
      · cases read
      · exact exists_of_sequence read
  · next notMark =>
      cases read
      exact ⟨.plain _ notMark, rfl, trivial, rfl⟩

theorem length_spelling_pos (glyph : Glyph) : 0 < glyph.spelling.length := by
  cases glyph <;> exact Nat.succ_pos _

theorem pairs_eq_of_spelling_eq {pairs others : List (Digit 16 × Digit 16)}
    (same : pairs.flatMap spellPair = others.flatMap spellPair) : pairs = others := by
  induction pairs generalizing others with
  | nil =>
      cases others with
      | nil => rfl
      | cons => cases same
  | cons pair pairs inductionHypothesis =>
      cases others with
      | nil => cases same
      | cons other others =>
          simp only [List.flatMap_cons, spellPair, List.cons_append, List.nil_append,
            List.cons.injEq] at same
          rcases same with ⟨high, low, later⟩
          rw [inductionHypothesis later, Prod.ext (Digit.eq_of_byte_eq (Nat.le_refl 16) high)
            (Digit.eq_of_byte_eq (Nat.le_refl 16) low)]

/-- A glyph is known by its raw text.  The byte behind the backslash tells
letters, marks and octal digits apart. -/
theorem spelling_injective {glyph other : Glyph} (same : glyph.spelling = other.spelling) :
    glyph = other := by
  have second := congrArg (fun text => text[1]?) same
  cases glyph with
  | plain byte notMark =>
      cases other <;> cases same
      rfl
  | letter name byte listed =>
      cases other with
      | plain => cases same
      | letter otherName otherByte otherListed =>
          cases same
          have found := lookup_letters_iff.2 listed
          rw [lookup_letters_iff.2 otherListed] at found
          cases found
          rfl
      | hexadecimal mark pairs counted =>
          cases second
          exact (not_counted_of_listed listed counted).elim
      | octal first others few => exact (first.not_listed (Option.some.inj second ▸ listed)).elim
  | hexadecimal mark pairs counted =>
      cases other with
      | plain => cases same
      | letter name byte listed =>
          cases second
          exact (not_counted_of_listed listed counted).elim
      | hexadecimal otherMark others otherCounted =>
          simp only [spelling, List.cons.injEq, true_and] at same
          rcases same with ⟨rfl, same⟩
          cases pairs_eq_of_spelling_eq same
          rfl
      | octal first others few => exact (first.not_counted (Option.some.inj second ▸ counted)).elim
  | octal first others few =>
      cases other with
      | plain => cases same
      | letter name byte listed =>
          exact (first.not_listed ((Option.some.inj second).symm ▸ listed)).elim
      | hexadecimal mark pairs counted =>
          exact (first.not_counted ((Option.some.inj second).symm ▸ counted)).elim
      | octal otherFirst otherOthers otherFew =>
          simp only [spelling, List.cons.injEq, true_and] at same
          rcases same with ⟨sameFirst, sameOthers⟩
          cases Digit.eq_of_byte_eq (by decide) sameFirst
          cases List.map_injective_iff.2 (fun _ _ => Digit.eq_of_byte_eq (by decide)) sameOthers
          rfl

end Glyph

/-! ## Sequences of glyphs -/

theorem Splits.decode {glyphs : List Glyph} {raw : Bytes} (splits : Splits glyphs raw) :
    Escape.decode raw = some (glyphs.flatMap Glyph.bytes) := by
  induction splits with
  | nil => exact decode_nil
  | @cons glyph glyphs rest stops _ inductionHypothesis =>
      rw [decode_of_unit? (glyph.unit?_spelling_append stops), inductionHypothesis]
      rfl

theorem exists_splits_of_decode {raw contents : Bytes} (decoded : decode raw = some contents) :
    Exists fun glyphs => Splits glyphs raw ∧ contents = glyphs.flatMap Glyph.bytes := by
  induction length : raw.length using Nat.strongRecOn generalizing raw contents with
  | ind size inductionHypothesis =>
      by_cases nothing : raw = []
      · rw [nothing, decode_nil] at decoded
        cases decoded
        rw [nothing]
        exact ⟨[], .nil, rfl⟩
      cases read : unit? raw with
      | none =>
          rw [decode_of_unit?_eq_none nothing read] at decoded
          cases decoded
      | some pair =>
          rcases pair with ⟨bytes, after⟩
          rw [decode_of_unit? read] at decoded
          rcases Option.map_eq_some_iff.1 decoded with ⟨later, decodedLater, same⟩
          rcases Glyph.exists_of_unit? read with ⟨glyph, whole, stops, meant⟩
          have shorter : after.length < size := by
            rw [← length, whole, List.length_append]
            exact Nat.lt_add_of_pos_left glyph.length_spelling_pos
          rcases inductionHypothesis _ shorter decodedLater rfl with ⟨glyphs, splits, meantLater⟩
          rw [whole]
          refine ⟨glyph :: glyphs, .cons stops splits, ?_⟩
          rw [← same, List.flatMap_cons, meant, meantLater]

theorem Splits.unique {glyphs others : List Glyph} {raw : Bytes} (splits : Splits glyphs raw)
    (again : Splits others raw) : glyphs = others := by
  induction splits generalizing others with
  | nil =>
      generalize ended : [] = raw at again
      cases again with
      | nil => rfl
      | @cons other _ rest =>
          have nonempty := other.length_spelling_pos
          rw [(List.append_eq_nil_iff.1 ended.symm).1] at nonempty
          cases nonempty
  | @cons glyph glyphs rest stops _ inductionHypothesis =>
      generalize whole : glyph.spelling ++ rest = raw at again
      have read := glyph.unit?_spelling_append stops
      cases again with
      | nil =>
          have nonempty := glyph.length_spelling_pos
          rw [(List.append_eq_nil_iff.1 whole).1] at nonempty
          cases nonempty
      | @cons other later otherRest otherStops later =>
          -- Both glyphs are what is read from the front, so they leave the same rest.
          rw [whole, other.unit?_spelling_append otherStops] at read
          cases (congrArg Prod.snd (Option.some.inj read) : otherRest = rest)
          have same := Glyph.spelling_injective (List.append_cancel_right whole)
          rw [same, inductionHypothesis later]

end Escape

end TailLisp
