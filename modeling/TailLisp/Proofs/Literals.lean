import TailLisp.Node.Printer
import TailLisp.Proofs.Numerals

namespace TailLisp

/-!
Literals.

What the printer writes for a number, a string or a character is read back as
that value.  The statements here are about the texts alone; how a lexeme is
cut out of a longer text is a matter of its own.
-/

open ByteClass

/-! ## Numerals -/

namespace Bytes

/-- The byte of a decimal digit. -/
def digit (value : Nat) : UInt8 :=
  (Nat.digitChar value).toUInt8

theorem ofNat_of_lt {number : Nat} (small : number < 10) : ofNat number = [digit number] := by
  rw [ofNat, Nat.toDigits_of_lt_base small]
  rfl

theorem ofNat_of_le {number : Nat} (large : 10 <= number) :
    ofNat number = ofNat (number / 10) ++ [digit (number % 10)] := by
  rw [ofNat, Nat.toDigits_of_base_le (by decide) large, List.map_append]
  rfl

theorem ofNat_ne_nil (number : Nat) : ofNat number ≠ [] := by
  intro nothing
  exact Nat.toDigits_ne_nil (List.map_eq_nil_iff.1 nothing)

/-- A decimal text consists of digits. -/
theorem exists_digit_of_mem_ofNat {number : Nat} {byte : UInt8} (member : byte ∈ ofNat number) :
    Exists fun value => value < 10 ∧ byte = digit value := by
  induction number using Nat.strongRecOn with
  | ind number inductionHypothesis =>
      by_cases small : number < 10
      · rw [ofNat_of_lt small] at member
        exact ⟨number, small, List.mem_singleton.1 member⟩
      · have large : 10 <= number := Nat.le_of_not_lt small
        rw [ofNat_of_le large, List.mem_append, List.mem_singleton] at member
        rcases member with earlier | last
        · exact inductionHypothesis (number / 10) (by omega) earlier
        · exact ⟨number % 10, Nat.mod_lt _ (by decide), last⟩

end Bytes

namespace Numeral

theorem isDigit_digit {value : Nat} (small : value < 10) :
    IsDigit 10 (Bytes.digit value) value := by
  have listed : forall value, value < 10 ->
      (Bytes.ofText "0123456789abcdef")[value]? = some (Bytes.digit value) := by
    decide
  exact ⟨small, .inl (listed value small)⟩

/-- The digits of a number give the number. -/
theorem exists_digits_ofNat (number : Nat) :
    Exists fun values => List.Forall₂ (IsDigit 10) (Bytes.ofNat number) values ∧
      Nat.ofDigits 10 values.reverse = number := by
  induction number using Nat.strongRecOn with
  | ind number inductionHypothesis =>
      by_cases small : number < 10
      · rw [Bytes.ofNat_of_lt small]
        exact ⟨[number], .cons (isDigit_digit small) .nil, by simp⟩
      · have large : 10 <= number := Nat.le_of_not_lt small
        have last : number % 10 < 10 := Nat.mod_lt _ (by decide)
        rcases inductionHypothesis (number / 10) (by omega) with ⟨values, digits, whole⟩
        rw [Bytes.ofNat_of_le large]
        refine ⟨values ++ [number % 10],
          List.rel_append digits (.cons (isDigit_digit last) .nil), ?_⟩
        rw [List.reverse_append, List.reverse_singleton, List.singleton_append,
          Nat.ofDigits_cons, whole]
        omega

/-- The decimal text of an integer denotes it. -/
theorem denotes_ofInt (number : Int) : Denotes (Bytes.ofInt number) number := by
  have decimal (magnitude : Nat) : Unsigned (Bytes.ofNat magnitude) magnitude := by
    rcases exists_digits_ofNat magnitude with ⟨values, digits, whole⟩
    have written := Unsigned.decimal (Bytes.ofNat_ne_nil magnitude) digits
    rwa [whole] at written
  cases number with
  | ofNat magnitude => exact .unsigned (decimal magnitude)
  | negSucc lower => exact .minus (decimal (lower + 1))

end Numeral

/-! ## Strings -/

namespace Lexing

theorem splitString_quote (text : Bytes) : splitString (stringQuote :: text) = some ([], text) := by
  rw [splitString.eq_def]
  exact if_pos rfl

theorem splitString_shielded (byte : UInt8) (text : Bytes) :
    splitString (backslash :: byte :: text) =
      (splitString text).map fun parts => (backslash :: byte :: parts.1, parts.2) := by
  rw [splitString, if_neg (by decide), if_pos rfl]

theorem splitString_plain {byte : UInt8} (text : Bytes) (notQuote : byte ≠ stringQuote)
    (notMark : byte ≠ backslash) :
    splitString (byte :: text) =
      (splitString text).map fun parts => (byte :: parts.1, parts.2) := by
  rw [splitString.eq_def]
  simp only [if_neg notQuote, if_neg notMark]

end Lexing

namespace Escape

theorem decode_nil : decode [] = some [] := by
  rw [decode]

theorem decode_plain {byte : UInt8} (text : Bytes) (notMark : byte ≠ backslash) :
    decode (byte :: text) = (decode text).map (byte :: ·) := by
  rw [decode.eq_def]
  simp only [if_neg notMark]

theorem decode_escape {letter : UInt8} {text bytes after : Bytes}
    (read : sequence letter text = some (bytes, after)) :
    decode (backslash :: letter :: text) = (decode after).map (bytes ++ ·) := by
  rw [decode, if_pos rfl]
  split
  · next none => cases none.symm.trans read
  · next same =>
      cases same.symm.trans read
      rfl

/-- A hexadecimal digit that the printer writes. -/
theorem hexValue?_hexDigit {value : Nat} (small : value < 16) :
    hexValue? (hexDigit value) = some value ∧
      hexDigit value ≠ stringQuote ∧ hexDigit value ≠ backslash := by
  revert value
  decide

/-- A byte is written as itself, as a letter that means it behind a backslash,
or as `x` with the two digits of its value. -/
theorem encodeByte_cases (byte : UInt8) :
    (encodeByte byte = [byte] ∧ byte ≠ stringQuote ∧ byte ≠ backslash) ∨
      (Exists fun letter => encodeByte byte = [backslash, letter] ∧
        letters.lookup letter = some byte) ∨
      encodeByte byte =
        [backslash, 'x'.toUInt8, hexDigit (byte.toNat / 16), hexDigit (byte.toNat % 16)] := by
  unfold encodeByte
  split
  · next special =>
      right; left
      refine ⟨byte, rfl, ?_⟩
      rw [Bool.or_eq_true, decide_eq_true_eq, decide_eq_true_eq] at special
      rcases special with same | same
      · rw [same]
        decide
      · rw [same]
        decide
  · next ordinary =>
      rw [Bool.or_eq_true, decide_eq_true_eq, decide_eq_true_eq, not_or] at ordinary
      split
      · next same => exact .inr (.inl ⟨_, rfl, by rw [same]; decide⟩)
      split
      · next same => exact .inr (.inl ⟨_, rfl, by rw [same]; decide⟩)
      split
      · next same => exact .inr (.inl ⟨_, rfl, by rw [same]; decide⟩)
      split
      · exact .inr (.inr rfl)
      · exact .inl ⟨rfl, ordinary⟩

theorem upper_lt (byte : UInt8) : byte.toNat / 16 < 16 := by
  have bounded := byte.toNat_lt
  omega

theorem hexDigits_byte (byte : UInt8) :
    (16 * (byte.toNat / 16) + byte.toNat % 16).toUInt8 = byte := by
  have whole : 16 * (byte.toNat / 16) + byte.toNat % 16 = byte.toNat := by omega
  rw [whole]
  exact UInt8.ofNat_toNat

/-- A string literal ends at its own closing quote. -/
theorem splitString_encode (contents rest : Bytes) :
    Lexing.splitString (encode contents ++ stringQuote :: rest) =
      some (encode contents, rest) := by
  induction contents with
  | nil => exact Lexing.splitString_quote rest
  | cons byte contents inductionHypothesis =>
      rw [encode] at inductionHypothesis
      rw [encode, List.flatMap_cons, List.append_assoc]
      rcases encodeByte_cases byte with ⟨plain, notQuote, notMark⟩ | ⟨letter, escaped, _⟩ | escaped
      · rw [plain, List.singleton_append, Lexing.splitString_plain _ notQuote notMark,
          inductionHypothesis]
        rfl
      · rw [escaped, List.cons_append, List.singleton_append, Lexing.splitString_shielded,
          inductionHypothesis]
        rfl
      · have high := hexValue?_hexDigit (upper_lt byte)
        have low := hexValue?_hexDigit (Nat.mod_lt byte.toNat (by decide))
        rw [escaped, List.cons_append, List.cons_append, List.cons_append, List.singleton_append,
          Lexing.splitString_shielded, Lexing.splitString_plain _ high.2.1 high.2.2,
          Lexing.splitString_plain _ low.2.1 low.2.2, inductionHypothesis]
        rfl

/-- Decoding undoes encoding. -/
theorem decode_encode (contents : Bytes) : decode (encode contents) = some contents := by
  induction contents with
  | nil => exact decode_nil
  | cons byte contents inductionHypothesis =>
      rw [encode] at inductionHypothesis
      rw [encode, List.flatMap_cons]
      rcases encodeByte_cases byte with ⟨plain, _, notMark⟩ | ⟨letter, escaped, means⟩ | escaped
      · rw [plain, List.singleton_append, decode_plain _ notMark, inductionHypothesis]
        rfl
      · have read (text : Bytes) : sequence letter text = some ([byte], text) := by
          rw [sequence, means]
        rw [escaped, List.cons_append, List.singleton_append, decode_escape (read _),
          inductionHypothesis]
        rfl
      · have high := hexValue?_hexDigit (upper_lt byte)
        have low := hexValue?_hexDigit (Nat.mod_lt byte.toNat (by decide))
        have read (text : Bytes) :
            sequence 'x'.toUInt8
                (hexDigit (byte.toNat / 16) :: hexDigit (byte.toNat % 16) :: text) =
              some ([byte], text) := by
          have isHex (digits : Bytes) : sequence 'x'.toUInt8 digits = hexBytes 1 digits := rfl
          rw [isHex, hexBytes, high.1, low.1]
          simp only [hexBytes, Option.bind_eq_bind, Option.bind_some, hexDigits_byte]
          rfl
        rw [escaped, List.cons_append, List.cons_append, List.cons_append, List.singleton_append,
          decode_escape (read _), inductionHypothesis]
        rfl

end Escape

/-! ## Characters -/

namespace CharName

/-- The text of a character is the byte itself, or a name of at least two
constituents that is read as the character. -/
theorem spelling_cases (char : UInt8) :
    spelling char = [char] ∨
      Exists fun first => Exists fun more =>
        spelling char = first :: more ∧ more ≠ [] ∧ value? (first :: more) = some char ∧
        (first :: more).all isConstituent = true := by
  unfold spelling
  split
  · next entry found =>
      have named : entry.2 = char := by simpa using List.find?_some found
      have listed := List.mem_of_find?_eq_some found
      right
      rw [← named]
      simp only [all, List.mem_cons, List.not_mem_nil, or_false] at listed
      rcases listed with same | same | same | same | same
      all_goals
        rw [same]
        exact ⟨_, _, rfl, by decide, by decide, by decide⟩
  · exact .inl rfl

end CharName

end TailLisp
