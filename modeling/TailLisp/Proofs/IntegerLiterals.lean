import TailLisp.Proofs.Spelling

namespace TailLisp

/-!
Integer literals are read exactly.

The text of an atom is an integer if and only if it is a numeral and the
integer that it denotes fits into 64 bits; it is then that integer.  A numeral
that does not fit is refused, and any other text is left to be a symbol.  On
the way no word wraps: each digit, each bound, each comparison and each total
is the number that it stands for.
-/

open ByteClass

namespace Numeral.Parts

/-- What is computed for a numeral is computed on words as on numbers.  The
steps are those that are reached: a digit is appended to the total of the
digits before it. -/
structure ComputesExactly (parts : Parts) : Prop where
  bound : (limit parts.negative).toNat = if parts.negative then 2 ^ 63 else 2 ^ 63 - 1
  base : parts.base.toUInt64.toNat = parts.base
  digits : forall digit, digit ∈ parts.digits -> digit.toUInt64.toNat = digit
  steps : forall before digit after total,
    parts.digits.map Nat.toUInt64 = before ++ digit :: after ->
    accumulate? (limit parts.negative) parts.base.toUInt64 before = some total ->
    AppendsExactly (limit parts.negative) parts.base.toUInt64 total digit
  /-- The last step keeps the total or negates it in two's complement. -/
  result : forall total,
    accumulate? (limit parts.negative) parts.base.toUInt64 (parts.digits.map Nat.toUInt64) =
      some total ->
    total.toNat = parts.magnitude ∧
      (if parts.negative then (0 - total).toInt64 else total.toInt64).toInt = parts.value

theorem WellFormed.computesExactly {parts : Parts} (wellFormed : parts.WellFormed) :
    parts.ComputesExactly where
  bound := toNat_limit parts.negative
  base := wellFormed.toNat_base
  digits _ member := (wellFormed.toNat_digit member).1
  steps _ digit _ _ whole _ := by
    have member : digit ∈ parts.digits.map Nat.toUInt64 := by
      rw [whole]
      simp
    exact appendsExactly wellFormed.base_pos (wellFormed.digit_le_limit member)
  result total accumulated := by
    rcases wellFormed.accumulate?_eq_some_iff.1 accumulated with ⟨magnitude, within⟩
    exact ⟨magnitude, by rw [toInt_signed within, magnitude, value]⟩

end Numeral.Parts

namespace Cursor

/-- The text that is printed for an integer is one token. -/
theorem tokens_print_integer {Symbol : Type} (name : Symbol -> Bytes) (mark : Mark)
    (word : Int64) :
    Exists fun pos => Exists fun after => (ofText ((Node.integer mark word).print name)).tokens =
      ([⟨.start, .integer word⟩], .finish pos, after) := by
  have found := next_of_lexes (Lexes.integer word) Position.start Boundary.nil
  rw [List.append_nil] at found
  exact tokens_eq_finish_iff.2 ⟨_, .cons found (.nil _), rfl⟩

end Cursor

namespace Lexing

open Numeral

/-- A text denotes at most one integer.  It is read as that integer if it
fits, it is refused if it does not fit, and a text that denotes none is not
read as an integer.  No computation wraps, and what is printed for an integer
is read as that integer. -/
theorem integer_read_exactly (text : Bytes) :
    (forall number other, Denotes text number -> Denotes text other -> number = other) ∧
    (forall number, (Exists fun word => integer? text = .ok (some word) ∧ word.toInt = number) ↔
      Denotes text number ∧ Fits number) ∧
    (forall error, integer? text = .error error ↔
      error = .integerOutOfRange text ∧
        Exists fun number => Denotes text number ∧ ¬ Fits number) ∧
    (integer? text = .ok none ↔ ¬ Exists fun number => Denotes text number) ∧
    (forall parts, parts? text = some parts -> parts.ComputesExactly) ∧
    (forall (Symbol : Type) (name : Symbol -> Bytes) (mark : Mark) (word : Int64),
      integer? ((Node.integer mark word).print name) = .ok (some word) ∧
      Exists fun pos => Exists fun after =>
        (Cursor.ofText ((Node.integer mark word).print name)).tokens =
        ([⟨.start, .integer word⟩], .finish pos, after)) := by
  refine ⟨fun _ _ => Denotes.unique, ?_, fun _ => integer?_eq_error_iff, integer?_eq_none_iff,
    fun _ found => (denotes_of_parts? found).1.computesExactly, ?_⟩
  · intro number
    constructor
    · rintro ⟨word, read, same⟩
      rw [← same]
      exact ⟨integer?_eq_some_iff.1 read, fits_toInt word⟩
    · rintro ⟨denotes, fits⟩
      refine ⟨Int64.ofInt number, integer?_eq_some_iff.2 ?_, fits.toInt_ofInt⟩
      rwa [fits.toInt_ofInt]
  · intro Symbol name mark word
    exact ⟨integer?_eq_some_iff.2 (denotes_ofInt word.toInt),
      Cursor.tokens_print_integer name mark word⟩

/-- The least integer, in hexadecimal, is reached exactly by its last digit;
without its sign the numeral does not fit, and its mark alone is no numeral. -/
theorem integer_read_exactly_least :
    Denotes (Bytes.ofText "-0x8000000000000000") (-2 ^ 63) ∧
    (Exists fun number =>
      Denotes (Bytes.ofText "0x8000000000000000") number ∧ ¬ Fits number) ∧
    (¬ Exists fun number => Denotes (Bytes.ofText "-0x") number) ∧
    AppendsExactly (limit true) 16 0x800000000000000 0 := by
  have least := integer_read_exactly (Bytes.ofText "-0x8000000000000000")
  have taken : parts? (Bytes.ofText "-0x8000000000000000") =
      some ⟨true, 16, [8, 0, 0, 0, 0, 0, 0, 0, 0, 0, 0, 0, 0, 0, 0, 0]⟩ := rfl
  refine ⟨((least.2.1 (-2 ^ 63)).1 ⟨Int64.minValue, by decide +kernel, by decide⟩).1, ?_, ?_, ?_⟩
  · exact (((integer_read_exactly (Bytes.ofText "0x8000000000000000")).2.2.1 _).1 rfl).2
  · exact (integer_read_exactly (Bytes.ofText "-0x")).2.2.2.1.1 rfl
  · exact (least.2.2.2.2.1 _ taken).steps [8, 0, 0, 0, 0, 0, 0, 0, 0, 0, 0, 0, 0, 0, 0] 0 []
      0x800000000000000 rfl rfl

end Lexing

end TailLisp
