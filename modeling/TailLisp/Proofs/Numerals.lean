import Mathlib.Data.List.Forall2
import Mathlib.Data.List.Induction
import Mathlib.Data.Nat.Digits.Defs
import Mathlib.Tactic.Ring
import TailLisp.Token.Cursor

namespace TailLisp

/-!
Numerals.

Which texts are numerals, and which integer each of them denotes, is said here
without an algorithm: a sign, a mark of the base and digits, each with the
value that its place among the digits of the base gives it.  Taking a text
apart succeeds on these texts and finds that integer.  The word arithmetic
behind it is exact: appending a digit succeeds if and only if the true
magnitude stays within the limit, and then no operation wraps.
-/

open ByteClass

/-! ## Texts and the integers they denote -/

namespace Numeral

/-- A byte is the digit with a value in a base of at most sixteen, in either
case. -/
def IsDigit (base : Nat) (byte : UInt8) (value : Nat) : Prop :=
  value < base ∧
    ((Bytes.ofText "0123456789abcdef")[value]? = some byte ∨
      (Bytes.ofText "0123456789ABCDEF")[value]? = some byte)

/-- A text without a sign and the number that it writes, the most significant
digit first. -/
inductive Unsigned : Bytes -> Nat -> Prop
  | decimal {text : Bytes} {values : List Nat} (nonempty : text ≠ [])
      (digits : List.Forall₂ (IsDigit 10) text values) :
      Unsigned text (Nat.ofDigits 10 values.reverse)
  | hexadecimal {mark : UInt8} {text : Bytes} {values : List Nat}
      (isMark : mark = 'x'.toUInt8 ∨ mark = 'X'.toUInt8) (nonempty : text ≠ [])
      (digits : List.Forall₂ (IsDigit 16) text values) :
      Unsigned ('0'.toUInt8 :: mark :: text) (Nat.ofDigits 16 values.reverse)

/-- A text and the integer that it denotes. -/
inductive Denotes : Bytes -> Int -> Prop
  | unsigned {text : Bytes} {number : Nat} (magnitude : Unsigned text number) :
      Denotes text number
  | plus {text : Bytes} {number : Nat} (magnitude : Unsigned text number) :
      Denotes ('+'.toUInt8 :: text) number
  | minus {text : Bytes} {number : Nat} (magnitude : Unsigned text number) :
      Denotes ('-'.toUInt8 :: text) (-number)

/-! ## Taking a text apart -/

/-- What holds of the digits of both cases holds of every digit. -/
theorem IsDigit.of_listed {base : Nat} {Property : Nat -> UInt8 -> Prop} {byte : UInt8}
    {value : Nat} (isDigit : IsDigit base byte value)
    (listed : forall value, value < base ->
      (forall byte, byte ∈ (Bytes.ofText "0123456789abcdef")[value]? -> Property value byte) ∧
      (forall byte, byte ∈ (Bytes.ofText "0123456789ABCDEF")[value]? -> Property value byte)) :
    Property value byte := by
  rcases isDigit with ⟨small, lower | upper⟩
  · exact (listed value small).1 byte lower
  · exact (listed value small).2 byte upper

theorem hexValue?_eq_some_iff {byte : UInt8} {value : Nat} :
    hexValue? byte = some value ↔ IsDigit 16 byte value := by
  constructor
  · have listed : forall code : Fin 256, forall value, value ∈ hexValue? (UInt8.ofNat code) ->
        value < 16 ∧ ((Bytes.ofText "0123456789abcdef")[value]? = some (UInt8.ofNat code) ∨
          (Bytes.ofText "0123456789ABCDEF")[value]? = some (UInt8.ofNat code)) := by
      decide +kernel
    intro found
    have same : UInt8.ofNat byte.toFin = byte := UInt8.ofNat_toNat
    have isDigit := listed byte.toFin value (by rw [same]; exact found)
    rwa [same] at isDigit
  · intro isDigit
    apply isDigit.of_listed
    decide +kernel

theorem digitValue?_eq_some_iff {base : Nat} (small : base <= 16) {byte : UInt8} {value : Nat} :
    digitValue? base byte = some value ↔ IsDigit base byte value := by
  rw [digitValue?, Option.filter_eq_some_iff, hexValue?_eq_some_iff, decide_eq_true_eq]
  constructor
  · intro found
    exact ⟨found.2, found.1.2⟩
  · intro isDigit
    exact ⟨⟨Nat.lt_of_lt_of_le isDigit.1 small, isDigit.2⟩, isDigit.1⟩

theorem mapM_digitValue?_eq_some_iff {base : Nat} (small : base <= 16) {digits : Bytes}
    {values : List Nat} :
    digits.mapM (digitValue? base) = some values ↔
      List.Forall₂ (IsDigit base) digits values := by
  induction digits generalizing values with
  | nil => simp [List.forall₂_nil_left_iff, eq_comm]
  | cons digit digits inductionHypothesis =>
      rw [List.mapM_cons, List.forall₂_cons_left_iff]
      simp only [Option.bind_eq_bind, Option.bind_eq_some_iff, Option.pure_def, Option.some.injEq,
        digitValue?_eq_some_iff small, inductionHypothesis]
      grind

/-- No digit of the base ten is a sign or a mark of another base. -/
theorem IsDigit.ne_mark {byte : UInt8} {value : Nat} (isDigit : IsDigit 10 byte value) :
    byte ≠ '-'.toUInt8 ∧ byte ≠ '+'.toUInt8 ∧ byte ≠ 'x'.toUInt8 ∧ byte ≠ 'X'.toUInt8 := by
  apply isDigit.of_listed
  decide +kernel

theorem radix_decimal {text : Bytes} {values : List Nat}
    (digits : List.Forall₂ (IsDigit 10) text values) : radix text = (10, text) := by
  unfold radix
  split
  · cases digits with
    | cons _ digits =>
        cases digits with
        | cons isDigit _ =>
            have notMark := isDigit.ne_mark
            simp [notMark.2.2]
  · rfl

theorem radix_hexadecimal {mark : UInt8} {text : Bytes}
    (isMark : mark = 'x'.toUInt8 ∨ mark = 'X'.toUInt8) (nonempty : text ≠ []) :
    radix ('0'.toUInt8 :: mark :: text) = (16, text) := by
  cases text with
  | nil => exact (nonempty rfl).elim
  | cons digit digits => simp [radix, isMark]

/-- The mark of a base is present or it is not. -/
theorem radix_cases (text : Bytes) :
    radix text = (10, text) ∨
      Exists fun mark => Exists fun digits =>
        (mark = 'x'.toUInt8 ∨ mark = 'X'.toUInt8) ∧
          text = '0'.toUInt8 :: mark :: digits ∧ radix text = (16, digits) := by
  unfold radix
  split
  · next zero mark digit digits =>
      split
      · next marked =>
          simp only [Bool.and_eq_true, Bool.or_eq_true, decide_eq_true_eq] at marked
          rw [marked.1]
          exact .inr ⟨mark, digit :: digits, marked.2, rfl, rfl⟩
      · exact .inl rfl
  · exact .inl rfl

namespace Parts

/-- The number that the digits write. -/
def magnitude (parts : Parts) : Nat :=
  Nat.ofDigits parts.base parts.digits.reverse

/-- The integer that the parts denote. -/
def value (parts : Parts) : Int :=
  if parts.negative then -parts.magnitude else parts.magnitude

/-- The base is one of the two, and the digits are digits of it. -/
structure WellFormed (parts : Parts) : Prop where
  base : parts.base = 10 ∨ parts.base = 16
  digits : forall digit, digit ∈ parts.digits -> digit < parts.base

end Parts

theorem IsDigit.forall_lt {base : Nat} {text : Bytes} {values : List Nat}
    (digits : List.Forall₂ (IsDigit base) text values) :
    forall value, value ∈ values -> value < base := by
  intro value member
  induction digits with
  | nil => cases member
  | cons isDigit _ inductionHypothesis =>
      rcases List.mem_cons.1 member with same | member
      · rw [same]
        exact isDigit.1
      · exact inductionHypothesis member

theorem unsigned?_eq_some {negative : Bool} {text : Bytes} {parts : Parts}
    (found : unsigned? negative text = some parts) :
    parts.negative = negative ∧ parts.WellFormed ∧ Unsigned text parts.magnitude := by
  unfold unsigned? at found
  dsimp only at found
  split at found
  · cases found
  next nonempty =>
  rw [List.isEmpty_iff] at nonempty
  rcases Option.map_eq_some_iff.1 found with ⟨values, read, same⟩
  rw [← same]
  rcases radix_cases text with plain | ⟨mark, digits, isMark, whole, marked⟩
  · rw [plain] at read nonempty ⊢
    have isDigits := (mapM_digitValue?_eq_some_iff (show 10 <= 16 by decide)).1 read
    exact ⟨rfl, ⟨.inl rfl, IsDigit.forall_lt isDigits⟩, .decimal nonempty isDigits⟩
  · rw [marked] at read nonempty ⊢
    have isDigits := (mapM_digitValue?_eq_some_iff (Nat.le_refl 16)).1 read
    rw [whole]
    exact ⟨rfl, ⟨.inr rfl, IsDigit.forall_lt isDigits⟩, .hexadecimal isMark nonempty isDigits⟩

theorem Unsigned.exists_unsigned? {text : Bytes} {number : Nat} (written : Unsigned text number)
    (negative : Bool) :
    Exists fun parts => unsigned? negative text = some parts ∧ parts.negative = negative ∧
      parts.magnitude = number := by
  cases written with
  | decimal nonempty digits =>
      rename_i values
      refine ⟨⟨negative, 10, values⟩, ?_, rfl, rfl⟩
      rw [unsigned?, radix_decimal digits]
      simp [nonempty, (mapM_digitValue?_eq_some_iff (by decide)).2 digits]
  | hexadecimal isMark nonempty digits =>
      rename_i mark text values
      refine ⟨⟨negative, 16, values⟩, ?_, rfl, rfl⟩
      rw [unsigned?, radix_hexadecimal isMark nonempty]
      simp [nonempty, (mapM_digitValue?_eq_some_iff (by decide)).2 digits]

/-- A text without a sign does not begin with one. -/
theorem Unsigned.exists_cons {text : Bytes} {number : Nat} (written : Unsigned text number) :
    Exists fun first => Exists fun more =>
      text = first :: more ∧ first ≠ '-'.toUInt8 ∧ first ≠ '+'.toUInt8 := by
  cases written with
  | decimal nonempty digits =>
      cases digits with
      | nil => exact (nonempty rfl).elim
      | cons isDigit _ => exact ⟨_, _, rfl, isDigit.ne_mark.1, isDigit.ne_mark.2.1⟩
  | hexadecimal => exact ⟨_, _, rfl, by decide, by decide⟩

/-- The parts of a text denote what the text denotes. -/
theorem denotes_of_parts? {text : Bytes} {parts : Parts} (found : parts? text = some parts) :
    parts.WellFormed ∧ Denotes text parts.value := by
  unfold parts? at found
  split at found
  · cases found
  split at found
  · next isMinus =>
      rcases unsigned?_eq_some found with ⟨sign, wellFormed, written⟩
      rw [isMinus, Parts.value, sign]
      exact ⟨wellFormed, .minus written⟩
  split at found
  · next isPlus =>
      rcases unsigned?_eq_some found with ⟨sign, wellFormed, written⟩
      rw [isPlus, Parts.value, sign]
      exact ⟨wellFormed, .plus written⟩
  · rcases unsigned?_eq_some found with ⟨sign, wellFormed, written⟩
    rw [Parts.value, sign]
    exact ⟨wellFormed, .unsigned written⟩

/-- A text that denotes an integer can be taken apart. -/
theorem Denotes.exists_parts? {text : Bytes} {number : Int} (denotes : Denotes text number) :
    Exists fun parts => parts? text = some parts ∧ parts.value = number := by
  cases denotes with
  | unsigned written =>
      rcases written.exists_unsigned? false with ⟨parts, found, sign, magnitude⟩
      rcases written.exists_cons with ⟨first, more, whole, notMinus, notPlus⟩
      refine ⟨parts, ?_, by simp [Parts.value, sign, magnitude]⟩
      rw [whole, parts?, if_neg notMinus, if_neg notPlus, ← whole]
      exact found
  | plus written =>
      rcases written.exists_unsigned? false with ⟨parts, found, sign, magnitude⟩
      exact ⟨parts, found, by simp [Parts.value, sign, magnitude]⟩
  | minus written =>
      rcases written.exists_unsigned? true with ⟨parts, found, sign, magnitude⟩
      exact ⟨parts, found, by simp [Parts.value, sign, magnitude]⟩

/-- A text denotes at most one integer. -/
theorem Denotes.unique {text : Bytes} {number other : Int} (denotes : Denotes text number)
    (again : Denotes text other) : number = other := by
  rcases denotes.exists_parts? with ⟨parts, found, same⟩
  rcases again.exists_parts? with ⟨others, foundAgain, sameAgain⟩
  rw [found] at foundAgain
  cases foundAgain
  exact same.symm.trans sameAgain

/-! ## Word arithmetic -/

theorem toNat_limit (negative : Bool) :
    (limit negative).toNat = if negative then 2 ^ 63 else 2 ^ 63 - 1 := by
  cases negative <;> decide

/-- The operations that append a digit to a magnitude do on words what they do
on numbers: the comparison always, and the computation when it is made. -/
structure AppendsExactly (limit base total digit : UInt64) : Prop where
  room : (limit - digit).toNat + digit.toNat = limit.toNat
  product : forall next, append? limit base total digit = some next ->
    (total * base).toNat = total.toNat * base.toNat
  sum : forall next, append? limit base total digit = some next ->
    next.toNat = (total * base).toNat + digit.toNat

section Appending

variable {limit base total digit : UInt64} (positive : 0 < base.toNat)
  (room : digit.toNat <= limit.toNat)

include positive room

/-- The comparison that precedes a step refuses exactly what is beyond the
limit. -/
theorem room_lt_iff :
    (limit - digit) / base < total ↔ limit.toNat < total.toNat * base.toNat + digit.toNat := by
  rw [UInt64.lt_iff_toNat_lt, UInt64.toNat_div, Nat.div_lt_iff_lt_mul positive,
    UInt64.toNat_sub_of_le _ _ (UInt64.le_iff_toNat_le.2 room)]
  omega

theorem append?_eq_some {next : UInt64} (appended : append? limit base total digit = some next) :
    (total * base).toNat = total.toNat * base.toNat ∧
      next.toNat = (total * base).toNat + digit.toNat ∧ next.toNat <= limit.toNat := by
  unfold append? at appended
  split at appended
  · cases appended
  · next within =>
      rw [room_lt_iff positive room, Nat.not_lt] at within
      have bound := limit.toNat_lt
      have product : (total * base).toNat = total.toNat * base.toNat := by
        rw [UInt64.toNat_mul, Nat.mod_eq_of_lt (by omega)]
      have sum : (total * base + digit).toNat = (total * base).toNat + digit.toNat := by
        rw [UInt64.toNat_add, product, Nat.mod_eq_of_lt (by omega)]
      cases appended
      exact ⟨product, sum, by omega⟩

theorem append?_eq_some_iff {next : UInt64} :
    append? limit base total digit = some next ↔
      next.toNat = total.toNat * base.toNat + digit.toNat ∧ next.toNat <= limit.toNat := by
  constructor
  · intro appended
    have exactly := append?_eq_some positive room appended
    omega
  · rintro ⟨same, within⟩
    have fits : ¬ (limit - digit) / base < total := by
      rw [room_lt_iff positive room]
      omega
    have appended : append? limit base total digit = some (total * base + digit) := if_neg fits
    have exactly := append?_eq_some positive room appended
    have equal : total * base + digit = next := UInt64.toNat_inj.1 (by omega)
    rw [appended, equal]

theorem appendsExactly : AppendsExactly limit base total digit where
  room := by
    rw [UInt64.toNat_sub_of_le _ _ (UInt64.le_iff_toNat_le.2 room)]
    omega
  product _ appended := (append?_eq_some positive room appended).1
  sum _ appended := (append?_eq_some positive room appended).2.1

end Appending

/-- The number that some words write as digits, the most significant first. -/
def written (base : UInt64) (digits : List UInt64) : Nat :=
  Nat.ofDigits base.toNat (digits.map UInt64.toNat).reverse

theorem written_nil (base : UInt64) : written base [] = 0 :=
  rfl

theorem written_concat (base : UInt64) (digits : List UInt64) (digit : UInt64) :
    written base (digits ++ [digit]) = written base digits * base.toNat + digit.toNat := by
  simp only [written, List.map_append, List.map_cons, List.map_nil, List.reverse_append,
    List.reverse_cons, List.reverse_nil, List.nil_append, List.cons_append, Nat.ofDigits_cons]
  ring

/-- The accumulated magnitude is the true one, and it is missing exactly when
the true one is beyond the limit. -/
theorem accumulate?_eq_some_iff {limit base : UInt64} (positive : 0 < base.toNat)
    {digits : List UInt64}
    (room : forall digit, digit ∈ digits -> digit.toNat <= limit.toNat) {total : UInt64} :
    accumulate? limit base digits = some total ↔
      total.toNat = written base digits ∧ total.toNat <= limit.toNat := by
  induction digits using List.reverseRecOn generalizing total with
  | nil =>
      rw [accumulate?, List.foldlM_nil, written_nil, Option.pure_def, Option.some.injEq,
        ← UInt64.toNat_inj]
      simp
      omega
  | append_singleton digits digit inductionHypothesis =>
      have earlier (other : UInt64) (member : other ∈ digits) : other.toNat <= limit.toNat :=
        room other (List.mem_append_left _ member)
      have last : digit.toNat <= limit.toNat := room digit (by simp)
      have step : accumulate? limit base (digits ++ [digit]) =
          (accumulate? limit base digits).bind fun total => append? limit base total digit := by
        simp [accumulate?]
      rw [step, Option.bind_eq_some_iff, written_concat]
      constructor
      · rintro ⟨before, accumulated, appended⟩
        rcases (inductionHypothesis earlier).1 accumulated with ⟨same, _⟩
        rw [append?_eq_some_iff positive last, same] at appended
        exact appended
      · rintro ⟨same, within⟩
        -- What the earlier digits write is within the limit because the whole is.
        have shorter : written base digits <= written base digits * base.toNat :=
          Nat.le_mul_of_pos_right _ positive
        have bound := limit.toNat_lt
        have small : written base digits < 2 ^ 64 := by omega
        have before : (UInt64.ofNat (written base digits)).toNat = written base digits :=
          UInt64.toNat_ofNat_of_lt small
        refine ⟨UInt64.ofNat (written base digits), (inductionHypothesis earlier).2 ?_, ?_⟩
        · omega
        · rw [append?_eq_some_iff positive last, before]
          exact ⟨same, within⟩

/-! ## Integers of 64 bits -/

/-- The last step takes the magnitude as it is or negates it in two's
complement. -/
theorem toInt_signed {negative : Bool} {total : UInt64}
    (within : total.toNat <= (limit negative).toNat) :
    (if negative then (0 - total).toInt64 else total.toInt64).toInt =
      if negative then -(total.toNat : Int) else total.toNat := by
  rw [toNat_limit] at within
  have pattern (word : UInt64) : word.toInt64.toInt = (word.toNat : Int).bmod (2 ^ 64) :=
    BitVec.toInt_eq_toNat_bmod word.toBitVec
  cases negative with
  | false =>
      simp only [Bool.false_eq_true, if_false] at within ⊢
      rw [pattern, Int.bmod_eq_of_le (by omega) (by omega)]
  | true =>
      simp only [if_true] at within ⊢
      have nothing : (0 : UInt64).toInt64.toInt = 0 := by decide
      rw [UInt64.toInt64_sub, Int64.toInt_sub, pattern total, nothing, Int.sub_bmod_bmod,
        Int.zero_sub, Int.bmod_eq_of_le (by omega) (by omega)]

namespace Parts.WellFormed

variable {parts : Parts} (wellFormed : parts.WellFormed)

include wellFormed

theorem toNat_base : parts.base.toUInt64.toNat = parts.base := by
  rcases wellFormed.base with ten | sixteen
  · rw [ten]
    rfl
  · rw [sixteen]
    rfl

theorem base_pos : 0 < parts.base.toUInt64.toNat := by
  rw [wellFormed.toNat_base]
  rcases wellFormed.base with ten | sixteen <;> omega

theorem toNat_digit {digit : Nat} (member : digit ∈ parts.digits) :
    digit.toUInt64.toNat = digit ∧ digit < 16 := by
  have below := wellFormed.digits digit member
  have small : digit < 16 := by
    rcases wellFormed.base with ten | sixteen <;> omega
  exact ⟨UInt64.toNat_ofNat_of_lt (Nat.lt_trans small (by decide)), small⟩

theorem digit_le_limit {digit : UInt64} (member : digit ∈ parts.digits.map Nat.toUInt64) :
    digit.toNat <= (limit parts.negative).toNat := by
  rcases List.mem_map.1 member with ⟨value, isDigit, same⟩
  have small := wellFormed.toNat_digit isDigit
  rw [← same, toNat_limit]
  split <;> omega

theorem written_eq_magnitude :
    written parts.base.toUInt64 (parts.digits.map Nat.toUInt64) = parts.magnitude := by
  have digits : (parts.digits.map Nat.toUInt64).map UInt64.toNat = parts.digits := by
    rw [List.map_map]
    exact (List.map_congr_left fun digit member => (wellFormed.toNat_digit member).1).trans
      (List.map_id _)
  rw [written, wellFormed.toNat_base, digits, magnitude]

/-- The digits accumulate to the magnitude, unless it is beyond the limit. -/
theorem accumulate?_eq_some_iff {total : UInt64} :
    accumulate? (limit parts.negative) parts.base.toUInt64 (parts.digits.map Nat.toUInt64) =
        some total ↔
      total.toNat = parts.magnitude ∧ total.toNat <= (limit parts.negative).toNat := by
  rw [← wellFormed.written_eq_magnitude]
  exact Numeral.accumulate?_eq_some_iff wellFormed.base_pos
    fun _ member => wellFormed.digit_le_limit member

/-- The word of a numeral is the integer that it denotes. -/
theorem word?_eq_some_iff {word : Int64} :
    parts.word? = some word ↔ word.toInt = parts.value := by
  rw [word?, Option.map_eq_some_iff, value]
  constructor
  · rintro ⟨total, found, same⟩
    rcases wellFormed.accumulate?_eq_some_iff.1 found with ⟨magnitude, within⟩
    rw [← same, toInt_signed within, magnitude]
  · intro same
    have lower := word.le_toInt
    have upper := word.toInt_lt
    have within : parts.magnitude <= (limit parts.negative).toNat := by
      rw [toNat_limit]
      cases sign : parts.negative with
      | false =>
          simp only [sign, Bool.false_eq_true, if_false] at same ⊢
          omega
      | true =>
          simp only [sign, if_true] at same ⊢
          omega
    have small : parts.magnitude < 2 ^ 64 :=
      Nat.lt_of_le_of_lt within (limit parts.negative).toNat_lt
    have exactly : (UInt64.ofNat parts.magnitude).toNat = parts.magnitude :=
      UInt64.toNat_ofNat_of_lt small
    have bounded : (UInt64.ofNat parts.magnitude).toNat <= (limit parts.negative).toNat := by
      rwa [exactly]
    refine ⟨UInt64.ofNat parts.magnitude,
      wellFormed.accumulate?_eq_some_iff.2 ⟨exactly, bounded⟩, ?_⟩
    rw [← Int64.toInt_inj, toInt_signed bounded, exactly, same]

end Parts.WellFormed

/-- The integers of 64 bits in two's complement. -/
def Fits (number : Int) : Prop :=
  -2 ^ 63 <= number ∧ number <= 2 ^ 63 - 1

theorem fits_toInt (word : Int64) : Fits word.toInt := by
  have lower := word.le_toInt
  have upper := word.toInt_lt
  exact ⟨lower, by omega⟩

theorem Fits.toInt_ofInt {number : Int} (fits : Fits number) :
    (Int64.ofInt number).toInt = number := by
  rw [Fits] at fits
  rw [Int64.toInt_ofInt, Int.bmod_eq_of_le (by simp [Int64.size]; omega)
    (by simp [Int64.size]; omega)]

end Numeral

/-! ## Atoms -/

namespace Lexing

open Numeral

theorem integer?_eq_some_iff {text : Bytes} {word : Int64} :
    integer? text = .ok (some word) ↔ Denotes text word.toInt := by
  constructor
  · intro read
    unfold integer? at read
    split at read
    · cases read
    next parts found =>
    rcases denotes_of_parts? found with ⟨wellFormed, denotes⟩
    split at read
    · next value computed =>
        cases read
        rwa [wellFormed.word?_eq_some_iff.1 computed]
    · cases read
  · intro denotes
    rcases denotes.exists_parts? with ⟨parts, found, same⟩
    have computed := (denotes_of_parts? found).1.word?_eq_some_iff.2 same.symm
    simp only [integer?, found, computed]

theorem integer?_eq_none_iff {text : Bytes} :
    integer? text = .ok none ↔ ¬ Exists fun number => Denotes text number := by
  constructor
  · rintro read ⟨number, denotes⟩
    rcases denotes.exists_parts? with ⟨parts, found, _⟩
    simp only [integer?, found] at read
    split at read <;> cases read
  · intro shapeless
    cases found : parts? text with
    | none => simp only [integer?, found]
    | some parts => exact (shapeless ⟨_, (denotes_of_parts? found).2⟩).elim

theorem integer?_eq_error_iff {text : Bytes} {error : ScanError} :
    integer? text = .error error ↔
      error = .integerOutOfRange text ∧
        Exists fun number => Denotes text number ∧ ¬ Fits number := by
  constructor
  · intro read
    have none : forall word, integer? text ≠ .ok (some word) := by
      intro word found
      rw [read] at found
      cases found
    unfold integer? at read
    split at read
    · cases read
    next parts found =>
    split at read
    · cases read
    cases read
    have denotes := (denotes_of_parts? found).2
    refine ⟨rfl, parts.value, denotes, fun fits => none (Int64.ofInt parts.value) ?_⟩
    rw [integer?_eq_some_iff, fits.toInt_ofInt]
    exact denotes
  · rintro ⟨rfl, number, denotes, beyond⟩
    rcases denotes.exists_parts? with ⟨parts, found, same⟩
    cases computed : parts.word? with
    | some word =>
        have value := (denotes_of_parts? found).1.word?_eq_some_iff.1 computed
        exact (beyond (same ▸ value ▸ fits_toInt word)).elim
    | none => simp only [integer?, found, computed]

end Lexing

end TailLisp
