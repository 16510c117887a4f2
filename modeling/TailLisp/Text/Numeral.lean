import TailLisp.Text.ByteClass

namespace TailLisp

/-!
Integer literals.

A numeral is an optional sign followed by decimal digits, or by `0x` or `0X`
and hexadecimal digits.  Whether the integer that it denotes fits into 64 bits
is asked afterwards, so a numeral that is too large is still a numeral and not
a symbol.  Its magnitude is computed in a word of 64 bits, and no digit is
appended before there is known to be room for it.

How many digits there are is not bounded.  A numeral in a text has fewer than
`2 ^ 31`, or the column behind it could not be counted in a signed word of 32 bits.
-/

namespace Numeral

open ByteClass

/-- A numeral taken apart: its sign, its base and the values of its digits. -/
structure Parts where
  negative : Bool
  base : Nat
  digits : List Nat

/-- The base of a numeral without a sign, and the text of its digits.  The mark
`0x` counts only when something follows it. -/
def radix : Bytes -> Nat × Bytes
  | zero :: mark :: digit :: digits =>
      if zero = '0'.toUInt8 && (mark = 'x'.toUInt8 || mark = 'X'.toUInt8) then
        (16, digit :: digits)
      else
        (10, zero :: mark :: digit :: digits)
  | digits => (10, digits)

/-- The parts of a numeral whose sign has been read. -/
def unsigned? (negative : Bool) (text : Bytes) : Option Parts :=
  let cut := radix text
  if cut.2.isEmpty then none
  else (cut.2.mapM (digitValue? cut.1)).map (Parts.mk negative cut.1)

/-- The parts of a text, if it has the shape of a numeral. -/
def parts? : Bytes -> Option Parts
  | [] => none
  | sign :: text =>
      if sign = '-'.toUInt8 then
        unsigned? true text
      else if sign = '+'.toUInt8 then
        unsigned? false text
      else
        unsigned? false (sign :: text)

/-- The greatest magnitude of an integer of 64 bits.  It depends on the sign,
because the negative integers reach one further. -/
def limit (negative : Bool) : UInt64 :=
  if negative then Int64.maxValue.toUInt64 + 1 else Int64.maxValue.toUInt64

/-- Appends a digit to a magnitude, unless that takes it beyond the limit.  The
room for the digit is compared first, so that nothing is computed beyond the
limit. -/
def append? (limit base total digit : UInt64) : Option UInt64 :=
  if (limit - digit) / base < total then none else some (total * base + digit)

/-- The magnitude that some digits write, unless it is beyond the limit. -/
def accumulate? (limit base : UInt64) (digits : List UInt64) : Option UInt64 :=
  digits.foldlM (append? limit base) 0

/-- The integer of 64 bits that a numeral denotes, unless it does not fit. -/
def Parts.word? (parts : Parts) : Option Int64 :=
  (accumulate? (limit parts.negative) parts.base.toUInt64
    (parts.digits.map Nat.toUInt64)).map fun total =>
      if parts.negative then (0 - total).toInt64 else total.toInt64

end Numeral

end TailLisp
