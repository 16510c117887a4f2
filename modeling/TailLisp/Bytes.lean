namespace TailLisp

/-!
Text as bytes.

Source text, symbol names, string contents and every message are sequences of
bytes.  Nothing in the language looks at a wider character, so a byte above
127 is an ordinary symbol byte and is carried through unchanged.
-/

/-- A byte string. -/
abbrev Bytes := List UInt8

namespace Bytes

/-- The bytes of a literal text, one byte for each character.  Characters up
to code 255 keep their code; the texts below use ASCII only. -/
def ofText (text : String) : Bytes :=
  text.toList.map Char.toUInt8

/-- Decimal digits of a natural number, without leading zeros. -/
def ofNat (number : Nat) : Bytes :=
  (Nat.toDigits 10 number).map Char.toUInt8

/-- Decimal text of an integer.  Only negative numbers carry a sign. -/
def ofInt : Int -> Bytes
  | .ofNat magnitude => ofNat magnitude
  | .negSucc lower => '-'.toUInt8 :: ofNat (lower + 1)

/-- The parts one after another with one space between neighbours. -/
def spaced : List Bytes -> Bytes
  | [] => []
  | [part] => part
  | part :: next :: parts => part ++ ' '.toUInt8 :: spaced (next :: parts)

/-- FNV-1a over 32 bits: each byte is mixed in by exclusive or and the result
is multiplied by the FNV prime, modulo `2 ^ 32`. -/
def fingerprint (text : Bytes) : UInt32 :=
  text.foldl (fun mixed byte => (mixed ^^^ byte.toUInt32) * 16777619) 2166136261

end Bytes

end TailLisp
