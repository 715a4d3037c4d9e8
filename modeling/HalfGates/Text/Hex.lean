/-!
# Hexadecimal text

Bytes are written as two lower-case digits each. Reading accepts digits of either case and refuses
an odd number of them.
-/

namespace HalfGates.Hex

/-- The lower-case digit of a number below sixteen. -/
def digit (n : Nat) : Char :=
  Char.ofNat (if n < 10 then '0'.toNat + n else 'a'.toNat + (n - 10))

/-- The value of a digit of either case. -/
def value? (c : Char) : Option Nat :=
  if '0' ≤ c ∧ c ≤ '9' then some (c.toNat - '0'.toNat)
  else if 'a' ≤ c ∧ c ≤ 'f' then some (c.toNat - 'a'.toNat + 10)
  else if 'A' ≤ c ∧ c ≤ 'F' then some (c.toNat - 'A'.toNat + 10)
  else none

/-- The two digits of a byte. -/
def byteDigits (byte : UInt8) : List Char :=
  [digit (byte.toNat / 16), digit (byte.toNat % 16)]

/-- The digits of all bytes. -/
def encode (bytes : List UInt8) : String :=
  String.ofList (bytes.flatMap byteDigits)

/-- The bytes that digits stand for. -/
def decodeDigits? : List Char → Option (List UInt8)
  | [] => some []
  | hi :: lo :: rest => do
    let h ← value? hi
    let l ← value? lo
    let bytes ← decodeDigits? rest
    some (UInt8.ofNat (16 * h + l) :: bytes)
  | [_] => none

/-- The bytes that a text of digits stands for. -/
def decode? (text : String) : Option (List UInt8) :=
  decodeDigits? text.toList

end HalfGates.Hex
