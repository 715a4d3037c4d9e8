/-!
# Decimal numbers below a limit

A number is read from one or more digits, which a single plus sign may precede. Leading zeros are
accepted; a number that reaches the limit is refused.
-/

namespace HalfGates.Decimal

/-- The number that digits stand for, read behind the number `n`. -/
def readDigits? (n : Nat) : List Char → Option Nat
  | [] => some n
  | c :: rest =>
    if c.isDigit then readDigits? (10 * n + (c.toNat - '0'.toNat)) rest else none

/-- The number that a text without a sign stands for. -/
def readUnsigned? : List Char → Option Nat
  | [] => none
  | c :: rest => readDigits? 0 (c :: rest)

/-- The number that a text stands for, with or without a plus sign. -/
def readSigned? : List Char → Option Nat
  | '+' :: rest => readUnsigned? rest
  | cs => readUnsigned? cs

/-- The number that a text stands for, if it is below `limit`. -/
def read? (limit : Nat) (text : String) : Option Nat :=
  (readSigned? text.toList).filter (· < limit)

end HalfGates.Decimal
