import HalfGates.Constraint.System

/-!
# Addition by parity checks

The sum of two numbers of `width` bits modulo `2 ^ width`. The inputs are the two numbers, each with its
most significant bit first; the auxiliary variables are the carries into the bits from the second on;
the outputs are the sum, its most significant bit first.

## Main definitions

- `ParityAdder.carryCheck`, `ParityAdder.sumCheck`: the checks of one bit
- `ParityAdder.system`: the system
-/

namespace HalfGates.ParityAdder

/-- Bit `k` of the first number, counted from the least significant. -/
def first (width k : Nat) : Expr :=
  .variable (width - 1 - k)

/-- Bit `k` of the second number. -/
def second (width k : Nat) : Expr :=
  .variable (2 * width - 1 - k)

/-- The carry into bit `k`, for `k` from one on. -/
def carry (width k : Nat) : Expr :=
  .variable (2 * width + k - 1)

/-- Bit `k` of the sum. -/
def sum (width k : Nat) : Expr :=
  .variable (2 * width + (width - 1) + (width - 1 - k))

/-- The carry out of bit `k`. -/
def majority (width k : Nat) : Expr :=
  if k = 0 then first width 0 * second width 0
  else first width k * second width k + carry width k * (first width k + second width k)

/-- The check that defines the carry into bit `k + 1`. -/
def carryCheck (width k : Nat) : Expr :=
  carry width (k + 1) + majority width k

/-- The check that defines bit `k` of the sum. -/
def sumCheck (width k : Nat) : Expr :=
  let check := sum width k + first width k + second width k
  if 0 < k then check + carry width k else check

/-- The adder of two numbers of `width` bits. -/
def system (width : Nat) : ParitySystem where
  inputs := 2 * width
  auxiliaries := width - 1
  outputs := width
  checks := (List.range (width - 1)).map (carryCheck width) ++
    (List.range width).reverse.map (sumCheck width)

end HalfGates.ParityAdder
