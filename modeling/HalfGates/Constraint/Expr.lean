/-!
# Polynomials over the field of two elements

An expression is a constant, a variable, a sum or a product of any number of expressions. The empty
sum is zero and the empty product is one.

## Main definitions

- `Expr`: expressions, with `Expr.plus` and `Expr.times`
- `Expr.maxVariable`: the last variable that occurs
- `Expr.evaluate`: the value under an assignment
- `Expr.derivative`, `Expr.constant?`, `Expr.substitute`: the formal calculus
- `Expr.text`: how an expression is written

## Design notes

Products are evaluated up to their first false factor, so that a variable without a value does no harm
behind it.
-/

namespace HalfGates

/-- Polynomials in the variables `x_0`, `x_1`, … -/
inductive Expr
  | constant (value : Bool)
  | variable (index : Nat)
  | sum (terms : List Expr)
  | product (factors : List Expr)

namespace Expr

/-! ### Equality -/

mutual

/-- Whether two expressions are written the same way. -/
def same : Expr → Expr → Bool
  | .constant a, .constant b => a == b
  | .variable i, .variable j => i == j
  | .sum as, .sum bs => sameList as bs
  | .product as, .product bs => sameList as bs
  | _, _ => false

/-- Whether two lists of expressions are written the same way. -/
def sameList : List Expr → List Expr → Bool
  | [], [] => true
  | a :: as, b :: bs => same a b && sameList as bs
  | _, _ => false

end

instance : BEq Expr := ⟨same⟩

/-! ### Construction -/

/-- The sum; a left operand that is itself a sum takes in the right one. -/
def plus : Expr → Expr → Expr
  | .sum terms, e => .sum (terms ++ [e])
  | d, e => .sum [d, e]

/-- The product; a left operand that is itself a product takes in the right one. -/
def times : Expr → Expr → Expr
  | .product factors, e => .product (factors ++ [e])
  | d, e => .product [d, e]

instance : Add Expr := ⟨plus⟩

instance : Mul Expr := ⟨times⟩

/-! ### Variables and values -/

/-- The larger of two numbers, either of which may be missing. -/
def later : Option Nat → Option Nat → Option Nat
  | some i, some j => some (max i j)
  | some i, none => some i
  | none, j => j

mutual

/-- The last variable that occurs. -/
def maxVariable : Expr → Option Nat
  | .constant _ => none
  | .variable i => some i
  | .sum terms => maxVariables terms
  | .product factors => maxVariables factors

/-- The last variable that occurs in any of the expressions. -/
def maxVariables : List Expr → Option Nat
  | [] => none
  | e :: es => later (maxVariable e) (maxVariables es)

end

mutual

/-- The value under an assignment, unless a variable without a value is reached. -/
def evaluate (a : List Bool) : Expr → Option Bool
  | .constant c => some c
  | .variable i => a[i]?
  | .sum terms => evaluateSum a terms
  | .product factors => evaluateProduct a factors

/-- The sum of the values; all terms are evaluated. -/
def evaluateSum (a : List Bool) : List Expr → Option Bool
  | [] => some false
  | e :: es =>
    match evaluate a e with
    | none => none
    | some x => (evaluateSum a es).map (x ^^ ·)

/-- The product of the values; nothing behind a false factor is evaluated. -/
def evaluateProduct (a : List Bool) : List Expr → Option Bool
  | [] => some true
  | e :: es =>
    match evaluate a e with
    | none => none
    | some false => some false
    | some true => evaluateProduct a es

end

/-! ### Formal calculus -/

mutual

/-- The formal partial derivative by a variable. A product gives one summand for each factor, with that
factor differentiated in its place. -/
def derivative (v : Nat) : Expr → Expr
  | .constant _ => .constant false
  | .variable i => .constant (i == v)
  | .sum terms => .sum (derivativeTerms v terms)
  | .product factors => .sum ((derivativeFactors v factors).map product)

/-- The derivatives of the terms. -/
def derivativeTerms (v : Nat) : List Expr → List Expr
  | [] => []
  | e :: es => derivative v e :: derivativeTerms v es

/-- The lists of factors with one of them differentiated. -/
def derivativeFactors (v : Nat) : List Expr → List (List Expr)
  | [] => []
  | e :: es => (derivative v e :: es) :: (derivativeFactors v es).map (e :: ·)

end

/-- The product of two values that may be unknown: a false factor decides it. -/
def knownAnd : Option Bool → Option Bool → Option Bool
  | some false, _ => some false
  | _, some false => some false
  | some true, some true => some true
  | _, _ => none

/-- The sum of two values that may be unknown. -/
def knownXor : Option Bool → Option Bool → Option Bool
  | some x, some y => some (x ^^ y)
  | _, _ => none

mutual

/-- The value of an expression that is the same whatever its variables are, as far as its form shows:
a product with a false factor is false, and all else has to be known. -/
def constant? : Expr → Option Bool
  | .constant c => some c
  | .variable _ => none
  | .sum terms => constantSum terms
  | .product factors => constantProduct factors

/-- The sum of the constant values. -/
def constantSum : List Expr → Option Bool
  | [] => some false
  | e :: es => knownXor (constant? e) (constantSum es)

/-- The product of the constant values. -/
def constantProduct : List Expr → Option Bool
  | [] => some true
  | e :: es => knownAnd (constant? e) (constantProduct es)

end

mutual

/-- The expression with a variable replaced by a constant. -/
def substitute (v : Nat) (value : Bool) : Expr → Expr
  | .constant c => .constant c
  | .variable i => if i = v then .constant value else .variable i
  | .sum terms => .sum (substituteAll v value terms)
  | .product factors => .product (substituteAll v value factors)

/-- The expressions with a variable replaced by a constant. -/
def substituteAll (v : Nat) (value : Bool) : List Expr → List Expr
  | [] => []
  | e :: es => substitute v value e :: substituteAll v value es

end

/-! ### Text -/

mutual

/-- The text of an expression: sums and products in parentheses, constants as digits. -/
def text : Expr → String
  | .constant c => if c then "1" else "0"
  | .variable i => "x" ++ toString i
  | .sum terms => "(" ++ String.intercalate " + " (texts terms) ++ ")"
  | .product factors => "(" ++ String.intercalate " * " (texts factors) ++ ")"

/-- The texts of expressions. -/
def texts : List Expr → List String
  | [] => []
  | e :: es => text e :: texts es

end

end Expr

end HalfGates
