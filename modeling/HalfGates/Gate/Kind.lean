/-!
# Kinds of gates

There are sixteen kinds: two sources, two constants, two unary functions, two linear ones and the
eight conjunctions of possibly negated operands with a possibly negated result.

## Main definitions

- `GateKind`: the kinds, with their negations as data
- `GateKind.arity`, `GateKind.all`, `GateKind.name`: operand count, order and names
- `GateKind.negateFirst`, `GateKind.negateSecond`: the kind that reads an operand negated
-/

namespace HalfGates

/-- What a gate computes. -/
inductive GateKind
  /-- A bit supplied by one of the parties. -/
  | input
  /-- A random bit. -/
  | random
  | constant (value : Bool)
  /-- The operand, negated if told so. -/
  | unary (negated : Bool)
  /-- The exclusive or of the operands, negated if told so. -/
  | linear (negated : Bool)
  /-- The conjunction of the operands, each negated if told so, and negated itself if told so. -/
  | conjunction (first second output : Bool)
  deriving DecidableEq

namespace GateKind

/-- All kinds, in the order of their numbers. -/
def all : List GateKind :=
  [.input, .random, .constant false, .constant true, .unary false, .unary true,
    .linear false, .linear true,
    .conjunction false false false, .conjunction true false false,
    .conjunction false true false, .conjunction true true false,
    .conjunction false false true, .conjunction true false true,
    .conjunction false true true, .conjunction true true true]

/-- The number of a kind. -/
def index (k : GateKind) : Nat :=
  all.idxOf k

/-- The name of a kind. -/
def name : GateKind → String
  | .input => "Input"
  | .random => "Random"
  | .constant false => "False"
  | .constant true => "True"
  | .unary false => "Identity"
  | .unary true => "Not"
  | .linear false => "Xor"
  | .linear true => "Xnor"
  | .conjunction false false false => "And"
  | .conjunction true false false => "NotAnd"
  | .conjunction false true false => "AndNot"
  | .conjunction true true false => "Nor"
  | .conjunction false false true => "Nand"
  | .conjunction true false true => "OrNot"
  | .conjunction false true true => "NotOr"
  | .conjunction true true true => "Or"

/-- The number of operands. -/
def arity : GateKind → Nat
  | .input | .random | .constant _ => 0
  | .unary _ => 1
  | .linear _ | .conjunction _ _ _ => 2

/-- Whether the value comes from outside the program. -/
def isSource : GateKind → Bool
  | .input | .random => true
  | _ => false

/-- Whether the value is fixed by the kind. -/
def isConstant : GateKind → Bool
  | .constant _ => true
  | _ => false

/-- Whether there is one operand. -/
def isUnary : GateKind → Bool
  | .unary _ => true
  | _ => false

/-- Whether the value is an exclusive or of operands, negated or not. -/
def isLinear : GateKind → Bool
  | .linear _ => true
  | _ => false

/-- Whether garbling a gate of this kind may cost ciphertext rows. -/
def isNonlinear : GateKind → Bool
  | .conjunction _ _ _ => true
  | _ => false

/-- Whether the first operand of a conjunction is negated. -/
def firstNegated : GateKind → Bool
  | .conjunction p _ _ => p
  | _ => false

/-- Whether the second operand of a conjunction is negated. -/
def secondNegated : GateKind → Bool
  | .conjunction _ q _ => q
  | _ => false

/-- Whether the result is negated; a true constant counts as a negated false one. -/
def outputNegated : GateKind → Bool
  | .input | .random => false
  | .constant n | .unary n | .linear n | .conjunction _ _ n => n

/-- The kind that computes the same function of its first operand negated. -/
def negateFirst : GateKind → GateKind
  | .unary n => .unary !n
  | .linear n => .linear !n
  | .conjunction p q n => .conjunction (!p) q n
  | k => k

/-- The kind that computes the same function of its second operand negated. -/
def negateSecond : GateKind → GateKind
  | .linear n => .linear !n
  | .conjunction p q n => .conjunction p (!q) n
  | k => k

end GateKind

end HalfGates
