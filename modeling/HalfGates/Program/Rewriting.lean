import HalfGates.Program.Basic

/-!
# Rewriting gates in place

Every gate is rewritten from left to right against the gates before it, which are already rewritten,
and keeps its position. An operand that is an identity or a negation is read through, unless its
own operand is known to fewer parties; a gate that reads one value twice, or a constant, becomes a
unary gate or a constant; and the scope of a gate grows to what its new operands reveal.

## Main definitions

- `Rewriting.slide`: reading an operand through one unary gate
- `Rewriting.merge`: a gate that reads one value twice
- `Rewriting.foldConstants`: a gate that reads constants
- `Rewriting.rewrite`, `Program.simplifyGates`: one gate, and all of them
-/

namespace HalfGates.Rewriting

/-- Where an operand is read from, and whether the value found there is its negation. -/
structure Source where
  offset : Nat
  negated : Bool
  deriving DecidableEq

/-- Reads the operand `d` places back through an identity or a negation. It is read directly if it is
neither, or if some party knows it without knowing what it negates. -/
def slide (past : List Gate) (d : Nat) : Source :=
  match back? past d with
  | some ⟨.unary n e, scope⟩ =>
    if (Gate.scopeBack past (d + e)).contains scope then ⟨d + e, n⟩ else ⟨d, false⟩
  | _ => ⟨d, false⟩

/-- The operation on operands that may be read negated. -/
def absorb : Operation Source → Operation Nat
  | .input => .input
  | .random => .random
  | .constant v => .constant v
  | .unary n x => .unary (n ^^ x.negated) x.offset
  | .linear n x y => .linear (n ^^ x.negated ^^ y.negated) x.offset y.offset
  | .conjunction p q n x y =>
    .conjunction (p ^^ x.negated) (q ^^ y.negated) n x.offset y.offset

/-- A gate that reads one value twice is a unary gate or a constant. -/
def merge : Operation Nat → Operation Nat
  | .linear n x y => if x = y then .constant n else .linear n x y
  | .conjunction p q n x y =>
    if x = y then (if p = q then .unary (p ^^ n) x else .constant n)
    else .conjunction p q n x y
  | op => op

/-- The value of the gate `d` places back if it is a constant. -/
def constantBack (past : List Gate) (d : Nat) : Option Bool :=
  match back? past d with
  | some ⟨.constant v, _⟩ => some v
  | _ => none

/-- A unary gate of a constant is a constant. -/
def foldUnary (past : List Gate) (n : Bool) (x : Nat) : Operation Nat :=
  match constantBack past x with
  | some v => .constant (v ^^ n)
  | none => .unary n x

/-- A gate with a constant operand is a unary gate of the other operand, or a constant. -/
def foldConstants (past : List Gate) : Operation Nat → Operation Nat
  | .unary n x => foldUnary past n x
  | .linear n x y =>
    match constantBack past x, constantBack past y with
    | some v, _ => foldUnary past (v ^^ n) y
    | none, some v => .unary (v ^^ n) x
    | none, none => .linear n x y
  | .conjunction p q n x y =>
    match constantBack past x, constantBack past y with
    | some v, _ => if v = p then .constant n else foldUnary past (q ^^ n) y
    | none, some v => if v = q then .constant n else .unary (p ^^ n) x
    | none, none => .conjunction p q n x y
  | op => op

/-- The operation that takes the place of `op` behind the gates of `past`. -/
def rewriteOp (past : List Gate) (op : Operation Nat) : Operation Nat :=
  foldConstants past (merge (absorb (op.map (slide past))))

/-- The gate that takes the place of `g`. -/
def rewrite (past : List Gate) (g : Gate) : Gate :=
  Gate.widened past (rewriteOp past g.op) g.scope

/-- The rewritten gates, newest first, behind those already rewritten. -/
def rewriteAll (past : List Gate) (gates : List Gate) : List Gate :=
  gates.foldl (fun past g => rewrite past g :: past) past

end HalfGates.Rewriting

namespace HalfGates.Program

/-- The program with every gate rewritten in place. -/
def simplifyGates (p : Program) : Program :=
  { p with gates := (Rewriting.rewriteAll [] p.gates).reverse }

/-- The number of places where two programs have different gates. -/
def changedCount (p q : Program) : Nat :=
  (p.gates.zip q.gates).countP fun pair => pair.1 != pair.2

end HalfGates.Program
