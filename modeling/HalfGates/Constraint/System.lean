import HalfGates.Constraint.Expr

/-!
# Functions given by parity checks

A parity system has input, auxiliary and output variables, numbered in this order, and checks, each
of which has to be zero. A check defines the last variable that occurs in it: it has to be linear in
it with coefficient one, so that the variable equals the rest of the check. A system in which every
variable that is not an input is defined is a function of its inputs.

## Main definitions

- `ParitySystem`: the numbers of variables and the checks
- `DefinitionError`, `SolveError`: why a system is not a function, or cannot be solved
- `ParitySystem.definitions`: the defining expression of every variable that is not an input
- `ParitySystem.solve`, `ParitySystem.apply`: all variables, or the outputs, from the inputs
- `ParitySystem.isSatisfied`: whether an assignment satisfies all checks

## Design notes

Several checks may define one variable; the last of them is taken.
-/

namespace HalfGates

/-- Why a parity system does not define a function. -/
inductive DefinitionError
  /-- A check has no variable. -/
  | constantConstraint (check : Nat)
  /-- The derivative of a check by its last variable is not constant. -/
  | nonLinearGradient (check var : Nat)
  /-- The derivative of a check by its last variable is zero. -/
  | zeroGradient (check var : Nat)
  /-- A check defines an input. -/
  | constrainedInput (check var : Nat)
  /-- A check defines a variable beyond the last one. -/
  | variableOutOfRange (check var length : Nat)
  /-- No check defines a variable. -/
  | gap (var : Nat)
  deriving DecidableEq

/-- The text of a refusal. -/
def DefinitionError.message : DefinitionError → String
  | .constantConstraint check => s!"parity check {check} is a constant"
  | .nonLinearGradient check var => s!"parity check {check} is not linear in variable {var}"
  | .zeroGradient check var => s!"parity check {check} does not depend on variable {var}"
  | .constrainedInput check var => s!"parity check {check} constrains input variable {var}"
  | .variableOutOfRange check var length =>
    s!"parity check {check} defines variable {var} beyond length {length}"
  | .gap var => s!"variable {var} is not defined by any parity check"

/-- Why a system cannot be solved. -/
inductive SolveError
  /-- The system is not a function. -/
  | undefined (error : DefinitionError)
  /-- There are fewer input bits than input variables. -/
  | shortInput (needed given : Nat)
  /-- A definition reads a variable that has no value yet. -/
  | missingValue (var : Nat)
  deriving DecidableEq

/-- The text of a refusal. -/
def SolveError.message : SolveError → String
  | .undefined error => error.message
  | .shortInput needed given =>
    s!"range end index {needed} out of range for slice of length {given}"
  | .missingValue var => s!"variable {var} has no value"

/-- A function of bits, given by checks that have to be zero. -/
structure ParitySystem where
  inputs : Nat
  auxiliaries : Nat
  outputs : Nat
  checks : List Expr

namespace ParitySystem

/-- Whether two systems are written the same way. -/
def same (s t : ParitySystem) : Bool :=
  s.inputs == t.inputs && s.auxiliaries == t.auxiliaries && s.outputs == t.outputs &&
    Expr.sameList s.checks t.checks

instance : BEq ParitySystem := ⟨same⟩

/-- The number of variables. -/
def length (s : ParitySystem) : Nat :=
  s.inputs + s.auxiliaries + s.outputs

/-- The variable that a check defines and the expression that it equals. -/
def rule (s : ParitySystem) (check : Nat) (e : Expr) : Except DefinitionError (Nat × Expr) :=
  match e.maxVariable with
  | none => .error (.constantConstraint check)
  | some v =>
    match (e.derivative v).constant? with
    | none => .error (.nonLinearGradient check v)
    | some false => .error (.zeroGradient check v)
    | some true =>
      if v < s.inputs then .error (.constrainedInput check v)
      else if s.length ≤ v then .error (.variableOutOfRange check v s.length)
      else .ok (v, e.substitute v false)

/-- The variables that the checks define, in the order of the checks. -/
def rules (s : ParitySystem) : Except DefinitionError (List (Nat × Expr)) :=
  s.checks.zipIdx.mapM fun entry => s.rule entry.2 entry.1

/-- The last of the rules for a variable. -/
def lastRule (rules : List (Nat × Expr)) (v : Nat) : Except DefinitionError Expr :=
  match rules.reverse.find? fun r => r.1 == v with
  | some r => .ok r.2
  | none => .error (.gap v)

/-- The variables that are not inputs, in order. -/
def definedVariables (s : ParitySystem) : List Nat :=
  List.range' s.inputs (s.auxiliaries + s.outputs)

/-- The defining expression of every variable that is not an input, in order. -/
def definitions (s : ParitySystem) : Except DefinitionError (List Expr) := do
  let rules ← s.rules
  s.definedVariables.mapM (lastRule rules)

/-- The values of the next variables after those already known, one for each definition. -/
def extend (values : List Bool) : List Expr → Except SolveError (List Bool)
  | [] => .ok values
  | d :: ds =>
    match d.evaluate values with
    | some v => extend (values ++ [v]) ds
    | none => .error (.missingValue values.length)

/-- Every variable, from the inputs. Bits beyond the inputs are ignored. -/
def solve (s : ParitySystem) (bits : List Bool) : Except SolveError (List Bool) :=
  match s.definitions with
  | .error e => .error (.undefined e)
  | .ok definitions =>
    if s.inputs ≤ bits.length then extend (bits.take s.inputs) definitions
    else .error (.shortInput s.inputs bits.length)

/-- The outputs, from the inputs. -/
def apply (s : ParitySystem) (bits : List Bool) : Except SolveError (List Bool) := do
  let values ← s.solve bits
  .ok (values.drop (s.length - s.outputs))

/-- Whether all of the checks are zero; nothing behind the first that is not is evaluated. -/
def allZero (assignment : List Bool) : List Expr → Option Bool
  | [] => some true
  | e :: es =>
    match e.evaluate assignment with
    | none => none
    | some true => some false
    | some false => allZero assignment es

/-- Whether an assignment gives a value to every variable and satisfies every check, unless a check
reads a variable that there is not. -/
def isSatisfied (s : ParitySystem) (assignment : List Bool) : Option Bool :=
  if assignment.length = s.length then allZero assignment s.checks else some false

/-! ### Standard systems -/

/-- The function of two bits that an expression gives. -/
def binary (e : Expr) : ParitySystem :=
  ⟨2, 0, 1, [.variable 2 + e]⟩

/-- The conjunction of two bits. -/
def conjunction : ParitySystem :=
  binary (.variable 0 * .variable 1)

/-- The disjunction of two bits. -/
def disjunction : ParitySystem :=
  binary (.variable 0 + .variable 1 + .variable 0 * .variable 1)

/-- The exclusive or of two bits. -/
def exclusiveOr : ParitySystem :=
  binary (.variable 0 + .variable 1)

end ParitySystem

end HalfGates
