import HalfGates.Constraint.System
import HalfGates.Program.Builder

/-!
# Programs that compute parity systems

A system is lowered to a program one variable at a time: an input becomes a source, and any other
variable becomes the gates of its defining expression, the last of which holds its value. All gates of
a variable are requested with the scope asked for the variable; constants are known to both parties.

## Main definitions

- `LoweringOptions`: the scope asked for each variable, and which inputs are random
- `Lowering`: a program and the position of every variable
- `ParitySystem.lower`: the lowering of a system
- `CompileError`: why there is none

## Design notes

A sum or a product of two or more expressions becomes a chain of gates from left to right, one of a
single expression an identity, and an empty one a constant.
-/

namespace HalfGates

/-- Why a system has no program. -/
inductive CompileError
  /-- The system is not a function. -/
  | undefined (error : DefinitionError)
  /-- A gate is refused. -/
  | program (error : ProgramError)
  /-- A definition reads a variable beyond the `count` that have a gate. -/
  | missingPlace (var count : Nat)
  deriving DecidableEq

/-- The text of a refusal. -/
def CompileError.message : CompileError → String
  | .undefined error => error.message
  | .program error => error.message
  | .missingPlace var count => s!"index out of bounds: the len is {count} but the index is {var}"

/-- What is asked of the variables. -/
structure LoweringOptions where
  /-- The parties that are to learn a variable. -/
  scope : Nat → Scope
  /-- Whether an input is a random bit. -/
  random : Nat → Bool

/-- A program and the position of the gate that holds each variable. -/
structure Lowering where
  program : Program
  «variables» : List Nat
  deriving DecidableEq

/-- A program under construction and the positions of the variables so far. -/
structure LoweringState where
  builder : Builder
  «variables» : List Nat
  deriving DecidableEq

namespace Lowering

/-- Appends a gate and gives its position. -/
def emit (b : Builder) (r : GateRequest) : Except CompileError (Nat × Builder) :=
  match b.add r with
  | .ok b' => .ok (b.length, b')
  | .error e => .error (.program e)

/-- Appends a constant. -/
def emitConstant (b : Builder) (value : Bool) : Except CompileError (Nat × Builder) :=
  emit b ⟨.constant value, .both, []⟩

/-- Appends gates that combine the gate before with each of the gates at `positions` in turn. -/
def emitRest (kind : GateKind) (scope : Scope) (last : Nat) (b : Builder) :
    List Nat → Except CompileError (Nat × Builder)
  | [] => .ok (last, b)
  | position :: rest => do
    let (last, b) ← emit b ⟨kind, scope, [b.length - position, 1]⟩
    emitRest kind scope last b rest

/-- Appends a chain of gates that combines the gates at `positions`; `unit` is its value if there are
none. -/
def emitChain (unit : Bool) (kind : GateKind) (scope : Scope) (b : Builder) :
    List Nat → Except CompileError (Nat × Builder)
  | [] => emitConstant b unit
  | [only] => emit b ⟨.unary false, scope, [b.length - only]⟩
  | first :: second :: rest => do
    let (last, b) ← emit b ⟨kind, scope, [b.length - first, b.length - second]⟩
    emitRest kind scope last b rest

mutual

/-- Appends gates that compute an expression and gives the position of the last one. -/
def emitExpr (places : List Nat) (scope : Scope) (b : Builder) :
    Expr → Except CompileError (Nat × Builder)
  | .constant value => emitConstant b value
  | .variable v =>
    match places[v]? with
    | some position => emit b ⟨.unary false, scope, [b.length - position]⟩
    | none => .error (.missingPlace v places.length)
  | .sum terms => do
    let (positions, b) ← emitExprs places scope b terms
    emitChain false (.linear false) scope b positions
  | .product factors => do
    let (positions, b) ← emitExprs places scope b factors
    emitChain true (.conjunction false false false) scope b positions

/-- Appends gates that compute each of the expressions in turn. -/
def emitExprs (places : List Nat) (scope : Scope) (b : Builder) :
    List Expr → Except CompileError (List Nat × Builder)
  | [] => .ok ([], b)
  | e :: es => do
    let (position, b) ← emitExpr places scope b e
    let (positions, b) ← emitExprs places scope b es
    .ok (position :: positions, b)

end

/-- Appends the source of the next input. -/
def emitInput (options : LoweringOptions) (s : LoweringState) : Except CompileError LoweringState := do
  let v := s.variables.length
  let kind : GateKind := if options.random v then .random else .input
  let (position, b) ← emit s.builder ⟨kind, options.scope v, []⟩
  .ok ⟨b, s.variables ++ [position]⟩

/-- Appends the gates of the next variable, which the expression defines. -/
def emitDefinition (options : LoweringOptions) (s : LoweringState) (definition : Expr) :
    Except CompileError LoweringState := do
  let (position, b) ←
    emitExpr s.variables (options.scope s.variables.length) s.builder definition
  .ok ⟨b, s.variables ++ [position]⟩

end Lowering

/-- The program of a system. -/
def ParitySystem.lower (s : ParitySystem) (options : LoweringOptions) :
    Except CompileError Lowering :=
  match s.definitions with
  | .error e => .error (.undefined e)
  | .ok definitions => do
    let state ← (List.range s.inputs).foldlM
      (fun state _ => Lowering.emitInput options state) ⟨.empty, []⟩
    let state ← definitions.foldlM (Lowering.emitDefinition options) state
    let outputs := state.variables.drop (s.inputs + s.auxiliaries)
    match (state.builder.withOutputs outputs).build with
    | .ok program => .ok ⟨program, state.variables⟩
    | .error e => .error (.program e)

end HalfGates
