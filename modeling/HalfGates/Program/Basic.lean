import HalfGates.Gate.Operation

/-!
# Programs of gates

A program is a list of gates, each of which names its operands by how many places back they stand,
together with the positions of its outputs. A program is read from left to right with the part
already read at hand as a history, the newest entry first: the operand at offset `d` is entry `d` of
the history, counted from one.

## Main definitions

- `back?`: an entry of a history by offset
- `Gate`, `Program`: gates and programs
- `Gate.operandAt`: the position of an operand
- `Program.inputIndices`: the inputs that the evaluator supplies
- `Program.ungarbledOutputs`: the outputs that the evaluator learns
- `Gate.widened`: a gate whose scope includes what its operands reveal
-/

namespace HalfGates

/-- The entry `d` places back in a history that has its newest entry first. -/
def back? {α : Type} (past : List α) : Nat → Option α
  | 0 => none
  | d + 1 => past[d]?

/-- A gate of a program: an operation on earlier gates, and the parties that learn its value. -/
structure Gate where
  op : Operation Nat
  scope : Scope
  deriving DecidableEq

namespace Gate

/-- The kind of a gate. -/
def kind (g : Gate) : GateKind :=
  g.op.kind

/-- The position of an operand, counted from zero, of a gate that stands at a position; the gate's own if it
has no such operand. -/
def operandAt (g : Gate) (index k : Nat) : Nat :=
  index - g.op.operands.getD k 0

/-- Whether the evaluator supplies the value: an input that the generator does not know. -/
def isEvaluatorInput (g : Gate) : Bool :=
  g.kind == .input && !g.scope.generator

/-- Whether the generator supplies the value: an input that it knows. -/
def isGeneratorInput (g : Gate) : Bool :=
  g.kind == .input && g.scope.generator

/-- The scope of the gate `d` places back. -/
def scopeBack (past : List Gate) (d : Nat) : Scope :=
  match back? past d with
  | some g => g.scope
  | none => .neither

/-- The parties that know every operand of an operation. -/
def floor (past : List Gate) (op : Operation Nat) : Scope :=
  (op.map (scopeBack past)).floor

/-- The gate with the requested scope, widened to the parties that know every operand. -/
def widened (past : List Gate) (op : Operation Nat) (scope : Scope) : Gate :=
  ⟨op, scope.union (floor past op)⟩

end Gate

/-- A list of gates with declared outputs. -/
structure Program where
  gates : List Gate
  outputs : List Nat
  deriving DecidableEq

namespace Program

/-- The number of gates. -/
def length (p : Program) : Nat :=
  p.gates.length

/-- The positions of the gates that satisfy a test, in order. -/
def positions (p : Program) (test : Gate → Bool) : List Nat :=
  (p.gates.zipIdx.filter fun entry => test entry.1).map Prod.snd

/-- The positions of the inputs that the evaluator supplies. -/
def inputIndices (p : Program) : List Nat :=
  p.positions Gate.isEvaluatorInput

/-- Whether the gate at a position is known to the evaluator. -/
def revealed (p : Program) (index : Nat) : Bool :=
  p.gates[index]?.any fun g => g.scope.evaluator

/-- The declared outputs whose value the evaluator learns. -/
def ungarbledOutputs (p : Program) : List Nat :=
  p.outputs.filter p.revealed

/-- The number of gates of a kind. -/
def count (p : Program) (k : GateKind) : Nat :=
  p.gates.countP fun g => g.kind == k

/-- The number of conjunctions. -/
def nonlinearCount (p : Program) : Nat :=
  p.gates.countP fun g => g.kind.isNonlinear

/-- The number of inputs and random bits. -/
def sourceCount (p : Program) : Nat :=
  p.gates.countP fun g => g.kind.isSource

/-- The number of inputs that the generator supplies. -/
def generatorInputCount (p : Program) : Nat :=
  p.gates.countP Gate.isGeneratorInput

end Program

end HalfGates
