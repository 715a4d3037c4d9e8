import HalfGates.Program.Basic

/-!
# Evaluation in the clear

Given one bit for each source, in order, every gate of a program has a value.

## Main definitions

- `PlainRun`, `PlainRun.step`: the values so far and the source bits not yet read
- `Program.values`: the value of every gate
- `Program.evalGates`, `Program.eval`: all values, or those of the outputs, if there are as many bits
  as sources

## Design notes

An offset that points at no gate reads as false. No program that a builder accepts has one.
-/

namespace HalfGates

/-- There are not as many bits as a program has sources. -/
inductive EvalError
  | inputCountMismatch (expected actual : Nat)
  deriving DecidableEq

/-- The text of a refusal. -/
def EvalError.message : EvalError → String
  | .inputCountMismatch expected actual => s!"expected {expected} source bits, got {actual}"

/-- An evaluation under way. -/
structure PlainRun where
  /-- The values of the gates read so far, newest first. -/
  past : List Bool
  /-- The source bits not yet read. -/
  supply : List Bool
  deriving DecidableEq

namespace PlainRun

/-- The value of the gate `d` places back. -/
def bitBack (past : List Bool) (d : Nat) : Bool :=
  (back? past d).getD false

/-- The value of the next gate. -/
def value (r : PlainRun) (g : Gate) : Bool :=
  (g.op.map (bitBack r.past)).value (r.supply.headD false)

/-- Reads one gate. A source takes the next bit of the supply. -/
def step (r : PlainRun) (g : Gate) : PlainRun :=
  ⟨r.value g :: r.past, if g.kind.isSource then r.supply.tail else r.supply⟩

end PlainRun

namespace Program

/-- The value of every gate, in order. -/
def values (p : Program) (sources : List Bool) : List Bool :=
  (p.gates.foldl PlainRun.step ⟨[], sources⟩).past.reverse

/-- The value of every gate, if there is one bit for each source. -/
def evalGates (p : Program) (sources : List Bool) : Except EvalError (List Bool) :=
  if sources.length = p.sourceCount then .ok (p.values sources)
  else .error (.inputCountMismatch p.sourceCount sources.length)

/-- The entries at the declared outputs. -/
def atOutputs (p : Program) (values : List Bool) : List Bool :=
  p.outputs.map fun i => values.getD i false

/-- The value of every declared output, if there is one bit for each source. -/
def eval (p : Program) (sources : List Bool) : Except EvalError (List Bool) := do
  let values ← p.evalGates sources
  .ok (p.atOutputs values)

end Program

end HalfGates
