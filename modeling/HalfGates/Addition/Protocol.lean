import HalfGates.Bits.Number
import HalfGates.Codec
import HalfGates.Constraint.Adder
import HalfGates.Constraint.Lowering
import HalfGates.Garbling.Circuit
import HalfGates.Garbling.Garble
import HalfGates.Program.Liveness

/-!
# Adding two secret numbers

The generator and the evaluator hold one number each. The generator garbles an adder and sends the
encoded tables; the evaluator runs them on the labels of its number, learns the sum if it is to learn
it, and returns the labels of the outputs, which the generator decodes.

## Main definitions

- `Addition`: the two numbers, their width, and whether the evaluator learns the sum
- `Addition.program`: the adder that is garbled
- `Addition.run`: both parties together
- `AdditionReport`: what can be seen of a run
-/

namespace HalfGates

/-- Two numbers to add modulo `2 ^ width`. -/
structure Addition where
  /-- The number of the generator. -/
  first : Nat
  /-- The number of the evaluator. -/
  second : Nat
  width : Nat
  /-- Whether the evaluator learns the sum too. -/
  reveal : Bool
  deriving DecidableEq

/-- What the generator draws from. -/
structure GeneratorSecrets where
  delta : Delta
  randomBits : Nat → Bool
  labels : Nat → Block

/-- Why an addition fails. -/
inductive AdditionError
  /-- The adder has no program. -/
  | compile (error : CompileError)
  /-- The program cannot be simplified. -/
  | program (error : ProgramError)
  /-- The generator fails. -/
  | garbling (error : GarblingError)
  /-- The tables cannot be read. -/
  | tables (error : DecodeError)
  /-- The evaluator fails. -/
  | evaluation (error : EvaluationError)

/-- The text of a failure. -/
def AdditionError.message : AdditionError → String
  | .compile error => error.message
  | .program error => error.message
  | .garbling error => error.message
  | .tables error => error.message?.getD "io error"
  | .evaluation error => error.message

/-- What can be seen of an addition. -/
structure AdditionReport where
  /-- The program that was garbled. -/
  program : Program
  /-- The number of bytes that were sent. -/
  tableBytes : Nat
  /-- The outputs that the evaluator learned. -/
  learned : List Bool
  /-- The outputs that the generator decoded. -/
  sum : List Bool

namespace Addition

/-- The parties that are to learn a variable: the generator its own number, and the evaluator the sum
if it is to be revealed. -/
def scope (t : Addition) (v : Nat) : Scope :=
  if v < t.width then .generatorOnly
  else if t.reveal && decide (3 * t.width - 1 ≤ v) then .evaluatorOnly
  else .neither

/-- The adder that is garbled. -/
def program (t : Addition) : Except AdditionError Program := do
  let lowering ← ((ParityAdder.system t.width).lower ⟨t.scope, fun _ => false⟩).mapError .compile
  lowering.program.simplify.mapError .program

/-- Adds the numbers: the parties agree on the program and the hash, and everything else that one sends
to the other are the encoded tables and labels. -/
def run (t : Addition) (hash : TweakedHash) (secrets : GeneratorSecrets) :
    Except AdditionError AdditionReport := do
  let program ← t.program
  let garbling ← (program.garble
    { delta := secrets.delta
      hash
      inputs := Bits.ofNat t.width t.first
      randomBits := secrets.randomBits
      labels := secrets.labels }).mapError .garbling
  let sent := Codec.putTables garbling.tables
  let inputs ← (garbling.codebook.encode (Bits.ofNat t.width t.second) 0).mapError .garbling
  let received ← (Codec.decode Codec.takeTables sent).mapError .tables
  let circuit ← (GarbledCircuit.ofTables program received hash).mapError .evaluation
  let result ← (circuit.run inputs).mapError .evaluation
  let sum ← (garbling.codebook.decode result.labels).mapError .garbling
  .ok ⟨program, sent.length, result.ungarbled, sum⟩

end Addition

end HalfGates
