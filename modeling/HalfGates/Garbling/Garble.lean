import HalfGates.Garbling.HalfGate
import HalfGates.Label.Codebook
import HalfGates.Program.Basic

/-!
# Garbling

The generator reads a program from left to right and keeps for every gate its label for zero and, if
the generator is in the scope of the gate, its value. The label of a gate that the generator knows the
source of needs no randomness: it is such that the evaluator's label is zero. A conjunction takes no row
if both parties know it, one row if some party knows an operand, and two rows otherwise. The payload of
a gate is its rows, followed by the select bit of its label for zero if the evaluator is to learn the
value.

## Main definitions

- `GarblingSetup`: the secrets and streams that garbling draws from
- `Wire`, `Garbler`: what the generator holds of a gate, and its state between gates
- `Garbler.perform`: one half gate
- `Garbler.operation`, `Garbler.step`: one operation, and one gate
- `Program.garble`: the tables and the codebook of a program

## Design notes

Random bits come from a stream, in front of which bits may be pushed back. The state counts what was
drawn, so that the consumption of randomness can be read off it. Half gates have no hash at hand: all pads
come from `Garbler.perform`, which records every label that is hashed.
-/

namespace HalfGates

/-- What garbling depends on besides the program. -/
structure GarblingSetup where
  delta : Delta
  hash : TweakedHash
  /-- The inputs that the generator supplies, in the order of the program. -/
  inputs : List Bool
  /-- The bits of the random gates that the generator knows. -/
  randomBits : Nat → Bool
  /-- The labels for zero of the sources that the generator does not know. -/
  labels : Nat → Block

/-- What the generator holds of a gate. -/
structure Wire where
  /-- The label for zero. -/
  zero : Block
  /-- The value, if the generator knows it. -/
  bit : Option Bool
  scope : Scope
  deriving DecidableEq

/-- The generator's state between two gates. -/
structure Garbler where
  /-- The gates garbled so far, newest first. -/
  past : List Wire
  /-- How many generator inputs were read. -/
  inputsUsed : Nat
  /-- Bits to be read before those of the stream, the next one first. -/
  pushed : List Bool
  /-- How many bits of the random stream were read. -/
  randomUsed : Nat
  /-- How many labels of the label stream were read. -/
  labelsUsed : Nat
  /-- How many rows were made. -/
  rows : Nat
  /-- The labels that were hashed, newest first. -/
  queries : List Query
  deriving DecidableEq

namespace Garbler

/-- The state before the first gate. -/
def initial : Garbler :=
  ⟨[], 0, [], 0, 0, 0, []⟩

/-- Puts a bit in front of the random stream. -/
def pushBack (s : Garbler) (bit : Bool) : Garbler :=
  { s with pushed := bit :: s.pushed }

/-- The next random bit. -/
def drawBit (setup : GarblingSetup) (s : Garbler) : Bool × Garbler :=
  match s.pushed with
  | bit :: rest => (bit, { s with pushed := rest })
  | [] => (setup.randomBits s.randomUsed, { s with randomUsed := s.randomUsed + 1 })

/-- The next label. -/
def drawLabel (setup : GarblingSetup) (s : Garbler) : Block × Garbler :=
  (setup.labels s.labelsUsed, { s with labelsUsed := s.labelsUsed + 1 })

/-- Makes a half gate: one more row, and what is hashed for it is recorded as it is hashed. -/
def perform (setup : GarblingSetup) (s : Garbler) (c : Hashing HalfGate) : HalfGate × Garbler :=
  let (half, queries) := c.run setup.hash s.queries
  (half, { s with rows := s.rows + 1, queries := queries })

/-- A wire whose value the generator knows and the evaluator's label of which is zero. -/
def publicWire (setup : GarblingSetup) (scope : Scope) (bit : Bool) : Wire :=
  ⟨setup.delta.times bit, some bit, scope⟩

/-- The value of a gate if its scope includes the generator; the operands have to give one then. -/
def knownBit (place : Tweak) (scope : Scope) (value : Option Bool) :
    Except GarblingError (Option Bool) :=
  if scope.generator then
    match value with
    | some bit => .ok (some bit)
    | none => .error (.underivableBit place.gate place.part)
  else .ok none

/-- The wire of an input. -/
def input (setup : GarblingSetup) (scope : Scope) (s : Garbler) :
    Except GarblingError (Wire × Garbler) :=
  if scope.generator then
    match setup.inputs[s.inputsUsed]? with
    | some bit => .ok (publicWire setup scope bit, { s with inputsUsed := s.inputsUsed + 1 })
    | none => .error (.inputCountMismatch (s.inputsUsed + 1) setup.inputs.length)
  else
    let (label, s) := s.drawLabel setup
    .ok (⟨label, none, scope⟩, s)

/-- The wire of a random bit. -/
def random (setup : GarblingSetup) (scope : Scope) (s : Garbler) : Wire × Garbler :=
  if scope.generator then
    let (bit, s) := s.drawBit setup
    (publicWire setup scope bit, s)
  else
    let (label, s) := s.drawLabel setup
    (⟨label, none, scope⟩, s)

/-- The value of a conjunction of two bits. -/
def conjoin (p q n : Bool) (x y : Bool) : Bool :=
  (Operation.conjunction p q n x y).value false

/-- The half gate of a conjunction with an operand whose value the generator knows. The operands stand at
the places `first` and `second`. -/
def generatorHalf (δ : Delta) (place first second : Tweak) (p q n : Bool) (x y : Wire) :
    Except GarblingError (Hashing HalfGate) :=
  let (known, origin, other) := if x.scope.generator then (x, first, y) else (y, second, x)
  match known.bit with
  | none => .error (.underivableBit origin.gate origin.part)
  | some value =>
    let result (v : Bool) : Bool :=
      if x.scope.generator then conjoin p q n value v else conjoin p q n v value
    .ok (HalfGate.garbleKnown δ place other.zero (result false) (result true))

/-- The half gate of a conjunction with an operand whose value the evaluator knows. -/
def evaluatorHalf (δ : Delta) (place : Tweak) (p q n : Bool) (x y : Wire) : Hashing HalfGate :=
  if x.scope.evaluator then
    HalfGate.garbleMasked δ place x.zero y.zero p q n
  else
    HalfGate.garbleMasked δ place y.zero x.zero q p n

/-- A conjunction of two operands whose values nobody knows. The second operand is split into a random
bit that the generator knows and the rest, which the evaluator knows: the random bit is the select bit of
the operand's label for zero, and the rest the select bit of the label that the evaluator holds. -/
def split (setup : GarblingSetup) (index : Nat) (g : Gate) (p q n : Bool) (x y : Wire)
    (s : Garbler) : Except GarblingError (Wire × BitView × Garbler) := do
  let (mask, s) := (s.pushBack y.zero.select).random setup .generatorOnly
  let upper ← generatorHalf setup.delta ⟨index, 3⟩ ⟨g.operandAt index 0, 0⟩ ⟨index, 4⟩ p false n x mask
  let (upper, s) := s.perform setup upper
  let masked : Wire := ⟨y.zero ^^^ mask.zero, none, .evaluatorOnly⟩
  let (lower, s) := s.perform setup (evaluatorHalf setup.delta ⟨index, 1⟩ p q false x masked)
  match (BitView.ofBlock upper.row).concat (.ofBlock lower.row) with
  | .ok payload => .ok (⟨lower.zero ^^^ upper.zero, none, g.scope⟩, payload, s)
  | .error e => .error (.payload e)

/-- The wire and the rows of a gate, from its operation on wires. -/
def operation (setup : GarblingSetup) (index : Nat) (g : Gate) (s : Garbler) :
    Operation Wire → Except GarblingError (Wire × BitView × Garbler)
  | .input => do
    let (wire, s) ← s.input setup g.scope
    .ok (wire, .empty, s)
  | .random =>
    let (wire, s) := s.random setup g.scope
    .ok (wire, .empty, s)
  | .constant v => .ok (publicWire setup g.scope v, .empty, s)
  | .unary n x => do
    let bit ← knownBit ⟨index, 0⟩ g.scope (x.bit.map (· ^^ n))
    .ok (⟨x.zero ^^^ setup.delta.times n, bit, g.scope⟩, .empty, s)
  | .linear n x y => do
    let bit ← knownBit ⟨index, 0⟩ g.scope
      (x.bit.bind fun a => y.bit.map fun b => (a ^^ b) ^^ n)
    .ok (⟨x.zero ^^^ y.zero ^^^ setup.delta.times n, bit, g.scope⟩, .empty, s)
  | .conjunction p q n x y => do
    let bit ← knownBit ⟨index, 0⟩ g.scope
      (x.bit.bind fun a => y.bit.map fun b => conjoin p q n a b)
    match bit, g.scope.evaluator with
    | some value, true => .ok (publicWire setup g.scope value, .empty, s)
    | _, _ =>
      if x.scope.generator || y.scope.generator then do
        let half ← generatorHalf setup.delta ⟨index, 0⟩ ⟨g.operandAt index 0, 0⟩ ⟨g.operandAt index 1, 0⟩
          p q n x y
        let (half, s) := s.perform setup half
        .ok (⟨half.zero, bit, g.scope⟩, .ofBlock half.row, s)
      else if x.scope.evaluator || y.scope.evaluator then
        let (half, s) := s.perform setup (evaluatorHalf setup.delta ⟨index, 0⟩ p q n x y)
        .ok (⟨half.zero, bit, g.scope⟩, .ofBlock half.row, s)
      else
        s.split setup index g p q n x y

/-- The rows of a gate, followed by the select bit of its label for zero if the evaluator is to learn the
value. -/
def publish (scope : Scope) (wire : Wire) (rows : BitView) : Except GarblingError BitView :=
  if scope.evaluator then
    match rows.concat (.singleton wire.zero.select) with
    | .ok payload => .ok payload
    | .error e => .error (.payload e)
  else .ok rows

/-- The payload of the next gate. -/
def step (setup : GarblingSetup) (s : Garbler) (g : Gate) :
    Except GarblingError (BitView × Garbler) :=
  let index := s.past.length
  match g.op.mapM? (back? s.past) with
  | none => .error (.uninitializedLabel index)
  | some op => do
    let (wire, rows, s) ← s.operation setup index g op
    let payload ← publish g.scope wire rows
    .ok (payload, { s with past := wire :: s.past })

/-- The payloads of gates in order. -/
def steps (setup : GarblingSetup) (s : Garbler) :
    List Gate → Except GarblingError (List BitView × Garbler)
  | [] => .ok ([], s)
  | g :: gates => do
    let (payload, s) ← s.step setup g
    let (payloads, s) ← s.steps setup gates
    .ok (payload :: payloads, s)

/-- The label for zero of the gate at a position. -/
def zeroAt (wires : List Wire) (index : Nat) : Except GarblingError Block :=
  match wires[index]? with
  | some wire => .ok wire.zero
  | none => .error (.uninitializedLabel index)

end Garbler

/-- What comes of garbling a program. -/
structure Garbling where
  /-- The payload of every gate. -/
  tables : List BitView
  codebook : Codebook
  /-- The generator's state after the last gate. -/
  final : Garbler

/-- Garbles a program. There has to be one generator input for each input that the generator knows. -/
def Program.garble (p : Program) (setup : GarblingSetup) : Except GarblingError Garbling :=
  if setup.inputs.length = p.generatorInputCount then do
    let (tables, final) ← Garbler.initial.steps setup p.gates
    let wires := final.past.reverse
    let inputZeros ← p.inputIndices.mapM (Garbler.zeroAt wires)
    let outputZeros ← p.outputs.mapM (Garbler.zeroAt wires)
    .ok ⟨tables, ⟨setup.delta, inputZeros, outputZeros⟩, final⟩
  else
    .error (.inputCountMismatch p.generatorInputCount setup.inputs.length)

end HalfGates
