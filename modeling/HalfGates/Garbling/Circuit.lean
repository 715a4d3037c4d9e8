import HalfGates.Garbling.Error
import HalfGates.Program.Basic
import HalfGates.Garbling.HalfGate

/-!
# Garbled circuits

A garbled circuit is what the evaluator works on: the program, the payload of every gate and the hash
agreed upon. Running it on one label for each evaluator input gives a label for every output, and the
value of every output that the evaluator may learn.

## Main definitions

- `GarbledCircuit`, `GarbledCircuit.ofTables`: a program with its tables
- `Held`, `GarbledRun`: what the evaluator holds of a gate, and its state between gates
- `GarbledRun.operation`, `GarbledRun.step`: one operation, and one gate
- `GarbledCircuit.run`: the whole program

## Design notes

Which rule applies to a gate depends on the scopes of the gate and of its operands alone, as it does for
the generator. Payload bits behind those that a gate needs are ignored. All pads come from
`GarbledRun.perform`, which records every label that is hashed.
-/

namespace HalfGates

/-- A program, its tables, and the hash that both parties use. -/
structure GarbledCircuit where
  program : Program
  /-- The payload of every gate. -/
  tables : List BitView
  hash : TweakedHash

/-- What the evaluator holds of a gate. -/
structure Held where
  label : Block
  /-- The value, if the evaluator knows it. -/
  bit : Option Bool
  scope : Scope
  deriving DecidableEq

/-- The evaluator's state between two gates. -/
structure GarbledRun where
  /-- The gates evaluated so far, newest first. -/
  past : List Held
  /-- The input labels not yet read. -/
  inputs : List Block
  /-- The labels that were hashed and where, newest first. -/
  queries : List Query
  deriving DecidableEq

/-- What the evaluator ends with. -/
structure RunResult where
  /-- The values of the outputs that the evaluator learns, in order. -/
  ungarbled : List Bool
  /-- The labels of all outputs. -/
  labels : List Block
  /-- The evaluator's state after the last gate. -/
  final : GarbledRun

namespace GarbledRun

/-- Takes a row from the front of a payload. -/
def takeRow (index : Nat) (payload : BitView) : Except EvaluationError (Block × BitView) :=
  match payload.split? 128 with
  | none => .error (.truncatedPayload index)
  | some (front, rest) =>
    match front.toBlock with
    | .ok row => .ok (row, rest)
    | .error e => .error (.payload e)

/-- The label of a half gate; what is hashed for it is recorded as it is hashed. -/
def perform (hash : TweakedHash) (s : GarbledRun) (c : Hashing Block) : Block × GarbledRun :=
  let (label, queries) := c.run hash s.queries
  (label, { s with queries := queries })

/-- The label of a source. The evaluator's label of what the generator knows is zero, its own inputs have
the labels it was given, and no other source has one. -/
def source (index : Nat) (isInput : Bool) (scope : Scope) (s : GarbledRun) :
    Except EvaluationError (Block × GarbledRun) :=
  if scope.generator then .ok (0, s)
  else
    match isInput, s.inputs with
    | true, label :: rest => .ok (label, { s with inputs := rest })
    | _, _ => .error (.missingInputLabel index)

/-- The label of a conjunction with an operand whose value the generator knows. -/
def generatorHalf (hash : TweakedHash) (place : Tweak) (x y : Held) (payload : BitView)
    (s : GarbledRun) : Except EvaluationError (Block × BitView × GarbledRun) := do
  let other := if x.scope.generator then y else x
  let (row, rest) ← takeRow place.gate payload
  let (label, s) := s.perform hash (HalfGate.openKnown place other.label row)
  .ok (label, rest, s)

/-- The label of a conjunction with an operand whose value the evaluator knows. The operands stand at the
positions `first` and `second`. -/
def evaluatorHalf (hash : TweakedHash) (place : Tweak) (first second : Nat) (p q : Bool) (x y : Held)
    (payload : BitView) (s : GarbledRun) :
    Except EvaluationError (Block × BitView × GarbledRun) := do
  let (known, origin, other, negated) :=
    if x.scope.evaluator then (x, first, y, p) else (y, second, x, q)
  let (row, rest) ← takeRow place.gate payload
  match known.bit with
  | none => .error (.unknownBit origin)
  | some value =>
    let (label, s) :=
      s.perform hash (HalfGate.openMasked place known.label other.label value negated row)
    .ok (label, rest, s)

/-- The label of a conjunction of two operands whose values nobody knows. The second operand is split
into a random bit that the generator knows and the rest, which is the select bit of the label held. -/
def split (hash : TweakedHash) (index : Nat) (g : Gate) (p q : Bool) (x y : Held) (payload : BitView)
    (s : GarbledRun) : Except EvaluationError (Block × BitView × GarbledRun) := do
  let mask : Held := ⟨0, none, .generatorOnly⟩
  let (upper, rest, s) ← generatorHalf hash ⟨index, 3⟩ x mask payload s
  let masked : Held := ⟨y.label ^^^ mask.label, some y.label.select, .evaluatorOnly⟩
  let (lower, rest, s) ←
    evaluatorHalf hash ⟨index, 1⟩ (g.operandAt index 0) index p q x masked rest s
  .ok (lower ^^^ upper, rest, s)

/-- The label of a gate, from its operation on what is held, and the rest of the payload. -/
def operation (hash : TweakedHash) (index : Nat) (g : Gate) (payload : BitView)
    (s : GarbledRun) : Operation Held → Except EvaluationError (Block × BitView × GarbledRun)
  | .input => do
    let (label, s) ← s.source index true g.scope
    .ok (label, payload, s)
  | .random => do
    let (label, s) ← s.source index false g.scope
    .ok (label, payload, s)
  | .constant _ => do
    let (label, s) ← s.source index false g.scope
    .ok (label, payload, s)
  | .unary _ x => .ok (x.label, payload, s)
  | .linear _ x y => .ok (x.label ^^^ y.label, payload, s)
  | .conjunction p q _ x y =>
    if g.scope.generator && g.scope.evaluator then .ok (0, payload, s)
    else if x.scope.generator || y.scope.generator then
      s.generatorHalf hash ⟨index, 0⟩ x y payload
    else if x.scope.evaluator || y.scope.evaluator then
      s.evaluatorHalf hash ⟨index, 0⟩ (g.operandAt index 0) (g.operandAt index 1) p q x y payload
    else
      s.split hash index g p q x y payload

/-- The value that the evaluator learns: the select bit of its label, masked with the bit published
behind the rows. -/
def learn (index : Nat) (scope : Scope) (label : Block) (rest : BitView) :
    Except EvaluationError (Option Bool) :=
  if scope.evaluator then
    match rest.get? 0 with
    | some mask => .ok (some (label.select ^^ mask))
    | none => .error (.truncatedPayload index)
  else .ok none

/-- Evaluates the next gate. -/
def step (hash : TweakedHash) (s : GarbledRun) (g : Gate) (payload : BitView) :
    Except EvaluationError GarbledRun :=
  let index := s.past.length
  match g.op.mapM? (back? s.past) with
  | none => .error (.uninitializedLabel index)
  | some op => do
    let (label, rest, s) ← s.operation hash index g payload op
    let bit ← learn index g.scope label rest
    .ok { s with past := ⟨label, bit, g.scope⟩ :: s.past }

/-- Evaluates gates in order, each with its payload. -/
def steps (hash : TweakedHash) (s : GarbledRun) :
    List Gate → List BitView → Except EvaluationError GarbledRun
  | [], _ => .ok s
  | _ :: _, [] => .error (.truncatedPayload s.past.length)
  | g :: gates, payload :: payloads => do
    let s ← s.step hash g payload
    s.steps hash gates payloads

/-- The label of the gate at a position. -/
def labelAt (held : List Held) (index : Nat) : Except EvaluationError Block :=
  match held[index]? with
  | some h => .ok h.label
  | none => .error (.uninitializedLabel index)

/-- The value of the gate at a position. -/
def bitAt (held : List Held) (index : Nat) : Except EvaluationError Bool :=
  match held[index]?.bind Held.bit with
  | some bit => .ok bit
  | none => .error (.unknownBit index)

end GarbledRun

namespace GarbledCircuit

/-- A program with the tables received for it, one for each gate. -/
def ofTables (program : Program) (tables : List BitView) (hash : TweakedHash) :
    Except EvaluationError GarbledCircuit :=
  if tables.length = program.length then .ok ⟨program, tables, hash⟩
  else .error (.tableCountMismatch program.length tables.length)

/-- The number of bits of all payloads. -/
def bitLength (tables : List BitView) : Nat :=
  tables.foldl (fun n v => n + v.length) 0

/-- Runs the program on one label for each evaluator input. -/
def run (c : GarbledCircuit) (inputs : List Block) : Except EvaluationError RunResult :=
  if inputs.length = c.program.inputIndices.length then do
    let final ← GarbledRun.steps c.hash ⟨[], inputs, []⟩ c.program.gates c.tables
    let held := final.past.reverse
    let ungarbled ← c.program.ungarbledOutputs.mapM (GarbledRun.bitAt held)
    let labels ← c.program.outputs.mapM (GarbledRun.labelAt held)
    .ok ⟨ungarbled, labels, final⟩
  else
    .error (.inputCountMismatch c.program.inputIndices.length inputs.length)

end GarbledCircuit

end HalfGates
