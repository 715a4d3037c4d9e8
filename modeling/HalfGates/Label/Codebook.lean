import HalfGates.Label.Offset

/-!
# Codebooks of labels

The generator keeps the offset Δ and the labels for zero of the evaluator's inputs and of the outputs.
With them it encodes input bits as labels and decodes output labels as bits.

## Main definitions

- `Codebook`: the secrets that the generator keeps
- `Codebook.encodeBit`, `Codebook.encode`, `Codebook.pairs`: labels of inputs
- `Codebook.decodeLabel`, `Codebook.decode`: bits of output labels
-/

namespace HalfGates

/-- What encodes the evaluator's inputs and decodes the outputs. -/
structure Codebook where
  delta : Delta
  /-- The labels for zero of the evaluator's inputs, in the order of the program. -/
  inputZeros : List Block
  /-- The labels for zero of the declared outputs. -/
  outputZeros : List Block

namespace Codebook

/-- The label of a bit of the input at `index`. -/
def encodeBit (c : Codebook) (bit : Bool) (index : Nat) : Except GarblingError Block :=
  match c.inputZeros[index]? with
  | some zero => .ok (zero ^^^ c.delta.times bit)
  | none => .error (.inputOutOfRange index c.inputZeros.length)

/-- The labels of bits of consecutive inputs, from the one at `start` on. -/
def encode (c : Codebook) : List Bool → Nat → Except GarblingError (List Block)
  | [], _ => .ok []
  | bit :: rest, start => do
    let label ← c.encodeBit bit start
    let labels ← c.encode rest (start + 1)
    .ok (label :: labels)

/-- Both labels of every input. -/
def pairs (c : Codebook) : List (Block × Block) :=
  c.inputZeros.map fun zero => (zero, zero ^^^ c.delta.block)

/-- The bit that a label of the output at `index` stands for. -/
def decodeLabel (c : Codebook) (label : Block) (index : Nat) : Except GarblingError Bool :=
  match c.outputZeros[index]? with
  | none => .error (.outputOutOfRange index c.outputZeros.length)
  | some zero =>
    if label = zero then .ok false
    else if label = zero ^^^ c.delta.block then .ok true
    else .error (.invalidOutputLabel index)

/-- The bits that labels of consecutive outputs stand for, from the one at `start` on. -/
def decodeFrom (c : Codebook) : List Block → Nat → Except GarblingError (List Bool)
  | [], _ => .ok []
  | label :: rest, start => do
    let bit ← c.decodeLabel label start
    let bits ← c.decodeFrom rest (start + 1)
    .ok (bit :: bits)

/-- The bits that labels of the outputs stand for, from the first output on. -/
def decode (c : Codebook) (labels : List Block) : Except GarblingError (List Bool) :=
  c.decodeFrom labels 0

end Codebook

end HalfGates
