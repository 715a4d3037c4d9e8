import HalfGates.Bits.View

/-!
# Errors of the two parties

What the generator and the evaluator may refuse, with the text of each refusal.
-/

namespace HalfGates

/-- What the generator refuses. -/
inductive GarblingError
  /-- The offset between labels has its select bit clear. -/
  | invalidDelta
  /-- There are not as many generator inputs as the program reads. -/
  | inputCountMismatch (expected actual : Nat)
  /-- A gate should be known to the generator, but its operands are not. -/
  | underivableBit (gate part : Nat)
  /-- A gate reads the label of a gate that has none. -/
  | uninitializedLabel (gate : Nat)
  /-- There is no such evaluator input. -/
  | inputOutOfRange (index count : Nat)
  /-- There is no such output. -/
  | outputOutOfRange (index count : Nat)
  /-- A label is neither of the two labels of an output. -/
  | invalidOutputLabel (index : Nat)
  /-- Rows cannot be joined. -/
  | payload (error : BitViewError)
  deriving DecidableEq

/-- The text of a refusal. -/
def GarblingError.message : GarblingError → String
  | .invalidDelta => "Delta must have its select bit set"
  | .inputCountMismatch expected actual => s!"Generator expected {expected} input bits, got {actual}"
  | .underivableBit gate part =>
    s!"Gate {gate}.{part} is declared generator-known but its value cannot be derived"
  | .uninitializedLabel gate => s!"Uninitialized label for gate {gate}"
  | .inputOutOfRange index count => s!"Input index {index} out of range for {count} inputs"
  | .outputOutOfRange index count => s!"Output index {index} out of range for {count} outputs"
  | .invalidOutputLabel index => s!"Label for output {index} decodes to neither bit"
  | .payload error => error.message

/-- What the evaluator refuses. -/
inductive EvaluationError
  /-- There are not as many input labels as the program reads. -/
  | inputCountMismatch (expected actual : Nat)
  /-- There are not as many payloads as gates. -/
  | tableCountMismatch (expected actual : Nat)
  /-- A source that the generator does not know has no input label. -/
  | missingInputLabel (gate : Nat)
  /-- The payload of a gate is shorter than its rows and bit. -/
  | truncatedPayload (gate : Nat)
  /-- A gate reads the label of a gate that has none. -/
  | uninitializedLabel (gate : Nat)
  /-- A gate reads a bit that the evaluator does not know. -/
  | unknownBit (gate : Nat)
  /-- A row does not lie on byte boundaries. -/
  | payload (error : BitViewError)
  deriving DecidableEq

/-- The text of a refusal. -/
def EvaluationError.message : EvaluationError → String
  | .inputCountMismatch expected actual => s!"Evaluator expected {expected} input labels, got {actual}"
  | .tableCountMismatch expected actual => s!"Expected {expected} garbled tables, got {actual}"
  | .missingInputLabel gate => s!"No input label supplied for gate {gate}"
  | .truncatedPayload gate => s!"Garbled table of gate {gate} is truncated"
  | .uninitializedLabel gate => s!"Uninitialized label for gate {gate}"
  | .unknownBit gate => s!"Bit of gate {gate} is not known to the evaluator"
  | .payload error => error.message

end HalfGates
