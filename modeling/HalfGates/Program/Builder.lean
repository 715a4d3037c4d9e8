import HalfGates.Gate.Record
import HalfGates.Program.Basic

/-!
# Building programs

A builder takes requests for gates one at a time. A request is refused if its offsets do not fit its
kind, or if one of them does not point at an earlier gate; a gate that is accepted is known at least
to the parties that know all of its operands.

## Main definitions

- `GateRequest`: the kind, the scope and the offsets asked for
- `Builder`, `Builder.add`, `Builder.addRecord`, `Builder.build`: building
- `Builder.addAll`: many requests in order
- `ProgramError`: why a request is refused
-/

namespace HalfGates

/-- Why a gate or a program is refused. -/
inductive ProgramError
  /-- An offset of the gate is zero or negative. -/
  | nonPositiveOffset (gate : Nat) (offset : Int)
  /-- An offset of the gate points before the first gate. -/
  | offsetOutOfRange (gate offset : Nat)
  /-- The gate has `actual` offsets where its kind takes `expected`. -/
  | arityMismatch (gate : Nat) (kind : GateKind) (expected actual : Nat)
  /-- A declared output is not the position of a gate. -/
  | outputOutOfRange (output length : Nat)
  deriving DecidableEq

/-- The text of a refusal. -/
def ProgramError.message : ProgramError → String
  | .nonPositiveOffset gate offset => s!"gate {gate}: offset {offset} must be positive"
  | .offsetOutOfRange gate offset => s!"gate {gate}: offset {offset} points before the first gate"
  | .arityMismatch gate kind expected actual =>
    "gate " ++ toString gate ++ ": " ++ kind.name ++ s!" takes {expected} inputs, got {actual}"
  | .outputOutOfRange output length => s!"output index {output} out of range for {length} gates"

/-- A gate asked for: what it computes, who is to learn it, and where its operands stand. -/
structure GateRequest where
  kind : GateKind
  scope : Scope
  offsets : List Nat
  deriving DecidableEq

/-- A program under construction. -/
structure Builder where
  /-- The gates accepted so far, newest first. -/
  past : List Gate
  /-- The outputs declared last. -/
  outputs : List Nat
  deriving DecidableEq

namespace Builder

/-- No gates and no outputs. -/
def empty : Builder :=
  ⟨[], []⟩

/-- The number of gates accepted, which is the position of the next one. -/
def length (b : Builder) : Nat :=
  b.past.length

/-- What is wrong with an offset of the gate at `index`, if anything. -/
def offsetError? (index offset : Nat) : Option ProgramError :=
  if offset = 0 then some (.nonPositiveOffset index 0)
  else if index < offset then some (.offsetOutOfRange index offset)
  else none

/-- Appends a gate. -/
def add (b : Builder) (r : GateRequest) : Except ProgramError Builder :=
  match Operation.ofKind? r.kind r.offsets with
  | none => .error (.arityMismatch b.length r.kind r.kind.arity r.offsets.length)
  | some op =>
    match op.operands.findSome? (offsetError? b.length) with
    | some e => .error e
    | none => .ok { b with past := Gate.widened b.past op r.scope :: b.past }

/-- Appends the gate that a record describes, whose offsets have to be positive. -/
def addRecord (b : Builder) (r : GateRecord) : Except ProgramError Builder :=
  match r.offsets.find? (· ≤ 0) with
  | some offset => .error (.nonPositiveOffset b.length offset)
  | none => b.add ⟨r.kind, r.scope, r.offsets.map Int.toNat⟩

/-- Appends gates in order, up to the first that is refused. -/
def addAll (b : Builder) (rs : List GateRequest) : Except ProgramError Builder :=
  rs.foldlM add b

/-- Declares the outputs, in place of those declared before. -/
def withOutputs (b : Builder) (outputs : List Nat) : Builder :=
  { b with outputs := outputs }

/-- The gates accepted, oldest first. -/
def gates (b : Builder) : List Gate :=
  b.past.reverse

/-- The program, if every declared output is the position of a gate. -/
def build (b : Builder) : Except ProgramError Program :=
  match b.outputs.find? (b.length ≤ ·) with
  | some output => .error (.outputOutOfRange output b.length)
  | none => .ok ⟨b.gates, b.outputs⟩

end Builder

end HalfGates
