import HalfGates.Gate.Record
import HalfGates.Program.Basic

/-!
# Looking at gates

A gate view is a gate of a program, or a part of one, with its place; its operands are views in turn.

## Main definitions

- `Gate.record`: a gate as it is exchanged and displayed
- `GateView`, `Program.view?`, `Program.operand?`: views and their operands
- `Program.partViews?`: the parts of a gate in the order in which they are computed
-/

namespace HalfGates

/-- The gate as a record. -/
def Gate.record (g : Gate) : GateRecord :=
  ⟨g.kind, g.scope, g.op.operands.map Int.ofNat⟩

/-- A gate of a program or a part of one. -/
structure GateView where
  /-- The position of the gate. -/
  index : Nat
  /-- The number of the part; the gate itself is part zero. -/
  part : Nat
  record : GateRecord

namespace Program

/-- The gate at a position. -/
def view? (p : Program) (index : Nat) : Option GateView :=
  p.gates[index]?.map fun g => ⟨index, 0, g.record⟩

/-- The parts of the gate at a position by number, if it is a conjunction. -/
def parts? (p : Program) (index : Nat) : Option (List GateRecord) :=
  match p.gates[index]? with
  | some g => g.record.parts?.toOption.join
  | none => none

/-- What an offset of a gate at `index` stands for. -/
def resolve? (p : Program) (index : Nat) (offset : Int) : Option GateView :=
  if 0 < offset then
    if offset.toNat ≤ index then p.view? (index - offset.toNat) else none
  else do
    let parts ← p.parts? index
    let part ← parts[offset.natAbs]?
    some ⟨index, offset.natAbs, part⟩

/-- Operand `k` of a view, counted from zero. -/
def operand? (p : Program) (v : GateView) (k : Nat) : Option GateView := do
  let offset ← v.record.offsets[k]?
  p.resolve? v.index offset

/-- The view reached from gate `index` by following the operands with the given numbers. -/
def follow? (p : Program) (index : Nat) (path : List Nat) : Option GateView := do
  let v ← p.view? index
  path.foldlM p.operand? v

/-- The parts of the gate at a position from the fourth down to part zero, which is the order in which
they are computed. -/
def partViews? (p : Program) (index : Nat) : Option (List GateView) :=
  (p.parts? index).map fun parts =>
    (parts.zipIdx.map fun (part, k) => ⟨index, k, part⟩).reverse

/-- All operands of a view. -/
def operands? (p : Program) (v : GateView) : Option (List GateView) :=
  (List.range v.record.offsets.length).mapM (p.operand? v)

end Program

end HalfGates
