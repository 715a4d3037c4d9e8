import HalfGates.Program.Builder
import HalfGates.Program.Rewriting
import HalfGates.Program.View

/-!
# Dropping gates that no output needs

The gates are walked from the last to the first. A queue holds the wires that have not been followed to
their start: those of the outputs, and those of the operands of gates that were kept. A gate is kept if a
wire starts at it. It moves towards the end by as many places as gates were dropped behind it, which
lengthens its offsets; an offset is shortened again once the walk comes to the gate that it leads to.

## Main definitions

- `Liveness.Wire`, `Liveness.enqueue`: wires, and the queue that gives the wire with the last start first
- `Liveness.Walk`, `Liveness.Walk.step`, `Liveness.Walk.down`: the walk
- `Program.removeUnused`: the kept gates of a program, built anew
- `Program.simplify`: rewriting followed by removal

## Design notes

A queue is a list in the order in which the wires are taken from it. The wire of an output ends in a slot
behind all gates, where there is no offset to shorten.
-/

namespace HalfGates

/-- The record with operand `input` read `delta` places further back. -/
def GateRecord.shift (r : GateRecord) (input : Nat) (delta : Int) : GateRecord :=
  { r with offsets := r.offsets.modify input (· + delta) }

/-- The record with every operand read `delta` places further back. -/
def GateRecord.shiftAll (r : GateRecord) (delta : Int) : GateRecord :=
  { r with offsets := r.offsets.map (· + delta) }

namespace Liveness

/-- A use of the gate at position `start` by operand `input` of the gate that is kept in slot `slot`. -/
structure Wire where
  start : Nat
  slot : Nat
  input : Nat
  deriving DecidableEq

/-- Whether a wire is taken from the queue before another: by start, slot and input, the last first. -/
def Wire.isBefore (v w : Wire) : Bool :=
  if v.start = w.start then
    if v.slot = w.slot then w.input ≤ v.input else w.slot < v.slot
  else w.start < v.start

/-- The queue with one more wire. -/
def enqueue (queue : List Wire) (w : Wire) : List Wire :=
  match queue with
  | [] => [w]
  | v :: queue => if v.isBefore w then v :: enqueue queue w else w :: v :: queue

/-- The wires of the operands of a gate at position `index` that is kept in slot `slot`. -/
def wiresOf (index slot : Nat) (r : GateRecord) : List Wire :=
  r.offsets.zipIdx.map fun (offset, input) => ⟨index - offset.toNat, slot, input⟩

/-- A walk under way. -/
structure Walk where
  /-- The gates in their slots: those that the walk has not come to at their positions, and the kept ones
  in the last slots. -/
  slots : List GateRecord
  /-- For each kept gate the slot in which it was kept. -/
  places : List Nat
  /-- The wires not followed yet. -/
  queue : List Wire
  /-- The number of gates dropped. -/
  removed : Nat

namespace Walk

/-- Keeps the gate at a position: it moves to its slot and its operands are to be followed. -/
def keep (s : Walk) (index : Nat) (r : GateRecord) : Walk where
  slots := s.slots.set (index + s.removed) (r.shiftAll s.removed)
  places := s.places.set index (index + s.removed)
  queue := (wiresOf index (index + s.removed) r).foldl enqueue s.queue
  removed := s.removed

/-- Comes to the gate at a position, which is kept if the next wire starts at it. -/
def visit (s : Walk) (index : Nat) : Walk :=
  if s.queue.head?.any (·.start == index) then
    match s.slots[index]? with
    | some r => s.keep index r
    | none => s
  else { s with removed := s.removed + 1 }

/-- Takes the wires that start at a position from the queue, and shortens the offset at the end of each. -/
def settle (s : Walk) (index : Nat) : Walk :=
  { s with
    slots := (s.queue.takeWhile (·.start == index)).foldl
      (fun slots w => slots.modify w.slot (·.shift w.input (-s.removed))) s.slots
    queue := s.queue.dropWhile (·.start == index) }

/-- One step of the walk. -/
def step (s : Walk) (index : Nat) : Walk :=
  (s.visit index).settle index

/-- The walk over the gates before a position, the last of them first. -/
def down : Nat → Walk → Walk
  | 0, s => s
  | index + 1, s => down index (s.step index)

/-- The walk at its beginning: all gates at their positions, and the wires of the outputs. -/
def start (p : Program) : Walk where
  slots := p.gates.map Gate.record
  places := List.replicate p.length 0
  queue := (p.outputs.map fun output => ⟨output, p.length, 0⟩).foldl enqueue []
  removed := 0

end Walk

end Liveness

namespace Program

/-- The program without the gates that no output needs. -/
def removeUnused (p : Program) : Except ProgramError Program := do
  let s := (Liveness.Walk.start p).down p.length
  let b ← (s.slots.drop s.removed).foldlM Builder.addRecord Builder.empty
  (b.withOutputs (p.outputs.map fun i => s.places.getD i 0 - s.removed)).build

/-- The program rewritten and without the gates that no output needs. -/
def simplify (p : Program) : Except ProgramError Program :=
  p.simplifyGates.removeUnused

end Program

end HalfGates
