import HalfGates.Gate.Operation

/-!
# Gate records

A gate record is a gate as it is exchanged and displayed: a kind, a scope and signed offsets, which
need not fit the kind. An offset `d > 0` stands for the gate `d` places earlier, an offset `-k` for
part `k` of the gate in the same place.

## Main definitions

- `GateRecord`: a kind, a scope and signed offsets
- `GateRecord.parts?`: the five parts of a conjunction

## Design notes

The parts compute a conjunction of two operands unknown to both parties with one row for each half.
Part four is a random bit that the generator knows. Part two is the second operand masked with it,
which the evaluator may learn. Parts three and one are the conjunctions of the first operand with
the mask and with the masked operand, and part zero is their exclusive or.
-/

namespace HalfGates

/-- A gate as exchanged and displayed. -/
structure GateRecord where
  kind : GateKind
  scope : Scope
  offsets : List Int
  deriving DecidableEq

/-- A conjunction with fewer than two offsets, which has no parts. -/
inductive OperandFault
  | missing
  deriving DecidableEq

namespace GateRecord

/-- The parts of a conjunction of the operands at `a` and `b`, by number. -/
def partsOf (p q n : Bool) (a b : Int) : List GateRecord :=
  [⟨.linear false, .neither, [-1, -3]⟩,
    ⟨.conjunction p q false, .neither, [a, -2]⟩,
    ⟨.linear false, .evaluatorOnly, [b, -4]⟩,
    ⟨.conjunction p false n, .neither, [a, -4]⟩,
    ⟨.random, .generatorOnly, []⟩]

/-- The five parts of a conjunction by number, and `none` for any other kind. -/
def parts? (r : GateRecord) : Except OperandFault (Option (List GateRecord)) :=
  match r.kind, r.offsets with
  | .conjunction p q n, a :: b :: _ => .ok (some (partsOf p q n a b))
  | .conjunction _ _ _, _ => .error .missing
  | _, _ => .ok none

end GateRecord

end HalfGates
