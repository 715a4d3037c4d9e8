import HalfGates.Label.Offset
import HalfGates.TweakedHash

/-!
# Half gates

A half gate is a conjunction of two wires of which one party knows one value. It takes one row: the
generator hashes both labels of one wire, and the evaluator the one label it holds. Each rule of this
module comes with its counterpart for the other party.

## Main definitions

- `HalfGate.garbleKnown`, `HalfGate.openKnown`: the generator knows the value of one operand
- `HalfGate.garbleMasked`, `HalfGate.openMasked`: the evaluator knows the value of one operand
-/

namespace HalfGates

/-- What the generator makes of a half gate. -/
structure HalfGate where
  /-- The label of the result for zero. -/
  zero : Block
  /-- The row that the evaluator receives. -/
  row : Block
  deriving DecidableEq

namespace HalfGate

open Hashing (pad hide reveal)

/-- The half gate whose result is `z0` or `z1` as the wire with the label `zero` carries zero or one. The
row is made such that the evaluator needs it for one value of the select bit only. -/
def garbleKnown (δ : Delta) (place : Tweak) (zero : Block) (z0 z1 : Bool) : Hashing HalfGate := do
  let one := zero ^^^ δ.block
  if zero.select then
    let message := (← pad zero place) ^^^ δ.times (z0 ^^ z1)
    return ⟨message ^^^ δ.times z1, ← hide one message place⟩
  else
    let message := (← pad one place) ^^^ δ.times (z0 ^^ z1)
    return ⟨message ^^^ δ.times z0, ← hide zero message place⟩

/-- The label of the result, from the label of the wire. -/
def openKnown (place : Tweak) (label row : Block) : Hashing Block :=
  if label.select then pad label place else reveal label row place

/-- The half gate that is the conjunction of a wire whose value the evaluator knows and of another wire,
each negated if told so, and negated itself if told so. -/
def garbleMasked (δ : Delta) (place : Tweak) (known other : Block)
    (knownNegated otherNegated negated : Bool) : Hashing HalfGate := do
  let zero := known ^^^ δ.times knownNegated
  let one := zero ^^^ δ.block
  let label ← pad zero place
  return ⟨label ^^^ δ.times negated, ← hide one (label ^^^ other ^^^ δ.times otherNegated) place⟩

/-- The label of the result, from the labels of both wires and the value of the known one. -/
def openMasked (place : Tweak) (known other : Block) (value knownNegated : Bool) (row : Block) :
    Hashing Block :=
  if value = knownNegated then pad known place
  else do
    return (← reveal known row place) ^^^ other

end HalfGate

end HalfGates
