import HalfGates.Block
import HalfGates.Garbling.Error
import HalfGates.Random.Buffered

/-!
# The offset between the labels of a wire

The label of a wire that carries one is the label for zero xored with an offset Δ, which is the same
for all wires and stays with the generator. The select bit of Δ is set, so that the two labels of a
wire have opposite select bits.

## Main definitions

- `Delta`: a block with its select bit set
- `Delta.times`: Δ or zero, as a bit tells
- `Delta.ofBlock`, `Delta.random`: choosing Δ
-/

namespace HalfGates

/-- The offset between the two labels of every wire. -/
structure Delta where
  block : Block
  select_block : block.select = true
  deriving DecidableEq

namespace Delta

/-- The difference between the label for `bit` and the label for zero. -/
def times (d : Delta) (bit : Bool) : Block :=
  d.block.times bit

/-- The offset with the given block, whose select bit has to be set. -/
def ofBlock (x : Block) : Except GarblingError Delta :=
  if h : x.select = true then .ok ⟨x, h⟩ else .error .invalidDelta

/-- A block with its select bit set. -/
def ofSelected (x : Block) : Delta :=
  ⟨x.withSelect, by simp [Block.select, Block.withSelect, BitVec.msb_or, BitVec.msb_twoPow]⟩

/-- An offset drawn at random. -/
def random (g : RandomGenerator) : Delta × RandomGenerator :=
  let (x, g) := g.nextBlock
  (ofSelected x, g)

/-- The text of an offset, which does not show it. -/
def debugText (_ : Delta) : String :=
  "Delta(..)"

@[simp] theorem times_false (d : Delta) : d.times false = 0 :=
  Block.times_false d.block

@[simp] theorem times_true (d : Delta) : d.times true = d.block :=
  Block.times_true d.block

theorem select_times (d : Delta) (bit : Bool) : (d.times bit).select = bit := by
  cases bit
  · simp [Block.select]
  · simp [d.select_block]

theorem xor_times (d : Delta) (x : Block) (bit : Bool) :
    x ^^^ d.times bit = if bit then x ^^^ d.block else x := by
  cases bit <;> simp

end Delta

end HalfGates
