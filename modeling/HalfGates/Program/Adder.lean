import HalfGates.Program.Builder

/-!
# The ripple-carry adder

The adder of two numbers of `width` bits modulo `2 ^ width` reads the numbers one after the other,
each with its most significant bit first, and gives their sum in the same form. It spends one
conjunction on each bit: the next carry is `a ⊕ (c ⊕ a)(c ⊕ b)`.

## Main definitions

- `RippleCarry.bit`: the seven gates of one bit
- `RippleCarry.adder`: the program
-/

namespace HalfGates.RippleCarry

/-- The gates of bit `i`, counted from the least significant: the two summands, the carry xored with
each and with both, a conjunction, and the next carry. -/
def bit (width i : Nat) : List GateRequest :=
  [⟨.unary false, .neither, [2 + width + 8 * i]⟩,
    ⟨.unary false, .neither, [3 + 8 * i]⟩,
    ⟨.linear false, .neither, [3, 2]⟩,
    ⟨.linear false, .neither, [4, 2]⟩,
    ⟨.linear false, .neither, [2, 3]⟩,
    ⟨.conjunction false false false, .neither, [3, 2]⟩,
    ⟨.linear false, .neither, [7, 1]⟩]

/-- All gates: the inputs, the carry into the lowest bit, and the bits. -/
def requests (width : Nat) : List GateRequest :=
  List.replicate (2 * width) ⟨.input, .neither, []⟩ ++ [⟨.constant false, .both, []⟩] ++
    (List.range width).flatMap (bit width)

/-- The positions of the sum bits, the most significant first. -/
def outputs (width : Nat) : List Nat :=
  (List.range width).map fun i => width * 9 - i * 7 - 2

/-- The adder of two numbers of `width` bits. -/
def adder (width : Nat) : Except ProgramError Program := do
  let b ← Builder.empty.addAll (requests width)
  (b.withOutputs (outputs width)).build

end HalfGates.RippleCarry
