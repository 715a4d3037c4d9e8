/-!
# Numbers as bits

A number below `2 ^ width` is a list of `width` bits, the most significant bit first.

## Main definitions

- `Bits.ofNat`: the lowest bits of a number
- `Bits.toNat`: the number that bits stand for
-/

namespace HalfGates.Bits

/-- The lowest `width` bits of a number, the most significant first. -/
def ofNat (width n : Nat) : List Bool :=
  (List.range width).reverse.map n.testBit

/-- The number that bits stand for, the most significant first. -/
def toNat (bits : List Bool) : Nat :=
  bits.foldl (fun n bit => 2 * n + bit.toNat) 0

@[simp] theorem length_ofNat (width n : Nat) : (ofNat width n).length = width := by
  simp [ofNat]

theorem ofNat_succ (width n : Nat) : ofNat (width + 1) n = n.testBit width :: ofNat width n := by
  simp [ofNat, List.range_succ]

end HalfGates.Bits
