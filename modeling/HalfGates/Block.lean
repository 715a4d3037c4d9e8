import HalfGates.Bits.View
import HalfGates.Text.Hex

/-!
# Blocks of 128 bits

A block is a wire label, a ciphertext row or an argument of the block cipher. As bytes it is sixteen
of them, most significant first, and its most significant bit is its select bit.

## Main definitions

- `Block`, `Block.select`, `Block.withSelect`: blocks and their select bit
- `Block.times`: a block or zero, as a bit tells
- `Block.toBytes`, `Block.ofBytes?`: the sixteen bytes
- `BitView.ofBlock`, `BitView.toBlock`: blocks as views of bits

## Design notes

A block is a bit vector of the core library, so that the laws of exclusive or are at hand.
-/

namespace HalfGates

/-- Blocks of 128 bits. -/
abbrev Block : Type := BitVec 128

namespace Block

/-- The bit that tells the two labels of a wire apart: the most significant one. -/
def select (x : Block) : Bool :=
  x.msb

/-- The block with its select bit set. -/
def withSelect (x : Block) : Block :=
  x ||| BitVec.twoPow 128 127

/-- All bits set or none. -/
def mask (bit : Bool) : Block :=
  if bit then BitVec.allOnes 128 else 0

/-- The block itself if `bit` is set, and zero otherwise. -/
def times (x : Block) (bit : Bool) : Block :=
  mask bit &&& x

/-- Byte `i` of a block, counted from the most significant. -/
def byte (x : Block) (i : Nat) : UInt8 :=
  UInt8.ofNat (x.toNat >>> (8 * (15 - i)))

/-- The sixteen bytes of a block, the most significant first. -/
def toBytes (x : Block) : List UInt8 :=
  (List.range 16).map x.byte

/-- The block whose last bytes are `bytes`, the most significant first. -/
def ofBytes (bytes : List UInt8) : Block :=
  BitVec.ofNat 128 (bytes.foldl (fun n byte => 256 * n + byte.toNat) 0)

/-- The block of exactly sixteen bytes. -/
def ofBytes? (bytes : List UInt8) : Option Block :=
  if bytes.length = 16 then some (ofBytes bytes) else none

/-- The block whose bytes, the least significant first, are those of `n`, modulo `2 ^ 128`. -/
def ofNatReversed (n : Nat) : Block :=
  ofBytes (toBytes (BitVec.ofNat 128 n)).reverse

/-- Twice a byte as an element of the field of 256 elements with the modulus
`x^8 + x^4 + x^3 + x + 1`. -/
def doubleByte (byte : UInt8) : UInt8 :=
  (byte <<< 1) ^^^ (if byte ≥ 0x80 then 0x1b else 0)

/-- Every byte of a block doubled. -/
def doubled (x : Block) : Block :=
  ofBytes (x.toBytes.map doubleByte)

/-- The hexadecimal text of a block. -/
def text (x : Block) : String :=
  "0x" ++ Hex.encode x.toBytes

@[simp] theorem length_toBytes (x : Block) : x.toBytes.length = 16 := by
  simp [toBytes]

@[simp] theorem times_false (x : Block) : times x false = 0 := by
  simp [times, mask]

@[simp] theorem times_true (x : Block) : times x true = x := by
  simp only [times, mask, if_true, BitVec.allOnes_and]

theorem select_xor (x y : Block) : select (x ^^^ y) = (select x ^^ select y) := by
  simp [select]

end Block

namespace BitView

/-- The bits of a block. -/
def ofBlock (x : Block) : BitView :=
  ofBytes x.toBytes

/-- The block that a view of 128 bits on byte boundaries shows. -/
def toBlock (v : BitView) : Except BitViewError Block :=
  if v.length = 128 then do
    let bytes ← v.toBytes
    match Block.ofBytes? bytes with
    | some x => .ok x
    | none => .error (.lengthMismatch 128 (8 * bytes.length))
  else
    .error (.lengthMismatch 128 v.length)

end BitView

end HalfGates
