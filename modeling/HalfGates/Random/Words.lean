import HalfGates.Aes

/-!
# Words from a counter

Encrypting the numbers 0, 1, 2, … gives blocks without visible order. Each block is four words of
32 bits, each with its least significant byte first. This module holds the stream as a function of
the position; `HalfGates.Random.Buffered` reads it through a buffer.

## Main definitions

- `Random.blockAt`, `Random.wordAt`, `Random.bitAt`: the stream by position
- `Random.wordBytes`: a word as bytes
-/

namespace HalfGates.Random

/-- Block `k` of the stream. -/
def blockAt (encrypt : Block → Block) (k : Nat) : Block :=
  encrypt (Block.ofNatReversed k)

/-- The word of four bytes, the least significant first. -/
def wordOf (bytes : List UInt8) : UInt32 :=
  bytes.foldr (fun byte word => byte.toUInt32 + 256 * word) 0

/-- The four bytes of a word, the least significant first. -/
def wordBytes (word : UInt32) : List UInt8 :=
  (List.range 4).map fun i => UInt8.ofNat (word.toNat >>> (8 * i))

/-- The four words of a block. -/
def blockWords (x : Block) : List UInt32 :=
  (List.range 4).map fun i => wordOf ((x.toBytes.drop (4 * i)).take 4)

/-- Word `k` of the stream. -/
def wordAt (encrypt : Block → Block) (k : Nat) : UInt32 :=
  (blockWords (blockAt encrypt (k / 4))).getD (k % 4) 0

/-- The bit that a word stands for: its most significant one. -/
def wordBit (word : UInt32) : Bool :=
  word ≥ 0x80000000

/-- Bit `k` of the stream, one word each. -/
def bitAt (encrypt : Block → Block) (k : Nat) : Bool :=
  wordBit (wordAt encrypt k)

end HalfGates.Random
