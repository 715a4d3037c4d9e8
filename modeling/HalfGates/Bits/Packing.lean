/-!
# Bits packed into bytes

Bits are packed eight to a byte, the most significant bit of a byte first.

## Main definitions

- `Bits.byteBit`, `Bits.unpackByte`, `Bits.packByte`: one byte and its eight bits
- `Bits.pack`: a list of bits as bytes, the last byte padded with zeros
- `Bits.unpack`: the first bits of a list of bytes
- `Bits.xorBytes`: bytes xored over the common part of two lists
-/

namespace HalfGates.Bits

/-- Bit `i` of a byte, counted from the most significant; false beyond the eighth. -/
def byteBit (byte : UInt8) (i : Nat) : Bool :=
  byte.toBitVec.getMsbD i

/-- The eight bits of a byte, the most significant first. -/
def unpackByte (byte : UInt8) : List Bool :=
  (List.range 8).map (byteBit byte)

/-- The byte made of the first eight of `bits`; missing bits are zero. -/
def packByte (bits : List Bool) : UInt8 :=
  (List.range 8).foldl (fun byte i => 2 * byte + if bits.getD i false then 1 else 0) 0

/-- The number of bytes that hold `n` bits. -/
def byteCount (n : Nat) : Nat :=
  (n + 7) / 8

/-- Bits packed into as few bytes as hold them; byte `k` takes the eight bits from `8 * k` on. -/
def pack (bits : List Bool) : List UInt8 :=
  (List.range (byteCount bits.length)).map fun k => packByte (bits.drop (8 * k))

/-- The first `size` bits of `bytes`, or all of them when there are fewer. -/
def unpack (bytes : List UInt8) (size : Nat) : List Bool :=
  (bytes.flatMap unpackByte).take size

/-- The bytes of `a`, each xored with the byte of `b` at the same place if there is one. -/
def xorBytes : List UInt8 → List UInt8 → List UInt8
  | a :: as, b :: bs => (a ^^^ b) :: xorBytes as bs
  | as, _ => as

@[simp] theorem length_unpackByte (byte : UInt8) : (unpackByte byte).length = 8 := by
  simp [unpackByte]

@[simp] theorem length_pack (bits : List Bool) : (pack bits).length = byteCount bits.length := by
  simp [pack]

end HalfGates.Bits
