import HalfGates.Block
import HalfGates.Proofs.Bits.View
import HalfGates.Proofs.Codec
import HalfGates.Proofs.Sequencing

/-!
# Blocks as bytes and bits

A block is the block of its bytes, and the view of its bits shows it.

## Main definitions

- `Block.ofBytes_toBytes`, `Block.toBytes_ofBytes`: blocks and their bytes
- `Block.toBits`: the bits of a block
- `BitView.toBlock_of_length`: a view of as many bits as a block has
- `BitView.IsRows`: a view that shows some blocks
-/

namespace HalfGates

namespace Block

theorem toBytes_eq_reverse (x : Block) : x.toBytes = (Codec.putWord 16 x.toNat).reverse := rfl

theorem ofBytes_eq (bytes : List UInt8) : ofBytes bytes = BitVec.ofNat 128 (Codec.wordOf bytes.reverse) := by
  rw [ofBytes, List.foldl_eq_foldr_reverse]
  simp only [Nat.add_comm (256 * _)]
  rfl

/-- A block is the block of its sixteen bytes. -/
@[simp] theorem ofBytes_toBytes (x : Block) : ofBytes x.toBytes = x := by
  have hlt : x.toNat < 256 ^ 16 := x.isLt
  rw [ofBytes_eq, toBytes_eq_reverse, List.reverse_reverse, Codec.wordOf_putWord, Nat.mod_eq_of_lt hlt,
    BitVec.ofNat_toNat, BitVec.setWidth_eq]

/-- Sixteen bytes are those of their block. -/
theorem toBytes_ofBytes {bytes : List UInt8} (h : bytes.length = 16) : (ofBytes bytes).toBytes = bytes := by
  have hput := Codec.putWord_wordOf bytes.reverse
  rw [List.length_reverse, h] at hput
  have hlt : Codec.wordOf bytes.reverse < 2 ^ 128 := by
    have hword := Codec.wordOf_putWord 16 (Codec.wordOf bytes.reverse)
    rw [hput] at hword
    rw [hword]
    exact Nat.mod_lt _ (by decide)
  rw [ofBytes_eq, toBytes_eq_reverse, BitVec.toNat_ofNat, Nat.mod_eq_of_lt hlt, hput, List.reverse_reverse]

/-- The bytes of a number, the least significant first, are those of its reversed block. -/
theorem toBytes_ofNatReversed (n : Nat) : (ofNatReversed n).toBytes = Codec.putWord 16 n := by
  have hput := Codec.putWord_wordOf (Codec.putWord 16 n)
  rw [Codec.length_putWord, Codec.wordOf_putWord] at hput
  rw [ofNatReversed, toBytes_ofBytes (by rw [List.length_reverse, length_toBytes]), toBytes_eq_reverse,
    List.reverse_reverse, BitVec.toNat_ofNat]
  exact hput

/-- The bits of a block, byte by byte. -/
def toBits (x : Block) : List Bool :=
  x.toBytes.flatMap Bits.unpackByte

@[simp] theorem length_toBits (x : Block) : x.toBits.length = 128 := by
  rw [toBits, Bits.length_flatMap_unpackByte, length_toBytes]

/-- The bits of a block make the block. -/
@[simp] theorem ofBytes_pack_toBits (x : Block) : ofBytes (Bits.pack x.toBits) = x := by
  rw [toBits, Bits.pack_flatMap_unpackByte, ofBytes_toBytes]

/-- The block made of 128 bits has just these bits. -/
theorem toBits_ofBytes_pack {bits : List Bool} (h : bits.length = 128) :
    (ofBytes (Bits.pack bits)).toBits = bits := by
  have hcount : (Bits.pack bits).length = 16 := by
    rw [Bits.length_pack, h]
    rfl
  rw [toBits, toBytes_ofBytes hcount, Bits.flatMap_unpackByte_pack (by rw [h])]

end Block

namespace BitView

@[simp] theorem toBits_ofBlock (x : Block) : (ofBlock x).toBits = x.toBits :=
  toBits_ofBytes x.toBytes

@[simp] theorem length_ofBlock (x : Block) : (ofBlock x).length = 128 := by
  rw [← length_toBits, toBits_ofBlock, Block.length_toBits]

/-- A view of 128 bits shows the block that they make, whatever they are. -/
theorem toBlock_of_length {v : BitView} (h : v.startsAligned = true) (hlen : v.length = 128) :
    v.toBlock = .ok (.ofBytes (Bits.pack v.toBits)) := by
  have hcount : (Bits.pack v.toBits).length = 16 := by
    rw [Bits.length_pack, length_toBits, hlen]
    rfl
  have hbytes : Block.ofBytes? (Bits.pack v.toBits) = some (.ofBytes (Bits.pack v.toBits)) :=
    if_pos hcount
  rw [toBlock, if_pos hlen, toBytes_eq h, ok_bind, hbytes]

/-- A view that shows `count` blocks, one after the other. -/
structure IsRows (v : BitView) (count : Nat) : Prop where
  aligned : v.startsAligned = true
  length : v.length = 128 * count

theorem isRows_empty : empty.IsRows 0 := ⟨rfl, rfl⟩

theorem isRows_ofBlock (x : Block) : (ofBlock x).IsRows 1 := ⟨rfl, length_ofBlock x⟩

/-- Behind rows, any view that starts on a byte boundary may follow. -/
theorem IsRows.exists_concat {v w : BitView} {count : Nat} (h : v.IsRows count)
    (hw : w.startsAligned = true) :
    ∃ u, v.concat w = .ok u ∧ u.toBits = v.toBits ++ w.toBits ∧ u.startsAligned = true := by
  have hwhole : v.length % 8 = 0 := by
    rw [h.length]
    omega
  exact BitView.exists_concat h.aligned hwhole hw

end BitView

end HalfGates
