import HalfGates.Proofs.Bits.View
import Mathlib.Algebra.Order.Floor.Div

/-!
# Where a bit lies in packed bytes

Bit `i` of some bytes is bit `7 - i % 8` of byte `i / 8`. A list of bytes is determined by its length and these
bits, so that packing and unpacking are compared place by place: with each other, with setting one bit after
the other in cleared bytes, and with reading one bit after the other.

## Main definitions

- `Bits.bitAt`, `Bits.bytes_ext`: the bits of some bytes by their places, which determine the bytes
- `Bits.bitAt_pack`, `Bits.unpack_eq`: packing and unpacking place by place
- `Bits.clearFrom`, `Bits.pack_unpack`: bytes with all but the first bits cleared, which are what packing the
  unpacked bits gives
- `Bits.scatter`, `Bits.pack_eq_scatter`: packing by setting one bit after the other
- `Bits.gather`, `Bits.unpack_eq_gather`: unpacking by reading one bit after the other
- `Bits.pack_unpack_inverse`: packing and unpacking are inverse
-/

namespace HalfGates.Bits

/-- Bit `i` of the bytes, the most significant bit of each byte first; false behind the last byte. -/
def bitAt (bytes : List UInt8) (i : Nat) : Bool :=
  (bytes[i / 8]?.getD 0).toNat.testBit (7 - i % 8)

theorem bitAt_eq_byteBit (bytes : List UInt8) (i : Nat) :
    bitAt bytes i = byteBit (bytes[i / 8]?.getD 0) (i % 8) :=
  (byteBit_eq_testBit _ (Nat.mod_lt i (by decide))).symm

theorem bitAt_eq_getElem? (bytes : List UInt8) (i : Nat) :
    bitAt bytes i = (bytes.flatMap unpackByte)[i]?.getD false := by
  rw [bitAt_eq_byteBit, BitView.getElem?_flatMap_unpackByte]
  cases bytes[i / 8]? with
  | none => simp [byteBit]
  | some byte => rfl

/-- Two lists of as many bytes are equal if they have the same bits at all places. -/
theorem bytes_ext {xs ys : List UInt8} (hlength : xs.length = ys.length)
    (h : ∀ i, bitAt xs i = bitAt ys i) : xs = ys := by
  refine List.ext_getElem hlength fun k hx hy => byte_ext fun i hi => ?_
  have hdiv : (8 * k + i) / 8 = k := by omega
  have hmod : (8 * k + i) % 8 = i := by omega
  have hbit := h (8 * k + i)
  rwa [bitAt_eq_byteBit, bitAt_eq_byteBit, hdiv, hmod, List.getElem?_eq_getElem hx,
    List.getElem?_eq_getElem hy] at hbit

/-- The first bytes have the bits of all of them, up to their end. -/
theorem bitAt_take (bytes : List UInt8) (count i : Nat) :
    bitAt (bytes.take count) i = (decide (i < 8 * count) && bitAt bytes i) := by
  rw [bitAt, bitAt, List.getElem?_take]
  by_cases hi : i < 8 * count
  · rw [if_pos (by omega), decide_eq_true hi, Bool.true_and]
  · rw [if_neg (by omega), decide_eq_false hi, Bool.false_and]
    exact Nat.zero_testBit _

/-! ### Packing -/

/-- The number of bytes that hold some bits is an eighth of their number, rounded up. -/
theorem byteCount_eq_ceilDiv (n : Nat) : byteCount n = n ⌈/⌉ 8 :=
  (Nat.ceilDiv_eq_add_pred_div n 8).symm

theorem byteCount_le_iff {n count : Nat} : byteCount n ≤ count ↔ n ≤ 8 * count := by
  unfold byteCount
  omega

theorem le_byteCount (n : Nat) : n ≤ 8 * byteCount n :=
  byteCount_le_iff.mp (Nat.le_refl _)

/-- The bytes hold the bits, and zeros behind them. -/
theorem flatMap_unpackByte_pack_append (bits : List Bool) :
    (pack bits).flatMap unpackByte =
      bits ++ List.replicate (8 * byteCount bits.length - bits.length) false := by
  refine List.ext_getElem? fun i => ?_
  have hcover := le_byteCount bits.length
  rw [BitView.getElem?_flatMap_unpackByte]
  by_cases hi : i / 8 < byteCount bits.length
  · have hat : 8 * (i / 8) + i % 8 = i := Nat.div_add_mod i 8
    have hbyte : (pack bits)[i / 8]? = some (packByte (bits.drop (8 * (i / 8)))) := by
      rw [pack, List.getElem?_map, List.getElem?_range hi, Option.map_some]
    rw [hbyte, Option.map_some, byteBit_packByte _ (Nat.mod_lt i (by decide)),
      List.getD_eq_getElem?_getD, List.getElem?_drop, hat]
    by_cases hlt : i < bits.length
    · rw [List.getElem?_append_left hlt, List.getElem?_eq_getElem hlt]
      rfl
    · have hle := Nat.not_lt.mp hlt
      rw [List.getElem?_append_right hle, List.getElem?_eq_none hle,
        List.getElem?_replicate_of_lt (by omega)]
      rfl
  · rw [List.getElem?_eq_none (by rw [length_pack]; omega), List.getElem?_eq_none]
    · rfl
    · rw [List.length_append, List.length_replicate]
      omega

/-- Every bit is packed at its place, and all places behind the last bit are clear. -/
theorem bitAt_pack (bits : List Bool) (i : Nat) : bitAt (pack bits) i = bits[i]?.getD false := by
  rw [bitAt_eq_getElem?, flatMap_unpackByte_pack_append, List.getElem?_append]
  by_cases hi : i < bits.length
  · rw [if_pos hi]
  · rw [if_neg hi, List.getElem?_replicate, List.getElem?_eq_none (Nat.not_lt.mp hi)]
    split <;> rfl

/-! ### Unpacking -/

@[simp] theorem length_unpack (bytes : List UInt8) (size : Nat) :
    (unpack bytes size).length = min size (8 * bytes.length) := by
  rw [unpack, List.length_take, length_flatMap_unpackByte]

theorem getD_unpack (bytes : List UInt8) (size i : Nat) :
    (unpack bytes size)[i]?.getD false = (decide (i < size) && bitAt bytes i) := by
  rw [bitAt_eq_getElem?, unpack, List.getElem?_take]
  by_cases hi : i < size
  · rw [if_pos hi, decide_eq_true hi, Bool.true_and]
  · rw [if_neg hi, decide_eq_false hi, Bool.false_and]
    rfl

/-- What is unpacked is the bits at the first places, as far as there are bytes. -/
theorem unpack_eq (bytes : List UInt8) (size : Nat) :
    unpack bytes size = (List.range (min size (8 * bytes.length))).map (bitAt bytes) := by
  refine List.ext_getElem (by simp) fun i hi hi' => ?_
  have hsize : i < size := by
    rw [length_unpack] at hi
    omega
  have hbit := getD_unpack bytes size i
  rw [List.getElem?_eq_getElem hi, Option.getD_some, decide_eq_true hsize, Bool.true_and] at hbit
  rw [hbit, List.getElem_map, List.getElem_range]

/-! ### Packing what was unpacked -/

/-- The bytes with every bit from place `n` on cleared. Byte `k` starts at place `8 * k`, so that all but its
first `n - 8 * k` bits are shifted out. -/
def clearFrom (n : Nat) (bytes : List UInt8) : List UInt8 :=
  bytes.mapIdx fun k byte => UInt8.ofNat (byte.toNat >>> (8 - (n - 8 * k)) <<< (8 - (n - 8 * k)))

@[simp] theorem length_clearFrom (n : Nat) (bytes : List UInt8) :
    (clearFrom n bytes).length = bytes.length :=
  List.length_mapIdx

theorem bitAt_clearFrom (n : Nat) (bytes : List UInt8) (i : Nat) :
    bitAt (clearFrom n bytes) i = (decide (i < n) && bitAt bytes i) := by
  rw [bitAt, bitAt, clearFrom, List.getElem?_mapIdx]
  cases bytes[i / 8]? with
  | none => simp
  | some byte =>
    rw [Option.map_some, Option.getD_some, Option.getD_some, UInt8.toNat_ofNat', Nat.testBit_mod_two_pow,
      decide_eq_true (by omega), Bool.true_and, Nat.testBit_shiftLeft, Nat.testBit_shiftRight]
    by_cases hi : i < n
    · have hkept : 8 - (n - 8 * (i / 8)) ≤ 7 - i % 8 := by omega
      rw [decide_eq_true hi, decide_eq_true hkept, Nat.add_sub_cancel' hkept]
    · have hshifted : ¬ 8 - (n - 8 * (i / 8)) ≤ 7 - i % 8 := by omega
      rw [decide_eq_false hi, decide_eq_false hshifted, Bool.false_and, Bool.false_and]

/-- Packing the first bits of some bytes gives the bytes that hold them, with the other bits cleared. -/
theorem pack_unpack {bytes : List UInt8} {n : Nat} (h : n ≤ 8 * bytes.length) :
    pack (unpack bytes n) = clearFrom n (bytes.take (byteCount n)) := by
  refine bytes_ext ?_ fun i => ?_
  · rw [length_pack, length_unpack, length_clearFrom, List.length_take, Nat.min_eq_left h,
      Nat.min_eq_left (byteCount_le_iff.mpr h)]
  · rw [bitAt_pack, getD_unpack, bitAt_clearFrom, bitAt_take]
    by_cases hi : i < n
    · rw [decide_eq_true (Nat.lt_of_lt_of_le hi (le_byteCount n)), Bool.true_and]
    · rw [decide_eq_false hi, Bool.false_and, Bool.false_and]

/-! ### Setting one bit after the other -/

/-- The bytes with a bit ored into its place. -/
def orBit (bytes : List UInt8) : Bool × Nat → List UInt8
  | (bit, i) => bytes.modify (i / 8) fun byte => byte ||| bit.toUInt8 <<< UInt8.ofNat (7 - i % 8)

/-- The bits ored into cleared bytes one after the other, each at its place. -/
def scatter (bits : List Bool) : List UInt8 :=
  bits.zipIdx.foldl orBit (List.replicate (byteCount bits.length) 0)

@[simp] theorem length_orBit (bytes : List UInt8) (place : Bool × Nat) :
    (orBit bytes place).length = bytes.length :=
  List.length_modify ..

@[simp] theorem length_foldl_orBit (places : List (Bool × Nat)) (bytes : List UInt8) :
    (places.foldl orBit bytes).length = bytes.length := by
  induction places generalizing bytes with
  | nil => rfl
  | cons place places ih => rw [List.foldl_cons, ih, length_orBit]

/-- A bit that is shifted to a place of a byte is set there and nowhere else. -/
theorem testBit_shifted (bit : Bool) {m p : Nat} (hm : m < 8) (hp : p < 8) :
    (bit.toUInt8 <<< UInt8.ofNat m).toNat.testBit p = (decide (p = m) && bit) := by
  have hall : ∀ (bit : Bool) (m p : Fin 8),
      (bit.toUInt8 <<< UInt8.ofNat m.val).toNat.testBit p.val = (decide (p.val = m.val) && bit) := by
    decide
  exact hall bit ⟨m, hm⟩ ⟨p, hp⟩

/-- A bit changes its own place only. -/
theorem bitAt_orBit {bytes : List UInt8} {i : Nat} (h : i < 8 * bytes.length) (bit : Bool) (j : Nat) :
    bitAt (orBit bytes (bit, i)) j = (bitAt bytes j || (decide (j = i) && bit)) := by
  rw [bitAt, bitAt, orBit, List.getElem?_modify]
  by_cases hbyte : i / 8 = j / 8
  · have hlt : j / 8 < bytes.length := by omega
    have hplace : 7 - j % 8 = 7 - i % 8 ↔ j = i := by omega
    rw [List.getElem?_eq_getElem hlt, Option.map_eq_map, Option.map_some, if_pos hbyte, Option.getD_some,
      Option.getD_some, UInt8.toNat_or, Nat.testBit_or, testBit_shifted bit (by omega) (by omega),
      decide_eq_decide.mpr hplace]
  · -- another byte, so that it is another place too
    have hplace : ¬ j = i := by
      rintro rfl
      exact hbyte rfl
    rw [decide_eq_false hplace, Bool.false_and, Bool.or_false]
    simp only [if_neg hbyte, Option.map_eq_map, Option.map_id']

/-- Bits that are ored in from place `start` on change their own places only. -/
theorem bitAt_foldl_orBit (bits : List Bool) (start : Nat) {bytes : List UInt8}
    (h : start + bits.length ≤ 8 * bytes.length) (j : Nat) :
    bitAt ((bits.zipIdx start).foldl orBit bytes) j =
      (bitAt bytes j || (decide (start ≤ j) && bits[j - start]?.getD false)) := by
  -- each bit is ored into the bytes that the bits before it have left
  induction bits generalizing start bytes with
  | nil => simp
  | cons bit bits ih =>
    rw [List.length_cons] at h
    rw [List.zipIdx_cons, List.foldl_cons, ih (start + 1) (by rw [length_orBit]; omega),
      bitAt_orBit (by omega), Bool.or_assoc]
    congr 1
    rcases Nat.lt_trichotomy j start with hlt | rfl | hgt
    · rw [decide_eq_false (by omega), decide_eq_false (by omega), decide_eq_false (by omega)]
      rfl
    · rw [decide_eq_true rfl, decide_eq_true (Nat.le_refl j), decide_eq_false (Nat.not_succ_le_self j),
        Nat.sub_self, List.getElem?_cons_zero, Option.getD_some, Bool.false_and, Bool.or_false]
    · obtain ⟨k, rfl⟩ : ∃ k, j = start + 1 + k := ⟨j - (start + 1), by omega⟩
      have hnext : start + 1 + k - start = k + 1 := by omega
      rw [decide_eq_false (by omega), decide_eq_true (Nat.le_add_right _ k), decide_eq_true (by omega),
        Nat.add_sub_cancel_left, hnext, List.getElem?_cons_succ, Bool.false_and, Bool.false_or]

theorem bitAt_replicate_zero (count i : Nat) : bitAt (List.replicate count 0) i = false := by
  rw [bitAt, List.getElem?_replicate]
  split <;> exact Nat.zero_testBit _

/-- Packing byte by byte and setting bit after bit come to the same. -/
theorem pack_eq_scatter (bits : List Bool) : pack bits = scatter bits := by
  refine bytes_ext ?_ fun i => ?_
  · rw [length_pack, scatter, length_foldl_orBit, List.length_replicate]
  · have hroom : 0 + bits.length ≤ 8 * (List.replicate (byteCount bits.length) (0 : UInt8)).length := by
      rw [Nat.zero_add, List.length_replicate]
      exact le_byteCount bits.length
    rw [bitAt_pack, scatter, bitAt_foldl_orBit bits 0 hroom, bitAt_replicate_zero,
      decide_eq_true (Nat.zero_le i), Nat.sub_zero, Bool.true_and, Bool.false_or]

/-! ### Reading one bit after the other -/

/-- The bits of byte `k`, which starts at place `8 * k`. Reading stops at place `size`. -/
def readByte (size : Nat) : UInt8 × Nat → List Bool
  | (byte, k) =>
    ((List.range 8).takeWhile fun j => 8 * k + j < size).map fun j => byte >>> UInt8.ofNat (7 - j) &&& 1 != 0

/-- The bits of the bytes, read byte after byte as far as place `size`. -/
def gather (bytes : List UInt8) (size : Nat) : List Bool :=
  bytes.zipIdx.flatMap (readByte size)

/-- A bit of a byte is the last one after the bits behind it are shifted out. -/
theorem shifted_and_one (byte : UInt8) {i : Nat} (hi : i < 8) :
    (byte >>> UInt8.ofNat (7 - i) &&& 1 != 0) = byteBit byte i := by
  have hshift : (UInt8.ofNat (7 - i)).toNat % 8 = 7 - i := by
    rw [UInt8.toNat_ofNat']
    omega
  have hlast : (byte >>> UInt8.ofNat (7 - i) &&& 1).toNat = 1 &&& byte.toNat >>> (7 - i) := by
    rw [UInt8.toNat_and, UInt8.toNat_shiftRight, hshift, Nat.and_comm]
    rfl
  rw [byteBit_eq_testBit byte hi, Nat.testBit, ← hlast, Bool.eq_iff_iff, bne_iff_ne, bne_iff_ne, ne_eq,
    ← UInt8.toNat_inj]
  rfl

/-- Of consecutive numbers, the ones below a bound come first. -/
theorem takeWhile_lt_range' (start count bound : Nat) :
    ((List.range' start count).takeWhile fun j => j < bound) =
      (List.range' start count).take (bound - start) := by
  induction count generalizing start with
  | zero => simp
  | succ count ih =>
    rw [List.range'_succ, List.takeWhile_cons]
    by_cases h : start < bound
    · have hnext : bound - start = bound - (start + 1) + 1 := by omega
      rw [if_pos (decide_eq_true h), ih, hnext, List.take_succ_cons]
    · rw [if_neg (by simpa using h), Nat.sub_eq_zero_of_le (Nat.not_lt.mp h), List.take_zero]

theorem readByte_eq (size : Nat) (byte : UInt8) (k : Nat) :
    readByte size (byte, k) = (unpackByte byte).take (size - 8 * k) := by
  have hbound : (fun j => decide (8 * k + j < size)) = fun j => decide (j < size - 8 * k) := by
    funext j
    exact decide_eq_decide.mpr (by omega)
  rw [readByte, hbound, List.range_eq_range', takeWhile_lt_range', Nat.sub_zero, ← List.range_eq_range',
    unpackByte, ← List.map_take]
  refine List.map_congr_left fun j hj => shifted_and_one byte ?_
  exact List.mem_range.mp (List.mem_of_mem_take hj)

/-- Behind the first `k` bytes, `size - 8 * k` bits are still to be read. -/
theorem flatMap_readByte (bytes : List UInt8) (size k : Nat) :
    (bytes.zipIdx k).flatMap (readByte size) = (bytes.flatMap unpackByte).take (size - 8 * k) := by
  induction bytes generalizing k with
  | nil => simp
  | cons byte bytes ih =>
    have hrest : size - 8 * k - 8 = size - 8 * (k + 1) := by omega
    rw [List.zipIdx_cons, List.flatMap_cons, List.flatMap_cons, List.take_append, length_unpackByte, hrest,
      ih, readByte_eq]

/-- Unpacking at once and reading bit after bit come to the same. -/
theorem unpack_eq_gather (bytes : List UInt8) (size : Nat) : unpack bytes size = gather bytes size :=
  (flatMap_readByte bytes size 0).symm

/-- Packing and unpacking are inverse. Packed bits fill as few bytes as hold them, with zeros behind the last
bit, and unpacking gives them back. Unpacking gives the first bits of the bytes, as many as asked for or as
there are, and packing these gives the bytes that hold them, with the other bits cleared. Packing sets, and
unpacking reads, one bit after the other. -/
theorem pack_unpack_inverse (bits : List Bool) (bytes : List UInt8) (size : Nat) :
    ((pack bits).length = bits.length ⌈/⌉ 8 ∧ (∀ i, bits.length ≤ i → bitAt (pack bits) i = false) ∧
        unpack (pack bits) bits.length = bits) ∧
      ((unpack bytes size).length = min size (8 * bytes.length) ∧
        unpack bytes size = (List.range (min size (8 * bytes.length))).map (bitAt bytes)) ∧
      (size ≤ 8 * bytes.length → pack (unpack bytes size) = clearFrom size (bytes.take (size ⌈/⌉ 8))) ∧
      pack bits = scatter bits ∧ unpack bytes size = gather bytes size := by
  refine ⟨⟨?_, fun i hi => ?_, unpack_pack bits⟩, ⟨length_unpack bytes size, unpack_eq bytes size⟩,
    fun h => ?_, pack_eq_scatter bits, unpack_eq_gather bytes size⟩
  · rw [length_pack, byteCount_eq_ceilDiv]
  · rw [bitAt_pack, List.getElem?_eq_none hi, Option.getD_none]
  · rw [pack_unpack h, byteCount_eq_ceilDiv]

/-- Twelve of sixteen bits, and three bits with padding behind them. -/
theorem pack_unpack_inverse_middle_of_byte :
    (12 ≤ 8 * [(0xab : UInt8), 0xff].length ∧ pack (unpack [0xab, 0xff] 12) = [0xab, 0xf0]) ∧
      [true, false, true].length ≤ 3 ∧ bitAt (pack [true, false, true]) 3 = false := by
  have hinverse := pack_unpack_inverse [true, false, true] [0xab, 0xff] 12
  have hcleared : clearFrom 12 ([0xab, 0xff].take (12 ⌈/⌉ 8)) = [0xab, 0xf0] := by decide
  exact ⟨⟨by decide, (hinverse.2.2.1 (by decide)).trans hcleared⟩, by decide,
    hinverse.1.2.1 3 (by decide)⟩

end HalfGates.Bits
