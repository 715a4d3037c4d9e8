import HalfGates.Bits.View

/-!
# Packing and unpacking are inverse

Packing makes one byte of eight bits and the rest of what remains, so that facts about packed bits go by
induction on the bytes.

## Main definitions

- `Bits.byteBit_packByte`, `Bits.byte_ext`: a byte is its eight bits
- `Bits.pack_append_of_byte`: packing the bits of a byte and further bits
- `Bits.unpack_pack`: unpacking what was packed
- `Bits.pack_take_of_dvd`, `Bits.pack_take`: packing the first bits of some bytes
-/

namespace HalfGates.Bits

/-! ### One byte -/

/-- The most significant bit of a byte stands for the highest power of two. -/
theorem byteBit_eq_testBit (byte : UInt8) {i : Nat} (hi : i < 8) :
    byteBit byte i = byte.toNat.testBit (7 - i) := by
  rw [byteBit, BitVec.getMsbD_eq_getLsbD, decide_eq_true hi, Bool.true_and, BitVec.getLsbD]
  rfl

/-- Doubling a byte moves its bits to the front by one place and makes room for another bit. -/
theorem byteBit_double_add (byte : UInt8) (b : Bool) {i : Nat} (hi : i < 8) :
    byteBit (2 * byte + if b then 1 else 0) i = if i = 7 then b else byteBit byte (i + 1) := by
  have hnat : (2 * byte + if b then 1 else 0).toNat = (2 * byte.toNat + b.toNat) % 256 := by
    cases b <;> simp [UInt8.toNat_add, UInt8.toNat_mul]
  rw [byteBit_eq_testBit _ hi, hnat, show (256 : Nat) = 2 ^ 8 from rfl, Nat.testBit_mod_two_pow]
  by_cases hlast : i = 7
  · subst hlast
    cases b <;> simp [Nat.testBit_zero, Nat.add_mod]
  · have hshift : 7 - i = (7 - (i + 1)) + 1 := by omega
    rw [if_neg hlast, byteBit_eq_testBit byte (by omega), hshift, Nat.testBit_succ,
      decide_eq_true (by omega), Bool.true_and]
    congr 1
    cases b <;> simp only [Bool.toNat_false, Bool.toNat_true] <;> omega

theorem byteBit_packByte (bits : List Bool) {i : Nat} (hi : i < 8) :
    byteBit (packByte bits) i = bits.getD i false := by
  -- after `k` steps the first `k` bits are the last bits of the byte
  have hsteps : ∀ (k : Nat) {i : Nat}, i < 8 →
      byteBit ((List.range k).foldl
        (fun byte j => 2 * byte + if bits.getD j false then 1 else 0) 0) i =
        if 8 ≤ i + k then bits.getD (i + k - 8) false else false := by
    intro k
    induction k with
    | zero =>
      intro i hi
      rw [if_neg (by omega)]
      simp [byteBit]
    | succ k ih =>
      intro i hi
      rw [List.range_succ, List.foldl_append, List.foldl_cons, List.foldl_nil,
        byteBit_double_add _ _ hi]
      by_cases hlast : i = 7
      · have hat : i + (k + 1) - 8 = k := by omega
        rw [if_pos hlast, if_pos (by omega), hat]
      · have hat : i + 1 + k = i + (k + 1) := by omega
        rw [if_neg hlast, ih (by omega), hat]
  rw [packByte, hsteps 8 hi, if_pos (by omega), Nat.add_sub_cancel]

/-- A byte is determined by its eight bits. -/
theorem byte_ext {a b : UInt8} (h : ∀ i < 8, byteBit a i = byteBit b i) : a = b :=
  UInt8.toBitVec_inj.mp (BitVec.eq_of_getMsbD_eq h)

theorem getElem?_unpackByte (byte : UInt8) {i : Nat} (hi : i < 8) :
    (unpackByte byte)[i]? = some (byteBit byte i) := by
  simp [unpackByte, hi]

@[simp] theorem packByte_unpackByte (byte : UInt8) : packByte (unpackByte byte) = byte := by
  refine byte_ext fun i hi => ?_
  rw [byteBit_packByte _ hi, List.getD_eq_getElem?_getD, getElem?_unpackByte byte hi]
  rfl

/-- The first eight bits of a list, of which there may be fewer, are the first bits of their byte. -/
theorem take_unpackByte_packByte (bits : List Bool) {n : Nat} (hn : n ≤ 8) (h : n ≤ bits.length) :
    (unpackByte (packByte bits)).take n = bits.take n := by
  refine List.ext_getElem? fun i => ?_
  by_cases hi : i < n
  · have hlt : i < bits.length := Nat.lt_of_lt_of_le hi h
    rw [List.getElem?_take_of_lt hi, List.getElem?_take_of_lt hi,
      getElem?_unpackByte _ (Nat.lt_of_lt_of_le hi hn), byteBit_packByte _ (by omega),
      List.getD_eq_getElem?_getD, List.getElem?_eq_getElem hlt]
    rfl
  · rw [List.getElem?_take_eq_none (Nat.not_lt.mp hi), List.getElem?_take_eq_none (Nat.not_lt.mp hi)]

/-- Bits behind the eighth do not matter. -/
theorem packByte_append {bits : List Bool} (h : bits.length = 8) (rest : List Bool) :
    packByte (bits ++ rest) = packByte bits := by
  refine byte_ext fun i hi => ?_
  rw [byteBit_packByte _ hi, byteBit_packByte _ hi, List.getD_eq_getElem?_getD,
    List.getD_eq_getElem?_getD, List.getElem?_append_left (by omega)]

/-! ### Many bytes -/

theorem byteCount_add_eight (n : Nat) : byteCount (n + 8) = byteCount n + 1 := by
  unfold byteCount
  omega

@[simp] theorem pack_nil : pack [] = [] := rfl

/-- At most eight bits make one byte. -/
theorem pack_of_length_le {bits : List Bool} (hpos : 0 < bits.length) (hle : bits.length ≤ 8) :
    pack bits = [packByte bits] := by
  have hcount : byteCount bits.length = 1 := by
    unfold byteCount
    omega
  rw [pack, hcount]
  simp [List.range_succ]

/-- Eight bits make the first byte, and the other bits the rest. -/
theorem pack_append_of_byte {bits : List Bool} (h : bits.length = 8) (rest : List Bool) :
    pack (bits ++ rest) = packByte bits :: pack rest := by
  have hcount : byteCount (bits ++ rest).length = byteCount rest.length + 1 := by
    rw [List.length_append, h, Nat.add_comm, byteCount_add_eight]
  have hdrop : ∀ k, (bits ++ rest).drop (8 * (k + 1)) = rest.drop (8 * k) := by
    intro k
    rw [Nat.mul_succ, Nat.add_comm, ← h, ← List.drop_drop, List.drop_left, h]
  rw [pack, hcount, List.range_succ_eq_map, List.map_cons, Nat.mul_zero, List.drop_zero,
    packByte_append h, List.map_map, pack]
  simp only [Function.comp_def, Nat.succ_eq_add_one, hdrop]

@[simp] theorem length_flatMap_unpackByte (bytes : List UInt8) :
    (bytes.flatMap unpackByte).length = 8 * bytes.length := by
  induction bytes with
  | nil => rfl
  | cons byte bytes ih =>
    rw [List.flatMap_cons, List.length_append, ih, length_unpackByte, List.length_cons]
    omega

/-- The bits that were packed are the first ones of the bytes. -/
theorem unpack_pack (bits : List Bool) : unpack (pack bits) bits.length = bits := by
  induction h : bits.length using Nat.strongRecOn generalizing bits with
  | ind n ih =>
    by_cases hlong : 8 ≤ bits.length
    · obtain ⟨front, rest, rfl, hfront⟩ : ∃ front rest, bits = front ++ rest ∧ front.length = 8 :=
        ⟨bits.take 8, bits.drop 8, (List.take_append_drop 8 bits).symm, by simp [hlong]⟩
      have hlen : n = 8 + rest.length := by rw [← h, List.length_append, hfront]
      have hrest := ih rest.length (by omega) rest rfl
      have hbyte : unpackByte (packByte front) = front := by
        have htake := take_unpackByte_packByte front (Nat.le_refl 8) (Nat.le_of_eq hfront.symm)
        rwa [List.take_of_length_le (by simp), List.take_of_length_le (Nat.le_of_eq hfront)] at htake
      rw [unpack] at hrest
      rw [unpack, pack_append_of_byte hfront, List.flatMap_cons, hbyte, hlen, ← hfront,
        List.take_length_add_append, hrest]
    · match hbits : bits with
      | [] =>
        obtain rfl : 0 = n := h
        rfl
      | b :: bs =>
        rw [← hbits] at h hlong ⊢
        have hpos : 0 < bits.length := by simp [hbits]
        rw [unpack, pack_of_length_le hpos (by omega), List.flatMap_cons, List.flatMap_nil,
          List.append_nil, ← h, take_unpackByte_packByte bits (by omega) (Nat.le_refl _),
          List.take_length]

theorem flatMap_unpackByte_pack {bits : List Bool} (h : bits.length % 8 = 0) :
    (pack bits).flatMap unpackByte = bits := by
  have hunpack := unpack_pack bits
  rwa [unpack, List.take_of_length_le] at hunpack
  rw [length_flatMap_unpackByte, length_pack, byteCount]
  omega

/-- Packing the bits of whole bytes gives the bytes. -/
theorem pack_take_of_dvd {bytes : List UInt8} {n : Nat} (hn : n ≤ 8 * bytes.length)
    (hdvd : n % 8 = 0) :
    pack ((bytes.flatMap unpackByte).take n) = bytes.take (byteCount n) := by
  induction bytes generalizing n with
  | nil =>
    obtain rfl : n = 0 := by simpa using hn
    rfl
  | cons byte bytes ih =>
    by_cases hzero : n = 0
    · have hcount : byteCount 0 = 0 := by decide
      rw [hzero, List.take_zero, hcount, List.take_zero, pack_nil]
    · obtain ⟨m, rfl⟩ : ∃ m, n = m + 8 := ⟨n - 8, by omega⟩
      have hrest := ih (by rw [List.length_cons] at hn; omega) (by omega : m % 8 = 0)
      rw [List.flatMap_cons, Nat.add_comm m 8, ← length_unpackByte byte, List.take_length_add_append,
        pack_append_of_byte (length_unpackByte byte), packByte_unpackByte, hrest, length_unpackByte,
        Nat.add_comm 8 m, byteCount_add_eight, List.take_succ_cons]

/-- Packing the bits up to the middle of a byte clears the rest of that byte. -/
theorem pack_take {bytes : List UInt8} {n : Nat} (hn : n ≤ 8 * bytes.length) (hmod : n % 8 ≠ 0) :
    pack ((bytes.flatMap unpackByte).take n) =
      (bytes.take (byteCount n)).dropLast ++
        ((bytes.take (byteCount n)).getLast?.map (BitView.keepHigh (n % 8))).toList := by
  induction bytes generalizing n with
  | nil =>
    obtain rfl : n = 0 := by simpa using hn
    exact absurd rfl hmod
  | cons byte bytes ih =>
    by_cases hshort : n < 8
    · have hcount : byteCount n = 1 := by
        unfold byteCount
        omega
      have hlength : ((unpackByte byte).take n).length = n := by
        rw [List.length_take, length_unpackByte]
        omega
      have hpos : 0 < n := Nat.pos_of_ne_zero (by rintro rfl; exact hmod rfl)
      rw [List.flatMap_cons, List.take_append_of_le_length (by rw [length_unpackByte]; omega),
        pack_of_length_le (by rwa [hlength]) (by rw [hlength]; omega), hcount,
        Nat.mod_eq_of_lt hshort]
      rfl
    · obtain ⟨m, rfl⟩ : ∃ m, n = m + 8 := ⟨n - 8, by omega⟩
      have hrest := ih (by rw [List.length_cons] at hn; omega) (by omega : m % 8 ≠ 0)
      have hne : bytes.take (byteCount m) ≠ [] := by
        intro hnil
        have hlen := congrArg List.length hnil
        rw [List.length_take, List.length_nil, byteCount] at hlen
        rw [List.length_cons] at hn
        omega
      rw [List.flatMap_cons, Nat.add_comm m 8, ← length_unpackByte byte, List.take_length_add_append,
        pack_append_of_byte (length_unpackByte byte), packByte_unpackByte, hrest, length_unpackByte,
        Nat.add_comm 8 m, byteCount_add_eight, List.take_succ_cons, List.dropLast_cons_of_ne_nil hne,
        List.getLast?_cons_of_ne_nil hne, Nat.add_mod_right, List.cons_append]

theorem pack_flatMap_unpackByte (bytes : List UInt8) : pack (bytes.flatMap unpackByte) = bytes := by
  have hpack := pack_take_of_dvd (Nat.le_refl (8 * bytes.length)) (Nat.mul_mod_right 8 _)
  have hcount : byteCount (8 * bytes.length) = bytes.length := by
    unfold byteCount
    omega
  rwa [List.take_of_length_le (Nat.le_of_eq (length_flatMap_unpackByte bytes)), hcount,
    List.take_length] at hpack

end HalfGates.Bits
