import HalfGates.Proofs.Block
import HalfGates.Proofs.Codec.RoundTrip

/-!
# Views stand for lists of bits

A view is made by constructors, by cutting and joining views, and by reading it from bytes. The same
operations on lists of bits give the bits that it shows, and no operation can tell two views of the same bits
apart, but for those that ask for byte boundaries.

## Main definitions

- `BitView.Represents`: views made by the operations, with the lists that they stand for
- `BitView.BehavesAs`: what the operations make of a view, in terms of a list
- `BitView.toBlock_eq_ok_iff`: views that are blocks
- `BitView.behaves_as_list`: a view behaves as the list that it stands for
-/

namespace HalfGates

namespace BitView

theorem toBytes_eq_ite (v : BitView) :
    v.toBytes = if v.start % 8 = 0 then .ok (Bits.pack v.toBits) else .error (.unaligned v.start v.stop) := by
  by_cases haligned : v.start % 8 = 0
  · rw [if_pos haligned, toBytes_eq (by simp [startsAligned, haligned])]
  · rw [if_neg haligned, toBytes, if_neg (by simp [startsAligned, haligned])]

/-- A view is exported as a block if it shows 128 bits from a byte boundary on, and the block has these. -/
theorem toBlock_eq_ok_iff {v : BitView} {x : Block} :
    v.toBlock = .ok x ↔ v.length = 128 ∧ v.start % 8 = 0 ∧ x.toBits = v.toBits := by
  by_cases hlength : v.length = 128
  · by_cases haligned : v.start % 8 = 0
    · rw [toBlock_of_length (by simp [startsAligned, haligned]) hlength, Except.ok.injEq]
      constructor
      · rintro rfl
        exact ⟨hlength, haligned, Block.toBits_ofBytes_pack (by rw [length_toBits, hlength])⟩
      · rintro ⟨-, -, hbits⟩
        rw [← hbits, Block.ofBytes_pack_toBits]
    · rw [toBlock, if_pos hlength, toBytes_eq_ite, if_neg haligned]
      constructor
      · rintro ⟨⟩
      · rintro ⟨-, h, -⟩
        exact absurd h haligned
  · rw [toBlock, if_neg hlength]
    constructor
    · rintro ⟨⟩
    · rintro ⟨h, -⟩
      exact absurd h hlength

/-- A view that is read from bytes shows the first bits behind the two lengths in front of them. -/
theorem toBits_of_decode {input : List UInt8} {v : BitView}
    (h : Codec.decode Codec.takeView input = .ok v) :
    v.toBits = ((input.drop 16).flatMap Bits.unpackByte).take (Codec.wordOf (input.take 8)) := by
  obtain ⟨⟨view, rest⟩, hread, h⟩ := bind_eq_ok.mp h
  cases h
  obtain ⟨count, packed, hlt, rfl, hpacked, rfl⟩ := Codec.takeView_eq_ok hread
  have hcount : Codec.wordOf ((Codec.putWord 8 count ++ Codec.putList Codec.putByte packed ++ rest).take 8) =
      count := by
    rw [List.append_assoc, List.take_left' (Codec.length_putWord 8 count), Codec.wordOf_putWord]
    exact Nat.mod_eq_of_lt hlt
  have hpayload : (Codec.putWord 8 count ++ Codec.putList Codec.putByte packed ++ rest).drop 16 =
      packed ++ rest := by
    rw [Codec.putBytes_eq, ← List.append_assoc, List.append_assoc _ packed rest]
    exact List.drop_left' (by simp)
  have hle : count ≤ (packed.flatMap Bits.unpackByte).length := by
    rw [Bits.length_flatMap_unpackByte, hpacked, Bits.byteCount]
    omega
  rw [hcount, hpayload, toBits_ofBits, Bits.unpack, List.flatMap_append, List.take_append_of_le_length hle]

/-! ### Histories -/

/-- Views made by the operations, with the lists of bits that the same operations on lists give. -/
inductive Represents : BitView → List Bool → Prop
  | empty : Represents .empty []
  | singleton (bit : Bool) : Represents (.singleton bit) [bit]
  | ofBytes (bytes : List UInt8) : Represents (.ofBytes bytes) (bytes.flatMap Bits.unpackByte)
  | ofBits (bits : List Bool) : Represents (.ofBits bits) bits
  | ofBlock (x : Block) : Represents (.ofBlock x) x.toBits
  | slice {v w : BitView} {bits : List Bool} (hv : Represents v bits) (lower upper : Bound)
      (h : v.slice lower upper = .ok w) :
      Represents w ((bits.take (afterLastOf bits.length upper)).drop (firstOf lower))
  | concat {v w u : BitView} {bits bits' : List Bool} (hv : Represents v bits) (hw : Represents w bits')
      (h : v.concat w = .ok u) : Represents u (bits ++ bits')
  | decode (input : List UInt8) {v : BitView} (h : Codec.decode Codec.takeView input = .ok v) :
      Represents v (((input.drop 16).flatMap Bits.unpackByte).take (Codec.wordOf (input.take 8)))

/-- A view shows the list that it stands for. -/
theorem Represents.toBits_eq {v : BitView} {bits : List Bool} (h : Represents v bits) : v.toBits = bits := by
  induction h with
  | empty => rfl
  | singleton bit => exact toBits_singleton bit
  | ofBytes bytes => exact toBits_ofBytes bytes
  | ofBits bits => exact toBits_ofBits bits
  | ofBlock x => exact toBits_ofBlock x
  | slice _ lower upper h ih => rw [toBits_of_cut h, ← ih, length_toBits]
  | concat _ _ h ihv ihw => rw [toBits_of_concat h, ihv, ihw]
  | decode input h => exact toBits_of_decode h

/-- Every view is made by the operations: it is cut out of all bits of its bytes. -/
theorem represents_toBits (v : BitView) : Represents v v.toBits := by
  have hwhole : (BitView.ofBytes v.bytes).length = 8 * v.bytes.length := rfl
  have hcut : (BitView.ofBytes v.bytes).slice (.included v.start) (.excluded v.stop) = .ok v :=
    cut_eq_ok_iff.mpr ⟨v.start_le_stop, hwhole ▸ v.stop_le_bits, rfl, (Nat.zero_add _).symm,
      (Nat.zero_add _).symm⟩
  have hmade := Represents.slice (.ofBytes v.bytes) _ _ hcut
  rwa [← hmade.toBits_eq] at hmade

/-! ### Observations -/

/-- What the operations make of a view, in terms of a list of bits. Where the view starts and what its bytes
hold beyond it matters for exports only, which ask for a byte boundary. -/
structure BehavesAs (v : BitView) (bits : List Bool) : Prop where
  start_le_stop : v.start ≤ v.stop
  stop_le_bits : v.stop ≤ 8 * v.bytes.length
  toBits : v.toBits = bits
  length : v.length = bits.length
  isEmpty : v.isEmpty = bits.isEmpty
  get? : ∀ i, v.get? i = bits[i]?
  bit : ∀ i, v.bit i = bits[i]?.elim (.error (.position i bits.length)) .ok
  read : ∀ count, v.read count = (bits.take count, bits.length - count)
  beq : ∀ w bits', Represents w bits' → ((v == w) = true ↔ bits = bits')
  encoding : Codec.putView v =
    Codec.putWord 8 bits.length ++ Codec.putWord 8 (Bits.byteCount bits.length) ++ Bits.pack bits
  /-- A range that is cut out shows the bits of the range. -/
  slice : ∀ lower upper w, v.slice lower upper = .ok w →
    w.toBits = (bits.take (afterLastOf bits.length upper)).drop (firstOf lower)
  /-- Ranges that decrease or end beyond the view are refused, and no others. -/
  slice_refused : ∀ lower upper fault, v.slice lower upper = .error fault ↔
    (afterLastOf bits.length upper < firstOf lower ∨ bits.length < afterLastOf bits.length upper) ∧
      fault = .interval (firstOf lower) (afterLastOf bits.length upper) bits.length
  slice_slice : ∀ lower upper lower' upper' w u, v.slice lower upper = .ok w →
    w.slice lower' upper' = .ok u →
      v.slice (.included (firstOf lower + firstOf lower'))
        (.excluded (firstOf lower + afterLastOf w.length upper')) = .ok u
  concat : ∀ w bits' u, Represents w bits' → v.concat w = .ok u → u.toBits = bits ++ bits'
  toBytes : v.toBytes = if v.start % 8 = 0 then .ok (Bits.pack bits) else .error (.unaligned v.start v.stop)
  padding : (Bits.pack bits).flatMap Bits.unpackByte =
    bits ++ List.replicate (8 * Bits.byteCount bits.length - bits.length) false
  toBlock_succeeds : (∃ x, v.toBlock = .ok x) ↔ bits.length = 128 ∧ v.start % 8 = 0
  /-- The block that is exported is the one that the view is equal to. -/
  toBlock : ∀ x, v.toBlock = .ok x ↔ v.start % 8 = 0 ∧ (ofBlock x == v) = true

theorem isEmpty_eq (v : BitView) : v.isEmpty = v.toBits.isEmpty := by
  have hle := v.start_le_stop
  rw [Bool.eq_iff_iff, List.isEmpty_iff_length_eq_zero, length_toBits, isEmpty, beq_iff_eq, length]
  omega

theorem bit_eq (v : BitView) (i : Nat) :
    v.bit i = v.toBits[i]?.elim (.error (.position i v.length)) .ok := by
  rw [bit, get?_eq]
  cases v.toBits[i]? <;> rfl

theorem putView_eq (v : BitView) : Codec.putView v =
    Codec.putWord 8 v.length ++ Codec.putWord 8 (Bits.byteCount v.length) ++ Bits.pack v.toBits := by
  rw [Codec.putView, Codec.putBytes_eq, Bits.length_pack, length_toBits, List.append_assoc]

theorem toBlock_succeeds_iff {v : BitView} :
    (∃ x, v.toBlock = .ok x) ↔ v.length = 128 ∧ v.start % 8 = 0 := by
  constructor
  · rintro ⟨x, hx⟩
    obtain ⟨hlength, haligned, -⟩ := toBlock_eq_ok_iff.mp hx
    exact ⟨hlength, haligned⟩
  · rintro ⟨hlength, haligned⟩
    exact ⟨_, toBlock_eq_ok_iff.mpr
      ⟨hlength, haligned, Block.toBits_ofBytes_pack (by rw [length_toBits, hlength])⟩⟩

theorem toBlock_eq_ok_iff_beq {v : BitView} {x : Block} :
    v.toBlock = .ok x ↔ v.start % 8 = 0 ∧ (ofBlock x == v) = true := by
  rw [toBlock_eq_ok_iff, beq_iff, toBits_ofBlock]
  constructor
  · rintro ⟨-, haligned, hbits⟩
    exact ⟨haligned, hbits⟩
  · rintro ⟨haligned, hbits⟩
    exact ⟨by rw [← length_toBits, ← hbits, Block.length_toBits], haligned, hbits⟩

/-- A view, however it was made, behaves as the list that the same operations on lists give. -/
theorem behaves_as_list {v : BitView} {bits : List Bool} (h : Represents v bits) : BehavesAs v bits := by
  obtain rfl := h.toBits_eq
  have hlength := length_toBits v
  exact {
    start_le_stop := v.start_le_stop
    stop_le_bits := v.stop_le_bits
    toBits := rfl
    length := hlength.symm
    isEmpty := isEmpty_eq v
    get? := get?_eq v
    bit := hlength ▸ bit_eq v
    read := hlength ▸ read_eq v
    beq := fun w bits' hw => by rw [beq_iff, hw.toBits_eq]
    encoding := hlength ▸ putView_eq v
    slice := fun lower upper w hcut => hlength ▸ toBits_of_cut hcut
    slice_refused := fun lower upper fault => hlength ▸ cut_eq_error_iff
    slice_slice := fun _ _ _ _ _ _ => cut_of_cut
    concat := fun w bits' u hw hjoin => by rw [toBits_of_concat hjoin, hw.toBits_eq]
    toBytes := toBytes_eq_ite v
    padding := Bits.flatMap_unpackByte_pack_append v.toBits
    toBlock_succeeds := hlength ▸ toBlock_succeeds_iff
    toBlock := fun _ => toBlock_eq_ok_iff_beq }

/-- Twelve bits with padding behind them are read, the last eight of them cut out and joined with nothing. What
is left is the list of eight bits, and equal to a view of one byte, but it cannot be exported. -/
theorem behaves_as_list_middle_of_byte :
    ∃ v, Represents v [true, false, true, true, true, true, false, false] ∧
      (v == ofBytes [0xbc]) = true ∧ v.read 3 = ([true, false, true], 5) ∧
      v.toBytes = .error (.unaligned 4 12) := by
  have hread : Represents ⟨[0xab, 0xc0], 0, 12, by decide, by decide⟩ _ :=
    .decode [12, 0, 0, 0, 0, 0, 0, 0, 2, 0, 0, 0, 0, 0, 0, 0, 0xab, 0xcf] rfl
  have hcut : Represents ⟨[0xab, 0xc0], 4, 12, by decide, by decide⟩ _ :=
    hread.slice (.included 4) .unbounded rfl
  have hmade : Represents ⟨[0xab, 0xc0], 4, 12, by decide, by decide⟩
      [true, false, true, true, true, true, false, false] := hcut.concat .empty rfl
  have hbehaves := behaves_as_list hmade
  have hsame := (hbehaves.beq _ _ (.ofBytes [0xbc])).mpr rfl
  exact ⟨_, hmade, hsame, hbehaves.read 3, hbehaves.toBytes⟩

end BitView

end HalfGates
