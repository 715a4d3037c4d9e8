import HalfGates.Codec
import HalfGates.Proofs.Bits.View
import HalfGates.Proofs.Sequencing
import Mathlib.Algebra.Ring.Nat

/-!
# Reading what was written

A reader gives back what a writer wrote, and leaves whatever stands behind it. Lengths are exact below the
width of the field that holds them.

## Main definitions

- `Codec.Reads`: a reader takes a value from the front of whatever begins with some bytes
- `Codec.wordOf_putWord`, `Codec.putWord_wordOf`: numbers and their bytes
- `Codec.reads_word`, `Codec.reads_list`, `Codec.reads_view`: numbers, lists and views
- `Codec.reads_tables`: the payloads of a list of tables
- `Codec.startsAligned_of_decode`: what any bytes are read as, if they are read as tables
-/

namespace HalfGates.Codec

/-- The reader takes `x` from the front of whatever begins with the bytes. -/
def Reads {α : Type} (reader : Reader α) (bytes : List UInt8) (x : α) : Prop :=
  ∀ rest, reader (bytes ++ rest) = .ok (x, rest)

theorem Reads.decode {α : Type} {reader : Reader α} {bytes : List UInt8} {x : α}
    (h : Reads reader bytes x) : decode reader bytes = .ok x := by
  have hnil := h []
  rw [List.append_nil] at hnil
  rw [Codec.decode, hnil]
  rfl

@[simp] theorem length_putWord (width n : Nat) : (putWord width n).length = width := by
  simp [putWord]

theorem putWord_succ (width n : Nat) :
    putWord (width + 1) n = UInt8.ofNat n :: putWord width (n / 256) := by
  have hshift : ∀ i, n >>> (8 * (i + 1)) = (n / 256) >>> (8 * i) := by
    intro i
    rw [Nat.mul_succ, Nat.add_comm, Nat.shiftRight_add, Nat.shiftRight_eq_div_pow n 8]
  rw [putWord, List.range_succ_eq_map, List.map_cons, List.map_map, putWord]
  simp only [Function.comp_def, Nat.succ_eq_add_one, hshift, Nat.mul_zero, Nat.shiftRight_zero]

/-- The bytes of a number are those of the number modulo the width. -/
theorem wordOf_putWord (width n : Nat) : wordOf (putWord width n) = n % 256 ^ width := by
  induction width generalizing n with
  | zero => simp [putWord, wordOf, Nat.mod_one]
  | succ width ih =>
    have hrest := ih (n / 256)
    rw [wordOf] at hrest
    have hbyte : (UInt8.ofNat n).toNat = n % 256 := UInt8.toNat_ofNat'
    rw [putWord_succ, wordOf, List.foldr_cons, hrest, hbyte, Nat.pow_succ,
      Nat.mul_comm (256 ^ width), Nat.mod_mul]

/-- A number is written as the bytes it was read from. -/
theorem putWord_wordOf (bytes : List UInt8) : putWord bytes.length (wordOf bytes) = bytes := by
  induction bytes with
  | nil => rfl
  | cons byte bytes ih =>
    have hbyte := byte.toNat_lt
    have hword : wordOf (byte :: bytes) = byte.toNat + 256 * wordOf bytes := rfl
    have hlow : UInt8.ofNat (byte.toNat + 256 * wordOf bytes) = byte := by
      apply UInt8.toNat_inj.mp
      rw [UInt8.toNat_ofNat']
      omega
    have hhigh : (byte.toNat + 256 * wordOf bytes) / 256 = wordOf bytes := by omega
    rw [List.length_cons, putWord_succ, hword, hlow, hhigh, ih]

theorem reads_bytes (bytes : List UInt8) : Reads (takeBytes bytes.length) bytes bytes := by
  intro rest
  rw [takeBytes, if_pos (by simp), List.take_left, List.drop_left]

theorem reads_word {width n : Nat} (h : n < 256 ^ width) :
    Reads (takeWord width) (putWord width n) n := by
  intro rest
  have hbytes := reads_bytes (putWord width n) rest
  rw [length_putWord] at hbytes
  rw [takeWord, hbytes, ok_bind]
  dsimp only
  rw [wordOf_putWord, Nat.mod_eq_of_lt h]

theorem reads_byte (byte : UInt8) : Reads takeByte (putByte byte) byte := fun _ => rfl

/-- As many items are read as were written, each of them as `view` shows it. -/
theorem reads_items {α β : Type} {put : α → List UInt8} {item : Reader β} {view : α → β}
    {items : List α} (h : ∀ x ∈ items, Reads item (put x) (view x)) :
    Reads (takeItems item items.length) (items.flatMap put) (items.map view) := by
  induction items with
  | nil => exact fun _ => rfl
  | cons x items ih =>
    intro rest
    have hfirst := h x List.mem_cons_self (items.flatMap put ++ rest)
    have hrest := ih (fun y hy => h y (List.mem_cons_of_mem x hy)) rest
    rw [List.flatMap_cons, List.append_assoc, List.length_cons, takeItems, hfirst, ok_bind]
    dsimp only
    rw [hrest, ok_bind, List.map_cons]

theorem reads_list {α β : Type} {put : α → List UInt8} {item : Reader β} {view : α → β}
    {items : List α} (hlength : items.length < 256 ^ 8)
    (h : ∀ x ∈ items, Reads item (put x) (view x)) :
    Reads (takeList item) (putList put items) (items.map view) := by
  intro rest
  rw [putList, List.append_assoc, takeList, reads_word hlength]
  exact reads_items h rest

/-- A view is read as a view of the same bits. -/
theorem reads_view {v : BitView} (h : v.length < 256 ^ 8) :
    Reads takeView (putView v) (.ofBits v.toBits) := by
  intro rest
  have hlength : (Bits.pack v.toBits).length = Bits.byteCount v.length := by
    rw [Bits.length_pack, BitView.length_toBits]
  have hpacked : Reads (takeList takeByte) (putList putByte (Bits.pack v.toBits))
      ((Bits.pack v.toBits).map id) := by
    refine reads_list ?_ fun byte _ => reads_byte byte
    rw [hlength, Bits.byteCount]
    omega
  rw [List.map_id] at hpacked
  have hunpack := Bits.unpack_pack v.toBits
  rw [BitView.length_toBits] at hunpack
  rw [putView, List.append_assoc, takeView, reads_word h, ok_bind]
  dsimp only
  rw [hpacked, ok_bind]
  dsimp only
  rw [if_pos hlength, hunpack]

/-- Tables are read as tables with payloads of the same bits. -/
theorem reads_tables {tables : List BitView} (hcount : tables.length < 256 ^ 8)
    (hlength : ∀ v ∈ tables, v.length < 256 ^ 8) :
    Reads takeTables (putTables tables) (tables.map fun v => .ofBits v.toBits) :=
  reads_list hcount fun v hv => reads_view (hlength v hv)

/-- What holds of every item that can be read holds of the items of a list that was read. -/
theorem forall_of_takeItems {α : Type} {item : Reader α} {P : α → Prop}
    (h : ∀ bytes x rest, item bytes = .ok (x, rest) → P x) {count : Nat} {bytes rest : List UInt8}
    {xs : List α} (hread : takeItems item count bytes = .ok (xs, rest)) : ∀ x ∈ xs, P x := by
  induction count generalizing bytes xs with
  | zero =>
    cases hread
    simp
  | succ count ih =>
    obtain ⟨⟨x, rest₁⟩, hitem, hread⟩ := bind_eq_ok.mp hread
    obtain ⟨⟨xs₁, rest₂⟩, hitems, hread⟩ := bind_eq_ok.mp hread
    cases hread
    intro y hy
    rcases List.mem_cons.mp hy with rfl | hy
    · exact h _ _ _ hitem
    · exact ih hitems y hy

/-- A view that was read starts on a byte boundary, whatever the bytes were. -/
theorem startsAligned_of_takeView (bytes : List UInt8) (v : BitView) (rest : List UInt8)
    (h : takeView bytes = .ok (v, rest)) : v.startsAligned = true := by
  obtain ⟨⟨length, rest₁⟩, -, h⟩ := bind_eq_ok.mp h
  obtain ⟨⟨packed, rest₂⟩, -, h⟩ := bind_eq_ok.mp h
  dsimp only at h
  split at h
  · cases h
    rfl
  · cases h

theorem startsAligned_of_decode {bytes : List UInt8} {tables : List BitView}
    (h : decode takeTables bytes = .ok tables) : ∀ v ∈ tables, v.startsAligned = true := by
  obtain ⟨⟨views, rest⟩, hread, h⟩ := bind_eq_ok.mp h
  cases h
  obtain ⟨⟨count, rest₁⟩, -, hitems⟩ := bind_eq_ok.mp hread
  exact forall_of_takeItems startsAligned_of_takeView hitems

end HalfGates.Codec
