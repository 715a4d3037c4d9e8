import HalfGates.Proofs.Bits.Packing
import HalfGates.Proofs.Sequencing

/-!
# Views as lists of bits

Reading, cutting, exporting and joining views are operations on the lists of bits that they show, as long
as the views start on byte boundaries where bytes are asked for.

## Main definitions

- `BitView.toBits_eq`: the bits of a view, cut out of the bits of its bytes
- `BitView.read_eq`: reading the bits of a view one by one
- `BitView.cut_eq_ok_iff`, `BitView.exists_split?`: cutting a view
- `BitView.toBytes_eq`: exporting a view is packing its bits
- `BitView.exists_concat`, `BitView.toBits_of_concat`: joining views
-/

namespace HalfGates.BitView

@[simp] theorem length_toBits (v : BitView) : v.toBits.length = v.length := by
  simp [toBits]

theorem length_le (v : BitView) : v.start + v.length ≤ 8 * v.bytes.length := by
  have hle := v.start_le_stop
  have hbits := v.stop_le_bits
  rw [length]
  omega

/-- A bit of some bytes is a bit of one of them. -/
theorem getElem?_flatMap_unpackByte (bytes : List UInt8) (i : Nat) :
    (bytes.flatMap Bits.unpackByte)[i]? = bytes[i / 8]?.map (Bits.byteBit · (i % 8)) := by
  induction bytes generalizing i with
  | nil => simp
  | cons byte bytes ih =>
    rw [List.flatMap_cons]
    by_cases hi : i < 8
    · rw [List.getElem?_append_left (by simpa using hi), Bits.getElem?_unpackByte byte hi,
        Nat.div_eq_of_lt hi, Nat.mod_eq_of_lt hi]
      rfl
    · obtain ⟨j, rfl⟩ : ∃ j, i = j + 8 := ⟨i - 8, by omega⟩
      rw [List.getElem?_append_right (by simp), Bits.length_unpackByte, Nat.add_sub_cancel, ih,
        Nat.add_mod_right, Nat.add_div_right j (by decide), List.getElem?_cons_succ]

/-- The bits of a view are cut out of the bits of its bytes. -/
theorem toBits_eq (v : BitView) :
    v.toBits = ((v.bytes.flatMap Bits.unpackByte).drop v.start).take v.length := by
  refine List.ext_getElem? fun i => ?_
  by_cases hi : i < v.length
  · have hbound : (v.start + i) / 8 < v.bytes.length := by
      have hle := v.length_le
      omega
    rw [List.getElem?_take_of_lt hi, List.getElem?_drop, getElem?_flatMap_unpackByte,
      List.getElem?_eq_getElem hbound, toBits, List.getElem?_map, List.getElem?_range hi]
    simp [rawBit, List.getElem?_eq_getElem hbound]
  · rw [List.getElem?_eq_none (by simpa using hi), List.getElem?_take_eq_none (Nat.not_lt.mp hi)]

@[simp] theorem toBits_ofBits (bits : List Bool) : (ofBits bits).toBits = bits := by
  have hunpack := Bits.unpack_pack bits
  rw [Bits.unpack] at hunpack
  rw [toBits_eq]
  exact hunpack

@[simp] theorem toBits_singleton (bit : Bool) : (singleton bit).toBits = [bit] :=
  toBits_ofBits [bit]

@[simp] theorem toBits_ofBytes (bytes : List UInt8) :
    (ofBytes bytes).toBits = bytes.flatMap Bits.unpackByte := by
  rw [toBits_eq]
  exact List.take_of_length_le (Nat.le_of_eq (Bits.length_flatMap_unpackByte bytes))

/-- The first bit of a view is the first of its list. -/
theorem get?_eq (v : BitView) (i : Nat) : v.get? i = v.toBits[i]? := by
  by_cases hi : i < v.length
  · simp [get?, toBits, hi]
  · rw [get?, if_neg hi, List.getElem?_eq_none (by simpa using hi)]

/-! ### Reading -/

/-- Reading on from a place hands out the bits behind it, as many as there are. -/
theorem Cursor.advance_eq (count : Nat) (c : Cursor) :
    (c.advance count).1 = (c.view.toBits.drop c.index).take count ∧
      (c.advance count).2.remaining = c.remaining - count := by
  induction count generalizing c with
  | zero => exact ⟨rfl, rfl⟩
  | succ count ih =>
    rw [advance, next?, get?_eq]
    cases hbit : c.view.toBits[c.index]? with
    | none =>
      have hend : c.view.toBits.length ≤ c.index := List.getElem?_eq_none_iff.mp hbit
      constructor
      · rw [List.drop_of_length_le hend, List.take_nil]
        rfl
      · rw [length_toBits] at hend
        show c.remaining = _
        rw [remaining]
        omega
    | some bit =>
      obtain ⟨hlt, hget⟩ := List.getElem?_eq_some_iff.mp hbit
      obtain ⟨hbits, hleft⟩ := ih { c with index := c.index + 1 }
      constructor
      · rw [List.drop_eq_getElem_cons hlt, List.take_succ_cons, hget, ← hbits]
        rfl
      · show (advance count { c with index := c.index + 1 }).2.remaining = _
        rw [hleft]
        show c.view.length - (c.index + 1) - count = c.view.length - c.index - (count + 1)
        omega

theorem read_eq (v : BitView) (count : Nat) :
    v.read count = (v.toBits.take count, v.length - count) := by
  obtain ⟨hbits, hleft⟩ := Cursor.advance_eq count ⟨v, 0⟩
  exact Prod.ext hbits hleft

/-! ### Cutting -/

theorem cut_eq_ok_iff {v w : BitView} {first afterLast : Nat} :
    v.cut first afterLast = .ok w ↔
      first ≤ afterLast ∧ afterLast ≤ v.length ∧ w.bytes = v.bytes ∧
        w.start = v.start + first ∧ w.stop = v.start + afterLast := by
  unfold cut
  split
  · next h =>
    constructor
    · rintro ⟨⟩
      exact ⟨h.1, h.2, rfl, rfl, rfl⟩
    · rintro ⟨-, -, hbytes, hstart, hstop⟩
      cases w
      cases hbytes
      cases hstart
      cases hstop
      rfl
  · next h =>
    constructor
    · rintro ⟨⟩
    · rintro ⟨hle, hlength, -⟩
      exact absurd ⟨hle, hlength⟩ h

theorem cut_eq_error_iff {v : BitView} {first afterLast : Nat} {fault : RangeFault} :
    v.cut first afterLast = .error fault ↔
      (afterLast < first ∨ v.length < afterLast) ∧ fault = .interval first afterLast v.length := by
  unfold cut
  split
  · next h =>
    constructor
    · rintro ⟨⟩
    · rintro ⟨hbeyond, -⟩
      omega
  · next h =>
    constructor
    · rintro ⟨⟩
      exact ⟨by omega, rfl⟩
    · rintro ⟨-, rfl⟩
      rfl

/-- A cut shows the bits of its range. -/
theorem toBits_of_cut {v w : BitView} {first afterLast : Nat} (h : v.cut first afterLast = .ok w) :
    w.toBits = (v.toBits.take afterLast).drop first := by
  obtain ⟨hle, hlength, hbytes, hstart, hstop⟩ := cut_eq_ok_iff.mp h
  have hcount : w.length = afterLast - first := by
    rw [length, hstart, hstop]
    omega
  rw [toBits_eq, toBits_eq v, hbytes, hstart, hcount, List.take_take, Nat.min_eq_left hlength,
    List.drop_take, List.drop_drop]

/-- A cut of a cut is a cut, over the same bytes. -/
theorem cut_of_cut {v w u : BitView} {first afterLast first' afterLast' : Nat}
    (h : v.cut first afterLast = .ok w) (h' : w.cut first' afterLast' = .ok u) :
    v.cut (first + first') (first + afterLast') = .ok u := by
  obtain ⟨hle, hlength, hbytes, hstart, hstop⟩ := cut_eq_ok_iff.mp h
  obtain ⟨hle', hlength', hbytes', hstart', hstop'⟩ := cut_eq_ok_iff.mp h'
  rw [length, hstart, hstop] at hlength'
  exact cut_eq_ok_iff.mpr ⟨by omega, by omega, by rw [hbytes', hbytes], by omega, by omega⟩

/-- Cutting a view cuts its bits, and leaves the front where the view starts. -/
theorem exists_split? {v : BitView} {count : Nat} (h : count ≤ v.length) :
    ∃ front rest, v.split? count = some (front, rest) ∧
      front.toBits = v.toBits.take count ∧ rest.toBits = v.toBits.drop count ∧
      front.start = v.start ∧ rest.start = v.start + count := by
  rw [split?, dif_pos h]
  refine ⟨_, _, rfl, ?_, ?_, rfl, rfl⟩
  · rw [toBits_eq, toBits_eq, List.take_take, Nat.min_eq_left h, length, Nat.add_sub_cancel_left]
  · have hlen : v.stop - (v.start + count) = v.length - count := by
      rw [length]
      omega
    rw [toBits_eq, toBits_eq, List.drop_take, List.drop_drop, length, hlen]

/-! ### Exporting and joining -/

/-- Exporting a view packs its bits. -/
theorem toBytes_eq {v : BitView} (h : v.startsAligned = true) :
    v.toBytes = .ok (Bits.pack v.toBits) := by
  have hstart : v.start % 8 = 0 := by simpa [startsAligned] using h
  have hstop : v.stop = v.start + v.length := by
    have hle := v.start_le_stop
    rw [length]
    omega
  have hmod : v.stop % 8 = v.length % 8 := by omega
  -- the bytes exported are those of the view without the bytes before it
  have hbytes : (v.bytes.take (Bits.byteCount v.stop)).drop (v.start / 8) =
      (v.bytes.drop (v.start / 8)).take (Bits.byteCount v.length) := by
    rw [List.drop_take]
    congr 1
    unfold Bits.byteCount
    omega
  have hbits : v.toBits =
      ((v.bytes.drop (v.start / 8)).flatMap Bits.unpackByte).take v.length := by
    rw [toBits_eq]
    congr 1
    refine List.ext_getElem? fun i => ?_
    rw [List.getElem?_drop, getElem?_flatMap_unpackByte, getElem?_flatMap_unpackByte,
      List.getElem?_drop, Nat.add_mod, hstart, Nat.zero_add, Nat.mod_mod]
    congr 2
    omega
  have hlen : v.length ≤ 8 * (v.bytes.drop (v.start / 8)).length := by
    have hle := v.length_le
    rw [List.length_drop]
    omega
  rw [toBytes, if_pos h, hbits, hbytes]
  by_cases hdvd : v.length % 8 = 0
  · have haligned : v.stopsAligned = true := by simp [stopsAligned, hmod, hdvd]
    rw [if_pos haligned, Bits.pack_take_of_dvd hlen hdvd]
  · have haligned : ¬ v.stopsAligned = true := by simp [stopsAligned, hmod, hdvd]
    rw [if_neg haligned, Bits.pack_take hlen hdvd, hmod]

theorem startsAligned_of_toBytes {v : BitView} {bytes : List UInt8} (h : v.toBytes = .ok bytes) :
    v.startsAligned = true := by
  unfold toBytes at h
  split at h
  · next haligned => exact haligned
  · cases h

theorem toBits_of_isEmpty {v : BitView} (h : v.isEmpty = true) : v.toBits = [] := by
  have hzero : v.start = v.stop := by simpa [isEmpty] using h
  refine List.eq_nil_of_length_eq_zero ?_
  rw [length_toBits, length, hzero, Nat.sub_self]

theorem length_mod_of_aligned {v : BitView} (hstart : v.startsAligned = true)
    (hstop : v.stopsAligned = true) : v.length % 8 = 0 := by
  have hstart' : v.start % 8 = 0 := by simpa [startsAligned] using hstart
  have hstop' : v.stop % 8 = 0 := by simpa [stopsAligned] using hstop
  rw [length]
  omega

/-- Views that meet on a byte boundary are joined, and the result starts on one. -/
theorem exists_concat {v w : BitView} (hv : v.startsAligned = true) (hmod : v.length % 8 = 0)
    (hw : w.startsAligned = true) :
    ∃ u, v.concat w = .ok u ∧ u.toBits = v.toBits ++ w.toBits ∧ u.startsAligned = true := by
  by_cases hwempty : w.isEmpty = true
  · exact ⟨v, by rw [concat, if_pos hwempty], by rw [toBits_of_isEmpty hwempty, List.append_nil], hv⟩
  by_cases hvempty : v.isEmpty = true
  · exact ⟨w, by rw [concat, if_neg hwempty, if_pos hvempty],
      by rw [toBits_of_isEmpty hvempty, List.nil_append], hw⟩
  have hstop : v.stopsAligned = true := by
    have hstart : v.start % 8 = 0 := by simpa [startsAligned] using hv
    have hle := v.start_le_stop
    rw [length] at hmod
    simp only [stopsAligned, beq_iff_eq]
    omega
  have hpacked : (Bits.pack v.toBits ++ Bits.pack w.toBits).flatMap Bits.unpackByte =
      v.toBits ++ (Bits.pack w.toBits).flatMap Bits.unpackByte := by
    rw [List.flatMap_append, Bits.flatMap_unpackByte_pack (by simpa using hmod)]
  have hlen : v.length + w.length ≤ 8 * (Bits.pack v.toBits ++ Bits.pack w.toBits).length := by
    simp only [List.length_append, Bits.length_pack, length_toBits, Bits.byteCount]
    omega
  refine ⟨ofBytesUpTo (Bits.pack v.toBits ++ Bits.pack w.toBits) (v.length + w.length), ?_, ?_, rfl⟩
  · rw [concat, if_neg hwempty, if_neg hvempty, hv, hstop, toBytes_eq hv, toBytes_eq hw]
    rfl
  · have hunpack := Bits.unpack_pack w.toBits
    rw [Bits.unpack, length_toBits] at hunpack
    rw [toBits_eq]
    simp only [ofBytesUpTo, length, List.drop_zero, Nat.sub_zero]
    rw [← length, ← length, Nat.min_eq_left hlen, hpacked, ← length_toBits v,
      List.take_length_add_append, hunpack]

/-- Whatever views are joined, the bits stand one after the other. -/
theorem toBits_of_concat {v w u : BitView} (h : v.concat w = .ok u) :
    u.toBits = v.toBits ++ w.toBits := by
  have hjoined := h
  unfold concat at h
  split at h
  · next hempty =>
    cases h
    rw [toBits_of_isEmpty hempty, List.append_nil]
  · split at h
    · next hempty =>
      cases h
      rw [toBits_of_isEmpty hempty, List.nil_append]
    · split at h
      · next haligned =>
        obtain ⟨hstart, hstop⟩ := Bool.and_eq_true_iff.mp haligned
        obtain ⟨front, -, h⟩ := bind_eq_ok.mp h
        obtain ⟨back, hback, -⟩ := bind_eq_ok.mp h
        obtain ⟨u', hu', hbits, -⟩ := exists_concat hstart (length_mod_of_aligned hstart hstop)
          (startsAligned_of_toBytes hback)
        obtain rfl : u' = u := by simpa [hjoined] using hu'.symm
        exact hbits
      · cases h

end HalfGates.BitView
