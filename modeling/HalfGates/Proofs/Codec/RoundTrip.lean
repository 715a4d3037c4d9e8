import HalfGates.Proofs.Bits.Addressing
import HalfGates.Proofs.Codec
import Mathlib.Algebra.Group.Int.Defs
import Mathlib.Data.List.Forall2
import Mathlib.Data.List.Nodup

/-!
# Reading and writing are inverse

Every value that fits the widths of the format is read back, and nothing less than all of its bytes is
enough. Bytes that are read are the bytes that the value is written as, but for the padding of views.

## Main definitions

- `Codec.Truncates`: a reader finds every proper beginning of some bytes too short
- `Codec.ViewClears`, `Codec.ListClears`: bytes that differ in the padding of views
- `Codec.Faithful`: how a writer and a reader belong together
- `Codec.format_faithful`: gate records, views and tables
-/

namespace HalfGates

theorem GateKind.mem_all (k : GateKind) : k ∈ all := by
  match k with
  | .input | .random => decide
  | .constant v | .unary v | .linear v => cases v <;> decide
  | .conjunction p q n => cases p <;> cases q <;> cases n <;> decide

theorem GateKind.getElem?_all_iff {k : GateKind} {i : Nat} : all[i]? = some k ↔ k.index = i := by
  constructor
  · intro h
    obtain ⟨hi, rfl⟩ := List.getElem?_eq_some_iff.mp h
    exact List.Nodup.idxOf_getElem (by decide) i hi
  · rintro rfl
    exact List.getElem?_idxOf k.mem_all

theorem Scope.getElem?_all_iff {s : Scope} {i : Nat} : all[i]? = some s ↔ s.index = i := by
  constructor
  · intro h
    match i with
    | 0 | 1 | 2 | 3 =>
      obtain rfl := Option.some.inj h
      rfl
    | i + 4 => cases h
  · rintro rfl
    obtain ⟨generator, evaluator⟩ := s
    cases generator <;> cases evaluator <;> rfl

theorem BitView.beq_iff {v w : BitView} : (v == w) = true ↔ v.toBits = w.toBits := by
  show (v.toBits == w.toBits) = true ↔ _
  exact beq_iff_eq

namespace Codec

variable {α β : Type}

/-! ### Bytes that end early -/

/-- The reader finds every proper beginning of the bytes too short. -/
def Truncates (reader : Reader α) (bytes : List UInt8) : Prop :=
  ∀ front, front <+: bytes → front ≠ bytes → reader front = .error .truncated

theorem truncates_nil (reader : Reader α) : Truncates reader [] := by
  intro front hfront hne
  exact absurd (List.prefix_nil.mp hfront) hne

/-- What is made of a value does not matter if the value is not found. -/
theorem Truncates.map {reader : Reader α} {bytes : List UInt8} (h : Truncates reader bytes)
    (next : α × List UInt8 → Except DecodeError (β × List UInt8)) :
    Truncates (fun bytes => reader bytes >>= next) bytes := by
  intro front hfront hne
  show reader front >>= next = _
  rw [h front hfront hne]
  rfl

/-- Bytes of two readers end early in the first part, or behind it. -/
theorem Truncates.bind {reader : Reader α}
    {next : α × List UInt8 → Except DecodeError (β × List UInt8)} {bytes bytes' : List UInt8} {x : α}
    (hreads : Reads reader bytes x) (h : Truncates reader bytes)
    (h' : Truncates (fun rest => next (x, rest)) bytes') :
    Truncates (fun bytes => reader bytes >>= next) (bytes ++ bytes') := by
  intro front hfront hne
  show reader front >>= next = _
  by_cases hlong : bytes.length ≤ front.length
  · obtain ⟨rest, rfl⟩ := List.prefix_of_prefix_length_le (List.prefix_append _ _) hfront hlong
    rw [hreads rest, ok_bind]
    refine h' rest ((List.prefix_append_right_inj bytes).mp hfront) ?_
    rintro rfl
    exact hne rfl
  · have hwithin := List.prefix_of_prefix_length_le hfront (List.prefix_append _ _) (by omega)
    have hshort : front ≠ bytes := by
      rintro rfl
      exact hlong (Nat.le_refl _)
    rw [h front hwithin hshort]
    rfl

theorem truncates_bytes {count : Nat} {bytes : List UInt8} (h : bytes.length = count) :
    Truncates (takeBytes count) bytes := by
  intro front hfront hne
  have hle := hfront.length_le
  have hlt : ¬ count ≤ front.length := by
    intro hcount
    exact hne (hfront.eq_of_length (by omega))
  rw [takeBytes, if_neg hlt]

theorem truncates_word (width n : Nat) : Truncates (takeWord width) (putWord width n) :=
  (truncates_bytes (length_putWord width n)).map _

theorem truncates_byte (byte : UInt8) : Truncates takeByte (putByte byte) := by
  intro front hfront hne
  cases front with
  | nil => rfl
  | cons first front =>
    have hle := hfront.length_le
    exact absurd (hfront.eq_of_length (Nat.le_antisymm hle (by simp [putByte]))) hne

theorem truncates_items {put : α → List UInt8} {item : Reader α} {items : List α}
    (hreads : ∀ x ∈ items, ∃ y, Reads item (put x) y) (h : ∀ x ∈ items, Truncates item (put x)) :
    Truncates (takeItems item items.length) (items.flatMap put) := by
  induction items with
  | nil => exact truncates_nil _
  | cons x items ih =>
    obtain ⟨y, hy⟩ := hreads x List.mem_cons_self
    have hrest := ih (fun z hz => hreads z (List.mem_cons_of_mem x hz))
      fun z hz => h z (List.mem_cons_of_mem x hz)
    exact (h x List.mem_cons_self).bind hy (hrest.map _)

theorem truncates_choice (alternatives : List α) (number : Nat) :
    Truncates (takeChoice alternatives) (putIndex number) :=
  (truncates_word 4 number).map _

/-! ### Bytes that were read -/

theorem takeBytes_eq_ok {count : Nat} {bytes found rest : List UInt8}
    (h : takeBytes count bytes = .ok (found, rest)) : bytes = found ++ rest ∧ found.length = count := by
  unfold takeBytes at h
  split at h
  · next hle =>
    cases h
    exact ⟨(List.take_append_drop count bytes).symm, List.length_take_of_le hle⟩
  · cases h

theorem takeWord_eq_ok {width n : Nat} {bytes rest : List UInt8}
    (h : takeWord width bytes = .ok (n, rest)) : bytes = putWord width n ++ rest ∧ n < 256 ^ width := by
  obtain ⟨⟨word, rest'⟩, hbytes, h⟩ := bind_eq_ok.mp h
  cases h
  obtain ⟨rfl, rfl⟩ := takeBytes_eq_ok hbytes
  have hput := putWord_wordOf word
  refine ⟨by rw [hput], ?_⟩
  have hword := wordOf_putWord word.length (wordOf word)
  rw [hput] at hword
  rw [hword]
  exact Nat.mod_lt _ (Nat.pow_pos (by decide))

theorem takeChoice_eq_ok {alternatives : List α} {x : α} {bytes rest : List UInt8}
    (h : takeChoice alternatives bytes = .ok (x, rest)) :
    ∃ number, alternatives[number]? = some x ∧ bytes = putIndex number ++ rest := by
  obtain ⟨⟨number, rest'⟩, hword, h⟩ := bind_eq_ok.mp h
  dsimp only at h
  split at h
  · next y hy =>
    cases h
    exact ⟨number, hy, (takeWord_eq_ok hword).1⟩
  · cases h

theorem takeInt_eq_ok {i : Int} {bytes rest : List UInt8} (h : takeInt bytes = .ok (i, rest)) :
    bytes = putInt i ++ rest := by
  obtain ⟨⟨word, rest'⟩, hword, h⟩ := bind_eq_ok.mp h
  cases h
  obtain ⟨rfl, hlt⟩ := takeWord_eq_ok hword
  have hnat : (BitVec.ofInt 64 (BitVec.ofNat 64 word).toInt).toNat = word := by
    rw [BitVec.ofInt_toInt, BitVec.toNat_ofNat]
    exact Nat.mod_eq_of_lt hlt
  rw [putInt, hnat]

/-! ### Writers and readers -/

/-- How a writer and a reader of values belong together. A value that fits is read back, with anything behind
its bytes, and not without all of them. Equal values are written alike. A value that was read is written as
the bytes that it was read from, but for what writing clears. -/
structure Faithful [BEq α] (put : α → List UInt8) (take : Reader α) (Fits : α → Prop)
    (Clears : List UInt8 → List UInt8 → Prop) : Prop where
  reads : ∀ v, Fits v → ∃ w, (w == v) = true ∧ ∀ rest, take (put v ++ rest) = .ok (w, rest)
  truncates : ∀ v, Fits v → ∀ front, front <+: put v → front ≠ put v → take front = .error .truncated
  respects : ∀ v w, (v == w) = true → put v = put w
  clears : ∀ bytes v rest, take bytes = .ok (v, rest) →
    ∃ read, bytes = read ++ rest ∧ (put v).length = read.length ∧ Clears read (put v)

/-- The bytes of a list, and the bytes of its items after something in them was cleared. -/
def ListClears (Clears : List UInt8 → List UInt8 → Prop) (read written : List UInt8) : Prop :=
  ∃ before after, List.Forall₂ Clears before after ∧
    read = putWord 8 before.length ++ before.flatten ∧
    written = putWord 8 after.length ++ after.flatten

/-- The bytes of a view, and the same bytes without the bits behind those of the view. -/
def ViewClears (read written : List UInt8) : Prop :=
  ∃ (length : Nat) (packed cleared : List UInt8), packed.length = Bits.byteCount length ∧
    cleared.length = packed.length ∧
    cleared.flatMap Bits.unpackByte = (packed.flatMap Bits.unpackByte).take length ++
      List.replicate (8 * packed.length - length) false ∧
    read = putWord 8 length ++ putList putByte packed ∧
    written = putWord 8 length ++ putList putByte cleared

theorem ListClears.eq {read written : List UInt8} (h : ListClears Eq read written) : read = written := by
  obtain ⟨before, after, hitems, rfl, rfl⟩ := h
  rw [List.forall₂_eq_eq_eq] at hitems
  rw [hitems]

section items

variable [BEq α] {put : α → List UInt8} {take : Reader α} {Fits : α → Prop}
  {Clears : List UInt8 → List UInt8 → Prop}

theorem Faithful.exists_reads_items (h : Faithful put take Fits Clears) {xs : List α}
    (hxs : ∀ x ∈ xs, Fits x) :
    ∃ ys, (ys == xs) = true ∧ Reads (takeItems take xs.length) (xs.flatMap put) ys := by
  induction xs with
  | nil => exact ⟨[], rfl, fun _ => rfl⟩
  | cons x xs ih =>
    obtain ⟨y, hsame, hfirst⟩ := h.reads x (hxs x List.mem_cons_self)
    obtain ⟨ys, hsames, hrest⟩ := ih fun z hz => hxs z (List.mem_cons_of_mem x hz)
    refine ⟨y :: ys, ?_, fun rest => ?_⟩
    · rw [List.cons_beq_cons, hsame, hsames]
      rfl
    · rw [List.flatMap_cons, List.append_assoc, List.length_cons, takeItems, hfirst, ok_bind]
      dsimp only
      rw [hrest, ok_bind]

theorem Faithful.respects_items (h : Faithful put take Fits Clears) {xs ys : List α}
    (hsame : (xs == ys) = true) : xs.length = ys.length ∧ xs.flatMap put = ys.flatMap put := by
  induction xs generalizing ys with
  | nil =>
    cases ys with
    | nil => exact ⟨rfl, rfl⟩
    | cons y ys => cases hsame
  | cons x xs ih =>
    cases ys with
    | nil => cases hsame
    | cons y ys =>
      rw [List.cons_beq_cons] at hsame
      obtain ⟨hfirst, hrest⟩ := Bool.and_eq_true_iff.mp hsame
      obtain ⟨hlength, hbytes⟩ := ih hrest
      refine ⟨by rw [List.length_cons, List.length_cons, hlength], ?_⟩
      rw [List.flatMap_cons, List.flatMap_cons, h.respects x y hfirst, hbytes]

theorem Faithful.clears_items (h : Faithful put take Fits Clears) {count : Nat}
    {bytes rest : List UInt8} {xs : List α} (hread : takeItems take count bytes = .ok (xs, rest)) :
    ∃ before, bytes = before.flatten ++ rest ∧ before.length = count ∧
      (xs.map put).flatten.length = before.flatten.length ∧ List.Forall₂ Clears before (xs.map put) := by
  induction count generalizing bytes xs with
  | zero =>
    cases hread
    exact ⟨[], rfl, rfl, rfl, .nil⟩
  | succ count ih =>
    obtain ⟨⟨x, rest₁⟩, hitem, hread⟩ := bind_eq_ok.mp hread
    obtain ⟨⟨xs₁, rest₂⟩, hitems, hread⟩ := bind_eq_ok.mp hread
    cases hread
    obtain ⟨first, rfl, hlength, hfirst⟩ := h.clears _ _ _ hitem
    obtain ⟨before, rfl, hcount, hlengths, hall⟩ := ih hitems
    refine ⟨first :: before, ?_, by rw [List.length_cons, hcount], ?_, .cons hfirst hall⟩
    · rw [List.flatten_cons, List.append_assoc]
    · rw [List.map_cons, List.flatten_cons, List.flatten_cons, List.length_append, List.length_append,
        hlength, hlengths]

/-- A list of values is read and written as its items are. -/
theorem Faithful.list (h : Faithful put take Fits Clears) :
    Faithful (putList put) (takeList take) (fun xs => xs.length < 2 ^ 64 ∧ ∀ x ∈ xs, Fits x)
      (ListClears Clears) where
  reads := by
    intro xs hxs
    obtain ⟨ys, hsame, hitems⟩ := h.exists_reads_items hxs.2
    refine ⟨ys, hsame, fun rest => ?_⟩
    rw [putList, List.append_assoc, takeList, reads_word hxs.1]
    exact hitems rest
  truncates := by
    intro xs hxs
    have hreads : ∀ x ∈ xs, ∃ y, Reads take (put x) y := fun x hx =>
      (h.reads x (hxs.2 x hx)).imp fun _ hy => hy.2
    exact (truncates_word 8 xs.length).bind (reads_word hxs.1)
      (truncates_items hreads fun x hx => h.truncates x (hxs.2 x hx))
  respects := by
    intro xs ys hsame
    obtain ⟨hlength, hbytes⟩ := h.respects_items hsame
    rw [putList, putList, hlength, hbytes]
  clears := by
    intro bytes xs rest hread
    obtain ⟨⟨count, rest'⟩, hcount, hitems⟩ := bind_eq_ok.mp hread
    obtain ⟨rfl, -⟩ := takeWord_eq_ok hcount
    obtain ⟨before, rfl, rfl, hlengths, hall⟩ := h.clears_items hitems
    have hput : putList put xs = putWord 8 (xs.map put).length ++ (xs.map put).flatten := by
      rw [putList, List.length_map, List.flatMap_def]
    refine ⟨putWord 8 before.length ++ before.flatten, by rw [List.append_assoc], ?_,
      before, _, hall, rfl, hput⟩
    rw [hput, List.length_append, List.length_append, length_putWord, length_putWord, hlengths]

end items

/-! ### Gates -/

theorem faithful_int :
    Faithful putInt takeInt (fun i => -2 ^ 63 ≤ i ∧ i < 2 ^ 63) Eq where
  reads := by
    intro i hi
    refine ⟨i, beq_self_eq_true i, fun rest => ?_⟩
    have hword : (BitVec.ofInt 64 i).toNat < 256 ^ 8 := (BitVec.ofInt 64 i).isLt
    have hint : (BitVec.ofNat 64 (BitVec.ofInt 64 i).toNat).toInt = i := by
      rw [BitVec.ofNat_toNat, BitVec.setWidth_eq, BitVec.toInt_ofInt]
      exact Int.bmod_eq_of_le (by omega) (by omega)
    rw [putInt, takeInt, reads_word hword, ok_bind]
    dsimp only
    rw [hint]
  truncates := fun i _ => (truncates_word 8 _).map _
  respects := fun i j hsame => congrArg putInt (eq_of_beq hsame)
  clears := by
    intro bytes i rest hread
    exact ⟨putInt i, takeInt_eq_ok hread, rfl, rfl⟩

theorem reads_choice {alternatives : List α} {x : α} {number : Nat} (h : alternatives[number]? = some x)
    (hlt : number < 256 ^ 4) : Reads (takeChoice alternatives) (putIndex number) x := by
  intro rest
  rw [putIndex, takeChoice, reads_word hlt, ok_bind]
  dsimp only
  rw [h]

theorem reads_kind (k : GateKind) : Reads takeKind (putKind k) k := by
  have hat : GateKind.all[k.index]? = some k := GateKind.getElem?_all_iff.mpr rfl
  have hlt : k.index < GateKind.all.length := (List.getElem?_eq_some_iff.mp hat).1
  exact reads_choice hat (Nat.lt_trans hlt (by decide))

theorem reads_scope (s : Scope) : Reads takeScope (putScope s) s := by
  have hat : Scope.all[s.index]? = some s := Scope.getElem?_all_iff.mpr rfl
  have hlt : s.index < Scope.all.length := (List.getElem?_eq_some_iff.mp hat).1
  exact reads_choice hat (Nat.lt_trans hlt (by decide))

/-- Records are read and written without loss. -/
theorem faithful_record :
    Faithful putRecord takeRecord
      (fun r => r.offsets.length < 2 ^ 64 ∧ ∀ i ∈ r.offsets, -2 ^ 63 ≤ i ∧ i < 2 ^ 63) Eq where
  reads := by
    intro r hr
    obtain ⟨offsets, hsame, hoffsets⟩ := faithful_int.list.reads r.offsets hr
    obtain rfl : offsets = r.offsets := eq_of_beq hsame
    refine ⟨r, beq_self_eq_true r, fun rest => ?_⟩
    rw [putRecord, takeRecord, List.append_assoc, List.append_assoc, reads_kind, ok_bind]
    dsimp only
    rw [reads_scope, ok_bind]
    dsimp only
    rw [hoffsets, ok_bind]
  truncates := by
    intro r hr
    rw [putRecord, List.append_assoc]
    have hoffsets := faithful_int.list.truncates r.offsets hr
    exact (truncates_choice _ _).bind (reads_kind r.kind)
      ((truncates_choice _ _).bind (reads_scope r.scope) (Truncates.map hoffsets _))
  respects := fun r r' hsame => congrArg putRecord (eq_of_beq hsame)
  clears := by
    intro bytes r rest hread
    obtain ⟨⟨kind, rest₁⟩, hkind, hread⟩ := bind_eq_ok.mp hread
    obtain ⟨⟨scope, rest₂⟩, hscope, hread⟩ := bind_eq_ok.mp hread
    obtain ⟨⟨offsets, rest₃⟩, hoffsets, hread⟩ := bind_eq_ok.mp hread
    cases hread
    obtain ⟨number, hnumber, rfl⟩ := takeChoice_eq_ok hkind
    obtain ⟨number', hnumber', rfl⟩ := takeChoice_eq_ok hscope
    obtain ⟨read, rfl, -, hclears⟩ := faithful_int.list.clears _ _ _ hoffsets
    obtain rfl := hclears.eq
    obtain rfl := GateKind.getElem?_all_iff.mp hnumber
    obtain rfl := Scope.getElem?_all_iff.mp hnumber'
    refine ⟨_, ?_, rfl, rfl⟩
    rw [putRecord, List.append_assoc, List.append_assoc]
    rfl

/-! ### Views and tables -/

theorem faithful_byte : Faithful putByte takeByte (fun _ => True) Eq where
  reads := fun byte _ => ⟨byte, beq_self_eq_true byte, reads_byte byte⟩
  truncates := fun byte _ => truncates_byte byte
  respects := fun byte byte' hsame => congrArg putByte (eq_of_beq hsame)
  clears := by
    intro bytes byte rest hread
    cases bytes with
    | nil => cases hread
    | cons first bytes =>
      cases hread
      exact ⟨[byte], rfl, rfl, rfl⟩

theorem putBytes_eq (bytes : List UInt8) : putList putByte bytes = putWord 8 bytes.length ++ bytes := by
  have hbytes : bytes.flatMap putByte = bytes := List.flatMap_singleton' bytes
  rw [putList, hbytes]

theorem length_putBytes (bytes : List UInt8) : (putList putByte bytes).length = 8 + bytes.length := by
  rw [putBytes_eq, List.length_append, length_putWord]

theorem takeView_eq_ok {bytes rest : List UInt8} {v : BitView} (h : takeView bytes = .ok (v, rest)) :
    ∃ length packed, length < 256 ^ 8 ∧ bytes = putWord 8 length ++ putList putByte packed ++ rest ∧
      packed.length = Bits.byteCount length ∧ v = .ofBits (Bits.unpack packed length) := by
  obtain ⟨⟨length, rest₁⟩, hlength, h⟩ := bind_eq_ok.mp h
  obtain ⟨⟨packed, rest₂⟩, hpacked, h⟩ := bind_eq_ok.mp h
  dsimp only at h
  split at h
  · next hcount =>
    cases h
    obtain ⟨read, hread, -, hclears⟩ := faithful_byte.list.clears _ _ _ hpacked
    obtain rfl := hclears.eq
    obtain ⟨hbytes, hlt⟩ := takeWord_eq_ok hlength
    exact ⟨length, packed, hlt, by rw [hbytes, hread, List.append_assoc], hcount, rfl⟩
  · cases h

/-- A view is read and written but for its padding. -/
theorem faithful_view : Faithful putView takeView (fun v => v.length < 2 ^ 64) ViewClears where
  reads := by
    intro v hv
    exact ⟨.ofBits v.toBits, BitView.beq_iff.mpr (BitView.toBits_ofBits v.toBits), reads_view hv⟩
  truncates := by
    intro v hv
    have hcount : (Bits.pack v.toBits).length < 2 ^ 64 := by
      rw [Bits.length_pack, BitView.length_toBits, Bits.byteCount]
      omega
    have hpacked := faithful_byte.list.truncates (Bits.pack v.toBits) ⟨hcount, fun _ _ => trivial⟩
    exact (truncates_word 8 v.length).bind (reads_word hv) (Truncates.map hpacked _)
  respects := by
    intro v w hsame
    have hbits := BitView.beq_iff.mp hsame
    rw [putView, putView, ← BitView.length_toBits, ← BitView.length_toBits w, hbits]
  clears := by
    intro bytes v rest hread
    obtain ⟨length, packed, -, rfl, hcount, rfl⟩ := takeView_eq_ok hread
    have hall : (Bits.unpack packed length).length = length := by
      rw [Bits.unpack, List.length_take, Bits.length_flatMap_unpackByte, hcount, Bits.byteCount]
      omega
    have hput : putView (.ofBits (Bits.unpack packed length)) =
        putWord 8 length ++ putList putByte (Bits.pack (Bits.unpack packed length)) := by
      rw [putView, BitView.toBits_ofBits, ← BitView.length_toBits, BitView.toBits_ofBits, hall]
    have hcleared := Bits.flatMap_unpackByte_pack_append (Bits.unpack packed length)
    rw [hall, ← hcount] at hcleared
    have hsize : (Bits.pack (Bits.unpack packed length)).length = packed.length := by
      rw [Bits.length_pack, hall, hcount]
    refine ⟨putWord 8 length ++ putList putByte packed, rfl, ?_,
      length, packed, _, hcount, hsize, hcleared, rfl, hput⟩
    rw [hput, List.length_append, List.length_append, length_putBytes, length_putBytes, hsize]

/-- Gate records, views of bits and tables of views are read back as what was written, whatever stands behind
them, and a proper beginning of what was written is refused as too short. What is written depends on the bits
of a view alone, wherever they lie in the bytes behind it. What was read is written as the same bytes, but for
the bits behind those of each view, which are cleared. -/
theorem format_faithful :
    Faithful putRecord takeRecord
      (fun r => r.offsets.length < 2 ^ 64 ∧ ∀ i ∈ r.offsets, -2 ^ 63 ≤ i ∧ i < 2 ^ 63) Eq ∧
    Faithful putView takeView (fun v => v.length < 2 ^ 64) ViewClears ∧
    Faithful putTables takeTables (fun ts => ts.length < 2 ^ 64 ∧ ∀ v ∈ ts, v.length < 2 ^ 64)
      (ListClears ViewClears) :=
  ⟨faithful_record, faithful_view, faithful_view.list⟩

/-- Three bits in the middle of a byte, and three bits with padding behind them, are written alike. -/
example : putView ⟨[0x5c], 3, 6, by decide, by decide⟩ = [3, 0, 0, 0, 0, 0, 0, 0, 1, 0, 0, 0, 0, 0, 0, 0, 0xe0] ∧
    ((decode takeView [3, 0, 0, 0, 0, 0, 0, 0, 1, 0, 0, 0, 0, 0, 0, 0, 0xff]).map putView).toOption =
      some [3, 0, 0, 0, 0, 0, 0, 0, 1, 0, 0, 0, 0, 0, 0, 0, 0xe0] := by
  decide

end Codec

end HalfGates
