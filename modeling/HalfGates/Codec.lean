import HalfGates.Block
import HalfGates.Gate.Record

/-!
# The exchange format

Values are exchanged as bytes: numbers of fixed width with the least significant byte first, a list
as its 64-bit length followed by its items, a choice as the 32-bit number of the alternative, and a
record as its fields one after the other. A view of bits is its 64-bit length followed by the list of
its packed bytes. A reader takes what it needs from the front and leaves the rest.

## Main definitions

- `Codec.putWord`, `Codec.putList`, `Codec.putRecord`, `Codec.putView`, `Codec.putTables`: writing
- `Reader`, `Codec.takeWord`, `Codec.takeList`, ...: reading
- `DecodeError`: why bytes are refused

## Design notes

Reading goes from left to right and reports the first problem it meets. The padding of a view's last
byte is dropped, so a value read may be written back with other bytes than it was read from.
-/

namespace HalfGates

/-- Why bytes are not a value. -/
inductive DecodeError
  /-- The bytes end before the value does. -/
  | truncated
  /-- A choice among `count` alternatives is given as `number`. -/
  | badIndex (number count : Nat)
  /-- The packed bytes of a view are not as many as its length needs. -/
  | badView (error : BitViewError)
  deriving DecidableEq

/-- The text of a refusal; early ends have none. -/
def DecodeError.message? : DecodeError → Option String
  | .truncated => none
  | .badIndex number count =>
    some s!"invalid value: integer `{number}`, expected variant index 0 <= i < {count}"
  | .badView error => some error.message

/-- Takes a value from the front of a list of bytes. -/
abbrev Reader (α : Type) : Type :=
  List UInt8 → Except DecodeError (α × List UInt8)

namespace Codec

/-- A number as `width` bytes, the least significant first, modulo `2 ^ (8 * width)`. -/
def putWord (width n : Nat) : List UInt8 :=
  (List.range width).map fun i => UInt8.ofNat (n >>> (8 * i))

/-- The number whose bytes are given, the least significant first. -/
def wordOf (bytes : List UInt8) : Nat :=
  bytes.foldr (fun byte n => byte.toNat + 256 * n) 0

/-- The first `count` bytes. -/
def takeBytes (count : Nat) : Reader (List UInt8) := fun bytes =>
  if count ≤ bytes.length then .ok (bytes.take count, bytes.drop count) else .error .truncated

/-- A number of `width` bytes. -/
def takeWord (width : Nat) : Reader Nat := fun bytes => do
  let (word, rest) ← takeBytes width bytes
  .ok (wordOf word, rest)

/-- A signed number as eight bytes of its two's complement. -/
def putInt (i : Int) : List UInt8 :=
  putWord 8 (BitVec.ofInt 64 i).toNat

/-- A signed number of eight bytes. -/
def takeInt : Reader Int := fun bytes => do
  let (word, rest) ← takeWord 8 bytes
  .ok ((BitVec.ofNat 64 word).toInt, rest)

/-- The length of a list and its items. -/
def putList {α : Type} (put : α → List UInt8) (items : List α) : List UInt8 :=
  putWord 8 items.length ++ items.flatMap put

/-- As many items as told. -/
def takeItems {α : Type} (item : Reader α) : Nat → Reader (List α)
  | 0, bytes => .ok ([], bytes)
  | count + 1, bytes => do
    let (x, rest) ← item bytes
    let (xs, rest) ← takeItems item count rest
    .ok (x :: xs, rest)

/-- A length and as many items. -/
def takeList {α : Type} (item : Reader α) : Reader (List α) := fun bytes => do
  let (count, rest) ← takeWord 8 bytes
  takeItems item count rest

/-- The number of an alternative. -/
def putIndex (index : Nat) : List UInt8 :=
  putWord 4 index

/-- One of the alternatives, by its number. -/
def takeChoice {α : Type} (alternatives : List α) : Reader α := fun bytes => do
  let (number, rest) ← takeWord 4 bytes
  match alternatives[number]? with
  | some x => .ok (x, rest)
  | none => .error (.badIndex number alternatives.length)

/-! ### Gates -/

/-- The number of a kind. -/
def putKind (k : GateKind) : List UInt8 :=
  putIndex k.index

/-- A kind by its number. -/
def takeKind : Reader GateKind :=
  takeChoice GateKind.all

/-- The number of a scope. -/
def putScope (s : Scope) : List UInt8 :=
  putIndex s.index

/-- A scope by its number. -/
def takeScope : Reader Scope :=
  takeChoice Scope.all

/-- The kind, the scope and the offsets of a record. -/
def putRecord (r : GateRecord) : List UInt8 :=
  putKind r.kind ++ putScope r.scope ++ putList putInt r.offsets

/-- A record, whose offsets need not fit its kind. -/
def takeRecord : Reader GateRecord := fun bytes => do
  let (kind, rest) ← takeKind bytes
  let (scope, rest) ← takeScope rest
  let (offsets, rest) ← takeList takeInt rest
  .ok (⟨kind, scope, offsets⟩, rest)

/-! ### Blocks, views and tables -/

/-- The sixteen bytes of a block. -/
def putBlock (x : Block) : List UInt8 :=
  x.toBytes

/-- A block of sixteen bytes. -/
def takeBlock : Reader Block := fun bytes => do
  let (word, rest) ← takeBytes 16 bytes
  .ok (Block.ofBytes word, rest)

/-- One byte. -/
def putByte (byte : UInt8) : List UInt8 :=
  [byte]

/-- The next byte. -/
def takeByte : Reader UInt8
  | [] => .error .truncated
  | byte :: rest => .ok (byte, rest)

/-- The length of a view and its bits packed from their first. -/
def putView (v : BitView) : List UInt8 :=
  putWord 8 v.length ++ putList putByte (Bits.pack v.toBits)

/-- A view whose packed bytes are just as many as its length needs. -/
def takeView : Reader BitView := fun bytes => do
  let (length, rest) ← takeWord 8 bytes
  let (packed, rest) ← takeList takeByte rest
  if packed.length = Bits.byteCount length then
    .ok (BitView.ofBits (Bits.unpack packed length), rest)
  else
    .error (.badView (.lengthMismatch (8 * Bits.byteCount length) (8 * packed.length)))

/-- The payloads of a list of tables. -/
def putTables (tables : List BitView) : List UInt8 :=
  putList putView tables

/-- A list of payloads. -/
def takeTables : Reader (List BitView) :=
  takeList takeView

/-- The value that a reader finds at the front of some bytes. -/
def decode {α : Type} (reader : Reader α) (bytes : List UInt8) : Except DecodeError α := do
  let (value, _) ← reader bytes
  .ok value

end Codec

end HalfGates
