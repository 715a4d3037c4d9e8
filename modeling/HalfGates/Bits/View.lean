import HalfGates.Bits.Packing

/-!
# Views of packed bits

A bit view is a range of the bits of a list of bytes. Cutting a view keeps the bytes and narrows
the range, so a view may start in the middle of a byte; only views that start on a byte boundary
can be exported as bytes or joined.

## Main definitions

- `BitView`: bytes and a range of their bits
- `BitView.toBits`: the bits a view shows, its meaning
- `BitView.Cursor`, `BitView.read`: handing out the bits one by one
- `BitView.slice`, `BitView.split?`, `BitView.concat`: cutting and joining
- `BitView.toBytes`: export, with zero padding
- `BitViewError`, `RangeFault`: why an operation is refused

## Design notes

Two views are equal (`==`) when they show the same bits, whatever their bytes are. A refusal of an
export or a join is a `BitViewError`, which names the range in the bytes; an index or range beyond
the view is a `RangeFault`, which names the numbers the caller gave.
-/

namespace HalfGates

/-- A view that cannot be exported or joined. -/
inductive BitViewError
  /-- The range `start..stop` does not lie on byte boundaries. -/
  | unaligned (start stop : Nat)
  /-- There are `actual` bits where `expected` were needed. -/
  | lengthMismatch (expected actual : Nat)
  deriving DecidableEq

/-- The text of a refusal. -/
def BitViewError.message : BitViewError → String
  | .unaligned start stop => s!"bit range {start}..{stop} is not byte aligned"
  | .lengthMismatch expected actual => s!"expected {expected} bits, got {actual}"

/-- A position or range beyond the bits there are. -/
inductive RangeFault
  | position (index length : Nat)
  | interval (start stop length : Nat)
  deriving DecidableEq

/-- The text of a fault. -/
def RangeFault.message : RangeFault → String
  | .position index length => s!"bit index {index} out of range for length {length}"
  | .interval start stop length => s!"range {start}..{stop} out of range for length {length}"

/-- One end of a range of positions. -/
inductive Bound
  | included (position : Nat)
  | excluded (position : Nat)
  | unbounded

/-- The bits `start..stop` of the packed bits of `bytes`. -/
structure BitView where
  /-- The backing bytes. -/
  bytes : List UInt8
  /-- The first bit shown. -/
  start : Nat
  /-- The bit after the last one shown. -/
  stop : Nat
  start_le_stop : start ≤ stop := by omega
  stop_le_bits : stop ≤ 8 * bytes.length := by omega

namespace BitView

/-- All bits of `bytes`. -/
def ofBytes (bytes : List UInt8) : BitView where
  bytes := bytes
  start := 0
  stop := 8 * bytes.length

/-- The first `count` bits of `bytes`, or all of them. -/
def ofBytesUpTo (bytes : List UInt8) (count : Nat) : BitView where
  bytes := bytes
  start := 0
  stop := min count (8 * bytes.length)

/-- The view of no bits. -/
def empty : BitView :=
  ofBytes []

/-- A list of bits, packed. -/
def ofBits (bits : List Bool) : BitView where
  bytes := Bits.pack bits
  start := 0
  stop := bits.length
  stop_le_bits := by simp only [Bits.length_pack, Bits.byteCount]; omega

/-- One bit. -/
def singleton (bit : Bool) : BitView :=
  ofBits [bit]

/-- The number of bits shown. -/
def length (v : BitView) : Nat :=
  v.stop - v.start

/-- Whether no bit is shown. -/
def isEmpty (v : BitView) : Bool :=
  v.start == v.stop

/-- The bit at position `i` of the backing bytes. -/
def rawBit (v : BitView) (i : Nat) : Bool :=
  Bits.byteBit (v.bytes.getD (i / 8) 0) (i % 8)

/-- The bit at `index`, if the view shows that many. -/
def get? (v : BitView) (index : Nat) : Option Bool :=
  if index < v.length then some (v.rawBit (v.start + index)) else none

/-- The bit at `index`, or the fault of asking beyond the view. -/
def bit (v : BitView) (index : Nat) : Except RangeFault Bool :=
  match v.get? index with
  | some b => .ok b
  | none => .error (.position index v.length)

/-- The bits shown, in order. -/
def toBits (v : BitView) : List Bool :=
  (List.range v.length).map fun i => v.rawBit (v.start + i)

/-- The text of a view: how many bits it shows, and which. -/
def debugText (v : BitView) : String :=
  "BitVector\x7bsize=" ++ toString v.length ++ ",bits=" ++
    String.ofList (v.toBits.map fun b => if b then '1' else '0') ++ "\x7d"

/-- A place in a view from which its bits are handed out one by one. -/
structure Cursor where
  view : BitView
  /-- The position of the next bit. -/
  index : Nat

namespace Cursor

/-- The next bit and the place behind it, if there is one. -/
def next? (c : Cursor) : Option (Bool × Cursor) :=
  (c.view.get? c.index).map fun bit => (bit, { c with index := c.index + 1 })

/-- The number of bits still to come. -/
def remaining (c : Cursor) : Nat :=
  c.view.length - c.index

/-- The next `count` bits, or as many as there are, and the place behind them. -/
def advance : Nat → Cursor → List Bool × Cursor
  | 0, c => ([], c)
  | count + 1, c =>
    match c.next? with
    | none => ([], c)
    | some (bit, c) =>
      let (bits, c) := advance count c
      (bit :: bits, c)

end Cursor

/-- The first `count` bits, or all of them, and how many remain. -/
def read (v : BitView) (count : Nat) : List Bool × Nat :=
  let (bits, c) := Cursor.advance count ⟨v, 0⟩
  (bits, c.remaining)

instance : BEq BitView where
  beq v w := v.toBits == w.toBits

/-- The first position of a range that begins at `bound`. -/
def firstOf : Bound → Nat
  | .included i => i
  | .excluded i => i + 1
  | .unbounded => 0

/-- The position after the last of a range that ends at `bound` in `length` bits. -/
def afterLastOf (length : Nat) : Bound → Nat
  | .included i => i + 1
  | .excluded i => i
  | .unbounded => length

/-- The bits `first..afterLast` of the view, over the same bytes. -/
def cut (v : BitView) (first afterLast : Nat) : Except RangeFault BitView :=
  if h : first ≤ afterLast ∧ afterLast ≤ v.length then
    .ok {
      bytes := v.bytes
      start := v.start + first
      stop := v.start + afterLast
      stop_le_bits := by
        have hle := v.start_le_stop
        have hbits := v.stop_le_bits
        simp only [length] at h
        omega }
  else
    .error (.interval first afterLast v.length)

/-- The bits between two bounds. -/
def slice (v : BitView) (lower upper : Bound) : Except RangeFault BitView :=
  v.cut (firstOf lower) (afterLastOf v.length upper)

/-- The first `count` bits and the rest, over the same bytes, if there are as many. -/
def split? (v : BitView) (count : Nat) : Option (BitView × BitView) :=
  if h : count ≤ v.length then
    some (
      { bytes := v.bytes
        start := v.start
        stop := v.start + count
        stop_le_bits := by
          have hle := v.start_le_stop
          have hbits := v.stop_le_bits
          simp only [length] at h
          omega },
      { bytes := v.bytes
        start := v.start + count
        stop := v.stop
        start_le_stop := by
          have hle := v.start_le_stop
          simp only [length] at h
          omega
        stop_le_bits := v.stop_le_bits })
  else
    none

/-- Whether the view starts on a byte boundary. -/
def startsAligned (v : BitView) : Bool :=
  v.start % 8 == 0

/-- Whether the view ends on a byte boundary. -/
def stopsAligned (v : BitView) : Bool :=
  v.stop % 8 == 0

/-- The byte `byte` with all but the first `kept` bits cleared. -/
def keepHigh (kept : Nat) (byte : UInt8) : UInt8 :=
  Bits.packByte ((Bits.unpackByte byte).take kept)

/-- The bits as bytes, the rest of a partial last byte cleared. -/
def toBytes (v : BitView) : Except BitViewError (List UInt8) :=
  if v.startsAligned then
    let bytes := (v.bytes.take (Bits.byteCount v.stop)).drop (v.start / 8)
    if v.stopsAligned then
      .ok bytes
    else
      .ok (bytes.dropLast ++ (bytes.getLast?.map (keepHigh (v.stop % 8))).toList)
  else
    .error (.unaligned v.start v.stop)

/-- Two views one after the other. An empty view joins with anything; otherwise the left one has to
lie on byte boundaries at both ends and the right one at its start. -/
def concat (v w : BitView) : Except BitViewError BitView :=
  if w.isEmpty then
    .ok v
  else if v.isEmpty then
    .ok w
  else if v.startsAligned && v.stopsAligned then do
    let front ← v.toBytes
    let back ← w.toBytes
    .ok (ofBytesUpTo (front ++ back) (v.length + w.length))
  else
    .error (.unaligned v.start v.stop)

end BitView

end HalfGates
