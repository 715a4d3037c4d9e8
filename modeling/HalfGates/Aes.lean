import HalfGates.Block

/-!
# The block cipher AES-128

The state of the cipher is sixteen bytes, column by column. Bytes are elements of the field of 256
elements, whose multiplication gives both the substitution of bytes and the mixing of columns.

## Main definitions

- `Aes.mul`, `Aes.inverse`, `Aes.substitute`: the field and the substitution
- `Aes.schedule`: the eleven round keys of a key
- `Aes.encrypt`: encryption of a block under a schedule
-/

namespace HalfGates.Aes

/-- The product of two field elements, by doubling and adding along the bits of the second. -/
def mul (a b : UInt8) : UInt8 :=
  (Bits.unpackByte b).foldl
    (fun acc bit => Block.doubleByte acc ^^^ (if bit then a else 0)) 0

/-- The multiplicative inverse, and zero for zero: the power `a ^ 254`. -/
def inverse (a : UInt8) : UInt8 :=
  ((List.range 7).foldl
    (fun (square, product) _ => (mul square square, mul product (mul square square)))
    (a, (1 : UInt8))).2

/-- A byte with its bits moved up by `n` places, those that fall out coming in below. -/
def rotate (byte : UInt8) (n : UInt8) : UInt8 :=
  (byte <<< n) ||| (byte >>> (8 - n))

/-- The substitution of a byte: its inverse under an affine map of the bits. -/
def substitute (byte : UInt8) : UInt8 :=
  let b := inverse byte
  b ^^^ rotate b 1 ^^^ rotate b 2 ^^^ rotate b 3 ^^^ rotate b 4 ^^^ 0x63

/-- All substitutions, by byte. -/
def substitutions : Vector UInt8 256 :=
  Vector.ofFn fun i => substitute (UInt8.ofNat i.val)

/-- The substitution of a byte, looked up. -/
def substituted (byte : UInt8) : UInt8 :=
  substitutions.get ⟨byte.toNat, byte.toNat_lt⟩

/-- Sixteen bytes, column by column. -/
abbrev State : Type := Vector UInt8 16

/-- The byte at position `i`, modulo sixteen. -/
def State.at (s : State) (i : Nat) : UInt8 :=
  s.get ⟨i % 16, Nat.mod_lt i (by decide)⟩

/-- The bytes of a block. -/
def State.ofBlock (x : Block) : State :=
  Vector.ofFn fun i => x.byte i.val

/-- The block of the bytes. -/
def State.toBlock (s : State) : Block :=
  Block.ofBytes s.toList

/-- Two states xored. -/
def State.add (s t : State) : State :=
  Vector.ofFn fun i => s.get i ^^^ t.get i

/-- Every byte substituted, and row `r` moved `r` columns to the left. -/
def State.substituteAndShift (s : State) : State :=
  Vector.ofFn fun i => substituted (s.at (5 * i.val))

/-- Every column multiplied by the polynomial `3 x^3 + x^2 + x + 2`. -/
def State.mixColumns (s : State) : State :=
  Vector.ofFn fun i =>
    let column := i.val / 4 * 4
    let entry (k : Nat) : UInt8 := s.at (column + (i.val + k) % 4)
    Block.doubleByte (entry 0 ^^^ entry 1) ^^^ entry 1 ^^^ entry 2 ^^^ entry 3

/-- The round key after `key`: its last column is rotated, substituted and given the round's
constant, and then added to each column together with the columns before it. -/
def nextKey (constant : UInt8) (key : State) : State :=
  Vector.ofFn fun i =>
    let row := i.val % 4
    let seed := substituted (key.at (12 + (row + 1) % 4)) ^^^ (if row = 0 then constant else 0)
    (List.range (i.val / 4 + 1)).foldl (fun acc column => acc ^^^ key.at (4 * column + row)) seed

/-- The round keys of the rounds with the given constants, after `key`. -/
def keysAfter (key : State) : List UInt8 → List State
  | [] => []
  | constant :: rest => nextKey constant key :: keysAfter (nextKey constant key) rest

/-- The constants of the ten rounds: powers of two in the field. -/
def roundConstants : List UInt8 :=
  [0x01, 0x02, 0x04, 0x08, 0x10, 0x20, 0x40, 0x80, 0x1b, 0x36]

/-- A key and the round keys made from it. -/
structure Schedule where
  /-- The key itself, added before the first round. -/
  key : State
  /-- The keys of the ten rounds. -/
  rounds : List State

/-- The round keys of a key. -/
def schedule (key : Block) : Schedule :=
  ⟨.ofBlock key, keysAfter (.ofBlock key) roundConstants⟩

/-- The rounds with the given keys; the last one does not mix columns. -/
def runRounds (s : State) : List State → State
  | [] => s
  | [last] => s.substituteAndShift.add last
  | key :: rest => runRounds (s.substituteAndShift.mixColumns.add key) rest

/-- The encryption of a block. -/
def encrypt (keys : Schedule) (x : Block) : Block :=
  (runRounds ((State.ofBlock x).add keys.key) keys.rounds).toBlock

end HalfGates.Aes
