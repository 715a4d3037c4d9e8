import HalfGates.Random.Words

/-!
# A buffered random generator

The generator encrypts four counters at a time and hands the sixteen words out one by one. Every draw
takes whole words: a bit or a word takes one, a double word two with the low one first, and bytes take
as many words as hold them, the rest of the last word being lost.

## Main definitions

- `RandomGenerator`: a cipher, the next counter and the words not yet handed out
- `RandomGenerator.nextWord`, `RandomGenerator.nextDouble`, `RandomGenerator.fill`,
  `RandomGenerator.nextBlock`, `RandomGenerator.nextBit`: the draws
- `RandomGenerator.refill`: the sixteen words from a counter on
-/

namespace HalfGates

/-- A generator of random words. -/
structure RandomGenerator where
  /-- The cipher that the seed chooses. -/
  encrypt : Block → Block
  /-- The first counter that is not yet encrypted. -/
  counter : Nat
  /-- The words made and not yet handed out. -/
  unread : List UInt32

namespace RandomGenerator

/-- A generator that encrypts with the given cipher, from counter zero. -/
def ofCipher (encrypt : Block → Block) : RandomGenerator :=
  ⟨encrypt, 0, []⟩

/-- The generator with the given seed as the key. -/
def ofSeed (seed : Block) : RandomGenerator :=
  let keys := Aes.schedule seed
  ofCipher (Aes.encrypt keys)

/-- The sixteen words of four counters. -/
def refill (encrypt : Block → Block) (counter : Nat) : List UInt32 :=
  (List.range 4).flatMap fun i => Random.blockWords (Random.blockAt encrypt (counter + i))

/-- The next word, from a fresh buffer if all are handed out. -/
def nextWord (g : RandomGenerator) : UInt32 × RandomGenerator :=
  match g.unread with
  | word :: rest => (word, { g with unread := rest })
  | [] =>
    let words := refill g.encrypt g.counter
    (words.headD 0, { g with counter := g.counter + 4, unread := words.tail })

/-- The next `count` words. -/
def nextWords : Nat → RandomGenerator → List UInt32 × RandomGenerator
  | 0, g => ([], g)
  | count + 1, g =>
    let (word, g) := g.nextWord
    let (words, g) := nextWords count g
    (word :: words, g)

/-- The next 64-bit number: two words, the low one first. -/
def nextDouble (g : RandomGenerator) : UInt64 × RandomGenerator :=
  let (low, g) := g.nextWord
  let (high, g) := g.nextWord
  (high.toUInt64 <<< 32 ||| low.toUInt64, g)

/-- The next `count` bytes, from as many words as hold them. -/
def fill (g : RandomGenerator) (count : Nat) : List UInt8 × RandomGenerator :=
  let (words, g) := nextWords ((count + 3) / 4) g
  ((words.flatMap Random.wordBytes).take count, g)

/-- The next block. -/
def nextBlock (g : RandomGenerator) : Block × RandomGenerator :=
  let (bytes, g) := g.fill 16
  (Block.ofBytes bytes, g)

/-- The next `count` blocks. -/
def nextBlocks : Nat → RandomGenerator → List Block × RandomGenerator
  | 0, g => ([], g)
  | count + 1, g =>
    let (block, g) := g.nextBlock
    let (blocks, g) := nextBlocks count g
    (block :: blocks, g)

/-- The next bit. -/
def nextBit (g : RandomGenerator) : Bool × RandomGenerator :=
  let (word, g) := g.nextWord
  (Random.wordBit word, g)

/-- A new generator seeded by the next block. -/
def reseed (g : RandomGenerator) : RandomGenerator :=
  ofSeed g.nextBlock.1

/-- The text of a generator, which shows nothing of its state. -/
def debugText (_ : RandomGenerator) : String :=
  "AesRng \x7b\x7d"

/-- The text of the part of a generator that encrypts counters, which shows nothing either. -/
def coreDebugText (_ : RandomGenerator) : String :=
  "AesRngCore \x7b\x7d"

end RandomGenerator

end HalfGates
