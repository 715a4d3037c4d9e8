import HalfGates.Random.Buffered
import HalfGates.Proofs.Block

/-!
# Draws read one stream of words

The generator holds some words that it has made and not yet handed out. Whatever is drawn, the words come from
the stream of encrypted counters one after the other: none is left out and none is handed out twice, also
where a draw begins in one buffer and ends in the next.

## Main definitions

- `Random.flatMap_wordBytes_block`: four words hold the bytes of a block
- `RandomGenerator.ReadsFrom`: a generator that goes on at a word of the stream
- `Draw`, `Draw.readAt`: draws, and what they are in the stream
- `RandomGenerator.ReadsFrom.drawAll`: any sequence of draws
- `RandomGenerator.draws_read_stream`: the draws of a seed
-/

namespace HalfGates

/-! ### Words and blocks -/

namespace Random

theorem wordBytes_eq (word : UInt32) : wordBytes word = Codec.putWord 4 word.toNat := rfl

theorem toNat_wordOf (bytes : List UInt8) : (wordOf bytes).toNat = Codec.wordOf bytes % 256 ^ 4 := by
  induction bytes with
  | nil => rfl
  | cons byte bytes ih =>
    have hword : wordOf (byte :: bytes) = byte.toUInt32 + 256 * wordOf bytes := rfl
    have hnat : Codec.wordOf (byte :: bytes) = byte.toNat + 256 * Codec.wordOf bytes := rfl
    rw [hword, hnat, UInt32.toNat_add, UInt32.toNat_mul, ih]
    simp

theorem length_flatMap_wordBytes (words : List UInt32) : (words.flatMap wordBytes).length = 4 * words.length := by
  induction words with
  | nil => rfl
  | cons word words ih =>
    rw [List.flatMap_cons, List.length_append, ih, wordBytes_eq, Codec.length_putWord, List.length_cons]
    omega

/-- Four bytes are those of their word. -/
theorem wordBytes_wordOf {bytes : List UInt8} (h : bytes.length = 4) : wordBytes (wordOf bytes) = bytes := by
  have hput := Codec.putWord_wordOf bytes
  rw [h] at hput
  have hword := Codec.wordOf_putWord 4 (Codec.wordOf bytes)
  rw [hput] at hword
  rw [wordBytes_eq, toNat_wordOf, ← hword, hput]

/-- Bytes cut into pieces of the same length, one after the other. -/
theorem flatMap_pieces (bytes : List UInt8) (width count : Nat) :
    (List.range count).flatMap (fun i => (bytes.drop (width * i)).take width) = bytes.take (width * count) := by
  induction count with
  | zero => simp
  | succ count ih =>
    rw [List.range_succ, List.flatMap_append, ih, List.flatMap_singleton, Nat.mul_succ, List.take_add]

section blocks

variable (encrypt : Block → Block)

/-- Each word of the stream is read from four bytes of a block. -/
theorem wordAt_eq (c : Nat) {i : Nat} (hi : i < 4) :
    wordAt encrypt (4 * c + i) = wordOf (((blockAt encrypt c).toBytes.drop (4 * i)).take 4) := by
  have hdiv : (4 * c + i) / 4 = c := by omega
  have hmod : (4 * c + i) % 4 = i := by omega
  simp [wordAt, blockWords, List.getD_eq_getElem?_getD, hdiv, hmod, hi]

theorem wordBytes_wordAt (c : Nat) {i : Nat} (hi : i < 4) :
    wordBytes (wordAt encrypt (4 * c + i)) = ((blockAt encrypt c).toBytes.drop (4 * i)).take 4 := by
  rw [wordAt_eq encrypt c hi, wordBytes_wordOf]
  rw [List.length_take, List.length_drop, Block.length_toBytes]
  omega

theorem blockWords_blockAt (c : Nat) :
    blockWords (blockAt encrypt c) = (List.range' (4 * c) 4).map (wordAt encrypt) := by
  rw [blockWords, List.range'_eq_map_range, List.map_map]
  exact List.map_congr_left fun i hi => (wordAt_eq encrypt c (List.mem_range.mp hi)).symm

/-- Four words of the stream hold the bytes of a block. -/
theorem flatMap_wordBytes_block (c : Nat) :
    ((List.range' (4 * c) 4).map (wordAt encrypt)).flatMap wordBytes = (blockAt encrypt c).toBytes := by
  have hpieces : ((List.range' (4 * c) 4).map (wordAt encrypt)).map wordBytes =
      (List.range 4).map fun i => ((blockAt encrypt c).toBytes.drop (4 * i)).take 4 := by
    rw [List.range'_eq_map_range, List.map_map, List.map_map]
    exact List.map_congr_left fun i hi => wordBytes_wordAt encrypt c (List.mem_range.mp hi)
  rw [List.flatMap_def, hpieces, ← List.flatMap_def, flatMap_pieces]
  exact List.take_of_length_le (Nat.le_of_eq (Block.length_toBytes _))

end blocks

end Random

/-! ### The buffer -/

namespace RandomGenerator

variable {encrypt : Block → Block} {k : Nat} {g : RandomGenerator}

/-- A buffer holds sixteen words of the stream. -/
theorem refill_eq (encrypt : Block → Block) (c : Nat) :
    refill encrypt c = (List.range' (4 * c) 16).map (Random.wordAt encrypt) := by
  have hblocks : ∀ count, (List.range count).flatMap (fun i => Random.blockWords (Random.blockAt encrypt (c + i))) =
      (List.range' (4 * c) (4 * count)).map (Random.wordAt encrypt) := by
    intro count
    induction count with
    | zero => rfl
    | succ count ih =>
      rw [List.range_succ, List.flatMap_append, ih, List.flatMap_singleton, Random.blockWords_blockAt,
        ← List.map_append, Nat.mul_add, List.range'_append_1, Nat.mul_succ]
  exact hblocks 4

/-- The next word of the generator is word `k` of the stream: it holds the words from there on to the first one
that is not made yet. -/
structure ReadsFrom (encrypt : Block → Block) (k : Nat) (g : RandomGenerator) : Prop where
  encrypt_eq : g.encrypt = encrypt
  le_made : k ≤ 4 * g.counter
  unread_eq : g.unread = (List.range' k (4 * g.counter - k)).map (Random.wordAt encrypt)

theorem readsFrom_ofCipher (encrypt : Block → Block) : (ofCipher encrypt).ReadsFrom encrypt 0 :=
  ⟨rfl, Nat.le_refl 0, rfl⟩

theorem nextBlock_eq (g : RandomGenerator) :
    g.nextBlock = (Block.ofBytes (((nextWords 4 g).1.flatMap Random.wordBytes).take 16), (nextWords 4 g).2) := rfl

namespace ReadsFrom

/-- The next word is the next one of the stream, whether it is held or has to be made. -/
theorem nextWord (h : g.ReadsFrom encrypt k) :
    g.nextWord.1 = Random.wordAt encrypt k ∧ g.nextWord.2.ReadsFrom encrypt (k + 1) := by
  obtain ⟨rfl, hle, hunread⟩ := h
  by_cases hmade : k < 4 * g.counter
  · obtain ⟨m, hm⟩ : ∃ m, 4 * g.counter - k = m + 1 := ⟨4 * g.counter - k - 1, by omega⟩
    have hm' : 4 * g.counter - (k + 1) = m := by omega
    rw [hm, List.range'_succ, List.map_cons] at hunread
    rw [RandomGenerator.nextWord, hunread]
    exact ⟨rfl, rfl, hmade, by rw [hm']⟩
  · -- everything that was made is handed out, so the next word begins a new buffer
    obtain rfl : k = 4 * g.counter := by omega
    have hleft : 4 * (g.counter + 4) - (4 * g.counter + 1) = 15 := by omega
    rw [Nat.sub_self, List.range'_zero, List.map_nil] at hunread
    rw [RandomGenerator.nextWord, hunread, refill_eq, List.range'_succ, List.map_cons]
    refine ⟨rfl, rfl, ?_, ?_⟩
    · show 4 * g.counter + 1 ≤ 4 * (g.counter + 4)
      omega
    · show List.map _ _ = List.map _ (List.range' _ (4 * (g.counter + 4) - (4 * g.counter + 1)))
      rw [hleft]

theorem nextWords (count : Nat) (h : g.ReadsFrom encrypt k) :
    (nextWords count g).1 = (List.range' k count).map (Random.wordAt encrypt) ∧
      (nextWords count g).2.ReadsFrom encrypt (k + count) := by
  induction count generalizing k g with
  | zero => exact ⟨rfl, h⟩
  | succ count ih =>
    obtain ⟨hword, hnext⟩ := h.nextWord
    obtain ⟨hwords, hrest⟩ := ih hnext
    rw [Nat.add_assoc, Nat.add_comm 1 count] at hrest
    refine ⟨?_, hrest⟩
    rw [RandomGenerator.nextWords, List.range'_succ, List.map_cons, ← hword, ← hwords]

theorem nextBlock (h : g.ReadsFrom encrypt k) :
    g.nextBlock.1 = .ofBytes (((List.range' k 4).map (Random.wordAt encrypt)).flatMap Random.wordBytes) ∧
      g.nextBlock.2.ReadsFrom encrypt (k + 4) := by
  obtain ⟨hwords, hrest⟩ := h.nextWords 4
  have hfits : ((RandomGenerator.nextWords 4 g).1.flatMap Random.wordBytes).length ≤ 16 := by
    rw [Random.length_flatMap_wordBytes, hwords, List.length_map, List.length_range']
  rw [nextBlock_eq]
  refine ⟨?_, hrest⟩
  rw [List.take_of_length_le hfits, hwords]

/-- From the first word of a block on, the next blocks are the encrypted counters. -/
theorem nextBlocks (count : Nat) {c : Nat} (h : g.ReadsFrom encrypt (4 * c)) :
    (nextBlocks count g).1 = (List.range' c count).map (Random.blockAt encrypt) := by
  induction count generalizing c g with
  | zero => rfl
  | succ count ih =>
    obtain ⟨hblock, hnext⟩ := h.nextBlock
    rw [Random.flatMap_wordBytes_block, Block.ofBytes_toBytes] at hblock
    rw [List.range'_succ, List.map_cons, ← hblock, ← ih (c := c + 1) hnext]
    rfl

end ReadsFrom

end RandomGenerator

/-! ### Draws -/

/-- What can be asked of a generator. -/
inductive Draw
  | word
  | double
  | bytes (count : Nat)
  | block
  | bit

/-- What a generator answers. -/
inductive Drawn
  | word (word : UInt32)
  | double (double : UInt64)
  | bytes (bytes : List UInt8)
  | block (block : Block)
  | bit (bit : Bool)
  deriving DecidableEq

namespace Draw

/-- The number of words that a draw takes. -/
def size : Draw → Nat
  | .word => 1
  | .double => 2
  | .bytes count => (count + 3) / 4
  | .block => 4
  | .bit => 1

/-- The answer to a draw that begins at word `k` of a stream. -/
def readAt (stream : Nat → UInt32) (k : Nat) : Draw → Drawn
  | .word => .word (stream k)
  | .double => .double (UInt64.ofNat ((stream k).toNat + 2 ^ 32 * (stream (k + 1)).toNat))
  | .bytes count =>
    .bytes ((((List.range' k ((count + 3) / 4)).map stream).flatMap (Codec.putWord 4 ·.toNat)).take count)
  | .block => .block (.ofBytes (((List.range' k 4).map stream).flatMap (Codec.putWord 4 ·.toNat)))
  | .bit => .bit ((stream k).toNat.testBit 31)

/-- The answers to draws that begin at word `k` of a stream, each where the one before it ends. -/
def readAll (stream : Nat → UInt32) : Nat → List Draw → List Drawn
  | _, [] => []
  | k, d :: ds => d.readAt stream k :: readAll stream (k + d.size) ds

end Draw

theorem double_eq (low high : UInt32) :
    high.toUInt64 <<< 32 ||| low.toUInt64 = UInt64.ofNat (low.toNat + 2 ^ 32 * high.toNat) := by
  have hlow : low.toNat < 2 ^ 32 := low.toNat_lt
  have hhigh : high.toNat < 2 ^ 32 := high.toNat_lt
  have hshift : (high.toUInt64 <<< 32).toNat = high.toNat <<< 32 := by
    rw [UInt64.toNat_shiftLeft, UInt32.toNat_toUInt64]
    show high.toNat <<< 32 % 2 ^ 64 = _
    rw [Nat.shiftLeft_eq, Nat.mod_eq_of_lt (by omega)]
  apply UInt64.toNat_inj.mp
  rw [UInt64.toNat_or, hshift, UInt32.toNat_toUInt64, ← Nat.shiftLeft_add_eq_or_of_lt hlow, Nat.shiftLeft_eq,
    UInt64.toNat_ofNat', Nat.mod_eq_of_lt (by omega), Nat.mul_comm, Nat.add_comm]

theorem Random.wordBit_eq (word : UInt32) : wordBit word = word.toNat.testBit 31 := by
  have hlt : word.toNat < 2 ^ 32 := word.toNat_lt
  have hge : word ≥ 0x80000000 ↔ 2 ^ 31 ≤ word.toNat := UInt32.le_iff_toNat_le
  rw [wordBit, Nat.testBit_eq_decide_div_mod_eq, decide_eq_decide, hge]
  omega

namespace RandomGenerator

/-- A draw from the generator. -/
def draw (g : RandomGenerator) : Draw → Drawn × RandomGenerator
  | .word => Prod.map .word id g.nextWord
  | .double => Prod.map .double id g.nextDouble
  | .bytes count => Prod.map .bytes id (g.fill count)
  | .block => Prod.map .block id g.nextBlock
  | .bit => Prod.map .bit id g.nextBit

/-- Draws one after the other. -/
def drawAll : List Draw → RandomGenerator → List Drawn × RandomGenerator
  | [], g => ([], g)
  | d :: ds, g =>
    let (x, g) := g.draw d
    let (xs, g) := drawAll ds g
    (x :: xs, g)

namespace ReadsFrom

variable {encrypt : Block → Block} {k : Nat} {g : RandomGenerator}

/-- A draw reads the words that it takes from the stream. -/
theorem draw (h : g.ReadsFrom encrypt k) (d : Draw) :
    (g.draw d).1 = d.readAt (Random.wordAt encrypt) k ∧ (g.draw d).2.ReadsFrom encrypt (k + d.size) := by
  obtain ⟨hword, hnext⟩ := h.nextWord
  cases d with
  | word => exact ⟨congrArg _ hword, hnext⟩
  | double =>
    obtain ⟨hhigh, hrest⟩ := hnext.nextWord
    refine ⟨congrArg Drawn.double ?_, hrest⟩
    rw [← hword, ← hhigh, ← double_eq]
    rfl
  | bytes count =>
    obtain ⟨hwords, hrest⟩ := h.nextWords ((count + 3) / 4)
    refine ⟨congrArg Drawn.bytes ?_, hrest⟩
    rw [← hwords]
    rfl
  | block => exact ⟨congrArg Drawn.block h.nextBlock.1, h.nextBlock.2⟩
  | bit =>
    refine ⟨congrArg Drawn.bit ?_, hnext⟩
    rw [← hword, ← Random.wordBit_eq]
    rfl

theorem drawAll (h : g.ReadsFrom encrypt k) (ds : List Draw) :
    (drawAll ds g).1 = Draw.readAll (Random.wordAt encrypt) k ds ∧
      (drawAll ds g).2.ReadsFrom encrypt (k + (ds.map Draw.size).sum) := by
  induction ds generalizing k g with
  | nil => exact ⟨rfl, h⟩
  | cons d ds ih =>
    obtain ⟨hdraw, hnext⟩ := h.draw d
    obtain ⟨hdraws, hrest⟩ := ih hnext
    rw [Nat.add_assoc] at hrest
    refine ⟨?_, by rwa [List.map_cons, List.sum_cons]⟩
    rw [RandomGenerator.drawAll, Draw.readAll, ← hdraw, ← hdraws]

end ReadsFrom

-- fifty-eight bytes leave one word of the buffer, and the high word of the double begins the next buffer
example : (drawAll [.bytes 58, .double] (ofCipher id)).1.getLast? = some (.double 0x400000000) := by decide

/-- A seed's generator reads one stream. Word `k` is the four bytes at `k % 4` of the encrypted counter `k / 4`,
the least significant first; draws, whatever they are, are read from it one after the other, each from the word
where the one before it ends; and the first blocks are the encrypted counters. -/
theorem draws_read_stream (seed : Block) :
    (∀ k, Codec.putWord 4 (Random.wordAt (Aes.encrypt (Aes.schedule seed)) k).toNat =
      ((Aes.encrypt (Aes.schedule seed) (.ofBytes (Codec.putWord 16 (k / 4)))).toBytes.drop (4 * (k % 4))).take 4) ∧
    (∀ draws, (drawAll draws (ofSeed seed)).1 =
      Draw.readAll (Random.wordAt (Aes.encrypt (Aes.schedule seed))) 0 draws) ∧
    ∀ count, (nextBlocks count (ofSeed seed)).1 =
      (List.range count).map fun i => Aes.encrypt (Aes.schedule seed) (.ofBytes (Codec.putWord 16 i)) := by
  have hfresh := readsFrom_ofCipher (Aes.encrypt (Aes.schedule seed))
  have hcounter : ∀ n, Block.ofBytes (Codec.putWord 16 n) = .ofNatReversed n := fun n => by
    rw [← Block.toBytes_ofNatReversed, Block.ofBytes_toBytes]
  refine ⟨fun k => ?_, fun draws => (hfresh.drawAll draws).1, fun count => ?_⟩
  · have hmod : k % 4 < 4 := Nat.mod_lt k (by decide)
    have hword := Random.wordBytes_wordAt (Aes.encrypt (Aes.schedule seed)) (k / 4) hmod
    rwa [Nat.div_add_mod, Random.wordBytes_eq, Random.blockAt, ← hcounter] at hword
  · have hblocks := hfresh.nextBlocks count (c := 0)
    simp only [hcounter]
    rw [List.range_eq_range']
    exact hblocks

end RandomGenerator

end HalfGates
