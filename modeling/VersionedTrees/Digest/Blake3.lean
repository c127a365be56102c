/-!
# The BLAKE3 hash

BLAKE3 cuts its input into chunks of 1024 bytes, hashes each chunk block by block, and joins the
chunks as the leaves of a binary tree whose left half is always a complete one. `Blake3.hash` gives
the first 32 bytes of output for an input without key.
-/

namespace VersionedTrees.Blake3

/-- Four words that the compression function treats alike. -/
structure Lanes where
  w0 : UInt32
  w1 : UInt32
  w2 : UInt32
  w3 : UInt32

namespace Lanes

/-- Applies a function to each word. -/
def map (f : UInt32 → UInt32) (lanes : Lanes) : Lanes :=
  ⟨f lanes.w0, f lanes.w1, f lanes.w2, f lanes.w3⟩

/-- Joins two rows word by word. -/
def zip (f : UInt32 → UInt32 → UInt32) (left right : Lanes) : Lanes :=
  ⟨f left.w0 right.w0, f left.w1 right.w1, f left.w2 right.w2, f left.w3 right.w3⟩

/-- Moves each word one place to the left; the first becomes the last. -/
def turn (lanes : Lanes) : Lanes :=
  ⟨lanes.w1, lanes.w2, lanes.w3, lanes.w0⟩

/-- The words in order. -/
def toList (lanes : Lanes) : List UInt32 :=
  [lanes.w0, lanes.w1, lanes.w2, lanes.w3]

end Lanes

/-- Eight words that a hashed part of the input has come to. -/
structure ChainingValue where
  low : Lanes
  high : Lanes

/-- Sixteen words of input, as four rows. -/
structure Block where
  r0 : Lanes
  r1 : Lanes
  r2 : Lanes
  r3 : Lanes

/-- The words that hashing starts from. -/
def initial : ChainingValue :=
  ⟨⟨0x6A09E667, 0xBB67AE85, 0x3C6EF372, 0xA54FF53A⟩,
    ⟨0x510E527F, 0x9B05688C, 0x1F83D9AB, 0x5BE0CD19⟩⟩

/-- Turns the bits of a word to the right. -/
def rotateRight (count : UInt32) (word : UInt32) : UInt32 :=
  (word >>> count) ||| (word <<< (32 - count))

/-- The sixteen words of state, as four rows. -/
structure State where
  a : Lanes
  b : Lanes
  c : Lanes
  d : Lanes

/-- Mixes two rows of input words into the columns of the state. -/
def State.mix (state : State) (x y : Lanes) : State :=
  let a := (state.a.zip (· + ·) state.b).zip (· + ·) x
  let d := (state.d.zip (· ^^^ ·) a).map (rotateRight 16)
  let c := state.c.zip (· + ·) d
  let b := (state.b.zip (· ^^^ ·) c).map (rotateRight 12)
  let a := (a.zip (· + ·) b).zip (· + ·) y
  let d := (d.zip (· ^^^ ·) a).map (rotateRight 8)
  let c := c.zip (· + ·) d
  let b := (b.zip (· ^^^ ·) c).map (rotateRight 7)
  ⟨a, b, c, d⟩

/-- One round mixes the first eight words into the columns and the others into the diagonals. -/
def State.round (state : State) (block : Block) : State :=
  let columns := state.mix
    ⟨block.r0.w0, block.r0.w2, block.r1.w0, block.r1.w2⟩
    ⟨block.r0.w1, block.r0.w3, block.r1.w1, block.r1.w3⟩
  let turned : State :=
    ⟨columns.a, columns.b.turn, columns.c.turn.turn, columns.d.turn.turn.turn⟩
  let diagonals := turned.mix
    ⟨block.r2.w0, block.r2.w2, block.r3.w0, block.r3.w2⟩
    ⟨block.r2.w1, block.r2.w3, block.r3.w1, block.r3.w3⟩
  ⟨diagonals.a, diagonals.b.turn.turn.turn, diagonals.c.turn.turn, diagonals.d.turn⟩

/-- The order in which the next round takes the words. -/
def Block.permute (block : Block) : Block :=
  ⟨⟨block.r0.w2, block.r1.w2, block.r0.w3, block.r2.w2⟩,
    ⟨block.r1.w3, block.r0.w0, block.r1.w0, block.r3.w1⟩,
    ⟨block.r0.w1, block.r2.w3, block.r3.w0, block.r1.w1⟩,
    ⟨block.r2.w1, block.r3.w2, block.r3.w3, block.r2.w0⟩⟩

/-- A number of rounds, with the words permuted in between. -/
def State.rounds (state : State) (block : Block) : Nat → State
  | 0 => state
  | more + 1 => (state.round block).rounds block.permute more

/-- A block about to be compressed: all that the result depends on. -/
structure Input where
  value : ChainingValue
  block : Block
  counter : UInt64
  length : UInt32
  flags : UInt32

/-- The first eight words that compression gives. -/
def Input.compress (input : Input) : ChainingValue :=
  let start : State :=
    ⟨input.value.low, input.value.high, initial.low,
      ⟨input.counter.toUInt32, (input.counter >>> 32).toUInt32, input.length, input.flags⟩⟩
  let state := start.rounds input.block 7
  ⟨state.a.zip (· ^^^ ·) state.c, state.b.zip (· ^^^ ·) state.d⟩

/-- The flag of the first block of a chunk. -/
def chunkStart : UInt32 := 1

/-- The flag of the last block of a chunk. -/
def chunkEnd : UInt32 := 2

/-- The flag of a block that joins two subtrees. -/
def parentNode : UInt32 := 4

/-- The flag of the last compression of all. -/
def rootNode : UInt32 := 8

/-- The word that starts at a byte, least significant byte first; what is missing is zero. -/
def wordAt (bytes : List UInt8) (start : Nat) : UInt32 :=
  let byte (offset : Nat) : UInt32 := (bytes.getD (start + offset) 0).toUInt32
  byte 0 ||| (byte 1 <<< 8) ||| (byte 2 <<< 16) ||| (byte 3 <<< 24)

/-- The words of the first 64 bytes. -/
def blockOf (bytes : List UInt8) : Block :=
  let row (start : Nat) : Lanes :=
    ⟨wordAt bytes start, wordAt bytes (start + 4), wordAt bytes (start + 8),
      wordAt bytes (start + 12)⟩
  ⟨row 0, row 16, row 32, row 48⟩

/-- The last block of a chunk, with all blocks before it compressed. At most `more` blocks follow
the first one. -/
def lastOfChunk (counter : UInt64) : Nat → UInt32 → ChainingValue → List UInt8 → Input
  | 0, flags, value, bytes =>
    ⟨value, blockOf bytes, counter, UInt32.ofNat bytes.length, flags ||| chunkEnd⟩
  | more + 1, flags, value, bytes =>
    if bytes.length ≤ 64 then
      ⟨value, blockOf bytes, counter, UInt32.ofNat bytes.length, flags ||| chunkEnd⟩
    else
      let next := (Input.mk value (blockOf bytes) counter 64 flags).compress
      lastOfChunk counter more 0 next (bytes.drop 64)

/-- The block that joins two subtrees. -/
def joined (left right : ChainingValue) : Input :=
  ⟨initial, ⟨left.low, left.high, right.low, right.high⟩, 0, 64, parentNode⟩

/-- The last block of a subtree of at most `2 ^ levels` chunks. A left half is always complete. -/
def lastOfTree : Nat → Nat → List UInt8 → Input
  | 0, counter, bytes => lastOfChunk (UInt64.ofNat counter) 15 chunkStart initial bytes
  | levels + 1, counter, bytes =>
    let half := 2 ^ levels
    if bytes.length ≤ 1024 * half then
      lastOfTree levels counter bytes
    else
      joined (lastOfTree levels counter (bytes.take (1024 * half))).compress
        (lastOfTree levels (counter + half) (bytes.drop (1024 * half))).compress

/-- The bytes of a word, least significant first. -/
def wordBytes (word : UInt32) : List UInt8 :=
  [word.toUInt8, (word >>> 8).toUInt8, (word >>> 16).toUInt8, (word >>> 24).toUInt8]

/-- The 32 bytes that the input hashes to. -/
def hash (bytes : List UInt8) : List UInt8 :=
  let last := lastOfTree bytes.length.log2 0 bytes
  let value := { last with flags := last.flags ||| rootNode }.compress
  (value.low.toList ++ value.high.toList).flatMap wordBytes

/-- A hash has 32 bytes. -/
@[simp] theorem length_hash (bytes : List UInt8) : (hash bytes).length = 32 := by
  simp [hash, Lanes.toList, wordBytes]

end VersionedTrees.Blake3
