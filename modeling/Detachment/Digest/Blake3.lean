/-! # The BLAKE3 hash

The hash of a list of bytes with the default length of 256 bits: chunks of 1024 bytes are compressed
block by block, and a binary tree joins the chunks, whose left subtree is always a complete one. -/

namespace Detachment.Blake3

/-- The eight words that every chaining value starts from. -/
def initialValue : Array UInt32 :=
  #[0x6A09E667, 0xBB67AE85, 0x3C6EF372, 0xA54FF53A, 0x510E527F, 0x9B05688C, 0x1F83D9AB, 0x5BE0CD19]

/-- The order in which one round takes the message words of the round before it, for `rounds`. -/
def permutation : Array Nat :=
  #[2, 6, 3, 10, 7, 0, 4, 13, 1, 11, 12, 5, 9, 14, 15, 8]

/-- Marks the first block of a chunk. -/
def chunkStart : UInt32 := 1

/-- Marks the last block of a chunk. -/
def chunkEnd : UInt32 := 2

/-- Marks the block that joins two subtrees. -/
def parent : UInt32 := 4

/-- Marks the block whose output is the hash. -/
def root : UInt32 := 8

/-- The number of bytes of a block. -/
def blockSize : Nat := 64

/-- The number of values of a word. -/
def wordBound : Nat := 4294967296

/-- The number of bytes of a chunk. -/
def chunkSize : Nat := 1024

/-- Rotate a word to the right. -/
def rotateRight (x amount : UInt32) : UInt32 :=
  (x >>> amount) ||| (x <<< (32 - amount))

/-- Mix two message words `x` and `y` into one column or diagonal of the state. -/
def quarterRound (state : Array UInt32) (a b c d : Nat) (x y : UInt32) : Array UInt32 :=
  let va := state.getD a 0 + state.getD b 0 + x
  let vd := rotateRight (state.getD d 0 ^^^ va) 16
  let vc := state.getD c 0 + vd
  let vb := rotateRight (state.getD b 0 ^^^ vc) 12
  let va := va + vb + y
  let vd := rotateRight (vd ^^^ va) 8
  let vc := vc + vd
  let vb := rotateRight (vb ^^^ vc) 7
  (((state.setIfInBounds a va).setIfInBounds b vb).setIfInBounds c vc).setIfInBounds d vd

/-- Mix all message words into the columns, then into the diagonals, by `quarterRound`. -/
def fullRound (state message : Array UInt32) : Array UInt32 :=
  let m := fun i => message.getD i 0
  let state := quarterRound state 0 4 8 12 (m 0) (m 1)
  let state := quarterRound state 1 5 9 13 (m 2) (m 3)
  let state := quarterRound state 2 6 10 14 (m 4) (m 5)
  let state := quarterRound state 3 7 11 15 (m 6) (m 7)
  let state := quarterRound state 0 5 10 15 (m 8) (m 9)
  let state := quarterRound state 1 6 11 12 (m 10) (m 11)
  let state := quarterRound state 2 7 8 13 (m 12) (m 13)
  quarterRound state 3 4 9 14 (m 14) (m 15)

/-- The given number of rounds (`fullRound`), each with the message words permuted once more. -/
def rounds : Nat → Array UInt32 → Array UInt32 → Array UInt32
  | 0, state, _ => state
  | n + 1, state, message =>
    rounds n (fullRound state message) (permutation.map fun i => message.getD i 0)

/-- The input of one compression, `Block.compress`. -/
structure Block where
  /-- The chaining value that comes in. -/
  chaining : Array UInt32
  /-- The sixteen message words. -/
  message : Array UInt32
  /-- The number of the chunk, or zero for a parent. -/
  counter : Nat
  /-- The number of message bytes. -/
  size : Nat
  /-- The marks of the block. -/
  marks : UInt32

/-- The eight words that a block is compressed to: seven `rounds`, after which both halves of the
state are joined. -/
def Block.compress (b : Block) : Array UInt32 :=
  let start := b.chaining ++ initialValue.take 4
    ++ #[(b.counter % wordBound).toUInt32, (b.counter / wordBound).toUInt32, b.size.toUInt32, b.marks]
  let final := rounds 7 start b.message
  (Array.range 8).map fun i => final.getD i 0 ^^^ final.getD (i + 8) 0

/-- The word that four bytes spell, the least significant first; missing bytes are zero. -/
def word (bytes : List UInt8) : UInt32 :=
  bytes.foldr (fun byte w => (w <<< 8) ||| byte.toUInt32) 0

/-- Cut a list into pieces of the given size; the last may be smaller, and there is at least one. -/
def pieces (size : Nat) : Nat → List UInt8 → List (List UInt8)
  | 0, bytes => [bytes]
  | n + 1, bytes =>
    if bytes.length ≤ size then [bytes]
    else bytes.take size :: pieces size n (bytes.drop size)

/-- The sixteen message words of a block, each a `word` of four bytes. -/
def messageWords (bytes : List UInt8) : Array UInt32 :=
  (Array.range 16).map fun i => word ((bytes.drop (4 * i)).take 4)

/-- Compress the blocks of a chunk one after another, up to the last, which is left to the caller;
this one gets `chunkEnd`. -/
def chunkBlocks (counter : Nat) (chaining : Array UInt32) (marks : UInt32) :
    List (List UInt8) → Block
  | [] => ⟨chaining, messageWords [], counter, 0, marks ||| chunkEnd⟩
  | [bytes] => ⟨chaining, messageWords bytes, counter, bytes.length, marks ||| chunkEnd⟩
  | bytes :: rest =>
    let block : Block := ⟨chaining, messageWords bytes, counter, bytes.length, marks⟩
    chunkBlocks counter block.compress 0 rest

/-- The last block of a chunk, by `chunkBlocks` from `initialValue`. -/
def chunkBlock (counter : Nat) (bytes : List UInt8) : Block :=
  chunkBlocks counter initialValue chunkStart (pieces blockSize bytes.length bytes)

/-- The block that joins two subtrees: its message is what both are compressed to. -/
def parentBlock (left right : Block) : Block :=
  ⟨initialValue, left.compress ++ right.compress, 0, blockSize, parent⟩

/-- The number of chunks in the left subtree: the largest power of two below `n`. -/
def leftSize (n : Nat) : Nat :=
  Nat.pow 2 (n - 1).log2

/-- The left subtree has at least one chunk: `leftSize` is a power. -/
theorem leftSize_pos (n : Nat) : 0 < leftSize n :=
  Nat.two_pow_pos _

/-- The right subtree has at least one chunk: `leftSize n` is below `n`. -/
theorem leftSize_lt {n : Nat} (h : 2 ≤ n) : leftSize n < n := by
  have := Nat.log2_self_le (n := n - 1) (by omega)
  exact Nat.lt_of_le_of_lt this (by omega)

/-- The last block of the tree over some chunks, the first of which has the number `counter`. The
left subtree has `leftSize` chunks. -/
def treeBlock (counter : Nat) (chunks : List (List UInt8)) : Block :=
  if _ : 2 ≤ chunks.length then
    let n := leftSize chunks.length
    parentBlock (treeBlock counter (chunks.take n)) (treeBlock (counter + n) (chunks.drop n))
  else chunkBlock counter (chunks.headD [])
termination_by chunks.length
decreasing_by
  · have := leftSize_lt (n := chunks.length) (by assumption)
    simp only [List.length_take]
    omega
  · have := leftSize_pos chunks.length
    simp only [List.length_drop]
    omega

/-- The words of the hash: the last block of the tree, marked as `root`. -/
def hashWords (bytes : List UInt8) : Array UInt32 :=
  let last := treeBlock 0 (pieces chunkSize bytes.length bytes)
  { last with marks := last.marks ||| root }.compress

/-- Two hexadecimal digits for a byte. -/
def hexByte (byte : Nat) : List Char :=
  [Nat.digitChar (byte / 16 % 16), Nat.digitChar (byte % 16)]

/-- The eight hexadecimal digits of a word's bytes, the least significant byte first. -/
def hexWord (w : UInt32) : List Char :=
  let n := w.toNat
  hexByte n ++ hexByte (n / 0x100) ++ hexByte (n / 0x10000) ++ hexByte (n / 0x1000000)

/-- The hash of a list of bytes in lowercase hexadecimal digits: `hashWords`, word by word. -/
def hex (bytes : List UInt8) : String :=
  String.ofList ((hashWords bytes).toList.flatMap hexWord)

end Detachment.Blake3
