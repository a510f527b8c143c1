import ObjectTables.Text.Utf8
/-!
The BLAKE3 digest of a byte sequence.

The bytes are cut into chunks of 1024, the chunks into blocks of 64. Each chunk is compressed block by
block; the chunks' chaining values are joined in pairs, pairs of pairs and so on, and the last join
gives the digest.
-/
namespace ObjectTables.Digest

/-- A chaining value. -/
abbrev Chain := Vector UInt32 8

/-- The sixteen words of a block or of the state of a compression. -/
abbrev Words := Vector UInt32 16

/-- The chaining value that every chunk starts from. -/
def initial : Chain :=
  #v[0x6A09E667, 0xBB67AE85, 0x3C6EF372, 0xA54FF53A, 0x510E527F, 0x9B05688C, 0x1F83D9AB, 0x5BE0CD19]

/-- The flag of a chunk's first block. -/
def chunkStart : UInt32 := 1

/-- The flag of a chunk's last block. -/
def chunkEnd : UInt32 := 2

/-- The flag of a block that joins two chaining values. -/
def joint : UInt32 := 4

/-- The flag of the last compression. -/
def rootFlag : UInt32 := 8

/-- A word turned to the right. -/
def turn (w by' : UInt32) : UInt32 := (w >>> by') ||| (w <<< (32 - by'))

/-- Mixes two message words into four words of the state. -/
def mix (v : Words) (a b c d : Fin 16) (x y : UInt32) : Words :=
  let va := v[a] + v[b] + x
  let vd := turn (v[d] ^^^ va) 16
  let vc := v[c] + vd
  let vb := turn (v[b] ^^^ vc) 12
  let va := va + vb + y
  let vd := turn (vd ^^^ va) 8
  let vc := vc + vd
  let vb := turn (vb ^^^ vc) 7
  (((v.set a va).set b vb).set c vc).set d vd

/-- Mixes a whole message, first into the columns of the state, then into its diagonals. -/
def mixAll (v m : Words) : Words :=
  let v := mix v 0 4 8 12 m[0] m[1]
  let v := mix v 1 5 9 13 m[2] m[3]
  let v := mix v 2 6 10 14 m[4] m[5]
  let v := mix v 3 7 11 15 m[6] m[7]
  let v := mix v 0 5 10 15 m[8] m[9]
  let v := mix v 1 6 11 12 m[10] m[11]
  let v := mix v 2 7 8 13 m[12] m[13]
  mix v 3 4 9 14 m[14] m[15]

/-- The message of the next round. -/
def permute (m : Words) : Words :=
  #v[m[2], m[6], m[3], m[10], m[7], m[0], m[4], m[13], m[1], m[11], m[12], m[5], m[9], m[14], m[15], m[8]]

/-- So many rounds. -/
def rounds : Nat → Words → Words → Words
  | 0, v, _ => v
  | n + 1, v, m => rounds n (mixAll v m) (permute m)

/-- A compression that is still to be made. -/
structure Pending where
  chain : Chain
  block : Words
  counter : UInt64
  length : UInt32
  flags : UInt32

/-- The chaining value of a compression with some more flags. -/
def Pending.compress (p : Pending) (more : UInt32) : Chain :=
  let h := p.chain
  let v : Words := #v[h[0], h[1], h[2], h[3], h[4], h[5], h[6], h[7],
    initial[0], initial[1], initial[2], initial[3],
    p.counter.toUInt32, (p.counter >>> 32).toUInt32, p.length, p.flags ||| more]
  let v := rounds 7 v p.block
  #v[v[0] ^^^ v[8], v[1] ^^^ v[9], v[2] ^^^ v[10], v[3] ^^^ v[11],
    v[4] ^^^ v[12], v[5] ^^^ v[13], v[6] ^^^ v[14], v[7] ^^^ v[15]]

/-- A byte sequence cut into pieces of `n` bytes; there is at least one piece. -/
def pieces (n : Nat) (bytes : Bytes) : List Bytes :=
  (List.range (max 1 ((bytes.length + n - 1) / n))).map fun i => (bytes.drop (i * n)).take n

/-- The byte of a block at a position; past its end it is padded with zeros. -/
def byteAt (block : Bytes) (i : Nat) : UInt32 := (block[i]?.getD 0).toUInt32

/-- The words of a block, lowest byte first. -/
def wordsOf (block : Bytes) : Words :=
  Vector.ofFn fun i =>
    let at' := 4 * i.val
    byteAt block at' ||| (byteAt block (at' + 1) <<< 8) ||| (byteAt block (at' + 2) <<< 16) |||
      (byteAt block (at' + 3) <<< 24)

/-- The last compression of a chunk, given the chaining value so far and the flags of the next block. -/
def blocks (counter : UInt64) (chain : Chain) (flags : UInt32) : List Bytes → Pending
  | [] => ⟨chain, wordsOf [], counter, 0, flags ||| chunkEnd⟩
  | [block] => ⟨chain, wordsOf block, counter, UInt32.ofNat block.length, flags ||| chunkEnd⟩
  | block :: rest =>
    let p : Pending := ⟨chain, wordsOf block, counter, UInt32.ofNat block.length, flags⟩
    blocks counter (p.compress 0) 0 rest

/-- The last compression of the chunk at a position. -/
def chunk (position : Nat) (bytes : Bytes) : Pending :=
  blocks (UInt64.ofNat position) initial chunkStart (pieces 64 bytes)

/-- The compression that joins two chaining values. -/
def join (left right : Chain) : Pending := ⟨initial, left ++ right, 0, 64, joint⟩

/-- Chaining values waiting for a partner, of one chunk, of two, of four and so on. -/
abbrev Waiting := List (Option Chain)

/-- Adds a chaining value of the size of the first place: two of one size are joined to one of the
next. -/
def Waiting.add (right : Chain) : Waiting → Waiting
  | [] => [some right]
  | none :: rest => some right :: rest
  | some left :: rest => none :: Waiting.add ((join left right).compress 0) rest

/-- The last compression of some chunks after those that wait. -/
def chunks (position : Nat) (waiting : Waiting) : List Bytes → Pending
  | [] => waiting.foldl joinLeft (chunk position [])
  | [last] => waiting.foldl joinLeft (chunk position last)
  | next :: rest => chunks (position + 1) (waiting.add ((chunk position next).compress 0)) rest
where
  /-- Joins a waiting chaining value, if there is one, with all that comes after it. -/
  joinLeft (p : Pending) : Option Chain → Pending
    | none => p
    | some left => join left (p.compress 0)

/-- The digest of a byte sequence, as words. -/
def digest (bytes : Bytes) : Chain := (chunks 0 [] (pieces 1024 bytes)).compress rootFlag

/-- Two hexadecimal digits for a byte. -/
def hexByte (b : UInt8) : Text := [Nat.digitChar (b.toNat / 16), Nat.digitChar (b.toNat % 16)]

/-- The first eight hexadecimal digits of a digest. -/
def short (bytes : Bytes) : Text :=
  let w := (digest bytes)[0]
  [w, w >>> 8, w >>> 16, w >>> 24].flatMap fun w => hexByte w.toUInt8

end ObjectTables.Digest
