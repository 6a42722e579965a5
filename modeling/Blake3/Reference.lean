import Blake3.Compress
import Blake3.Fault

/-!
The reference implementation, `reference_impl.rs`. Arithmetic on `u8` and
`u64` is checked, as in a build that panics on overflow, and every compression
input that is evaluated is put on record, latest first.
-/

namespace Blake3.Reference

/-! ### Recorded compressions -/

/-- A computation that may panic and that records the compressions it makes. -/
abbrev Traced := StateT (List CompressInput) Result

def compressTraced (f : Compress) (x : CompressInput) : Traced BlockWords := do
  modify (x :: ·)
  return f x

def addU8 (a b : ℕ) : Traced ℕ := if a + b < 256 then return a + b else throw .overflow

def addU64 (a b : UInt64) : Traced UInt64 :=
  if a.toNat + b.toNat < 2 ^ 64 then return a + b else throw .overflow

/-! ### Output -/

/-- Each chunk or parent node can produce either a chaining value or, by
setting the `ROOT` flag, any number of final output bytes. -/
abbrev Output := CompressInput

namespace Output

def chainingValue (f : Compress) (self : Output) : Traced CVWords := do
  return first8Words (← compressTraced f self)

/-- The output blocks from number `outputBlockCounter` on, for an `outLen`
byte slice; the last one may be cut short. -/
def rootOutputBytes (f : Compress) (self : Output) (outputBlockCounter : UInt64) (outLen : ℕ) :
    Traced (List Byte) := do
  if outLen = 0 then return []
  else
    let words ← compressTraced f
      { self with counter := outputBlockCounter, flags := self.flags ||| Flag.root }
    let outBlock := (leBytesFromWords64 words).toList.take outLen
    let rest ← rootOutputBytes f self (outputBlockCounter + 1) (outLen - 64)
    return outBlock ++ rest
termination_by outLen

end Output

/-! ### Chunk state -/

structure ChunkState where
  chainingValue : CVWords
  chunkCounter : UInt64
  block : Block
  blockLen : ℕ
  blocksCompressed : ℕ
  flags : Word

namespace ChunkState

def new (keyWords : CVWords) (chunkCounter : UInt64) (flags : Word) : ChunkState :=
  { chainingValue := keyWords, chunkCounter := chunkCounter, block := Vector.replicate 64 0,
    blockLen := 0, blocksCompressed := 0, flags := flags }

def len (self : ChunkState) : ℕ := 64 * self.blocksCompressed + self.blockLen

def startFlag (self : ChunkState) : Word :=
  if self.blocksCompressed = 0 then Flag.chunkStart else 0

/-- If the block buffer is full, compress it and clear it. -/
def compressFullBlock (f : Compress) (self : ChunkState) : Traced ChunkState := do
  if self.blockLen = 64 then
    let words ← compressTraced f
      { chainingValue := self.chainingValue, blockWords := wordsFromLeBytes64 self.block,
        counter := self.chunkCounter, blockLen := 64, flags := self.flags ||| self.startFlag }
    let blocksCompressed ← addU8 self.blocksCompressed 1
    return { self with
      chainingValue := first8Words words, blocksCompressed := blocksCompressed,
      block := Vector.replicate 64 0, blockLen := 0 }
  else return self

def update (f : Compress) (self : ChunkState) (input : List Byte) : Traced ChunkState := do
  if input = [] then return self
  else
    let self ← compressFullBlock f self
    if self.blockLen < 64 then
      -- Copy input bytes into the block buffer.
      let want := 64 - self.blockLen
      let take := min want input.length
      let blockLen ← addU8 self.blockLen take
      update f
        { self with
          block := writeAt self.block self.blockLen (input.take take)
          blockLen := blockLen }
        (input.drop take)
    else throw .overflow
termination_by input.length
decreasing_by
  have : 0 < input.length := List.length_pos_iff.mpr (by assumption)
  simp only [List.length_drop]
  omega

def output (self : ChunkState) : Output :=
  { chainingValue := self.chainingValue, blockWords := wordsFromLeBytes64 self.block,
    counter := self.chunkCounter, blockLen := UInt32.ofNat self.blockLen,
    flags := self.flags ||| self.startFlag ||| Flag.chunkEnd }

end ChunkState

/-! ### Parents -/

def parentOutput (leftChildCv rightChildCv keyWords : CVWords) (flags : Word) : Output :=
  { chainingValue := keyWords, blockWords := parentWords leftChildCv rightChildCv, counter := 0,
    blockLen := 64, flags := Flag.parent ||| flags }

def parentCv (f : Compress) (leftChildCv rightChildCv keyWords : CVWords) (flags : Word) :
    Traced CVWords :=
  (parentOutput leftChildCv rightChildCv keyWords flags).chainingValue f

/-! ### Hasher -/

/-- An incremental hasher that can accept any number of writes. The stack
has its top entry first and space for 54 of them. -/
structure Hasher where
  chunkState : ChunkState
  keyWords : CVWords
  cvStack : List CVWords
  flags : Word

namespace Hasher

def newInternal (keyWords : CVWords) (flags : Word) : Hasher :=
  { chunkState := .new keyWords 0 flags, keyWords := keyWords, cvStack := [], flags := flags }

def new : Hasher := newInternal iv 0

def newKeyed (key : CVBytes) : Hasher := newInternal (wordsFromLeBytes32 key) Flag.keyedHash

def pushStack (self : Hasher) (cv : CVWords) : Traced Hasher :=
  if self.cvStack.length < 54 then return { self with cvStack := cv :: self.cvStack }
  else throw .outOfBounds

/-- Pop and merge once for each trailing zero bit of the number of chunks. -/
def addChunkChainingValueLoop (f : Compress) (self : Hasher) (newCv : CVWords)
    (totalChunks : UInt64) : List CVWords → Traced Hasher
  | left :: stack => do
      if totalChunks &&& 1 = 0 then
        let newCv ← parentCv f left newCv self.keyWords self.flags
        addChunkChainingValueLoop f self newCv (totalChunks >>> 1) stack
      else pushStack { self with cvStack := left :: stack } newCv
  | [] =>
      -- `pop_stack` takes one from a length of zero
      if totalChunks &&& 1 = 0 then throw .overflow
      else pushStack { self with cvStack := [] } newCv

def addChunkChainingValue (f : Compress) (self : Hasher) (newCv : CVWords)
    (totalChunks : UInt64) : Traced Hasher :=
  addChunkChainingValueLoop f self newCv totalChunks self.cvStack

/-- If the current chunk is complete, finalize it and reset the chunk state. -/
def finishChunk (f : Compress) (self : Hasher) : Traced Hasher := do
  if self.chunkState.len = 1024 then
    let chunkCv ← self.chunkState.output.chainingValue f
    let totalChunks ← addU64 self.chunkState.chunkCounter 1
    let self ← addChunkChainingValue f self chunkCv totalChunks
    return { self with chunkState := .new self.keyWords totalChunks self.flags }
  else return self

def update (f : Compress) (self : Hasher) (input : List Byte) : Traced Hasher := do
  if input = [] then return self
  else
    let self ← finishChunk f self
    if self.chunkState.len < 1024 then
      -- Compress input bytes into the current chunk state.
      let want := 1024 - self.chunkState.len
      let take := min want input.length
      let chunkState ← self.chunkState.update f (input.take take)
      update f { self with chunkState := chunkState } (input.drop take)
    else throw .overflow
termination_by input.length
decreasing_by
  have : 0 < input.length := List.length_pos_iff.mpr (by assumption)
  simp only [List.length_drop]
  omega

/-- All the parents along the right edge of the tree, up to the root. -/
def rootOutput (f : Compress) (self : Hasher) : Traced Output :=
  self.cvStack.foldlM
    (fun output cv => do
      let right ← output.chainingValue f
      return parentOutput cv right self.keyWords self.flags)
    self.chunkState.output

/-- Finalize the hash and write any number of output bytes. -/
def finalize (f : Compress) (self : Hasher) (outLen : ℕ) : Traced (List Byte) := do
  let output ← rootOutput f self
  output.rootOutputBytes f 0 outLen

end Hasher

/-! ### Whole messages -/

/-- `outLen` bytes of the hash of one message. -/
def hash (f : Compress) (self : Hasher) (input : List Byte) (outLen : ℕ) :
    Traced (List Byte) := do
  let self ← self.update f input
  self.finalize f outLen

def Hasher.newDeriveKey (f : Compress) (context : List Byte) : Traced Hasher := do
  let contextKey ← hash f (newInternal iv Flag.deriveKeyContext) context 32
  let contextKeyWords := wordsFromLeBytes32 (Vector.ofFn fun i => contextKey.getD i 0)
  return newInternal contextKeyWords Flag.deriveKeyMaterial

end Blake3.Reference
