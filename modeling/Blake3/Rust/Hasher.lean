import Blake3.Rust.OutputReader
import Blake3.Rust.Subtree

/-!
The incremental hasher of `src/lib.rs` and the functions of `src/hazmat.rs`
that start it in the middle of a message. The stack has its top entry first;
pushing onto a full stack and popping from an empty one panic. Lengths of type
`usize` are natural numbers below `2 ^ 64`.
-/

namespace Blake3.Rust

open CarryStack

/-! ### Sizes -/

/-- The number of low zero bits. -/
def trailingZeros (x : UInt64) : ℕ := x.toNat.bitIndices.headD 64

/-- The maximum length of a subtree that starts at an offset, if there is one. -/
def maxSubtreeLen (b : Build) (inputOffset : UInt64) : Result (Option UInt64) := do
  if inputOffset = 0 then return none
  else if inputOffset % 1024 ≠ 0 then
    throw (.assertFailed "input_offset % CHUNK_LEN as u64 == 0")
  else
    let counter := inputOffset / 1024
    let maxChunks := UInt64.ofNat (2 ^ trailingZeros counter)
    let max ← b.mulU64 maxChunks 1024
    return some max

/-- The largest power of two that is not greater than `n`. -/
def largestPowerOfTwoLeq (n : ℕ) : ℕ := 2 ^ Nat.clog 2 (n / 2 + 1)

/-! ### The hasher -/

structure Hasher where
  key : CVWords
  chunkState : ChunkState
  initialChunkCounter : UInt64
  cvStack : List CVBytes

namespace Hasher

def newInternal (key : CVWords) (flags : Byte) : Hasher :=
  { key := key, chunkState := .new key 0 flags, initialChunkCounter := 0, cvStack := [] }

def new : Hasher := newInternal iv 0

def newKeyed (key : CVBytes) : Hasher := newInternal (wordsFromLeBytes32 key) ByteFlag.keyedHash

def newFromContextKey (contextKey : CVBytes) : Hasher :=
  newInternal (wordsFromLeBytes32 contextKey) ByteFlag.deriveKeyMaterial

/-- Back to the initial state, but for the offset that was set. -/
def reset (self : Hasher) : Hasher :=
  { self with chunkState := .new self.key 0 self.chunkState.flags, cvStack := [] }

section

variable (f : Compress) (b : Build) (simd : Simd) (join : Join)

def newDeriveKey (context : List Byte) : Result Hasher := do
  let contextKey ← hashDeriveKeyContext f b simd context
  return newFromContextKey contextKey

/-- The number of bytes hashed so far. -/
def count (self : Hasher) : Result UInt64 := do
  let chunks ← b.subU64 self.chunkState.chunkCounter self.initialChunkCounter
  let bytes ← b.mulU64 chunks 1024
  b.addU64 bytes (UInt64.ofNat self.chunkState.count)

def setInputOffset (self : Hasher) (offset : UInt64) : Result Hasher := do
  let count ← self.count b
  if count ≠ 0 then throw (.assertFailed "hasher has already accepted input")
  else if offset % 1024 ≠ 0 then
    throw (.assertFailed
      s!"offset ({offset}) must be a chunk boundary (divisible by 1024)")
  else
    let counter := offset / 1024
    return { self with
      chunkState := { self.chunkState with chunkCounter := counter },
      initialChunkCounter := counter }

/-- Merge the top two entries until each entry left stands for a one bit of
the number of chunks since the initial one. -/
def mergeCvStack (self : Hasher) (chunkCounter : UInt64) : Result Hasher := do
  let chunks ← b.subU64 chunkCounter self.initialChunkCounter
  let postMergeStackLen := popcount chunks.toNat
  let cvStack ← mergeLoop
    (fun leftChild rightChild =>
      (parentNodeOutput leftChild rightChild self.key self.chunkState.flags).chainingValue f)
    .unwrapNone postMergeStackLen self.cvStack
  return { self with cvStack := cvStack }

/-- Lazy merging: the new chaining value itself stays unmerged. -/
def pushCv (self : Hasher) (newCv : CVBytes) (chunkCounter : UInt64) : Result Hasher := do
  let self ← mergeCvStack f b self chunkCounter
  if self.cvStack.length < 55 then return { self with cvStack := newCv :: self.cvStack }
  else throw .outOfBounds

/-- Push the subtree over the whole input: one chunk as it is, a longer one as
the pair of chaining values below its root. -/
def pushSubtree (self : Hasher) (input : List Byte) : Result Hasher := do
  let subtreeChunks := UInt64.ofNat (input.length / 1024)
  if input.length ≤ 1024 then
    b.debugAssert (input.length = 1024)
    let chunkState ←
      (ChunkState.new self.key self.chunkState.chunkCounter self.chunkState.flags).update f b input
    pushCv f b self (chunkState.output.chainingValue f) self.chunkState.chunkCounter
  else
    let cvPair ← compressSubtreeToParentNode f b simd join self.key self.chunkState.flags input
      self.chunkState.chunkCounter
    let self ← pushCv f b self cvPair.1 self.chunkState.chunkCounter
    let rightCounter ← b.addU64 self.chunkState.chunkCounter (subtreeChunks / 2)
    pushCv f b self cvPair.2 rightCounter

/-- Push whole subtrees while more than a chunk of input is left. -/
def updateSubtrees (self : Hasher) (input : List Byte) : Result (Hasher × List Byte) := do
  if 1024 < input.length then
    b.debugAssert (self.chunkState.count = 0)
    let countSoFar ← b.mulU64 self.chunkState.chunkCounter 1024
    let subtreeLen := shrinkSubtreeLen (largestPowerOfTwoLeq input.length) countSoFar
    let pushed ← pushSubtree f b simd join self (input.take subtreeLen)
    let chunkCounter ← b.addU64 pushed.chunkState.chunkCounter (UInt64.ofNat (subtreeLen / 1024))
    updateSubtrees
      { pushed with chunkState := { pushed.chunkState with chunkCounter := chunkCounter } }
      (input.drop subtreeLen)
  else return (self, input)
termination_by input.length
decreasing_by
  have hpos : 0 < subtreeLen := shrinkSubtreeLen_pos _ (Nat.two_pow_pos _)
  simp only [List.length_drop]
  omega

/-- The part of an update that starts with an empty chunk state. -/
def updateWholeChunks (self : Hasher) (input : List Byte) : Result Hasher := do
  let (self, input) ← updateSubtrees f b simd join self input
  b.debugAssert (input.length ≤ 1024)
  if input = [] then return self
  else
    let chunkState ← self.chunkState.update f b input
    let self := { self with chunkState := chunkState }
    mergeCvStack f b self self.chunkState.chunkCounter

/-- The panic of an update that goes beyond its subtree. -/
def assertSubtreeLen (self : Hasher) (input : List Byte) : Result Unit := do
  let inputOffset ← b.mulU64 self.initialChunkCounter 1024
  match ← maxSubtreeLen b inputOffset with
  | none => return ()
  | some max =>
      let count ← self.count b
      let remaining ← b.subU64 max count
      if remaining < UInt64.ofNat input.length then
        let offset ← b.mulU64 1024 self.initialChunkCounter
        let len := input.length
        throw (.assertFailed
          s!"the subtree starting at {offset} contains at most {max} bytes (found {len})")
      else return ()

def updateWithJoin (self : Hasher) (input : List Byte) : Result Hasher := do
  assertSubtreeLen b self input
  if 0 < self.chunkState.count then
    let want := 1024 - self.chunkState.count
    let take := min want input.length
    let chunkState ← self.chunkState.update f b (input.take take)
    let self := { self with chunkState := chunkState }
    let input := input.drop take
    if input = [] then return self
    else
      -- We've filled the current chunk, and there's more input coming.
      b.debugAssert (self.chunkState.count = 1024)
      let chunkCv := self.chunkState.output.chainingValue f
      let self ← pushCv f b self chunkCv self.chunkState.chunkCounter
      let chunkCounter ← b.addU64 self.chunkState.chunkCounter 1
      let self := { self with chunkState := .new self.key chunkCounter self.chunkState.flags }
      updateWholeChunks f b simd join self input
  else updateWholeChunks f b simd join self input

def update (self : Hasher) (input : List Byte) : Result Hasher :=
  updateWithJoin f b simd .serial self input

/-- The debug assertion that the stack does not need a merge. -/
def debugAssertMerged (self : Hasher) : Result Unit := do
  if b.debugAssertions then
    let chunks ← b.subU64 self.chunkState.chunkCounter self.initialChunkCounter
    b.debugAssert (self.cvStack.length = popcount chunks.toNat)
  else return ()

/-- The node at the top, before its bytes are taken. -/
def finalOutput (self : Hasher) : Result Output := do
  let rollup (output : Output) (cvs : List CVBytes) : Output :=
    cvs.foldl (fun output cv =>
      parentNodeOutput cv (output.chainingValue f) self.key self.chunkState.flags) output
  if self.cvStack = [] then
    b.debugAssert (self.chunkState.chunkCounter = self.initialChunkCounter)
    return self.chunkState.output
  else if 0 < self.chunkState.count then
    debugAssertMerged b self
    return rollup self.chunkState.output self.cvStack
  else
    b.debugAssert (2 ≤ self.cvStack.length)
    match self.cvStack with
    | right :: left :: cvs =>
        return rollup (parentNodeOutput left right self.key self.chunkState.flags) cvs
    -- the index of the second entry is below zero
    | _ => throw (if b.overflowChecks then .overflow else .outOfBounds)

/-- The assertion of `finalize` and `finalize_xof`. -/
def assertNoOffset (self : Hasher) : Result Unit :=
  if self.initialChunkCounter = 0 then .ok ()
  else .error (.assertFailed "set_input_offset must be used with finalize_non_root")

def finalize (self : Hasher) : Result CVBytes := do
  assertNoOffset self
  let output ← finalOutput f b self
  rootHash f b output

def finalizeXof (self : Hasher) : Result OutputReader := do
  assertNoOffset self
  let output ← finalOutput f b self
  return OutputReader.new output

def finalizeNonRoot (self : Hasher) : Result CVBytes := do
  let count ← self.count b
  if count = 0 then throw (.assertFailed "empty subtrees are never valid")
  else
    let output ← finalOutput f b self
    return output.chainingValue f

end

end Hasher

/-! ### Merging subtrees -/

/-- The mode of the subtrees that are merged. -/
inductive Mode where
  | hash
  | keyedHash (key : CVBytes)
  | deriveKeyMaterial (contextKey : CVBytes)

namespace Mode

def keyWords : Mode → CVWords
  | .hash => iv
  | .keyedHash key => wordsFromLeBytes32 key
  | .deriveKeyMaterial contextKey => wordsFromLeBytes32 contextKey

def flagsByte : Mode → Byte
  | .hash => 0
  | .keyedHash _ => ByteFlag.keyedHash
  | .deriveKeyMaterial _ => ByteFlag.deriveKeyMaterial

end Mode

def mergeSubtreesInner (leftChild rightChild : CVBytes) (mode : Mode) : Output :=
  parentNodeOutput leftChild rightChild mode.keyWords mode.flagsByte

def mergeSubtreesNonRoot (f : Compress) (leftChild rightChild : CVBytes) (mode : Mode) : CVBytes :=
  (mergeSubtreesInner leftChild rightChild mode).chainingValue f

def mergeSubtreesRoot (f : Compress) (b : Build) (leftChild rightChild : CVBytes) (mode : Mode) :
    Result CVBytes :=
  rootHash f b (mergeSubtreesInner leftChild rightChild mode)

def mergeSubtreesRootXof (leftChild rightChild : CVBytes) (mode : Mode) : OutputReader :=
  OutputReader.new (mergeSubtreesInner leftChild rightChild mode)

end Blake3.Rust
