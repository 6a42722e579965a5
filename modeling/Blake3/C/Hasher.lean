import Blake3.C.Subtree
import Blake3.Lib.CarryStack
import Blake3.SubtreeLen

/-!
The incremental hasher of `c/blake3.c`. The stack of chaining values has its
top entry first; its array has `BLAKE3_MAX_DEPTH + 1` entries, and a push
behind the last one or a merge of a single entry is out of bounds. Lengths of
type `size_t` are natural numbers below `2 ^ 64`.
-/

namespace Blake3.C

open CarryStack

/-! ### Chunk state and output -/

def chunkStateInit (key : CVWords) (flags : Byte) : ChunkState := .new key 0 flags

def chunkStateReset (self : ChunkState) (key : CVWords) (chunkCounter : UInt64) : ChunkState :=
  { self with
    cv := key, chunkCounter := chunkCounter, blocksCompressed := 0, buf := Vector.replicate 64 0,
    bufLen := 0 }

def chunkStateLen (self : ChunkState) : ℕ := self.count

def chunkStateUpdate (f : Compress) (self : ChunkState) (input : List Byte) : Result ChunkState :=
  self.update f .wrapping input

def chunkStateOutput (self : ChunkState) : Output := self.output

/-- The block of a parent is made of the chaining values of its children. -/
def parentOutput (left right : CVBytes) (key : CVWords) (flags : Byte) : Output :=
  { inputChainingValue := key, block := parentBlock left right, blockLen := 64, counter := 0,
    flags := flags ||| ByteFlag.parent }

/-- The difference of two lengths, which wraps. -/
def subSize (a b : ℕ) : ℕ := if b ≤ a then a - b else 2 ^ 64 + a - b

def outputRootBytes (f : Compress) (self : Output) (seek : UInt64) (outLen : ℕ) : List Byte :=
  if outLen = 0 then []
  else
    let outputBlockCounter := seek / 64
    let offsetWithinBlock := (seek % 64).toNat
    let rootBlock (counter : UInt64) : Block :=
      compressXof f self.inputChainingValue self.block self.blockLen counter
        (self.flags ||| ByteFlag.root)
    -- a first block that is read from the middle
    let bytes := if offsetWithinBlock = 0 then 0 else min (64 - offsetWithinBlock) outLen
    let first :=
      if offsetWithinBlock = 0 then []
      else ((rootBlock outputBlockCounter).toList.drop offsetWithinBlock).take bytes
    let outputBlockCounter :=
      if offsetWithinBlock = 0 then outputBlockCounter else outputBlockCounter + 1
    let outLen := outLen - bytes
    let whole := xofMany f self.inputChainingValue self.block self.blockLen outputBlockCounter
      (self.flags ||| ByteFlag.root) (outLen / 64)
    let outputBlockCounter := outputBlockCounter + UInt64.ofNat (outLen / 64)
    let outLen := outLen % 64
    let last := if outLen = 0 then [] else (rootBlock outputBlockCounter).toList.take outLen
    first ++ whole ++ last

/-! ### The hasher -/

structure Hasher where
  key : CVWords
  chunk : ChunkState
  cvStack : List CVBytes

def hasherInitBase (key : CVWords) (flags : Byte) : Hasher :=
  { key := key, chunk := chunkStateInit key flags, cvStack := [] }

def blake3HasherInit : Hasher := hasherInitBase iv 0

def blake3HasherInitKeyed (key : CVBytes) : Hasher :=
  hasherInitBase (wordsFromLeBytes32 key) ByteFlag.keyedHash

/-- The number of one bits. -/
def popcnt (x : UInt64) : ℕ := popcount x.toNat

section

variable (f : Compress) (simd : Simd) (schedule : Schedule) (useTbb : Bool)

/-- Merge the top two entries until each entry left stands for a one bit of
the total. -/
def hasherMergeCvStack (self : Hasher) (totalLen : UInt64) : Result Hasher := do
  let postMergeStackLen := popcnt totalLen
  let cvStack ← mergeLoop
    (fun left right => (parentOutput left right self.key self.chunk.flags).chainingValue f)
    .outOfBounds postMergeStackLen self.cvStack
  return { self with cvStack := cvStack }

/-- Lazy merging: the new chaining value itself stays unmerged. -/
def hasherPushCv (self : Hasher) (newCv : CVBytes) (chunkCounter : UInt64) : Result Hasher := do
  let self ← hasherMergeCvStack f self chunkCounter
  if self.cvStack.length < 55 then return { self with cvStack := newCv :: self.cvStack }
  else throw .outOfBounds

/-- Push the subtree over the whole input: one chunk as it is, a longer one as
the pair of chaining values below its root. -/
def pushSubtree (self : Hasher) (input : List Byte) : Result Hasher := do
  if input.length ≤ 1024 then
    let chunkState ← chunkStateUpdate f
      { chunkStateInit self.key self.chunk.flags with chunkCounter := self.chunk.chunkCounter }
      input
    hasherPushCv f self ((chunkStateOutput chunkState).chainingValue f) chunkState.chunkCounter
  else
    let subtreeChunks := input.length / 1024
    let cvPair ← compressSubtreeToParentNode f simd schedule useTbb self.key self.chunk.flags input
      self.chunk.chunkCounter
    let self ← hasherPushCv f self cvPair.1 self.chunk.chunkCounter
    hasherPushCv f self cvPair.2 (self.chunk.chunkCounter + UInt64.ofNat (subtreeChunks / 2))

/-- The length of the largest whole subtree that the input may supply. -/
def nextSubtreeLen (self : Hasher) (inputLen : ℕ) : ℕ :=
  shrinkSubtreeLen (roundDownToPowerOf2 inputLen) (self.chunk.chunkCounter * 1024)

theorem nextSubtreeLen_pos (self : Hasher) (inputLen : ℕ) : 0 < nextSubtreeLen self inputLen :=
  shrinkSubtreeLen_pos _ (by
    rw [roundDownToPowerOf2, Nat.one_shiftLeft]
    exact Nat.two_pow_pos _)

/-- Push whole subtrees while more than a chunk of input is left. -/
def updateSubtrees (self : Hasher) (input : List Byte) : Result (Hasher × List Byte) := do
  if 1024 < input.length then
    let subtreeLen := nextSubtreeLen self input.length
    let subtreeChunks := UInt64.ofNat (subtreeLen / 1024)
    let pushed ← pushSubtree f simd schedule useTbb self (input.take subtreeLen)
    let chunk := { pushed.chunk with chunkCounter := pushed.chunk.chunkCounter + subtreeChunks }
    updateSubtrees { pushed with chunk := chunk } (input.drop subtreeLen)
  else return (self, input)
termination_by input.length
decreasing_by
  have := nextSubtreeLen_pos self input.length
  simp only [List.length_drop]
  omega

/-- The part of an update that starts with an empty chunk state. -/
def updateWholeChunks (self : Hasher) (input : List Byte) : Result Hasher := do
  let (self, input) ← updateSubtrees f simd schedule useTbb self input
  if input = [] then return self
  else
    let chunk ← chunkStateUpdate f self.chunk input
    let self := { self with chunk := chunk }
    hasherMergeCvStack f self self.chunk.chunkCounter

def blake3HasherUpdateBase (self : Hasher) (input : List Byte) : Result Hasher := do
  if input = [] then return self
  else if 0 < chunkStateLen self.chunk then
    let take := min (subSize 1024 (chunkStateLen self.chunk)) input.length
    let chunk ← chunkStateUpdate f self.chunk (input.take take)
    let self := { self with chunk := chunk }
    let input := input.drop take
    -- With more coming, the current chunk is complete and not the root.
    if input = [] then return self
    else
      let chunkCv := (chunkStateOutput self.chunk).chainingValue f
      let self ← hasherPushCv f self chunkCv self.chunk.chunkCounter
      let self := { self with
        chunk := chunkStateReset self.chunk self.key (self.chunk.chunkCounter + 1) }
      updateWholeChunks f simd schedule useTbb self input
  else updateWholeChunks f simd schedule useTbb self input

def blake3HasherUpdate (self : Hasher) (input : List Byte) : Result Hasher :=
  blake3HasherUpdateBase f simd schedule false self input

def blake3HasherUpdateTbb (self : Hasher) (input : List Byte) : Result Hasher :=
  blake3HasherUpdateBase f simd schedule true self input

/-- The node at the root, before its bytes are taken. -/
def finalOutput (self : Hasher) : Result Output := do
  let rollup (output : Output) (cvs : List CVBytes) : Output :=
    cvs.foldl (fun output cv =>
      parentOutput cv (output.chainingValue f) self.key self.chunk.flags) output
  if self.cvStack = [] then return chunkStateOutput self.chunk
  else if 0 < chunkStateLen self.chunk then
    return rollup (chunkStateOutput self.chunk) self.cvStack
  else
    -- There are always at least 2 CVs in the stack in this case.
    match self.cvStack with
    | right :: left :: cvs => return rollup (parentOutput left right self.key self.chunk.flags) cvs
    | _ => throw .outOfBounds

def blake3HasherFinalizeSeek (self : Hasher) (seek : UInt64) (outLen : ℕ) :
    Result (List Byte) := do
  if outLen = 0 then return []
  else
    let output ← finalOutput f self
    return outputRootBytes f output seek outLen

def blake3HasherFinalize (self : Hasher) (outLen : ℕ) : Result (List Byte) :=
  blake3HasherFinalizeSeek f self 0 outLen

def blake3HasherReset (self : Hasher) : Hasher :=
  { self with chunk := chunkStateReset self.chunk self.key 0, cvStack := [] }

def blake3HasherInitDeriveKeyRaw (context : List Byte) : Result Hasher := do
  let contextHasher := hasherInitBase iv ByteFlag.deriveKeyContext
  let contextHasher ← blake3HasherUpdate f simd schedule contextHasher context
  let contextKey ← blake3HasherFinalize f contextHasher 32
  let contextKeyWords := wordsFromLeBytes32 (Vector.ofFn fun i => contextKey.getD i 0)
  return hasherInitBase contextKeyWords ByteFlag.deriveKeyMaterial

end

/-! ### Sequences of calls -/

/-- A call on an initialized hasher. -/
inductive Call where
  | update (input : List Byte) (useTbb : Bool)
  | finalizeSeek (seek : UInt64) (outLen : ℕ)
  | reset

def Hasher.step (f : Compress) (simd : Simd) (schedule : Schedule) (self : Hasher) :
    Call → Result Hasher
  | .update input useTbb => blake3HasherUpdateBase f simd schedule useTbb self input
  | .finalizeSeek seek outLen => do
      let _ ← blake3HasherFinalizeSeek f self seek outLen
      return self
  | .reset => return blake3HasherReset self

def Hasher.run (f : Compress) (simd : Simd) (schedule : Schedule) (self : Hasher)
    (calls : List Call) : Result Hasher :=
  calls.foldlM (Hasher.step f simd schedule) self

/-- The bytes passed to `update` since the last reset, after `bytes` earlier ones. -/
def absorbed : List Byte → List Call → List Byte
  | bytes, [] => bytes
  | bytes, .update input _ :: calls => absorbed (bytes ++ input) calls
  | bytes, .finalizeSeek _ _ :: calls => absorbed bytes calls
  | _, .reset :: calls => absorbed [] calls

end Blake3.C
