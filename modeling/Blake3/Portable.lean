import Blake3.Fault
import Blake3.Tree

/-!
The interface that the implementations call and the portable loops behind it,
`c/blake3_portable.c` and `src/portable.rs`. Flags are bytes and chaining
values are bytes outside of a compression. A loop over whole blocks gives the
chaining value of a chunk, or that of a parent.
-/

namespace Blake3

/-! ### Counters -/

namespace Build

variable (b : Build)

theorem addU64_ofNat {x y : ℕ} (h : x + y < 2 ^ 64) :
    b.addU64 (UInt64.ofNat x) (UInt64.ofNat y) = .ok (UInt64.ofNat (x + y)) := by
  rw [UInt64.ofNat_add]
  apply b.addU64_of_lt
  rw [toNat_ofNat64 (by omega), toNat_ofNat64 (by omega)]
  exact h

theorem subU64_ofNat {x y : ℕ} (h : x + y < 2 ^ 64) :
    b.subU64 (UInt64.ofNat (x + y)) (UInt64.ofNat x) = .ok (UInt64.ofNat y) := by
  have hle : (UInt64.ofNat x).toNat ≤ (UInt64.ofNat (x + y)).toNat := by
    rw [toNat_ofNat64 (by omega), toNat_ofNat64 h]
    omega
  rw [b.subU64_of_le hle, UInt64.ofNat_add, UInt64.add_comm, UInt64.add_sub_cancel]

theorem mulU64_ofNat {x y : ℕ} (h : x * y < 2 ^ 64) (hx : x < 2 ^ 64) (hy : y < 2 ^ 64) :
    b.mulU64 (UInt64.ofNat x) (UInt64.ofNat y) = .ok (UInt64.ofNat (x * y)) := by
  rw [UInt64.ofNat_mul]
  apply b.mulU64_of_lt
  rw [toNat_ofNat64 hx, toNat_ofNat64 hy]
  exact h

end Build

/-! ### Flags as bytes -/

namespace ByteFlag

def chunkStart : Byte := 0x01
def chunkEnd : Byte := 0x02
def parent : Byte := 0x04
def root : Byte := 0x08
def keyedHash : Byte := 0x10
def deriveKeyContext : Byte := 0x20
def deriveKeyMaterial : Byte := 0x40

@[simp] theorem chunkStart_toUInt32 : chunkStart.toUInt32 = Flag.chunkStart := rfl
@[simp] theorem chunkEnd_toUInt32 : chunkEnd.toUInt32 = Flag.chunkEnd := rfl
@[simp] theorem parent_toUInt32 : parent.toUInt32 = Flag.parent := rfl
@[simp] theorem root_toUInt32 : root.toUInt32 = Flag.root := rfl

end ByteFlag

/-! ### Single compressions -/

/-- The input of a compression of `blockLen` bytes of a block. -/
def blockNode (cv : CVWords) (block : Block) (blockLen : ℕ) (counter : UInt64) (flags : Byte) :
    CompressInput :=
  { chainingValue := cv, blockWords := wordsFromLeBytes64 block, counter := counter,
    blockLen := UInt32.ofNat blockLen, flags := flags.toUInt32 }

def compressInPlace (f : Compress) (cv : CVWords) (block : Block) (blockLen : ℕ)
    (counter : UInt64) (flags : Byte) : CVWords :=
  first8Words (f (blockNode cv block blockLen counter flags))

def compressXof (f : Compress) (cv : CVWords) (block : Block) (blockLen : ℕ)
    (counter : UInt64) (flags : Byte) : Block :=
  leBytesFromWords64 (f (blockNode cv block blockLen counter flags))

/-- `n` output blocks with the counter going up. -/
def xofMany (f : Compress) (cv : CVWords) (block : Block) (blockLen : ℕ) (counter : UInt64)
    (flags : Byte) (n : ℕ) : List Byte :=
  (List.range n).flatMap fun i =>
    (compressXof f cv block blockLen (counter + UInt64.ofNat i) flags).toList

/-! ### Many inputs -/

section HashMany

variable (f : Compress) (b : Build) (key : CVWords) (flags flagsStart flagsEnd : Byte)

/-- The loop of `hash_one_portable` over the blocks of one input. -/
def hashBlocks (counter : UInt64) : ℕ → CVWords → Byte → List Byte → CVWords
  | 0, cv, _, _ => cv
  | blocks + 1, cv, blockFlags, input =>
      let blockFlags := if blocks = 0 then blockFlags ||| flagsEnd else blockFlags
      hashBlocks counter blocks (compressInPlace f cv (blockOfBytes input) 64 counter blockFlags)
        flags (input.drop 64)

def hashOne (input : List Byte) (blocks : ℕ) (counter : UInt64) : CVBytes :=
  leBytesFromWords32 (hashBlocks f flags flagsEnd counter blocks key (flags ||| flagsStart) input)

/-- Hash every input of `blocks` blocks and write the chaining values out. -/
def hashMany (blocks : ℕ) (incrementCounter : Bool) :
    List (List Byte) → UInt64 → Result (List CVBytes)
  | [], _ => .ok []
  | input :: inputs, counter => do
      let cv := hashOne f key flags flagsStart flagsEnd input blocks counter
      let counter ← if incrementCounter then b.addU64 counter 1 else .ok counter
      let out ← hashMany blocks incrementCounter inputs counter
      return cv :: out

end HashMany

/-- The first `k` pieces of `n` bytes of an input. -/
def pieces (n : ℕ) : ℕ → List Byte → List (List Byte)
  | 0, _ => []
  | k + 1, input => input.take n :: pieces n k (input.drop n)

@[simp] theorem length_pieces (n k : ℕ) (input : List Byte) : (pieces n k input).length = k := by
  induction k generalizing input with
  | zero => rfl
  | succ k ih => rw [pieces, List.length_cons, ih]

/-! ### Nodes before their last compression -/

/-- The state just prior to choosing between a chaining value and, by setting
the `ROOT` flag, any number of final output bytes. -/
structure Output where
  inputChainingValue : CVWords
  block : Block
  blockLen : ℕ
  counter : UInt64
  flags : Byte

namespace Output

/-- The compression that is left to make. -/
def node (self : Output) : CompressInput :=
  blockNode self.inputChainingValue self.block self.blockLen self.counter self.flags

def chainingValue (f : Compress) (self : Output) : CVBytes :=
  leBytesFromWords32 (compressInPlace f self.inputChainingValue self.block self.blockLen
    self.counter self.flags)

theorem chainingValue_eq (f : Compress) (self : Output) :
    self.chainingValue f = leBytesFromWords32 (cvOf f self.node) := rfl

/-- A root block is a block of the output stream of the node. -/
theorem compressXof_root (f : Compress) (self : Output) (counter : UInt64) :
    compressXof f self.inputChainingValue self.block self.blockLen counter
      (self.flags ||| ByteFlag.root) = outputBlock f self.node counter := by
  simp [compressXof, outputBlock, node, blockNode]

/-- Root blocks one after the other are a piece of the output stream. -/
theorem xofMany_root (f : Compress) (self : Output) (k n : ℕ) :
    xofMany f self.inputChainingValue self.block self.blockLen (UInt64.ofNat k)
      (self.flags ||| ByteFlag.root) n = streamBytes f self.node (64 * k) (64 * n) := by
  induction n with
  | zero => simp [xofMany, streamBytes]
  | succ n ih =>
      have hblock : (compressXof f self.inputChainingValue self.block self.blockLen
          (UInt64.ofNat k + UInt64.ofNat n) (self.flags ||| ByteFlag.root)).toList =
          streamBytes f self.node (64 * k + 64 * n) 64 := by
        rw [streamBytes_block _ _ (by omega), compressXof_root, ← UInt64.ofNat_add,
          show (64 * k + 64 * n) / 64 = k + n by omega, show (64 * k + 64 * n) % 64 = 0 by omega,
          List.drop_zero, List.take_of_length_le (by simp)]
      rw [xofMany, List.range_succ, List.flatMap_append, List.flatMap_singleton, hblock,
        Nat.mul_succ, streamBytes_add]
      exact congrArg (· ++ _) ih

/-- Whole root blocks and the front of one more. -/
theorem xofMany_append_last (f : Compress) (self : Output) (k len : ℕ) :
    xofMany f self.inputChainingValue self.block self.blockLen (UInt64.ofNat k)
        (self.flags ||| ByteFlag.root) (len / 64) ++
      (compressXof f self.inputChainingValue self.block self.blockLen
        (UInt64.ofNat (k + len / 64)) (self.flags ||| ByteFlag.root)).toList.take (len % 64) =
        streamBytes f self.node (64 * k) len := by
  have hlast : (compressXof f self.inputChainingValue self.block self.blockLen
      (UInt64.ofNat (k + len / 64)) (self.flags ||| ByteFlag.root)).toList.take (len % 64) =
      streamBytes f self.node (64 * k + 64 * (len / 64)) (len % 64) := by
    rw [streamBytes_block _ _ (by omega), compressXof_root,
      show (64 * k + 64 * (len / 64)) / 64 = k + len / 64 by omega,
      show (64 * k + 64 * (len / 64)) % 64 = 0 by omega, List.drop_zero]
  rw [xofMany_root, hlast, ← streamBytes_add, Nat.div_add_mod]

/-- A piece of one root block is a piece of the output stream. -/
theorem take_drop_root (f : Compress) (self : Output) {pos len : ℕ} (h : pos % 64 + len ≤ 64) :
    ((compressXof f self.inputChainingValue self.block self.blockLen (UInt64.ofNat (pos / 64))
      (self.flags ||| ByteFlag.root)).toList.drop (pos % 64)).take len =
        streamBytes f self.node pos len := by
  rw [compressXof_root, streamBytes_block _ _ h]

end Output

/-! ### Chaining values as bytes -/

section Bytes

variable (f : Compress) (key : CVWords) (flags : Word)

/-- The parent of two chaining values that are given as bytes. -/
def parentOf (left right : CVBytes) : CompressInput :=
  parentNode key flags (wordsFromLeBytes32 left) (wordsFromLeBytes32 right)

/-- The chaining value of a node as bytes. -/
def cvBytes (node : CompressInput) : CVBytes := leBytesFromWords32 (cvOf f node)

abbrev parentBytes (left right : CVBytes) : CVBytes := cvBytes f (parentOf key flags left right)

/-- The leaves of the tree as bytes. -/
def chunkBytes (ctr : UInt64) (bytes : List Byte) : List CVBytes :=
  chunkMap (fun c b => cvBytes f (chunkNode f key flags c b)) ctr bytes

theorem map_chunkCvs (ctr : UInt64) (bytes : List Byte) :
    (chunkCvs f key flags ctr bytes).map leBytesFromWords32 = chunkBytes f key flags ctr bytes :=
  map_chunkMap _ _ ctr bytes

@[simp] theorem length_chunkBytes (ctr : UInt64) (bytes : List Byte) :
    (chunkBytes f key flags ctr bytes).length = (bytes.length + 1023) / 1024 :=
  length_chunkMap _ ctr bytes

/-- The chunks on the left side of the tree. -/
theorem chunkBytes_take (ctr : UInt64) {bytes : List Byte} {k : ℕ} (hk : 1024 * k ≤ bytes.length) :
    chunkBytes f key flags ctr (bytes.take (1024 * k)) =
      (chunkBytes f key flags ctr bytes).take k := (take_chunkMap _ ctr hk).symm

/-- The chunks on the right side of the tree, numbered on. -/
theorem chunkBytes_drop (ctr : UInt64) {bytes : List Byte} {k : ℕ} (hk : 1024 * k ≤ bytes.length) :
    chunkBytes f key flags (ctr + UInt64.ofNat k) (bytes.drop (1024 * k)) =
      (chunkBytes f key flags ctr bytes).drop k := (drop_chunkMap _ ctr hk).symm

theorem leBytes_parentCv (left right : CVWords) :
    leBytesFromWords32 (parentCv f key flags left right) =
      parentBytes f key flags (leBytesFromWords32 left) (leBytesFromWords32 right) := by
  simp [parentCv, cvBytes, parentOf]

/-- Folding bytes is folding words. -/
theorem fold_chunkBytes (ctr : UInt64) {bytes : List Byte} (h : 0 < bytes.length) :
    LeftTree.fold (parentBytes f key flags) (chunkBytes f key flags ctr bytes) =
      leBytesFromWords32 (subtreeCv f key flags ctr bytes) := by
  rw [subtreeCv, LeftTree.fold_map _ (leBytes_parentCv f key flags), map_chunkCvs]
  rw [chunkCvs, length_chunkMap]
  omega

/-- The root node from the two sides of the tree over bytes. -/
theorem rootNode_eq_parentOf {bytes : List Byte} (h : 1024 < bytes.length) :
    rootNode f key flags bytes =
      parentOf key flags (LeftTree.top (parentBytes f key flags) (chunkBytes f key flags 0 bytes)).1
        (LeftTree.top (parentBytes f key flags) (chunkBytes f key flags 0 bytes)).2 := by
  rw [← map_chunkCvs, LeftTree.top_map _ (leBytes_parentCv f key flags), rootNode,
    if_neg (by omega)]
  · simp [parentOf]
  · rw [chunkCvs, length_chunkMap]
    omega

end Bytes

/-! ### What the loops compute -/

def startFlagByte (blocks : ℕ) : Byte := if blocks = 0 then ByteFlag.chunkStart else 0

@[simp] theorem startFlagByte_toUInt32 (blocks : ℕ) :
    (startFlagByte blocks).toUInt32 = startFlag blocks := by
  unfold startFlagByte startFlag
  split <;> rfl

section Loops

variable (f : Compress) (b : Build) (key : CVWords) (flags : Byte)

/-- Whole blocks are compressed one after the other, the last one as the end
of the chunk. -/
theorem hashBlocks_chunk (ctr : UInt64) {k : ℕ} (p : Pending)
    (hlen : p.rest.length = 64 * (k + 1)) :
    hashBlocks f flags ByteFlag.chunkEnd ctr (k + 1) p.cv
      (flags ||| startFlagByte p.blocks) p.rest =
      cvOf f ((p.absorb f ctr flags.toUInt32).node ctr flags.toUInt32) := by
  induction k generalizing p with
  | zero =>
      have hrest : p.rest.length = 64 := by omega
      rw [Pending.absorb_of_le hrest.le]
      simp [hashBlocks, compressInPlace, cvOf, Pending.node, blockNode, hrest]
  | succ k ih =>
      have hstep : compressInPlace f p.cv (blockOfBytes p.rest) 64 ctr
          (flags ||| startFlagByte p.blocks) = (p.step f ctr flags.toUInt32).cv := by
        simp [compressInPlace, Pending.step, cvOf, Pending.blockInput, blockNode]
      have hflags : flags ||| startFlagByte (p.step f ctr flags.toUInt32).blocks = flags := by
        simp [startFlagByte, Pending.step]
      have hnext := ih (p.step f ctr flags.toUInt32)
        (by simp only [Pending.step, List.length_drop]; omega)
      rw [hflags] at hnext
      rw [hashBlocks, if_neg (by omega), hstep, Pending.absorb_of_lt (by omega), ← hnext]
      rfl

theorem hashOne_chunk (ctr : UInt64) {chunk : List Byte} (hlen : chunk.length = 1024) :
    hashOne f key flags ByteFlag.chunkStart ByteFlag.chunkEnd chunk 16 ctr =
      cvBytes f (chunkNode f key flags.toUInt32 ctr chunk) := by
  have h := hashBlocks_chunk f flags ctr (k := 15) ((Pending.empty key).extend chunk)
    (by simpa [Pending.empty] using hlen)
  rw [hashOne, cvBytes, chunkNode, pendingOf, ← h]
  simp [Pending.empty, startFlagByte]

/-- The bytes of two chaining values side by side. -/
theorem blockOfBytes_pair (left right : CVBytes) :
    blockOfBytes (left.toList ++ right.toList) = parentBlock left right := by
  apply Vector.ext
  intro i hi
  simp only [blockOfBytes, parentBlock, Vector.getElem_ofFn, List.getD_eq_getElem?_getD,
    List.getElem?_append, Vector.length_toList]
  by_cases h : i < 32
  · simp [h]
  · simp [h, show i - 32 < 32 by omega]

theorem hashOne_parent (left right : CVBytes) :
    hashOne f key (flags ||| ByteFlag.parent) 0 0 (left.toList ++ right.toList) 1 0 =
      parentBytes f key flags.toUInt32 left right := by
  simp [hashOne, hashBlocks, compressInPlace, blockNode, blockOfBytes_pair, parentBytes, cvBytes,
    cvOf, parentOf, parentNode, wordsFromLeBytes64_parentBlock]

/-- Whole chunks, hashed with a counter that goes up. -/
theorem hashMany_chunks (k : ℕ) (ctr : UInt64) (input : List Byte)
    (hlen : 1024 * k ≤ input.length) (hctr : b.overflowChecks = false ∨ ctr.toNat + k < 2 ^ 64) :
    hashMany f b key flags ByteFlag.chunkStart ByteFlag.chunkEnd 16 true (pieces 1024 k input) ctr =
      .ok (chunkBytes f key flags.toUInt32 ctr (input.take (1024 * k))) := by
  induction k generalizing ctr input with
  | zero => simp [pieces, hashMany, chunkBytes]
  | succ k ih =>
      have hone : (1 : UInt64).toNat = 1 := rfl
      have hadd : b.addU64 ctr 1 = .ok (ctr + 1) := by
        rcases hctr with hwrap | hlt
        · exact if_neg (by simp [hwrap])
        · exact b.addU64_of_lt (by rw [hone]; omega)
      have hnext := ih (ctr + 1) (input.drop 1024)
        (by rw [List.length_drop]; omega)
        (hctr.imp_right fun h => by rw [UInt64.toNat_add, hone]; omega)
      have hcons : chunkBytes f key flags.toUInt32 ctr (input.take (1024 * (k + 1))) =
          cvBytes f (chunkNode f key flags.toUInt32 ctr (input.take 1024)) ::
            chunkBytes f key flags.toUInt32 (ctr + 1) ((input.drop 1024).take (1024 * k)) := by
        rw [chunkBytes, chunkMap_cons _ _ (by rw [List.length_take]; omega), List.take_take,
          Nat.min_eq_left (by omega), List.drop_take, Nat.mul_succ, Nat.add_sub_cancel]
        rfl
      rw [pieces, hashMany, if_pos rfl, hadd]
      simp only [Result.ok_bind, hnext]
      rw [hcons, hashOne_chunk f key flags ctr (by rw [List.length_take]; omega)]
      rfl

/-- Parents of neighbouring chaining values. -/
theorem hashMany_parents (cvs : List CVBytes) :
    hashMany f b key (flags ||| ByteFlag.parent) 0 0 1 false
        (pieces 64 (cvs.length / 2) (cvs.flatMap Vector.toList)) 0 =
      .ok ((LeftTree.pairs (parentBytes f key flags.toUInt32) cvs).take (cvs.length / 2)) := by
  induction cvs using LeftTree.pairs.induct with
  | case1 left right cvs ih =>
      have hcount : (left :: right :: cvs).length / 2 = cvs.length / 2 + 1 := by
        simp only [List.length_cons]
        omega
      have hbytes : (left :: right :: cvs).flatMap Vector.toList =
          (left.toList ++ right.toList) ++ cvs.flatMap Vector.toList := by simp
      have hpair : (left.toList ++ right.toList).length = 64 := by simp
      rw [hcount, hbytes, pieces, List.take_left' hpair, List.drop_left' hpair, hashMany,
        if_neg (by simp)]
      simp only [Result.ok_bind, ih]
      rw [hashOne_parent, LeftTree.pairs, List.take_succ_cons]
      rfl
  | case2 cvs h =>
      obtain _ | ⟨a, _ | ⟨b, l⟩⟩ := cvs
      · simp [pieces, hashMany]
      · simp [pieces, hashMany]
      · exact absurd rfl (h a b l)

end Loops

end Blake3
