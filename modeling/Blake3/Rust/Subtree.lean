import Mathlib.Data.Nat.Log
import Blake3.Parallel
import Blake3.Stack
import Blake3.SubtreeLen

/-!
`compress_subtree_wide` of `src/lib.rs` and the functions that hash an input
all at once. The two halves of a split write to disjoint slices, so that they
cannot interfere; a join may evaluate them in any order.
-/

namespace Blake3.Rust

open LeftTree CarryStack

/-! ### Sizes -/

/-- The smallest power of two that is not less than `x`. -/
def nextPowerOfTwo (b : Build) (x : UInt64) : Result UInt64 :=
  let n := 2 ^ Nat.clog 2 x.toNat
  if n < 2 ^ 64 then .ok (UInt64.ofNat n)
  else if b.overflowChecks then .error .overflow else .ok 0

def leftSubtreeLen (b : Build) (inputLen : UInt64) : Result UInt64 := do
  b.debugAssert (1024 < inputLen)
  let n ← b.addU64 inputLen 1
  nextPowerOfTwo b (n / 2)

theorem clog_eq {n k : ℕ} (hlow : 2 ^ k < 2 * n) (hhigh : n ≤ 2 ^ k) : Nat.clog 2 n = k := by
  apply le_antisymm
  · exact Nat.clog_le_of_le_pow hhigh
  · cases k with
    | zero => exact Nat.zero_le _
    | succ k =>
        apply Nat.succ_le_of_lt
        rw [Nat.lt_clog_iff_pow_lt (by omega)]
        rw [Nat.pow_succ] at hlow
        omega

theorem nextPowerOfTwo_eq (b : Build) {n k : ℕ} (hlow : 2 ^ k < 2 * n) (hhigh : n ≤ 2 ^ k)
    (hk : k < 64) : nextPowerOfTwo b (UInt64.ofNat n) = .ok (UInt64.ofNat (2 ^ k)) := by
  have hlt : 2 ^ k < 2 ^ 64 := Nat.pow_lt_pow_right (by omega) hk
  have hclog := clog_eq hlow hhigh
  rw [nextPowerOfTwo, toNat_ofNat64 (by omega), hclog]
  exact if_pos hlt

/-- The left side of a split holds as many chunks as the left side of the tree. -/
theorem leftSubtreeLen_eq (b : Build) {n : ℕ} (h : 1024 < n) (hn : n + 1 < 2 ^ 64) :
    leftSubtreeLen b (UInt64.ofNat n) =
      .ok (UInt64.ofNat (1024 * leftLen ((n + 1023) / 1024))) := by
  have hchunks : (n + 1023) / 1024 - 1 = (n - 1) / 1024 := by omega
  have hlow := Nat.log2_self_le (n := (n - 1) / 1024) (by omega)
  have hhigh := Nat.lt_log2_self (n := (n - 1) / 1024)
  rw [leftLen, hchunks]
  generalize ((n - 1) / 1024).log2 = k at *
  have hpow : 2 ^ (k + 10) = 1024 * 2 ^ k := by
    rw [Nat.pow_add, Nat.mul_comm]
  rw [Nat.pow_succ] at hhigh
  have hk : k + 10 < 64 := by
    rw [← Nat.pow_lt_pow_iff_right (a := 2) (by omega), hpow]
    omega
  have hassert : (1024 : UInt64) < UInt64.ofNat n := by
    rw [UInt64.lt_iff_toNat_lt, toNat_ofNat64 (by omega)]
    exact h
  have hadd : b.addU64 (UInt64.ofNat n) 1 = .ok (UInt64.ofNat (n + 1)) :=
    b.addU64_ofNat (y := 1) hn
  have hhalf : UInt64.ofNat (n + 1) / 2 = UInt64.ofNat ((n + 1) / 2) := by
    rw [← UInt64.toNat_inj, UInt64.toNat_div, toNat_ofNat64 hn, toNat_ofNat64 (by omega)]
    rfl
  rw [leftSubtreeLen, b.debugAssert_of hassert, Result.ok_bind, hadd, Result.ok_bind, hhalf,
    nextPowerOfTwo_eq b (k := k + 10) (by omega) (by omega) hk, hpow]

/-! ### Two halves -/

/-- How the two sides of a split are evaluated. Each side is a function of its
own input that writes to its own slice, so that when neither panics all a join
can do is return both values. -/
structure Join where
  join : Result (List CVBytes) → Result (List CVBytes) → Result (List CVBytes × List CVBytes)
  join_ok : ∀ l r, join (.ok l) (.ok r) = .ok (l, r)

namespace Join

/-- The left side first. -/
def serial : Join :=
  { join := fun left right => do
      let l ← left
      let r ← right
      return (l, r)
    join_ok := fun _ _ => rfl }

/-- The right side first. -/
def rightFirst : Join :=
  { join := fun left right => do
      let r ← right
      let l ← left
      return (l, r)
    join_ok := fun _ _ => rfl }

end Join

/-- A chaining value slot of a zeroed array. -/
def zeroCv : CVBytes := Vector.replicate 32 0

/-- The array that the two sides of a split have written to, the right one from
slot `degree` on. -/
def cvArray (simd : Simd) (degree : ℕ) (left right : List CVBytes) : List CVBytes :=
  left ++ List.replicate (degree - left.length) zeroCv ++ right ++
    List.replicate (2 * simd.maxDegreeOr2 - degree - right.length) zeroCv

section

variable (f : Compress) (b : Build) (simd : Simd) (join : Join) (key : CVWords) (flags : Byte)

/-- The slot at which the right half starts to write. -/
def splitDegree (leftInputLen : ℕ) : Result ℕ := do
  if leftInputLen = 1024 then
    -- The "simd_degree=1 and we're at the leaf nodes" case.
    b.debugAssert (simd.degree = 1)
    return 1
  else return max simd.degree 2

/-- What is made of the values of the two halves. -/
def compressHalves (outLen degree leftN rightN : ℕ) (cvArray : List CVBytes) :
    Result (List CVBytes) := do
  b.debugAssert (leftN = degree)
  b.debugAssert (1 ≤ rightN ∧ rightN ≤ leftN)
  if leftN = 1 then
    if outLen < 2 then throw .outOfBounds else return cvArray.take 2
  -- Otherwise, do one layer of parent node compression.
  else compressParentsParallel f b simd key flags outLen (cvArray.take (leftN + rightN))

/-- The chaining values written to `out`, which has space for `outLen` of them. -/
def compressSubtreeWide (outLen : ℕ) (input : List Byte) (chunkCounter : UInt64) :
    Result (List CVBytes) := do
  if input.length ≤ simd.degree * 1024 then
    compressChunksParallel f b simd key flags outLen input chunkCounter
  else
    b.debugAssert (popcount simd.degree = 1)
    let mid ← leftSubtreeLen b (UInt64.ofNat input.length)
    -- `split_at` panics behind the end; neither side of the split is empty
    if _h : 0 < mid.toNat ∧ mid.toNat < input.length then
      let left := input.take mid.toNat
      let right := input.drop mid.toNat
      let rightChunkCounter ← b.addU64 chunkCounter (UInt64.ofNat (left.length / 1024))
      let degree ← splitDegree b simd left.length
      let (leftCvs, rightCvs) ← join.join
        (compressSubtreeWide degree left chunkCounter)
        (compressSubtreeWide (2 * simd.maxDegreeOr2 - degree) right rightChunkCounter)
      compressHalves f b simd key flags outLen degree leftCvs.length rightCvs.length
        (cvArray simd degree leftCvs rightCvs)
    else throw .outOfBounds
termination_by input.length
decreasing_by
  · simp only [List.length_take]
    omega
  · simp only [List.length_drop]
    omega

def compressSubtreeToParentNode (input : List Byte) (chunkCounter : UInt64) :
    Result (CVBytes × CVBytes) := do
  b.debugAssert (1024 < input.length)
  let cvs ← compressSubtreeWide f b simd join key flags simd.maxDegreeOr2 input chunkCounter
  b.debugAssert (2 ≤ cvs.length)
  let cvs ← condenseCvs f b simd key flags cvs
  return (cvs.getD 0 zeroCv, cvs.getD 1 zeroCv)

/-- The block of a parent is made of the chaining values of its children. -/
def parentNodeOutput (leftChild rightChild : CVBytes) (key : CVWords) (flags : Byte) : Output :=
  { inputChainingValue := key, block := parentBlock leftChild rightChild, blockLen := 64,
    counter := 0, flags := flags ||| ByteFlag.parent }

def hashAllAtOnce (input : List Byte) : Result Output := do
  -- If the whole subtree is one chunk, hash it directly with a ChunkState.
  if input.length ≤ 1024 then
    let chunkState ← (ChunkState.new key 0 flags).update f b input
    return chunkState.output
  else
    let block ← compressSubtreeToParentNode f b simd join key flags input 0
    return parentNodeOutput block.1 block.2 key flags

end

/-- The first 32 bytes of the output. -/
def rootHash (f : Compress) (b : Build) (self : Output) : Result CVBytes := do
  b.debugAssert (self.counter = 0)
  return leBytesFromWords32 (compressInPlace f self.inputChainingValue self.block self.blockLen 0
    (self.flags ||| ByteFlag.root))

/-! ### What is written -/

section

variable (f : Compress) (b : Build) (simd : Simd) (join : Join) (key : CVWords) (flags : Byte)

/-- The right half starts where the values of the left half end. -/
theorem splitDegree_eq {α : Type} (op : α → α → α) {l : List α} (h : simd.degree < l.length) :
    splitDegree b simd (1024 * leftLen l.length) =
      .ok (batched op simd.degree (l.take (leftLen l.length))).length := by
  obtain ⟨i, hi⟩ := simd.degree_pow
  have hpos := simd.degree_pos
  have hleft := leftLen_pos l.length
  have hle := le_leftLen hi h
  rw [length_batched_left op hi h, splitDegree]
  by_cases hone : 1024 * leftLen l.length = 1024
  · have hdegree : simd.degree = 1 := by omega
    rw [if_pos hone, b.debugAssert_of hdegree, if_neg (by omega), hdegree]
    rfl
  · rw [if_neg hone]
    apply congrArg Except.ok
    split <;> omega

/-- The values of both halves lie one after the other. -/
theorem take_cvArray (left right : List CVBytes) :
    (cvArray simd left.length left right).take (left.length + right.length) = left ++ right := by
  rw [cvArray, Nat.sub_self, List.replicate_zero, List.append_nil]
  exact List.take_left' List.length_append

theorem compressHalves_eq {outLen : ℕ} {left right : List CVBytes} (hright : 0 < right.length)
    (hle : right.length ≤ left.length) (hleft : left.length ≤ max simd.degree 2)
    (hout : (if left.length = 1 then left ++ right
      else pairs (parentBytes f key flags.toUInt32) (left ++ right)).length ≤ outLen) :
    compressHalves f b simd key flags outLen left.length left.length right.length
        (cvArray simd left.length left right) =
      .ok (if left.length = 1 then left ++ right
        else pairs (parentBytes f key flags.toUInt32) (left ++ right)) := by
  have hmax := simd.max_degree_le
  have htake := take_cvArray simd left right
  have hlen : (left ++ right).length = left.length + right.length := List.length_append
  rw [compressHalves, b.debugAssert_of rfl, Result.ok_bind, b.debugAssert_of ⟨hright, hle⟩,
    Result.ok_bind]
  by_cases hone : left.length = 1
  · have htwo : left.length + right.length = 2 := by omega
    rw [if_pos hone] at hout
    rw [htwo] at htake
    rw [if_pos hone, if_pos hone, if_neg (by omega), htake]
    rfl
  · rw [if_neg hone, length_pairs, hlen] at hout
    rw [if_neg hone, if_neg hone, htake]
    exact compressParentsParallel_eq f b simd key flags outLen (by omega) (by omega) (by omega)

/-- The batched reduction of the chunks, for any degree and any join. -/
theorem compressSubtreeWide_eq (outLen : ℕ) {input : List Byte} {ctr : UInt64}
    (hpos : 0 < input.length) (hlen : input.length + 1 < 2 ^ 64)
    (hctr : ctr.toNat + (input.length + 1023) / 1024 < 2 ^ 64)
    (hout : (batched (parentBytes f key flags.toUInt32) simd.degree
      (chunkBytes f key flags.toUInt32 ctr input)).length ≤ outLen) :
    compressSubtreeWide f b simd join key flags outLen input ctr =
      .ok (batched (parentBytes f key flags.toUInt32) simd.degree
        (chunkBytes f key flags.toUInt32 ctr input)) := by
  -- on the length of the input, which both halves make shorter
  induction hn : input.length using Nat.strong_induction_on generalizing input ctr outLen with
  | _ n ih =>
    subst hn
    obtain ⟨i, hdegree⟩ := simd.degree_pow
    have hdpos := simd.degree_pos
    have hmax := simd.max_degree_le
    have hcount := length_chunkBytes f key flags.toUInt32 ctr input
    rw [compressSubtreeWide]
    by_cases hle : input.length ≤ simd.degree * 1024
    · rw [batched_of_le _ (by omega)] at hout ⊢
      rw [if_pos hle]
      exact compressChunksParallel_eq f b simd key flags outLen hpos hle (by omega) (.inr hctr)
    · have hpow : popcount simd.degree = 1 := by
        rw [hdegree, popcount, Nat.bitIndices_two_pow, List.length_singleton]
      have hmid := leftSubtreeLen_eq b (n := input.length) (by omega) hlen
      rw [← hcount] at hmid
      have hlt := leftLen_lt (n := (chunkBytes f key flags.toUInt32 ctr input).length) (by omega)
      have hgt := leftLen_pos (chunkBytes f key flags.toUInt32 ctr input).length
      -- the left half is a whole number of chunks, so the leaves are cut where the input is
      have hfit : 1024 * leftLen (chunkBytes f key flags.toUInt32 ctr input).length ≤
          input.length := by omega
      have htake := chunkBytes_take f key flags.toUInt32 ctr hfit
      have hdrop := chunkBytes_drop f key flags.toUInt32 ctr hfit
      generalize chunkBytes f key flags.toUInt32 ctr input = leaves at *
      have hdeg := splitDegree_eq b simd (parentBytes f key flags.toUInt32) (l := leaves) (by omega)
      have hleftle := length_batched_le (parentBytes f key flags.toUInt32) simd.degree
        (leaves.take (leftLen leaves.length))
      have hrightle := length_batched_right_le (parentBytes f key flags.toUInt32) hdegree
        (l := leaves) (by omega)
      have hrightpos := length_batched_pos (parentBytes f key flags.toUInt32) simd.degree
        (l := leaves.drop (leftLen leaves.length)) (by rw [List.length_drop]; omega)
      have hsplit := batched_split (parentBytes f key flags.toUInt32) (d := simd.degree)
        (l := leaves) (by omega)
      have hnat : (UInt64.ofNat (1024 * leftLen leaves.length)).toNat =
          1024 * leftLen leaves.length := toNat_ofNat64 (by omega)
      have hleftlen : (input.take (1024 * leftLen leaves.length)).length =
          1024 * leftLen leaves.length := by
        rw [List.length_take]
        omega
      have hrightlen : (input.drop (1024 * leftLen leaves.length)).length =
          input.length - 1024 * leftLen leaves.length := List.length_drop
      have hadd : b.addU64 ctr (UInt64.ofNat (leftLen leaves.length)) =
          .ok (ctr + UInt64.ofNat (leftLen leaves.length)) :=
        b.addU64_of_lt (by rw [toNat_ofNat64 (by omega)]; omega)
      have hctr' : (ctr + UInt64.ofNat (leftLen leaves.length)).toNat =
          ctr.toNat + leftLen leaves.length := by
        rw [UInt64.toNat_add, toNat_ofNat64 (by omega)]
        omega
      rw [hsplit] at hout ⊢
      rw [if_neg hle, b.debugAssert_of hpow, Result.ok_bind, hmid, Result.ok_bind, hnat,
        dif_pos (by omega)]
      dsimp only
      rw [hleftlen, Nat.mul_div_cancel_left _ (by omega), hadd, Result.ok_bind, hdeg,
        Result.ok_bind,
        ih _ (by omega) _ (by omega) (by omega) (by omega) (by rw [htake]) rfl,
        ih _ (by omega) _ (by omega) (by omega) (by omega) (by rw [hdrop]; omega) rfl,
        htake, hdrop, join.join_ok, Result.ok_bind]
      exact compressHalves_eq f b simd key flags hrightpos hrightle (by omega) hout

theorem compressSubtreeToParentNode_eq (input : List Byte) (ctr : UInt64)
    (hlong : 1024 < input.length) (hlen : input.length + 1 < 2 ^ 64)
    (hctr : ctr.toNat + (input.length + 1023) / 1024 < 2 ^ 64) :
    compressSubtreeToParentNode f b simd join key flags input ctr =
      .ok (top (parentBytes f key flags.toUInt32) (chunkBytes f key flags.toUInt32 ctr input)) := by
  obtain ⟨i, hdegree⟩ := simd.degree_pow
  have hmax := simd.max_degree_le
  have htwo : 2 ≤ (chunkBytes f key flags.toUInt32 ctr input).length := by
    rw [length_chunkBytes]
    omega
  have hle := length_batched_le (parentBytes f key flags.toUInt32) simd.degree
    (chunkBytes f key flags.toUInt32 ctr input)
  have hge := two_le_length_batched (parentBytes f key flags.toUInt32) simd.degree htwo
  have hwide := compressSubtreeWide_eq f b simd join key flags simd.maxDegreeOr2 (by omega)
    hlen hctr (by omega)
  have hcond := condenseCvs_eq f b simd key flags hge hle.2
  rw [top_batched _ hdegree htwo] at hcond
  obtain ⟨cvs, hrun, hpair⟩ := Result.bind_eq_ok.mp hcond
  rw [compressSubtreeToParentNode, b.debugAssert_of hlong, Result.ok_bind, hwide, Result.ok_bind,
    b.debugAssert_of hge, Result.ok_bind, hrun, Result.ok_bind]
  match cvs, hpair with
  | left :: right :: _, hpair => exact hpair

/-! ### The root of the tree -/

theorem node_parentNodeOutput (left right : CVBytes) :
    (parentNodeOutput left right key flags).node = parentOf key flags.toUInt32 left right := by
  simp [parentNodeOutput, Output.node, blockNode, parentOf, parentNode,
    wordsFromLeBytes64_parentBlock]

theorem chainingValue_parentNodeOutput (left right : CVBytes) :
    (parentNodeOutput left right key flags).chainingValue f =
      parentBytes f key flags.toUInt32 left right := by
  rw [Output.chainingValue_eq, node_parentNodeOutput]
  rfl

/-- The root of the tree over the input, for any degree and any join. -/
theorem hashAllAtOnce_eq (input : List Byte) (hlen : input.length + 1 < 2 ^ 64) :
    ∃ o, hashAllAtOnce f b simd join key flags input = .ok o ∧ o.counter = 0 ∧
      o.node = rootNode f key flags.toUInt32 input := by
  rw [hashAllAtOnce]
  by_cases hle : input.length ≤ 1024
  · refine ⟨(ChunkState.ofPending 0 flags (pendingOf f key flags.toUInt32 0 input)).output, ?_, rfl,
      ?_⟩
    · rw [if_pos hle, ChunkState.update_new f b flags _ key hle, Result.ok_bind]
      rfl
    · rw [ChunkState.output_ofPending, rootNode, if_pos hle]
      rfl
  · have hpair := compressSubtreeToParentNode_eq f b simd join key flags input 0 (by omega)
      hlen (by rw [UInt64.toNat_zero]; omega)
    rw [if_neg hle, hpair]
    refine ⟨_, rfl, rfl, ?_⟩
    rw [node_parentNodeOutput, rootNode_eq_parentOf _ _ _ (by omega)]

end

/-- The hash is the front of the output stream. -/
theorem rootHash_eq (f : Compress) (b : Build) {o : Output} (hctr : o.counter = 0) :
    ∃ h, rootHash f b o = .ok h ∧ h.toList = streamBytes f o.node 0 32 := by
  rw [rootHash, b.debugAssert_of hctr, Result.ok_bind, compressInPlace]
  refine ⟨_, rfl, ?_⟩
  rw [streamBytes_hash]
  simp [Output.node, blockNode]

/-! ### The three modes -/

section

variable (f : Compress) (b : Build) (simd : Simd)

def hash (input : List Byte) : Result CVBytes := do
  rootHash f b (← hashAllAtOnce f b simd .serial iv 0 input)

def keyedHash (key : CVBytes) (input : List Byte) : Result CVBytes := do
  rootHash f b (← hashAllAtOnce f b simd .serial (wordsFromLeBytes32 key) ByteFlag.keyedHash input)

def hashDeriveKeyContext (context : List Byte) : Result CVBytes := do
  rootHash f b (← hashAllAtOnce f b simd .serial iv ByteFlag.deriveKeyContext context)

def deriveKey (context keyMaterial : List Byte) : Result CVBytes := do
  let contextKey ← hashDeriveKeyContext f b simd context
  rootHash f b (← hashAllAtOnce f b simd .serial (wordsFromLeBytes32 contextKey)
    ByteFlag.deriveKeyMaterial keyMaterial)

end

end Blake3.Rust
