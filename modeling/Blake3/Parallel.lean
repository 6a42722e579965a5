import Blake3.ChunkState
import Blake3.Lib.Batched

/-!
Hashing several chunks or several parents at a time, as `c/blake3.c` and
`src/lib.rs` do it. The chaining values written to `out` are returned in
order; writing more of them than `out` has space for is a fault. The C
assertions are checked in test builds only and are the debug assertions of
Rust.
-/

namespace Blake3

/-- The degree that was detected, and the largest one of the target. -/
structure Simd where
  degree : ℕ
  maxDegree : ℕ
  degree_pow : ∃ i, degree = 2 ^ i
  degree_le : degree ≤ maxDegree

namespace Simd

/-- A target without vector instructions. -/
def portable : Simd :=
  { degree := 1, maxDegree := 1, degree_pow := ⟨0, rfl⟩, degree_le := Nat.le_refl 1 }

def maxDegreeOr2 (simd : Simd) : ℕ := max simd.maxDegree 2

theorem degree_pos (simd : Simd) : 0 < simd.degree := by
  obtain ⟨i, hi⟩ := simd.degree_pow
  rw [hi]
  exact Nat.two_pow_pos i

theorem max_degree_le (simd : Simd) : max simd.degree 2 ≤ simd.maxDegreeOr2 := by
  have := simd.degree_le
  unfold maxDegreeOr2
  omega

/-- Half of the arrays holds the parents of what a whole array may hold. -/
theorem half_le (simd : Simd) {n : ℕ} (hn : n ≤ max simd.degree 2) :
    (n + 1) / 2 ≤ simd.maxDegreeOr2 / 2 := by
  have hmax := simd.max_degree_le
  obtain ⟨i, hi⟩ := simd.degree_pow
  cases i with
  | zero =>
      rw [Nat.pow_zero] at hi
      omega
  | succ i =>
      rw [Nat.pow_succ] at hi
      omega

end Simd

section

variable (f : Compress) (b : Build) (simd : Simd) (key : CVWords) (flags : Byte)

def compressChunksParallel (outLen : ℕ) (input : List Byte) (chunkCounter : UInt64) :
    Result (List CVBytes) := do
  b.debugAssert (input ≠ [])
  b.debugAssert (input.length ≤ simd.maxDegree * 1024)
  let chunksArrayLen := input.length / 1024
  if simd.maxDegree < chunksArrayLen then throw .outOfBounds
  else
    let cvs ← hashMany f b key flags ByteFlag.chunkStart ByteFlag.chunkEnd 16 true
      (pieces 1024 chunksArrayLen input) chunkCounter
    let cvs ← hashRemainder cvs chunksArrayLen (input.drop (1024 * chunksArrayLen))
    if outLen < cvs.length then throw .outOfBounds else return cvs
where
  /-- Hash the remaining partial chunk, if there is one. -/
  hashRemainder (cvs : List CVBytes) (chunksArrayLen : ℕ) (remainder : List Byte) :
      Result (List CVBytes) := do
    if remainder = [] then return cvs
    else
      let counter ← b.addU64 chunkCounter (UInt64.ofNat chunksArrayLen)
      let chunkState ← (ChunkState.new key counter flags).update f b remainder
      return cvs ++ [chunkState.output.chainingValue f]

def compressParentsParallel (outLen : ℕ) (childChainingValues : List CVBytes) :
    Result (List CVBytes) := do
  b.debugAssert (2 ≤ childChainingValues.length)
  b.debugAssert (childChainingValues.length ≤ 2 * simd.maxDegreeOr2)
  let parentsArrayLen := childChainingValues.length / 2
  if simd.maxDegreeOr2 < parentsArrayLen then throw .outOfBounds
  else
    let cvs ← hashMany f b key (flags ||| ByteFlag.parent) 0 0 1 false
      (pieces 64 parentsArrayLen (childChainingValues.flatMap Vector.toList)) 0
    -- If there's an odd child left over, it becomes an output.
    let cvs := cvs ++ childChainingValues.drop (2 * parentsArrayLen)
    if outLen < cvs.length then throw .outOfBounds else return cvs

/-- As many values are written as there are parents, and the odd child. -/
theorem length_of_compressParentsParallel {outLen : ℕ} {cvs next : List CVBytes}
    (h : compressParentsParallel f b simd key flags outLen cvs = .ok next) :
    next.length = (cvs.length + 1) / 2 := by
  simp only [compressParentsParallel, hashMany_parents, Result.bind_eq_ok] at h
  obtain ⟨-, -, -, -, h⟩ := h
  have hlen := LeftTree.length_pairs (parentBytes f key flags.toUInt32) cvs
  rw [← LeftTree.take_pairs_append_drop] at hlen
  split at h
  · cases h
  · simp only [Result.ok_bind] at h
    split at h
    · cases h
    · cases h
      exact hlen

/-- Condense the chaining values by forming parent nodes repeatedly. -/
def condenseCvs (cvs : List CVBytes) : Result (List CVBytes) :=
  if 2 < cvs.length then
    match _h : compressParentsParallel f b simd key flags (simd.maxDegreeOr2 / 2) cvs with
    | .error e => .error e
    | .ok next => condenseCvs next
  else .ok cvs
termination_by cvs.length
decreasing_by
  rw [length_of_compressParentsParallel f b simd key flags _h]
  omega

/-- The two chaining values at the front of an array. -/
def firstPair : List CVBytes → Result (CVBytes × CVBytes)
  | left :: right :: _ => .ok (left, right)
  | _ => .error .uninitialized

/-! ### What is written -/

theorem chunk_output (ctr : UInt64) (chunk : List Byte) :
    (ChunkState.ofPending ctr flags
      (pendingOf f key flags.toUInt32 ctr chunk)).output.chainingValue f =
      cvBytes f (chunkNode f key flags.toUInt32 ctr chunk) := by
  rw [Output.chainingValue_eq, ChunkState.output_ofPending]
  rfl

/-- A partial chunk behind `k` whole ones. -/
theorem hashRemainder_eq (ctr : UInt64) {k : ℕ} {whole remainder : List Byte}
    (hwhole : whole.length = 1024 * k) (hle : remainder.length ≤ 1024)
    (hctr : b.overflowChecks = false ∨ ctr.toNat + k < 2 ^ 64) :
    compressChunksParallel.hashRemainder f b key flags ctr
        (chunkBytes f key flags.toUInt32 ctr whole) k remainder =
      .ok (chunkBytes f key flags.toUInt32 ctr (whole ++ remainder)) := by
  have hsplit : chunkBytes f key flags.toUInt32 ctr (whole ++ remainder) =
      chunkBytes f key flags.toUInt32 ctr whole ++
        chunkBytes f key flags.toUInt32 (ctr + UInt64.ofNat k) remainder :=
    chunkMap_append _ ctr hwhole remainder
  by_cases hnil : remainder = []
  · subst hnil
    rw [compressChunksParallel.hashRemainder, if_pos rfl, List.append_nil]
    rfl
  · have hadd : b.addU64 ctr (UInt64.ofNat k) = .ok (ctr + UInt64.ofNat k) := by
      rcases hctr with hwrap | hlt
      · exact if_neg (by simp [hwrap])
      · exact b.addU64_of_lt (by rw [toNat_ofNat64 (by omega)]; exact hlt)
    rw [compressChunksParallel.hashRemainder, if_neg hnil, hadd, Result.ok_bind,
      ChunkState.update_new f b flags _ key hle, Result.ok_bind, chunk_output, hsplit, chunkBytes,
      chunkBytes, chunkMap_of_le _ (List.length_pos_iff.mpr hnil) hle]
    rfl

theorem compressChunksParallel_eq (outLen : ℕ) {input : List Byte} {ctr : UInt64}
    (hpos : 0 < input.length) (hle : input.length ≤ simd.degree * 1024)
    (hout : (input.length + 1023) / 1024 ≤ outLen)
    (hctr : b.overflowChecks = false ∨ ctr.toNat + (input.length + 1023) / 1024 < 2 ^ 64) :
    compressChunksParallel f b simd key flags outLen input ctr =
      .ok (chunkBytes f key flags.toUInt32 ctr input) := by
  have hmax : input.length ≤ simd.maxDegree * 1024 :=
    hle.trans (Nat.mul_le_mul_right 1024 simd.degree_le)
  have hwhole : (input.take (1024 * (input.length / 1024))).length =
      1024 * (input.length / 1024) := by
    rw [List.length_take]
    omega
  have hchunks := hashMany_chunks f b key flags (input.length / 1024) ctr input (by omega)
    (hctr.imp_right fun h => by omega)
  rw [compressChunksParallel, b.debugAssert_of (List.ne_nil_of_length_pos hpos), Result.ok_bind,
    b.debugAssert_of hmax, Result.ok_bind]
  dsimp only
  rw [if_neg (by omega), hchunks, Result.ok_bind, hashRemainder_eq f b key flags ctr hwhole
    (by rw [List.length_drop]; omega) (hctr.imp_right fun h => by omega), Result.ok_bind,
    List.take_append_drop, if_neg (by rw [length_chunkBytes]; omega)]
  rfl

theorem compressParentsParallel_eq (outLen : ℕ) {cvs : List CVBytes} (hlong : 2 ≤ cvs.length)
    (hle : cvs.length ≤ 2 * simd.maxDegreeOr2) (hout : (cvs.length + 1) / 2 ≤ outLen) :
    compressParentsParallel f b simd key flags outLen cvs =
      .ok (LeftTree.pairs (parentBytes f key flags.toUInt32) cvs) := by
  have hlen := LeftTree.length_pairs (parentBytes f key flags.toUInt32) cvs
  rw [compressParentsParallel, b.debugAssert_of hlong, Result.ok_bind, b.debugAssert_of hle,
    Result.ok_bind]
  dsimp only
  rw [if_neg (by omega), hashMany_parents, Result.ok_bind, LeftTree.take_pairs_append_drop,
    if_neg (by omega)]
  rfl

theorem condenseCvs_eq {cvs : List CVBytes} (hlong : 2 ≤ cvs.length)
    (hle : cvs.length ≤ max simd.degree 2) :
    (condenseCvs f b simd key flags cvs >>= firstPair) =
      .ok (LeftTree.top (parentBytes f key flags.toUInt32) cvs) := by
  have hcond : condenseCvs f b simd key flags cvs =
      .ok (LeftTree.condense (parentBytes f key flags.toUInt32) cvs) := by
    induction cvs using LeftTree.condense.induct (parentBytes f key flags.toUInt32) with
    | case1 cvs h ih =>
        have hhalf := simd.half_le hle
        have hmax := simd.max_degree_le
        have hnext := compressParentsParallel_eq f b simd key flags (simd.maxDegreeOr2 / 2) hlong
          (by omega) hhalf
        have hlen := LeftTree.length_pairs (parentBytes f key flags.toUInt32) cvs
        rw [condenseCvs, if_pos h, LeftTree.condense, if_pos h, ← ih (by omega) (by omega)]
        split
        · next e he => rw [hnext] at he; cases he
        · next cvs' he => rw [hnext] at he; cases he; rfl
    | case2 cvs h => rw [condenseCvs, if_neg h, LeftTree.condense, if_neg h]
  rw [hcond, LeftTree.condense_eq_top _ hlong]
  rfl

end

end Blake3
