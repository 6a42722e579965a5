import Blake3.Simd.Lanes

/-!
The transpositions, by which the words of several inputs come to lie in the
lanes of registers and the results back into rows, and the counters of the
lanes. A network of unpacking instructions is checked on the matrix of places.
-/

namespace Blake3.Simd

open Registers

/-! ### Networks -/

/-- `transpose_vecs` of `c/blake3_sse2.c`, `c/blake3_sse41.c` and `c/blake3_avx512.c` -/
def transposeVecs128 (α : Type) (vecs : Fin 4 → Reg 4 α) : Fin 4 → Reg 4 α :=
  -- Interleave 32-bit lanes.
  let ab_01 := unpackloEpi32 (vecs 0) (vecs 1)
  let ab_23 := unpackhiEpi32 (vecs 0) (vecs 1)
  let cd_01 := unpackloEpi32 (vecs 2) (vecs 3)
  let cd_23 := unpackhiEpi32 (vecs 2) (vecs 3)
  -- Interleave 64-bit lanes.
  let abcd_0 := unpackloEpi64 ab_01 cd_01
  let abcd_1 := unpackhiEpi64 ab_01 cd_01
  let abcd_2 := unpackloEpi64 ab_23 cd_23
  let abcd_3 := unpackhiEpi64 ab_23 cd_23
  ![abcd_0, abcd_1, abcd_2, abcd_3]

/-- `transpose_vecs_128` of `c/blake3_neon.c` -/
def transposeVecsNeon (α : Type) (vecs : Fin 4 → Reg 4 α) : Fin 4 → Reg 4 α :=
  -- Individually transpose the four 2x2 sub-matrices in each corner.
  let rows01_0 := trnEven (vecs 0) (vecs 1)
  let rows01_1 := trnOdd (vecs 0) (vecs 1)
  let rows23_0 := trnEven (vecs 2) (vecs 3)
  let rows23_1 := trnOdd (vecs 2) (vecs 3)
  -- Swap the top-right and bottom-left 2x2s.
  ![combineLow rows01_0 rows23_0, combineLow rows01_1 rows23_1, combineHigh rows01_0 rows23_0,
    combineHigh rows01_1 rows23_1]

/-- `transpose_vecs` of `c/blake3_avx2.c`, `transpose_vecs_256` of `c/blake3_avx512.c` -/
def transposeVecs256 (α : Type) (vecs : Fin 8 → Reg 8 α) : Fin 8 → Reg 8 α :=
  -- Interleave 32-bit lanes.
  let ab_0145 := unpackloEpi32 (vecs 0) (vecs 1)
  let ab_2367 := unpackhiEpi32 (vecs 0) (vecs 1)
  let cd_0145 := unpackloEpi32 (vecs 2) (vecs 3)
  let cd_2367 := unpackhiEpi32 (vecs 2) (vecs 3)
  let ef_0145 := unpackloEpi32 (vecs 4) (vecs 5)
  let ef_2367 := unpackhiEpi32 (vecs 4) (vecs 5)
  let gh_0145 := unpackloEpi32 (vecs 6) (vecs 7)
  let gh_2367 := unpackhiEpi32 (vecs 6) (vecs 7)
  -- Interleave 64-bit lanes.
  let abcd_04 := unpackloEpi64 ab_0145 cd_0145
  let abcd_15 := unpackhiEpi64 ab_0145 cd_0145
  let abcd_26 := unpackloEpi64 ab_2367 cd_2367
  let abcd_37 := unpackhiEpi64 ab_2367 cd_2367
  let efgh_04 := unpackloEpi64 ef_0145 gh_0145
  let efgh_15 := unpackhiEpi64 ef_0145 gh_0145
  let efgh_26 := unpackloEpi64 ef_2367 gh_2367
  let efgh_37 := unpackhiEpi64 ef_2367 gh_2367
  -- Interleave 128-bit lanes.
  ![permute2x128 abcd_04 efgh_04 0x20, permute2x128 abcd_15 efgh_15 0x20,
    permute2x128 abcd_26 efgh_26 0x20, permute2x128 abcd_37 efgh_37 0x20,
    permute2x128 abcd_04 efgh_04 0x31, permute2x128 abcd_15 efgh_15 0x31,
    permute2x128 abcd_26 efgh_26 0x31, permute2x128 abcd_37 efgh_37 0x31]

section Unpack128

variable {α : Type}

def unpackLo128 (a b : Reg 16 α) : Reg 16 α := shuffleI32x4 a b 0x88

def unpackHi128 (a b : Reg 16 α) : Reg 16 α := shuffleI32x4 a b 0xdd

end Unpack128

/-- `transpose_vecs_512` of `c/blake3_avx512.c` -/
def transposeVecs512 (α : Type) (vecs : Fin 16 → Reg 16 α) : Fin 16 → Reg 16 α :=
  -- Interleave 32-bit lanes.
  let ab_0 := unpackloEpi32 (vecs 0) (vecs 1)
  let ab_2 := unpackhiEpi32 (vecs 0) (vecs 1)
  let cd_0 := unpackloEpi32 (vecs 2) (vecs 3)
  let cd_2 := unpackhiEpi32 (vecs 2) (vecs 3)
  let ef_0 := unpackloEpi32 (vecs 4) (vecs 5)
  let ef_2 := unpackhiEpi32 (vecs 4) (vecs 5)
  let gh_0 := unpackloEpi32 (vecs 6) (vecs 7)
  let gh_2 := unpackhiEpi32 (vecs 6) (vecs 7)
  let ij_0 := unpackloEpi32 (vecs 8) (vecs 9)
  let ij_2 := unpackhiEpi32 (vecs 8) (vecs 9)
  let kl_0 := unpackloEpi32 (vecs 10) (vecs 11)
  let kl_2 := unpackhiEpi32 (vecs 10) (vecs 11)
  let mn_0 := unpackloEpi32 (vecs 12) (vecs 13)
  let mn_2 := unpackhiEpi32 (vecs 12) (vecs 13)
  let op_0 := unpackloEpi32 (vecs 14) (vecs 15)
  let op_2 := unpackhiEpi32 (vecs 14) (vecs 15)
  -- Interleave 64-bit lanes.
  let abcd_0 := unpackloEpi64 ab_0 cd_0
  let abcd_1 := unpackhiEpi64 ab_0 cd_0
  let abcd_2 := unpackloEpi64 ab_2 cd_2
  let abcd_3 := unpackhiEpi64 ab_2 cd_2
  let efgh_0 := unpackloEpi64 ef_0 gh_0
  let efgh_1 := unpackhiEpi64 ef_0 gh_0
  let efgh_2 := unpackloEpi64 ef_2 gh_2
  let efgh_3 := unpackhiEpi64 ef_2 gh_2
  let ijkl_0 := unpackloEpi64 ij_0 kl_0
  let ijkl_1 := unpackhiEpi64 ij_0 kl_0
  let ijkl_2 := unpackloEpi64 ij_2 kl_2
  let ijkl_3 := unpackhiEpi64 ij_2 kl_2
  let mnop_0 := unpackloEpi64 mn_0 op_0
  let mnop_1 := unpackhiEpi64 mn_0 op_0
  let mnop_2 := unpackloEpi64 mn_2 op_2
  let mnop_3 := unpackhiEpi64 mn_2 op_2
  -- Interleave 128-bit lanes.
  let abcdefgh_0 := unpackLo128 abcd_0 efgh_0
  let abcdefgh_1 := unpackLo128 abcd_1 efgh_1
  let abcdefgh_2 := unpackLo128 abcd_2 efgh_2
  let abcdefgh_3 := unpackLo128 abcd_3 efgh_3
  let abcdefgh_4 := unpackHi128 abcd_0 efgh_0
  let abcdefgh_5 := unpackHi128 abcd_1 efgh_1
  let abcdefgh_6 := unpackHi128 abcd_2 efgh_2
  let abcdefgh_7 := unpackHi128 abcd_3 efgh_3
  let ijklmnop_0 := unpackLo128 ijkl_0 mnop_0
  let ijklmnop_1 := unpackLo128 ijkl_1 mnop_1
  let ijklmnop_2 := unpackLo128 ijkl_2 mnop_2
  let ijklmnop_3 := unpackLo128 ijkl_3 mnop_3
  let ijklmnop_4 := unpackHi128 ijkl_0 mnop_0
  let ijklmnop_5 := unpackHi128 ijkl_1 mnop_1
  let ijklmnop_6 := unpackHi128 ijkl_2 mnop_2
  let ijklmnop_7 := unpackHi128 ijkl_3 mnop_3
  -- Interleave 128-bit lanes again for the final outputs.
  ![unpackLo128 abcdefgh_0 ijklmnop_0, unpackLo128 abcdefgh_1 ijklmnop_1,
    unpackLo128 abcdefgh_2 ijklmnop_2, unpackLo128 abcdefgh_3 ijklmnop_3,
    unpackLo128 abcdefgh_4 ijklmnop_4, unpackLo128 abcdefgh_5 ijklmnop_5,
    unpackLo128 abcdefgh_6 ijklmnop_6, unpackLo128 abcdefgh_7 ijklmnop_7,
    unpackHi128 abcdefgh_0 ijklmnop_0, unpackHi128 abcdefgh_1 ijklmnop_1,
    unpackHi128 abcdefgh_2 ijklmnop_2, unpackHi128 abcdefgh_3 ijklmnop_3,
    unpackHi128 abcdefgh_4 ijklmnop_4, unpackHi128 abcdefgh_5 ijklmnop_5,
    unpackHi128 abcdefgh_6 ijklmnop_6, unpackHi128 abcdefgh_7 ijklmnop_7]

theorem uniform_transposeVecs128 : Uniform transposeVecs128 := by
  intro α β f x
  funext i
  fin_cases i <;>
    simp [transposeVecs128, unpackloEpi32, unpackhiEpi32, unpackloEpi64, unpackhiEpi64,
      select_comp]

theorem uniform_transposeVecsNeon : Uniform transposeVecsNeon := by
  intro α β f x
  funext i
  fin_cases i <;>
    simp [transposeVecsNeon, trnEven, trnOdd, combineLow, combineHigh, select_comp]

theorem uniform_transposeVecs256 : Uniform transposeVecs256 := by
  intro α β f x
  funext i
  fin_cases i <;>
    simp [transposeVecs256, unpackloEpi32, unpackhiEpi32, unpackloEpi64, unpackhiEpi64,
      permute2x128, select_comp]

theorem uniform_transposeVecs512 : Uniform transposeVecs512 := by
  intro α β f x
  funext i
  fin_cases i <;>
    simp [transposeVecs512, unpackloEpi32, unpackhiEpi32, unpackloEpi64, unpackhiEpi64,
      unpackLo128, unpackHi128, shuffleI32x4, select_comp]

theorem transposeVecs128_eq (x : Fin 4 → Lanes 4) (i j : Fin 4) :
    transposeVecs128 Word x i j = x j i :=
  uniform_transposeVecs128.transposes (by decide) x i j

theorem transposeVecsNeon_eq (x : Fin 4 → Lanes 4) (i j : Fin 4) :
    transposeVecsNeon Word x i j = x j i :=
  uniform_transposeVecsNeon.transposes (by decide) x i j

theorem transposeVecs256_eq (x : Fin 8 → Lanes 8) (i j : Fin 8) :
    transposeVecs256 Word x i j = x j i :=
  uniform_transposeVecs256.transposes (by decide) x i j

theorem transposeVecs512_eq (x : Fin 16 → Lanes 16) (i j : Fin 16) :
    transposeVecs512 Word x i j = x j i :=
  uniform_transposeVecs512.transposes (by decide +kernel) x i j

/-! ### Loads and stores -/

section Memory

variable {n : ℕ} [NeZero n] (transpose : (Fin n → Lanes n) → Fin n → Lanes n)

/-- `transpose_msg_vecs`: one register of every input, transposed, until the
block is read. -/
def transposeMsg (inputs : Fin n → List Byte) (blockOffset : ℕ) : Vector (Lanes n) 16 :=
  Vector.ofFn fun w =>
    transpose (fun i => loadu (inputs i) (blockOffset + w.val / n * (4 * n))) (Fin.ofNat n w.val)

/-- Transpose `k` groups of `n` registers and store the groups of each lane side by side. -/
def storeTransposed {k : ℕ} (v : Vector (Lanes n) (k * n)) : List Byte :=
  (List.finRange n).flatMap fun j => (List.finRange k).flatMap fun group =>
    storeu (transpose (fun i => v.get ⟨group.val * n + i.val, by
      have := Nat.mul_le_mul_right n group.isLt
      have := Nat.succ_mul group.val n
      omega⟩) j)

variable {transpose} (ht : ∀ x i j, transpose x i j = x j i)
include ht

theorem lane_transposeMsg (inputs : Fin n → List Byte) (block : ℕ) (j : Fin n) :
    lane j (transposeMsg transpose inputs (block * 64)) =
      wordsFromLeBytes64 (blockOfBytes ((inputs j).drop (64 * block))) := by
  apply Vector.ext
  intro w hw
  have haddr : block * 64 + w / n * (4 * n) + 4 * (w % n) = 64 * block + 4 * w := by
    have hsplit := Nat.div_add_mod w n
    have hassoc : w / n * (4 * n) = 4 * (n * (w / n)) := by
      rw [Nat.mul_comm n, Nat.mul_left_comm]
    omega
  simp only [lane, transposeMsg, Vector.getElem_map, Vector.getElem_ofFn, ht]
  exact loadu_block (inputs j) block hw (Fin.ofNat n w) haddr

omit [NeZero n] in
theorem storeTransposed_eq {k : ℕ} (v : Vector (Lanes n) (k * n)) :
    storeTransposed transpose v = (List.finRange n).flatMap fun j =>
      (leBytesFromWords (k * n) (lane j v)).toList := by
  rw [storeTransposed]
  apply List.flatMap_congr
  intro j _
  rw [toList_leBytesFromWords, storeu, List.ofFn_mul, List.ofFn_eq_map, ← List.flatMap_def,
    List.flatMap_assoc]
  apply List.flatMap_congr
  intro group _
  simp only [storeu, lane]
  congr 2
  funext i
  simp [Vector.get, ht]

end Memory

/-! ### Counters -/

/-- The two words of a counter that has moved on. -/
theorem counterLow_add (counter : UInt64) (d : ℕ) :
    counterLow (counter + UInt64.ofNat d) = counter.toUInt32 + UInt32.ofNat d := by
  apply UInt32.toNat_inj.mp
  simp [counterLow]

theorem counterHigh_add (counter : UInt64) {d : ℕ} (hd : d < 2 ^ 32) :
    counterHigh (counter + UInt64.ofNat d) =
      counterHigh counter + if 2 ^ 32 ≤ counter.toUInt32.toNat + d then 1 else 0 := by
  have hc := counter.toNat_lt
  apply UInt32.toNat_inj.mp
  split <;> rename_i h <;>
    simp [counterHigh, Nat.shiftRight_eq_div_pow] at h ⊢ <;> omega

section Counters

variable {n : ℕ}

/-- What lane `j` adds to the counter. -/
def laneDelta (increment : Bool) (j : Fin n) : ℕ := if increment then j.val else 0

theorem advance_laneDelta (counter : UInt64) (increment : Bool) (j : Fin n) :
    (if increment then counter + UInt64.ofNat j.val else counter) =
      counter + UInt64.ofNat (laneDelta increment j) := by
  cases increment
  · exact (UInt64.add_zero counter).symm
  · rfl

/-- The numbers of the lanes under the mask for `increment_counter`. -/
def maskedDeltas (increment : Bool) : Lanes n :=
  andSi (set1 (if increment then 0xffffffff else 0)) fun j => UInt32.ofNat j.val

theorem maskedDeltas_eq (increment : Bool) (j : Fin n) :
    maskedDeltas increment j = UInt32.ofNat (laneDelta increment j) := by
  cases increment
  · simp [maskedDeltas, andSi, set1, laneDelta]
  · simp only [maskedDeltas, andSi, set1, laneDelta, if_true]
    rw [show (0xffffffff : Word) = -1 from rfl, UInt32.neg_one_and]

/-- `load_counters` of `c/blake3_sse2.c`, `c/blake3_sse41.c` and `c/blake3_avx2.c`: there is no
unsigned comparison. -/
def loadCountersCmp (counter : UInt64) (increment : Bool) : Lanes n × Lanes n :=
  let add1 := maskedDeltas increment
  let l := addEpi32 (set1 counter.toUInt32) add1
  let carry := cmpgtEpi32 (xorSi add1 (set1 0x80000000)) (xorSi l (set1 0x80000000))
  let h := subEpi32 (set1 (counter >>> 32).toUInt32) carry
  (l, h)

/-- `load_counters16` of `c/blake3_avx512.c`: the carry is one where the high bit
was one before the addition and is zero after it. -/
def loadCounters16 (counter : UInt64) (increment : Bool) : Lanes n × Lanes n :=
  let lowWords := addEpi32 (set1 counter.toUInt32) (maskedDeltas increment)
  let carries := srliEpi32 (andnotSi lowWords (set1 counter.toUInt32)) 31
  let highWords := addEpi32 (set1 (counter >>> 32).toUInt32) carries
  (lowWords, highWords)

/-- The counters of the lanes as 64-bit elements. -/
def counters64 (counter : UInt64) (increment : Bool) : Reg n UInt64 :=
  let mask : UInt64 := if increment then 0xffffffffffffffff else 0
  fun j => counter + (mask &&& UInt64.ofNat j.val)

/-- `load_counters4` and `load_counters8` of `c/blake3_avx512.c`, `load_counters4` of
`c/blake3_neon.c` -/
def loadCounters64 (counter : UInt64) (increment : Bool) : Lanes n × Lanes n :=
  (fun j => counterLow (counters64 counter increment j),
    fun j => counterHigh (counters64 counter increment j))

variable (counter : UInt64) (increment : Bool)

/-- The counter of a lane, as the lanes compute it. -/
theorem counterLow_lane (j : Fin n) :
    counterLow (if increment then counter + UInt64.ofNat j.val else counter) =
      counter.toUInt32 + maskedDeltas increment j := by
  rw [advance_laneDelta, counterLow_add, maskedDeltas_eq]

theorem laneDelta_lt (hn : n ≤ 16) (j : Fin n) : laneDelta increment j < 16 := by
  unfold laneDelta
  split <;> omega

theorem counterHigh_lane (hn : n ≤ 16) (j : Fin n) :
    counterHigh (if increment then counter + UInt64.ofNat j.val else counter) =
      counterHigh counter +
        if 2 ^ 32 ≤ counter.toUInt32.toNat + laneDelta increment j then 1 else 0 := by
  have hd := laneDelta_lt increment hn j
  rw [advance_laneDelta, counterHigh_add counter (by omega)]

theorem toNat_maskedDeltas (hn : n ≤ 16) (j : Fin n) :
    (maskedDeltas increment j).toNat = laneDelta increment j := by
  have hd := laneDelta_lt increment hn j
  rw [maskedDeltas_eq]
  exact UInt32.toNat_ofNat_of_lt' (by change _ < 2 ^ 32; omega)

/-- The sum is below the summand exactly when there is a carry. -/
theorem loadCountersCmp_high (hn : n ≤ 16) (j : Fin n) :
    (loadCountersCmp counter increment).2 j =
      counterHigh (if increment then counter + UInt64.ofNat j.val else counter) := by
  have hlow := counter.toUInt32.toNat_lt
  have hd := laneDelta_lt increment hn j
  have hdelta := toNat_maskedDeltas increment hn j
  have hcarry : (counter.toUInt32 + maskedDeltas increment j).toNat <
      (maskedDeltas increment j).toNat ↔
        2 ^ 32 ≤ counter.toUInt32.toNat + laneDelta increment j := by
    rw [UInt32.toNat_add, hdelta]
    omega
  rw [counterHigh_lane counter increment hn j]
  simp only [loadCountersCmp, subEpi32, cmpgtEpi32, xorSi, set1, addEpi32, toInt32_lt_flip, hcarry]
  split
  · rw [UInt32.sub_eq_add_neg]
    rfl
  · rw [UInt32.sub_zero, UInt32.add_zero]
    rfl

/-- The highest bit goes from one to zero exactly when there is a carry. -/
theorem loadCounters16_high (hn : n ≤ 16) (j : Fin n) :
    (loadCounters16 counter increment).2 j =
      counterHigh (if increment then counter + UInt64.ofNat j.val else counter) := by
  have hlow := counter.toUInt32.toNat_lt
  have hd := laneDelta_lt increment hn j
  have hdelta := toNat_maskedDeltas increment hn j
  have hcarry : 2 ^ 31 ≤
      (~~~(counter.toUInt32 + maskedDeltas increment j) &&& counter.toUInt32).toNat ↔
        2 ^ 32 ≤ counter.toUInt32.toNat + laneDelta increment j := by
    rw [high_andnot, UInt32.toNat_add, hdelta]
    omega
  rw [counterHigh_lane counter increment hn j]
  simp only [loadCounters16, srliEpi32, andnotSi, set1, addEpi32, shiftRight_31, hcarry]
  rfl

theorem counters64_eq (j : Fin n) :
    counters64 counter increment j =
      if increment then counter + UInt64.ofNat j.val else counter := by
  cases increment
  · simp [counters64]
  · simp only [counters64, if_true]
    rw [show (0xffffffffffffffff : UInt64) = -1 from rfl, UInt64.neg_one_and]

end Counters

end Blake3.Simd
