import Blake3.Simd.Rows
import Blake3.Simd.Transpose

/-!
`hash_many` of the SSE2, SSE4.1, AVX2 and NEON back ends. Whole batches go to
the kernel, what is left to a narrower back end or to the loop over single
inputs; the bytes are those of the portable loop.
-/

namespace Blake3.Simd

open Registers

/-! ### Kernels -/

/-- `blake3_hash4_sse2` -/
def sse2Backend : Backend 4 where
  arx := sse2Arx
  loadCounters := loadCountersCmp
  transposeMsgVecs := transposeMsg (transposeVecs128 Word)
  storeCvs := storeTransposed (transposeVecs128 Word) (k := 2)

/-- `blake3_hash4_sse41` -/
def sse41Backend : Backend 4 where
  arx := sse41Arx
  loadCounters := loadCountersCmp
  transposeMsgVecs := transposeMsg (transposeVecs128 Word)
  storeCvs := storeTransposed (transposeVecs128 Word) (k := 2)

/-- `blake3_hash8_avx2` -/
def avx2Backend : Backend 8 where
  arx := avx2Arx
  loadCounters := loadCountersCmp
  transposeMsgVecs := transposeMsg (transposeVecs256 Word)
  storeCvs := storeTransposed (transposeVecs256 Word) (k := 1)

/-- `blake3_hash4_neon` -/
def neonBackend (byteShuffle : Bool) : Backend 4 where
  arx := neonArx byteShuffle
  loadCounters := loadCounters64
  transposeMsgVecs := transposeMsg (transposeVecsNeon Word)
  storeCvs := storeTransposed (transposeVecsNeon Word) (k := 2)

section Lawful

variable {n : ℕ}

theorem lawful_cmp (hn : n ≤ 16) {K : Backend n} (harx : LaneWise K.arx)
    (hcounters : K.loadCounters = loadCountersCmp)
    (hmsg : ∀ inputs block j, lane j (K.transposeMsgVecs inputs (block * 64)) =
      wordsFromLeBytes64 (blockOfBytes ((inputs j).drop (64 * block))))
    (hstore : ∀ h, K.storeCvs h = (List.finRange n).flatMap fun j =>
      (leBytesFromWords32 (lane j h)).toList) : K.Lawful where
  laneWise := harx
  counterLow counter increment j := by
    rw [hcounters, counterLow_lane]
    rfl
  counterHigh counter increment j := by
    rw [hcounters, loadCountersCmp_high counter increment hn]
  msgVecs := hmsg
  storeCvs := hstore

theorem lawful_64 {K : Backend n} (harx : LaneWise K.arx)
    (hcounters : K.loadCounters = loadCounters64)
    (hmsg : ∀ inputs block j, lane j (K.transposeMsgVecs inputs (block * 64)) =
      wordsFromLeBytes64 (blockOfBytes ((inputs j).drop (64 * block))))
    (hstore : ∀ h, K.storeCvs h = (List.finRange n).flatMap fun j =>
      (leBytesFromWords32 (lane j h)).toList) : K.Lawful where
  laneWise := harx
  counterLow counter increment j := by rw [hcounters, ← counters64_eq]; rfl
  counterHigh counter increment j := by rw [hcounters, ← counters64_eq]; rfl
  msgVecs := hmsg
  storeCvs := hstore

end Lawful

theorem lawful_sse2 : sse2Backend.Lawful :=
  lawful_cmp (by decide) laneWise_sse2 rfl (lane_transposeMsg transposeVecs128_eq)
    (storeTransposed_eq transposeVecs128_eq (k := 2))

theorem lawful_sse41 : sse41Backend.Lawful :=
  lawful_cmp (by decide) laneWise_sse41 rfl (lane_transposeMsg transposeVecs128_eq)
    (storeTransposed_eq transposeVecs128_eq (k := 2))

theorem lawful_avx2 : avx2Backend.Lawful :=
  lawful_cmp (by decide) laneWise_avx2 rfl (lane_transposeMsg transposeVecs256_eq)
    (storeTransposed_eq transposeVecs256_eq (k := 1))

theorem lawful_neon (byteShuffle : Bool) : (neonBackend byteShuffle).Lawful :=
  lawful_64 (laneWise_neon byteShuffle) rfl (lane_transposeMsg transposeVecsNeon_eq)
    (storeTransposed_eq transposeVecsNeon_eq (k := 2))

/-! ### Many inputs -/

section HashMany

variable (args : ManyArgs)

def hashManySse2 : List (List Byte) → UInt64 → List Byte :=
  batches args (n := 4) (hashN sse2Backend args) (hashEach compressInPlaceSse2 args)

def hashManySse41 : List (List Byte) → UInt64 → List Byte :=
  batches args (n := 4) (hashN sse41Backend args) (hashEach compressInPlaceSse41 args)

/-- What is left over goes to SSE4.1, or to the portable code in a build without it. -/
def hashManyAvx2 (noSse41 : Bool) : List (List Byte) → UInt64 → List Byte :=
  batches args (n := 8) (hashN avx2Backend args)
    (if noSse41 then hashManyPortable args else hashManySse41 args)

/-- There is no NEON code for a single input. -/
def hashManyNeon (byteShuffle : Bool) : List (List Byte) → UInt64 → List Byte :=
  batches args (n := 4) (hashN (neonBackend byteShuffle) args)
    (hashEach compressInPlacePortable args)

theorem length_hashEach (compress : CompressInPlace) (inputs : List (List Byte))
    (counter : UInt64) : (hashEach compress args inputs counter).length = inputs.length * 32 := by
  induction inputs generalizing counter with
  | nil => simp [hashEach]
  | cons input inputs ih =>
      rw [hashEach, List.length_append, ih, Vector.length_toList, List.length_cons]
      omega

theorem compressInPlaceSse2_eq : compressInPlaceSse2 = compressInPlacePortable := by
  funext cv block blockLen counter flags
  exact compressInPlaceRows_eq lawful_sse2Rows cv block blockLen counter flags

theorem compressInPlaceSse41_eq : compressInPlaceSse41 = compressInPlacePortable := by
  funext cv block blockLen counter flags
  exact compressInPlaceRows_eq lawful_sse41Rows cv block blockLen counter flags

theorem hashManySse41_eq (inputs : List (List Byte)) (counter : UInt64) :
    hashManySse41 args inputs counter = hashManyPortable args inputs counter :=
  batches_eq compressInPlacePortable args (hashN_eq lawful_sse41 args)
    (fun _ _ => by rw [compressInPlaceSse41_eq]) inputs counter

theorem hashManySse2_eq (inputs : List (List Byte)) (counter : UInt64) :
    hashManySse2 args inputs counter = hashManyPortable args inputs counter :=
  batches_eq compressInPlacePortable args (hashN_eq lawful_sse2 args)
    (fun _ _ => by rw [compressInPlaceSse2_eq]) inputs counter

theorem hashManyAvx2_eq (noSse41 : Bool) (inputs : List (List Byte)) (counter : UInt64) :
    hashManyAvx2 args noSse41 inputs counter = hashManyPortable args inputs counter := by
  refine batches_eq compressInPlacePortable args (hashN_eq lawful_avx2 args) ?_ inputs counter
  intro inputs counter
  cases noSse41
  · exact hashManySse41_eq args inputs counter
  · rfl

theorem hashManyNeon_eq (byteShuffle : Bool) (inputs : List (List Byte)) (counter : UInt64) :
    hashManyNeon args byteShuffle inputs counter = hashManyPortable args inputs counter :=
  batches_eq compressInPlacePortable args (hashN_eq (lawful_neon byteShuffle) args)
    (fun _ _ => rfl) inputs counter

/-- SSE2, AVX2 and NEON write the 32 bytes for every input that the portable code writes. -/
theorem hash_many (noSse41 byteShuffle : Bool) (inputs : List (List Byte)) (counter : UInt64) :
    hashManySse2 args inputs counter = hashManyPortable args inputs counter ∧
    hashManyAvx2 args noSse41 inputs counter = hashManyPortable args inputs counter ∧
    hashManyNeon args byteShuffle inputs counter = hashManyPortable args inputs counter ∧
    (hashManyPortable args inputs counter).length = inputs.length * 32 :=
  ⟨hashManySse2_eq args inputs counter, hashManyAvx2_eq args noSse41 inputs counter,
    hashManyNeon_eq args byteShuffle inputs counter, length_hashEach args _ inputs counter⟩

end HashMany

end Blake3.Simd
