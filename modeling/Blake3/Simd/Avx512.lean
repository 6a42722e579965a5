import Blake3.Simd.HashMany

/-!
`hash_many` and `xof_many` of `c/blake3_avx512.c`, which go from sixteen lanes
to eight, to four and to single inputs or blocks, and the functions of
`c/blake3_dispatch.c`, which choose a back end by the features of the processor.
-/

namespace Blake3.Simd

open Registers

/-! ### Kernels -/

def castsi512Si256 (a : Lanes 16) : Lanes 8 := fun i => a (i.castLE (by decide))

/-- The transposition takes sixteen registers: pad with zeros, and store the
lower half of each. -/
def storePadded (h : Vector (Lanes 16) 8) : List Byte :=
  let padded (i : Fin 16) : Lanes 16 := if hi : i.val < 8 then h[i.val] else set1 0
  (List.finRange 16).flatMap fun j => storeu (castsi512Si256 (transposeVecs512 Word padded j))

theorem storePadded_eq (h : Vector (Lanes 16) 8) :
    storePadded h = (List.finRange 16).flatMap fun j =>
      (leBytesFromWords32 (lane j h)).toList := by
  apply List.flatMap_congr
  intro j _
  rw [leBytesFromWords32, toList_leBytesFromWords]
  congr 1
  funext i
  simp [castsi512Si256, transposeVecs512_eq, lane]

/-- `blake3_hash4_avx512` -/
def avx512Backend4 : Backend 4 where
  arx := avx512Arx
  loadCounters := loadCounters64
  transposeMsgVecs := transposeMsg (transposeVecs128 Word)
  storeCvs := storeTransposed (transposeVecs128 Word) (k := 2)

/-- `blake3_hash8_avx512` -/
def avx512Backend8 : Backend 8 where
  arx := avx512Arx
  loadCounters := loadCounters64
  transposeMsgVecs := transposeMsg (transposeVecs256 Word)
  storeCvs := storeTransposed (transposeVecs256 Word) (k := 1)

/-- `blake3_hash16_avx512` -/
def avx512Backend16 : Backend 16 where
  arx := avx512Arx
  loadCounters := loadCounters16
  transposeMsgVecs := transposeMsg (transposeVecs512 Word)
  storeCvs := storePadded

theorem lawful_avx512_4 : avx512Backend4.Lawful :=
  lawful_64 laneWise_avx512 rfl (lane_transposeMsg transposeVecs128_eq)
    (storeTransposed_eq transposeVecs128_eq (k := 2))

theorem lawful_avx512_8 : avx512Backend8.Lawful :=
  lawful_64 laneWise_avx512 rfl (lane_transposeMsg transposeVecs256_eq)
    (storeTransposed_eq transposeVecs256_eq (k := 1))

theorem lawful_avx512_16 : avx512Backend16.Lawful where
  laneWise := laneWise_avx512
  counterLow counter increment j := by
    rw [counterLow_lane]
    rfl
  counterHigh counter increment j := loadCounters16_high counter increment le_rfl j
  msgVecs := lane_transposeMsg transposeVecs512_eq
  storeCvs := storePadded_eq

/-! ### Many inputs -/

def hashManyAvx512 (args : ManyArgs) : List (List Byte) → UInt64 → List Byte :=
  batches args (n := 16) (hashN avx512Backend16 args) <|
    batches args (n := 8) (hashN avx512Backend8 args) <|
      batches args (n := 4) (hashN avx512Backend4 args) <|
        hashEach compressInPlaceAvx512 args

theorem compressInPlaceAvx512_eq : compressInPlaceAvx512 = compressInPlacePortable := by
  funext cv block blockLen counter flags
  exact compressInPlaceRows_eq lawful_avx512Rows cv block blockLen counter flags

theorem hashManyAvx512_eq (args : ManyArgs) (inputs : List (List Byte)) (counter : UInt64) :
    hashManyAvx512 args inputs counter = hashManyPortable args inputs counter := by
  refine batches_eq compressInPlacePortable args (hashN_eq lawful_avx512_16 args) ?_ _ _
  refine batches_eq compressInPlacePortable args (hashN_eq lawful_avx512_8 args) ?_
  refine batches_eq compressInPlacePortable args (hashN_eq lawful_avx512_4 args) ?_
  intro inputs counter
  rw [compressInPlaceAvx512_eq]

/-! ### Many blocks of output -/

/-- The arguments of `xof_many` that are the same for every block. -/
structure XofArgs where
  cv : CVWords
  block : Block
  blockLen : Byte
  flags : Byte

section XofMany

/-- The loop that writes one block at a time. -/
def xofEach (compressXof : UInt64 → List Byte) : ℕ → UInt64 → List Byte
  | 0, _ => []
  | outblocks + 1, counter => compressXof counter ++ xofEach compressXof outblocks (counter + 1)

/-- The loop over batches of `n` blocks; what is left goes to `rest`. -/
def xofBatches (n : ℕ) [NeZero n] (kernel : UInt64 → List Byte)
    (rest : ℕ → UInt64 → List Byte) (outblocks : ℕ) (counter : UInt64) : List Byte :=
  if n ≤ outblocks then
    kernel counter ++ xofBatches n kernel rest (outblocks - n) (counter + UInt64.ofNat n)
  else rest outblocks counter
termination_by outblocks
decreasing_by
  have hn := NeZero.pos n
  omega

theorem xofEach_add (compressXof : UInt64 → List Byte) (m n : ℕ) (counter : UInt64) :
    xofEach compressXof (m + n) counter =
      xofEach compressXof m counter ++ xofEach compressXof n (counter + UInt64.ofNat m) := by
  induction m generalizing counter with
  | zero => simp [xofEach]
  | succ m ih =>
      rw [Nat.succ_add, xofEach, ih, xofEach, List.append_assoc, Nat.add_comm m 1, UInt64.ofNat_add,
        ← UInt64.add_assoc]
      rfl

theorem xofEach_eq (compressXof : UInt64 → List Byte) (n : ℕ) (counter : UInt64) :
    xofEach compressXof n counter =
      (List.finRange n).flatMap fun i => compressXof (counter + UInt64.ofNat i.val) := by
  induction n generalizing counter with
  | zero => rfl
  | succ n ih =>
      have hnext : ∀ i, counter + 1 + UInt64.ofNat i = counter + UInt64.ofNat (i + 1) := by
        intro i
        rw [Nat.add_comm i 1, UInt64.ofNat_add, ← UInt64.add_assoc]
        rfl
      have hzero : counter + UInt64.ofNat 0 = counter := UInt64.add_zero counter
      rw [xofEach, ih, List.finRange_succ, List.flatMap_cons, List.flatMap_map]
      simp only [Fin.val_zero, Fin.val_succ, hnext, hzero]

theorem xofBatches_eq {n : ℕ} [NeZero n] {compressXof kernel : UInt64 → List Byte}
    {rest : ℕ → UInt64 → List Byte}
    (hkernel : ∀ counter, kernel counter = xofEach compressXof n counter)
    (hrest : ∀ outblocks counter, rest outblocks counter = xofEach compressXof outblocks counter)
    (outblocks : ℕ) (counter : UInt64) :
    xofBatches n kernel rest outblocks counter = xofEach compressXof outblocks counter := by
  induction outblocks, counter using xofBatches.induct n with
  | case1 outblocks counter hle ih =>
      have hadd := xofEach_add compressXof n (outblocks - n) counter
      rw [Nat.add_sub_cancel' hle] at hadd
      rw [xofBatches, if_pos hle, ih, hkernel, hadd]
  | case2 outblocks counter hlt => rw [xofBatches, if_neg hlt, hrest]

variable (args : XofArgs)

def xof4Avx512 (counter : UInt64) : List Byte :=
  xofN avx512Backend4 (storeTransposed (transposeVecs128 Word) (k := 4)) args.cv args.block
    args.blockLen counter args.flags

def xof8Avx512 (counter : UInt64) : List Byte :=
  xofN avx512Backend8 (storeTransposed (transposeVecs256 Word) (k := 2)) args.cv args.block
    args.blockLen counter args.flags

def xof16Avx512 (counter : UInt64) : List Byte :=
  xofN avx512Backend16 (storeTransposed (transposeVecs512 Word) (k := 1)) args.cv args.block
    args.blockLen counter args.flags

def xofManyAvx512 : ℕ → UInt64 → List Byte :=
  xofBatches 16 (xof16Avx512 args) <|
    xofBatches 8 (xof8Avx512 args) <|
      xofBatches 4 (xof4Avx512 args) <|
        xofEach fun counter =>
          compressXofAvx512 args.cv args.block args.blockLen counter args.flags

/-- One block of output from the portable code. -/
def xofPortable (counter : UInt64) : List Byte :=
  (compressXofPortable args.cv args.block args.blockLen counter args.flags).toList

theorem xof4Avx512_eq (counter : UInt64) :
    xof4Avx512 args counter = xofEach (xofPortable args) 4 counter := by
  rw [xofEach_eq]
  exact xofN_eq lawful_avx512_4 (storeTransposed_eq transposeVecs128_eq (k := 4)) _ _ _ _ _

theorem xof8Avx512_eq (counter : UInt64) :
    xof8Avx512 args counter = xofEach (xofPortable args) 8 counter := by
  rw [xofEach_eq]
  exact xofN_eq lawful_avx512_8 (storeTransposed_eq transposeVecs256_eq (k := 2)) _ _ _ _ _

theorem xof16Avx512_eq (counter : UInt64) :
    xof16Avx512 args counter = xofEach (xofPortable args) 16 counter := by
  rw [xofEach_eq]
  exact xofN_eq lawful_avx512_16 (storeTransposed_eq transposeVecs512_eq (k := 1)) _ _ _ _ _

theorem compressXofAvx512_eq (counter : UInt64) :
    compressXofAvx512 args.cv args.block args.blockLen counter args.flags =
      xofPortable args counter :=
  compressXofRows_eq lawful_avx512Rows _ _ _ _ _

theorem xofManyAvx512_eq (outblocks : ℕ) (counter : UInt64) :
    xofManyAvx512 args outblocks counter = xofEach (xofPortable args) outblocks counter := by
  refine xofBatches_eq (xof16Avx512_eq args) ?_ _ _
  refine xofBatches_eq (xof8Avx512_eq args) ?_
  refine xofBatches_eq (xof4Avx512_eq args) ?_
  intro outblocks counter
  simp only [compressXofAvx512_eq]

theorem length_xofEach_portable (outblocks : ℕ) (counter : UInt64) :
    (xofEach (xofPortable args) outblocks counter).length = outblocks * 64 := by
  induction outblocks generalizing counter with
  | zero => simp [xofEach]
  | succ n ih =>
      rw [xofEach, List.length_append, ih, xofPortable, Vector.length_toList]
      omega

end XofMany

/-! ### Dispatch -/

/-- The features of the processor that the build has code for. -/
structure Features where
  sse2 : Bool
  sse41 : Bool
  avx2 : Bool
  avx512f : Bool
  avx512vl : Bool
  neon : Bool

/-- What a build decides besides the features. -/
structure DispatchBuild where
  /-- `xof_many` of AVX-512 is not built on Windows. -/
  windows : Bool
  noSse41 : Bool
  byteShuffle : Bool

section Dispatch

variable (features : Features) (build : DispatchBuild)

def blake3CompressInPlace : CompressInPlace :=
  if features.avx512vl then compressInPlaceAvx512
  else if features.sse41 then compressInPlaceSse41
  else if features.sse2 then compressInPlaceSse2
  else compressInPlacePortable

def blake3CompressXof (args : XofArgs) (counter : UInt64) : List Byte :=
  if features.avx512vl then
    compressXofAvx512 args.cv args.block args.blockLen counter args.flags
  else if features.sse41 then
    compressXofSse41 args.cv args.block args.blockLen counter args.flags
  else if features.sse2 then
    compressXofSse2 args.cv args.block args.blockLen counter args.flags
  else (compressXofPortable args.cv args.block args.blockLen counter args.flags).toList

/-- The plain loop of `blake3_xof_many`. -/
def xofLoop (args : XofArgs) (outblocks : ℕ) (counter : UInt64) : List Byte :=
  (List.finRange outblocks).flatMap fun i =>
    blake3CompressXof features args (counter + UInt64.ofNat i.val)

def blake3XofMany (args : XofArgs) (outblocks : ℕ) (counter : UInt64) : List Byte :=
  if outblocks = 0 then []
  else if !build.windows && features.avx512vl then xofManyAvx512 args outblocks counter
  else xofLoop features args outblocks counter

def blake3HashMany (args : ManyArgs) : List (List Byte) → UInt64 → List Byte :=
  if features.avx512f && features.avx512vl then hashManyAvx512 args
  else if features.avx2 then hashManyAvx2 args build.noSse41
  else if features.sse41 then hashManySse41 args
  else if features.sse2 then hashManySse2 args
  else if features.neon then hashManyNeon args build.byteShuffle
  else hashManyPortable args

theorem blake3CompressXof_eq (args : XofArgs) (counter : UInt64) :
    blake3CompressXof features args counter = xofPortable args counter := by
  unfold blake3CompressXof
  split
  · exact compressXofRows_eq lawful_avx512Rows _ _ _ _ _
  · split
    · exact compressXofRows_eq lawful_sse41Rows _ _ _ _ _
    · split
      · exact compressXofRows_eq lawful_sse2Rows _ _ _ _ _
      · rfl

theorem xofLoop_eq (args : XofArgs) (outblocks : ℕ) (counter : UInt64) :
    xofLoop features args outblocks counter = xofEach (xofPortable args) outblocks counter := by
  rw [xofEach_eq, xofLoop]
  simp only [blake3CompressXof_eq]

theorem blake3XofMany_eq (args : XofArgs) (outblocks : ℕ) (counter : UInt64) :
    blake3XofMany features build args outblocks counter =
      xofEach (xofPortable args) outblocks counter := by
  unfold blake3XofMany
  split
  · rename_i hzero
    rw [hzero, xofEach]
  · split
    · exact xofManyAvx512_eq args outblocks counter
    · exact xofLoop_eq features args outblocks counter

/-- AVX-512 writes the blocks of output that the plain loop writes on any
processor, and for every input the bytes that the loop over single inputs writes. -/
theorem avx512_many (xof : XofArgs) (outblocks : ℕ) (args : ManyArgs)
    (inputs : List (List Byte)) (counter : UInt64) :
    xofManyAvx512 xof outblocks counter = xofLoop features xof outblocks counter ∧
    blake3XofMany features build xof outblocks counter = xofLoop features xof outblocks counter ∧
    (xofManyAvx512 xof outblocks counter).length = outblocks * 64 ∧
    hashManyAvx512 args inputs counter = hashEach compressInPlaceAvx512 args inputs counter ∧
    hashManyAvx512 args inputs counter = hashManyPortable args inputs counter := by
  rw [xofManyAvx512_eq, blake3XofMany_eq, xofLoop_eq, hashManyAvx512_eq, compressInPlaceAvx512_eq]
  exact ⟨rfl, rfl, length_xofEach_portable xof outblocks counter, rfl, rfl⟩

theorem blake3HashMany_eq (args : ManyArgs) (inputs : List (List Byte)) (counter : UInt64) :
    blake3HashMany features build args inputs counter = hashManyPortable args inputs counter := by
  unfold blake3HashMany
  split
  · exact hashManyAvx512_eq args inputs counter
  · split
    · exact hashManyAvx2_eq args build.noSse41 inputs counter
    · split
      · exact hashManySse41_eq args inputs counter
      · split
        · exact hashManySse2_eq args inputs counter
        · split
          · exact hashManyNeon_eq args build.byteShuffle inputs counter
          · rfl

theorem blake3CompressInPlace_eq : blake3CompressInPlace features = compressInPlacePortable := by
  unfold blake3CompressInPlace
  rw [compressInPlaceAvx512_eq, compressInPlaceSse41_eq, compressInPlaceSse2_eq]
  simp only [ite_self]

/-- One list of chaining values after the other. -/
theorem hashEach_reference (args : ManyArgs) (inputs : List (List Byte)) (counter : UInt64) :
    ∃ cvs, Blake3.hashMany Blake3.compress .wrapping args.key args.flags args.flagsStart
        args.flagsEnd args.blocks args.incrementCounter inputs counter = .ok cvs ∧
      hashManyPortable args inputs counter = cvs.flatMap Vector.toList := by
  induction inputs generalizing counter with
  | nil => exact ⟨[], rfl, rfl⟩
  | cons input inputs ih =>
      obtain ⟨cvs, hcvs, hbytes⟩ := ih (args.advance counter 1)
      refine ⟨Blake3.hashOne Blake3.compress args.key args.flags args.flagsStart args.flagsEnd
        input args.blocks counter :: cvs, ?_, ?_⟩
      · have hadd : Build.wrapping.addU64 counter 1 = .ok (counter + 1) := rfl
        have hadvance : args.advance counter 1 =
            if args.incrementCounter then counter + 1 else counter := rfl
        rw [hadvance] at hcvs
        rw [Blake3.hashMany, hadd]
        cases hincrement : args.incrementCounter <;> simp [hincrement] at hcvs ⊢ <;> simp [hcvs]
      · rw [hashManyPortable, hashEach, hashOne_portable, List.flatMap_cons, ← hbytes]
        rfl

/-- On every processor the functions of `c/blake3_dispatch.c` are those of the
specification's compression. -/
theorem dispatch_reference (xof : XofArgs) (outblocks : ℕ) (args : ManyArgs)
    (inputs : List (List Byte)) (counter : UInt64) :
    blake3CompressInPlace features xof.cv xof.block xof.blockLen counter xof.flags =
        compressInPlace Blake3.compress xof.cv xof.block xof.blockLen.toNat counter xof.flags ∧
    blake3XofMany features build xof outblocks counter =
        xofMany Blake3.compress xof.cv xof.block xof.blockLen.toNat counter xof.flags outblocks ∧
    ∃ cvs, Blake3.hashMany Blake3.compress .wrapping args.key args.flags args.flagsStart
        args.flagsEnd args.blocks args.incrementCounter inputs counter = .ok cvs ∧
      blake3HashMany features build args inputs counter = cvs.flatMap Vector.toList := by
  refine ⟨?_, ?_, ?_⟩
  · rw [blake3CompressInPlace_eq, compressInPlacePortable_eq]
  · rw [blake3XofMany_eq, xofEach_eq, xofMany, ← List.map_coe_finRange_eq_range, List.flatMap_map]
    simp only [xofPortable, compressXofPortable_eq]
  · rw [blake3HashMany_eq]
    exact hashEach_reference args inputs counter

end Dispatch

end Blake3.Simd
