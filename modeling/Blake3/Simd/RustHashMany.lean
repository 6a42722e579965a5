import Blake3.Simd.HashMany
import Blake3.Simd.RustRows

/-!
`hash_many` of `src/rust_sse2.rs`, `src/wasm32_simd.rs` and `src/rust_avx2.rs`.
The outputs go to a slice, which may have more bytes than the inputs need, and
the additions to the counter are checked where the build checks them.
-/

namespace Blake3.Simd

open Registers QuarterRound

/-- The arguments that are the same for every input; an input has `N` bytes. -/
structure RustArgs where
  key : CVWords
  incrementCounter : Bool
  flags : Byte
  flagsStart : Byte
  flagsEnd : Byte

/-- How many blocks there are is read off the type of the inputs. -/
def RustArgs.many (args : RustArgs) (N : ℕ) : ManyArgs :=
  { blocks := N / 64, key := args.key, incrementCounter := args.incrementCounter,
    flags := args.flags, flagsStart := args.flagsStart, flagsEnd := args.flagsEnd }

variable {n N : ℕ} (b : Build) (args : RustArgs)

/-- `counter += by` in the loops over the inputs -/
def RustArgs.advance (counter amount : UInt64) : Result UInt64 :=
  if args.incrementCounter then b.addU64 counter amount else .ok counter

/-! ### One at a time -/

section Each

variable (compress : CompressInPlace)

/-- The loop of `hash1`. -/
def hash1Loop (counter : UInt64) (cv : CVWords) (blockFlags : Byte) (slice : List Byte) :
    CVWords :=
  if 64 ≤ slice.length then
    let blockFlags := if slice.length = 64 then blockFlags ||| args.flagsEnd else blockFlags
    hash1Loop counter (compress cv (blockOfBytes slice) 64 counter blockFlags) args.flags
      (slice.drop 64)
  else cv
termination_by slice.length
decreasing_by
  rw [List.length_drop]
  omega

def hash1 (input : Vector Byte N) (counter : UInt64) : Result CVBytes := do
  b.debugAssert (N % 64 = 0)
  return leBytesFromWords32
    (hash1Loop args compress counter args.key (args.flags ||| args.flagsStart) input.toList)

/-- The loop over the inputs and over the pieces of the output, until one of them ends. -/
def hash1Each : List (Vector Byte N) → UInt64 → List Byte → Result (List Byte)
  | [], _, out => .ok out
  | input :: inputs, counter, out =>
      if out.length < 32 then .ok out
      else do
        let cv ← hash1 b args compress input counter
        let counter ← args.advance b counter 1
        let out ← hash1Each inputs counter (out.drop 32)
        return cv.toList ++ out

end Each

/-- `hash_many` of `src/portable.rs` -/
def hashManyRustPortable (inputs : List (Vector Byte N)) (counter : UInt64) (out : List Byte) :
    Result (List Byte) := do
  b.debugAssert (inputs.length * 32 ≤ out.length)
  hash1Each b args compressInPlacePortable inputs counter out

/-! ### Batches -/

/-- `load_counters`; the sums of the lanes are checked one by one. -/
def loadCountersRust (counter : UInt64) (increment : Bool) : Result (Lanes n × Lanes n) := do
  let mask : UInt64 := if increment then 0xffffffffffffffff else 0
  let sums ← Vector.ofFnM fun j : Fin n => b.addU64 counter (mask &&& UInt64.ofNat j.val)
  return (fun j => counterLow (sums.get j), fun j => counterHigh (sums.get j))

/-- `hash4` and `hash8` -/
def hashNRust (K : Backend n) (args : ManyArgs) (inputs : Fin n → List Byte) (counter : UInt64) :
    Result (List Byte) := do
  let h := Vector.ofFn fun i => set1 (args.key.get i)
  let counters ← loadCountersRust b counter args.incrementCounter
  return K.storeCvs
    (hashLoop K args inputs counters 0 args.blocks h (args.flags ||| args.flagsStart))

/-- The loop over whole batches; what is left goes to `rest`. -/
def batchesRust [NeZero n] (K : Backend n)
    (rest : List (Vector Byte N) → UInt64 → List Byte → Result (List Byte))
    (inputs : List (Vector Byte N)) (counter : UInt64) (out : List Byte) : Result (List Byte) :=
  if n ≤ inputs.length ∧ n * 32 ≤ out.length then do
    let cvs ← hashNRust b K (args.many N)
      (fun i => (inputs.map Vector.toList).getD i.val []) counter
    let counter ← args.advance b counter (UInt64.ofNat n)
    let out ← batchesRust K rest (inputs.drop n) counter (out.drop (n * 32))
    return cvs ++ out
  else rest inputs counter out
termination_by inputs.length
decreasing_by
  have hn := NeZero.pos n
  rw [List.length_drop]
  omega

/-- `hash4` of `src/rust_sse2.rs` -/
def rustSse2Backend : Backend 4 where
  arx := rustShiftArx
  loadCounters := loadCounters64
  transposeMsgVecs := transposeMsg (transposeVecs128 Word)
  storeCvs := storeTransposed (transposeVecs128 Word) (k := 2)

/-- `transpose_vecs` of `src/wasm32_simd.rs` -/
def transposeVecsWasm (α : Type) (vecs : Fin 4 → Reg 4 α) : Fin 4 → Reg 4 α :=
  -- Interleave 32-bit lanes.
  let ab_01 := wasmUnpackloEpi32 (vecs 0) (vecs 1)
  let ab_23 := wasmUnpackhiEpi32 (vecs 0) (vecs 1)
  let cd_01 := wasmUnpackloEpi32 (vecs 2) (vecs 3)
  let cd_23 := wasmUnpackhiEpi32 (vecs 2) (vecs 3)
  -- Interleave 64-bit lanes.
  let abcd_0 := wasmUnpackloEpi64 ab_01 cd_01
  let abcd_1 := wasmUnpackhiEpi64 ab_01 cd_01
  let abcd_2 := wasmUnpackloEpi64 ab_23 cd_23
  let abcd_3 := wasmUnpackhiEpi64 ab_23 cd_23
  ![abcd_0, abcd_1, abcd_2, abcd_3]

/-- `hash4` of `src/wasm32_simd.rs` -/
def wasmBackend : Backend 4 where
  arx := wasmArx
  loadCounters := loadCounters64
  transposeMsgVecs := transposeMsg (transposeVecsWasm Word)
  storeCvs := storeTransposed (transposeVecsWasm Word) (k := 2)

/-- `hash8` of `src/rust_avx2.rs`; `interleave128` gives both halves that `transpose_vecs` of
`c/blake3_avx2.c` takes one by one. -/
def rustAvx2Backend : Backend 8 where
  arx := rustShiftArx
  loadCounters := loadCounters64
  transposeMsgVecs := transposeMsg (transposeVecs256 Word)
  storeCvs := storeTransposed (transposeVecs256 Word) (k := 1)

section HashMany

variable (inputs : List (Vector Byte N)) (counter : UInt64) (out : List Byte)

def hashManyRustSse2 : Result (List Byte) := do
  b.debugAssert (inputs.length * 32 ≤ out.length)
  batchesRust b args rustSse2Backend (hash1Each b args compressInPlaceRustSse2) inputs counter out

def hashManyWasm : Result (List Byte) := do
  b.debugAssert (inputs.length * 32 ≤ out.length)
  batchesRust b args wasmBackend (hash1Each b args compressInPlaceWasm) inputs counter out

/-- What is left over goes to `sse41::hash_many`. -/
def hashManyRustAvx2 (sse41 : List (Vector Byte N) → UInt64 → List Byte → Result (List Byte)) :
    Result (List Byte) := do
  b.debugAssert (inputs.length * 32 ≤ out.length)
  batchesRust b args rustAvx2Backend sse41 inputs counter out

end HashMany

/-! ### What is written -/

/-- The inputs for whose outputs there is room. -/
def served (inputs : List (Vector Byte N)) (out : List Byte) : List (List Byte) :=
  (inputs.take (out.length / 32)).map Vector.toList

/-- The slice afterwards. -/
def written (inputs : List (Vector Byte N)) (counter : UInt64) (out : List Byte) : List Byte :=
  hashEach compressInPlacePortable (args.many N) (served inputs out) counter ++
    out.drop ((served inputs out).length * 32)

theorem served_of_short {inputs : List (Vector Byte N)} {out : List Byte} (h : out.length < 32) :
    served inputs out = [] := by
  rw [served, Nat.div_eq_of_lt h, List.take_zero, List.map_nil]

/-- The first `k` inputs, if there is room for their outputs, and then the others. -/
theorem served_split {inputs : List (Vector Byte N)} {out : List Byte} {k : ℕ}
    (hout : k * 32 ≤ out.length) :
    served inputs out =
      (inputs.take k).map Vector.toList ++ served (inputs.drop k) (out.drop (k * 32)) := by
  have hroom : out.length / 32 = k + (out.length - k * 32) / 32 := by omega
  rw [served, served, List.length_drop, hroom, List.take_add, List.map_append]

theorem written_split {inputs : List (Vector Byte N)} {out : List Byte} {k : ℕ}
    (hk : k ≤ inputs.length) (hout : k * 32 ≤ out.length) (counter : UInt64) :
    written args inputs counter out =
      hashEach compressInPlacePortable (args.many N) ((inputs.take k).map Vector.toList) counter ++
        written args (inputs.drop k) ((args.many N).advance counter k) (out.drop (k * 32)) := by
  have hlen : ((inputs.take k).map Vector.toList).length = k := by
    rw [List.length_map, List.length_take, Nat.min_eq_left hk]
  rw [written, served_split hout, hashEach_append, hlen, List.length_append, hlen, Nat.add_mul,
    written, List.drop_drop, List.append_assoc]

theorem advance_eq (N : ℕ) {counter : UInt64} {k : ℕ} (h : counter.toNat + k < 2 ^ 64) :
    args.advance b counter (UInt64.ofNat k) = .ok ((args.many N).advance counter k) := by
  have hk : (UInt64.ofNat k).toNat = k := UInt64.toNat_ofNat_of_lt' (by change k < 2 ^ 64; omega)
  cases hincrement : args.incrementCounter
  · simp [RustArgs.advance, ManyArgs.advance, RustArgs.many, hincrement]
  · simp only [RustArgs.advance, ManyArgs.advance, RustArgs.many, hincrement, if_true]
    exact b.addU64_of_lt (by rw [hk]; exact h)

theorem toNat_advance_le (args : ManyArgs) {counter : UInt64} {k : ℕ}
    (h : counter.toNat + k < 2 ^ 64) : (args.advance counter k).toNat ≤ counter.toNat + k := by
  have hk : (UInt64.ofNat k).toNat = k := UInt64.toNat_ofNat_of_lt' (by change k < 2 ^ 64; omega)
  rw [ManyArgs.advance]
  split
  · rw [UInt64.toNat_add, hk, Nat.mod_eq_of_lt h]
  · omega

/-! ### One input -/

section One

variable (compress : CompressInPlace)

/-- Counting the blocks that are left or looking at the length is the same. -/
theorem hash1Loop_eq (counter : UInt64) (blocks : ℕ) (cv : CVWords) (blockFlags : Byte)
    {slice : List Byte} (hlen : slice.length = 64 * blocks) :
    hash1Loop args compress counter cv blockFlags slice =
      hashOneLoop compress (args.many N) counter blocks cv blockFlags slice := by
  induction blocks generalizing cv blockFlags slice with
  | zero => rw [hash1Loop, if_neg (by omega), hashOneLoop]
  | succ blocks ih =>
      have hlast : slice.length = 64 ↔ blocks + 1 = 1 := by omega
      have hdrop : (slice.drop 64).length = 64 * blocks := by rw [List.length_drop]; omega
      rw [hash1Loop, if_pos (by omega), hashOneLoop]
      simp only [hlast]
      rw [ih _ _ hdrop]
      rfl

theorem hash1_eq (hN : N % 64 = 0) (input : Vector Byte N) (counter : UInt64) :
    hash1 b args compress input counter =
      .ok (hashOne compress (args.many N) input.toList counter) := by
  have hlen : input.toList.length = 64 * (N / 64) := by rw [Vector.length_toList]; omega
  rw [hash1, b.debugAssert_of hN, Result.ok_bind, Result.pure_eq,
    hash1Loop_eq (N := N) args compress counter (N / 64) _ _ hlen, hashOne]
  rfl

end One

/-- Every module writes the same where its compression is the portable one. -/
theorem hash1Each_eq {compress : CompressInPlace} (hcompress : compress = compressInPlacePortable)
    (hN : N % 64 = 0) (inputs : List (Vector Byte N)) (counter : UInt64) (out : List Byte)
    (hcounter : counter.toNat + inputs.length < 2 ^ 64) :
    hash1Each b args compress inputs counter out = .ok (written args inputs counter out) := by
  subst hcompress
  induction inputs generalizing counter out with
  | nil => simp [hash1Each, written, served, hashEach]
  | cons input inputs ih =>
      rw [List.length_cons] at hcounter
      by_cases hout : out.length < 32
      · simp [hash1Each, hout, written, served_of_short hout, hashEach]
      · have hone : counter.toNat + 1 < 2 ^ 64 := by omega
        have hle := toNat_advance_le (args.many N) hone
        have hadvance : args.advance b counter 1 = .ok ((args.many N).advance counter 1) :=
          advance_eq b args N hone
        have hsplit : written args (input :: inputs) counter out = _ :=
          written_split args (k := 1) (by rw [List.length_cons]; omega) (by omega) counter
        rw [hash1Each, if_neg hout, hash1_eq b args _ hN, Result.ok_bind, hadvance, Result.ok_bind,
          ih _ _ (by omega), Result.ok_bind, Result.pure_eq, hsplit]
        simp [hashEach]

/-! ### Whole batches -/

theorem masked_le (increment : Bool) (j : ℕ) (hj : j < 2 ^ 64) :
    ((if increment then 0xffffffffffffffff else 0 : UInt64) &&& UInt64.ofNat j).toNat ≤ j := by
  rw [UInt64.toNat_and, UInt64.toNat_ofNat_of_lt' hj]
  exact Nat.and_le_right

/-- No sum of a lane overflows where the last one does not. -/
theorem loadCountersRust_eq (counter : UInt64) (increment : Bool)
    (hcounter : counter.toNat + n < 2 ^ 64) :
    loadCountersRust (n := n) b counter increment = .ok (loadCounters64 counter increment) := by
  have hsum : ∀ j : Fin n, b.addU64 counter
      ((if increment then 0xffffffffffffffff else 0) &&& UInt64.ofNat j.val) =
      pure (counters64 counter increment j) := by
    intro j
    have hle := masked_le increment j.val (by omega)
    exact b.addU64_of_lt (by omega)
  rw [loadCountersRust]
  simp only [hsum]
  rw [Vector.ofFnM_pure]
  simp [loadCounters64, Vector.get]

theorem hashNRust_eq {K : Backend n} (hK : K.Lawful) (hcounters : K.loadCounters = loadCounters64)
    (args : ManyArgs) (inputs : Fin n → List Byte) (counter : UInt64)
    (hcounter : counter.toNat + n < 2 ^ 64) :
    hashNRust b K args inputs counter =
      .ok (hashEach compressInPlacePortable args (List.ofFn inputs) counter) := by
  rw [hashNRust, loadCountersRust_eq b counter _ hcounter, Result.ok_bind, ← hashN_eq hK, hashN,
    hcounters]
  rfl

/-- Whole batches write what the inputs one by one write. -/
theorem batchesRust_eq [NeZero n] {K : Backend n} (hK : K.Lawful)
    (hcounters : K.loadCounters = loadCounters64)
    {rest : List (Vector Byte N) → UInt64 → List Byte → Result (List Byte)}
    (hrest : ∀ inputs counter out, counter.toNat + inputs.length < 2 ^ 64 →
      (b.debugAssertions = true → inputs.length * 32 ≤ out.length) →
      rest inputs counter out = .ok (written args inputs counter out))
    (inputs : List (Vector Byte N)) (counter : UInt64) (out : List Byte)
    (hcounter : counter.toNat + inputs.length < 2 ^ 64)
    (hout : b.debugAssertions = true → inputs.length * 32 ≤ out.length) :
    batchesRust b args K rest inputs counter out = .ok (written args inputs counter out) := by
  induction h : inputs.length using Nat.strong_induction_on generalizing inputs counter out with
  | _ m ih =>
      subst h
      rw [batchesRust]
      split
      · rename_i hbatch
        obtain ⟨hlen, hroom⟩ := hbatch
        have hn := NeZero.pos n
        have hlt : counter.toNat + n < 2 ^ 64 := by omega
        have hle := toNat_advance_le (args.many N) hlt
        have hdrop : (inputs.drop n).length = inputs.length - n := List.length_drop
        rw [hashNRust_eq b hK hcounters _ _ _ hlt, Result.ok_bind, advance_eq b args N hlt,
          Result.ok_bind, ih _ (by omega) (inputs.drop n) _ _ (by omega) ?_ rfl, Result.ok_bind,
          Result.pure_eq, ofFn_getD (by rw [List.length_map]; exact hlen), ← List.map_take,
          written_split args hlen hroom]
        intro hassert
        have := hout hassert
        rw [hdrop, List.length_drop]
        omega
      · exact hrest inputs counter out hcounter hout

/-! ### The back ends -/

theorem lawful_rustSse2 : rustSse2Backend.Lawful :=
  lawful_64 laneWise_rustShift rfl (lane_transposeMsg transposeVecs128_eq)
    (storeTransposed_eq transposeVecs128_eq (k := 2))

theorem transposeVecsWasm_eq (x : Fin 4 → Lanes 4) (i j : Fin 4) :
    transposeVecsWasm Word x i j = x j i := by
  have hnetwork : transposeVecsWasm Word x = transposeVecs128 Word x := by
    simp only [transposeVecsWasm, transposeVecs128, wasmUnpackloEpi32_eq, wasmUnpackhiEpi32_eq,
      wasmUnpackloEpi64_eq, wasmUnpackhiEpi64_eq]
  rw [hnetwork, transposeVecs128_eq]

theorem lawful_wasm : wasmBackend.Lawful :=
  lawful_64 laneWise_wasm rfl (lane_transposeMsg transposeVecsWasm_eq)
    (storeTransposed_eq transposeVecsWasm_eq (k := 2))

theorem lawful_rustAvx2 : rustAvx2Backend.Lawful :=
  lawful_64 laneWise_rustShift rfl (lane_transposeMsg transposeVecs256_eq)
    (storeTransposed_eq transposeVecs256_eq (k := 1))

/-- The assertion on the lengths fails in every module or in none. -/
theorem asserted_eq {inputs : List (Vector Byte N)} {out : List Byte} {x y : Result (List Byte)}
    (h : (b.debugAssertions = true → inputs.length * 32 ≤ out.length) → x = y) :
    (b.debugAssert (inputs.length * 32 ≤ out.length) >>= fun _ => x) =
      (b.debugAssert (inputs.length * 32 ≤ out.length) >>= fun _ => y) := by
  by_cases hassert : b.debugAssertions = true → inputs.length * 32 ≤ out.length
  · rw [h hassert]
  · have hfails : b.debugAssert (inputs.length * 32 ≤ out.length) = .error .debugAssert :=
      if_pos (Classical.not_imp.mp hassert)
    rw [hfails, Result.error_bind, Result.error_bind]

theorem compressInPlaceRustSse2_portable : compressInPlaceRustSse2 = compressInPlacePortable := by
  funext cv block blockLen counter flags
  exact compressInPlaceRustSse2_eq cv block blockLen counter flags

theorem compressInPlaceWasm_portable : compressInPlaceWasm = compressInPlacePortable := by
  funext cv block blockLen counter flags
  exact compressInPlaceWasm_eq cv block blockLen counter flags

section Equal

variable (hN : N % 64 = 0) (inputs : List (Vector Byte N)) (counter : UInt64) (out : List Byte)
  (hcounter : counter.toNat + inputs.length < 2 ^ 64)
include hN hcounter

theorem hashManyRustSse2_eq :
    hashManyRustSse2 b args inputs counter out =
      hashManyRustPortable b args inputs counter out := by
  refine asserted_eq b fun hout => ?_
  rw [hash1Each_eq b args rfl hN inputs counter out hcounter]
  exact batchesRust_eq b args lawful_rustSse2 rfl
    (fun inputs counter out hcounter _ =>
      hash1Each_eq b args compressInPlaceRustSse2_portable hN inputs counter out hcounter)
    inputs counter out hcounter hout

theorem hashManyWasm_eq :
    hashManyWasm b args inputs counter out = hashManyRustPortable b args inputs counter out := by
  refine asserted_eq b fun hout => ?_
  rw [hash1Each_eq b args rfl hN inputs counter out hcounter]
  exact batchesRust_eq b args lawful_wasm rfl
    (fun inputs counter out hcounter _ =>
      hash1Each_eq b args compressInPlaceWasm_portable hN inputs counter out hcounter)
    inputs counter out hcounter hout

/-- Where the slice is long enough, the portable code writes all outputs and leaves what is
behind them. -/
theorem hashManyRustPortable_eq (hout : inputs.length * 32 ≤ out.length) :
    hashManyRustPortable b args inputs counter out =
      .ok (hashManyPortable (args.many N) (inputs.map Vector.toList) counter ++
        out.drop (inputs.length * 32)) := by
  have hserved : served inputs out = inputs.map Vector.toList := by
    rw [served, List.take_of_length_le (by omega)]
  rw [hashManyRustPortable, b.debugAssert_of hout, Result.ok_bind,
    hash1Each_eq b args rfl hN inputs counter out hcounter, written, hserved, List.length_map]
  rfl

/-- With any code for the leftover inputs that agrees with the portable code. -/
theorem hashManyRustAvx2_eq
    {sse41 : List (Vector Byte N) → UInt64 → List Byte → Result (List Byte)}
    (hsse41 : ∀ inputs counter out, counter.toNat + inputs.length < 2 ^ 64 →
      sse41 inputs counter out = hashManyRustPortable b args inputs counter out) :
    hashManyRustAvx2 b args inputs counter out sse41 =
      hashManyRustPortable b args inputs counter out := by
  refine asserted_eq b fun hout => ?_
  rw [hash1Each_eq b args rfl hN inputs counter out hcounter]
  refine batchesRust_eq b args lawful_rustAvx2 rfl ?_ inputs counter out hcounter hout
  intro inputs counter out hcounter hout
  have hassert : b.debugAssert (inputs.length * 32 ≤ out.length) = .ok () :=
    if_neg fun h => h.2 (hout h.1)
  rw [hsse41 inputs counter out hcounter, hashManyRustPortable, hassert, Result.ok_bind,
    hash1Each_eq b args rfl hN inputs counter out hcounter]

end Equal

/-- SSE2, WASM and AVX2 write the bytes that `src/portable.rs` writes. -/
theorem hashMany_rust (hN : N % 64 = 0) (inputs : List (Vector Byte N)) (counter : UInt64)
    (out : List Byte) (hcounter : counter.toNat + inputs.length < 2 ^ 64)
    (sse41 : List (Vector Byte N) → UInt64 → List Byte → Result (List Byte))
    (hsse41 : ∀ inputs counter out, counter.toNat + inputs.length < 2 ^ 64 →
      sse41 inputs counter out = hashManyRustPortable b args inputs counter out) :
    hashManyRustSse2 b args inputs counter out = hashManyRustPortable b args inputs counter out ∧
    hashManyWasm b args inputs counter out = hashManyRustPortable b args inputs counter out ∧
    hashManyRustAvx2 b args inputs counter out sse41 =
      hashManyRustPortable b args inputs counter out ∧
    (inputs.length * 32 ≤ out.length →
      hashManyRustPortable b args inputs counter out =
        .ok (hashManyPortable (args.many N) (inputs.map Vector.toList) counter ++
          out.drop (inputs.length * 32))) :=
  ⟨hashManyRustSse2_eq b args hN inputs counter out hcounter,
    hashManyWasm_eq b args hN inputs counter out hcounter,
    hashManyRustAvx2_eq b args hN inputs counter out hcounter hsse41,
    hashManyRustPortable_eq b args hN inputs counter out hcounter⟩

/-- Nine inputs of two blocks: one batch of eight or two of four, and one input more, with a
carry between the words of the counter. -/
theorem hashMany_rust_nine :
    let args : RustArgs := ⟨iv, true, 0, ByteFlag.chunkStart, ByteFlag.chunkEnd⟩
    let inputs : List (Vector Byte 128) := List.replicate 9 (Vector.replicate 128 7)
    let checked : Build := ⟨true, true⟩
    let out : List Byte := List.replicate 300 0
    hashManyRustSse2 checked args inputs 0xfffffffe out =
        hashManyRustPortable checked args inputs 0xfffffffe out ∧
      hashManyWasm checked args inputs 0xfffffffe out =
        hashManyRustPortable checked args inputs 0xfffffffe out ∧
      hashManyRustAvx2 checked args inputs 0xfffffffe out (hashManyRustPortable checked args) =
        hashManyRustPortable checked args inputs 0xfffffffe out := by
  intro args inputs checked out
  obtain ⟨hsse2, hwasm, havx2, -⟩ := hashMany_rust checked args (by decide) inputs 0xfffffffe out
    (by decide) (hashManyRustPortable checked args) fun _ _ _ _ => rfl
  exact ⟨hsse2, hwasm, havx2⟩

end Blake3.Simd
