import Blake3.Simd.Rows

/-!
The same compression in `src/rust_sse2.rs` and `src/wasm32_simd.rs`. The Rust
code for SSE2 makes all four rotations of shifts. The other file has one
instruction that picks any elements of two registers and writes the shuffles,
the unpacking and two of the rotations with it; the blend selects bit by bit.
-/

namespace Blake3.Simd

open Registers QuarterRound

/-! ### SSE2 -/

/-- `src/rust_sse2.rs`, and `src/rust_avx2.rs` with wider registers -/
def rustShiftArx {n : ℕ} : Arx (Lanes n) where
  add := addEpi32
  xor := xorSi
  rot16 x := rotOr x 16
  rot12 x := rotOr x 12
  rot8 x := rotOr x 8
  rot7 x := rotOr x 7

theorem laneWise_rustShift {n : ℕ} : LaneWise (rustShiftArx (n := n)) := fun _ =>
  ⟨fun _ _ => rfl, fun _ _ => rfl, fun _ => rfl, fun _ => rfl, fun _ => rfl, fun _ => rfl⟩

/-- `blend_epi16` is the function of `c/blake3_sse2.c`. -/
def rustSse2Rows : RowBackend := { arx := rustShiftArx, blend := blendEpi16Sse2 }

theorem lawful_rustSse2Rows : rustSse2Rows.Lawful :=
  ⟨laneWise_rustShift, blendEpi16Sse2_cc, blendEpi16Sse2_c0⟩

def compressInPlaceRustSse2 := compressInPlaceRows rustSse2Rows

def compressXofRustSse2 := compressXofRows rustSse2Rows

/-! ### Instructions of WASM -/

/-- `i8x16_shuffle`: places from 16 on are in the second operand. -/
def i8x16Shuffle (places : Vector (Fin 32) 16) (a b : Lanes 4) : Lanes 4 :=
  ofEpi8 fun i =>
    if (places.get i).val < 16 then toEpi8 a (Fin.ofNat 16 (places.get i).val)
    else toEpi8 b (Fin.ofNat 16 ((places.get i).val - 16))

/-- `i16x8`: the lowest element is named first. -/
def i16x8 (x : Vector UInt16 (2 * 4)) : Lanes 4 := ofEpi16 fun i => x.get i

/-- `v128_bitselect`: the bits of the first operand where the mask is one. -/
def v128Bitselect (a b mask : Lanes 4) : Lanes 4 := fun i => a i &&& mask i ||| b i &&& ~~~mask i

def rot16Places : Vector (Fin 32) 16 := #v[2, 3, 0, 1, 6, 7, 4, 5, 10, 11, 8, 9, 14, 15, 12, 13]

def rot8Places : Vector (Fin 32) 16 := #v[1, 2, 3, 0, 5, 6, 7, 4, 9, 10, 11, 8, 13, 14, 15, 12]

/-- `src/wasm32_simd.rs` -/
def wasmArx : Arx (Lanes 4) where
  add := addEpi32
  xor := xorSi
  rot16 x := i8x16Shuffle rot16Places x x
  rot12 x := rotOr x 12
  rot8 x := i8x16Shuffle rot8Places x x
  rot7 x := rotOr x 7

theorem laneWise_wasm : LaneWise wasmArx := by
  intro j
  refine ⟨fun _ _ => rfl, fun _ _ => rfl, fun x => ?_, fun _ => rfl, fun x => ?_, fun _ => rfl⟩
  · fin_cases j <;> exact load32_rot16 _
  · fin_cases j <;> exact load32_rot8 _

/-- `blend_epi16`, with the operands of the selection exchanged -/
def blendEpi16Wasm (a b : Lanes 4) (imm : ℕ) : Lanes 4 :=
  let bits := i16x8 #v[0x01, 0x02, 0x04, 0x08, 0x10, 0x20, 0x40, 0x80]
  let mask := set1Epi16 (UInt16.ofNat imm)
  let mask := andSi mask bits
  let mask := cmpeqEpi16 mask bits
  v128Bitselect b a mask

/-- It is the other blend, written with other instructions. -/
theorem blendEpi16Wasm_eq (a b : Lanes 4) (imm : ℕ) :
    blendEpi16Wasm a b imm = blendEpi16Sse2 a b imm := by
  have hbits : i16x8 #v[0x01, 0x02, 0x04, 0x08, 0x10, 0x20, 0x40, 0x80] =
      setEpi16 #v[0x80, 0x40, 0x20, 0x10, 0x08, 0x04, 0x02, 0x01] := by
    funext i
    fin_cases i <;> rfl
  funext i
  simp only [blendEpi16Wasm, blendEpi16Sse2, hbits, v128Bitselect, orSi, andSi, andnotSi]
  rw [UInt32.and_comm (b i), UInt32.and_comm (a i)]

def wasmRows : RowBackend := { arx := wasmArx, blend := blendEpi16Wasm }

theorem lawful_wasmRows : wasmRows.Lawful where
  laneWise := laneWise_wasm
  blend_cc a b := (blendEpi16Wasm_eq a b 0xcc).trans (blendEpi16Sse2_cc a b)
  blend_c0 a b := (blendEpi16Wasm_eq a b 0xc0).trans (blendEpi16Sse2_c0 a b)

/-! ### Shuffles of WASM -/

section Shuffles

variable {α : Type} (a b : Reg 4 α)

/-- The macro `shuffle!`; the places of the second operand come after those of the first one. -/
def wasmShuffle (z y x w : Fin 4) : Reg 4 α :=
  i32x4Shuffle ![w.castAdd 4, x.castAdd 4, y.addNat 4, z.addNat 4] a b

def wasmShuffleEpi32 (i₃ i₂ i₁ i₀ : Fin 4) : Reg 4 α :=
  i32x4Shuffle ![i₀.castAdd 4, i₁.castAdd 4, i₂.castAdd 4, i₃.castAdd 4] a a

def wasmUnpackloEpi64 : Reg 4 α := i64x2Shuffle ![0, 2] a b

def wasmUnpackhiEpi64 : Reg 4 α := i64x2Shuffle ![1, 3] a b

def wasmUnpackloEpi32 : Reg 4 α := i32x4Shuffle ![0, 4, 1, 5] a b

def wasmUnpackhiEpi32 : Reg 4 α := i32x4Shuffle ![2, 6, 3, 7] a b

theorem i32x4Shuffle_low (w : Fin 4) (places : Fin 4 → Fin 8) (i : Fin 4)
    (h : places i = w.castAdd 4) : i32x4Shuffle places a b i = a w := by
  have hlow : ¬4 ≤ (w.castAdd 4).val := by rw [Fin.val_castAdd]; omega
  have hplace : Fin.ofNat 4 (w.castAdd 4).val = w := Fin.ext (Nat.mod_eq_of_lt w.isLt)
  simp only [i32x4Shuffle, select, h, hlow, hplace, decide_false, cond_false]

theorem i32x4Shuffle_high (w : Fin 4) (places : Fin 4 → Fin 8) (i : Fin 4)
    (h : places i = w.addNat 4) : i32x4Shuffle places a b i = b w := by
  have hhigh : 4 ≤ (w.addNat 4).val := by rw [Fin.val_addNat]; omega
  have hplace : Fin.ofNat 4 (w.addNat 4).val = w :=
    Fin.ext (by rw [Fin.val_ofNat, Fin.val_addNat]; omega)
  simp only [i32x4Shuffle, select, h, hhigh, hplace, decide_true, cond_true]

theorem wasmShuffle_eq (z y x w : Fin 4) :
    wasmShuffle a b z y x w = shufflePs a b (mmShuffle z y x w) := by
  rw [shufflePs_mmShuffle]
  funext i
  fin_cases i
  · exact i32x4Shuffle_low a b w _ _ rfl
  · exact i32x4Shuffle_low a b x _ _ rfl
  · exact i32x4Shuffle_high a b y _ _ rfl
  · exact i32x4Shuffle_high a b z _ _ rfl

theorem wasmShuffleEpi32_eq (i₃ i₂ i₁ i₀ : Fin 4) :
    wasmShuffleEpi32 a i₃ i₂ i₁ i₀ = shuffleEpi32 a (mmShuffle i₃ i₂ i₁ i₀) := by
  rw [shuffleEpi32_mmShuffle]
  funext i
  fin_cases i <;> exact i32x4Shuffle_low a a _ _ _ rfl

theorem wasmUnpackloEpi64_eq : wasmUnpackloEpi64 a b = unpackloEpi64 a b := by
  funext i
  fin_cases i <;> rfl

theorem wasmUnpackhiEpi64_eq : wasmUnpackhiEpi64 a b = unpackhiEpi64 a b := by
  funext i
  fin_cases i <;> rfl

theorem wasmUnpackloEpi32_eq : wasmUnpackloEpi32 a b = unpackloEpi32 a b := by
  funext i
  fin_cases i <;> rfl

theorem wasmUnpackhiEpi32_eq : wasmUnpackhiEpi32 a b = unpackhiEpi32 a b := by
  funext i
  fin_cases i <;> rfl

end Shuffles

/-! ### The rounds of WASM -/

def diagonalizeWasm (rows : Quad) : Quad :=
  ![wasmShuffleEpi32 (rows 0) 2 1 0 3, rows 1, wasmShuffleEpi32 (rows 2) 0 3 2 1,
    wasmShuffleEpi32 (rows 3) 1 0 3 2]

def undiagonalizeWasm (rows : Quad) : Quad :=
  ![wasmShuffleEpi32 (rows 0) 0 3 2 1, rows 1, wasmShuffleEpi32 (rows 2) 2 1 0 3,
    wasmShuffleEpi32 (rows 3) 1 0 3 2]

/-- `g1` and `g2` on the rows, before and after they are diagonalized. -/
def mixRowsWasm (t rows : Quad) : Quad :=
  let rows := half₁ wasmArx (t 0) rows
  let rows := half₂ wasmArx (t 1) rows
  let rows := diagonalizeWasm rows
  let rows := half₁ wasmArx (t 2) rows
  let rows := half₂ wasmArx (t 3) rows
  undiagonalizeWasm rows

/-- The message words of the first round. -/
def firstWordsWasm (m : Quad) : Quad :=
  let t₀ := wasmShuffle (m 0) (m 1) 2 0 2 0
  let t₁ := wasmShuffle (m 0) (m 1) 3 1 3 1
  let t₂ := wasmShuffle (m 2) (m 3) 2 0 2 0
  let t₂ := wasmShuffleEpi32 t₂ 2 1 0 3
  let t₃ := wasmShuffle (m 2) (m 3) 3 1 3 1
  let t₃ := wasmShuffleEpi32 t₃ 2 1 0 3
  ![t₀, t₁, t₂, t₃]

/-- The message words of any later round, from those of the round before. -/
def nextWordsWasm (m : Quad) : Quad :=
  let t₀ := wasmShuffle (m 0) (m 1) 3 1 1 2
  let t₀ := wasmShuffleEpi32 t₀ 0 3 2 1
  let t₁ := wasmShuffle (m 2) (m 3) 3 3 2 2
  let tt := wasmShuffleEpi32 (m 0) 0 0 3 3
  let t₁ := blendEpi16Wasm tt t₁ 0xcc
  let t₂ := wasmUnpackloEpi64 (m 3) (m 1)
  let tt := blendEpi16Wasm t₂ (m 2) 0xc0
  let t₂ := wasmShuffleEpi32 tt 1 3 2 0
  let t₃ := wasmUnpackhiEpi32 (m 1) (m 3)
  let tt := wasmUnpackloEpi32 (m 2) t₃
  let t₃ := wasmShuffleEpi32 tt 0 1 3 2
  ![t₀, t₁, t₂, t₃]

def allRoundsWasm (m rows : Quad) : Quad :=
  let t := firstWordsWasm m
  let rows := mixRowsWasm t rows
  let t := nextWordsWasm t
  let rows := mixRowsWasm t rows
  let t := nextWordsWasm t
  let rows := mixRowsWasm t rows
  let t := nextWordsWasm t
  let rows := mixRowsWasm t rows
  let t := nextWordsWasm t
  let rows := mixRowsWasm t rows
  let t := nextWordsWasm t
  let rows := mixRowsWasm t rows
  let t := nextWordsWasm t
  mixRowsWasm t rows

section Compress

variable (cv : CVWords) (block : Block) (blockLen : Byte) (counter : UInt64) (flags : Byte)

/-- `compress_pre` -/
def compressPreWasm : Quad :=
  let rows : Quad := ![fun i => cv.get (Fin.ofNat 8 i.val),
    fun i => cv.get (Fin.ofNat 8 (4 + i.val)),
    set4 (iv.get 0) (iv.get 1) (iv.get 2) (iv.get 3),
    set4 (counterLow counter) (counterHigh counter) blockLen.toUInt32 flags.toUInt32]
  let m : Quad := ![loadu block.toList 0, loadu block.toList 16, loadu block.toList 32,
    loadu block.toList 48]
  allRoundsWasm m rows

theorem sub_four_lt {i : Fin 8} (h : ¬i.val < 4) : i.val - 4 < 4 := by omega

/-- `compress_in_place` -/
def compressInPlaceWasm : CVWords :=
  let rows := compressPreWasm cv block blockLen counter flags
  let low := xorSi (rows 0) (rows 2)
  let high := xorSi (rows 1) (rows 3)
  Vector.ofFn fun i => if h : i.val < 4 then low ⟨i.val, h⟩ else high ⟨i.val - 4, sub_four_lt h⟩

/-- `compress_xof` -/
def compressXofWasm : List Byte :=
  let rows := compressPreWasm cv block blockLen counter flags
  storeu (xorSi (rows 0) (rows 2)) ++ storeu (xorSi (rows 1) (rows 3)) ++
    storeu (xorSi (rows 2) fun i => cv.get (Fin.ofNat 8 i.val)) ++
    storeu (xorSi (rows 3) fun i => cv.get (Fin.ofNat 8 (4 + i.val)))

end Compress

/-! ### The instructions say the same -/

theorem mixRowsWasm_eq (t rows : Quad) : mixRowsWasm t rows = mixRows wasmRows t rows := by
  simp only [mixRowsWasm, mixRows, diagonalizeWasm, undiagonalizeWasm, diagonalize, undiagonalize,
    wasmShuffleEpi32_eq, wasmRows]

theorem firstWordsWasm_eq (m : Quad) : firstWordsWasm m = firstWords m := by
  simp only [firstWordsWasm, firstWords, wasmShuffle_eq, wasmShuffleEpi32_eq]

theorem nextWordsWasm_eq (m : Quad) : nextWordsWasm m = nextWords wasmRows m := by
  simp only [nextWordsWasm, nextWords, wasmShuffle_eq, wasmShuffleEpi32_eq, wasmUnpackloEpi64_eq,
    wasmUnpackloEpi32_eq, wasmUnpackhiEpi32_eq, wasmRows]

theorem allRoundsWasm_eq (m rows : Quad) :
    allRoundsWasm m rows = allRoundsRows wasmRows m rows := by
  simp only [allRoundsWasm, allRoundsRows, mixRowsWasm_eq, firstWordsWasm_eq, nextWordsWasm_eq]

section Portable

variable (cv : CVWords) (block : Block) (blockLen : Byte) (counter : UInt64) (flags : Byte)

theorem compressPreWasm_eq :
    compressPreWasm cv block blockLen counter flags =
      compressPreRows wasmRows cv block blockLen counter flags :=
  allRoundsWasm_eq _ _

theorem compressInPlaceWasm_eq :
    compressInPlaceWasm cv block blockLen counter flags =
      compressInPlacePortable cv block blockLen counter flags := by
  rw [compressInPlaceWasm, compressPreWasm_eq]
  exact compressInPlaceRows_eq lawful_wasmRows cv block blockLen counter flags

theorem compressXofWasm_eq :
    compressXofWasm cv block blockLen counter flags =
      (compressXofPortable cv block blockLen counter flags).toList := by
  rw [compressXofWasm, compressPreWasm_eq]
  exact compressXofRows_eq lawful_wasmRows cv block blockLen counter flags

theorem compressInPlaceRustSse2_eq :
    compressInPlaceRustSse2 cv block blockLen counter flags =
      compressInPlacePortable cv block blockLen counter flags :=
  compressInPlaceRows_eq lawful_rustSse2Rows cv block blockLen counter flags

/-- SSE2 and WASM compress as `src/portable.rs` does, in place and for a block of output. -/
theorem compress_rust :
    compressInPlaceRustSse2 cv block blockLen counter flags =
        compressInPlacePortable cv block blockLen counter flags ∧
      compressXofRustSse2 cv block blockLen counter flags =
        (compressXofPortable cv block blockLen counter flags).toList ∧
      compressInPlaceWasm cv block blockLen counter flags =
        compressInPlacePortable cv block blockLen counter flags ∧
      compressXofWasm cv block blockLen counter flags =
        (compressXofPortable cv block blockLen counter flags).toList := by
  refine ⟨?_, ?_, ?_, ?_⟩
  · exact compressInPlaceRustSse2_eq cv block blockLen counter flags
  · exact compressXofRows_eq lawful_rustSse2Rows cv block blockLen counter flags
  · exact compressInPlaceWasm_eq cv block blockLen counter flags
  · exact compressXofWasm_eq cv block blockLen counter flags

end Portable

end Blake3.Simd
