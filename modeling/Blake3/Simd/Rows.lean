import Blake3.Simd.Intrinsics

/-!
One compression with the four rows of the state in registers, as
`c/blake3_sse2.c`, `c/blake3_sse41.c` and `c/blake3_avx512.c` do it. The
columns are mixed lane by lane; for the diagonals all rows but the second are
rotated, and the message words of the second half of a round are rotated with
them. The message is permuted from round to round where it lies.
-/

namespace Blake3.Simd

open Registers QuarterRound

/-- What differs between the files. -/
structure RowBackend where
  arx : Arx (Lanes 4)
  blend : Lanes 4 → Lanes 4 → ℕ → Lanes 4

/-- `blend_epi16` of `c/blake3_sse2.c`, where there is no such instruction. -/
def blendEpi16Sse2 (a b : Lanes 4) (imm : ℕ) : Lanes 4 :=
  let bits := setEpi16 #v[0x80, 0x40, 0x20, 0x10, 0x08, 0x04, 0x02, 0x01]
  let mask := set1Epi16 (UInt16.ofNat imm)
  let mask := andSi mask bits
  let mask := cmpeqEpi16 mask bits
  orSi (andSi mask b) (andnotSi mask a)

def sse2Rows : RowBackend := { arx := sse2Arx, blend := blendEpi16Sse2 }

def sse41Rows : RowBackend := { arx := sse41Arx, blend := blendEpi16 }

def avx512Rows : RowBackend := { arx := avx512Arx, blend := blendEpi16 }

def set4 (a b c d : Word) : Lanes 4 := ![a, b, c, d]

/-- Four registers: the rows of the state, or the message words of a round. -/
abbrev Quad := Fin 4 → Lanes 4

/-! ### The rounds -/

def diagonalize (rows : Quad) : Quad :=
  ![shuffleEpi32 (rows 0) (mmShuffle 2 1 0 3), rows 1, shuffleEpi32 (rows 2) (mmShuffle 0 3 2 1),
    shuffleEpi32 (rows 3) (mmShuffle 1 0 3 2)]

def undiagonalize (rows : Quad) : Quad :=
  ![shuffleEpi32 (rows 0) (mmShuffle 0 3 2 1), rows 1, shuffleEpi32 (rows 2) (mmShuffle 2 1 0 3),
    shuffleEpi32 (rows 3) (mmShuffle 1 0 3 2)]

section Backend

variable (o : RowBackend)

/-- `g1` and `g2` on the rows, before and after they are diagonalized. -/
def mixRows (t rows : Quad) : Quad :=
  let rows := half₁ o.arx (t 0) rows
  let rows := half₂ o.arx (t 1) rows
  let rows := diagonalize rows
  let rows := half₁ o.arx (t 2) rows
  let rows := half₂ o.arx (t 3) rows
  undiagonalize rows

/-- The message words of the first round. -/
def firstWords (m : Quad) : Quad :=
  let t₀ := shufflePs (m 0) (m 1) (mmShuffle 2 0 2 0)
  let t₁ := shufflePs (m 0) (m 1) (mmShuffle 3 1 3 1)
  let t₂ := shufflePs (m 2) (m 3) (mmShuffle 2 0 2 0)
  let t₂ := shuffleEpi32 t₂ (mmShuffle 2 1 0 3)
  let t₃ := shufflePs (m 2) (m 3) (mmShuffle 3 1 3 1)
  let t₃ := shuffleEpi32 t₃ (mmShuffle 2 1 0 3)
  ![t₀, t₁, t₂, t₃]

/-- The message words of any later round, from those of the round before. -/
def nextWords (m : Quad) : Quad :=
  let t₀ := shufflePs (m 0) (m 1) (mmShuffle 3 1 1 2)
  let t₀ := shuffleEpi32 t₀ (mmShuffle 0 3 2 1)
  let t₁ := shufflePs (m 2) (m 3) (mmShuffle 3 3 2 2)
  let tt := shuffleEpi32 (m 0) (mmShuffle 0 0 3 3)
  let t₁ := o.blend tt t₁ 0xcc
  let t₂ := unpackloEpi64 (m 3) (m 1)
  let tt := o.blend t₂ (m 2) 0xc0
  let t₂ := shuffleEpi32 tt (mmShuffle 1 3 2 0)
  let t₃ := unpackhiEpi32 (m 1) (m 3)
  let tt := unpackloEpi32 (m 2) t₃
  let t₃ := shuffleEpi32 tt (mmShuffle 0 1 3 2)
  ![t₀, t₁, t₂, t₃]

/-- The seven rounds; the message words of a round do not depend on the rows. -/
def allRoundsRows (m rows : Quad) : Quad :=
  let t := firstWords m
  let rows := mixRows o t rows
  let t := nextWords o t
  let rows := mixRows o t rows
  let t := nextWords o t
  let rows := mixRows o t rows
  let t := nextWords o t
  let rows := mixRows o t rows
  let t := nextWords o t
  let rows := mixRows o t rows
  let t := nextWords o t
  let rows := mixRows o t rows
  let t := nextWords o t
  mixRows o t rows

/-- `compress_pre` -/
def compressPreRows (cv : CVWords) (block : Block) (blockLen : Byte) (counter : UInt64)
    (flags : Byte) : Quad :=
  let rows : Quad := ![
    fun i => cv.get (Fin.ofNat 8 i.val), fun i => cv.get (Fin.ofNat 8 (4 + i.val)),
    set4 (iv.get 0) (iv.get 1) (iv.get 2) (iv.get 3),
    set4 (counterLow counter) (counterHigh counter) blockLen.toUInt32 flags.toUInt32]
  let m : Quad := ![loadu block.toList 0, loadu block.toList 16, loadu block.toList 32,
    loadu block.toList 48]
  allRoundsRows o m rows

/-- `compress_in_place` -/
def compressInPlaceRows (cv : CVWords) (block : Block) (blockLen : Byte) (counter : UInt64)
    (flags : Byte) : CVWords :=
  let rows := compressPreRows o cv block blockLen counter flags
  let low := xorSi (rows 0) (rows 2)
  let high := xorSi (rows 1) (rows 3)
  Vector.ofFn fun i => if h : i.val < 4 then low ⟨i.val, h⟩ else high ⟨i.val - 4, by omega⟩

/-- `compress_xof` -/
def compressXofRows (cv : CVWords) (block : Block) (blockLen : Byte) (counter : UInt64)
    (flags : Byte) : List Byte :=
  let rows := compressPreRows o cv block blockLen counter flags
  storeu (xorSi (rows 0) (rows 2)) ++ storeu (xorSi (rows 1) (rows 3)) ++
    storeu (xorSi (rows 2) fun i => cv.get (Fin.ofNat 8 i.val)) ++
    storeu (xorSi (rows 3) fun i => cv.get (Fin.ofNat 8 (4 + i.val)))

end Backend

/-! ### The message words -/

/-- Where a round finds its message words `M`. -/
def grouped (M : Fin 16 → Word) : Quad :=
  ![![M 0, M 2, M 4, M 6], ![M 1, M 3, M 5, M 7], ![M 14, M 8, M 10, M 12],
    ![M 15, M 9, M 11, M 13]]

theorem firstWords_eq (M : Fin 16 → Word) :
    firstWords ![![M 0, M 1, M 2, M 3], ![M 4, M 5, M 6, M 7], ![M 8, M 9, M 10, M 11],
      ![M 12, M 13, M 14, M 15]] = grouped M := by
  simp only [firstWords, shufflePs_mmShuffle, shuffleEpi32_mmShuffle]
  rfl

/-- A blend that takes the words its immediate operand says. -/
structure RowBackend.Lawful (o : RowBackend) : Prop where
  laneWise : LaneWise o.arx
  blend_cc : ∀ a b, o.blend a b 0xcc = ![a 0, b 1, a 2, b 3]
  blend_c0 : ∀ a b, o.blend a b 0xc0 = ![a 0, a 1, a 2, b 3]

theorem blendEpi16_cc (a b : Lanes 4) : blendEpi16 a b 0xcc = ![a 0, b 1, a 2, b 3] := by
  funext i
  fin_cases i <;> exact join_halves _

theorem blendEpi16_c0 (a b : Lanes 4) : blendEpi16 a b 0xc0 = ![a 0, a 1, a 2, b 3] := by
  funext i
  fin_cases i <;> exact join_halves _

theorem masked_ones (a b : Word) : 0xffffffff &&& b ||| ~~~0xffffffff &&& a = b := by
  rw [show (0xffffffff : Word) = -1 from rfl]
  simp

/-- The mask of the emulated blend is all ones in the words it takes from the second operand. -/
theorem blendEpi16Sse2_cc (a b : Lanes 4) : blendEpi16Sse2 a b 0xcc = ![a 0, b 1, a 2, b 3] := by
  have hmask : (let bits := setEpi16 #v[0x80, 0x40, 0x20, 0x10, 0x08, 0x04, 0x02, 0x01]
      cmpeqEpi16 (andSi (set1Epi16 (UInt16.ofNat 0xcc)) bits) bits) =
        ![0, 0xffffffff, 0, 0xffffffff] := by decide
  simp only [blendEpi16Sse2] at hmask ⊢
  rw [hmask]
  funext i
  fin_cases i <;> simp [orSi, andSi, andnotSi, masked_ones]

theorem blendEpi16Sse2_c0 (a b : Lanes 4) : blendEpi16Sse2 a b 0xc0 = ![a 0, a 1, a 2, b 3] := by
  have hmask : (let bits := setEpi16 #v[0x80, 0x40, 0x20, 0x10, 0x08, 0x04, 0x02, 0x01]
      cmpeqEpi16 (andSi (set1Epi16 (UInt16.ofNat 0xc0)) bits) bits) =
        ![0, 0, 0, 0xffffffff] := by decide
  simp only [blendEpi16Sse2] at hmask ⊢
  rw [hmask]
  funext i
  fin_cases i <;> simp [orSi, andSi, andnotSi, masked_ones]

theorem lawful_sse2Rows : sse2Rows.Lawful := ⟨laneWise_sse2, blendEpi16Sse2_cc, blendEpi16Sse2_c0⟩

theorem lawful_sse41Rows : sse41Rows.Lawful := ⟨laneWise_sse41, blendEpi16_cc, blendEpi16_c0⟩

theorem lawful_avx512Rows : avx512Rows.Lawful := ⟨laneWise_avx512, blendEpi16_cc, blendEpi16_c0⟩

theorem nextWords_grouped {o : RowBackend} (ho : o.Lawful) (M : Fin 16 → Word) :
    nextWords o (grouped M) = grouped fun i => M (msgPermutation.get i) := by
  simp only [nextWords, ho.blend_cc, ho.blend_c0, shufflePs_mmShuffle, shuffleEpi32_mmShuffle,
    unpackloEpi32_four, unpackhiEpi32_four, unpackloEpi64_four]
  rfl

/-! ### The rows of the state -/

/-- The rows of a state. -/
def rowsOf (state : BlockWords) : Quad := fun k i => view columns state i k

/-- Mixing lane by lane mixes the words in each lane. -/
theorem lane_mix {o : Arx (Lanes 4)} (ho : LaneWise o) (mx my : Lanes 4) (rows : Quad) (i : Fin 4) :
    (fun k => half₂ o my (half₁ o mx rows) k i) =
      mix wordArx (mx i) (my i) fun k => rows k i := by
  rw [half₂_map (ho i), half₁_map (ho i), mix]

/-- A diagonal lies in the lane after the one its first word comes from. -/
theorem diagonalize_rowsOf (state : BlockWords) (i : Fin 4) :
    (fun k => diagonalize (rowsOf state) k i) = view diagonals state (i + 3) := by
  simp only [diagonalize, shuffleEpi32_mmShuffle]
  funext k
  fin_cases k <;> fin_cases i <;> rfl

theorem undiagonalize_eq {rows : Quad} {state : BlockWords}
    (h : ∀ i, (fun k => rows k i) = view diagonals state (i + 3)) :
    undiagonalize rows = rowsOf state := by
  have hword : ∀ k i, rows k i = view diagonals state (i + 3) k := fun k i => congrFun (h i) k
  simp only [undiagonalize, shuffleEpi32_mmShuffle]
  funext k i
  fin_cases k <;> fin_cases i <;> exact hword _ _

/-- The words that the columns and the diagonals of a round take. -/
def columnStep (state : BlockWords) (M : Fin 16 → Word) : BlockWords :=
  interleaved wordArx columns ![M 0, M 2, M 4, M 6] ![M 1, M 3, M 5, M 7] state

def diagonalStep (state : BlockWords) (M : Fin 16 → Word) : BlockWords :=
  interleaved wordArx diagonals ![M 8, M 10, M 12, M 14] ![M 9, M 11, M 13, M 15] state

theorem roundFn_eq_steps (state msg : BlockWords) (r : Fin 7) :
    roundFn state msg r =
      (let M i := msg.get (schedule r i)
       diagonalStep (columnStep state M) M) := (laneRoundFn_wordArx state msg r).symm

section Rounds

variable {o : RowBackend} (ho : o.Lawful) (state : BlockWords) (M : Fin 16 → Word)
include ho

theorem mix_columns :
    half₂ o.arx (grouped M 1) (half₁ o.arx (grouped M 0) (rowsOf state)) =
      rowsOf (columnStep state M) := by
  funext k i
  have hlane := congrFun (lane_mix ho.laneWise (grouped M 0) (grouped M 1) (rowsOf state) i) k
  exact hlane.trans (congrFun (view_interleaved _ columns_injective _ _ state i) k).symm

theorem mix_diagonals (i : Fin 4) :
    (fun k => half₂ o.arx (grouped M 3)
      (half₁ o.arx (grouped M 2) (diagonalize (rowsOf state))) k i) =
      view diagonals (diagonalStep state M) (i + 3) := by
  have hx : grouped M 2 i = ![M 8, M 10, M 12, M 14] (i + 3) := by fin_cases i <;> rfl
  have hy : grouped M 3 i = ![M 9, M 11, M 13, M 15] (i + 3) := by fin_cases i <;> rfl
  rw [lane_mix ho.laneWise, diagonalize_rowsOf, hx, hy, diagonalStep,
    view_interleaved _ diagonals_injective]

theorem mixRows_grouped :
    mixRows o (grouped M) (rowsOf state) = rowsOf (diagonalStep (columnStep state M) M) := by
  rw [mixRows, mix_columns ho]
  exact undiagonalize_eq (mix_diagonals ho (columnStep state M) M)

end Rounds

/-! ### The compression -/

/-- Four registers stored one after the other are sixteen words. -/
theorem storeu_four {a b c d : Lanes 4} {words : BlockWords}
    (ha : ∀ i, a i = words.get ((i.castAdd 4).castAdd 8))
    (hb : ∀ i, b i = words.get ((i.natAdd 4).castAdd 8))
    (hc : ∀ i, c i = words.get ((i.castAdd 4).natAdd 8))
    (hd : ∀ i, d i = words.get ((i.natAdd 4).natAdd 8)) :
    storeu a ++ storeu b ++ storeu c ++ storeu d = (leBytesFromWords64 words).toList := by
  obtain rfl := funext ha
  obtain rfl := funext hb
  obtain rfl := funext hc
  obtain rfl := funext hd
  rw [leBytesFromWords64, toList_leBytesFromWords]
  simp only [storeu, ← List.flatMap_append]
  congr 1

/-- Where a round of a message finds its words. -/
def groupedAt (msg : BlockWords) (r : Fin 7) : Quad := grouped fun i => msg.get (schedule r i)

section Compress

variable {o : RowBackend} (ho : o.Lawful)
include ho

/-- A round on rows is a round on the state. -/
theorem mixRows_groupedAt (state msg : BlockWords) (r : Fin 7) :
    mixRows o (groupedAt msg r) (rowsOf state) = rowsOf (roundFn state msg r) := by
  rw [groupedAt, mixRows_grouped ho, roundFn_eq_steps]

/-- The words of a round from those of the round before it. -/
theorem nextWords_groupedAt (msg : BlockWords) (r : Fin 6) :
    nextWords o (groupedAt msg r.castSucc) = groupedAt msg r.succ := by
  simp only [groupedAt, nextWords_grouped ho, schedule_succ]

theorem allRoundsRows_eq {m : Quad} {msg : BlockWords} (hm : firstWords m = groupedAt msg 0)
    (state : BlockWords) : allRoundsRows o m (rowsOf state) = rowsOf (allRounds state msg) := by
  have h₁ : nextWords o (groupedAt msg 0) = groupedAt msg 1 := nextWords_groupedAt ho msg 0
  have h₂ : nextWords o (groupedAt msg 1) = groupedAt msg 2 := nextWords_groupedAt ho msg 1
  have h₃ : nextWords o (groupedAt msg 2) = groupedAt msg 3 := nextWords_groupedAt ho msg 2
  have h₄ : nextWords o (groupedAt msg 3) = groupedAt msg 4 := nextWords_groupedAt ho msg 3
  have h₅ : nextWords o (groupedAt msg 4) = groupedAt msg 5 := nextWords_groupedAt ho msg 4
  have h₆ : nextWords o (groupedAt msg 5) = groupedAt msg 6 := nextWords_groupedAt ho msg 5
  simp only [allRoundsRows, allRounds, hm, h₁, h₂, h₃, h₄, h₅, h₆, mixRows_groupedAt ho]

variable (cv : CVWords) (block : Block) (blockLen : Byte) (counter : UInt64) (flags : Byte)

omit ho in
theorem firstWords_groupedAt :
    firstWords ![loadu block.toList 0, loadu block.toList 16, loadu block.toList 32,
      loadu block.toList 48] = groupedAt (wordsFromLeBytes64 block) 0 := by
  have hload : ∀ (k : ℕ) (hk : 4 * k + 3 < 16), (loadu block.toList (16 * k) : Lanes 4) =
      ![(wordsFromLeBytes64 block).get ⟨4 * k, by omega⟩,
        (wordsFromLeBytes64 block).get ⟨4 * k + 1, by omega⟩,
        (wordsFromLeBytes64 block).get ⟨4 * k + 2, by omega⟩,
        (wordsFromLeBytes64 block).get ⟨4 * k + 3, by omega⟩] := by
    intro k hk
    have hword : ∀ i : Fin 4, loadu block.toList (16 * k) i =
        (wordsFromLeBytes64 block).get ⟨4 * k + i.val, by omega⟩ := by
      intro i
      rw [loadu_block block.toList 0 (w := 4 * k + i.val) (by omega) i (by omega), Nat.mul_zero,
        List.drop_zero, blockOfBytes_toList]
      rfl
    funext i
    rw [hword]
    fin_cases i <;> rfl
  have hwords := firstWords_eq fun i => (wordsFromLeBytes64 block).get i
  simp only [groupedAt, schedule_zero]
  rw [← hwords, hload 0 (by omega), hload 1 (by omega), hload 2 (by omega), hload 3 (by omega)]
  rfl

/-- The registers hold the rows of the portable state. -/
theorem compressPreRows_eq :
    compressPreRows o cv block blockLen counter flags =
      rowsOf (compressPre cv block blockLen counter flags) := by
  have hrows : ![fun i => cv.get (Fin.ofNat 8 i.val), fun i => cv.get (Fin.ofNat 8 (4 + i.val)),
      set4 (iv.get 0) (iv.get 1) (iv.get 2) (iv.get 3),
      set4 (counterLow counter) (counterHigh counter) blockLen.toUInt32 flags.toUInt32] =
      rowsOf (initialState (compressArgs cv block blockLen counter flags)) := by
    funext k i
    fin_cases k <;> fin_cases i <;> rfl
  rw [compressPre, ← allRoundsRows_eq ho (firstWords_groupedAt block), ← hrows]
  rfl

theorem compressInPlaceRows_eq :
    compressInPlaceRows o cv block blockLen counter flags =
      compressInPlacePortable cv block blockLen counter flags := by
  rw [compressInPlaceRows, compressPreRows_eq ho, compressInPlacePortable, foldState]
  congr 1
  funext i
  fin_cases i <;> rfl

theorem compressXofRows_eq :
    compressXofRows o cv block blockLen counter flags =
      (compressXofPortable cv block blockLen counter flags).toList := by
  rw [compressXofRows, compressPreRows_eq ho, compressXofPortable]
  generalize compressPre cv block blockLen counter flags = state
  apply storeu_four <;> intro i
  · rw [outputWords_low]
    fin_cases i <;> rfl
  · rw [outputWords_low]
    fin_cases i <;> rfl
  · rw [outputWords_high]
    fin_cases i <;> rfl
  · rw [outputWords_high]
    fin_cases i <;> rfl

end Compress

/-! ### The back ends -/

def compressInPlaceSse2 := compressInPlaceRows sse2Rows

def compressXofSse2 := compressXofRows sse2Rows

def compressInPlaceSse41 := compressInPlaceRows sse41Rows

def compressXofSse41 := compressXofRows sse41Rows

def compressInPlaceAvx512 := compressInPlaceRows avx512Rows

def compressXofAvx512 := compressXofRows avx512Rows

/-- SSE2, SSE4.1 and AVX-512 compress as the portable code does. -/
theorem compress_rows (cv : CVWords) (block : Block) (blockLen : Byte) (counter : UInt64)
    (flags : Byte) :
    (compressInPlaceSse2 cv block blockLen counter flags =
        compressInPlacePortable cv block blockLen counter flags ∧
      compressXofSse2 cv block blockLen counter flags =
        (compressXofPortable cv block blockLen counter flags).toList) ∧
    (compressInPlaceSse41 cv block blockLen counter flags =
        compressInPlacePortable cv block blockLen counter flags ∧
      compressXofSse41 cv block blockLen counter flags =
        (compressXofPortable cv block blockLen counter flags).toList) ∧
    (compressInPlaceAvx512 cv block blockLen counter flags =
        compressInPlacePortable cv block blockLen counter flags ∧
      compressXofAvx512 cv block blockLen counter flags =
        (compressXofPortable cv block blockLen counter flags).toList) := by
  refine ⟨⟨?_, ?_⟩, ⟨?_, ?_⟩, ⟨?_, ?_⟩⟩
  · exact compressInPlaceRows_eq lawful_sse2Rows cv block blockLen counter flags
  · exact compressXofRows_eq lawful_sse2Rows cv block blockLen counter flags
  · exact compressInPlaceRows_eq lawful_sse41Rows cv block blockLen counter flags
  · exact compressXofRows_eq lawful_sse41Rows cv block blockLen counter flags
  · exact compressInPlaceRows_eq lawful_avx512Rows cv block blockLen counter flags
  · exact compressXofRows_eq lawful_avx512Rows cv block blockLen counter flags

end Blake3.Simd
