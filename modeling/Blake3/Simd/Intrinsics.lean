import Blake3.Lib.Registers
import Blake3.Simd.Portable
import Mathlib.Data.List.OfFn

/-!
The vector instructions that `c/blake3_sse2.c`, `c/blake3_sse41.c`,
`c/blake3_avx2.c`, `c/blake3_avx512.c` and `c/blake3_neon.c` use on words, and
the four rotations as each of these files writes them. All of them rotate every
lane.
-/

namespace Blake3.Simd

open Registers QuarterRound

/-- A register of `n` words. -/
abbrev Lanes (n : ℕ) := Reg n Word

variable {n : ℕ}

/-! ### Lane by lane -/

def addEpi32 (a b : Lanes n) : Lanes n := fun i => a i + b i

def subEpi32 (a b : Lanes n) : Lanes n := fun i => a i - b i

def xorSi (a b : Lanes n) : Lanes n := fun i => a i ^^^ b i

def orSi (a b : Lanes n) : Lanes n := fun i => a i ||| b i

def andSi (a b : Lanes n) : Lanes n := fun i => a i &&& b i

/-- The first operand is inverted. -/
def andnotSi (a b : Lanes n) : Lanes n := fun i => ~~~a i &&& b i

def srliEpi32 (a : Lanes n) (count : Word) : Lanes n := fun i => a i >>> count

def slliEpi32 (a : Lanes n) (count : Word) : Lanes n := fun i => a i <<< count

def rorEpi32 (a : Lanes n) (count : Word) : Lanes n := fun i => rotateRight (a i) count

/-- All ones where the first operand is greater as a signed word. -/
def cmpgtEpi32 (a b : Lanes n) : Lanes n :=
  fun i => if (b i).toInt32 < (a i).toInt32 then 0xffffffff else 0

/-- Shift the second operand right and insert it below the high bits of the first one. -/
def vsriqU32 (a b : Lanes n) (count : Word) : Lanes n :=
  fun i => a i &&& ~~~(0xffffffff >>> count) ||| b i >>> count

/-! ### Halves of words -/

def toEpi16 (a : Lanes n) : Reg (2 * n) UInt16 := fun i =>
  if i.val % 2 = 0 then (a ⟨i.val / 2, by omega⟩).toUInt16
  else (a ⟨i.val / 2, by omega⟩ >>> 16).toUInt16

def ofEpi16 (a : Reg (2 * n) UInt16) : Lanes n := fun i =>
  (a ⟨2 * i.val, by omega⟩).toUInt32 ||| (a ⟨2 * i.val + 1, by omega⟩).toUInt32 <<< 16

def shuffleloEpi16 (a : Lanes 4) (imm : ℕ) : Lanes 4 := ofEpi16 fun i =>
  if i.val < 4 then toEpi16 a (Fin.ofNat (2 * 4) (imm2 imm i.val)) else toEpi16 a i

def shufflehiEpi16 (a : Lanes 4) (imm : ℕ) : Lanes 4 := ofEpi16 fun i =>
  if i.val < 4 then toEpi16 a i else toEpi16 a (Fin.ofNat (2 * 4) (4 + imm2 imm (i.val - 4)))

def set1Epi16 (x : UInt16) : Lanes 4 := ofEpi16 fun _ => x

/-- The highest element is named first. -/
def setEpi16 (x : Vector UInt16 (2 * 4)) : Lanes 4 := ofEpi16 fun i => x.get i.rev

def cmpeqEpi16 (a b : Lanes 4) : Lanes 4 := ofEpi16 fun i =>
  if toEpi16 a i = toEpi16 b i then 0xffff else 0

/-- Bit `i` of the immediate operand takes element `i` from the second operand. -/
def blendEpi16 (a b : Lanes 4) (imm : ℕ) : Lanes 4 := ofEpi16 fun i =>
  if imm.testBit i.val then toEpi16 b i else toEpi16 a i

/-- Swap the halves of every word. -/
def vrev32qU16 (a : Lanes 4) : Lanes 4 := ofEpi16 fun i =>
  toEpi16 a (Fin.ofNat (2 * 4) (i.val / 2 * 2 + (1 - i.val % 2)))

theorem pack_low (low high : UInt16) : (low.toUInt32 ||| high.toUInt32 <<< 16).toUInt16 = low := by
  apply UInt16.toBitVec_inj.mp
  ext i hi
  simp

theorem pack_high (low high : UInt16) :
    ((low.toUInt32 ||| high.toUInt32 <<< 16) >>> 16).toUInt16 = high := by
  apply UInt16.toBitVec_inj.mp
  ext i hi
  simp [show i < 32 by omega, show 16 + i < 32 by omega, BitVec.getLsbD_eq_getElem hi]

@[simp] theorem toEpi16_ofEpi16 (a : Reg (2 * n) UInt16) : toEpi16 (ofEpi16 a) = a := by
  funext i
  by_cases hi : i.val % 2 = 0
  · have hlow : (⟨2 * (i.val / 2), by omega⟩ : Fin (2 * n)) = i := Fin.ext (by simp only; omega)
    simp only [toEpi16, ofEpi16, if_pos hi, pack_low, hlow]
  · have hhigh : (⟨2 * (i.val / 2) + 1, by omega⟩ : Fin (2 * n)) = i :=
      Fin.ext (by simp only; omega)
    simp only [toEpi16, ofEpi16, if_neg hi, pack_high, hhigh]

theorem join_halves (w : Word) :
    w.toUInt16.toUInt32 ||| (w >>> 16).toUInt16.toUInt32 <<< 16 = w := by
  have hw := w.toNat_lt
  have hlow : w.toUInt16.toUInt32.toNat = w.toNat % 65536 := by simp
  have hhigh : ((w >>> 16).toUInt16.toUInt32 <<< 16).toNat = 2 ^ 16 * (w.toNat / 65536) := by
    simp [Nat.shiftLeft_eq, Nat.shiftRight_eq_div_pow]
    omega
  apply UInt32.toNat_inj.mp
  rw [UInt32.toNat_or, hlow, hhigh, Nat.or_comm, ← Nat.two_pow_add_eq_or_of_lt (by omega)]
  omega

/-! ### Bytes of words -/

def toEpi8 (a : Lanes n) : Reg (n * 4) Byte := fun i =>
  (store32 (a ⟨i.val / 4, by omega⟩)).get ⟨i.val % 4, by omega⟩

def ofEpi8 (a : Reg (n * 4) Byte) : Lanes n := fun i =>
  load32 (a ⟨i.val * 4, by omega⟩) (a ⟨i.val * 4 + 1, by omega⟩) (a ⟨i.val * 4 + 2, by omega⟩)
    (a ⟨i.val * 4 + 3, by omega⟩)

/-- The highest element is named first. -/
def setEpi8 (x : Vector Byte (n * 4)) : Reg (n * 4) Byte := fun i => x.get i.rev

/-- Every byte of the result is zero or a byte of the same 128 bits. -/
def shuffleEpi8 (a : Lanes n) (mask : Reg (n * 4) Byte) : Lanes n := ofEpi8 fun i =>
  if mask i &&& 0x80 ≠ 0 then 0
  else toEpi8 a ⟨(i.val / 16 * 16 + (mask i).toNat % 16) % (n * 4), Nat.mod_lt _ i.pos⟩

/-- The shuffle of the compilers for the other kind of machine, with a fixed place for each byte. -/
def shufflevector (a : Lanes 4) (places : Vector (Fin (4 * 4)) (4 * 4)) : Lanes 4 :=
  ofEpi8 fun i => toEpi8 a (places.get i)

theorem toEpi8_byte (a : Lanes n) (j : Fin n) (b : Fin 4) {p : ℕ} (h : p < n * 4)
    (hp : p = j.val * 4 + b.val) : toEpi8 a ⟨p, h⟩ = (store32 (a j)).get b := by
  have hword : (⟨p / 4, by omega⟩ : Fin n) = j := Fin.ext (by simp only; omega)
  have hbyte : (⟨p % 4, by omega⟩ : Fin 4) = b := Fin.ext (by simp only; omega)
  simp only [toEpi8, hword, hbyte]

/-- A byte shuffle that stays within each word. -/
theorem shuffleEpi8_lane (a : Lanes n) {mask : Reg (n * 4) Byte} (place : Fin 4 → Fin 4)
    (hclear : ∀ i, mask i &&& 0x80 = 0)
    (hplace : ∀ i : Fin (n * 4), (i.val / 16 * 16 + (mask i).toNat % 16) % (n * 4) =
      i.val / 4 * 4 + (place (Fin.ofNat 4 i.val)).val) (j : Fin n) :
    shuffleEpi8 a mask j =
      load32 ((store32 (a j)).get (place 0)) ((store32 (a j)).get (place 1))
        ((store32 (a j)).get (place 2)) ((store32 (a j)).get (place 3)) := by
  have hbyte : ∀ (b : Fin 4) (i : Fin (n * 4)), i.val = j.val * 4 + b.val →
      (if mask i &&& 0x80 ≠ 0 then 0
        else toEpi8 a ⟨(i.val / 16 * 16 + (mask i).toNat % 16) % (n * 4), Nat.mod_lt _ i.pos⟩) =
        (store32 (a j)).get (place b) := by
    intro b i hi
    have hb : Fin.ofNat 4 i.val = b := Fin.ext (by rw [Fin.val_ofNat]; omega)
    rw [if_neg (not_not.mpr (hclear i))]
    apply toEpi8_byte
    rw [hplace, hb]
    omega
  simp only [shuffleEpi8, ofEpi8]
  rw [hbyte 0 _ rfl, hbyte 1 _ rfl, hbyte 2 _ rfl, hbyte 3 _ rfl]

/-! ### Memory -/

/-- Load the words that lie at `off`. -/
def loadu (bytes : List Byte) (off : ℕ) : Lanes n := fun i =>
  load32 (bytes.getD (off + 4 * i.val) 0) (bytes.getD (off + 4 * i.val + 1) 0)
    (bytes.getD (off + 4 * i.val + 2) 0) (bytes.getD (off + 4 * i.val + 3) 0)

def storeu (a : Lanes n) : List Byte := (List.ofFn a).flatMap fun w => (store32 w).toList

theorem loadu_block (bytes : List Byte) (b : ℕ) {off w : ℕ} (hw : w < 16) (i : Fin n)
    (h : off + 4 * i.val = 64 * b + 4 * w) :
    loadu bytes off i = (wordsFromLeBytes64 (blockOfBytes (bytes.drop (64 * b))))[w] := by
  have hbyte : ∀ k, bytes.getD (off + 4 * i.val + k) 0 =
      (bytes.drop (64 * b)).getD (4 * w + k) 0 := by
    intro k
    rw [List.getD_eq_getElem?_getD, List.getD_eq_getElem?_getD, List.getElem?_drop, h]
    congr 2
    omega
  have hbyte₀ := hbyte 0
  simp only [Nat.add_zero] at hbyte₀
  simp only [loadu, hbyte₀, hbyte, wordsFromLeBytes64, wordsFromLeBytes, blockOfBytes,
    Vector.getElem_ofFn]

theorem blockOfBytes_toList (block : Block) : blockOfBytes block.toList = block := by
  apply Vector.ext
  intro i hi
  simp [blockOfBytes]

theorem toList_eq_ofFn {α : Type} (v : Vector α n) : v.toList = List.ofFn fun i => v[i] := by
  have hv : v = Vector.ofFn fun i => v[i] := Vector.ofFn_getElem.symm
  conv_lhs => rw [hv]
  rw [Vector.toList_ofFn]

/-- The bytes of words are those of one word after the other. -/
theorem toList_leBytesFromWords (words : Vector Word n) :
    (leBytesFromWords n words).toList = storeu (fun i => words[i]) := by
  rw [leBytesFromWords, Vector.toList_ofFn, List.ofFn_mul', storeu, List.flatMap, List.map_ofFn]
  congr 2
  funext i
  simp only [Function.comp_apply, toList_eq_ofFn]
  congr 1
  funext j
  have hdiv : (4 * i.val + j.val) / 4 = i.val := by omega
  have hmod : (4 * i.val + j.val) % 4 = j.val := by omega
  simp only [hdiv, hmod]
  rfl

/-! ### Comparisons -/

/-- Flipping the highest bit is adding it. -/
theorem toNat_xor_high (w : Word) : (w ^^^ 0x80000000).toNat = (w.toNat + 2 ^ 31) % 2 ^ 32 := by
  have hw := w.toNat_lt
  have hflip : ∀ r < 2 ^ 31, r ^^^ 2 ^ 31 = r + 2 ^ 31 := by
    intro r hr
    have hor := Nat.two_pow_add_eq_or_of_lt hr 1
    rw [Nat.mul_one] at hor
    rw [Nat.add_comm, hor]
    apply Nat.eq_of_testBit_eq
    intro i
    by_cases hi : i = 31
    · subst hi
      simp [Nat.testBit_lt_two_pow hr]
    · simp [Nat.testBit_two_pow_of_ne (Ne.symm hi)]
  rw [UInt32.toNat_xor]
  change w.toNat ^^^ 2 ^ 31 = _
  rcases Nat.lt_or_ge w.toNat (2 ^ 31) with hlt | hge
  · rw [hflip _ hlt]
    omega
  · have hlow := hflip (w.toNat - 2 ^ 31) (by omega)
    rw [Nat.sub_add_cancel hge] at hlow
    rw [← hlow, Nat.xor_assoc, Nat.xor_self, Nat.xor_zero]
    omega

theorem toInt_toInt32_flip (w : Word) :
    (w ^^^ 0x80000000).toInt32.toInt = (w.toNat : ℤ) - 2 ^ 31 := by
  have hw := w.toNat_lt
  have hflip := toNat_xor_high w
  have h : (w ^^^ 0x80000000).toInt32.toInt = (w ^^^ 0x80000000).toBitVec.toInt := rfl
  rw [h, BitVec.toInt_eq_toNat_cond]
  change (if 2 * (w ^^^ 0x80000000).toNat < 2 ^ 32 then ((w ^^^ 0x80000000).toNat : ℤ)
    else ((w ^^^ 0x80000000).toNat : ℤ) - (2 ^ 32 : ℕ)) = _
  rw [hflip]
  split <;> omega

/-- With the highest bits flipped the signed comparison is the unsigned one. -/
theorem toInt32_lt_flip (a b : Word) :
    (a ^^^ 0x80000000).toInt32 < (b ^^^ 0x80000000).toInt32 ↔ a.toNat < b.toNat := by
  rw [Int32.lt_iff_toInt_lt, toInt_toInt32_flip, toInt_toInt32_flip]
  omega

theorem shiftRight_31 (w : Word) : w >>> 31 = if 2 ^ 31 ≤ w.toNat then 1 else 0 := by
  have hw := w.toNat_lt
  apply UInt32.toNat_inj.mp
  rw [UInt32.toNat_shiftRight]
  change w.toNat >>> 31 = _
  rw [Nat.shiftRight_eq_div_pow]
  split
  · change _ = 1
    omega
  · change _ = 0
    omega

theorem high_andnot (a b : Word) :
    2 ^ 31 ≤ (~~~a &&& b).toNat ↔ a.toNat < 2 ^ 31 ∧ 2 ^ 31 ≤ b.toNat := by
  have hmsb : ∀ w : Word, w.toBitVec.msb = decide (2 ^ 31 ≤ w.toNat) := fun w =>
    BitVec.msb_eq_decide w.toBitVec
  have hand : (~~~a &&& b).toBitVec.msb = (!a.toBitVec.msb && b.toBitVec.msb) := by
    rw [UInt32.toBitVec_and, UInt32.toBitVec_not, BitVec.msb_and, BitVec.msb_not]
    simp
  rw [hmsb, hmsb, hmsb] at hand
  have hiff := decide_eq_true_iff.symm.trans (Bool.eq_iff_iff.mp hand)
  simpa using hiff

/-! ### Rotations of one word -/

theorem toNat_rotateRight (w : Word) {k : ℕ} (hpos : 0 < k) (hlt : k < 32) :
    (rotateRight w (UInt32.ofNat k)).toNat =
      2 ^ (32 - k) * (w.toNat % 2 ^ k) + w.toNat / 2 ^ k := by
  have hw := w.toNat_lt
  have hpow : 2 ^ k * 2 ^ (32 - k) = 2 ^ 32 := by
    rw [← Nat.pow_add]
    congr 1
    omega
  have hk : (UInt32.ofNat k).toNat = k := UInt32.toNat_ofNat_of_lt' (by change k < 2 ^ 32; omega)
  have hsub : (32 - UInt32.ofNat k : Word).toNat = 32 - k := by
    rw [UInt32.toNat_sub_of_le _ _ (by rw [UInt32.le_iff_toNat_le, hk]; exact hlt.le), hk]
    rfl
  have hlow : w.toNat / 2 ^ k < 2 ^ (32 - k) := by
    apply Nat.div_lt_of_lt_mul
    rw [hpow]
    exact hw
  rw [rotateRight, UInt32.toNat_or, UInt32.toNat_shiftRight, UInt32.toNat_shiftLeft, hsub, hk,
    Nat.mod_eq_of_lt hlt, Nat.mod_eq_of_lt (by omega : 32 - k < 32), Nat.shiftLeft_eq,
    Nat.shiftRight_eq_div_pow, ← hpow, Nat.mul_mod_mul_right, Nat.mul_comm _ (2 ^ (32 - k)),
    Nat.or_comm, Nat.two_pow_add_eq_or_of_lt hlow]

theorem toBitVec_shiftRight (w : Word) {k : Word} (hlt : k.toNat < 32) :
    (w >>> k).toBitVec = w.toBitVec >>> k.toNat := by
  rw [UInt32.toBitVec_shiftRight, BitVec.ushiftRight_eq', BitVec.toNat_umod]
  congr 1
  exact Nat.mod_eq_of_lt hlt

theorem toBitVec_shiftLeft (w : Word) {k : Word} (hlt : k.toNat < 32) :
    (w <<< k).toBitVec = w.toBitVec <<< k.toNat := by
  rw [UInt32.toBitVec_shiftLeft, BitVec.shiftLeft_eq', BitVec.toNat_umod]
  congr 1
  exact Nat.mod_eq_of_lt hlt

theorem toNat_bitsLeft {k : Word} (hlt : k.toNat < 32) : (32 - k : Word).toNat = 32 - k.toNat := by
  rw [UInt32.toNat_sub_of_le _ _ (by rw [UInt32.le_iff_toNat_le]; exact hlt.le)]
  rfl

/-- The two shifts of a rotation have no bit in common. -/
theorem shifts_xor (w : Word) {k : Word} (hpos : 0 < k.toNat) (hlt : k.toNat < 32) :
    w >>> k ^^^ w <<< (32 - k) = rotateRight w k := by
  have hleft := toNat_bitsLeft hlt
  apply UInt32.toBitVec_inj.mp
  rw [rotateRight, UInt32.toBitVec_xor, UInt32.toBitVec_or, toBitVec_shiftRight _ hlt,
    toBitVec_shiftLeft _ (by omega), hleft]
  ext i hi
  by_cases h : i < 32 - k.toNat
  · simp [h]
  · simp [h, BitVec.getLsbD_of_ge _ _ (show 32 ≤ k.toNat + i by omega)]

/-- What is inserted falls on bits that are clear. -/
theorem shift_insert (w : Word) {k : Word} (hpos : 0 < k.toNat) (hlt : k.toNat < 32) :
    (w <<< (32 - k) &&& ~~~(0xffffffff >>> k) ||| w >>> k) = rotateRight w k := by
  have hleft := toNat_bitsLeft hlt
  apply UInt32.toBitVec_inj.mp
  rw [rotateRight, UInt32.toBitVec_or, UInt32.toBitVec_and, UInt32.toBitVec_not,
    UInt32.toBitVec_or, toBitVec_shiftRight _ hlt, toBitVec_shiftRight _ hlt,
    toBitVec_shiftLeft _ (by omega), hleft]
  ext i hi
  by_cases h : i < 32 - k.toNat
  · simp [h]
  · simp [h, BitVec.getLsbD_of_ge _ _ (show 32 ≤ k.toNat + i by omega)]

theorem swap_halves (w : Word) :
    (w >>> 16).toUInt16.toUInt32 ||| w.toUInt16.toUInt32 <<< 16 = rotateRight w 16 := by
  have hw := w.toNat_lt
  have hhigh : (w >>> 16).toUInt16.toUInt32 = w >>> 16 := by
    apply UInt32.toNat_inj.mp
    simp [Nat.shiftRight_eq_div_pow]
    omega
  have hlow : w.toUInt16.toUInt32 <<< 16 = w <<< 16 := by
    apply UInt32.toNat_inj.mp
    simp [Nat.shiftLeft_eq]
    omega
  rw [hhigh, hlow]
  rfl

theorem vrev32qU16_lane (a : Lanes 4) (j : Fin 4) : vrev32qU16 a j = rotateRight (a j) 16 := by
  fin_cases j <;> exact swap_halves _

/-- The two shuffles of halves swap the halves of every word. -/
theorem shuffle_halves (a : Lanes 4) :
    shufflehiEpi16 (shuffleloEpi16 a 0xb1) 0xb1 = vrev32qU16 a := by
  rw [shufflehiEpi16, shuffleloEpi16, toEpi16_ofEpi16, vrev32qU16]
  congr 1
  funext i
  fin_cases i <;> rfl

theorem load32_rot16 (w : Word) :
    load32 ((store32 w).get 2) ((store32 w).get 3) ((store32 w).get 0) ((store32 w).get 1) =
      rotateRight w 16 := by
  apply UInt32.toNat_inj.mp
  have hw := w.toNat_lt
  have hrot := toNat_rotateRight w (by decide : 0 < 16) (by decide)
  rw [toNat_load32]
  refine Eq.trans ?_ hrot.symm
  simp [store32, Vector.get, Nat.shiftRight_eq_div_pow]
  omega

theorem load32_rot8 (w : Word) :
    load32 ((store32 w).get 1) ((store32 w).get 2) ((store32 w).get 3) ((store32 w).get 0) =
      rotateRight w 8 := by
  apply UInt32.toNat_inj.mp
  have hw := w.toNat_lt
  have hrot := toNat_rotateRight w (by decide : 0 < 8) (by decide)
  have hbyte₂ : w.toNat / 65536 = w.toNat / 256 / 256 := by rw [Nat.div_div_eq_div_mul]
  have hbyte₃ : w.toNat / 16777216 = w.toNat / 256 / 256 / 256 := by
    rw [Nat.div_div_eq_div_mul, Nat.div_div_eq_div_mul]
  rw [toNat_load32]
  refine Eq.trans ?_ hrot.symm
  simp [store32, Vector.get, Nat.shiftRight_eq_div_pow, hbyte₂, hbyte₃]
  omega

/-! ### Rotations of registers -/

def rotXor (x : Lanes n) (k : Word) : Lanes n := xorSi (srliEpi32 x k) (slliEpi32 x (32 - k))

def rotOr (x : Lanes n) (k : Word) : Lanes n := orSi (srliEpi32 x k) (slliEpi32 x (32 - k))

def rotInsert (x : Lanes n) (k : Word) : Lanes n := vsriqU32 (slliEpi32 x (32 - k)) x k

/-- The bytes of `_mm_set_epi8` for one group of 128 bits, with the highest one first. -/
def rot16Bytes : Vector Byte 16 := #v[13, 12, 15, 14, 9, 8, 11, 10, 5, 4, 7, 6, 1, 0, 3, 2]

def rot8Bytes : Vector Byte 16 := #v[12, 15, 14, 13, 8, 11, 10, 9, 4, 7, 6, 5, 0, 3, 2, 1]

/-- `c/blake3_sse2.c` -/
def sse2Arx : Arx (Lanes 4) where
  add := addEpi32
  xor := xorSi
  rot16 x := shufflehiEpi16 (shuffleloEpi16 x 0xb1) 0xb1
  rot12 x := rotXor x 12
  rot8 x := rotXor x 8
  rot7 x := rotXor x 7

/-- `c/blake3_sse41.c` -/
def sse41Arx : Arx (Lanes 4) where
  add := addEpi32
  xor := xorSi
  rot16 x := shuffleEpi8 x (setEpi8 rot16Bytes)
  rot12 x := rotXor x 12
  rot8 x := shuffleEpi8 x (setEpi8 rot8Bytes)
  rot7 x := rotXor x 7

/-- `c/blake3_avx2.c` -/
def avx2Arx : Arx (Lanes 8) where
  add := addEpi32
  xor := xorSi
  rot16 x := shuffleEpi8 x (setEpi8 (rot16Bytes ++ rot16Bytes))
  rot12 x := rotOr x 12
  rot8 x := shuffleEpi8 x (setEpi8 (rot8Bytes ++ rot8Bytes))
  rot7 x := rotOr x 7

/-- `c/blake3_avx512.c`, on registers of any width -/
def avx512Arx : Arx (Lanes n) where
  add := addEpi32
  xor := xorSi
  rot16 x := rorEpi32 x 16
  rot12 x := rorEpi32 x 12
  rot8 x := rorEpi32 x 8
  rot7 x := rorEpi32 x 7

/-- `c/blake3_neon.c`; whether there is a byte shuffle depends on the compiler. -/
def neonArx (byteShuffle : Bool) : Arx (Lanes 4) where
  add := addEpi32
  xor := xorSi
  rot16 x := vrev32qU16 x
  rot12 x := rotInsert x 12
  rot8 x :=
    if byteShuffle then
      shufflevector x #v[1, 2, 3, 0, 5, 6, 7, 4, 9, 10, 11, 8, 13, 14, 15, 12]
    else rotInsert x 8
  rot7 x := rotInsert x 7

/-- Operations on registers that are those on words in every lane. -/
def LaneWise (o : Arx (Lanes n)) : Prop := ∀ j, o.Hom wordArx fun x => x j

theorem laneWise_sse2 : LaneWise sse2Arx := by
  intro j
  refine ⟨fun _ _ => rfl, fun _ _ => rfl, fun x => ?_, fun x => ?_, fun x => ?_, fun x => ?_⟩
  · exact (congrFun (shuffle_halves x) j).trans (vrev32qU16_lane x j)
  · exact shifts_xor _ (by decide) (by decide)
  · exact shifts_xor _ (by decide) (by decide)
  · exact shifts_xor _ (by decide) (by decide)

theorem laneWise_sse41 : LaneWise sse41Arx := by
  intro j
  refine ⟨fun _ _ => rfl, fun _ _ => rfl, fun x => ?_, fun x => ?_, fun x => ?_, fun x => ?_⟩
  · exact (shuffleEpi8_lane x ![2, 3, 0, 1] (by decide) (by decide) j).trans (load32_rot16 _)
  · exact shifts_xor _ (by decide) (by decide)
  · exact (shuffleEpi8_lane x ![1, 2, 3, 0] (by decide) (by decide) j).trans (load32_rot8 _)
  · exact shifts_xor _ (by decide) (by decide)

theorem laneWise_avx2 : LaneWise avx2Arx := by
  intro j
  refine ⟨fun _ _ => rfl, fun _ _ => rfl, fun x => ?_, fun _ => rfl, fun x => ?_, fun _ => rfl⟩
  · exact (shuffleEpi8_lane x ![2, 3, 0, 1] (by decide) (by decide) j).trans (load32_rot16 _)
  · exact (shuffleEpi8_lane x ![1, 2, 3, 0] (by decide) (by decide) j).trans (load32_rot8 _)

theorem laneWise_avx512 : LaneWise (avx512Arx (n := n)) := fun _ =>
  ⟨fun _ _ => rfl, fun _ _ => rfl, fun _ => rfl, fun _ => rfl, fun _ => rfl, fun _ => rfl⟩

theorem laneWise_neon (byteShuffle : Bool) : LaneWise (neonArx byteShuffle) := by
  intro j
  refine ⟨fun _ _ => rfl, fun _ _ => rfl, fun x => ?_, fun x => ?_, fun x => ?_, fun x => ?_⟩
  · exact vrev32qU16_lane x j
  · exact shift_insert _ (by decide) (by decide)
  · cases byteShuffle
    · exact shift_insert _ (by decide) (by decide)
    · fin_cases j <;> exact load32_rot8 _
  · exact shift_insert _ (by decide) (by decide)

end Blake3.Simd
