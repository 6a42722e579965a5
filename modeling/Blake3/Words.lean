import Mathlib.Algebra.Order.Ring.Nat
import Mathlib.Logic.Function.Basic

/-!
Bytes, words and blocks. Chaining values and message blocks are little-endian
words inside a compression and bytes outside of it; the two conversions are
mutually inverse.
-/

namespace Blake3

abbrev Byte := UInt8
abbrev Word := UInt32
abbrev CVWords := Vector Word 8
abbrev CVBytes := Vector Byte 32
abbrev BlockWords := Vector Word 16
abbrev Block := Vector Byte 64

theorem toNat_ofNat64 {n : ℕ} (h : n < 2 ^ 64) : (UInt64.ofNat n).toNat = n :=
  UInt64.toNat_ofNat_of_lt' h

/-- Taking as much as fits is taking what there is. -/
theorem take_min_length {α : Type*} (k : ℕ) (l : List α) : l.take (min k l.length) = l.take k := by
  rw [List.take_eq_take_iff]
  omega

theorem drop_min_length {α : Type*} (k : ℕ) (l : List α) : l.drop (min k l.length) = l.drop k := by
  rcases Nat.le_total k l.length with hle | hle
  · rw [Nat.min_eq_left hle]
  · rw [Nat.min_eq_right hle, List.drop_length, List.drop_eq_nil_of_le hle]

/-! ### One word -/

def load32 (b₀ b₁ b₂ b₃ : Byte) : Word :=
  b₀.toUInt32 ||| b₁.toUInt32 <<< 8 ||| b₂.toUInt32 <<< 16 ||| b₃.toUInt32 <<< 24

def store32 (w : Word) : Vector Byte 4 :=
  #v[w.toUInt8, (w >>> 8).toUInt8, (w >>> 16).toUInt8, (w >>> 24).toUInt8]

theorem toNat_load32 (b₀ b₁ b₂ b₃ : Byte) :
    (load32 b₀ b₁ b₂ b₃).toNat =
      b₀.toNat + 2 ^ 8 * b₁.toNat + 2 ^ 16 * b₂.toNat + 2 ^ 24 * b₃.toNat := by
  have h₀ := b₀.toNat_lt
  have h₁ := b₁.toNat_lt
  have h₂ := b₂.toNat_lt
  have h₃ := b₃.toNat_lt
  have hor₁ := Nat.two_pow_add_eq_or_of_lt (i := 8) (b := b₀.toNat) (by omega) b₁.toNat
  have hor₂ := Nat.two_pow_add_eq_or_of_lt (i := 16) (b := 2 ^ 8 * b₁.toNat + b₀.toNat)
    (by omega) b₂.toNat
  have hor₃ := Nat.two_pow_add_eq_or_of_lt (i := 24)
    (b := 2 ^ 16 * b₂.toNat + (2 ^ 8 * b₁.toNat + b₀.toNat)) (by omega) b₃.toNat
  have hs₁ : b₁.toNat <<< 8 % 4294967296 = 2 ^ 8 * b₁.toNat := by
    rw [Nat.shiftLeft_eq]; omega
  have hs₂ : b₂.toNat <<< 16 % 4294967296 = 2 ^ 16 * b₂.toNat := by
    rw [Nat.shiftLeft_eq]; omega
  have hs₃ : b₃.toNat <<< 24 % 4294967296 = 2 ^ 24 * b₃.toNat := by
    rw [Nat.shiftLeft_eq]; omega
  simp only [load32, UInt32.toNat_or, UInt32.toNat_shiftLeft, UInt8.toNat_toUInt32,
    UInt32.reduceToNat, Nat.reduceMod, Nat.reducePow] at *
  rw [hs₁, hs₂, hs₃, Nat.or_comm b₀.toNat, ← hor₁, Nat.or_comm _ (65536 * b₂.toNat), ← hor₂,
    Nat.or_comm _ (16777216 * b₃.toNat), ← hor₃]
  omega

theorem load32_store32 (w : Word) :
    load32 (store32 w)[0] (store32 w)[1] (store32 w)[2] (store32 w)[3] = w := by
  apply UInt32.toNat_inj.mp
  have hw := w.toNat_lt
  rw [toNat_load32]
  simp [store32, Nat.shiftRight_eq_div_pow]
  omega

theorem store32_load32 (b₀ b₁ b₂ b₃ : Byte) :
    store32 (load32 b₀ b₁ b₂ b₃) = #v[b₀, b₁, b₂, b₃] := by
  have h₀ := b₀.toNat_lt
  have h₁ := b₁.toNat_lt
  have h₂ := b₂.toNat_lt
  have h₃ := b₃.toNat_lt
  simp only [store32, Vector.mk.injEq, Array.mk.injEq, List.cons.injEq, and_true]
  refine ⟨?_, ?_, ?_, ?_⟩ <;> apply UInt8.toNat_inj.mp <;>
    simp [toNat_load32, Nat.shiftRight_eq_div_pow] <;> omega

/-! ### Vectors of words -/

def wordsFromLeBytes (n : ℕ) (bytes : Vector Byte (4 * n)) : Vector Word n :=
  Vector.ofFn fun i => load32 bytes[4 * i.val] bytes[4 * i.val + 1] bytes[4 * i.val + 2]
    bytes[4 * i.val + 3]

def leBytesFromWords (n : ℕ) (words : Vector Word n) : Vector Byte (4 * n) :=
  Vector.ofFn fun i => (store32 words[i.val / 4])[i.val % 4]

theorem words_leBytes (n : ℕ) (words : Vector Word n) :
    wordsFromLeBytes n (leBytesFromWords n words) = words := by
  apply Vector.ext
  intro i hi
  have hdiv : ∀ j < 4, (4 * i + j) / 4 = i := by omega
  have hmod : ∀ j < 4, (4 * i + j) % 4 = j := by omega
  have := load32_store32 words[i]
  simpa [wordsFromLeBytes, leBytesFromWords, hdiv, hmod] using this

theorem leBytes_words (n : ℕ) (bytes : Vector Byte (4 * n)) :
    leBytesFromWords n (wordsFromLeBytes n bytes) = bytes := by
  apply Vector.ext
  intro i hi
  simp only [leBytesFromWords, wordsFromLeBytes, Vector.getElem_ofFn, store32_load32]
  have hcases : i % 4 = 0 ∨ i % 4 = 1 ∨ i % 4 = 2 ∨ i % 4 = 3 := by omega
  rcases hcases with h | h | h | h <;> simp only [h] <;> simp <;> congr 1 <;> omega

/-! ### Chaining values and blocks -/

def wordsFromLeBytes32 (bytes : CVBytes) : CVWords := wordsFromLeBytes 8 bytes

def leBytesFromWords32 (words : CVWords) : CVBytes := leBytesFromWords 8 words

def wordsFromLeBytes64 (bytes : Block) : BlockWords := wordsFromLeBytes 16 bytes

def leBytesFromWords64 (words : BlockWords) : Block := leBytesFromWords 16 words

@[simp] theorem words_leBytes32 (words : CVWords) :
    wordsFromLeBytes32 (leBytesFromWords32 words) = words := words_leBytes 8 words

@[simp] theorem leBytes_words32 (bytes : CVBytes) :
    leBytesFromWords32 (wordsFromLeBytes32 bytes) = bytes := leBytes_words 8 bytes

@[simp] theorem leBytes_words64 (bytes : Block) :
    leBytesFromWords64 (wordsFromLeBytes64 bytes) = bytes := leBytes_words 16 bytes

theorem leBytesFromWords32_injective : Function.Injective leBytesFromWords32 :=
  Function.LeftInverse.injective words_leBytes32

theorem wordsFromLeBytes64_injective : Function.Injective wordsFromLeBytes64 :=
  Function.LeftInverse.injective leBytes_words64

/-- A parent block: the bytes of the left child, then those of the right one. -/
def parentBlock (left right : CVBytes) : Block :=
  Vector.ofFn fun i => if h : i.val < 32 then left[i.val] else right[i.val - 32]

/-- The first 64 bytes of a byte string as a block, with zeros where it is
shorter. -/
def blockOfBytes (bytes : List Byte) : Block := Vector.ofFn fun i => bytes.getD i 0

/-- Copy bytes into a block, from position `off` on. -/
def writeAt (block : Block) (off : ℕ) (bytes : List Byte) : Block :=
  Vector.ofFn fun i => if off ≤ i.val then bytes.getD (i.val - off) block[i] else block[i]

@[simp] theorem blockOfBytes_nil : blockOfBytes [] = Vector.replicate 64 0 := by
  apply Vector.ext
  intro i hi
  simp [blockOfBytes]

/-- Copying behind what has been read so far reads on. -/
theorem writeAt_blockOfBytes (a b : List Byte) :
    writeAt (blockOfBytes a) a.length b = blockOfBytes (a ++ b) := by
  apply Vector.ext
  intro i hi
  simp only [writeAt, blockOfBytes, Vector.getElem_ofFn, Fin.getElem_fin,
    List.getD_eq_getElem?_getD, List.getElem?_append]
  by_cases h : i < a.length
  · rw [if_neg (by omega), if_pos h]
  · simp [h]

/-- Blocks of two strings of one length below 65 determine the strings. -/
theorem eq_of_blockOfBytes {a b : List Byte} (hlen : a.length = b.length) (ha : a.length ≤ 64)
    (h : blockOfBytes a = blockOfBytes b) : a = b := by
  refine List.ext_getElem hlen fun i hi hi' => ?_
  have hget : (blockOfBytes a)[i] = (blockOfBytes b)[i] := by rw [h]
  simpa [blockOfBytes, hi, hi'] using hget

end Blake3
