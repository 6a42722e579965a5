import Blake3.Words

/-!
The compression function of `reference_impl.rs`, and the inputs it is applied
to, parent blocks among them. Everything above the compression takes it as a parameter of type
`Compress`; `compress` is the function the program really uses.
-/

namespace Blake3

/-! ### Inputs of a compression -/

/-- The five arguments of one compression. -/
structure CompressInput where
  chainingValue : CVWords
  blockWords : BlockWords
  counter : UInt64
  blockLen : Word
  flags : Word
  deriving DecidableEq

abbrev Compress := CompressInput → BlockWords

def first8Words (compressionOutput : BlockWords) : CVWords :=
  Vector.ofFn fun i => compressionOutput[i.val]

/-- The first eight words are the first 32 bytes. -/
theorem take_leBytesFromWords64 (words : BlockWords) :
    (leBytesFromWords64 words).toList.take 32 =
      (leBytesFromWords32 (first8Words words)).toList := by
  apply List.ext_getElem
  · simp
  · intro i hi hi'
    simp [leBytesFromWords64, leBytesFromWords32, leBytesFromWords, first8Words]

/-! ### Domain flags -/

namespace Flag

def chunkStart : Word := 0x01
def chunkEnd : Word := 0x02
def parent : Word := 0x04
def root : Word := 0x08
def keyedHash : Word := 0x10
def deriveKeyContext : Word := 0x20
def deriveKeyMaterial : Word := 0x40

end Flag

def iv : CVWords :=
  #v[0x6A09E667, 0xBB67AE85, 0x3C6EF372, 0xA54FF53A, 0x510E527F, 0x9B05688C, 0x1F83D9AB,
    0x5BE0CD19]

/-! ### The function itself -/

def msgPermutation : Vector (Fin 16) 16 := #v[2, 6, 3, 10, 7, 0, 4, 13, 1, 11, 12, 5, 9, 14, 15, 8]

def rotateRight (w : Word) (n : Word) : Word := w >>> n ||| w <<< (32 - n)

/-- The mixing function, which mixes either a column or a diagonal. -/
def g (state : BlockWords) (a b c d : Fin 16) (mx my : Word) : BlockWords :=
  let state := state.set a (state[a] + state[b] + mx)
  let state := state.set d (rotateRight (state[d] ^^^ state[a]) 16)
  let state := state.set c (state[c] + state[d])
  let state := state.set b (rotateRight (state[b] ^^^ state[c]) 12)
  let state := state.set a (state[a] + state[b] + my)
  let state := state.set d (rotateRight (state[d] ^^^ state[a]) 8)
  let state := state.set c (state[c] + state[d])
  state.set b (rotateRight (state[b] ^^^ state[c]) 7)

def round (state m : BlockWords) : BlockWords :=
  -- Mix the columns.
  let state := g state 0 4 8 12 m[0] m[1]
  let state := g state 1 5 9 13 m[2] m[3]
  let state := g state 2 6 10 14 m[4] m[5]
  let state := g state 3 7 11 15 m[6] m[7]
  -- Mix the diagonals.
  let state := g state 0 5 10 15 m[8] m[9]
  let state := g state 1 6 11 12 m[10] m[11]
  let state := g state 2 7 8 13 m[12] m[13]
  g state 3 4 9 14 m[14] m[15]

def permute (m : BlockWords) : BlockWords := Vector.ofFn fun i => m[msgPermutation[i]]

/-- The state before the first round. -/
def initialState (x : CompressInput) : BlockWords :=
  let cv := x.chainingValue
  #v[cv[0], cv[1], cv[2], cv[3], cv[4], cv[5], cv[6], cv[7],
    iv[0], iv[1], iv[2], iv[3],
    x.counter.toUInt32, (x.counter >>> 32).toUInt32, x.blockLen, x.flags]

/-- `n` rounds, with the message permuted between them. -/
def rounds : ℕ → BlockWords → BlockWords → BlockWords
  | 0, state, _ => state
  | n + 1, state, block => rounds n (round state block) (permute block)

def compress : Compress := fun x =>
  let state := rounds 7 (initialState x) x.blockWords
  Vector.ofFn fun i =>
    if h : i.val < 8 then state[i.val] ^^^ state[i.val + 8]
    else state[i.val] ^^^ x.chainingValue[i.val - 8]

/-! ### Parent blocks -/

/-- The words of a parent block: those of the left child, then of the right one. -/
def parentWords (left right : CVWords) : BlockWords :=
  Vector.ofFn fun i => if h : i.val < 8 then left[i.val] else right[i.val - 8]

theorem wordsFromLeBytes64_parentBlock (left right : CVBytes) :
    wordsFromLeBytes64 (parentBlock left right) =
      parentWords (wordsFromLeBytes32 left) (wordsFromLeBytes32 right) := by
  apply Vector.ext
  intro i hi
  simp only [wordsFromLeBytes64, wordsFromLeBytes32, wordsFromLeBytes, parentBlock, parentWords,
    Vector.getElem_ofFn]
  by_cases h : i < 8
  · simp [h, show 4 * i < 32 by omega, show 4 * i + 1 < 32 by omega,
      show 4 * i + 2 < 32 by omega, show 4 * i + 3 < 32 by omega]
  · have hsub : ∀ j, 4 * i + j - 32 = 4 * (i - 8) + j := by omega
    have hsub₀ : 4 * i - 32 = 4 * (i - 8) := by omega
    simp [h, hsub, hsub₀, show ¬ 4 * i < 32 by omega, show ¬ 4 * i + 1 < 32 by omega,
      show ¬ 4 * i + 2 < 32 by omega, show ¬ 4 * i + 3 < 32 by omega]

/-- The children can be read back from a parent block. -/
theorem parentWords_inj {l r l' r' : CVWords} (h : parentWords l r = parentWords l' r') :
    l = l' ∧ r = r' := by
  have hget : ∀ i (hi : i < 16), (parentWords l r)[i] = (parentWords l' r')[i] := by
    intro i hi
    rw [h]
  refine ⟨?_, ?_⟩
  · apply Vector.ext
    intro i hi
    simpa [parentWords, hi] using hget i (by omega)
  · apply Vector.ext
    intro i hi
    simpa [parentWords, show ¬ i + 8 < 8 by omega] using hget (i + 8) (by omega)

end Blake3
