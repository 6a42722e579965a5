import Blake3.Pai.Sha256

/-!
The SHA-256 of `crypto_freestanding140`: `rmr_cf140_sha256_compress.c`. Its rounds are
written out, each as a call of a macro on the eight working variables. A call does not
move the variables but names them in another order: the listing is the loop, with the
names turned by one place from call to call.
-/

namespace Blake3.Cf140

/-- `rmr_cf_rotr32` -/
def rotr32 (x n : Word) : Word :=
  let s := n &&& 31
  (x >>> s) ||| (x <<< ((32 - s) &&& 31))

/-- `rmr_cf_load32_be` of the bytes from `src` on. -/
def load32Be (block : List Byte) (src : ℕ) : Word :=
  (block.getD src 0).toUInt32 <<< 24 ||| (block.getD (src + 1) 0).toUInt32 <<< 16 |||
    (block.getD (src + 2) 0).toUInt32 <<< 8 ||| (block.getD (src + 3) 0).toUInt32

def ch (x y z : Word) : Word := (x &&& y) ^^^ (~~~x &&& z)
def maj (x y z : Word) : Word := (x &&& y) ^^^ (x &&& z) ^^^ (y &&& z)
def bsig0 (x : Word) : Word := rotr32 x 2 ^^^ rotr32 x 13 ^^^ rotr32 x 22
def bsig1 (x : Word) : Word := rotr32 x 6 ^^^ rotr32 x 11 ^^^ rotr32 x 25
def ssig0 (x : Word) : Word := rotr32 x 7 ^^^ rotr32 x 18 ^^^ (x >>> 3)
def ssig1 (x : Word) : Word := rotr32 x 17 ^^^ rotr32 x 19 ^^^ (x >>> 10)

/-- `rmr_cf_sha256_state` -/
structure Sha256State where
  h0 : Word
  h1 : Word
  h2 : Word
  h3 : Word
  h4 : Word
  h5 : Word
  h6 : Word
  h7 : Word

def Sha256State.words (state : Sha256State) : Vector Word 8 :=
  #v[state.h0, state.h1, state.h2, state.h3, state.h4, state.h5, state.h6, state.h7]

/-- The working variables. -/
inductive Var
  | a | b | c | d | e | f | g | h
  deriving DecidableEq

/-- What the working variables are declared with. -/
def Sha256State.vars (state : Sha256State) : Var → Word
  | .a => state.h0
  | .b => state.h1
  | .c => state.h2
  | .d => state.h3
  | .e => state.h4
  | .f => state.h5
  | .g => state.h6
  | .h => state.h7

/-- `RMR_CF_ROUND(a, b, c, d, e, f, g, h, k, w[wv])` -/
structure Round where
  a : Var
  b : Var
  c : Var
  d : Var
  e : Var
  f : Var
  g : Var
  h : Var
  k : Word
  wv : ℕ
  deriving DecidableEq

/-- What a call of the macro does to the variables. -/
def Round.run (w : ℕ → Word) (v : Var → Word) (r : Round) : Var → Word :=
  let t1 := v r.h + bsig1 (v r.e) + ch (v r.e) (v r.f) (v r.g) + r.k + w r.wv
  let t2 := bsig0 (v r.a) + maj (v r.a) (v r.b) (v r.c)
  Function.update (Function.update v r.d (v r.d + t1)) r.h (t1 + t2)

/-- `w[dst] = SSIG1(w[i]) + w[j] + SSIG0(w[k]) + w[l]` -/
structure Expansion where
  dst : ℕ
  i : ℕ
  j : ℕ
  k : ℕ
  l : ℕ
  deriving DecidableEq

def Expansion.run (w : ℕ → Word) (x : Expansion) : ℕ → Word :=
  Function.update w x.dst (ssig1 (w x.i) + w x.j + ssig0 (w x.k) + w x.l)

/-- `w[dst] = rmr_cf_load32_be(block + src)`, line by line. -/
def loads : List (ℕ × ℕ) := [
  (0, 0), (1, 4), (2, 8), (3, 12), (4, 16), (5, 20), (6, 24), (7, 28),
  (8, 32), (9, 36), (10, 40), (11, 44), (12, 48), (13, 52), (14, 56), (15, 60)]

def expansions : List Expansion := [
  ⟨16, 14, 9, 1, 0⟩, ⟨17, 15, 10, 2, 1⟩, ⟨18, 16, 11, 3, 2⟩, ⟨19, 17, 12, 4, 3⟩,
  ⟨20, 18, 13, 5, 4⟩, ⟨21, 19, 14, 6, 5⟩, ⟨22, 20, 15, 7, 6⟩, ⟨23, 21, 16, 8, 7⟩,
  ⟨24, 22, 17, 9, 8⟩, ⟨25, 23, 18, 10, 9⟩, ⟨26, 24, 19, 11, 10⟩, ⟨27, 25, 20, 12, 11⟩,
  ⟨28, 26, 21, 13, 12⟩, ⟨29, 27, 22, 14, 13⟩, ⟨30, 28, 23, 15, 14⟩, ⟨31, 29, 24, 16, 15⟩,
  ⟨32, 30, 25, 17, 16⟩, ⟨33, 31, 26, 18, 17⟩, ⟨34, 32, 27, 19, 18⟩, ⟨35, 33, 28, 20, 19⟩,
  ⟨36, 34, 29, 21, 20⟩, ⟨37, 35, 30, 22, 21⟩, ⟨38, 36, 31, 23, 22⟩, ⟨39, 37, 32, 24, 23⟩,
  ⟨40, 38, 33, 25, 24⟩, ⟨41, 39, 34, 26, 25⟩, ⟨42, 40, 35, 27, 26⟩, ⟨43, 41, 36, 28, 27⟩,
  ⟨44, 42, 37, 29, 28⟩, ⟨45, 43, 38, 30, 29⟩, ⟨46, 44, 39, 31, 30⟩, ⟨47, 45, 40, 32, 31⟩,
  ⟨48, 46, 41, 33, 32⟩, ⟨49, 47, 42, 34, 33⟩, ⟨50, 48, 43, 35, 34⟩, ⟨51, 49, 44, 36, 35⟩,
  ⟨52, 50, 45, 37, 36⟩, ⟨53, 51, 46, 38, 37⟩, ⟨54, 52, 47, 39, 38⟩, ⟨55, 53, 48, 40, 39⟩,
  ⟨56, 54, 49, 41, 40⟩, ⟨57, 55, 50, 42, 41⟩, ⟨58, 56, 51, 43, 42⟩, ⟨59, 57, 52, 44, 43⟩,
  ⟨60, 58, 53, 45, 44⟩, ⟨61, 59, 54, 46, 45⟩, ⟨62, 60, 55, 47, 46⟩, ⟨63, 61, 56, 48, 47⟩]

def rounds : List Round := [
  ⟨.a, .b, .c, .d, .e, .f, .g, .h, 0x428a2f98, 0⟩,
  ⟨.h, .a, .b, .c, .d, .e, .f, .g, 0x71374491, 1⟩,
  ⟨.g, .h, .a, .b, .c, .d, .e, .f, 0xb5c0fbcf, 2⟩,
  ⟨.f, .g, .h, .a, .b, .c, .d, .e, 0xe9b5dba5, 3⟩,
  ⟨.e, .f, .g, .h, .a, .b, .c, .d, 0x3956c25b, 4⟩,
  ⟨.d, .e, .f, .g, .h, .a, .b, .c, 0x59f111f1, 5⟩,
  ⟨.c, .d, .e, .f, .g, .h, .a, .b, 0x923f82a4, 6⟩,
  ⟨.b, .c, .d, .e, .f, .g, .h, .a, 0xab1c5ed5, 7⟩,
  ⟨.a, .b, .c, .d, .e, .f, .g, .h, 0xd807aa98, 8⟩,
  ⟨.h, .a, .b, .c, .d, .e, .f, .g, 0x12835b01, 9⟩,
  ⟨.g, .h, .a, .b, .c, .d, .e, .f, 0x243185be, 10⟩,
  ⟨.f, .g, .h, .a, .b, .c, .d, .e, 0x550c7dc3, 11⟩,
  ⟨.e, .f, .g, .h, .a, .b, .c, .d, 0x72be5d74, 12⟩,
  ⟨.d, .e, .f, .g, .h, .a, .b, .c, 0x80deb1fe, 13⟩,
  ⟨.c, .d, .e, .f, .g, .h, .a, .b, 0x9bdc06a7, 14⟩,
  ⟨.b, .c, .d, .e, .f, .g, .h, .a, 0xc19bf174, 15⟩,
  ⟨.a, .b, .c, .d, .e, .f, .g, .h, 0xe49b69c1, 16⟩,
  ⟨.h, .a, .b, .c, .d, .e, .f, .g, 0xefbe4786, 17⟩,
  ⟨.g, .h, .a, .b, .c, .d, .e, .f, 0x0fc19dc6, 18⟩,
  ⟨.f, .g, .h, .a, .b, .c, .d, .e, 0x240ca1cc, 19⟩,
  ⟨.e, .f, .g, .h, .a, .b, .c, .d, 0x2de92c6f, 20⟩,
  ⟨.d, .e, .f, .g, .h, .a, .b, .c, 0x4a7484aa, 21⟩,
  ⟨.c, .d, .e, .f, .g, .h, .a, .b, 0x5cb0a9dc, 22⟩,
  ⟨.b, .c, .d, .e, .f, .g, .h, .a, 0x76f988da, 23⟩,
  ⟨.a, .b, .c, .d, .e, .f, .g, .h, 0x983e5152, 24⟩,
  ⟨.h, .a, .b, .c, .d, .e, .f, .g, 0xa831c66d, 25⟩,
  ⟨.g, .h, .a, .b, .c, .d, .e, .f, 0xb00327c8, 26⟩,
  ⟨.f, .g, .h, .a, .b, .c, .d, .e, 0xbf597fc7, 27⟩,
  ⟨.e, .f, .g, .h, .a, .b, .c, .d, 0xc6e00bf3, 28⟩,
  ⟨.d, .e, .f, .g, .h, .a, .b, .c, 0xd5a79147, 29⟩,
  ⟨.c, .d, .e, .f, .g, .h, .a, .b, 0x06ca6351, 30⟩,
  ⟨.b, .c, .d, .e, .f, .g, .h, .a, 0x14292967, 31⟩,
  ⟨.a, .b, .c, .d, .e, .f, .g, .h, 0x27b70a85, 32⟩,
  ⟨.h, .a, .b, .c, .d, .e, .f, .g, 0x2e1b2138, 33⟩,
  ⟨.g, .h, .a, .b, .c, .d, .e, .f, 0x4d2c6dfc, 34⟩,
  ⟨.f, .g, .h, .a, .b, .c, .d, .e, 0x53380d13, 35⟩,
  ⟨.e, .f, .g, .h, .a, .b, .c, .d, 0x650a7354, 36⟩,
  ⟨.d, .e, .f, .g, .h, .a, .b, .c, 0x766a0abb, 37⟩,
  ⟨.c, .d, .e, .f, .g, .h, .a, .b, 0x81c2c92e, 38⟩,
  ⟨.b, .c, .d, .e, .f, .g, .h, .a, 0x92722c85, 39⟩,
  ⟨.a, .b, .c, .d, .e, .f, .g, .h, 0xa2bfe8a1, 40⟩,
  ⟨.h, .a, .b, .c, .d, .e, .f, .g, 0xa81a664b, 41⟩,
  ⟨.g, .h, .a, .b, .c, .d, .e, .f, 0xc24b8b70, 42⟩,
  ⟨.f, .g, .h, .a, .b, .c, .d, .e, 0xc76c51a3, 43⟩,
  ⟨.e, .f, .g, .h, .a, .b, .c, .d, 0xd192e819, 44⟩,
  ⟨.d, .e, .f, .g, .h, .a, .b, .c, 0xd6990624, 45⟩,
  ⟨.c, .d, .e, .f, .g, .h, .a, .b, 0xf40e3585, 46⟩,
  ⟨.b, .c, .d, .e, .f, .g, .h, .a, 0x106aa070, 47⟩,
  ⟨.a, .b, .c, .d, .e, .f, .g, .h, 0x19a4c116, 48⟩,
  ⟨.h, .a, .b, .c, .d, .e, .f, .g, 0x1e376c08, 49⟩,
  ⟨.g, .h, .a, .b, .c, .d, .e, .f, 0x2748774c, 50⟩,
  ⟨.f, .g, .h, .a, .b, .c, .d, .e, 0x34b0bcb5, 51⟩,
  ⟨.e, .f, .g, .h, .a, .b, .c, .d, 0x391c0cb3, 52⟩,
  ⟨.d, .e, .f, .g, .h, .a, .b, .c, 0x4ed8aa4a, 53⟩,
  ⟨.c, .d, .e, .f, .g, .h, .a, .b, 0x5b9cca4f, 54⟩,
  ⟨.b, .c, .d, .e, .f, .g, .h, .a, 0x682e6ff3, 55⟩,
  ⟨.a, .b, .c, .d, .e, .f, .g, .h, 0x748f82ee, 56⟩,
  ⟨.h, .a, .b, .c, .d, .e, .f, .g, 0x78a5636f, 57⟩,
  ⟨.g, .h, .a, .b, .c, .d, .e, .f, 0x84c87814, 58⟩,
  ⟨.f, .g, .h, .a, .b, .c, .d, .e, 0x8cc70208, 59⟩,
  ⟨.e, .f, .g, .h, .a, .b, .c, .d, 0x90befffa, 60⟩,
  ⟨.d, .e, .f, .g, .h, .a, .b, .c, 0xa4506ceb, 61⟩,
  ⟨.c, .d, .e, .f, .g, .h, .a, .b, 0xbef9a3f7, 62⟩,
  ⟨.b, .c, .d, .e, .f, .g, .h, .a, 0xc67178f2, 63⟩]

/-- The lines that fill `w[64]`, an array that holds anything before. -/
def fillSchedule (block : Block) (w : ℕ → Word) : ℕ → Word :=
  expansions.foldl Expansion.run (loads.foldl (fun w (dst, src) =>
    Function.update w dst (load32Be block.toList src)) w)

/-- `rmr_cf_sha256_compress_block`, where `w` is what the stack holds. -/
def compressBlock (w : ℕ → Word) (state : Sha256State) (block : Block) : Sha256State :=
  let v := rounds.foldl (Round.run (fillSchedule block w)) state.vars
  { h0 := state.h0 + v .a, h1 := state.h1 + v .b, h2 := state.h2 + v .c, h3 := state.h3 + v .d
    h4 := state.h4 + v .e, h5 := state.h5 + v .f, h6 := state.h6 + v .g, h7 := state.h7 + v .h }

/-! ### The schedule -/

theorem loads_eq : loads = (List.range 16).map fun i => (i, 4 * i) := rfl

theorem expansions_eq : expansions = (List.range' 16 48).map fun i =>
    ⟨i, i - 2, i - 7, i - 15, i - 16⟩ := rfl

theorem fillSchedule_eq (block : Block) (w : ℕ → Word) {t : ℕ} (ht : t < 64) :
    fillSchedule block w t = Sha256.schedule block.toList t := by
  rw [fillSchedule, loads_eq, expansions_eq, List.foldl_map, List.foldl_map]
  refine Pai.expand_words (fun t ht => ?_) 48 t ht
  rw [Sha256.schedule, if_pos ht]
  exact Pai.fill_words block.toList w 16 t ht

/-! ### The rounds -/

/-- The name that stands in a place of a call, from the one that stood there before. -/
def Var.turn : Var → Var
  | .a => .h
  | .b => .a
  | .c => .b
  | .d => .c
  | .e => .d
  | .f => .e
  | .g => .f
  | .h => .g

theorem Var.turn_injective : Function.Injective Var.turn := by
  intro x y h
  cases x <;> cases y <;> first | rfl | cases h

/-- A call with the names that `name` gives to the places. -/
def Round.named (name : Var → Var) (k : Word) (wv : ℕ) : Round where
  a := name .a
  b := name .b
  c := name .c
  d := name .d
  e := name .e
  f := name .f
  g := name .g
  h := name .h
  k := k
  wv := wv

theorem rounds_eq : rounds = (List.range 64).map fun t =>
    Round.named (Var.turn^[t]) (Sha256.roundConstants.getD t 0) t := by
  rw [← Pai.toList_K]
  rfl

/-- The variables in the order of their places. -/
def placed (name : Var → Var) (v : Var → Word) : Sha256.State where
  a := v (name .a)
  b := v (name .b)
  c := v (name .c)
  d := v (name .d)
  e := v (name .e)
  f := v (name .f)
  g := v (name .g)
  h := v (name .h)

/-- A call writes to two variables only. What the loop shifts is the same seen from the
places of the next call. -/
theorem placed_run {name : Var → Var} (hname : Function.Injective name) (w : ℕ → Word)
    (v : Var → Word) (k : Word) (wv : ℕ) :
    placed (name ∘ Var.turn) ((Round.named name k wv).run w v) =
      (placed name v).round k (w wv) := by
  have hne : ∀ {x y : Var}, x ≠ y → name x ≠ name y := fun h => hname.ne h
  ext <;> simp [placed, Round.named, Round.run, Var.turn, hne, Sha256.State.round] <;> rfl

theorem placed_runs (w : ℕ → Word) (v : Var → Word) (n : ℕ) :
    placed (Var.turn^[n]) (((List.range n).map fun t =>
      Round.named (Var.turn^[t]) (Sha256.roundConstants.getD t 0) t).foldl (Round.run w) v) =
      (List.range n).foldl (fun s t => s.round (Sha256.roundConstants.getD t 0) (w t))
        (placed id v) := by
  induction n with
  | zero =>
      rw [List.range_zero, List.map_nil, List.foldl_nil, List.foldl_nil, Function.iterate_zero]
  | succ n ih =>
      rw [List.range_succ, List.map_append, List.foldl_append, List.foldl_append,
        List.map_singleton, List.foldl_cons, List.foldl_nil, List.foldl_cons, List.foldl_nil,
        Function.iterate_succ, placed_run (Var.turn_injective.iterate n), ih]

/-- After sixty-four calls every name is back in its place. -/
theorem turn_iterate : Var.turn^[64] = id := by
  funext x
  cases x <;> rfl

/-- The compression of one block is that of the standard. -/
theorem stateOf_compressBlock (w : ℕ → Word) (state : Sha256State) (block : Block) :
    Fc16.stateOf (compressBlock w state block).words =
      (Fc16.stateOf state.words).compress block.toList := by
  have hrounds : placed id (rounds.foldl (Round.run (fillSchedule block w)) state.vars) =
      (List.range 64).foldl (fun s t => s.round (Sha256.roundConstants.getD t 0)
        (Sha256.schedule block.toList t)) (placed id state.vars) := by
    rw [rounds_eq]
    nth_rewrite 1 [← turn_iterate]
    rw [placed_runs]
    refine List.foldl_ext _ _ _ fun s t ht => ?_
    rw [fillSchedule_eq block w (List.mem_range.mp ht)]
  have hvars : Fc16.stateOf state.words = placed id state.vars := rfl
  rw [Sha256.State.compress, hvars, ← hrounds]
  rfl

/-! ### The three functions -/

/-- The three compression functions of the repository are one function of the words and the
block, whatever the arrays of their schedules held. -/
theorem compressBlock_eq (w w' : ℕ → Word) (state : Sha256State) (block : Block) :
    (compressBlock w state block).words = Fc16.block state.words block ∧
      Pai.processBlock w' state.words block = Fc16.block state.words block := by
  constructor
  · apply Fc16.stateOf_injective
    rw [stateOf_compressBlock, Fc16.stateOf_block]
  · exact Pai.processBlock_eq w' state.words block

end Blake3.Cf140
