import Blake3.Lib.Codec
import Blake3.Lib.LittleEndian
import Mathlib.Data.Nat.Prime.Defs

/-!
SHA-256 as the standard describes it: constants that are fractional parts of roots
of primes, a message that is padded to whole blocks, and a compression function that
is run over them.
-/

namespace Sha256

/-! ### Constants -/

/-- The greatest number below `2 ^ bits` above `r` whose `k`-th power is at most `x`, found
bit by bit. -/
def root (k x : ℕ) : ℕ → ℕ → ℕ
  | 0, r => r
  | bits + 1, r => if (r + 2 ^ bits) ^ k ≤ x then root k x bits (r + 2 ^ bits) else root k x bits r

theorem root_spec {k x bits r : ℕ} (hlow : r ^ k ≤ x) (hhigh : x < (r + 2 ^ bits) ^ k) :
    root k x bits r ^ k ≤ x ∧ x < (root k x bits r + 1) ^ k := by
  induction bits generalizing r with
  | zero => exact ⟨hlow, hhigh⟩
  | succ bits ih =>
      rw [root]
      split
      · next hle =>
          refine ih hle ?_
          rwa [Nat.add_assoc, ← Nat.two_mul, ← pow_succ']
      · next hgt => exact ih hlow (not_le.mp hgt)

/-- The first 32 bits of the fractional part of the `k`-th root of a number below
`2 ^ (5 * k)`. -/
def fraction (k p : ℕ) : UInt32 := UInt32.ofNat (root k (p * 2 ^ (32 * k)) 37 0)

theorem fraction_spec {k p : ℕ} (hk : 0 < k) (hp : p < 2 ^ (5 * k)) :
    ∃ n, n ^ k ≤ p * 2 ^ (32 * k) ∧ p * 2 ^ (32 * k) < (n + 1) ^ k ∧
      fraction k p = UInt32.ofNat n := by
  have hhigh : p * 2 ^ (32 * k) < (0 + 2 ^ 37) ^ k := by
    rw [Nat.zero_add, ← pow_mul, show 37 * k = 5 * k + 32 * k by omega, pow_add]
    exact Nat.mul_lt_mul_of_pos_right hp (Nat.two_pow_pos _)
  obtain ⟨hlow, hhigh⟩ := root_spec (by rw [zero_pow hk.ne']; exact Nat.zero_le _) hhigh
  exact ⟨_, hlow, hhigh, rfl⟩

/-- The primes below `n`. -/
def primes (n : ℕ) : List ℕ := (List.range n).filter fun p => 2 ≤ p ∧ ∀ d < p, d ∣ p → d = 1

theorem mem_primes {n p : ℕ} : p ∈ primes n ↔ p < n ∧ p.Prime := by
  rw [primes, List.mem_filter, List.mem_range, decide_eq_true_eq, Nat.prime_def_lt]

/-- The constants `K`, of the first 64 primes. -/
def roundConstants : List UInt32 := (primes 312).map (fraction 3)

/-! ### Functions -/

def rotr (n x : UInt32) : UInt32 := (x >>> n) ||| (x <<< (32 - n))
def ch (x y z : UInt32) : UInt32 := (x &&& y) ^^^ (~~~x &&& z)
def maj (x y z : UInt32) : UInt32 := (x &&& y) ^^^ (x &&& z) ^^^ (y &&& z)
def bigSigma0 (x : UInt32) : UInt32 := rotr 2 x ^^^ rotr 13 x ^^^ rotr 22 x
def bigSigma1 (x : UInt32) : UInt32 := rotr 6 x ^^^ rotr 11 x ^^^ rotr 25 x
def smallSigma0 (x : UInt32) : UInt32 := rotr 7 x ^^^ rotr 18 x ^^^ (x >>> 3)
def smallSigma1 (x : UInt32) : UInt32 := rotr 17 x ^^^ rotr 19 x ^^^ (x >>> 10)

/-- A hash value, and the eight working variables. -/
@[ext]
structure State where
  a : UInt32
  b : UInt32
  c : UInt32
  d : UInt32
  e : UInt32
  f : UInt32
  g : UInt32
  h : UInt32
  deriving DecidableEq, Repr

/-- The initial hash value, of the first eight primes. -/
def State.initial : State where
  a := fraction 2 2
  b := fraction 2 3
  c := fraction 2 5
  d := fraction 2 7
  e := fraction 2 11
  f := fraction 2 13
  g := fraction 2 17
  h := fraction 2 19

/-- Word `t` of a block, big-endian. -/
def word (block : List UInt8) (t : ℕ) : UInt32 :=
  (block.getD (4 * t) 0).toUInt32 <<< 24 ||| (block.getD (4 * t + 1) 0).toUInt32 <<< 16 |||
    (block.getD (4 * t + 2) 0).toUInt32 <<< 8 ||| (block.getD (4 * t + 3) 0).toUInt32

/-- The message schedule. -/
def schedule (block : List UInt8) (t : ℕ) : UInt32 :=
  if t < 16 then word block t
  else smallSigma1 (schedule block (t - 2)) + schedule block (t - 7) +
    smallSigma0 (schedule block (t - 15)) + schedule block (t - 16)

def State.round (k w : UInt32) (s : State) : State :=
  let t₁ := s.h + bigSigma1 s.e + ch s.e s.f s.g + k + w
  let t₂ := bigSigma0 s.a + maj s.a s.b s.c
  { a := t₁ + t₂, b := s.a, c := s.b, d := s.c, e := s.d + t₁, f := s.e, g := s.f, h := s.g }

def State.add (s t : State) : State where
  a := s.a + t.a
  b := s.b + t.b
  c := s.c + t.c
  d := s.d + t.d
  e := s.e + t.e
  f := s.f + t.f
  g := s.g + t.g
  h := s.h + t.h

/-- The hash value after a block. -/
def State.compress (s : State) (block : List UInt8) : State :=
  s.add ((List.range 64).foldl (fun v t => v.round (roundConstants.getD t 0) (schedule block t)) s)

/-! ### Messages -/

/-- The zeros that bring a message of `n` bytes and the byte behind it to 56 bytes past a
whole number of blocks. -/
def zeros (n : ℕ) : ℕ := (119 - n % 64) % 64

theorem zeros_spec (n : ℕ) : (n + 1 + zeros n) % 64 = 56 ∧ zeros n < 64 := by
  rw [zeros]
  omega

/-- A message, padded, with a count of its bits. -/
def padWith (m : List UInt8) (bits : ℕ) : List UInt8 :=
  m ++ 0x80 :: (List.replicate (zeros m.length) 0 ++ (LittleEndian.toBytes 8 bits).reverse)

def pad (m : List UInt8) : List UInt8 := padWith m (8 * m.length)

/-- The hash value after the whole blocks of a message. -/
def absorb (s : State) (m : List UInt8) : State :=
  if 64 ≤ m.length then absorb (s.compress (m.take 64)) (m.drop 64) else s
termination_by m.length
decreasing_by
  rw [List.length_drop]
  omega

/-- The bytes of a word, the highest first. -/
def wordBytes (w : UInt32) : List UInt8 :=
  [(w >>> 24).toUInt8, (w >>> 16).toUInt8, (w >>> 8).toUInt8, w.toUInt8]

def State.words (s : State) : List UInt32 := [s.a, s.b, s.c, s.d, s.e, s.f, s.g, s.h]

def State.digest (s : State) : List UInt8 := s.words.flatMap wordBytes

def hash (m : List UInt8) : List UInt8 := (absorb .initial (pad m)).digest

theorem wordBytes_eq (w : UInt32) : wordBytes w = (LittleEndian.toBytes 4 w.toNat).reverse := by
  rw [← LittleEndian.toBytes_word]
  rfl

theorem State.digest_inj {s t : State} (h : s.digest = t.digest) : s = t := by
  have hbytes : ∀ v w, wordBytes v = wordBytes w → v = w := by
    intro v w hvw
    rw [wordBytes_eq, wordBytes_eq, List.reverse_inj] at hvw
    exact LittleEndian.toBytes_word_inj hvw
  have hwords : s.words = t.words := Codec.flatMap_inj (k := 4) (fun _ => rfl) hbytes rfl h
  simp only [State.words, List.cons.injEq, and_true] at hwords
  obtain ⟨ha, hb, hc, hd, he, hf, hg, hh⟩ := hwords
  exact State.ext ha hb hc hd he hf hg hh

/-! ### Whole blocks -/

theorem absorb_of_lt (s : State) {m : List UInt8} (h : m.length < 64) : absorb s m = s := by
  rw [absorb, if_neg (by omega)]

theorem absorb_append (s : State) {m : List UInt8} (h : m.length % 64 = 0) (m' : List UInt8) :
    absorb s (m ++ m') = absorb (absorb s m) m' := by
  induction hlength : m.length using Nat.strong_induction_on generalizing s m with
  | _ n ih =>
      subst hlength
      rcases Nat.lt_or_ge m.length 64 with hlt | hge
      · have hnil : m = [] := List.length_eq_zero_iff.mp (by omega)
        rw [hnil, List.nil_append, absorb_of_lt s (show ([] : List UInt8).length < 64 by decide)]
      · rw [absorb, if_pos (by rw [List.length_append]; omega), absorb.eq_def s m, if_pos hge,
          List.take_append_of_le_length hge, List.drop_append_of_le_length hge]
        exact ih (m.drop 64).length (by rw [List.length_drop]; omega) _
          (by rw [List.length_drop]; omega) rfl

theorem absorb_block (s : State) {block : List UInt8} (h : block.length = 64) :
    absorb s block = s.compress block := by
  rw [absorb, if_pos h.ge, List.take_of_length_le h.le, List.drop_eq_nil_of_le h.le,
    absorb_of_lt _ (by decide)]

/-- Two paddings of one message are the same when their counts are. -/
theorem padWith_inj {m : List UInt8} {bits bits' : ℕ} (h : bits < 2 ^ 64) (h' : bits' < 2 ^ 64) :
    padWith m bits = padWith m bits' ↔ bits = bits' := by
  constructor
  · intro hpad
    rw [padWith, padWith, List.append_cancel_left_eq, List.cons.injEq,
      List.append_cancel_left_eq, List.reverse_inj] at hpad
    exact LittleEndian.toBytes_inj (by omega) (by omega) hpad.2
  · rintro rfl
    rfl

end Sha256
