import Blake3.C.Subtree
import Blake3.Rust.Subtree
import Mathlib.Order.Bounds.Basic

/-!
`hazmat::left_subtree_len` beside `left_subtree_len` of `c/blake3.c`: one rounds
half of the input up to a power of two, the other rounds the number of chunks
down. The longest input there is has no successor.
-/

namespace Blake3.Rust

/-- The powers of two strictly below `n`. -/
def powersBelow (n : ℕ) : Set ℕ := {p | (∃ k, p = 2 ^ k) ∧ p < n}

theorem isGreatest_powersBelow {n k : ℕ} (hlow : 2 ^ k < n) (hhigh : n ≤ 2 ^ (k + 1)) :
    IsGreatest (powersBelow n) (2 ^ k) := by
  refine ⟨⟨⟨k, rfl⟩, hlow⟩, ?_⟩
  rintro p ⟨⟨j, rfl⟩, hj⟩
  have hlt : j < k + 1 := (Nat.pow_lt_pow_iff_right (by omega)).mp (lt_of_lt_of_le hj hhigh)
  exact Nat.pow_le_pow_right (by omega) (by omega)

/-- Rounding the number of chunks down gives the left side of the tree. -/
theorem c_leftSubtreeLen_isGreatest {n : ℕ} (h : 1024 < n) :
    ∃ q, IsGreatest (powersBelow ((n - 1) / 1024 + 1)) q ∧ C.leftSubtreeLen n = 1024 * q ∧
      IsGreatest (powersBelow n) (1024 * q) := by
  have hlow := Nat.log2_self_le (n := (n - 1) / 1024) (by omega)
  have hhigh := Nat.lt_log2_self (n := (n - 1) / 1024)
  have hlen : C.leftSubtreeLen n = 1024 * 2 ^ ((n - 1) / 1024).log2 := by
    rw [C.leftSubtreeLen, C.roundDownToPowerOf2_eq (by omega), Nat.mul_comm]
  generalize ((n - 1) / 1024).log2 = k at *
  have hpow : 1024 * 2 ^ k = 2 ^ (k + 10) := by
    rw [Nat.pow_add, Nat.mul_comm]
  have hpow' : 2 ^ (k + 10 + 1) = 1024 * 2 ^ (k + 1) := by
    rw [Nat.pow_succ, ← hpow, Nat.pow_succ, Nat.mul_assoc]
  refine ⟨2 ^ k, isGreatest_powersBelow (by omega) (by omega), hlen, ?_⟩
  rw [hpow]
  exact isGreatest_powersBelow (by omega) (by omega)

/-- The successor of the last word is zero, or the addition is caught. -/
theorem leftSubtreeLen_last (b : Build) :
    leftSubtreeLen b (UInt64.ofNat (2 ^ 64 - 1)) =
      if b.overflowChecks then .error .overflow else .ok 1 := by
  have hassert : (1024 : UInt64) < UInt64.ofNat (2 ^ 64 - 1) := by decide
  rw [leftSubtreeLen, b.debugAssert_of hassert, Result.ok_bind]
  cases hchecks : b.overflowChecks with
  | true =>
      rw [Build.addU64, hchecks]
      rfl
  | false =>
      rw [Build.addU64, hchecks, if_neg (by simp), Result.ok_bind, nextPowerOfTwo]
      rfl

/-- `left_subtree_len` of an input longer than a chunk is the largest power of two
below it, which is also what the C code finds, unless the input is so long that
its successor does not fit a word. -/
theorem leftSubtreeLen_isGreatest_iff (b : Build) {n : UInt64} (h : 1024 < n) :
    (∃ len q, leftSubtreeLen b n = .ok len ∧ IsGreatest (powersBelow n.toNat) len.toNat ∧
      IsGreatest (powersBelow ((n.toNat - 1) / 1024 + 1)) q ∧
      C.leftSubtreeLen n.toNat = 1024 * q ∧ len.toNat = C.leftSubtreeLen n.toNat) ↔
    n.toNat + 1 < 2 ^ 64 := by
  have hlong : 1024 < n.toNat := UInt64.lt_iff_toNat_lt.mp h
  have hlt := n.toNat_lt
  constructor
  · rintro ⟨len, q, hok, hgreatest, -⟩
    by_contra hmax
    have hlast : n = UInt64.ofNat (2 ^ 64 - 1) := by
      rw [← UInt64.toNat_inj, toNat_ofNat64 (by omega)]
      omega
    rw [hlast, leftSubtreeLen_last] at hok
    split at hok
    · exact Result.error_ne_ok hok
    · have hone := hgreatest.2 ⟨⟨1, rfl⟩, by omega⟩
      rw [← Except.ok.inj hok] at hone
      exact absurd hone (by decide)
  · intro hfits
    obtain ⟨q, hq, hlen, hgreatest⟩ := c_leftSubtreeLen_isGreatest hlong
    have hok := leftSubtreeLen_eq b hlong hfits
    rw [UInt64.ofNat_toNat] at hok
    rw [← C.leftSubtreeLen_eq hlong, hlen] at hok
    have hbelow := hgreatest.1.2
    have htoNat : (UInt64.ofNat (1024 * q)).toNat = 1024 * q := toNat_ofNat64 (by omega)
    exact ⟨_, q, hok, by rwa [htoNat], hq, hlen, by rw [htoNat, hlen]⟩

/-- The first length of more than a chunk. -/
theorem leftSubtreeLen_isGreatest_of_1025 :
    ∃ len q, leftSubtreeLen .wrapping 1025 = .ok len ∧ IsGreatest (powersBelow 1025) len.toNat ∧
      IsGreatest (powersBelow ((1025 - 1) / 1024 + 1)) q ∧
      C.leftSubtreeLen 1025 = 1024 * q ∧ len.toNat = C.leftSubtreeLen 1025 :=
  (leftSubtreeLen_isGreatest_iff .wrapping (n := 1025) (by decide)).mpr (by decide)

/-- The longest input: the addition overflows, and where that is not caught the left
side is a single byte. -/
theorem leftSubtreeLen_of_longest :
    leftSubtreeLen { overflowChecks := true, debugAssertions := true } (UInt64.ofNat (2 ^ 64 - 1)) =
        .error .overflow ∧
      leftSubtreeLen .wrapping (UInt64.ofNat (2 ^ 64 - 1)) = .ok 1 ∧
      IsGreatest (powersBelow (2 ^ 64 - 1)) (2 ^ 63) ∧
      C.leftSubtreeLen (2 ^ 64 - 1) = 2 ^ 63 := by
  refine ⟨leftSubtreeLen_last _, leftSubtreeLen_last _,
    isGreatest_powersBelow (by norm_num) (by norm_num), ?_⟩
  have hlog : (2 ^ 54 - 1).log2 = 53 := (Nat.log2_eq_iff (by norm_num)).mpr (by norm_num)
  rw [C.leftSubtreeLen, C.roundDownToPowerOf2_eq (by norm_num),
    show (2 ^ 64 - 1 - 1) / 1024 = 2 ^ 54 - 1 by norm_num, hlog]
  norm_num

end Blake3.Rust
