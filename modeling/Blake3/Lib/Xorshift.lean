import Mathlib.Data.Int.ModEq
import Mathlib.Data.Nat.Bitwise
import Mathlib.Data.Nat.Prime.Basic

/-!
Steps that mix the bits of a word of 64 bits and lose none of them: the word xored
with a shifted copy of itself, and products with an odd constant.
-/

namespace Xorshift

theorem xor_eq_xor {a a' b b' : ℕ} (h : a ^^^ a' = b ^^^ b') : a ^^^ b = a' ^^^ b' := by
  have ha : a' = a ^^^ (b ^^^ b') := by rw [← h, ← Nat.xor_assoc, Nat.xor_self, Nat.zero_xor]
  rw [ha, Nat.xor_assoc, Nat.xor_assoc, Nat.xor_self, Nat.xor_zero]

/-- A number that is its own shift to the right is zero. -/
theorem eq_zero_of_shiftRight {d k : ℕ} (hk : 0 < k) (h : d = d >>> k) : d = 0 := by
  rw [Nat.shiftRight_eq_div_pow] at h
  by_contra hne
  have hlt : d / 2 ^ k < d :=
    Nat.div_lt_self (Nat.pos_of_ne_zero hne) (Nat.one_lt_two_pow (Nat.ne_of_gt hk))
  omega

/-- A number of `w` bits that is its own shift to the left is zero. -/
theorem eq_zero_of_shiftLeft {d k w : ℕ} (hk : 0 < k) (hd : d < 2 ^ w)
    (h : d = d <<< k % 2 ^ w) : d = 0 := by
  rw [Nat.shiftLeft_eq] at h
  have hpow : 1 ≤ 2 ^ k := Nat.one_le_two_pow
  have hodd : Nat.Coprime (2 ^ w) (2 ^ k - 1) := by
    apply Nat.Coprime.pow_left
    rw [Nat.coprime_two_left]
    obtain ⟨j, rfl⟩ := Nat.exists_eq_succ_of_ne_zero (Nat.ne_of_gt hk)
    rw [Nat.pow_succ]
    exact ⟨2 ^ j - 1, by have := Nat.one_le_two_pow (n := j); omega⟩
  have hdvd : 2 ^ w ∣ d * (2 ^ k - 1) := by
    have hmod : d % 2 ^ w = d * 2 ^ k % 2 ^ w := by
      rw [Nat.mod_eq_of_lt hd]
      exact h
    rw [Nat.mul_sub, Nat.mul_one]
    exact (Nat.modEq_iff_dvd' (Nat.le_mul_of_pos_right d hpow)).mp hmod
  exact Nat.eq_zero_of_dvd_of_lt (hodd.dvd_of_dvd_mul_right hdvd) hd

variable {x y k : UInt64}

theorem xor_shiftRight_inj (hk : 0 < k.toNat % 64) (h : x ^^^ x >>> k = y ^^^ y >>> k) : x = y := by
  have hnat := congrArg UInt64.toNat h
  rw [UInt64.toNat_xor, UInt64.toNat_xor, UInt64.toNat_shiftRight, UInt64.toNat_shiftRight] at hnat
  have hself := xor_eq_xor hnat
  rw [← Nat.shiftRight_xor_distrib] at hself
  have hzero := eq_zero_of_shiftRight hk hself
  exact UInt64.toNat_inj.mp (Nat.xor_eq_zero_iff.mp hzero)

theorem xor_shiftLeft_inj (hk : 0 < k.toNat % 64) (h : x ^^^ x <<< k = y ^^^ y <<< k) : x = y := by
  have hnat := congrArg UInt64.toNat h
  rw [UInt64.toNat_xor, UInt64.toNat_xor, UInt64.toNat_shiftLeft, UInt64.toNat_shiftLeft] at hnat
  have hself := xor_eq_xor hnat
  rw [← Nat.xor_mod_two_pow, ← Nat.shiftLeft_xor_distrib] at hself
  have hzero := eq_zero_of_shiftLeft hk (Nat.xor_lt_two_pow x.toNat_lt y.toNat_lt) hself
  exact UInt64.toNat_inj.mp (Nat.xor_eq_zero_iff.mp hzero)

/-- A factor with an inverse can be taken off. -/
theorem mul_right_inj_of_inverse {c inverse : UInt64} (hc : c * inverse = 1)
    (h : x * c = y * c) : x = y := by
  calc
    x = x * c * inverse := by rw [UInt64.mul_assoc, hc, UInt64.mul_one]
    _ = y * c * inverse := by rw [h]
    _ = y := by rw [UInt64.mul_assoc, hc, UInt64.mul_one]

theorem xor_left_inj (h : k ^^^ x = k ^^^ y) : x = y := by
  have hcancel := congrArg (k ^^^ ·) h
  simpa [← UInt64.xor_assoc] using hcancel

end Xorshift
