import Mathlib.Data.Nat.Bitwise
import Blake3.Words

/-!
How long a subtree an update may take from its input: a power of two that
divides what has been read before. Both `c/blake3.c` and `src/lib.rs` find it
by halving.
-/

namespace Blake3

/-- Halve `subtreeLen` until it divides the count so far. A length of one
always does, so that the loop ends there. -/
def shrinkSubtreeLen (subtreeLen : ℕ) (countSoFar : UInt64) : ℕ :=
  if 1 < subtreeLen ∧ UInt64.ofNat (subtreeLen - 1) &&& countSoFar ≠ 0 then
    shrinkSubtreeLen (subtreeLen / 2) countSoFar
  else subtreeLen
termination_by subtreeLen

theorem shrinkSubtreeLen_pos {subtreeLen : ℕ} (countSoFar : UInt64) (h : 0 < subtreeLen) :
    0 < shrinkSubtreeLen subtreeLen countSoFar := by
  induction subtreeLen using Nat.strong_induction_on with
  | _ n ih =>
    rw [shrinkSubtreeLen]
    split
    · exact ih _ (by omega) (by omega)
    · exact h

/-- A mask of ones picks out a remainder. -/
theorem mask_eq_zero {a : ℕ} (ha : a < 64) (count : UInt64) :
    UInt64.ofNat (2 ^ a - 1) &&& count = 0 ↔ 2 ^ a ∣ count.toNat := by
  have hlt : 2 ^ a ≤ 2 ^ 63 := Nat.pow_le_pow_right (by omega) (by omega)
  rw [← UInt64.toNat_inj, UInt64.toNat_and, toNat_ofNat64 (by omega), Nat.and_comm,
    Nat.and_two_pow_sub_one_eq_mod, Nat.dvd_iff_mod_eq_zero]
  rfl

/-- The length found is a power of two of at least one chunk that divides the
count. -/
theorem exists_shrinkSubtreeLen {a : ℕ} (ha : 10 ≤ a) (hlt : a < 64) (count : UInt64)
    (hcount : 1024 ∣ count.toNat) :
    ∃ j, shrinkSubtreeLen (2 ^ a) count = 1024 * 2 ^ j ∧ j + 10 ≤ a ∧
      1024 * 2 ^ j ∣ count.toNat := by
  induction a, ha using Nat.le_induction with
  | base =>
      refine ⟨0, ?_, by omega, by simpa using hcount⟩
      rw [shrinkSubtreeLen, if_neg fun h => h.2 ((mask_eq_zero hlt count).mpr hcount)]
      rfl
  | succ a ha ih =>
      rw [shrinkSubtreeLen]
      by_cases hdvd : 2 ^ (a + 1) ∣ count.toNat
      · have hpow : 2 ^ (a + 1) = 1024 * 2 ^ (a + 1 - 10) := by
          rw [show (1024 : ℕ) = 2 ^ 10 from rfl, ← Nat.pow_add]
          congr 1
          omega
        refine ⟨a + 1 - 10, ?_, by omega, hpow ▸ hdvd⟩
        rw [if_neg (fun h => h.2 ((mask_eq_zero hlt count).mpr hdvd)), hpow]
      · have hone : 1 < 2 ^ (a + 1) := Nat.one_lt_two_pow (by omega)
        obtain ⟨j, hj, hle, hdvd'⟩ := ih (by omega)
        refine ⟨j, ?_, by omega, hdvd'⟩
        rw [if_pos ⟨hone, fun h => hdvd ((mask_eq_zero hlt count).mp h)⟩, Nat.pow_succ,
          Nat.mul_div_cancel _ (by omega), hj]

/-- The next subtree of an input that continues a message behind `n` chunks is
a power of two of chunks that divides them. -/
theorem exists_subtreeLen {n len : ℕ} {count : UInt64} (hcount : count.toNat = 1024 * n)
    (hlong : 1024 < len) (hlt : len < 2 ^ 64) :
    ∃ j, shrinkSubtreeLen (2 ^ len.log2) count = 1024 * 2 ^ j ∧ 1024 * 2 ^ j ≤ len ∧
      2 ^ j ∣ n := by
  have hlow := Nat.log2_self_le (n := len) (by omega)
  have hten : 10 ≤ len.log2 := (Nat.le_log2 (by omega)).mpr (by omega)
  have hlog : len.log2 < 64 := (Nat.log2_lt (by omega)).mpr hlt
  obtain ⟨j, hj, hle, hdvd⟩ := exists_shrinkSubtreeLen hten hlog count
    (hcount ▸ Nat.dvd_mul_right 1024 n)
  refine ⟨j, hj, ?_, Nat.dvd_of_mul_dvd_mul_left (by omega) (hcount ▸ hdvd)⟩
  have hpow : 1024 * 2 ^ j ≤ 2 ^ len.log2 := by
    rw [show (1024 : ℕ) = 2 ^ 10 from rfl, ← Nat.pow_add]
    exact Nat.pow_le_pow_right (by omega) (by omega)
  omega

end Blake3
