import Blake3.Lib.LittleEndian
import Mathlib.Algebra.Order.Ring.Nat

/-!
Cyclic redundancy checks of 32 bits whose remainder is shifted to the right. A
shift is linear in exclusive or, so that a whole word is read as one, and a
table of sixteen words does four shifts at once.
-/

namespace Crc

def bitStep (poly c : UInt32) : UInt32 := (c >>> 1) ^^^ (poly &&& (0 - (c &&& 1)))

/-- `n` shifts of a remainder. -/
def shifts (poly : UInt32) : ℕ → UInt32 → UInt32
  | 0, c => c
  | n + 1, c => shifts poly n (bitStep poly c)

def byteStep (poly c : UInt32) (b : UInt8) : UInt32 := shifts poly 8 (c ^^^ b.toUInt32)

def update (poly c : UInt32) (bytes : List UInt8) : UInt32 := bytes.foldl (byteStep poly) c

variable (poly : UInt32)

theorem update_append (c : UInt32) (xs ys : List UInt8) :
    update poly c (xs ++ ys) = update poly (update poly c xs) ys := List.foldl_append

/-! ### Linearity -/

theorem low_bit (c : UInt32) : c &&& 1 = 0 ∨ c &&& 1 = 1 := by
  have h : (c &&& 1).toNat = 0 ∨ (c &&& 1).toNat = 1 := by
    rw [UInt32.toNat_and, UInt32.toNat_one, Nat.and_one_is_mod]
    omega
  rcases h with h | h
  · exact .inl (UInt32.toNat_inj.mp h)
  · exact .inr (UInt32.toNat_inj.mp h)

theorem bitStep_of_even {c : UInt32} (h : c &&& 1 = 0) : bitStep poly c = c >>> 1 := by
  rw [bitStep, h, show (0 : UInt32) - 0 = 0 from rfl, UInt32.and_zero, UInt32.xor_zero]

theorem bitStep_of_odd {c : UInt32} (h : c &&& 1 = 1) : bitStep poly c = (c >>> 1) ^^^ poly := by
  rw [bitStep, h, show (0 : UInt32) - 1 = -1 from rfl, UInt32.and_neg_one]

theorem bitStep_xor (a b : UInt32) :
    bitStep poly (a ^^^ b) = bitStep poly a ^^^ bitStep poly b := by
  have hlow : (a ^^^ b) &&& 1 = (a &&& 1) ^^^ (b &&& 1) := by
    apply UInt32.toNat_inj.mp
    simp only [UInt32.toNat_and, UInt32.toNat_xor]
    exact Nat.and_xor_distrib_right
  have hshift : (a ^^^ b) >>> 1 = (a >>> 1) ^^^ (b >>> 1) := UInt32.shiftRight_xor
  rcases low_bit a with ha | ha <;> rcases low_bit b with hb | hb <;> rw [ha, hb] at hlow
  · rw [bitStep_of_even poly hlow, bitStep_of_even poly ha, bitStep_of_even poly hb, hshift]
  · rw [bitStep_of_odd poly hlow, bitStep_of_even poly ha, bitStep_of_odd poly hb, hshift,
      UInt32.xor_assoc]
  · rw [bitStep_of_odd poly hlow, bitStep_of_odd poly ha, bitStep_of_even poly hb, hshift]
    ac_rfl
  · rw [bitStep_of_even poly hlow, bitStep_of_odd poly ha, bitStep_of_odd poly hb, hshift,
      UInt32.xor_assoc, UInt32.xor_comm poly, UInt32.xor_assoc, UInt32.xor_self, UInt32.xor_zero]

theorem shifts_xor (n : ℕ) (a b : UInt32) :
    shifts poly n (a ^^^ b) = shifts poly n a ^^^ shifts poly n b := by
  induction n generalizing a b with
  | zero => rfl
  | succ n ih => rw [shifts, shifts, shifts, bitStep_xor, ih]

theorem shifts_shifts (m n : ℕ) (c : UInt32) :
    shifts poly m (shifts poly n c) = shifts poly (n + m) c := by
  induction n generalizing c with
  | zero => rw [Nat.zero_add, shifts]
  | succ n ih => rw [shifts, ih, Nat.succ_add, shifts]

/-- A remainder whose low bits are clear only moves down. -/
theorem toNat_shifts_of_dvd {n : ℕ} {c : UInt32} (h : 2 ^ n ∣ c.toNat) :
    (shifts poly n c).toNat = c.toNat / 2 ^ n := by
  induction n generalizing c with
  | zero => rw [shifts, pow_zero, Nat.div_one]
  | succ n ih =>
      have heven : c &&& 1 = 0 := by
        apply UInt32.toNat_inj.mp
        rw [UInt32.toNat_and, UInt32.toNat_one, Nat.and_one_is_mod, UInt32.toNat_zero]
        exact Nat.mod_eq_zero_of_dvd (Dvd.dvd.trans (dvd_pow_self 2 n.succ_ne_zero) h)
      have hhalf : (c >>> 1).toNat = c.toNat / 2 := by
        rw [UInt32.toNat_shiftRight, UInt32.toNat_one, Nat.shiftRight_eq_div_pow]
      rw [pow_succ'] at h
      rw [shifts, bitStep_of_even poly heven, ih (by rw [hhalf]; exact Nat.dvd_div_of_mul_dvd h),
        hhalf, Nat.div_div_eq_div_mul, pow_succ']

/-! ### Low bits first -/

theorem xor_mod_two_pow (x n : ℕ) : x ^^^ x % 2 ^ n = 2 ^ n * (x / 2 ^ n) := by
  apply Nat.eq_of_testBit_eq
  intro i
  rw [Nat.testBit_xor, Nat.testBit_mod_two_pow, Nat.testBit_two_pow_mul, Nat.testBit_div_two_pow]
  by_cases hi : i < n
  · simp [hi]
  · simp [hi, not_lt.mp hi]

/-- The low bits of a remainder go through the shifts, the others move down. -/
theorem shifts_eq_xor {n : ℕ} {c low high : UInt32} (hlow : low.toNat = c.toNat % 2 ^ n)
    (hhigh : high.toNat = c.toNat / 2 ^ n) : shifts poly n c = shifts poly n low ^^^ high := by
  have hrest : (c ^^^ low).toNat = 2 ^ n * (c.toNat / 2 ^ n) := by
    rw [UInt32.toNat_xor, hlow, xor_mod_two_pow]
  have hmoved : shifts poly n (c ^^^ low) = high := by
    apply UInt32.toNat_inj.mp
    rw [toNat_shifts_of_dvd poly (hrest ▸ dvd_mul_right _ _), hrest,
      Nat.mul_div_cancel_left _ (Nat.two_pow_pos n), hhigh]
  rw [shifts_xor] at hmoved
  rw [← hmoved, UInt32.xor_comm (shifts poly n c), ← UInt32.xor_assoc, UInt32.xor_self,
    UInt32.zero_xor]

/-- Four shifts at once, by a table of the remainders of sixteen words. -/
theorem shifts_four (c : UInt32) :
    shifts poly 4 c = (c >>> 4) ^^^ shifts poly 4 (c &&& 15) := by
  rw [UInt32.xor_comm]
  refine shifts_eq_xor poly ?_ ?_
  · rw [UInt32.toNat_and]
    exact Nat.and_two_pow_sub_one_eq_mod _ 4
  · exact Nat.shiftRight_eq_div_pow _ 4

/-- The first byte of a word that is added to a remainder. -/
theorem shifts_eight_xor (c w : UInt32) :
    shifts poly 8 (c ^^^ w) = byteStep poly c w.toUInt8 ^^^ (w >>> 8) := by
  rw [shifts_xor, byteStep, shifts_xor, UInt32.xor_assoc]
  congr 1
  refine shifts_eq_xor poly ?_ ?_
  · rw [UInt8.toNat_toUInt32, UInt32.toNat_toUInt8]
  · exact Nat.shiftRight_eq_div_pow _ 8

/-- The bytes of a word, read at once. -/
theorem update_toBytes {n : ℕ} (c : UInt32) {w : UInt32} (h : w.toNat < 256 ^ n) :
    update poly c (LittleEndian.toBytes n w.toNat) = shifts poly (8 * n) (c ^^^ w) := by
  induction n generalizing c w with
  | zero =>
      have hw : w = 0 := UInt32.toNat_inj.mp (Nat.lt_one_iff.mp h)
      rw [hw, UInt32.xor_zero]
      rfl
  | succ n ih =>
      have hhigh : (w >>> 8).toNat = w.toNat / 256 := Nat.shiftRight_eq_div_pow _ 8
      have hlt : (w >>> 8).toNat < 256 ^ n := by
        rw [hhigh]
        rw [pow_succ'] at h
        exact Nat.div_lt_of_lt_mul h
      have hfirst : LittleEndian.toBytes (n + 1) w.toNat =
          w.toUInt8 :: LittleEndian.toBytes n (w >>> 8).toNat := by
        rw [hhigh]
        rfl
      rw [hfirst, show 8 * (n + 1) = 8 + 8 * n by omega, ← shifts_shifts, shifts_eight_xor,
        ← ih _ hlt]
      rfl

end Crc
