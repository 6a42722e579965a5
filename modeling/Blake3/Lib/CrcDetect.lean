import Blake3.Lib.Crc
import Mathlib.Algebra.BigOperators.Ring.Finset
import Mathlib.Algebra.Field.ZMod
import Mathlib.Data.List.GetD
import Mathlib.Data.ZMod.Basic

/-!
What a cyclic redundancy check detects. The bytes of an input are read bit by bit,
the least significant bit of a byte first; the remainder is linear in the bits, so
that two inputs of one length have the same remainder only if the remainder of
their difference is zero.
-/

namespace Crc

variable (poly : UInt32)

/-- The remainder after the first `n` of the bits `e`. -/
def serial (c : UInt32) (e : ℕ → Bool) : ℕ → UInt32
  | 0 => c
  | n + 1 => bitStep poly (serial c e n ^^^ (e n).toUInt32)

/-- Bit `i` of an input. -/
def bitAt (xs : List UInt8) (i : ℕ) : Bool := (xs.getD (i / 8) 0).toNat.testBit (i % 8)

/-- The bits in which two inputs differ. -/
def differing (xs ys : List UInt8) : Finset ℕ :=
  (Finset.range (8 * xs.length)).filter fun i => bitAt xs i ≠ bitAt ys i

/-! ### Bit by bit -/

section Serial

variable {poly}

theorem serial_congr {c : UInt32} {e f : ℕ → Bool} {n : ℕ} (h : ∀ i < n, e i = f i) :
    serial poly c e n = serial poly c f n := by
  induction n with
  | zero => rfl
  | succ n ih => rw [serial, serial, ih fun i hi => h i (by omega), h n (by omega)]

theorem serial_add (c : UInt32) (e : ℕ → Bool) (m n : ℕ) :
    serial poly c e (m + n) = serial poly (serial poly c e m) (fun i => e (m + i)) n := by
  induction n with
  | zero => rfl
  | succ n ih => rw [← Nat.add_assoc, serial, ih, serial]

theorem toUInt32_xor (a b : Bool) : (a ^^ b).toUInt32 = a.toUInt32 ^^^ b.toUInt32 := by
  cases a <;> cases b <;> rfl

/-- The remainder is linear in what it starts from and in the bits. -/
theorem serial_xor (a b : UInt32) (e f : ℕ → Bool) (n : ℕ) :
    serial poly (a ^^^ b) (fun i => e i ^^ f i) n = serial poly a e n ^^^ serial poly b f n := by
  induction n with
  | zero => rfl
  | succ n ih =>
      rw [serial, serial, serial, ← bitStep_xor, ih, toUInt32_xor]
      congr 1
      ac_rfl

theorem serial_zero_of_false {e : ℕ → Bool} {n : ℕ} (h : ∀ i < n, e i = false) :
    serial poly 0 e n = 0 := by
  induction n with
  | zero => rfl
  | succ n ih =>
      rw [serial, ih fun i hi => h i (by omega), h n (by omega), bitStep_of_even poly rfl]
      rfl

theorem bitStep_xor_toUInt32 {c w high : UInt32} (hhigh : high.toNat = w.toNat / 2) :
    bitStep poly (c ^^^ w) = bitStep poly (c ^^^ (w.toNat.testBit 0).toUInt32) ^^^ high := by
  rw [bitStep_xor, bitStep_xor, UInt32.xor_assoc]
  congr 1
  refine shifts_eq_xor poly (n := 1) ?_ ?_
  · rw [Nat.testBit_zero, pow_one]
    rcases Nat.mod_two_eq_zero_or_one w.toNat with h | h <;> rw [h] <;> rfl
  · rw [hhigh, pow_one]

/-- A short word that is added to a remainder is read bit by bit. -/
theorem shifts_xor_eq_serial {n : ℕ} (c : UInt32) {w : UInt32} (h : w.toNat < 2 ^ n) :
    shifts poly n (c ^^^ w) = serial poly c w.toNat.testBit n := by
  induction n generalizing c w with
  | zero =>
      have hw : w = 0 := UInt32.toNat_inj.mp (Nat.lt_one_iff.mp h)
      rw [hw, UInt32.xor_zero]
      rfl
  | succ n ih =>
      have hhigh : (w >>> 1).toNat = w.toNat / 2 := Nat.shiftRight_eq_div_pow _ 1
      have hlt : (w >>> 1).toNat < 2 ^ n := by
        rw [pow_succ] at h
        omega
      rw [shifts, bitStep_xor_toUInt32 hhigh, ih _ hlt, Nat.add_comm, serial_add]
      apply serial_congr
      intro i hi
      rw [hhigh, Nat.testBit_div_two, Nat.add_comm]

theorem byteStep_eq_serial (c : UInt32) (b : UInt8) :
    byteStep poly c b = serial poly c b.toNat.testBit 8 := by
  have hb : b.toUInt32.toNat = b.toNat := UInt8.toNat_toUInt32 b
  rw [byteStep, shifts_xor_eq_serial c (by rw [hb]; exact b.toNat_lt), hb]

theorem update_eq_serial (c : UInt32) (xs : List UInt8) :
    update poly c xs = serial poly c (bitAt xs) (8 * xs.length) := by
  induction xs generalizing c with
  | nil => rfl
  | cons b xs ih =>
      rw [List.length_cons, Nat.mul_succ, Nat.add_comm, serial_add]
      have hfirst : serial poly c (bitAt (b :: xs)) 8 = byteStep poly c b := by
        rw [byteStep_eq_serial]
        apply serial_congr
        intro i hi
        rw [bitAt, Nat.div_eq_of_lt hi, Nat.mod_eq_of_lt hi]
        rfl
      have hrest : (fun i => bitAt (b :: xs) (8 + i)) = bitAt xs := by
        funext i
        rw [bitAt, bitAt, Nat.add_div_left i (by omega), Nat.add_mod_left]
        rfl
      rw [hfirst, hrest, ← ih]
      rfl

/-- Two inputs of one length have one remainder when their difference has none. -/
theorem serial_difference {c : UInt32} {xs ys : List UInt8} (hlength : ys.length = xs.length)
    (h : update poly c xs = update poly c ys) :
    serial poly 0 (fun i => bitAt xs i ^^ bitAt ys i) (8 * xs.length) = 0 := by
  have hsum : serial poly (c ^^^ c) _ _ = _ := serial_xor c c (bitAt xs) (bitAt ys) (8 * xs.length)
  rw [UInt32.xor_self, ← update_eq_serial, ← hlength, ← update_eq_serial, h,
    UInt32.xor_self] at hsum
  rwa [hlength] at hsum

end Serial

/-! ### Bursts -/

section Burst

variable {poly} (hpoly : 2 ^ 31 ≤ poly.toNat)
include hpoly

/-- An odd remainder gets the highest bit of the polynomial. -/
theorem le_bitStep_of_odd {c : UInt32} (h : c &&& 1 = 1) : 2 ^ 31 ≤ (bitStep poly c).toNat := by
  have hhalf : (c >>> 1).toNat < 2 ^ 31 := by
    have hshift : (c >>> 1).toNat = c.toNat / 2 := Nat.shiftRight_eq_div_pow _ 1
    have hlt := c.toNat_lt
    omega
  have hbit : (bitStep poly c).toNat.testBit 31 = true := by
    rw [bitStep_of_odd poly h, UInt32.toNat_xor, Nat.testBit_xor, Nat.testBit_lt_two_pow hhalf,
      Bool.false_xor, Nat.testBit_eq_decide_div_mod_eq]
    have hlt := poly.toNat_lt
    rw [decide_eq_true_eq]
    omega
  exact Nat.ge_two_pow_of_testBit hbit

/-- A remainder below the highest bit was shifted without the polynomial. -/
theorem toNat_eq_of_bitStep_lt {c : UInt32} (h : (bitStep poly c).toNat < 2 ^ 31) :
    c.toNat = 2 * (bitStep poly c).toNat := by
  rcases low_bit c with hlow | hlow
  · have hhalf : (c >>> 1).toNat = c.toNat / 2 := Nat.shiftRight_eq_div_pow _ 1
    have hmod := congrArg UInt32.toNat hlow
    rw [UInt32.toNat_and, UInt32.toNat_one, Nat.and_one_is_mod, UInt32.toNat_zero] at hmod
    rw [bitStep_of_even poly hlow, hhalf]
    omega
  · exact absurd (le_bitStep_of_odd hpoly hlow) (by omega)

theorem serial_eq_zero_of_false {c : UInt32} {e : ℕ → Bool} {n : ℕ} (hfalse : ∀ i < n, e i = false)
    (h : serial poly c e n = 0) : c = 0 := by
  induction n with
  | zero => exact h
  | succ n ih =>
      apply ih fun i hi => hfalse i (by omega)
      rw [serial, hfalse n (by omega), show Bool.toUInt32 false = 0 from rfl, UInt32.xor_zero] at h
      have hback := toNat_eq_of_bitStep_lt hpoly (c := serial poly c e n) (by rw [h]; decide)
      rw [h] at hback
      exact UInt32.toNat_inj.mp hback

omit hpoly in
theorem two_mul_xor_one (n : ℕ) : 2 * n ^^^ 1 = 2 * n + 1 := by
  apply Nat.eq_of_testBit_eq
  intro i
  cases i with
  | zero => simp
  | succ i =>
      have hdouble : 2 * n / 2 = n ∧ (2 * n + 1) / 2 = n ∧ 1 / 2 = 0 := by omega
      rw [Nat.testBit_xor, Nat.testBit_succ, Nat.testBit_succ, Nat.testBit_succ, hdouble.1,
        hdouble.2.1, hdouble.2.2, Nat.zero_testBit, Bool.xor_false]

/-- At most 32 bits that leave no remainder are the bits of what they are added to. -/
theorem bits_of_serial_eq_zero {c : UInt32} {e : ℕ → Bool} {n : ℕ} (hn : n ≤ 32)
    (h : serial poly c e n = 0) :
    c.toNat < 2 ^ n ∧ ∀ i < n, c.toNat.testBit i = e i := by
  induction n generalizing c e with
  | zero =>
      rw [serial] at h
      subst h
      exact ⟨by decide, fun i hi => absurd hi (by omega)⟩
  | succ n ih =>
      rw [Nat.add_comm, serial_add] at h
      obtain ⟨hlt, hbits⟩ := ih (by omega) h
      have hfirst : serial poly c e 1 = bitStep poly (c ^^^ (e 0).toUInt32) := rfl
      rw [hfirst] at hlt hbits
      have hsmall : 2 ^ n ≤ 2 ^ 31 := Nat.pow_le_pow_right (by omega) (by omega)
      have hback := toNat_eq_of_bitStep_lt hpoly (lt_of_lt_of_le hlt hsmall)
      generalize (bitStep poly (c ^^^ (e 0).toUInt32)).toNat = half at *
      have hc : c.toNat = 2 * half ^^^ (e 0).toUInt32.toNat := by
        rw [← hback, UInt32.toNat_xor, Nat.xor_assoc, Nat.xor_self, Nat.xor_zero]
      have hsum : 2 * half ^^^ (e 0).toUInt32.toNat = 2 * half + (e 0).toNat := by
        cases e 0
        · exact Nat.xor_zero _
        · exact two_mul_xor_one half
      rw [hsum] at hc
      have hbit := (e 0).toNat_lt
      refine ⟨by rw [pow_succ]; omega, fun i hi => ?_⟩
      rw [hc]
      cases i with
      | zero =>
          rw [Nat.testBit_zero]
          cases e 0 <;> simp
      | succ i =>
          have hdiv : (2 * half + (e 0).toNat) / 2 = half := by omega
          rw [Nat.testBit_succ, hdiv, hbits i (by omega), Nat.add_comm]

/-- A difference within 32 consecutive bits leaves a remainder. -/
theorem false_of_window {e : ℕ → Bool} {start n : ℕ}
    (hwindow : ∀ i < n, e i = true → start ≤ i ∧ i < start + 32) (h : serial poly 0 e n = 0) :
    ∀ i < n, e i = false := by
  have hout : ∀ i < n, ¬(start ≤ i ∧ i < start + 32) → e i = false := by
    intro i hi hoff
    exact Bool.eq_false_of_not_eq_true fun htrue => hoff (hwindow i hi htrue)
  intro i hi
  by_cases hin : start ≤ i ∧ i < start + 32
  · -- the bits before the window, those in it and those after it
    obtain ⟨j, rfl⟩ := Nat.exists_eq_add_of_le hin.1
    obtain ⟨k, hk⟩ := Nat.exists_eq_add_of_lt (show start < n by omega)
    have hsplit : n = start + min 32 (k + 1) + (k + 1 - 32) := by omega
    rw [hsplit, serial_add, serial_add,
      serial_zero_of_false fun i hi => hout i (by omega) (by omega)]
      at h
    have hinside := serial_eq_zero_of_false hpoly (fun i hi => hout _ (by omega) (by omega)) h
    obtain ⟨-, hbits⟩ := bits_of_serial_eq_zero hpoly (by omega) hinside
    rw [← hbits j (by omega)]
    exact Nat.zero_testBit j
  · exact hout i hi hin

end Burst

/-! ### The number of bits -/

section Parity

def toZMod (b : Bool) : ZMod 2 := if b then 1 else 0

theorem toZMod_xor (a b : Bool) : toZMod (a ^^ b) = toZMod a + toZMod b := by
  cases a <;> cases b <;> decide

/-- The number of bits of a word, modulo two. -/
def parity (c : UInt32) : ZMod 2 := ∑ i ∈ Finset.range 32, toZMod (c.toNat.testBit i)

theorem parity_xor (a b : UInt32) : parity (a ^^^ b) = parity a + parity b := by
  rw [parity, parity, parity, ← Finset.sum_add_distrib]
  apply Finset.sum_congr rfl
  intro i _
  rw [UInt32.toNat_xor, Nat.testBit_xor, toZMod_xor]

theorem parity_toUInt32 (b : Bool) : parity b.toUInt32 = toZMod b := by
  cases b <;> decide

theorem parity_shiftRight (c : UInt32) :
    parity c = parity (c >>> 1) + toZMod (c.toNat.testBit 0) := by
  have hhalf : (c >>> 1).toNat = c.toNat / 2 := Nat.shiftRight_eq_div_pow _ 1
  have htop : (c >>> 1).toNat.testBit 31 = false := by
    apply Nat.testBit_lt_two_pow
    have hlt := c.toNat_lt
    omega
  rw [parity, parity, Finset.sum_range_succ', Finset.sum_range_succ _ 31, htop]
  simp only [hhalf, Nat.testBit_div_two, toZMod, Bool.false_eq_true, if_false, add_zero]

variable {poly} (hpoly : parity poly = 1)
include hpoly

/-- A polynomial of an odd number of bits keeps the parity of a remainder. -/
theorem parity_bitStep (c : UInt32) : parity (bitStep poly c) = parity c := by
  have hlow : c.toNat.testBit 0 = decide ((c &&& 1).toNat = 1) := by
    rw [UInt32.toNat_and, UInt32.toNat_one, Nat.and_one_is_mod, Nat.testBit_zero]
  rw [parity_shiftRight c, hlow]
  rcases low_bit c with h | h
  · rw [bitStep_of_even poly h, h]
    exact (add_zero _).symm
  · rw [bitStep_of_odd poly h, h, parity_xor, hpoly]
    rfl

theorem parity_serial (c : UInt32) (e : ℕ → Bool) (n : ℕ) :
    parity (serial poly c e n) = parity c + ∑ i ∈ Finset.range n, toZMod (e i) := by
  induction n with
  | zero => rw [serial, Finset.sum_range_zero, add_zero]
  | succ n ih =>
      rw [serial, parity_bitStep hpoly, parity_xor, ih, parity_toUInt32, Finset.sum_range_succ,
        add_assoc]

end Parity

/-! ### What is detected -/

section Detection

variable {poly} {c : UInt32} {xs ys : List UInt8}

theorem ext_bitAt (hlength : ys.length = xs.length)
    (h : ∀ i < 8 * xs.length, (bitAt xs i ^^ bitAt ys i) = false) : xs = ys := by
  apply List.ext_getElem hlength.symm
  intro k hk hk'
  apply UInt8.toNat_inj.mp
  apply Nat.eq_of_testBit_eq
  intro j
  by_cases hj : j < 8
  · have hbit := h (8 * k + j) (by omega)
    rw [bitAt, bitAt, show (8 * k + j) / 8 = k by omega, show (8 * k + j) % 8 = j by omega,
      List.getD_eq_getElem _ _ hk, List.getD_eq_getElem _ _ hk'] at hbit
    simpa using hbit
  · have hpow : 2 ^ 8 ≤ 2 ^ j := Nat.pow_le_pow_right (by omega) (by omega)
    rw [Nat.testBit_lt_two_pow (lt_of_lt_of_le xs[k].toNat_lt hpow),
      Nat.testBit_lt_two_pow (lt_of_lt_of_le ys[k].toNat_lt hpow)]

/-- Inputs that differ, within 32 consecutive bits only, have two remainders. -/
theorem update_ne_of_window (hpoly : 2 ^ 31 ≤ poly.toNat) (hlength : ys.length = xs.length)
    (hne : ys ≠ xs) {start : ℕ} (hwindow : ∀ i ∈ differing xs ys, start ≤ i ∧ i < start + 32) :
    update poly c xs ≠ update poly c ys := by
  intro h
  refine hne (ext_bitAt hlength ?_).symm
  have hinside : ∀ i < 8 * xs.length, (bitAt xs i ^^ bitAt ys i) = true →
      start ≤ i ∧ i < start + 32 := fun i hi hdiff =>
    hwindow i (Finset.mem_filter.mpr ⟨Finset.mem_range.mpr hi, by simpa using hdiff⟩)
  exact false_of_window hpoly hinside (serial_difference hlength h)

theorem sum_toZMod_difference :
    ∑ i ∈ Finset.range (8 * xs.length), toZMod (bitAt xs i ^^ bitAt ys i) =
      ((differing xs ys).card : ZMod 2) := by
  rw [differing, Finset.natCast_card_filter]
  apply Finset.sum_congr rfl
  intro i _
  cases bitAt xs i <;> cases bitAt ys i <;> rfl

/-- Inputs that differ in an odd number of bits have two remainders. -/
theorem update_ne_of_odd (hpoly : parity poly = 1) (hlength : ys.length = xs.length)
    (hodd : Odd (differing xs ys).card) : update poly c xs ≠ update poly c ys := by
  intro h
  have hparity := parity_serial hpoly 0 (fun i => bitAt xs i ^^ bitAt ys i) (8 * xs.length)
  rw [serial_difference hlength h, sum_toZMod_difference, ZMod.natCast_eq_one_iff_odd.mpr hodd]
    at hparity
  exact absurd hparity (by decide)

end Detection

end Crc
