import Mathlib.Algebra.Order.Ring.Nat
import Mathlib.Data.List.Basic
import Mathlib.Tactic.Ring

/-!
Numbers as little-endian bytes. A number below `256 ^ n` and its `n` bytes
determine each other.
-/

namespace LittleEndian

/-- The lowest `n` bytes of a number, the lowest one first. -/
def toBytes : ℕ → ℕ → List UInt8
  | 0, _ => []
  | n + 1, v => UInt8.ofNat v :: toBytes n (v / 256)

def ofBytes : List UInt8 → ℕ
  | [] => 0
  | b :: bytes => b.toNat + 256 * ofBytes bytes

@[simp] theorem length_toBytes (n v : ℕ) : (toBytes n v).length = n := by
  induction n generalizing v with
  | zero => rfl
  | succ n ih => rw [toBytes, List.length_cons, ih]

theorem ofBytes_toBytes (n v : ℕ) : ofBytes (toBytes n v) = v % 256 ^ n := by
  induction n generalizing v with
  | zero => rw [pow_zero, Nat.mod_one]; rfl
  | succ n ih =>
      rw [toBytes, ofBytes, ih, UInt8.toNat_ofNat', pow_succ' 256 n, Nat.mod_mul]

theorem ofBytes_toBytes_of_lt {n v : ℕ} (h : v < 256 ^ n) : ofBytes (toBytes n v) = v := by
  rw [ofBytes_toBytes, Nat.mod_eq_of_lt h]

theorem toBytes_inj {n v w : ℕ} (hv : v < 256 ^ n) (hw : w < 256 ^ n)
    (h : toBytes n v = toBytes n w) : v = w := by
  rw [← ofBytes_toBytes_of_lt hv, h, ofBytes_toBytes_of_lt hw]

theorem ofBytes_lt (bytes : List UInt8) : ofBytes bytes < 256 ^ bytes.length := by
  induction bytes with
  | nil => exact Nat.one_pos
  | cons b bytes ih =>
      have hb := b.toNat_lt
      rw [ofBytes, List.length_cons, pow_succ']
      omega

theorem ofBytes_append (xs ys : List UInt8) :
    ofBytes (xs ++ ys) = ofBytes xs + 256 ^ xs.length * ofBytes ys := by
  induction xs with
  | nil => rw [List.nil_append, ofBytes, List.length_nil, pow_zero, one_mul, Nat.zero_add]
  | cons b xs ih =>
      rw [List.cons_append, ofBytes, ih, ofBytes, List.length_cons, pow_succ']
      ring

theorem toBytes_ofBytes (bytes : List UInt8) : toBytes bytes.length (ofBytes bytes) = bytes := by
  induction bytes with
  | nil => rfl
  | cons b bytes ih =>
      have hb := b.toNat_lt
      have hlow : UInt8.ofNat (b.toNat + 256 * ofBytes bytes) = b := by
        apply UInt8.toNat_inj.mp
        rw [UInt8.toNat_ofNat']
        omega
      have hhigh : (b.toNat + 256 * ofBytes bytes) / 256 = ofBytes bytes := by omega
      rw [List.length_cons, ofBytes, toBytes, hlow, hhigh, ih]

theorem toBytes_ofBytes_of_length {n : ℕ} {bytes : List UInt8} (h : bytes.length = n) :
    toBytes n (ofBytes bytes) = bytes := by
  rw [← h, toBytes_ofBytes]

/-! ### Words -/

theorem toBytes_word (w : UInt32) :
    [w.toUInt8, (w >>> 8).toUInt8, (w >>> 16).toUInt8, (w >>> 24).toUInt8] =
      toBytes 4 w.toNat := by
  have hw := w.toNat_lt
  simp only [toBytes, List.cons.injEq, ← UInt8.toNat_inj, UInt32.toNat_toUInt8,
    UInt32.toNat_shiftRight, UInt8.toNat_ofNat', Nat.shiftRight_eq_div_pow]
  simp
  omega

theorem toBytes_doubleWord (w : UInt64) :
    [w.toUInt8, (w >>> 8).toUInt8, (w >>> 16).toUInt8, (w >>> 24).toUInt8,
      (w >>> 32).toUInt8, (w >>> 40).toUInt8, (w >>> 48).toUInt8, (w >>> 56).toUInt8] =
      toBytes 8 w.toNat := by
  have hw := w.toNat_lt
  simp only [toBytes, List.cons.injEq, ← UInt8.toNat_inj, UInt64.toNat_toUInt8,
    UInt64.toNat_shiftRight, UInt8.toNat_ofNat', Nat.shiftRight_eq_div_pow]
  simp
  omega

theorem toBytes_word_inj {v w : UInt32} (h : toBytes 4 v.toNat = toBytes 4 w.toNat) : v = w :=
  UInt32.toNat_inj.mp (toBytes_inj v.toNat_lt w.toNat_lt h)

theorem toBytes_doubleWord_inj {v w : UInt64} (h : toBytes 8 v.toNat = toBytes 8 w.toNat) :
    v = w :=
  UInt64.toNat_inj.mp (toBytes_inj v.toNat_lt w.toNat_lt h)

end LittleEndian
