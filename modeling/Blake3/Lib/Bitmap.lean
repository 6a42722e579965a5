import Mathlib.Data.Finset.Card
import Mathlib.Data.Finset.Range
import Mathlib.Data.Nat.Bitwise

/-!
A set of numbers as the bits of an array of bytes: number `i` is bit `i % 8` of
byte `i / 8`.
-/

namespace Bitmap

variable {n : ℕ}

def isSet (bitmap : Vector UInt8 n) (i : ℕ) : Bool :=
  (bitmap.toList.getD (i / 8) 0).toNat.testBit (i % 8)

/-- The byte with bit `i % 8` alone. -/
def mask (i : ℕ) : UInt8 := UInt8.ofNat (2 ^ (i % 8))

theorem isSet_of_lt (bitmap : Vector UInt8 n) {i : ℕ} (h : i / 8 < n) :
    isSet bitmap i = bitmap[i / 8].toNat.testBit (i % 8) := by
  rw [isSet, List.getD_eq_getElem?_getD, List.getElem?_eq_getElem (by simpa using h)]
  simp

theorem isSet_replicate (i : ℕ) : isSet (Vector.replicate n 0) i = false := by
  simp [isSet, List.getElem?_replicate]
  split <;> simp

theorem toNat_mask (i : ℕ) : (mask i).toNat = 2 ^ (i % 8) := by
  have hlt : 2 ^ (i % 8) < 2 ^ 8 := Nat.pow_lt_pow_right (by omega) (Nat.mod_lt _ (by omega))
  rw [mask, UInt8.toNat_ofNat', Nat.mod_eq_of_lt hlt]

/-- A byte and the mask have a bit in common if the bit is set. -/
theorem and_mask_ne_zero (b : UInt8) (i : ℕ) :
    b &&& mask i ≠ 0 ↔ b.toNat.testBit (i % 8) = true := by
  rw [ne_eq, ← UInt8.toNat_inj, UInt8.toNat_and, toNat_mask, Nat.and_two_pow]
  cases b.toNat.testBit (i % 8) <;> simp

theorem testBit_or_mask (b : UInt8) (i k : ℕ) :
    (b ||| mask i).toNat.testBit k = (b.toNat.testBit k || decide (i % 8 = k)) := by
  rw [UInt8.toNat_or, toNat_mask, Nat.testBit_or, Nat.testBit_two_pow]

/-- The array with number `i` added. -/
def insert (bitmap : Vector UInt8 n) (i : ℕ) (h : i / 8 < n) : Vector UInt8 n :=
  bitmap.set (i / 8) (bitmap[i / 8] ||| mask i) h

theorem isSet_insert (bitmap : Vector UInt8 n) {i : ℕ} (h : i / 8 < n) (j : ℕ) :
    isSet (insert bitmap i h) j = (isSet bitmap j || decide (j = i)) := by
  by_cases hj : j / 8 < n
  · rw [isSet_of_lt _ hj, isSet_of_lt _ hj, insert, Vector.getElem_set]
    split
    · next heq =>
        have hsame : i % 8 = j % 8 ↔ j = i := by omega
        simp only [heq, testBit_or_mask, hsame]
    · next hne =>
        have hother : j ≠ i := by
          rintro rfl
          exact hne rfl
        simp [hother]
  · have hout : ∀ b : Vector UInt8 n, isSet b j = false := by
      intro b
      rw [isSet, List.getD_eq_getElem?_getD, List.getElem?_eq_none (by simpa using hj)]
      simp
    have hother : j ≠ i := by
      rintro rfl
      exact hj h
    simp [hout, hother]

/-- The number of bits set. -/
def count (bitmap : Vector UInt8 n) : ℕ :=
  ((Finset.range (8 * n)).filter fun i => isSet bitmap i).card

/-- The bits set are counted by the numbers in the set. -/
theorem count_eq_length {bitmap : Vector UInt8 n} {members : List ℕ} (hnodup : members.Nodup)
    (hmembers : ∀ i, isSet bitmap i = true ↔ i ∈ members) (hlt : ∀ i ∈ members, i < 8 * n) :
    count bitmap = members.length := by
  rw [count, ← List.toFinset_card_of_nodup hnodup]
  congr 1
  ext i
  rw [Finset.mem_filter, Finset.mem_range, hmembers, List.mem_toFinset]
  exact ⟨fun h => h.2, fun h => ⟨hlt i h, h⟩⟩

/-- Arrays with the same numbers are equal. -/
theorem ext_isSet {a b : Vector UInt8 n} (h : ∀ i, isSet a i = isSet b i) : a = b := by
  ext k hk
  apply Nat.eq_of_testBit_eq
  intro j
  rcases Nat.lt_or_ge j 8 with hj | hj
  · have hbit := h (8 * k + j)
    have hdiv : (8 * k + j) / 8 = k := by omega
    have hmod : (8 * k + j) % 8 = j := by omega
    rw [isSet_of_lt _ (by omega), isSet_of_lt _ (by omega)] at hbit
    simpa only [hdiv, hmod] using hbit
  · have hlow : ∀ c : UInt8, c.toNat.testBit j = false := fun c =>
      Nat.testBit_lt_two_pow (c.toNat_lt.trans_le (Nat.pow_le_pow_right (by omega) hj))
    rw [hlow, hlow]

end Bitmap
