import Mathlib.Algebra.Order.Ring.Int

/-!
Signed integers of `w` bits as C has them: division rounds towards zero, and what is
undefined is an error.
-/

namespace CInt

/-- What makes a computation undefined. -/
inductive Undefined where
  | overflow
  | divisionByZero
  | outOfBounds
  deriving DecidableEq, Repr

abbrev Defined := Except Undefined

theorem ok_bind {α β : Type} (a : α) (g : α → Defined β) : (.ok a >>= g) = g a := rfl

def Fits (w : ℕ) (x : ℤ) : Prop := -2 ^ (w - 1) ≤ x ∧ x < 2 ^ (w - 1)

instance (w : ℕ) (x : ℤ) : Decidable (Fits w x) := inferInstanceAs (Decidable (_ ∧ _))

/-- A result that has to fit. -/
def fit (w : ℕ) (x : ℤ) : Defined ℤ := if Fits w x then .ok x else .error .overflow

def add (w : ℕ) (a b : ℤ) : Defined ℤ := fit w (a + b)

def sub (w : ℕ) (a b : ℤ) : Defined ℤ := fit w (a - b)

def neg (w : ℕ) (a : ℤ) : Defined ℤ := fit w (-a)

def div (w : ℕ) (a b : ℤ) : Defined ℤ :=
  if b = 0 then .error .divisionByZero else fit w (a.tdiv b)

/-- A remainder is undefined where the quotient is. -/
def mod (w : ℕ) (a b : ℤ) : Defined ℤ := do
  let _ ← div w a b
  .ok (a.tmod b)

/-- The value of a condition. -/
def truth (p : Prop) [Decidable p] : ℤ := if p then 1 else 0

section

variable {p : Prop} [Decidable p]

theorem truth_cases : truth p = 0 ∨ truth p = 1 := by
  rw [truth]
  split_ifs
  · exact .inr rfl
  · exact .inl rfl

theorem truth_eq_one : truth p = 1 ↔ p := by
  by_cases h : p <;> simp [truth, h]

theorem truth_ne_zero : truth p ≠ 0 ↔ p := by
  by_cases h : p <;> simp [truth, h]

end

variable {w : ℕ} {a b c : ℤ}

theorem fit_eq (h : Fits w a) : fit w a = .ok a := if_pos h

theorem fit_eq_ok (h : fit w a = .ok c) : c = a ∧ Fits w c := by
  rw [fit] at h
  split_ifs at h with hfits
  obtain rfl := Except.ok.inj h
  exact ⟨rfl, hfits⟩

theorem add_eq (h : Fits w (a + b)) : add w a b = .ok (a + b) := fit_eq h

theorem sub_eq (h : Fits w (a - b)) : sub w a b = .ok (a - b) := fit_eq h

theorem neg_eq (h : Fits w (-a)) : neg w a = .ok (-a) := fit_eq h

theorem div_eq (hb : b ≠ 0) (h : Fits w (a.tdiv b)) : div w a b = .ok (a.tdiv b) := by
  rw [div, if_neg hb, fit_eq h]

theorem mod_eq (hb : b ≠ 0) (h : Fits w (a.tdiv b)) : mod w a b = .ok (a.tmod b) := by
  rw [mod, div_eq hb h, ok_bind]

theorem mod_eq_ok (h : mod w a b = .ok c) : b ≠ 0 ∧ c = a.tmod b := by
  by_cases hb : b = 0
  · rw [mod, div, if_pos hb] at h
    cases h
  · rw [mod, div, if_neg hb, fit] at h
    split_ifs at h with hfits
    · exact ⟨hb, (Except.ok.inj h).symm⟩
    · cases h

/-- Only the quotient of the least number by `-1` does not fit. -/
theorem fits_tdiv (ha : Fits w a) (hb : b ≠ 0) (h : b = -1 → a ≠ -2 ^ (w - 1)) :
    Fits w (a.tdiv b) := by
  have hpow : (0 : ℤ) < 2 ^ (w - 1) := Int.pow_pos (by decide)
  obtain ⟨hlow, hhigh⟩ := ha
  rw [Fits]
  generalize (2 : ℤ) ^ (w - 1) = bound at *
  by_cases hone : b.natAbs = 1
  · rcases Int.natAbs_eq_iff.mp hone with rfl | rfl
    · rw [Int.natCast_one, Int.tdiv_one]
      exact ⟨hlow, hhigh⟩
    · have hne := h rfl
      rw [Int.natCast_one, Int.tdiv_neg, Int.tdiv_one]
      omega
  · have hhalf : a.natAbs / b.natAbs ≤ a.natAbs / 2 := Nat.div_le_div_left (by omega) (by decide)
    have habs := Int.natAbs_tdiv a b
    change _ = a.natAbs / b.natAbs at habs
    omega

theorem fits_tdiv_of_pos (ha : Fits w a) (hb : 0 < b) : Fits w (a.tdiv b) :=
  fits_tdiv ha (by omega) (by omega)

theorem natAbs_tmod_lt (hb : b ≠ 0) : (a.tmod b).natAbs < b.natAbs := by
  rw [Int.natAbs_tmod]
  exact Nat.mod_lt _ (by omega)

end CInt
