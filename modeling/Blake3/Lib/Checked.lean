import Mathlib.Algebra.Order.Ring.Nat

/-!
Unsigned arithmetic of `w` bits that reports what does not fit. An error stands in the
place of the result that would have wrapped around, or of a division by zero.
-/

namespace Checked

variable {ε : Type} (e : ε) {w a b k : ℕ}

/-- A result that has to fit. -/
def fit (w x : ℕ) : Except ε ℕ := if x < 2 ^ w then .ok x else .error e

def add (w a b : ℕ) : Except ε ℕ := fit e w (a + b)

def mul (w a b : ℕ) : Except ε ℕ := fit e w (a * b)

def shiftLeft (w a k : ℕ) : Except ε ℕ := fit e w (a * 2 ^ k)

def sub (a b : ℕ) : Except ε ℕ := if b ≤ a then .ok (a - b) else .error e

def div (a b : ℕ) : Except ε ℕ := if b = 0 then .error e else .ok (a / b)

theorem ok_bind {α β : Type} (a : α) (g : α → Except ε β) : (.ok a >>= g) = g a := rfl

theorem add_eq (h : a + b < 2 ^ w) : add e w a b = .ok (a + b) := if_pos h

theorem mul_eq (h : a * b < 2 ^ w) : mul e w a b = .ok (a * b) := if_pos h

theorem shiftLeft_eq (h : a * 2 ^ k < 2 ^ w) : shiftLeft e w a k = .ok (a * 2 ^ k) := if_pos h

theorem sub_eq (h : b ≤ a) : sub e a b = .ok (a - b) := if_pos h

theorem div_eq (h : b ≠ 0) : div e a b = .ok (a / b) := if_neg h

end Checked
