import Mathlib.Algebra.Order.Ring.Nat

/-!
How a run can go wrong. A C function that would touch memory outside an array
or read a slot nobody wrote, and a Rust function that panics, return a fault.
What an overflowing addition does, and whether debug assertions are checked,
depends on the build; C is the build in which unsigned arithmetic wraps and
nothing is asserted.
-/

namespace Blake3

inductive Fault where
  | overflow
  | outOfBounds
  | uninitialized
  | unwrapNone
  | debugAssert
  | assertFailed (message : String)
  deriving DecidableEq, Repr

abbrev Result := Except Fault

/-- The value of a computation that did not go wrong. -/
theorem Result.bind_eq_ok {ε α β : Type} {x : Except ε α} {g : α → Except ε β} {b : β} :
    (x >>= g) = .ok b ↔ ∃ a, x = .ok a ∧ g a = .ok b := by
  cases x with
  | error e => simp [bind, Except.bind]
  | ok a => simp [bind, Except.bind]

theorem Result.error_ne_ok {ε α : Type} {e : ε} {a : α} : (.error e : Except ε α) ≠ .ok a := by
  intro h
  cases h

@[simp] theorem Result.ok_bind {α β : Type} (a : α) (g : α → Result β) :
    ((.ok a : Result α) >>= g) = g a := rfl

@[simp] theorem Result.error_bind {α β : Type} (e : Fault) (g : α → Result β) :
    ((.error e : Result α) >>= g) = .error e := rfl

@[simp] theorem Result.pure_eq {α : Type} (a : α) : (pure a : Result α) = .ok a := rfl

/-! ### Builds -/

structure Build where
  overflowChecks : Bool
  debugAssertions : Bool

namespace Build

/-- The build whose arithmetic wraps and which asserts nothing. -/
def wrapping : Build := { overflowChecks := false, debugAssertions := false }

def addU8 (b : Build) (x y : ℕ) : Result ℕ :=
  if x + y < 256 then .ok (x + y)
  else if b.overflowChecks then .error .overflow else .ok ((x + y) % 256)

/-- Subtraction of 32-bit words. -/
def subU32 (b : Build) (x y : ℕ) : Result ℕ :=
  if y ≤ x then .ok (x - y)
  else if b.overflowChecks then .error .overflow else .ok (x + 2 ^ 32 - y)

def addU64 (b : Build) (x y : UInt64) : Result UInt64 :=
  if b.overflowChecks ∧ 2 ^ 64 ≤ x.toNat + y.toNat then .error .overflow else .ok (x + y)

def subU64 (b : Build) (x y : UInt64) : Result UInt64 :=
  if b.overflowChecks ∧ x.toNat < y.toNat then .error .overflow else .ok (x - y)

def mulU64 (b : Build) (x y : UInt64) : Result UInt64 :=
  if b.overflowChecks ∧ 2 ^ 64 ≤ x.toNat * y.toNat then .error .overflow else .ok (x * y)

def debugAssert (b : Build) (p : Prop) [Decidable p] : Result Unit :=
  if b.debugAssertions ∧ ¬p then .error .debugAssert else .ok ()

variable (b : Build)

theorem addU8_of_lt {x y : ℕ} (h : x + y < 256) : b.addU8 x y = .ok (x + y) := if_pos h

theorem subU32_of_le {x y : ℕ} (h : y ≤ x) : b.subU32 x y = .ok (x - y) := if_pos h

theorem addU64_of_lt {x y : UInt64} (h : x.toNat + y.toNat < 2 ^ 64) :
    b.addU64 x y = .ok (x + y) := if_neg (by omega)

theorem subU64_of_le {x y : UInt64} (h : y.toNat ≤ x.toNat) : b.subU64 x y = .ok (x - y) :=
  if_neg (by omega)

theorem mulU64_of_lt {x y : UInt64} (h : x.toNat * y.toNat < 2 ^ 64) :
    b.mulU64 x y = .ok (x * y) := if_neg (by omega)

theorem debugAssert_of {p : Prop} [Decidable p] (h : p) : b.debugAssert p = .ok () :=
  if_neg (by simp [h])

@[simp] theorem wrapping_addU64 (x y : UInt64) : wrapping.addU64 x y = .ok (x + y) :=
  if_neg (by simp [wrapping])

end Build

end Blake3
