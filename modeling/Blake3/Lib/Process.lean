import Mathlib.Data.List.Basic

/-!
Computations that return a value, end with an error, or do not end within the
fuel they are given.
-/

abbrev Process (ε α : Type) := ExceptT ε Option α

namespace Process

variable {ε α β : Type}

/-- The computation that does not end. -/
def never : Process ε α := ExceptT.mk none

def fault (e : ε) : Process ε α := ExceptT.mk (some (.error e))

def ofExcept (x : Except ε α) : Process ε α := ExceptT.mk (some x)

@[simp] theorem never_bind (k : α → Process ε β) : never >>= k = never := rfl

@[simp] theorem fault_bind (e : ε) (k : α → Process ε β) : fault e >>= k = fault e := rfl

@[simp] theorem ofExcept_ok (a : α) : ofExcept (.ok a : Except ε α) = pure a := rfl

@[simp] theorem ofExcept_error (e : ε) : ofExcept (.error e : Except ε α) = fault e := rfl

theorem cases (x : Process ε α) : x = never ∨ (∃ e, x = fault e) ∨ ∃ a, x = pure a := by
  rcases hx : x.run with _ | (e | a)
  · exact .inl hx
  · exact .inr (.inl ⟨e, hx⟩)
  · exact .inr (.inr ⟨a, hx⟩)

theorem never_ne_pure {a : α} : (never : Process ε α) ≠ pure a := by
  intro h
  cases h

theorem fault_ne_pure {e : ε} {a : α} : fault e ≠ pure a := by
  intro h
  cases h

theorem pure_inj {a a' : α} (h : (pure a : Process ε α) = pure a') : a = a' := by
  cases h
  rfl

theorem ofExcept_eq_pure {x : Except ε α} {a : α} : ofExcept x = pure a ↔ x = .ok a := by
  cases x with
  | error e => exact iff_of_false fault_ne_pure nofun
  | ok a' => exact ⟨fun h => congrArg Except.ok (pure_inj h), fun h => by cases h; rfl⟩

/-- A sequence returns if and only if both parts do. -/
theorem bind_eq_pure {x : Process ε α} {k : α → Process ε β} {b : β} :
    x >>= k = pure b ↔ ∃ a, x = pure a ∧ k a = pure b := by
  rcases x.cases with rfl | ⟨e, rfl⟩ | ⟨a, rfl⟩
  · exact iff_of_false never_ne_pure fun ⟨a, h, _⟩ => never_ne_pure h
  · exact iff_of_false fault_ne_pure fun ⟨a, h, _⟩ => fault_ne_pure h
  · rw [pure_bind]
    refine ⟨fun h => ⟨a, rfl, h⟩, fun ⟨a', h, h'⟩ => ?_⟩
    rwa [pure_inj h]

end Process
