import Mathlib.Data.List.Basic
import Mathlib.Data.List.GetD

/-!
Buffers as lists: what is left of a buffer when a part of it is overwritten,
comparison by accumulated differences, and arrays that are filled from the
front.
-/

namespace Buffer

variable {α : Type*}

/-- The buffer with `xs` written at position `p`. -/
def overwrite (buf : List α) (p : ℕ) (xs : List α) : List α :=
  buf.take p ++ xs ++ buf.drop (p + xs.length)

variable {buf xs ys : List α} {p q : ℕ}

@[simp] theorem overwrite_nil (buf : List α) (p : ℕ) : overwrite buf p [] = buf := by
  simp [overwrite]

theorem length_overwrite (h : p + xs.length ≤ buf.length) :
    (overwrite buf p xs).length = buf.length := by
  rw [overwrite, List.length_append, List.length_append, List.length_take, List.length_drop,
    Nat.min_eq_left (by omega)]
  omega

theorem take_overwrite (h : p ≤ buf.length) :
    (overwrite buf p xs).take (p + xs.length) = buf.take p ++ xs := by
  apply List.take_left'
  rw [List.length_append, List.length_take, Nat.min_eq_left h]

theorem take_overwrite_zero (buf xs : List α) : (overwrite buf 0 xs).take xs.length = xs := by
  rw [overwrite, List.take_zero, List.nil_append, List.take_left' rfl]

theorem drop_overwrite (h : p ≤ buf.length) (hq : p + xs.length ≤ q) :
    (overwrite buf p xs).drop q = buf.drop q := by
  have hlength : (buf.take p ++ xs).length = p + xs.length := by
    rw [List.length_append, List.length_take, Nat.min_eq_left h]
  rw [overwrite, List.drop_append, List.drop_eq_nil_of_le (by omega), List.nil_append, hlength,
    List.drop_drop]
  congr 1
  omega

/-- Writing on where the last write ended. -/
theorem overwrite_overwrite (h : p + xs.length ≤ buf.length) :
    overwrite (overwrite buf p xs) (p + xs.length) ys = overwrite buf p (xs ++ ys) := by
  rw [overwrite, take_overwrite (by omega), drop_overwrite (by omega) (by omega), overwrite,
    List.length_append, Nat.add_assoc]
  simp only [List.append_assoc]

theorem set_eq_overwrite {x : α} (h : p < buf.length) : buf.set p x = overwrite buf p [x] := by
  rw [List.set_eq_take_append_cons_drop, if_pos h, overwrite, List.append_assoc]
  rfl

/-- Differences accumulated bit by bit vanish when all of them do. -/
theorem foldl_or_eq_zero {β : Type*} [OrOp β] [OfNat β 0]
    (hor : ∀ a b : β, a ||| b = 0 ↔ a = 0 ∧ b = 0) (diffOf : α → β) (items : List α) (diff : β) :
    items.foldl (fun diff x => diff ||| diffOf x) diff = 0 ↔
      diff = 0 ∧ ∀ x ∈ items, diffOf x = 0 := by
  induction items generalizing diff with
  | nil => simp
  | cons x items ih =>
      rw [List.foldl_cons, ih, List.forall_mem_cons, hor]
      exact and_assoc

/-! ### Arrays filled from the front -/

variable {n : ℕ} {z : α}

/-- The array of `xs` and then `z`s. -/
def padded (z : α) (xs : List α) : Vector α n := Vector.ofFn fun i => xs.getD i.val z

theorem toList_padded (h : xs.length ≤ n) :
    (padded z xs : Vector α n).toList = xs ++ List.replicate (n - xs.length) z := by
  rw [padded, Vector.toList_ofFn]
  apply List.ext_getElem
  · rw [List.length_ofFn, List.length_append, List.length_replicate]
    omega
  · intro i hi hi'
    rw [List.getElem_ofFn, List.getElem_append]
    split
    · next hlt => rw [List.getD_eq_getElem _ _ hlt]
    · next hlt => rw [List.getD_eq_default _ _ (Nat.not_lt.mp hlt), List.getElem_replicate]

theorem padded_nil : (padded z [] : Vector α n) = Vector.replicate n z := by
  apply Vector.toList_inj.mp
  rw [toList_padded (Nat.zero_le n), List.nil_append, List.length_nil, Nat.sub_zero,
    Vector.toList_replicate]

/-- What fills the array may be written behind `xs` once more. -/
theorem padded_concat : (padded z (xs ++ [z]) : Vector α n) = padded z xs := by
  have hget : ∀ i, (xs ++ [z]).getD i z = xs.getD i z := by
    intro i
    rcases Nat.lt_or_ge i xs.length with hlt | hge
    · rw [List.getD_append _ _ _ _ hlt]
    · rw [List.getD_append_right _ _ _ _ hge, List.getD_eq_default xs z hge]
      cases i - xs.length <;> simp
  simp only [padded, hget]

theorem take_padded {k : ℕ} (h : xs.length ≤ n) (hk : k ≤ xs.length) :
    (padded z xs : Vector α n).toList.take k = xs.take k := by
  rw [toList_padded h, List.take_append_of_le_length hk]

theorem set_padded {x : α} (h : xs.length ≤ n) (hp : p < xs.length) :
    (padded z xs : Vector α n).setIfInBounds p x = padded z (xs.set p x) := by
  apply Vector.toList_inj.mp
  rw [Vector.toList_setIfInBounds, toList_padded h, toList_padded (by rwa [List.length_set]),
    List.set_append_left _ _ hp, List.length_set]

/-- Filling one more place. -/
theorem set_padded_length {x : α} (h : xs.length < n) :
    (padded z xs : Vector α n).setIfInBounds xs.length x = padded z (xs ++ [x]) := by
  have hlength : (xs ++ [x]).length = xs.length + 1 := by simp
  obtain ⟨k, hk⟩ : ∃ k, n - xs.length = k + 1 := ⟨n - xs.length - 1, by omega⟩
  have hk' : n - (xs ++ [x]).length = k := by omega
  apply Vector.toList_inj.mp
  rw [Vector.toList_setIfInBounds, toList_padded (by omega), toList_padded (by omega), hk, hk',
    List.replicate_succ, List.set_append_right _ _ (Nat.le_refl _), Nat.sub_self,
    List.set_cons_zero,
    List.append_assoc, List.singleton_append]

end Buffer
