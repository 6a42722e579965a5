import Mathlib.Data.List.Nodup

/-!
Lists whose elements have a key. An element is put in the place of the first
element of its key, found by a search from the front, or behind all others.
-/

namespace Keyed

variable {α κ : Type*} [DecidableEq κ] (key : α → κ)

/-- The position of the first element of a key; the length if there is none. -/
def slot (k : κ) (l : List α) : ℕ := l.findIdx fun a => key a = k

/-- The first element of a key. -/
def lookup (k : κ) (l : List α) : Option α := l.find? fun a => key a = k

/-- `a` in the place of the element of its key, or behind all others. -/
def upsert (a : α) : List α → List α
  | [] => [a]
  | b :: l => if key b = key a then a :: l else b :: upsert a l

variable {key} {a b : α} {k : κ} {l : List α}

/-! ### Positions -/

theorem lookup_cons : lookup key k (b :: l) = if key b = k then some b else lookup key k l := by
  by_cases hk : key b = k <;> simp [lookup, hk]

theorem slot_cons : slot key k (b :: l) = if key b = k then 0 else slot key k l + 1 := by
  simp [slot, List.findIdx_cons, Bool.cond_decide]

/-- The only element of its key is found. -/
theorem lookup_of_mem (hnodup : (l.map key).Nodup) (h : a ∈ l) : lookup key (key a) l = some a := by
  induction l with
  | nil => cases h
  | cons b l ih =>
      rw [List.map_cons, List.nodup_cons] at hnodup
      rw [lookup_cons]
      rcases List.mem_cons.mp h with rfl | h
      · exact if_pos rfl
      · have hne : key b ≠ key a := fun hkey => hnodup.1 (hkey ▸ List.mem_map_of_mem h)
        rw [if_neg hne]
        exact ih hnodup.2 h

theorem slot_le : slot key k l ≤ l.length := List.findIdx_le_length

theorem slot_lt_iff : slot key k l < l.length ↔ k ∈ l.map key := by
  simp [slot, List.findIdx_lt_length]

theorem upsert_of_lt (h : slot key (key a) l < l.length) :
    upsert key a l = l.set (slot key (key a) l) a := by
  induction l with
  | nil => simp at h
  | cons b l ih =>
      rw [upsert, slot_cons]
      by_cases hb : key b = key a
      · rw [if_pos hb, if_pos hb, List.set_cons_zero]
      · rw [slot_cons, if_neg hb, List.length_cons] at h
        rw [if_neg hb, if_neg hb, List.set_cons_succ, ih (by omega)]

theorem upsert_of_eq (h : slot key (key a) l = l.length) : upsert key a l = l ++ [a] := by
  induction l with
  | nil => rfl
  | cons b l ih =>
      by_cases hb : key b = key a
      · rw [slot_cons, if_pos hb, List.length_cons] at h
        omega
      · rw [slot_cons, if_neg hb, List.length_cons] at h
        rw [upsert, if_neg hb, ih (by omega), List.cons_append]

theorem length_upsert :
    (upsert key a l).length = if slot key (key a) l = l.length then l.length + 1 else l.length := by
  split
  · next h => rw [upsert_of_eq h, List.length_append, List.length_singleton]
  · next h => rw [upsert_of_lt (Nat.lt_of_le_of_ne slot_le h), List.length_set]

/-- The element is found again where it was put. -/
theorem slot_upsert : slot key (key a) (upsert key a l) = slot key (key a) l := by
  induction l with
  | nil => rw [upsert, slot_cons, if_pos rfl, slot, List.findIdx_nil]
  | cons b l ih =>
      rw [upsert, slot_cons]
      by_cases hb : key b = key a
      · rw [if_pos hb, if_pos hb, slot_cons, if_pos rfl]
      · rw [if_neg hb, if_neg hb, slot_cons, if_neg hb, ih]

theorem mem_upsert : a ∈ upsert key a l := by
  induction l with
  | nil => exact List.mem_singleton_self a
  | cons b l ih =>
      rw [upsert]
      split
      · exact List.mem_cons_self
      · exact List.mem_cons_of_mem _ ih

theorem getElem?_slot : l[slot key k l]? = lookup key k l := by
  induction l with
  | nil => rfl
  | cons b l ih =>
      rw [slot_cons, lookup_cons]
      by_cases hb : key b = k
      · rw [if_pos hb, if_pos hb, List.getElem?_cons_zero]
      · rw [if_neg hb, if_neg hb, List.getElem?_cons_succ, ih]

/-! ### Keys -/

theorem map_key_upsert :
    (upsert key a l).map key = if key a ∈ l.map key then l.map key else l.map key ++ [key a] := by
  induction l with
  | nil => simp [upsert]
  | cons b l ih =>
      rw [upsert]
      by_cases hb : key b = key a
      · simp [hb]
      · have hba : key a ≠ key b := fun h => hb h.symm
        rw [if_neg hb, List.map_cons, ih, List.map_cons]
        by_cases hmem : key a ∈ l.map key
        · rw [if_pos hmem, if_pos (List.mem_cons_of_mem _ hmem)]
        · rw [if_neg hmem, if_neg (by simpa [hba] using hmem), List.cons_append]

theorem nodup_upsert (h : (l.map key).Nodup) : ((upsert key a l).map key).Nodup := by
  rw [map_key_upsert]
  split
  · exact h
  · next hmem => exact List.nodup_append.mpr ⟨h, List.nodup_singleton _, by
      rintro x hx y hy rfl
      rw [List.mem_singleton] at hy
      exact hmem (hy ▸ hx)⟩

theorem mem_of_mem_upsert (h : b ∈ upsert key a l) : b = a ∨ b ∈ l := by
  induction l with
  | nil => exact .inl (List.mem_singleton.mp h)
  | cons c l ih =>
      rw [upsert] at h
      split at h
      · rcases List.mem_cons.mp h with h | h
        · exact .inl h
        · exact .inr (List.mem_cons_of_mem _ h)
      · rcases List.mem_cons.mp h with h | h
        · exact .inr (List.mem_cons.mpr (.inl h))
        · exact (ih h).imp_right (List.mem_cons_of_mem _)

theorem lookup_upsert :
    lookup key k (upsert key a l) = if key a = k then some a else lookup key k l := by
  induction l with
  | nil => rw [upsert, lookup_cons]
  | cons b l ih =>
      rw [upsert]
      by_cases hb : key b = key a
      · rw [if_pos hb, lookup_cons, lookup_cons, hb]
        by_cases hk : key a = k
        · rw [if_pos hk, if_pos hk]
        · rw [if_neg hk, if_neg hk, if_neg hk]
      · rw [if_neg hb, lookup_cons, lookup_cons, ih]
        by_cases hk : key b = k
        · have hne : key a ≠ k := fun h => hb (hk.trans h.symm)
          rw [if_pos hk, if_neg hne, if_pos hk]
        · rw [if_neg hk, if_neg hk]

end Keyed
