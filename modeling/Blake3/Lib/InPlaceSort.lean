import Mathlib.Data.List.Induction

/-!
Insertion sort of the first places of an array. An element sinks to its place
below the elements that are greater than it, which move up by one.
-/

namespace InPlaceSort

variable {α : Type*} (gt : α → α → Bool)

/-- `key` sinks from place `j`. -/
def sink (key : α) : ℕ → List α → List α
  | 0, l => l.set 0 key
  | j + 1, l =>
      match l[j]? with
      | some a => if gt a key then sink key j (l.set (j + 1) a) else l.set (j + 1) key
      | none => l

/-- The element at place `i` sinks. -/
def sinkAt (l : List α) (i : ℕ) : List α :=
  match l[i]? with
  | some key => sink gt key i l
  | none => l

/-- The first `n` places are sorted. -/
def sort (l : List α) (n : ℕ) : List α := (List.range' 1 (n - 1)).foldl (sinkAt gt) l

variable {gt}

/-- Neither of two elements in order is greater than a later one. -/
def InOrder (gt : α → α → Bool) (a b : α) : Prop := gt a b = false

theorem length_sink (key : α) (j : ℕ) (l : List α) : (sink gt key j l).length = l.length := by
  induction j generalizing l with
  | zero => rw [sink, List.length_set]
  | succ j ih =>
      rw [sink]
      split
      · split
        · rw [ih, List.length_set]
        · rw [List.length_set]
      · rfl

theorem length_sinkAt (l : List α) (i : ℕ) : (sinkAt gt l i).length = l.length := by
  rw [sinkAt]
  split
  · exact length_sink _ _ _
  · rfl

theorem length_sort (l : List α) (n : ℕ) : (sort gt l n).length = l.length := by
  rw [sort]
  generalize List.range' 1 (n - 1) = is
  induction is generalizing l with
  | nil => rfl
  | cons i is ih => rw [List.foldl_cons, ih, length_sinkAt]

variable (hasymm : ∀ a b, gt a b = true → gt b a = false)
  (htrans : ∀ a b c, InOrder gt a b → InOrder gt b c → InOrder gt a c)

include hasymm htrans

/-- An element that sinks through sorted places is in order with them. -/
theorem exists_sink (key : α) (xs : List α) (y : α) (rest : List α)
    (hxs : xs.Pairwise (InOrder gt)) :
    ∃ ys, sink gt key xs.length (xs ++ y :: rest) = ys ++ rest ∧ ys.Perm (key :: xs) ∧
      ys.Pairwise (InOrder gt) := by
  induction xs using List.reverseRecOn generalizing y rest with
  | nil => exact ⟨[key], rfl, .refl _, List.pairwise_singleton _ _⟩
  | append_singleton xs x ih =>
      obtain ⟨hfront, -, hx⟩ := List.pairwise_append.mp hxs
      have hx' : ∀ a ∈ xs, InOrder gt a x := fun a ha => hx a ha x (List.mem_singleton_self x)
      have hget : (xs ++ [x] ++ y :: rest)[xs.length]? = some x := by simp
      have hset : ∀ z, (xs ++ [x] ++ y :: rest).set (xs.length + 1) z = xs ++ x :: z :: rest := by
        intro z
        rw [List.set_append_right _ _ (by simp)]
        simp
      rw [List.length_append, List.length_singleton, sink, hget]
      dsimp only
      rw [hset, hset]
      by_cases hgt : gt x key = true
      · obtain ⟨ys, hys, hperm, hsorted⟩ := ih x (x :: rest) hfront
        refine ⟨ys ++ [x], ?_, ?_, ?_⟩
        · rw [if_pos hgt, hys, List.append_assoc, List.singleton_append]
        · exact hperm.append_right [x]
        · refine List.pairwise_append.mpr ⟨hsorted, List.pairwise_singleton _ _, ?_⟩
          intro a ha b hb
          obtain rfl := List.mem_singleton.mp hb
          rcases List.mem_cons.mp (hperm.mem_iff.mp ha) with rfl | ha
          · exact hasymm _ _ hgt
          · exact hx' a ha
      · have hle : InOrder gt x key := Bool.eq_false_iff.mpr hgt
        refine ⟨xs ++ [x, key], ?_, ?_, ?_⟩
        · rw [if_neg hgt, List.append_assoc]
          rfl
        · have hmiddle : (xs ++ [x] ++ [key]).Perm (key :: (xs ++ [x])) :=
            List.perm_append_singleton _ _
          rwa [List.append_assoc] at hmiddle
        · refine List.pairwise_append.mpr ⟨hfront, ?_, ?_⟩
          · exact List.pairwise_pair.mpr hle
          · intro a ha b hb
            rcases List.mem_cons.mp hb with rfl | hb
            · exact hx' a ha
            · obtain rfl := List.mem_singleton.mp hb
              exact htrans _ _ _ (hx' a ha) hle

/-- The first places are a sorted permutation of what they were, and the others
are as they were. -/
theorem exists_sort {l : List α} {n : ℕ} (h : n ≤ l.length) :
    ∃ ys, sort gt l n = ys ++ l.drop n ∧ ys.Perm (l.take n) ∧ ys.Pairwise (InOrder gt) := by
  induction n with
  | zero => exact ⟨[], rfl, .refl _, .nil⟩
  | succ n ih =>
      obtain ⟨ys, hys, hperm, hsorted⟩ := ih (by omega)
      have hlength : ys.length = n := by rw [hperm.length_eq, List.length_take]; omega
      obtain ⟨key, hkey⟩ : ∃ key, l[n] = key := ⟨_, rfl⟩
      have hdrop : l.drop n = key :: l.drop (n + 1) := hkey ▸ List.drop_eq_getElem_cons h
      have htake : l.take (n + 1) = l.take n ++ [key] := hkey ▸ List.take_succ_eq_append_getElem h
      have hstep : sort gt l (n + 1) = sinkAt gt (sort gt l n) n ∨ n = 0 := by
        cases n with
        | zero => exact .inr rfl
        | succ n =>
            left
            rw [sort, sort, Nat.add_sub_cancel, Nat.add_sub_cancel, List.range'_concat,
              List.foldl_append, Nat.one_mul, Nat.add_comm 1 n]
            rfl
      rcases hstep with hstep | rfl
      · obtain ⟨zs, hzs, hperm', hsorted'⟩ := exists_sink hasymm htrans key ys key (l.drop (n + 1))
          hsorted
        have hget : (ys ++ key :: l.drop (n + 1))[n]? = some key := by
          rw [List.getElem?_append_right (by omega), hlength, Nat.sub_self, List.getElem?_cons_zero]
        rw [hlength] at hzs
        refine ⟨zs, ?_, ?_, hsorted'⟩
        · rw [hstep, hys, hdrop, sinkAt, hget]
          exact hzs
        · rw [htake]
          exact hperm'.trans ((hperm.cons _).trans (List.perm_append_singleton _ _).symm)
      · refine ⟨[key], ?_, ?_, List.pairwise_singleton _ _⟩
        · exact hdrop
        · rw [htake]
          exact .refl _

end InPlaceSort
