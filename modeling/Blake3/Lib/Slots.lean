import Mathlib.Data.List.Basic
import Mathlib.Data.List.Nodup
import Mathlib.Data.List.Perm.Basic

/-!
Two writers of one array. Each writer is a sequence of stores, and a run is
any interleaving of the two sequences. When no slot is stored to twice the
array at the end does not depend on the interleaving.
-/

namespace Slots

variable {α β : Type*}

/-! ### Interleavings -/

/-- `Shuffle l r s`: `s` is an interleaving of `l` and `r`. -/
inductive Shuffle : List α → List α → List α → Prop
  | nil : Shuffle [] [] []
  | left {a : α} {l r s : List α} (rest : Shuffle l r s) : Shuffle (a :: l) r (a :: s)
  | right {a : α} {l r s : List α} (rest : Shuffle l r s) : Shuffle l (a :: r) (a :: s)

theorem Shuffle.append (l r : List α) : Shuffle l r (l ++ r) := by
  induction l with
  | nil =>
      induction r with
      | nil => exact .nil
      | cons a r ih => exact .right ih
  | cons a l ih => exact .left ih

theorem Shuffle.perm {l r s : List α} (h : Shuffle l r s) : s.Perm (l ++ r) := by
  induction h with
  | nil => exact .nil
  | left _ ih => exact ih.cons _
  | right _ ih => exact (ih.cons _).trans List.perm_middle.symm

/-! ### Stores -/

/-- The stores of consecutive values, from slot `off` on. -/
def stores (off : ℕ) (vs : List β) : List (ℕ × β) := (List.range' off vs.length).zip vs

/-- Make the stores, one after the other. -/
def put (arr : List (Option β)) (st : List (ℕ × β)) : List (Option β) :=
  st.foldl (fun arr s => arr.set s.1 (some s.2)) arr

/-- The values of the first `k` slots, if all of them have been stored to. -/
def read (arr : List (Option β)) (k : ℕ) : Option (List β) :=
  if k ≤ arr.length then (arr.take k).mapM id else none

theorem map_fst_stores (off : ℕ) (vs : List β) :
    (stores off vs).map Prod.fst = List.range' off vs.length := by
  rw [stores, List.map_fst_zip (by simp)]

theorem mem_stores {off : ℕ} {vs : List β} {s : ℕ × β} (h : s ∈ stores off vs) :
    off ≤ s.1 ∧ s.1 < off + vs.length := by
  have hmem : s.1 ∈ (stores off vs).map Prod.fst := List.mem_map_of_mem h
  rw [map_fst_stores, List.mem_range'_1] at hmem
  exact hmem

/-- Stores to different slots may be made in any order. -/
theorem put_perm {st st' : List (ℕ × β)} (h : st.Perm st') (hnodup : (st.map Prod.fst).Nodup)
    (arr : List (Option β)) : put arr st = put arr st' := by
  refine h.foldl_eq' ?_ arr
  intro x hx y hy z
  by_cases hxy : x.1 = y.1
  · rw [List.inj_on_of_nodup_map hnodup hx hy hxy]
  · exact List.set_comm _ _ hxy

theorem put_stores (vs : List β) (off : ℕ) (arr : List (Option β))
    (h : off + vs.length ≤ arr.length) :
    put arr (stores off vs) = arr.take off ++ vs.map some ++ arr.drop (off + vs.length) := by
  induction vs generalizing off arr with
  | nil => simp [put, stores]
  | cons v vs ih =>
      rw [List.length_cons] at h
      have hstep : put arr (stores off (v :: vs)) =
          put (arr.set off (some v)) (stores (off + 1) vs) := by
        simp [put, stores, List.range'_succ]
      have htake : (arr.set off (some v)).take (off + 1) = arr.take off ++ [some v] := by
        rw [List.take_add_one, List.take_set_of_le (Nat.le_refl off),
          List.getElem?_set_self (by omega), Option.toList_some]
      have hdrop : (arr.set off (some v)).drop (off + 1 + vs.length) =
          arr.drop (off + (vs.length + 1)) := by
        rw [List.drop_set_of_lt (by omega)]
        congr 1
        omega
      rw [hstep, ih _ _ (by rw [List.length_set]; omega), htake, hdrop, List.map_cons,
        List.length_cons]
      simp

theorem put_append (arr : List (Option β)) (st st' : List (ℕ × β)) :
    put arr (st ++ st') = put (put arr st) st' := List.foldl_append

/-- No slot is stored to twice. -/
theorem nodup_stores (left right : List β) {off : ℕ} (h : left.length ≤ off) :
    ((stores 0 left ++ stores off right).map Prod.fst).Nodup := by
  rw [List.map_append, map_fst_stores, map_fst_stores]
  refine List.nodup_append.mpr ⟨List.nodup_range', List.nodup_range', fun i hl j hr => ?_⟩
  rw [List.mem_range'_1] at hl hr
  omega

/-- Whichever way the stores of two halves are interleaved, the array is the
one of the left half going first. -/
theorem put_shuffle {left right : List β} {off : ℕ} (h : left.length ≤ off) {s : List (ℕ × β)}
    (hs : Shuffle (stores 0 left) (stores off right) s) (arr : List (Option β)) :
    put arr s = put arr (stores 0 left ++ stores off right) :=
  put_perm hs.perm ((hs.perm.map Prod.fst).nodup_iff.mpr (nodup_stores left right h)) arr

/-- Two halves that fill the front of the array. -/
theorem read_put_shuffle {n : ℕ} {left right : List β} {s : List (ℕ × β)}
    (hs : Shuffle (stores 0 left) (stores left.length right) s)
    (hn : left.length + right.length ≤ n) :
    read (put (List.replicate n none) s) (left.length + right.length) = some (left ++ right) := by
  have hleft := put_stores left 0 (List.replicate n none) (by simp; omega)
  have hright := put_stores right left.length (put (List.replicate n none) (stores 0 left))
    (by rw [hleft]; simp; omega)
  have hput : put (List.replicate n none) s =
      (left ++ right).map some ++ List.replicate (n - (left.length + right.length)) none := by
    rw [put_shuffle (Nat.le_refl _) hs, put_append, hright, hleft]
    simp [List.drop_append, Nat.sub_sub]
  have hread : (left ++ right).mapM (fun v => (pure v : Option β)) = some (left ++ right) := by
    rw [List.mapM_pure, List.map_id']
    rfl
  rw [hput, read, if_pos (by simp), List.take_left' (by simp), List.mapM_map]
  exact hread

end Slots
