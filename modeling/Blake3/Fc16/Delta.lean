import Blake3.Fc16.Core
import Mathlib.Data.List.TakeWhile

/-!
The sparse difference of two arrays of words, `rmr_fc16_delta64_build` and
`rmr_fc16_delta64_apply` of `rmr_fc16_core.c`. The array that a difference is applied
to is changed word by word, up to the first index that is out of range.
-/

namespace Blake3.Fc16

/-- `rmr_fc16_delta64` -/
structure Delta64 where
  wordIndex : UInt64
  xorMask : UInt64
  deriving DecidableEq, Repr

/-- A pointer, which may be null, to `len` deltas. -/
structure Deltas where
  data : Option (List Delta64)
  len : ℕ
  len_eq : ∀ ds ∈ data, ds.length = len

def Deltas.of (ds : List Delta64) : Deltas where
  data := some ds
  len := ds.length
  len_eq := fun _ h => congrArg _ (Option.some.inj h).symm

variable {n : UInt64}

/-- The words of an array, whose length is a `size_t`. -/
abbrev WordArray (n : UInt64) := Vector UInt64 n.toNat

/-- The loop of `rmr_fc16_delta64_build` over the words and their indices, with what has
been written to `out`. -/
def buildLoop (cap : ℕ) : List ((UInt64 × UInt64) × ℕ) → List Delta64 → Status × List Delta64
  | [], out => (.ok, out)
  | ((before, after), i) :: words, out =>
      let m := before ^^^ after
      if m ≠ 0 then
        if cap ≤ out.length then (.errCapacity, out)
        else buildLoop cap words (out ++ [{ wordIndex := UInt64.ofNat i, xorMask := m }])
      else buildLoop cap words out

/-- `rmr_fc16_delta64_build`, none of its pointers being null; what is written to `out`
is counted in `out_n` if the status is `ok`. -/
def delta64Build (before after : WordArray n) (cap : ℕ) : Status × List Delta64 :=
  buildLoop cap ((before.toList.zip after.toList).zipIdx) []

/-- `target[i] ^= mask` -/
def xorWord (target : WordArray n) (i : Fin n.toNat) (mask : UInt64) : WordArray n :=
  target.setIfInBounds i.val (target.get i ^^^ mask)

def applyLoop (target : WordArray n) : List Delta64 → Status × WordArray n
  | [] => (.ok, target)
  | d :: ds =>
      if h : d.wordIndex < n then
        applyLoop (xorWord target ⟨d.wordIndex.toNat, UInt64.lt_iff_toNat_lt.mp h⟩ d.xorMask) ds
      else (.errSize, target)

/-- `rmr_fc16_delta64_apply`, its target not being null. -/
def delta64Apply (target : WordArray n) (d : Deltas) : Status × WordArray n :=
  match d.data with
  | none => if d.len ≠ 0 then (.errArgument, target) else (.ok, target)
  | some ds => applyLoop target ds

/-! ### What is applied -/

theorem get_xorWord (target : WordArray n) (i j : Fin n.toNat) (mask : UInt64) :
    (xorWord target i mask).get j =
      if i = j then target.get j ^^^ mask else target.get j := by
  have hset : (target.setIfInBounds i.val (target.get i ^^^ mask))[j.val] =
      if i.val = j.val then target.get i ^^^ mask else target[j.val] :=
        Vector.getElem_setIfInBounds ..
  by_cases h : i = j
  · subst h
    rw [if_pos rfl] at hset ⊢
    exact hset
  · rw [if_neg (Fin.val_ne_of_ne h)] at hset
    rw [if_neg h]
    exact hset

/-- What deltas add to word `j`, all their masks together. -/
def maskAt (j : ℕ) : List Delta64 → UInt64
  | [] => 0
  | d :: ds => (if d.wordIndex.toNat = j then d.xorMask else 0) ^^^ maskAt j ds

/-- The deltas before the first whose index is out of range. -/
def inRange (n : UInt64) (ds : List Delta64) : List Delta64 := ds.takeWhile (·.wordIndex < n)

theorem inRange_eq_self {ds : List Delta64} (h : ∀ d ∈ ds, d.wordIndex < n) : inRange n ds = ds :=
  List.takeWhile_eq_self_iff.mpr fun d hd => decide_eq_true (h d hd)

theorem get_applyLoop (target : WordArray n) (ds : List Delta64) (j : Fin n.toNat) :
    (applyLoop target ds).2.get j = target.get j ^^^ maskAt j.val (inRange n ds) := by
  induction ds generalizing target with
  | nil => exact UInt64.xor_zero.symm
  | cons d ds ih =>
      rw [applyLoop, inRange]
      by_cases h : d.wordIndex < n
      · have hindex : (⟨d.wordIndex.toNat, UInt64.lt_iff_toNat_lt.mp h⟩ : Fin n.toNat) = j ↔
            d.wordIndex.toNat = j.val := Fin.ext_iff
        rw [dif_pos h, ih, get_xorWord, List.takeWhile_cons,
          if_pos (decide_eq_true h), maskAt]
        simp only [hindex]
        split
        · rw [UInt64.xor_assoc]
          rfl
        · rw [UInt64.zero_xor]
          rfl
      · rw [dif_neg h, List.takeWhile_cons_of_neg (by simpa using h)]
        exact UInt64.xor_zero.symm

theorem applyLoop_status (target : WordArray n) (ds : List Delta64) :
    (applyLoop target ds).1 = .ok ↔ ∀ d ∈ ds, d.wordIndex < n := by
  induction ds generalizing target with
  | nil => exact iff_of_true rfl (by simp)
  | cons d ds ih =>
      rw [applyLoop]
      by_cases h : d.wordIndex < n
      · rw [dif_pos h, ih, List.forall_mem_cons]
        exact (and_iff_right h).symm
      · rw [dif_neg h]
        exact iff_of_false (by simp) fun hall => h (hall d List.mem_cons_self)

theorem ext_get {target target' : WordArray n} (h : ∀ j, target'.get j = target.get j) :
    target' = target := by
  apply Vector.ext
  intro j hj
  exact h ⟨j, hj⟩

/-- The target is what it was when the masks that reached a word cancel. -/
theorem applyLoop_unchanged (target : WordArray n) (ds : List Delta64) :
    (applyLoop target ds).2 = target ↔ ∀ j < n.toNat, maskAt j (inRange n ds) = 0 := by
  constructor
  · intro h j hj
    have hget := get_applyLoop target ds ⟨j, hj⟩
    rw [h] at hget
    generalize target.get ⟨j, hj⟩ = w at hget
    have hzero : w ^^^ w = w ^^^ (w ^^^ maskAt j (inRange n ds)) := congrArg (w ^^^ ·) hget
    rw [← UInt64.xor_assoc, UInt64.xor_self, UInt64.zero_xor] at hzero
    exact hzero.symm
  · intro h
    apply ext_get
    intro j
    rw [get_applyLoop, h j.val j.isLt, UInt64.xor_zero]

/-! ### What is built -/

/-- The deltas of words and their indices. -/
def deltasOf (words : List ((UInt64 × UInt64) × ℕ)) : List Delta64 :=
  words.filterMap fun ((before, after), i) =>
    if before ^^^ after ≠ 0 then some { wordIndex := UInt64.ofNat i, xorMask := before ^^^ after }
    else none

/-- The number of words in which two arrays differ. -/
def differingWords (before after : WordArray n) : ℕ :=
  (before.toList.zip after.toList).countP fun w => w.1 ≠ w.2

theorem buildLoop_eq {cap : ℕ} {words : List ((UInt64 × UInt64) × ℕ)} {out : List Delta64}
    (h : out.length + words.countP (fun w => w.1.1 ≠ w.1.2) ≤ cap) :
    buildLoop cap words out = (.ok, out ++ deltasOf words) := by
  induction words generalizing out with
  | nil => rw [buildLoop, deltasOf, List.filterMap_nil, List.append_nil]
  | cons w words ih =>
      obtain ⟨⟨before, after⟩, i⟩ := w
      rw [List.countP_cons] at h
      rw [buildLoop, deltasOf, List.filterMap_cons]
      by_cases hm : before ^^^ after ≠ 0
      · have hne : before ≠ after := by rwa [ne_eq, UInt64.xor_eq_zero_iff] at hm
        rw [if_pos (decide_eq_true hne)] at h
        simp only [if_pos hm]
        rw [if_neg (by omega), ih (by rw [List.length_append, List.length_singleton]; omega),
          List.append_assoc]
        rfl
      · simp only [if_neg hm]
        exact ih (by omega)

/-- A delta of a word carries what the word is to be added to; the other deltas are for
other words. -/
theorem maskAt_deltasOf (words : List (UInt64 × UInt64)) {k j : ℕ} (h : k + words.length < 2 ^ 64) :
    maskAt j (deltasOf (words.zipIdx k)) =
      if k ≤ j then ((words[j - k]?).map fun w => w.1 ^^^ w.2).getD 0 else 0 := by
  induction words generalizing k with
  | nil => simp [deltasOf, maskAt]
  | cons w words ih =>
      rw [List.length_cons] at h
      have hrest := ih (k := k + 1) (by omega)
      have hfirst : maskAt j (deltasOf ((w :: words).zipIdx k)) =
          (if k = j then w.1 ^^^ w.2 else 0) ^^^ maskAt j (deltasOf (words.zipIdx (k + 1))) := by
        rw [List.zipIdx_cons, deltasOf, List.filterMap_cons]
        by_cases hm : w.1 ^^^ w.2 = 0
        · simp only [hm, ne_eq, not_true_eq_false, if_false, ite_self, UInt64.zero_xor]
          rfl
        · simp only [ne_eq, hm, not_false_eq_true, if_true, maskAt]
          rw [UInt64.toNat_ofNat', Nat.mod_eq_of_lt (by omega)]
          rfl
      rw [hfirst, hrest]
      rcases Nat.lt_trichotomy k j with hlt | rfl | hgt
      · obtain ⟨i, rfl⟩ := Nat.exists_eq_add_of_lt hlt
        rw [if_neg (by omega), if_pos (by omega), if_pos (by omega), UInt64.zero_xor,
          show k + i + 1 - k = i + 1 by omega, show k + i + 1 - (k + 1) = i by omega]
        rfl
      · rw [if_pos rfl, if_neg (by omega), if_pos le_rfl, Nat.sub_self, UInt64.xor_zero]
        rfl
      · rw [if_neg (by omega), if_neg (by omega), if_neg (by omega), UInt64.xor_zero]

theorem deltasOf_inRange (before after : WordArray n) :
    ∀ d ∈ deltasOf ((before.toList.zip after.toList).zipIdx), d.wordIndex < n := by
  intro d hd
  obtain ⟨⟨⟨b, a⟩, i⟩, hmem, heq⟩ := List.mem_filterMap.mp hd
  dsimp only at heq
  split_ifs at heq
  have hlt : i < n.toNat := by
    have hi := (List.mem_zipIdx hmem).2.1
    rw [List.length_zip, Vector.length_toList, Vector.length_toList] at hi
    omega
  have hn := n.toNat_lt
  rw [← Option.some.inj heq, UInt64.lt_iff_toNat_lt, UInt64.toNat_ofNat',
    Nat.mod_eq_of_lt (by omega)]
  exact hlt

/-- The deltas of two arrays have between them what the arrays differ in. -/
theorem maskAt_build (before after : WordArray n) (j : Fin n.toNat) :
    maskAt j.val (inRange n (deltasOf ((before.toList.zip after.toList).zipIdx))) =
      before.get j ^^^ after.get j := by
  have hn := n.toNat_lt
  have hj : (before.toList.zip after.toList)[j.val]? = some (before.get j, after.get j) := by
    rw [List.getElem?_zip_eq_some]
    exact ⟨Vector.getElem?_toList.trans (Vector.getElem?_eq_getElem j.isLt),
      Vector.getElem?_toList.trans (Vector.getElem?_eq_getElem j.isLt)⟩
  rw [inRange_eq_self (deltasOf_inRange before after), maskAt_deltasOf _ (by simp; omega),
    if_pos (Nat.zero_le _), Nat.sub_zero, hj]
  rfl

theorem delta64Build_eq {before after : WordArray n} {cap : ℕ}
    (h : differingWords before after ≤ cap) :
    delta64Build before after cap =
      (.ok, deltasOf ((before.toList.zip after.toList).zipIdx)) := by
  have hcount : ∀ (words : List (UInt64 × UInt64)) (k : ℕ),
      (words.zipIdx k).countP (fun w => w.1.1 ≠ w.1.2) = words.countP fun w => w.1 ≠ w.2 := by
    intro words k
    conv_rhs => rw [← List.zipIdx_map_fst k words, List.countP_map]
    rfl
  have hcap : ([] : List Delta64).length +
      ((before.toList.zip after.toList).zipIdx).countP (fun w => w.1.1 ≠ w.1.2) ≤ cap := by
    rw [hcount, List.length_nil, Nat.zero_add]
    exact h
  rw [delta64Build, buildLoop_eq hcap, List.nil_append]

theorem applyLoop_build (before after : WordArray n) :
    applyLoop before (deltasOf ((before.toList.zip after.toList).zipIdx)) = (.ok, after) ∧
      applyLoop after (deltasOf ((before.toList.zip after.toList).zipIdx)) = (.ok, before) := by
  have hok := fun target => (applyLoop_status target _).mpr (deltasOf_inRange before after)
  constructor
  · refine Prod.ext (hok before) (ext_get fun j => ?_)
    rw [get_applyLoop, maskAt_build, ← UInt64.xor_assoc, UInt64.xor_self, UInt64.zero_xor]
  · refine Prod.ext (hok after) (ext_get fun j => ?_)
    rw [get_applyLoop, maskAt_build, UInt64.xor_comm (before.get j), ← UInt64.xor_assoc,
      UInt64.xor_self, UInt64.zero_xor]

/-! ### Round trip and failure -/

/-- Deltas that a failing call leaves no trace of: all indices are in range, or the masks
before the first that is not cancel word by word. -/
def LeavesNoTrace (n : UInt64) (d : Deltas) : Prop :=
  ∀ ds ∈ d.data, (∀ x ∈ ds, x.wordIndex < n) ∨ ∀ j < n.toNat, maskAt j (inRange n ds) = 0

/-- The difference of two arrays takes one to the other and back. A call that fails leaves
its target as it was exactly if its deltas leave no trace. -/
theorem delta64_spec (n : UInt64) :
    (∀ (before after : WordArray n) (cap : ℕ), differingWords before after ≤ cap →
      ∃ ds, delta64Build before after cap = (.ok, ds) ∧
        delta64Apply before (.of ds) = (.ok, after) ∧ delta64Apply after (.of ds) = (.ok, before)) ∧
    ∀ (target : WordArray n) (d : Deltas),
      ((delta64Apply target d).1 ≠ .ok → (delta64Apply target d).2 = target) ↔
        LeavesNoTrace n d := by
  refine ⟨fun before after cap h => ⟨_, delta64Build_eq h, applyLoop_build before after⟩,
    fun target d => ?_⟩
  rw [delta64Apply, LeavesNoTrace]
  cases hd : d.data with
  | none =>
      refine iff_of_true (fun _ => ?_) (by simp)
      dsimp only
      split <;> rfl
  | some ds =>
      dsimp only
      rw [ne_eq, applyLoop_status, applyLoop_unchanged, ← or_iff_not_imp_left]
      simp only [Option.mem_def, Option.some.injEq, forall_eq']

/-- Two words, one of which changes. -/
theorem delta64_spec_two :
    ∃ ds, delta64Build (n := 2) #v[5, 7] #v[5, 6] 1 = (.ok, ds) ∧
      delta64Apply (n := 2) #v[5, 7] (.of ds) = (.ok, #v[5, 6]) ∧
      delta64Apply (n := 2) #v[5, 6] (.of ds) = (.ok, #v[5, 7]) :=
  (delta64_spec 2).1 #v[5, 7] #v[5, 6] 1 (by decide)

/-- The second index is out of range when the first word has been changed. -/
theorem delta64Apply_partial :
    delta64Apply (n := 1) #v[0] (.of [⟨0, 1⟩, ⟨5, 0⟩]) = (.errSize, #v[1]) ∧
      (#v[1] : WordArray 1) ≠ #v[0] := by
  decide

end Blake3.Fc16
