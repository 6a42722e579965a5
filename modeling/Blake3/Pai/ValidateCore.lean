import Blake3.Lib.CInt
import Blake3.Lib.Cyclic

/-!
The integer gate of `pai validate`: `validate_core.c`. The loop of Euclid runs on signed
integers, and its remainders have the sign of the dividend.
-/

namespace Blake3.Pai

open CInt

/-- `while (b != 0)`; what it leaves in `a`. -/
def gcdLoop (a b : ℤ) : Defined ℤ :=
  if b = 0 then .ok a
  else
    match _h : CInt.mod 32 a b with
    | .error e => .error e
    | .ok r => gcdLoop b r
termination_by b.natAbs
decreasing_by
  obtain ⟨hb, rfl⟩ := mod_eq_ok _h
  exact natAbs_tmod_lt hb

/-- `gcd_i` -/
def gcdI (a b : ℤ) : Defined ℤ := do
  let a ← gcdLoop a b
  if a < 0 then CInt.neg 32 a else pure a

/-- `pai_validate_core_result` -/
structure ValidateCoreResult where
  ok : ℤ
  alphaOk : ℤ
  attractorsOk : ℤ
  gcdR : ℤ
  gcdC : ℤ
  deriving DecidableEq

/-- `pai_validate_core_check`: the status, and what `*out` is then. -/
def paiValidateCoreCheck (alphaOk attractors rows cols dr dc length : Int32)
    (out : Option ValidateCoreResult) : Defined (ℤ × Option ValidateCoreResult) :=
  match out with
  | none => .ok (1, none)
  | some _ => do
      let out : ValidateCoreResult := {
        ok := 0
        alphaOk := truth (alphaOk.toInt ≠ 0)
        attractorsOk := 0
        gcdR := 0
        gcdC := 0 }
      if rows.toInt ≤ 0 ∨ cols.toInt ≤ 0 ∨ length.toInt ≤ 1 then pure (2, some out)
      else do
        let out : ValidateCoreResult := { out with attractorsOk := truth (attractors.toInt = 42) }
        let gcdR ← gcdI dr.toInt rows.toInt
        let gcdC ← gcdI dc.toInt cols.toInt
        let out : ValidateCoreResult := { out with gcdR := gcdR, gcdC := gcdC }
        let ok :=
          truth (out.alphaOk ≠ 0 ∧ out.attractorsOk ≠ 0 ∧ out.gcdR = 1 ∧ out.gcdC = 1)
        pure (0, some { out with ok := ok })

/-! ### The loop -/

/-- Remainders get smaller but may be negative. As long as `b` is not the least number and
does not divide it by `-1`, every remainder is defined. -/
theorem gcdLoop_spec {a b : ℤ} (ha : Fits 32 a) (hb : b.natAbs < 2 ^ 31)
    (hmin : b = -1 → a ≠ -2 ^ 31) :
    ∃ g, gcdLoop a b = .ok g ∧ g.natAbs = Int.gcd a b ∧ (b ≠ 0 → g.natAbs < 2 ^ 31) := by
  induction hk : b.natAbs using Nat.strong_induction_on generalizing a b with
  | _ k ih =>
  rw [gcdLoop]
  by_cases hzero : b = 0
  · rw [if_pos hzero, hzero]
    exact ⟨a, rfl, (Int.gcd_zero_right a).symm, fun hne => absurd rfl hne⟩
  have hmod : CInt.mod 32 a b = .ok (a.tmod b) := mod_eq hzero (fits_tdiv ha hzero hmin)
  have hlt := @natAbs_tmod_lt a b hzero
  have hfits : Fits 32 b := ⟨by omega, show b < 2 ^ 31 by omega⟩
  obtain ⟨g, hrun, hgcd, hsmall⟩ := ih (a.tmod b).natAbs (by omega) hfits (by omega)
    (fun _ => by omega) rfl
  have hrec : Int.gcd b (a.tmod b) = Int.gcd a b := by
    change Nat.gcd b.natAbs (a.tmod b).natAbs = Nat.gcd a.natAbs b.natAbs
    rw [Int.natAbs_tmod, Nat.gcd_comm a.natAbs, Nat.gcd_comm b.natAbs, ← Nat.gcd_rec]
  rw [if_neg hzero, hmod]
  refine ⟨g, hrun, hgcd.trans hrec, fun _ => ?_⟩
  by_cases hlast : a.tmod b = 0
  · rw [hlast, gcdLoop, if_pos rfl] at hrun
    rw [← Except.ok.inj hrun]
    exact hb
  · exact hsmall hlast

theorem gcdI_eq {a b : ℤ} (ha : Fits 32 a) (hb : Fits 32 b) (hpos : 0 < b) :
    gcdI a b = .ok (Int.gcd a b) := by
  have hlt : b < 2 ^ 31 := hb.2
  obtain ⟨g, hrun, hgcd, hsmall⟩ := @gcdLoop_spec a b ha (by omega) (by omega)
  have hbound := hsmall (by omega)
  rw [gcdI, hrun, CInt.ok_bind, ← hgcd]
  by_cases hneg : g < 0
  · rw [if_pos hneg, neg_eq ⟨by omega, show -g < 2 ^ 31 by omega⟩]
    exact congrArg Except.ok (by omega)
  · rw [if_neg hneg]
    exact congrArg Except.ok (by omega)

theorem fits_toInt (x : Int32) : Fits 32 x.toInt := ⟨x.le_toInt, x.toInt_lt⟩

/-- The check returns, whatever the arguments, and nothing in it is undefined. Where the torus
has rows and columns and the length exceeds one, it reports the greatest common divisors, and
accepts exactly if the gate is open, the attractors are 42 and both divisors are one, that is,
if the step visits every row and every column. -/
theorem paiValidateCoreCheck_spec (alphaOk attractors rows cols dr dc length : Int32)
    (out : Option ValidateCoreResult) :
    ∃ status out', paiValidateCoreCheck alphaOk attractors rows cols dr dc length out =
        .ok (status, out') ∧
      (out ≠ none → 0 < rows.toInt → 0 < cols.toInt → 1 < length.toInt →
        ∃ r, status = 0 ∧ out' = some r ∧ r.gcdR = Nat.gcd dr.toInt.natAbs rows.toInt.natAbs ∧
          r.gcdC = Nat.gcd dc.toInt.natAbs cols.toInt.natAbs ∧ (r.ok = 0 ∨ r.ok = 1) ∧
          (r.ok = 1 ↔ alphaOk.toInt ≠ 0 ∧ attractors.toInt = 42 ∧ r.gcdR = 1 ∧ r.gcdC = 1) ∧
          (r.gcdR = 1 ↔ Cyclic.Visits rows.toInt dr.toInt) ∧
          (r.gcdC = 1 ↔ Cyclic.Visits cols.toInt dc.toInt)) := by
  cases out with
  | none => exact ⟨1, none, rfl, fun h => absurd rfl h⟩
  | some out =>
      simp only [paiValidateCoreCheck]
      by_cases hbad : rows.toInt ≤ 0 ∨ cols.toInt ≤ 0 ∨ length.toInt ≤ 1
      · rw [if_pos hbad]
        exact ⟨_, _, rfl, fun _ hrows hcols hlength => by omega⟩
      have hrows : 0 < rows.toInt := by omega
      have hcols : 0 < cols.toInt := by omega
      rw [if_neg hbad, gcdI_eq (fits_toInt dr) (fits_toInt rows) hrows, CInt.ok_bind,
        gcdI_eq (fits_toInt dc) (fits_toInt cols) hcols, CInt.ok_bind]
      refine ⟨_, _, rfl, fun _ _ _ _ =>
        ⟨_, rfl, rfl, rfl, rfl, truth_cases, truth_eq_one.trans ?_, ?_, ?_⟩⟩
      · exact and_congr truth_ne_zero (and_congr truth_ne_zero Iff.rfl)
      · rw [Cyclic.visits_iff hrows]
        exact Nat.cast_eq_one
      · rw [Cyclic.visits_iff hcols]
        exact Nat.cast_eq_one

end Blake3.Pai
