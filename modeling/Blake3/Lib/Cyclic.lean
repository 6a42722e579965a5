import Mathlib.Data.Int.ModEq
import Mathlib.RingTheory.Coprime.Lemmas

/-!
Going round a cycle in steps of one length.
-/

namespace Cyclic

/-- From any place, steps of length `d` come to every place of a cycle of `n`. -/
def Visits (n d : ℤ) : Prop := ∀ i r : ℤ, 0 ≤ r → r < n → ∃ k : ℕ, (i + k * d) % n = r

/-- A step comes everywhere if it has no divisor in common with the length of the cycle. -/
theorem visits_iff {n d : ℤ} (hn : 0 < n) : Visits n d ↔ Int.gcd d n = 1 := by
  rw [← Int.isCoprime_iff_gcd_eq_one]
  constructor
  · intro h
    obtain ⟨k, hk⟩ := h 0 (1 % n) (Int.emod_nonneg 1 hn.ne') (Int.emod_lt_of_pos 1 hn)
    rw [Int.zero_add] at hk
    obtain ⟨m, hm⟩ := Int.ModEq.dvd hk
    exact ⟨k, m, by rw [Int.mul_comm m n, ← hm]; ring⟩
  · rintro ⟨u, v, huv⟩ i r hr hlt
    -- as many steps as the inverse of `d` says, turned into a natural number
    refine ⟨(u * (r - i) % n).toNat, ?_⟩
    rw [Int.toNat_of_nonneg (Int.emod_nonneg _ hn.ne')]
    have hsteps : u * (r - i) % n * d ≡ r - i [ZMOD n] :=
      calc u * (r - i) % n * d ≡ u * (r - i) * d [ZMOD n] := (Int.mod_modEq _ _).mul_right d
        _ = (r - i) * (u * d) := by ring
        _ ≡ (r - i) * 1 [ZMOD n] := by
          refine Int.ModEq.mul_left _ (Int.modEq_of_dvd ⟨v, ?_⟩)
          rw [← huv]
          ring
        _ = r - i := mul_one _
    have hplace : i + u * (r - i) % n * d ≡ r [ZMOD n] := by
      have hsum := hsteps.add_left i
      rwa [add_sub_cancel] at hsum
    rw [hplace.eq, Int.emod_eq_of_lt hr hlt]

end Cyclic
