import Blake3.Lib.CInt
import Mathlib.Data.Nat.Prime.Defs
import Mathlib.Order.Bounds.Basic

/-!
The primes next to a number: `base_prime.c`.
-/

namespace Blake3.Pai

open CInt

/-- `for (int64_t d = 3; d <= x / d; d += 2)`, from any divisor on. -/
def oddDivisorLoop (x d : ℤ) : Defined Bool := do
  if d ≤ (← CInt.div 64 x d) then
    if (← CInt.mod 64 x d) = 0 then pure false
    else
      match _h : CInt.add 64 d 2 with
      | .error e => .error e
      | .ok d' => oddDivisorLoop x d'
  else pure true
termination_by (2 ^ 63 - d).toNat
decreasing_by
  obtain ⟨hd, hfits⟩ := fit_eq_ok _h
  have hlt : d' < 2 ^ 63 := hfits.2
  omega

/-- `is_prime_i64` -/
def isPrimeI64 (x : ℤ) : Defined Bool := do
  if x < 2 then pure false
  else if (← CInt.mod 64 x 2) = 0 then pure (x = 2)
  else oddDivisorLoop x 3

/-- `for (int64_t x = n - 1; x >= 2; --x)`, from any `x` on. -/
def prevLoop (x : ℤ) : Defined ℤ := do
  if hx : 2 ≤ x then
    if ← isPrimeI64 x then pure x
    else
      match _h : CInt.sub 64 x 1 with
      | .error e => .error e
      | .ok x' => prevLoop x'
  else pure (-1)
termination_by x.toNat
decreasing_by
  obtain ⟨hx', -⟩ := fit_eq_ok _h
  omega

/-- `pai_prev_prime` -/
def paiPrevPrime (n : Int64) : Defined ℤ := do
  if n.toInt ≤ 2 then pure (-1)
  else prevLoop (← CInt.sub 64 n.toInt 1)

/-- `for (;;)`, from any `x` on. -/
def nextLoop (x : ℤ) : Defined ℤ := do
  if ← isPrimeI64 x then pure x
  else if x = 2 ^ 63 - 1 then pure (-1)
  else
    match _h : CInt.add 64 x 1 with
    | .error e => .error e
    | .ok x' => nextLoop x'
termination_by (2 ^ 63 - x).toNat
decreasing_by
  obtain ⟨hx', hfits⟩ := fit_eq_ok _h
  have hlt : x' < 2 ^ 63 := hfits.2
  omega

/-- `pai_next_prime` -/
def paiNextPrime (n : Int64) : Defined ℤ := do
  if n.toInt = 2 ^ 63 - 1 then pure (-1)
  else nextLoop (← if n.toInt < 2 then pure 2 else CInt.add 64 n.toInt 1)

/-! ### Primality -/

theorem fits_of_lt {n : ℕ} (hn : n < 2 ^ 63) : Fits 64 (n : ℤ) := by
  have hint : (n : ℤ) < 2 ^ 63 := by omega
  exact ⟨by omega, hint⟩

theorem div_natCast {n d : ℕ} (hn : n < 2 ^ 63) (hd : d ≠ 0) :
    CInt.div 64 n d = .ok ((n / d : ℕ) : ℤ) := by
  rw [div_eq (by omega) (fits_tdiv_of_pos (fits_of_lt hn) (by omega))]
  rfl

theorem mod_natCast {n d : ℕ} (hn : n < 2 ^ 63) (hd : d ≠ 0) :
    CInt.mod 64 n d = .ok ((n % d : ℕ) : ℤ) := by
  rw [mod_eq (by omega) (fits_tdiv_of_pos (fits_of_lt hn) (by omega))]
  rfl

/-- The loop looks for the least divisor, which is the number itself if it is a prime. That
`d` is at most `x / d` says that its square is at most `x`, without computing the square. -/
theorem oddDivisorLoop_eq {n d : ℕ} (hn : n < 2 ^ 63) (hd : 2 ≤ d) :
    oddDivisorLoop n d = .ok (decide (Nat.minFacAux n d = n)) := by
  induction hk : n - d using Nat.strong_induction_on generalizing d with
  | _ k ih =>
  have hsquare : d ≤ n / d ↔ d * d ≤ n := Nat.le_div_iff_mul_le (by omega)
  rw [oddDivisorLoop, div_natCast hn (by omega), CInt.ok_bind, Nat.minFacAux]
  by_cases hle : d ≤ n / d
  · have hhalf : n / d ≤ n / 2 := Nat.div_le_div_left hd (by decide)
    rw [if_pos (by omega), if_neg (Nat.not_lt.mpr (hsquare.mp hle)), mod_natCast hn (by omega),
      CInt.ok_bind]
    by_cases hdvd : d ∣ n
    · have hne : d ≠ n := by omega
      rw [if_pos (by rw [Nat.mod_eq_zero_of_dvd hdvd]; rfl), if_pos hdvd, decide_eq_false hne]
      rfl
    · have hmod : n % d ≠ 0 := fun h => hdvd (Nat.dvd_of_mod_eq_zero h)
      have hadd : CInt.add 64 d 2 = .ok ((d + 2 : ℕ) : ℤ) :=
        add_eq (@fits_of_lt (d + 2) (by omega))
      rw [if_neg (by omega), if_neg hdvd, hadd]
      exact ih (n - (d + 2)) (by omega) (by omega) rfl
  · rw [if_neg (by omega), if_pos (by omega), decide_eq_true rfl]
    rfl

theorem isPrimeI64_eq {x : ℤ} (hx : x < 2 ^ 63) :
    isPrimeI64 x = .ok (decide x.toNat.Prime) := by
  rw [isPrimeI64]
  by_cases hsmall : x < 2
  · have hnot : ¬x.toNat.Prime := fun h => by have := h.two_le; omega
    rw [if_pos hsmall, decide_eq_false hnot]
    rfl
  obtain ⟨n, rfl⟩ := Int.eq_ofNat_of_zero_le (show 0 ≤ x by omega)
  rw [if_neg hsmall, show ((2 : ℤ) = (2 : ℕ)) from rfl, mod_natCast (by omega) (by decide),
    CInt.ok_bind, Int.toNat_natCast]
  have hprime : n.Prime ↔ n.minFac = n := by
    rw [Nat.prime_def_minFac]
    omega
  rw [Nat.minFac_eq] at hprime
  by_cases heven : 2 ∣ n
  · rw [if_pos heven] at hprime
    rw [if_pos (by omega)]
    exact congrArg Except.ok (decide_eq_decide.mpr (by rw [hprime]; omega))
  · rw [if_neg heven] at hprime
    rw [if_neg (by omega)]
    exact (oddDivisorLoop_eq (by omega) (by decide)).trans
      (congrArg Except.ok (decide_eq_decide.mpr hprime.symm))

/-! ### The loops -/

theorem prevLoop_step {x : ℤ} (hlow : 2 ≤ x) (hx : x < 2 ^ 63) :
    prevLoop x = if x.toNat.Prime then .ok x else prevLoop (x - 1) := by
  have hsub : CInt.sub 64 x 1 = .ok (x - 1) :=
    sub_eq ⟨by omega, show x - 1 < 2 ^ 63 by omega⟩
  rw [prevLoop, dif_pos hlow, isPrimeI64_eq hx, CInt.ok_bind]
  by_cases hprime : x.toNat.Prime
  · rw [decide_eq_true hprime, if_pos rfl, if_pos hprime]
    rfl
  · rw [decide_eq_false hprime, if_neg Bool.false_ne_true, if_neg hprime]
    rw [hsub]

theorem nextLoop_step {x : ℤ} (hlow : 2 ≤ x) (hx : x < 2 ^ 63) :
    nextLoop x = if x.toNat.Prime then .ok x
      else if x = 2 ^ 63 - 1 then .ok (-1) else nextLoop (x + 1) := by
  rw [nextLoop, isPrimeI64_eq hx, CInt.ok_bind]
  by_cases hprime : x.toNat.Prime
  · rw [decide_eq_true hprime, if_pos rfl, if_pos hprime]
    rfl
  rw [decide_eq_false hprime, if_neg Bool.false_ne_true, if_neg hprime]
  by_cases hlast : x = 2 ^ 63 - 1
  · rw [if_pos hlast, if_pos hlast]
    rfl
  · have hadd : CInt.add 64 x 1 = .ok (x + 1) :=
      add_eq ⟨by omega, show x + 1 < 2 ^ 63 by omega⟩
    rw [if_neg hlast, if_neg hlast, hadd]

/-- The primes up to a number, and those from a number on that fit. -/
def primesUpTo (x : ℤ) : Set ℕ := {q | q.Prime ∧ (q : ℤ) ≤ x}

def primesFrom (x : ℤ) : Set ℕ := {q | q.Prime ∧ x ≤ q ∧ (q : ℤ) < 2 ^ 63}

theorem ne_of_not_prime {x : ℤ} (h : ¬x.toNat.Prime) {q : ℕ} (hq : q.Prime) : (q : ℤ) ≠ x := by
  rintro rfl
  exact h (by rwa [Int.toNat_natCast])

theorem primesUpTo_pred {x : ℤ} (h : ¬x.toNat.Prime) : primesUpTo x = primesUpTo (x - 1) := by
  ext q
  refine and_congr_right fun hq => ?_
  have hne := ne_of_not_prime h hq
  omega

theorem primesFrom_succ {x : ℤ} (h : ¬x.toNat.Prime) : primesFrom x = primesFrom (x + 1) := by
  ext q
  refine and_congr_right fun hq => ?_
  have hne := ne_of_not_prime h hq
  omega

/-- What a search returns: an extreme element, or `-1` if there is no element. -/
def Found (extreme : Set ℕ → ℕ → Prop) (primes : Set ℕ) (p : ℤ) : Prop :=
  (∃ q : ℕ, p = q ∧ extreme primes q) ∨ p = -1 ∧ primes = ∅

theorem found_none {extreme : Set ℕ → ℕ → Prop} {primes : Set ℕ} (h : ∀ q, q ∉ primes) :
    Found extreme primes (-1) :=
  .inr ⟨rfl, Set.eq_empty_of_forall_notMem h⟩

theorem prevLoop_spec {x : ℤ} (hx : x < 2 ^ 63) :
    ∃ p, prevLoop x = .ok p ∧ Found IsGreatest (primesUpTo x) p := by
  induction hk : x.toNat using Nat.strong_induction_on generalizing x with
  | _ k ih =>
  by_cases hlow : 2 ≤ x
  · rw [prevLoop_step hlow hx]
    by_cases hprime : x.toNat.Prime
    · rw [if_pos hprime]
      refine ⟨x, rfl, .inl ⟨x.toNat, by omega, ⟨hprime, by omega⟩, fun q hq => ?_⟩⟩
      have hle := hq.2
      omega
    · rw [if_neg hprime, primesUpTo_pred hprime]
      exact ih (x - 1).toNat (by omega) (by omega) rfl
  · rw [prevLoop, dif_neg hlow]
    refine ⟨-1, rfl, found_none fun q hq => ?_⟩
    have htwo := hq.1.two_le
    have hle := hq.2
    omega

theorem nextLoop_spec {x : ℤ} (hlow : 2 ≤ x) (hx : x < 2 ^ 63) :
    ∃ p, nextLoop x = .ok p ∧ Found IsLeast (primesFrom x) p := by
  induction hk : (2 ^ 63 - x).toNat using Nat.strong_induction_on generalizing x with
  | _ k ih =>
  rw [nextLoop_step hlow hx]
  by_cases hprime : x.toNat.Prime
  · rw [if_pos hprime]
    refine ⟨x, rfl, .inl ⟨x.toNat, by omega, ⟨hprime, by omega, by omega⟩, fun q hq => ?_⟩⟩
    have hle := hq.2.1
    omega
  rw [if_neg hprime, primesFrom_succ hprime]
  by_cases hlast : x = 2 ^ 63 - 1
  · rw [if_pos hlast]
    refine ⟨-1, rfl, found_none fun q hq => ?_⟩
    have hfrom := hq.2
    omega
  · rw [if_neg hlast]
    exact ih (2 ^ 63 - (x + 1)).toNat (by omega) (by omega) (by omega) rfl

theorem Found.spec {extreme : Set ℕ → ℕ → Prop} {primes : Set ℕ} {p : ℤ}
    (h : Found extreme primes p) (hmem : ∀ q, extreme primes q → q ∈ primes) :
    (p ≠ -1 → ∃ q : ℕ, p = q ∧ extreme primes q) ∧ (p = -1 ↔ ¬primes.Nonempty) := by
  rcases h with ⟨q, rfl, hq⟩ | ⟨rfl, hnone⟩
  · exact ⟨fun _ => ⟨q, rfl, hq⟩, iff_of_false (by omega) (not_not_intro ⟨q, hmem q hq⟩)⟩
  · exact ⟨fun hne => absurd rfl hne, iff_of_true rfl (Set.not_nonempty_iff_eq_empty.mpr hnone)⟩

theorem paiPrevPrime_found (n : Int64) :
    ∃ p, paiPrevPrime n = .ok p ∧ Found IsGreatest (primesUpTo (n.toInt - 1)) p := by
  have hlt := n.toInt_lt
  rw [paiPrevPrime]
  by_cases hlow : n.toInt ≤ 2
  · rw [if_pos hlow]
    refine ⟨-1, rfl, found_none fun q hq => ?_⟩
    have htwo := hq.1.two_le
    have hle := hq.2
    omega
  · have hsub : CInt.sub 64 n.toInt 1 = .ok (n.toInt - 1) :=
      sub_eq ⟨by omega, show n.toInt - 1 < 2 ^ 63 by omega⟩
    rw [if_neg hlow, hsub, CInt.ok_bind]
    exact prevLoop_spec (by omega)

theorem paiNextPrime_found (n : Int64) :
    ∃ p, paiNextPrime n = .ok p ∧ Found IsLeast (primesFrom (n.toInt + 1)) p := by
  have hlt := n.toInt_lt
  rw [paiNextPrime]
  by_cases hlast : n.toInt = 2 ^ 63 - 1
  · rw [if_pos hlast]
    refine ⟨-1, rfl, found_none fun q hq => ?_⟩
    have hfrom := hq.2
    omega
  rw [if_neg hlast]
  by_cases hlow : n.toInt < 2
  · have hsame : primesFrom (n.toInt + 1) = primesFrom 2 := by
      ext q
      refine and_congr_right fun hq => ?_
      have htwo := hq.two_le
      omega
    rw [if_pos hlow, hsame]
    exact nextLoop_spec (by decide) (by decide)
  · have hadd : CInt.add 64 n.toInt 1 = .ok (n.toInt + 1) :=
      add_eq ⟨by omega, show n.toInt + 1 < 2 ^ 63 by omega⟩
    rw [if_neg hlow, hadd, CInt.ok_bind]
    exact nextLoop_spec (by omega) (by omega)

/-- Both functions return, whatever the number, and no intermediate value overflows: the
greatest prime below it, or `-1` if there is none, and the least prime above it, or `-1` if
none fits. -/
theorem pai_prime_spec (n : Int64) :
    (∃ p, paiPrevPrime n = .ok p ∧
      (p ≠ -1 → ∃ q : ℕ, p = q ∧ IsGreatest {q : ℕ | q.Prime ∧ (q : ℤ) < n.toInt} q) ∧
      (p = -1 ↔ ¬∃ q : ℕ, q.Prime ∧ (q : ℤ) < n.toInt)) ∧
    ∃ p, paiNextPrime n = .ok p ∧
      (p ≠ -1 → ∃ q : ℕ, p = q ∧ (q : ℤ) < 2 ^ 63 ∧
        IsLeast {q : ℕ | q.Prime ∧ n.toInt < q} q) ∧
      (p = -1 ↔ ¬∃ q : ℕ, q.Prime ∧ n.toInt < q ∧ (q : ℤ) < 2 ^ 63) := by
  constructor
  · obtain ⟨p, hrun, hfound⟩ := paiPrevPrime_found n
    have hset : primesUpTo (n.toInt - 1) = {q : ℕ | q.Prime ∧ (q : ℤ) < n.toInt} := by
      ext q
      exact and_congr_right fun _ => Int.le_sub_one_iff
    rw [hset] at hfound
    obtain ⟨hsome, hnone⟩ := hfound.spec fun q hq => hq.1
    exact ⟨p, hrun, hsome, hnone⟩
  · obtain ⟨p, hrun, hfound⟩ := paiNextPrime_found n
    obtain ⟨hsome, hnone⟩ := hfound.spec fun q hq => hq.1
    refine ⟨p, hrun, fun hne => ?_, hnone⟩
    obtain ⟨q, rfl, hq, hleast⟩ := hsome hne
    refine ⟨q, rfl, hq.2.2, ⟨hq.1, hq.2.1⟩, fun r hr => ?_⟩
    by_cases hfits : (r : ℤ) < 2 ^ 63
    · exact hleast ⟨hr.1, hr.2, hfits⟩
    · have hlt := hq.2.2
      omega

end Blake3.Pai
