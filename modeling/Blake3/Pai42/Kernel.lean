import Blake3.Lib.WordArith
import Blake3.Words
import Mathlib.Algebra.BigOperators.Ring.Finset
import Mathlib.Algebra.Order.Ring.Abs

/-!
The 42-point projection of PAI42: `rmr_pai42.c`. The radii are quotients of
128 bits by 64 that the code gets by doubling remainders; the arithmetic of
64-bit words is a parameter, so that an overflow can be seen.
-/

namespace Blake3.Pai42

open WordArith

def q16One : UInt32 := 65536

def version : UInt32 := 1

def cosQ16 : Vector Int32 42 := #v[
  65536, 64804, 62624, 59046, 54148, 48041, 40861,
  32768, 23943, 14583, 4898, -4898, -14583, -23943,
  -32768, -40861, -48041, -54148, -59046, -62624, -64804,
  -65536, -64804, -62624, -59046, -54148, -48041, -40861,
  -32768, -23943, -14583, -4898, 4898, 14583, 23943,
  32768, 40861, 48041, 54148, 59046, 62624, 64804]

def sinQ16 : Vector Int32 42 := #v[
  0, 9768, 19317, 28435, 36918, 44576, 51238,
  56756, 61006, 63893, 65353, 65353, 63893, 61006,
  56756, 51238, 44576, 36918, 28435, 19317, 9768,
  0, -9768, -19317, -28435, -36918, -44576, -51238,
  -56756, -61006, -63893, -65353, -65353, -63893, -61006,
  -56756, -51238, -44576, -36918, -28435, -19317, -9768]

def absDiff (a b : UInt32) : UInt32 := if a ≥ b then a - b else b - a

def clampQ16 (value : UInt64) : UInt32 :=
  if value > q16One.toUInt64 then q16One else value.toUInt32

structure Observation where
  version : UInt32
  count : UInt32
  hwSig64 : UInt64
  minCycle : UInt64
  maxCycle : UInt64
  meanRadiusQ16 : UInt32
  varianceQ16 : UInt32
  symmetryQ16 : UInt32
  stabilityQ16 : UInt32
  prototypeScoreQ16 : UInt32
  radiusQ16 : Vector UInt32 42
  xQ16 : Vector Int32 42
  yQ16 : Vector Int32 42

/-! ### The ratio -/

structure RatioState where
  numerator : UInt64
  quotient : UInt32

section Ratio

variable {m : Type → Type} [Monad m] (ar : Arith m)

/-- One pass of the loop in `ratioQ16`. -/
def ratioBit (denominator : UInt64) (s : RatioState) : m RatioState := do
  let quotient := s.quotient <<< 1
  let rest ← ar.sub denominator s.numerator
  if s.numerator ≥ rest then
    let numerator ← ar.sub s.numerator rest
    pure ⟨numerator, quotient ||| 1⟩
  else
    let numerator ← ar.add s.numerator s.numerator
    pure ⟨numerator, quotient⟩

def ratioLoop (denominator : UInt64) : ℕ → RatioState → m RatioState
  | 0, s => pure s
  | bits + 1, s => do ratioLoop denominator bits (← ratioBit ar denominator s)

def ratioQ16 (numerator denominator : UInt64) : m UInt32 :=
  if denominator = 0 then pure (q16One / 2)
  else if numerator ≥ denominator then pure q16One
  else do
    let s ← ratioLoop ar denominator 16 ⟨numerator, 0⟩
    pure s.quotient

end Ratio

/-! ### The observation -/

/-- The first cycle, which the two scans start from. -/
def first : Fin 42 := ⟨0, by decide⟩

def leastCycle (cycles : Vector UInt64 42) : UInt64 :=
  cycles.toList.tail.foldl (fun least c => if c < least then c else least) (cycles.get first)

def greatestCycle (cycles : Vector UInt64 42) : UInt64 :=
  cycles.toList.tail.foldl (fun greatest c => if c > greatest then c else greatest)
    (cycles.get first)

/-- A coordinate, with an arithmetic shift. -/
def coordinate (direction : Int32) (radius : UInt32) : Int32 :=
  ((direction.toInt64 * radius.toUInt64.toInt64) >>> 16).toInt32

def sumRadius (radii : Vector UInt32 42) : UInt64 :=
  radii.toList.foldl (fun s r => s + r.toUInt64) 0

def sumSquared (radii : Vector UInt32 42) (mean : UInt32) : UInt64 :=
  radii.toList.foldl (fun s r => s + (absDiff r mean).toUInt64 * (absDiff r mean).toUInt64) 0

def sumOpposite (radii : Vector UInt32 42) : UInt64 :=
  (List.finRange 21).foldl
    (fun s i =>
      s + (absDiff (radii.get (Fin.castAdd 21 i)) (radii.get (Fin.addNat i 21))).toUInt64) 0

def meanRadius (radii : Vector UInt32 42) : UInt32 := (sumRadius radii / 42).toUInt32

def variance (radii : Vector UInt32 42) : UInt32 :=
  clampQ16 (sumSquared radii (meanRadius radii) / (42 * q16One.toUInt64))

def symmetry (radii : Vector UInt32 42) : UInt32 := q16One - clampQ16 (sumOpposite radii / 21)

def stability (radii : Vector UInt32 42) : UInt32 := q16One - variance radii

def prototypeScore (radii : Vector UInt32 42) : UInt32 :=
  ((55 * (symmetry radii).toUInt64 + 45 * (stability radii).toUInt64) / 100).toUInt32

/-- What `build` fills in once the radii are known. -/
def observe (hwSig64 minCycle maxCycle : UInt64) (radii : Vector UInt32 42) : Observation where
  version := version
  count := 42
  hwSig64 := hwSig64
  minCycle := minCycle
  maxCycle := maxCycle
  meanRadiusQ16 := meanRadius radii
  varianceQ16 := variance radii
  symmetryQ16 := symmetry radii
  stabilityQ16 := stability radii
  prototypeScoreQ16 := prototypeScore radii
  radiusQ16 := radii
  xQ16 := Vector.zipWith coordinate cosQ16 radii
  yQ16 := Vector.zipWith coordinate sinQ16 radii

def validate (o : Observation) : Bool :=
  if o.version ≠ version then false
  else if o.count ≠ 42 then false
  else if o.minCycle > o.maxCycle then false
  else if o.meanRadiusQ16 > q16One then false
  else if o.varianceQ16 > q16One then false
  else if o.symmetryQ16 > q16One then false
  else if o.stabilityQ16 > q16One then false
  else if o.prototypeScoreQ16 > q16One then false
  else o.radiusQ16.toList.all fun r => !(decide (r > q16One))

def build {m : Type → Type} [Monad m] (ar : Arith m) (hwSig64 : UInt64)
    (cycles : Vector UInt64 42) : m (ℤ × Observation) := do
  let minCycle := leastCycle cycles
  let maxCycle := greatestCycle cycles
  let span ← ar.sub maxCycle minCycle
  let radii ← cycles.mapM fun cycle =>
    if span = 0 then pure (q16One / 2)
    else do
      let delta ← ar.sub cycle minCycle
      ratioQ16 ar delta span
  let out := observe hwSig64 minCycle maxCycle radii
  pure (if validate out then 0 else -2, out)

/-! ### The ratio is exact -/

theorem toNat_shiftLeft_one {q : UInt32} (h : q.toNat < 2 ^ 31) :
    (q <<< 1).toNat = 2 * q.toNat := by
  rw [UInt32.toNat_shiftLeft, Nat.shiftLeft_eq]
  change q.toNat * 2 % 2 ^ 32 = 2 * q.toNat
  omega

theorem toNat_shiftLeft_one_or {q : UInt32} (h : q.toNat < 2 ^ 31) :
    (q <<< 1 ||| 1).toNat = 2 * q.toNat + 1 := by
  rw [UInt32.toNat_or, toNat_shiftLeft_one h]
  exact (Nat.two_pow_add_eq_or_of_lt (i := 1) (b := 1) (by decide) q.toNat).symm

section Ratio

variable {m : Type → Type} [Monad m] [LawfulMonad m] (ar : Arith m)

/-- One pass doubles the number that is divided, and never leaves 64 bits. -/
theorem ratioBit_splits {x : ℕ} {d : UInt64} {s : RatioState}
    (hs : Splits x d.toNat s.quotient.toNat s.numerator.toNat) (hq : s.quotient.toNat < 2 ^ 31) :
    ∃ s', ratioBit ar d s = pure s' ∧
      Splits (x * 2) d.toNat s'.quotient.toNat s'.numerator.toNat ∧
      s'.quotient.toNat < 2 * (s.quotient.toNat + 1) := by
  have hlt := hs.lt
  have hle : s.numerator ≤ d := UInt64.le_iff_toNat_le.mpr hlt.le
  have hrest : (d - s.numerator).toNat = d.toNat - s.numerator.toNat :=
    UInt64.toNat_sub_of_le _ _ hle
  have hd := d.toNat_lt
  rw [ratioBit, ar.sub_eq hle, pure_bind]
  by_cases hge : s.numerator ≥ d - s.numerator
  · have hge' : d.toNat - s.numerator.toNat ≤ s.numerator.toNat := by
      rw [← hrest]
      exact UInt64.le_iff_toNat_le.mp hge
    refine ⟨⟨s.numerator - (d - s.numerator), s.quotient <<< 1 ||| 1⟩, ?_, ?_, ?_⟩
    · rw [if_pos hge, ar.sub_eq hge, pure_bind]
    · rw [toNat_shiftLeft_one_or hq, UInt64.toNat_sub_of_le _ _ hge, hrest]
      exact hs.double_one hge'
    · rw [toNat_shiftLeft_one_or hq]
      omega
  · have hlt' : s.numerator.toNat < d.toNat - s.numerator.toNat := by
      rw [← hrest]
      exact UInt64.lt_iff_toNat_lt.mp (UInt64.not_le.mp hge)
    have hfit : s.numerator.toNat + s.numerator.toNat < 2 ^ 64 := by omega
    refine ⟨⟨s.numerator + s.numerator, s.quotient <<< 1⟩, ?_, ?_, ?_⟩
    · rw [if_neg hge, ar.add_eq hfit, pure_bind]
    · rw [toNat_shiftLeft_one hq, UInt64.toNat_add, Nat.mod_eq_of_lt hfit]
      exact hs.double_zero hlt'
    · rw [toNat_shiftLeft_one hq]
      omega

theorem ratioLoop_splits {d : UInt64} (bits : ℕ) {x j : ℕ} {s : RatioState}
    (hs : Splits x d.toNat s.quotient.toNat s.numerator.toNat) (hq : s.quotient.toNat < 2 ^ j)
    (hj : j + bits ≤ 31) :
    ∃ s', ratioLoop ar d bits s = pure s' ∧
      Splits (x * 2 ^ bits) d.toNat s'.quotient.toNat s'.numerator.toNat := by
  induction bits generalizing x j s with
  | zero => exact ⟨s, rfl, by simpa using hs⟩
  | succ bits ih =>
      have hpow : 2 ^ j ≤ 2 ^ 31 := Nat.pow_le_pow_right (by decide) (by omega)
      obtain ⟨s₁, hbit, hs₁, hq₁⟩ := ratioBit_splits ar hs (lt_of_lt_of_le hq hpow)
      have hnext : s₁.quotient.toNat < 2 ^ (j + 1) := by
        rw [Nat.pow_succ]
        omega
      obtain ⟨s₂, hloop, hs₂⟩ := ih hs₁ hnext (by omega)
      refine ⟨s₂, ?_, ?_⟩
      · rw [ratioLoop, hbit, pure_bind, hloop]
      · rwa [Nat.mul_assoc, ← Nat.pow_succ'] at hs₂

theorem ratioQ16_eq {n d : UInt64} (hle : n ≤ d) (hd : d ≠ 0) :
    ratioQ16 ar n d = pure (UInt32.ofNat (n.toNat * 65536 / d.toNat)) := by
  have hpos : 0 < d.toNat := Nat.pos_of_ne_zero fun h => hd (UInt64.toNat_inj.mp h)
  rw [ratioQ16, if_neg hd]
  by_cases hge : n ≥ d
  · have heq : n = d := UInt64.le_antisymm hle hge
    rw [if_pos hge, heq, Nat.mul_div_cancel_left _ hpos]
    rfl
  · rw [if_neg hge]
    have hlt : n.toNat < d.toNat := UInt64.lt_iff_toNat_lt.mp (UInt64.not_le.mp hge)
    obtain ⟨s, hloop, hs⟩ := ratioLoop_splits ar (j := 0) 16
      (s := ⟨n, 0⟩) (Splits.of_lt hlt) Nat.one_pos (by decide)
    rw [hloop, pure_bind]
    change _ = pure (UInt32.ofNat (n.toNat * 2 ^ 16 / d.toNat))
    rw [← hs.quotient_eq, UInt32.ofNat_toNat]

end Ratio

/-! ### The radii -/

theorem mapM_eq_pure_map {m : Type → Type} [Monad m] [LawfulMonad m] {α β : Type} {n : ℕ}
    {f : α → m β} {g : α → β} {xs : Vector α n} (h : ∀ x ∈ xs, f x = pure (g x)) :
    xs.mapM f = pure (xs.map g) := by
  have hf : f ∘ Subtype.val = fun x : { x // x ∈ xs } => pure (g x.val) :=
    funext fun x => h x.val x.property
  calc xs.mapM f = (xs.attach.map Subtype.val).mapM f := by rw [Vector.attach_map_subtype_val]
    _ = xs.attach.mapM (f ∘ Subtype.val) := Vector.mapM_map
    _ = pure (xs.attach.map fun x => g x.val) := by rw [hf, Vector.mapM_pure]
    _ = pure (xs.map g) := by rw [Vector.attach_map_val]

theorem toList_eq_first_cons (cycles : Vector UInt64 42) :
    cycles.toList = cycles.get first :: cycles.toList.tail := by
  have hlen : 0 < cycles.toList.length := by rw [cycles.length_toList]; decide
  have hhead : cycles.toList.get ⟨0, hlen⟩ = cycles.get first := by simp [Vector.get, first]
  rw [← hhead, ← List.drop_one]
  exact List.drop_eq_getElem_cons hlen

theorem leastCycle_spec (cycles : Vector UInt64 42) :
    leastCycle cycles ∈ cycles.toList ∧ ∀ c ∈ cycles.toList, leastCycle cycles ≤ c := by
  rw [toList_eq_first_cons, leastCycle]
  exact foldl_better_spec UInt64.le_refl UInt64.le_trans UInt64.le_of_lt UInt64.not_lt.mp _ _

theorem greatestCycle_spec (cycles : Vector UInt64 42) :
    greatestCycle cycles ∈ cycles.toList ∧ ∀ c ∈ cycles.toList, c ≤ greatestCycle cycles := by
  rw [toList_eq_first_cons, greatestCycle]
  exact @foldl_better_spec _ (fun a b => b ≤ a) (fun a b => a > b) _ UInt64.le_refl
    (fun h h' => UInt64.le_trans h' h) UInt64.le_of_lt UInt64.not_lt.mp _ _

/-- The radius of a cycle, as a number. -/
def scaled (least greatest cycle : ℕ) : ℕ :=
  if greatest = least then 32768 else (cycle - least) * 65536 / (greatest - least)

theorem scaled_le {least greatest cycle : ℕ} (h : cycle ≤ greatest) :
    scaled least greatest cycle ≤ 65536 := by
  rw [scaled]
  split
  · decide
  · refine Nat.div_le_of_le_mul ?_
    exact Nat.mul_le_mul_right _ (Nat.sub_le_sub_right h least)

/-- The radii of a run of `build`. -/
def radiiOf (cycles : Vector UInt64 42) : Vector UInt32 42 :=
  cycles.map fun c =>
    UInt32.ofNat (scaled (leastCycle cycles).toNat (greatestCycle cycles).toNat c.toNat)

theorem build_eq {m : Type → Type} [Monad m] [LawfulMonad m] (ar : Arith m) (hwSig64 : UInt64)
    (cycles : Vector UInt64 42) :
    build ar hwSig64 cycles =
      let out := observe hwSig64 (leastCycle cycles) (greatestCycle cycles) (radiiOf cycles)
      pure (if validate out then 0 else -2, out) := by
  obtain ⟨-, hleast⟩ := leastCycle_spec cycles
  obtain ⟨hmem, hgreatest⟩ := greatestCycle_spec cycles
  have hspan := hleast _ hmem
  have hspanNat : (greatestCycle cycles - leastCycle cycles).toNat =
      (greatestCycle cycles).toNat - (leastCycle cycles).toNat :=
    UInt64.toNat_sub_of_le _ _ hspan
  have hspanLe := UInt64.le_iff_toNat_le.mp hspan
  have hzero : greatestCycle cycles - leastCycle cycles = 0 ↔
      (greatestCycle cycles).toNat = (leastCycle cycles).toNat := by
    rw [← UInt64.toNat_inj, hspanNat]
    change _ - _ = 0 ↔ _
    omega
  rw [build]
  dsimp only
  rw [ar.sub_eq hspan, pure_bind, mapM_eq_pure_map, pure_bind]
  · rfl
  intro c hc
  have hc' : c ∈ cycles.toList := by simpa using hc
  rw [scaled]
  by_cases hspan0 : greatestCycle cycles - leastCycle cycles = 0
  · rw [if_pos hspan0, if_pos (hzero.mp hspan0)]
    rfl
  · have hdelta : c - leastCycle cycles ≤ greatestCycle cycles - leastCycle cycles := by
      rw [UInt64.le_iff_toNat_le, hspanNat, UInt64.toNat_sub_of_le _ _ (hleast c hc')]
      exact Nat.sub_le_sub_right (UInt64.le_iff_toNat_le.mp (hgreatest c hc')) _
    rw [if_neg hspan0, if_neg (fun h => hspan0 (hzero.mpr h)), ar.sub_eq (hleast c hc'), pure_bind,
      ratioQ16_eq ar hdelta hspan0, UInt64.toNat_sub_of_le _ _ (hleast c hc'), hspanNat]

/-! ### The metrics are those of the integers -/

/-- The radii as the bridge has them. -/
def ints (radii : Vector UInt32 42) : List ℤ := radii.toList.map fun r => (r.toNat : ℤ)

/-- No radius is above one. -/
def Scaled (radii : Vector UInt32 42) : Prop := ∀ r ∈ radii.toList, r.toNat ≤ 65536

theorem toNat_absDiff (a b : UInt32) :
    ((absDiff a b).toNat : ℤ) = |(a.toNat : ℤ) - (b.toNat : ℤ)| := by
  rw [absDiff]
  split
  · next hge =>
      have hle : b.toNat ≤ a.toNat := UInt32.le_iff_toNat_le.mp hge
      rw [UInt32.toNat_sub_of_le _ _ hge, abs_of_nonneg (by omega)]
      omega
  · next hlt =>
      have hle : a ≤ b := UInt32.le_of_lt (UInt32.not_le.mp hlt)
      have hle' : a.toNat ≤ b.toNat := UInt32.le_iff_toNat_le.mp hle
      rw [UInt32.toNat_sub_of_le _ _ hle, abs_of_nonpos (by omega)]
      omega

theorem toNat_absDiff_le {a b : UInt32} (ha : a.toNat ≤ 65536) (hb : b.toNat ≤ 65536) :
    (absDiff a b).toNat ≤ 65536 := by
  have h := toNat_absDiff a b
  have hdiff : |(a.toNat : ℤ) - (b.toNat : ℤ)| ≤ 65536 := abs_le.mpr ⟨by omega, by omega⟩
  omega

theorem toNat_clampQ16 (value : UInt64) : (clampQ16 value).toNat = min 65536 value.toNat := by
  rw [clampQ16]
  split
  · next hgt =>
      have h : 65536 < value.toNat := UInt64.lt_iff_toNat_lt.mp hgt
      exact (Nat.min_eq_left h.le).symm
  · next hle =>
      have h : value.toNat ≤ 65536 := UInt64.le_iff_toNat_le.mp (UInt64.not_lt.mp hle)
      rw [Nat.min_eq_right h, UInt64.toNat_toUInt32]
      exact Nat.mod_eq_of_lt (lt_of_le_of_lt h (by decide))

theorem toNat_one_sub {a : UInt32} (h : a.toNat ≤ 65536) :
    (q16One - a).toNat = 65536 - a.toNat :=
  UInt32.toNat_sub_of_le _ _ (UInt32.le_iff_toNat_le.mpr h)

/-- A sum of words each bounded, as a sum of integers. -/
theorem toNat_foldl_eq {α : Type*} {f : α → UInt64} {g : α → ℤ} {bound : ℕ} {l : List α}
    (hf : ∀ a ∈ l, ((f a).toNat : ℤ) = g a ∧ (f a).toNat ≤ bound)
    (hfit : l.length * bound < 2 ^ 64) :
    ((l.foldl (fun s a => s + f a) 0).toNat : ℤ) = (l.map g).sum ∧
      (l.foldl (fun s a => s + f a) 0).toNat ≤ l.length * bound := by
  have hle : (l.map fun a => (f a).toNat).sum ≤ l.length * bound :=
    sum_map_le fun a ha => (hf a ha).2
  have hsum := toNat_foldl_add f l 0 (by simpa using lt_of_le_of_lt hle hfit)
  rw [UInt64.toNat_zero, Nat.zero_add] at hsum
  refine ⟨?_, by rwa [hsum]⟩
  rw [hsum, Nat.cast_list_sum, List.map_map]
  exact congrArg List.sum (List.map_congr_left fun a ha => (hf a ha).1)

variable {radii : Vector UInt32 42}

theorem sumRadius_eq (h : Scaled radii) :
    ((sumRadius radii).toNat : ℤ) = (ints radii).sum ∧ (sumRadius radii).toNat ≤ 42 * 65536 := by
  have hlen := radii.length_toList
  have hfit : radii.toList.length * 65536 < 2 ^ 64 := by rw [hlen]; decide
  have hterm : ∀ r ∈ radii.toList, (r.toUInt64.toNat : ℤ) = r.toNat ∧ r.toUInt64.toNat ≤ 65536 :=
    fun r hr => ⟨by simp, by simpa using h r hr⟩
  rw [← hlen]
  exact toNat_foldl_eq hterm hfit

theorem sumSquared_eq (h : Scaled radii) {mean : UInt32} (hmean : mean.toNat ≤ 65536) :
    ((sumSquared radii mean).toNat : ℤ) =
      ((ints radii).map fun r => (r - (mean.toNat : ℤ)) ^ 2).sum := by
  have hlen := radii.length_toList
  have hfit : radii.toList.length * (65536 * 65536) < 2 ^ 64 := by rw [hlen]; decide
  have hterm : ∀ r ∈ radii.toList,
      (((absDiff r mean).toUInt64 * (absDiff r mean).toUInt64).toNat : ℤ) =
        ((r.toNat : ℤ) - (mean.toNat : ℤ)) ^ 2 ∧
      ((absDiff r mean).toUInt64 * (absDiff r mean).toUInt64).toNat ≤ 65536 * 65536 := by
    intro r hr
    have hle := toNat_absDiff_le (h r hr) hmean
    have hmul : (absDiff r mean).toNat * (absDiff r mean).toNat ≤ 65536 * 65536 :=
      Nat.mul_le_mul hle hle
    have hnat : ((absDiff r mean).toUInt64 * (absDiff r mean).toUInt64).toNat =
        (absDiff r mean).toNat * (absDiff r mean).toNat := by
      rw [UInt64.toNat_mul, UInt32.toNat_toUInt64]
      exact Nat.mod_eq_of_lt (lt_of_le_of_lt hmul (by decide))
    rw [hnat, Nat.cast_mul, toNat_absDiff, abs_mul_abs_self, sq]
    exact ⟨rfl, hmul⟩
  have hsum := (toNat_foldl_eq hterm hfit).1
  rwa [ints, List.map_map]

/-- The differences of opposite radii. -/
def opposite (radii : Vector UInt32 42) : List ℤ :=
  (List.finRange 21).map fun i =>
    |((radii.get (Fin.castAdd 21 i)).toNat : ℤ) - ((radii.get (Fin.addNat i 21)).toNat : ℤ)|

theorem sumOpposite_eq (h : Scaled radii) :
    ((sumOpposite radii).toNat : ℤ) = (opposite radii).sum := by
  have hget (i : Fin 42) : (radii.get i).toNat ≤ 65536 := h _ (by simp [Vector.get])
  have hterm : ∀ i ∈ List.finRange 21,
      ((absDiff (radii.get (Fin.castAdd 21 i)) (radii.get (Fin.addNat i 21))).toUInt64.toNat : ℤ) =
        |((radii.get (Fin.castAdd 21 i)).toNat : ℤ) - ((radii.get (Fin.addNat i 21)).toNat : ℤ)| ∧
      (absDiff (radii.get (Fin.castAdd 21 i)) (radii.get (Fin.addNat i 21))).toUInt64.toNat
        ≤ 65536 := by
    intro i _
    rw [UInt32.toNat_toUInt64, toNat_absDiff]
    exact ⟨rfl, toNat_absDiff_le (hget _) (hget _)⟩
  exact (toNat_foldl_eq hterm (by simp)).1

theorem toInt_shiftRight_sixteen (a : Int64) : (a >>> 16).toInt = a.toInt >>> (16 : ℕ) := by
  rw [← Int64.toInt_toBitVec, Int64.toBitVec_shiftRight, BitVec.toInt_sshiftRight']
  rfl

theorem toInt_coordinate {direction : Int32} {radius : UInt32} (hd : |direction.toInt| ≤ 65536)
    (hr : radius.toNat ≤ 65536) :
    (coordinate direction radius).toInt = (direction.toInt * radius.toNat) >>> (16 : ℕ) := by
  have hradius : radius.toUInt64.toInt64.toInt = radius.toNat := by
    change radius.toUInt64.toBitVec.toInt = _
    have hfit : 2 * radius.toUInt64.toBitVec.toNat < 2 ^ 64 := by
      rw [UInt64.toNat_toBitVec, UInt32.toNat_toUInt64]
      omega
    rw [BitVec.toInt_eq_toNat_of_lt hfit, UInt64.toNat_toBitVec, UInt32.toNat_toUInt64]
  have hprod : |direction.toInt * (radius.toNat : ℤ)| ≤ 65536 * 65536 := by
    rw [abs_mul]
    exact mul_le_mul hd (by simpa using hr) (abs_nonneg _) (by decide)
  obtain ⟨hlo, hhi⟩ := abs_le.mp hprod
  have hmul : (direction.toInt64 * radius.toUInt64.toInt64).toInt =
      direction.toInt * radius.toNat := by
    rw [Int64.toInt_mul, Int32.toInt_toInt64, hradius]
    exact Int.bmod_eq_of_le (by omega) (by omega)
  rw [coordinate, Int64.toInt_toInt32, toInt_shiftRight_sixteen, hmul, Int.shiftRight_eq_div_pow]
  exact Int.bmod_eq_of_le (by omega) (by omega)

theorem toNat_fdiv {a : UInt64} {x : ℤ} (h : (a.toNat : ℤ) = x) (d : UInt64) :
    ((a / d).toNat : ℤ) = x.fdiv d.toNat := by
  rw [UInt64.toNat_div, Int.natCast_ediv, h, Int.fdiv_eq_ediv_of_nonneg _ (Int.natCast_nonneg _)]

theorem toNat_toUInt32 {a : UInt64} (h : a.toNat ≤ 65536) : a.toUInt32.toNat = a.toNat := by
  rw [UInt64.toNat_toUInt32]
  exact Nat.mod_eq_of_lt (lt_of_le_of_lt h (by decide))

theorem clampQ16_eq {a : UInt64} {x : ℤ} (h : (a.toNat : ℤ) = x) :
    ((clampQ16 a).toNat : ℤ) = min 65536 x := by
  rw [toNat_clampQ16, ← h]
  omega

theorem clampQ16_le (a : UInt64) : (clampQ16 a).toNat ≤ 65536 := by
  rw [toNat_clampQ16]
  exact Nat.min_le_left _ _

theorem meanRadius_eq (h : Scaled radii) :
    ((meanRadius radii).toNat : ℤ) = (ints radii).sum.fdiv 42 ∧
      (meanRadius radii).toNat ≤ 65536 := by
  obtain ⟨hsum, hle⟩ := sumRadius_eq h
  have hmean : (sumRadius radii / 42).toNat ≤ 65536 := by
    rw [UInt64.toNat_div]
    exact Nat.div_le_of_le_mul hle
  rw [meanRadius, toNat_toUInt32 hmean]
  exact ⟨toNat_fdiv hsum 42, hmean⟩

theorem variance_eq (h : Scaled radii) : ((variance radii).toNat : ℤ) =
    min 65536 (((ints radii).map fun r => (r - (ints radii).sum.fdiv 42) ^ 2).sum.fdiv
      (42 * 65536)) := by
  obtain ⟨hmean, hle⟩ := meanRadius_eq h
  have hsq := sumSquared_eq h hle
  rw [hmean] at hsq
  exact clampQ16_eq (toNat_fdiv hsq _)

theorem symmetry_eq (h : Scaled radii) :
    ((symmetry radii).toNat : ℤ) = 65536 - min 65536 ((opposite radii).sum.fdiv 21) := by
  have hclamp := clampQ16_eq (toNat_fdiv (sumOpposite_eq h) 21)
  have hle := clampQ16_le (sumOpposite radii / 21)
  rw [symmetry, toNat_one_sub hle, Nat.cast_sub hle, hclamp]
  rfl

theorem symmetry_le (radii : Vector UInt32 42) : (symmetry radii).toNat ≤ 65536 := by
  rw [symmetry, toNat_one_sub (clampQ16_le _)]
  exact Nat.sub_le _ _

theorem stability_eq (radii : Vector UInt32 42) :
    ((stability radii).toNat : ℤ) = 65536 - (variance radii).toNat ∧
      (stability radii).toNat ≤ 65536 := by
  have hle : (variance radii).toNat ≤ 65536 := clampQ16_le _
  rw [stability, toNat_one_sub hle, Nat.cast_sub hle]
  exact ⟨rfl, Nat.sub_le _ _⟩

theorem prototypeScore_eq (radii : Vector UInt32 42) :
    ((prototypeScore radii).toNat : ℤ) =
        (55 * ((symmetry radii).toNat : ℤ) + 45 * ((stability radii).toNat : ℤ)).fdiv 100 ∧
      (prototypeScore radii).toNat ≤ 65536 := by
  have hsym := symmetry_le radii
  have hstab := (stability_eq radii).2
  have hsum : (55 * (symmetry radii).toUInt64 + 45 * (stability radii).toUInt64).toNat =
      55 * (symmetry radii).toNat + 45 * (stability radii).toNat := by
    simp only [UInt64.toNat_add, UInt64.toNat_mul, UInt32.toNat_toUInt64]
    change ((55 * _) % 2 ^ 64 + (45 * _) % 2 ^ 64) % 2 ^ 64 = _
    omega
  have hdiv : ((55 * (symmetry radii).toUInt64 + 45 * (stability radii).toUInt64) / 100).toNat ≤
      65536 := by
    rw [UInt64.toNat_div, hsum]
    change _ / 100 ≤ 65536
    omega
  rw [prototypeScore, toNat_toUInt32 hdiv]
  refine ⟨toNat_fdiv ?_ 100, hdiv⟩
  rw [hsum]
  push_cast
  rfl

/-- What `validate` looks at holds of every observation that `build` makes. -/
theorem validate_observe (h : Scaled radii) {least greatest : UInt64} (hle : least ≤ greatest)
    (hwSig64 : UInt64) : validate (observe hwSig64 least greatest radii) = true := by
  have hfit {a : UInt32} (ha : a.toNat ≤ 65536) : ¬a > q16One :=
    UInt32.not_lt.mpr (UInt32.le_iff_toNat_le.mpr ha)
  have hradii : (radii.toList.all fun r => !(decide (r > q16One))) = true := by
    rw [List.all_eq_true]
    intro r hr
    rw [decide_eq_false (hfit (h r hr))]
    rfl
  simp only [validate, observe, ne_eq, not_true_eq_false, if_false,
    if_neg (UInt64.not_lt.mpr hle), if_neg (hfit (meanRadius_eq h).2),
    if_neg (hfit (clampQ16_le (sumSquared radii (meanRadius radii) / (42 * q16One.toUInt64)))),
    variance, if_neg (hfit (symmetry_le radii)), if_neg (hfit (stability_eq radii).2),
    if_neg (hfit (prototypeScore_eq radii).2), hradii]

theorem toNat_ofNat_scaled {least greatest cycle : ℕ} (h : cycle ≤ greatest) :
    (UInt32.ofNat (scaled least greatest cycle)).toNat = scaled least greatest cycle :=
  UInt32.toNat_ofNat_of_lt' (lt_of_le_of_lt (scaled_le h) (by decide))

theorem scaled_radiiOf (cycles : Vector UInt64 42) : Scaled (radiiOf cycles) := by
  intro r hr
  rw [radiiOf, Vector.toList_map] at hr
  obtain ⟨c, hc, rfl⟩ := List.mem_map.mp hr
  have hle := UInt64.le_iff_toNat_le.mp ((greatestCycle_spec cycles).2 c hc)
  rw [toNat_ofNat_scaled hle]
  exact scaled_le hle

theorem least_le_greatest (cycles : Vector UInt64 42) :
    leastCycle cycles ≤ greatestCycle cycles :=
  (leastCycle_spec cycles).2 _ (greatestCycle_spec cycles).1

/-- What `build` fills in: the exact extremes and radii, all metrics between zero and one. -/
structure Exact (cycles : Vector UInt64 42) (out : Observation) : Prop where
  least : out.minCycle ∈ cycles.toList ∧ ∀ c ∈ cycles.toList, out.minCycle ≤ c
  greatest : out.maxCycle ∈ cycles.toList ∧ ∀ c ∈ cycles.toList, c ≤ out.maxCycle
  radius : ∀ i : Fin 42, (out.radiusQ16.get i).toNat =
    if out.maxCycle = out.minCycle then 32768
    else ((cycles.get i).toNat - out.minCycle.toNat) * 65536 /
      (out.maxCycle.toNat - out.minCycle.toNat)
  radius_le : ∀ i : Fin 42, (out.radiusQ16.get i).toNat ≤ 65536
  metrics_le : ∀ a ∈ [out.meanRadiusQ16, out.varianceQ16, out.symmetryQ16, out.stabilityQ16,
    out.prototypeScoreQ16], a.toNat ≤ 65536

theorem exact_observe (hwSig64 : UInt64) (cycles : Vector UInt64 42) :
    Exact cycles
      (observe hwSig64 (leastCycle cycles) (greatestCycle cycles) (radiiOf cycles)) where
  least := leastCycle_spec cycles
  greatest := greatestCycle_spec cycles
  radius := fun i => by
    have hmem : cycles.get i ∈ cycles.toList := by simp [Vector.get]
    have hle := UInt64.le_iff_toNat_le.mp ((greatestCycle_spec cycles).2 _ hmem)
    change ((radiiOf cycles).get i).toNat = if greatestCycle cycles = leastCycle cycles then 32768
      else _
    have hget : (radiiOf cycles).get i = UInt32.ofNat (scaled (leastCycle cycles).toNat
        (greatestCycle cycles).toNat (cycles.get i).toNat) := by
      simp [radiiOf, Vector.get]
      rfl
    rw [hget, toNat_ofNat_scaled hle, scaled]
    simp only [← UInt64.toNat_inj]
    rfl
  radius_le := fun i => scaled_radiiOf cycles _ (by simp [observe, Vector.get])
  metrics_le := by
    have hscaled := scaled_radiiOf cycles
    simp only [observe, List.mem_cons, List.not_mem_nil, or_false, forall_eq_or_imp, forall_eq]
    exact ⟨(meanRadius_eq hscaled).2, clampQ16_le _, symmetry_le _, (stability_eq _).2,
      (prototypeScore_eq _).2⟩

end Blake3.Pai42
