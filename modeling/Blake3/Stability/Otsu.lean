import Blake3.Lib.Checked
import Blake3.Lib.Levels
import Blake3.Stability.Trace

/-!
`RmR_Vision_OtsuThreshold` of `rmr_stability.c`: the gray level that splits the pixels of
an image best. Its arithmetic is checked here: a result that does not fit into its word
and a division by zero are traps.
-/

namespace Blake3.Stability

def statusBadArgument : Word := 8
def statusAngleSaturated : Word := 32

inductive Trap where
  | overflow
  | divisionByZero
  deriving DecidableEq, Repr

/-- A computation with unsigned words of 32 and 64 bits. -/
abbrev Checked (α : Type) := Except Trap α

def add32 (a b : ℕ) : Checked ℕ := Checked.add .overflow 32 a b
def add64 (a b : ℕ) : Checked ℕ := Checked.add .overflow 64 a b
def sub64 (a b : ℕ) : Checked ℕ := Checked.sub .overflow a b
def mul64 (a b : ℕ) : Checked ℕ := Checked.mul .overflow 64 a b
def shl64 (a k : ℕ) : Checked ℕ := Checked.shiftLeft .overflow 64 a k
def div64 (a b : ℕ) : Checked ℕ := Checked.div .divisionByZero a b

/-! ### Images -/

/-- Row `y`, the first `w` of the bytes from `g + y * stride` on. -/
def row (g : List Byte) (w stride : Word) (y : ℕ) : List Byte :=
  (List.range w.toNat).map fun x => g.getD (y * stride.toNat + x) 0

def rows (g : List Byte) (w h stride : Word) : List (List Byte) :=
  (List.range h.toNat).map fun y => row g w stride y

/-- The pixels in the order of the two loops. -/
def pixels (g : List Byte) (w h stride : Word) : List Byte := (rows g w h stride).flatten

/-! ### The threshold -/

structure Histogram where
  hist : ℕ → ℕ
  sum : ℕ

/-- `hist[r[x]]++; sum += r[x];` -/
def Histogram.count (t : Histogram) (v : Byte) : Checked Histogram := do
  let n ← add32 (t.hist v.toNat) 1
  let sum ← add64 t.sum v.toNat
  pure { hist := Function.update t.hist v.toNat n, sum := sum }

def histogram (ps : List Byte) : Checked Histogram :=
  ps.foldlM Histogram.count { hist := fun _ => 0, sum := 0 }

/-- `while ((total >> shift) > 65535u) shift++;` -/
def shiftFrom (total shift : ℕ) : ℕ :=
  if 65535 < total >>> shift then shiftFrom total (shift + 1) else shift
termination_by total >>> shift
decreasing_by
  rw [Nat.shiftRight_succ]
  omega

/-- `a >= b ? a - b : b - a` -/
def distance64 (a b : ℕ) : Checked ℕ := if b ≤ a then sub64 a b else sub64 b a

/-- The score of a split into `wb` pixels that add up to `sb` and `wf` others. -/
def score (sum shift wb wf sb : ℕ) : Checked ℕ := do
  let mb ← div64 (← shl64 sb 16) wb
  let mf ← div64 (← shl64 (← sub64 sum sb) 16) wf
  let d := (← distance64 mb mf) >>> 8
  let swb := if wb >>> shift = 0 then 1 else wb >>> shift
  let swf := if wf >>> shift = 0 then 1 else wf >>> shift
  mul64 (← mul64 (← mul64 d d) swb) swf

/-- The variables of the loop over the levels. -/
structure Scan where
  wb : ℕ
  sb : ℕ
  best : ℕ
  threshold : Byte

/-- The loop over the levels that are left. -/
def scan (t : Histogram) (total shift : ℕ) : List ℕ → Scan → Checked Scan
  | [], s => pure s
  | i :: levels, s => do
      let wb ← add64 s.wb (t.hist i)
      if wb = 0 then scan t total shift levels { s with wb := wb }
      else do
        let wf ← sub64 total wb
        if wf = 0 then pure { s with wb := wb }
        else do
          let sb ← add64 s.sb (← mul64 i (t.hist i))
          let v ← score t.sum shift wb wf sb
          let s := { s with wb := wb, sb := sb }
          scan t total shift levels
            (if s.best < v then { s with best := v, threshold := UInt8.ofNat i } else s)

/-- `RmR_Vision_OtsuThreshold`: the threshold and `*status`. -/
def otsuThreshold (g : Option (List Byte)) (w h stride : Word) : Checked (Byte × Word) :=
  match g with
  | none => pure (0, statusBadArgument)
  | some g =>
      if w = 0 ∨ h = 0 ∨ stride < w then pure (0, statusBadArgument)
      else do
        let total ← mul64 w.toNat h.toNat
        if 0xffffffff < total then pure (0, statusCounterSaturated)
        else do
          let t ← histogram (pixels g w h stride)
          let s ← scan t total (shiftFrom total 0) (List.range 256)
            { wb := 0, sb := 0, best := 0, threshold := 0 }
          pure (s.threshold, 0)

/-! ### Histograms -/

theorem mul_lt_two_pow (w h : Word) : w.toNat * h.toNat < 2 ^ 64 :=
  calc w.toNat * h.toNat < 2 ^ 32 * 2 ^ 32 := Nat.mul_lt_mul'' w.toNat_lt h.toNat_lt
    _ = 2 ^ 64 := by norm_num

theorem length_pixels (g : List Byte) (w h stride : Word) :
    (pixels g w h stride).length = h.toNat * w.toNat := by
  simp [pixels, rows, row, List.length_flatten, Function.comp_def]

/-- The gray levels of some pixels. -/
def levels (ps : List Byte) : List ℕ := ps.map UInt8.toNat

theorem levels_le {ps : List Byte} : ∀ a ∈ levels ps, a ≤ 255 := by
  intro a ha
  obtain ⟨v, -, rfl⟩ := List.mem_map.mp ha
  exact Nat.le_of_lt_succ v.toNat_lt

theorem foldlM_count {ps : List Byte} {t : Histogram} (hhist : ∀ i, t.hist i + ps.length < 2 ^ 32)
    (hsum : t.sum + 255 * ps.length < 2 ^ 64) :
    ps.foldlM Histogram.count t = .ok {
      hist := fun i => t.hist i + (levels ps).count i, sum := t.sum + (levels ps).sum } := by
  induction ps generalizing t with
  | nil => rfl
  | cons v ps ih =>
      rw [List.length_cons] at hhist hsum
      have hv := v.toNat_lt
      have hone := hhist v.toNat
      have hcount : t.count v = .ok {
          hist := Function.update t.hist v.toNat (t.hist v.toNat + 1)
          sum := t.sum + v.toNat } := by
        rw [Histogram.count, add32, add64, Checked.add_eq _ (by omega), Checked.add_eq _ (by omega)]
        rfl
      have hroom : ∀ i, Function.update t.hist v.toNat (t.hist v.toNat + 1) i + ps.length <
          2 ^ 32 := by
        intro i
        by_cases hi : i = v.toNat
        · rw [hi, Function.update_self]
          omega
        · rw [Function.update_of_ne hi]
          exact Nat.lt_of_succ_lt (hhist i)
      rw [List.foldlM_cons, hcount]
      refine (ih hroom (by dsimp only; omega)).trans ?_
      have hlevels : levels (v :: ps) = v.toNat :: levels ps := rfl
      rw [hlevels, List.sum_cons, ← Nat.add_assoc]
      congr 2
      funext i
      dsimp only
      by_cases hi : i = v.toNat
      · rw [hi, Function.update_self, List.count_cons_self]
        omega
      · rw [Function.update_of_ne hi, List.count_cons_of_ne (Ne.symm hi)]

theorem histogram_eq {ps : List Byte} (h : ps.length < 2 ^ 32) :
    histogram ps = .ok { hist := fun i => (levels ps).count i, sum := (levels ps).sum } := by
  rw [histogram, foldlM_count (by dsimp only; omega) (by dsimp only; omega)]
  simp only [Nat.zero_add]

theorem shiftFrom_spec (total shift : ℕ) : total >>> shiftFrom total shift ≤ 65535 := by
  fun_induction shiftFrom total shift with
  | case1 shift _ ih => exact ih
  | case2 shift h => exact Nat.not_lt.mp h

/-! ### Scores -/

/-- The means are at most 255 in units of `2 ^ -16`, and the weights at most 65535 after the
shift, so that the score fits. It is positive when the means are a level apart. -/
theorem score_eq {sum shift wb wf sb : ℕ} (hwb : 0 < wb) (hwf : 0 < wf) (hwbLt : wb < 2 ^ 32)
    (hwfLt : wf < 2 ^ 32) (hsb : sb ≤ 255 * wb) (hsbLe : sb ≤ sum) (hsf : sum - sb ≤ 255 * wf)
    (hswb : wb >>> shift ≤ 65535) (hswf : wf >>> shift ≤ 65535) :
    ∃ v, score sum shift wb wf sb = .ok v ∧
      (sb * 2 ^ 16 / wb + 2 ^ 8 ≤ (sum - sb) * 2 ^ 16 / wf → 0 < v) := by
  obtain ⟨mb, hmb⟩ : ∃ mb, mb = sb * 2 ^ 16 / wb := ⟨_, rfl⟩
  obtain ⟨mf, hmf⟩ : ∃ mf, mf = (sum - sb) * 2 ^ 16 / wf := ⟨_, rfl⟩
  have hmbLe : mb ≤ 255 * 2 ^ 16 := by
    rw [hmb]
    exact Nat.div_le_of_le_mul (by omega)
  have hmfLe : mf ≤ 255 * 2 ^ 16 := by
    rw [hmf]
    exact Nat.div_le_of_le_mul (by omega)
  obtain ⟨difference, hdifference, hdLe, hdGe⟩ : ∃ difference,
      distance64 mb mf = .ok difference ∧ difference ≤ 255 * 2 ^ 16 ∧
        (mb + 2 ^ 8 ≤ mf → 2 ^ 8 ≤ difference) := by
    rw [distance64, sub64, sub64]
    by_cases hle : mf ≤ mb
    · rw [if_pos hle, Checked.sub_eq _ hle]
      exact ⟨_, rfl, by omega, by omega⟩
    · rw [if_neg hle, Checked.sub_eq _ (by omega)]
      exact ⟨_, rfl, by omega, by omega⟩
  obtain ⟨d, hd⟩ : ∃ d, d = difference >>> 8 := ⟨_, rfl⟩
  obtain ⟨swb, hswbEq⟩ : ∃ s, s = if wb >>> shift = 0 then 1 else wb >>> shift := ⟨_, rfl⟩
  obtain ⟨swf, hswfEq⟩ : ∃ s, s = if wf >>> shift = 0 then 1 else wf >>> shift := ⟨_, rfl⟩
  have hweight : ∀ x ≤ 65535, 0 < (if x = 0 then 1 else x) ∧ (if x = 0 then 1 else x) ≤ 65535 := by
    intro x hx
    split_ifs <;> omega
  have hswbPos : 0 < swb ∧ swb ≤ 65535 := hswbEq ▸ hweight _ hswb
  have hswfPos : 0 < swf ∧ swf ≤ 65535 := hswfEq ▸ hweight _ hswf
  rw [Nat.shiftRight_eq_div_pow] at hd
  have hdd : d * d ≤ 65280 * 65280 := Nat.mul_le_mul (by omega) (by omega)
  have hddb : d * d * swb ≤ 65280 * 65280 * 65535 := Nat.mul_le_mul hdd hswbPos.2
  have hddbf : d * d * swb * swf ≤ 65280 * 65280 * 65535 * 65535 := Nat.mul_le_mul hddb hswfPos.2
  refine ⟨d * d * swb * swf, ?_, fun hapart => ?_⟩
  · simp only [score, shl64, div64, sub64, mul64]
    rw [Checked.shiftLeft_eq _ (by omega), Checked.ok_bind, Checked.div_eq _ hwb.ne',
      Checked.ok_bind, ← hmb, Checked.sub_eq _ hsbLe, Checked.ok_bind,
      Checked.shiftLeft_eq _ (by omega), Checked.ok_bind, Checked.div_eq _ hwf.ne',
      Checked.ok_bind, ← hmf, hdifference, Checked.ok_bind, Nat.shiftRight_eq_div_pow difference,
      ← hd, Checked.mul_eq _ (by omega), Checked.ok_bind, ← hswbEq, ← hswfEq,
      Checked.mul_eq _ (by omega), Checked.ok_bind, Checked.mul_eq _ (by omega)]
  · rw [← hmb, ← hmf] at hapart
    have hpos : 0 < d := by omega
    exact Nat.mul_pos (Nat.mul_pos (Nat.mul_pos hpos hpos) hswbPos.1) hswfPos.1

/-! ### The scan -/

section Scan

variable {ps : List Byte} {total shift : ℕ}

/-- The histogram of the pixels. -/
def histogramOf (ps : List Byte) : Histogram where
  hist := fun i => (levels ps).count i
  sum := (levels ps).sum

/-- Both sides of a threshold have pixels. -/
def Splits (ps : List Byte) (t : ℕ) : Prop := (∃ p ∈ ps, p.toNat ≤ t) ∧ ∃ p ∈ ps, t < p.toNat

/-- What the loop has found of the levels below `i`. -/
structure Scanned (ps : List Byte) (i : ℕ) (s : Scan) : Prop where
  wb : s.wb = Levels.below (levels ps) i
  sb : s.sb = Levels.sumBelow (levels ps) i
  splits : 0 < s.best → Splits ps s.threshold.toNat
  found : (∃ p ∈ ps, ∃ q ∈ ps, p ≠ q) → s.wb = 0 ∨ 0 < s.best

theorem splits_iff {t : ℕ} : Splits ps t ↔
    0 < Levels.below (levels ps) (t + 1) ∧ 0 < Levels.above (levels ps) t := by
  rw [Levels.below_pos_iff, Levels.above_pos_iff]
  simp [Splits, levels]

/-- At the lowest level the means are a level apart. -/
theorem means_apart {i : ℕ} (hbelow : Levels.below (levels ps) i = 0)
    (hwb : 0 < Levels.below (levels ps) (i + 1)) (hwf : 0 < Levels.above (levels ps) i) :
    Levels.sumBelow (levels ps) (i + 1) * 2 ^ 16 / Levels.below (levels ps) (i + 1) + 2 ^ 8 ≤
      ((levels ps).sum - Levels.sumBelow (levels ps) (i + 1)) * 2 ^ 16 /
        Levels.above (levels ps) i := by
  have hsum := @Levels.sumBelow_add_sumAbove (levels ps) i
  have hge := @Levels.le_sumAbove (levels ps) i
  rw [Levels.below_succ, hbelow, Nat.zero_add] at hwb ⊢
  rw [Levels.sumBelow_succ, Levels.sumBelow_of_below hbelow, Nat.zero_add] at hsum ⊢
  have hfirst : i * (levels ps).count i * 2 ^ 16 / (levels ps).count i = i * 2 ^ 16 := by
    rw [Nat.mul_right_comm]
    exact Nat.mul_div_cancel _ hwb
  have hsecond : (i + 1) * 2 ^ 16 ≤
      Levels.sumAbove (levels ps) i * 2 ^ 16 / Levels.above (levels ps) i := by
    rw [Nat.le_div_iff_mul_le hwf, Nat.mul_right_comm]
    exact Nat.mul_le_mul_right _ hge
  rw [hfirst, ← hsum, Nat.add_sub_cancel_left]
  omega

/-- The score of a split with pixels on both of its sides. -/
theorem score_split {i : ℕ} (hi : i < 256) (hlt : (levels ps).length < 2 ^ 32)
    (hshift : (levels ps).length >>> shift ≤ 65535) (hwb : 0 < Levels.below (levels ps) (i + 1))
    (hwf : 0 < Levels.above (levels ps) i) :
    ∃ v, score (histogramOf ps).sum shift (Levels.below (levels ps) (i + 1))
        (Levels.above (levels ps) i) (Levels.sumBelow (levels ps) (i + 1)) = .ok v ∧
      (Levels.below (levels ps) i = 0 → 0 < v) := by
  have hlength := @Levels.below_add_above (levels ps) i
  have hsumBelow : Levels.sumBelow (levels ps) (i + 1) ≤ 255 * Levels.below (levels ps) (i + 1) :=
    Levels.sumBelow_le.trans (Nat.mul_le_mul_right _ (by omega))
  have hsumAbove := @Levels.sumAbove_le (levels ps) i _ levels_le
  have hsum := @Levels.sumBelow_add_sumAbove (levels ps) i
  have hweight : ∀ x ≤ (levels ps).length, x >>> shift ≤ 65535 := by
    intro x hx
    rw [Nat.shiftRight_eq_div_pow] at hshift ⊢
    exact (Nat.div_le_div_right hx).trans hshift
  obtain ⟨v, hscore, hpos⟩ := @score_eq (levels ps).sum shift
    (Levels.below (levels ps) (i + 1)) (Levels.above (levels ps) i)
    (Levels.sumBelow (levels ps) (i + 1)) hwb hwf (by omega) (by omega) hsumBelow (by omega)
    (by omega) (hweight _ (by omega)) (hweight _ (by omega))
  exact ⟨v, hscore, fun hfirst => hpos (means_apart hfirst hwb hwf)⟩

/-- One turn of the loop: it goes on with what it has found, or the levels are all seen. -/
theorem scan_cons {i : ℕ} (hi : i < 256) (htotal : total = ps.length) (hlt : total < 2 ^ 32)
    (hshift : total >>> shift ≤ 65535) {s : Scan} (h : Scanned ps i s) (rest : List ℕ) :
    (∃ s', Scanned ps (i + 1) s' ∧
      scan (histogramOf ps) total shift (i :: rest) s = scan (histogramOf ps) total shift rest s') ∨
    ∃ s', scan (histogramOf ps) total shift (i :: rest) s = .ok s' ∧
      (0 < s'.best → Splits ps s'.threshold.toNat) ∧
      ((∃ p ∈ ps, ∃ q ∈ ps, p ≠ q) → 0 < s'.best) := by
  have hbelow := @Levels.below_succ (levels ps) i
  have habove := @Levels.below_add_above (levels ps) i
  have hlength : (levels ps).length = total := by rw [htotal, levels, List.length_map]
  have hlevel : (UInt8.ofNat i).toNat = i := UInt8.toNat_ofNat_of_lt' hi
  have hwb : add64 s.wb ((histogramOf ps).hist i) = .ok (Levels.below (levels ps) (i + 1)) := by
    have hhist : (histogramOf ps).hist i = (levels ps).count i := rfl
    rw [h.wb, hhist, hbelow]
    exact Checked.add_eq _ (by omega)
  rw [scan, hwb, Checked.ok_bind]
  by_cases hzero : Levels.below (levels ps) (i + 1) = 0
  · rw [if_pos hzero]
    refine .inl ⟨{ s with wb := Levels.below (levels ps) (i + 1) },
      ⟨rfl, ?_, h.splits, fun _ => .inl hzero⟩, rfl⟩
    dsimp only
    rw [h.sb, Levels.sumBelow_of_below (by omega), Levels.sumBelow_of_below hzero]
  have hwf : sub64 total (Levels.below (levels ps) (i + 1)) =
      .ok (Levels.above (levels ps) i) := by
    rw [show Levels.above (levels ps) i = total - Levels.below (levels ps) (i + 1) by omega]
    exact Checked.sub_eq _ (by omega)
  rw [if_neg hzero, hwf, Checked.ok_bind]
  by_cases hlast : Levels.above (levels ps) i = 0
  · rw [if_pos hlast]
    refine .inr ⟨_, rfl, h.splits, fun htwo => (h.found htwo).resolve_left fun hfirst => ?_⟩
    -- all pixels are of level `i`
    rw [h.wb] at hfirst
    obtain ⟨p, hp, q, hq, hne⟩ := htwo
    have hpi := Levels.eq_of_mem hfirst hlast (List.mem_map_of_mem hp)
    have hqi := Levels.eq_of_mem hfirst hlast (List.mem_map_of_mem hq)
    exact hne (UInt8.toNat_inj.mp (hpi.trans hqi.symm))
  have hsum := @Levels.sumBelow_add_sumAbove (levels ps) i
  have hsumBelow : Levels.sumBelow (levels ps) (i + 1) ≤ 255 * Levels.below (levels ps) (i + 1) :=
    Levels.sumBelow_le.trans (Nat.mul_le_mul_right _ (by omega))
  have hsumSucc := @Levels.sumBelow_succ (levels ps) i
  have hhist : (histogramOf ps).hist i = (levels ps).count i := rfl
  obtain ⟨v, hscore, hpos⟩ := @score_split ps shift i hi (by omega) (by rwa [hlength])
    (by omega) (by omega)
  rw [if_neg hlast, hhist, mul64, Checked.mul_eq _ (by omega), Checked.ok_bind, add64, h.sb,
    Checked.add_eq _ (by omega), Checked.ok_bind, ← hsumSucc, hscore, Checked.ok_bind]
  dsimp only
  by_cases hbest : s.best < v
  · rw [if_pos hbest]
    refine .inl ⟨_, ⟨rfl, rfl, fun _ => ?_, fun _ => .inr (by dsimp only; omega)⟩, rfl⟩
    dsimp only
    rw [hlevel, splits_iff]
    omega
  · rw [if_neg hbest]
    refine .inl ⟨{ s with
      wb := Levels.below (levels ps) (i + 1)
      sb := Levels.sumBelow (levels ps) (i + 1) },
      ⟨rfl, rfl, h.splits, fun htwo => .inr ?_⟩, rfl⟩
    dsimp only
    rcases h.found htwo with hfirst | hfound
    · rw [h.wb] at hfirst
      have hv := hpos hfirst
      omega
    · exact hfound

theorem scan_spec (htotal : total = ps.length) (hlt : total < 2 ^ 32)
    (hshift : total >>> shift ≤ 65535) (n : ℕ) {i : ℕ} (hn : i + n = 256) {s : Scan}
    (h : Scanned ps i s) :
    ∃ s', scan (histogramOf ps) total shift (List.range' i n) s = .ok s' ∧
      (0 < s'.best → Splits ps s'.threshold.toNat) ∧
      ((∃ p ∈ ps, ∃ q ∈ ps, p ≠ q) → 0 < s'.best) := by
  induction n generalizing i s with
  | zero =>
      obtain rfl : i = 255 + 1 := by omega
      refine ⟨s, rfl, h.splits, fun htwo => (h.found htwo).resolve_left fun hzero => ?_⟩
      obtain ⟨p, hp, -⟩ := htwo
      rw [h.wb, Levels.below_top levels_le, levels, List.length_map,
        List.length_eq_zero_iff] at hzero
      rw [hzero] at hp
      exact List.not_mem_nil hp
  | succ n ih =>
      rw [List.range'_succ]
      rcases scan_cons (by omega) htotal hlt hshift h (List.range' (i + 1) n) with
        ⟨s', h', hstep⟩ | hdone
      · rw [hstep]
        exact ih (by omega) h'
      · exact hdone

end Scan

/-- No result is too large for its word and nothing is divided by zero, whatever the image.
The threshold of an image with two gray levels has pixels on both of its sides. -/
theorem otsuThreshold_spec (g : Option (List Byte)) (w h stride : Word) :
    ∃ t status, otsuThreshold g w h stride = .ok (t, status) ∧
      ∀ bytes ∈ g, w ≤ stride → w.toNat * h.toNat < 2 ^ 32 →
        (∃ p ∈ pixels bytes w h stride, ∃ q ∈ pixels bytes w h stride, p ≠ q) →
          Splits (pixels bytes w h stride) t.toNat := by
  cases g with
  | none => exact ⟨_, _, rfl, by simp⟩
  | some g =>
      have hlength := length_pixels g w h stride
      by_cases hbad : w = 0 ∨ h = 0 ∨ stride < w
      · refine ⟨0, statusBadArgument, if_pos hbad, fun bytes hbytes hstride _ htwo => ?_⟩
        obtain rfl := Option.some.inj hbytes
        obtain ⟨p, hp, -⟩ := htwo
        have hpos := List.length_pos_of_mem hp
        rw [hlength] at hpos
        rcases hbad with rfl | rfl | hlt
        · simp at hpos
        · simp at hpos
        · exact absurd hlt (UInt32.not_lt.mpr hstride)
      have hfits := mul_lt_two_pow w h
      by_cases hlarge : 0xffffffff < w.toNat * h.toNat
      · refine ⟨0, statusCounterSaturated, ?_, fun bytes _ _ hlt => by omega⟩
        simp only [otsuThreshold]
        rw [if_neg hbad, mul64, Checked.mul_eq _ hfits, Checked.ok_bind, if_pos hlarge]
        rfl
      have htotal : w.toNat * h.toNat = (pixels g w h stride).length := by
        rw [hlength, Nat.mul_comm]
      have hinit : Scanned (pixels g w h stride) 0
          { wb := 0, sb := 0, best := 0, threshold := 0 } :=
        ⟨Levels.below_zero.symm, Levels.sumBelow_zero.symm, fun hpos => absurd hpos (by simp),
          fun _ => .inl rfl⟩
      obtain ⟨s, hscan, hsplits, hfound⟩ := scan_spec htotal (by omega)
        (shiftFrom_spec (w.toNat * h.toNat) 0) 256 rfl hinit
      refine ⟨s.threshold, 0, ?_, fun bytes hbytes _ _ htwo => ?_⟩
      · have hhistogram := @histogram_eq (pixels g w h stride) (by omega)
        simp only [otsuThreshold]
        rw [if_neg hbad, mul64, Checked.mul_eq _ hfits, Checked.ok_bind, if_neg hlarge,
          hhistogram, Checked.ok_bind, List.range_eq_range', ← histogramOf, hscan, Checked.ok_bind]
        rfl
      · obtain rfl := Option.some.inj hbytes
        exact hsplits (hfound htwo)

end Blake3.Stability
