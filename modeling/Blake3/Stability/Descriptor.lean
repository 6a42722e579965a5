import Blake3.Lib.WordArith
import Blake3.Stability.Otsu
import Blake3.Visual.Prototype
import Mathlib.Data.Int.Order.Lemmas

/-!
The descriptor of an image, `RmR_Vision_BuildDescriptor`, and the difference of two
descriptors, `RmR_Vision_DifferenceQ16`. What is built is computed with checked
arithmetic; the difference is one of words that wrap around, as any descriptor may be
compared.
-/

namespace Blake3.Stability

open Visual (VisionDescriptor)

/-! ### Angles -/

/-- `while (a < 0) a += 360;` -/
def addTurns (a : ℤ) : ℤ := if a < 0 then addTurns (a + 360) else a
termination_by (-a).toNat
decreasing_by omega

/-- `while (a >= 360) a -= 360;` -/
def dropTurns (a : ℤ) : ℤ := if 360 ≤ a then dropTurns (a - 360) else a
termination_by a.toNat
decreasing_by omega

theorem and_seven_lt (n : ℕ) : n &&& 7 < 8 := Nat.and_lt_two_pow n (show 7 < 2 ^ 3 by decide)

def angleBin (deg : Int16) : Fin 8 :=
  ⟨((dropTurns (addTurns deg.toInt) + 22) / 45).toNat &&& 7, and_seven_lt _⟩

/-- One turn of the loop over the angles, on the histogram and the status. -/
def countAngle (s : Vector Word 8 × Word) (deg : Int16) : Vector Word 8 × Word :=
  let b := angleBin deg
  let r := satadd32 (s.1.get b) 1 s.2
  (s.1.set b.val r.1 b.isLt, r.2)

/-- A value for a `uint32_t`. -/
def narrow32 (x : ℕ) : Checked Word := if x < 2 ^ 32 then .ok (UInt32.ofNat x) else .error .overflow

/-- `(uint64_t)(d * d)`, where the product is one of `int64_t`. -/
def square64 (d : ℤ) : Checked ℕ := if d * d < 2 ^ 63 then .ok (d * d).toNat else .error .overflow

/-- `ratio_q16` -/
def checkedRatioQ16 (n d : Word) : Checked Word :=
  if d = 0 then pure 0 else do narrow32 (← div64 (← shl64 n.toNat 16) d.toNat)

/-- `angular_chi2_q16`: the value and the status. -/
def angularChi2Q16 (hist : Vector Word 8) (n : ℕ) (status : Word) : Checked (Word × Word) :=
  if n = 0 then pure (0, status)
  else do
    let status := if 1000000 < n then status ||| statusAngleSaturated else status
    let n := if 1000000 < n then 1000000 else n
    let num ← hist.toList.foldlM (fun num x => do
      let scaled ← Checked.mul .overflow 32 8 x.toNat
      add64 num (← square64 (scaled - n))) 0
    let den ← mul64 8 n
    let whole ← div64 num den
    let rem := num % den
    if 0xffff < whole then pure (0xffffffff, status)
    else do
      let q ← add64 (← shl64 whole 16) (← div64 (← shl64 rem 16) den)
      pure (if 0xffffffff < q then 0xffffffff else UInt32.ofNat q, status)

def angularConcentrationQ16 (hist : Vector Word 8) (n : ℕ) : Checked Word :=
  if n = 0 then pure 0
  else do
    let m := hist.toList.tail.foldl (fun m x => if m < x then x else m) (hist.toList.headD 0)
    let s ← mul64 m.toNat 8
    if s ≤ n then pure 0
    else do narrow32 (← div64 (← shl64 (← sub64 s n) 16) (← mul64 7 n))

/-! ### Descriptors -/

/-- `if (r[x] <= o->otsu_threshold) o->foreground_count++;` -/
def countForeground (threshold : Byte) (ps : List Byte) : Checked ℕ :=
  ps.foldlM (fun n p => if p ≤ threshold then add32 n 1 else pure n) 0

/-- The checksum of the fields. -/
def fieldsCrc (o : VisionDescriptor) : Word :=
  let words := [o.width, o.height, o.pixelCount, o.foregroundCount, o.foregroundQ16,
    o.angleCount] ++ o.angleHist.toList ++
      [o.angularChi2Q16, o.angularConcentrationQ16, o.grayCrc32c]
  Visual.crc32cUpdate (words.foldl Visual.crcU32 0xffffffff) [o.otsuThreshold] ^^^ 0xffffffff

/-- `RmR_Vision_BuildDescriptor`: what `*o` is; its status is returned. -/
def buildDescriptor (g : Option (List Byte)) (w h stride : Word) (angles : Option (List Int16))
    (angleCount : Word) : Checked VisionDescriptor :=
  let o := { VisionDescriptor.zero with width := w, height := h }
  if g = none ∨ w = 0 ∨ h = 0 ∨ stride < w ∨ (angles = none ∧ angleCount ≠ 0) then
    pure { o with status := statusBadArgument }
  else do
    let pc ← mul64 w.toNat h.toNat
    if 0xffffffff < pc then pure { o with status := statusCounterSaturated }
    else do
      let pixelCount := UInt32.ofNat pc
      let (otsuThreshold, status) ← otsuThreshold g w h stride
      let gray := g.getD []
      let grayCrc32c :=
        (rows gray w h stride).foldl Visual.crc32cUpdate 0xffffffff ^^^ 0xffffffff
      let foregroundCount ← countForeground otsuThreshold (pixels gray w h stride)
      let foregroundQ16 ← checkedRatioQ16 (UInt32.ofNat foregroundCount) pixelCount
      let used : Word := if 1000000 < angleCount then 1000000 else angleCount
      let status := if used ≠ angleCount then status ||| statusAngleSaturated else status
      let usedAngles := (List.range used.toNat).map fun i => (angles.getD []).getD i 0
      let (angleHist, status) := usedAngles.foldl countAngle (Vector.replicate 8 0, status)
      let (angularChi2Q16, status) ← angularChi2Q16 angleHist used.toNat status
      let angularConcentrationQ16 ← angularConcentrationQ16 angleHist used.toNat
      let o := { o with
        pixelCount := pixelCount
        otsuThreshold := otsuThreshold
        grayCrc32c := grayCrc32c
        foregroundCount := UInt32.ofNat foregroundCount
        foregroundQ16 := foregroundQ16
        angleCount := used
        angleHist := angleHist
        angularChi2Q16 := angularChi2Q16
        angularConcentrationQ16 := angularConcentrationQ16
        status := status }
      pure { o with descriptorCrc32c := fieldsCrc o }

/-! ### Nothing overflows -/

theorem narrow32_eq {x : ℕ} (h : x < 2 ^ 32) : narrow32 x = .ok (UInt32.ofNat x) := if_pos h

theorem countForeground_eq {threshold : Byte} {ps : List Byte} (h : ps.length < 2 ^ 32) :
    countForeground threshold ps = .ok (ps.countP fun p => p ≤ threshold) := by
  have hloop : ∀ (ps : List Byte) (n : ℕ), n + ps.length < 2 ^ 32 →
      ps.foldlM (fun n p => if p ≤ threshold then add32 n 1 else pure n) n =
        .ok (n + ps.countP fun p => p ≤ threshold) := by
    intro ps
    induction ps with
    | nil => intro n _; rfl
    | cons p ps ih =>
        intro n hn
        rw [List.length_cons] at hn
        rw [List.foldlM_cons, List.countP_cons]
        by_cases hp : p ≤ threshold
        · rw [if_pos hp, add32, Checked.add_eq _ (by omega), Checked.ok_bind, ih _ (by omega),
            decide_eq_true hp, if_pos rfl]
          congr 1
          omega
        · rw [if_neg hp, decide_eq_false hp, if_neg Bool.false_ne_true]
          exact ih n (by omega)
  rw [countForeground, hloop ps 0 (by omega), Nat.zero_add]

/-- The ratio of a part to its whole, and its checked computation. -/
theorem checkedRatioQ16_eq {n d : Word} (h : n ≤ d) :
    checkedRatioQ16 n d = .ok (ratioQ16 n d) ∧ (ratioQ16 n d).toNat ≤ 65536 := by
  have hle := FixedPoint.ratio_le (k := 16) (by decide) h
  refine ⟨?_, hle⟩
  have hvalue := FixedPoint.toNat_ratio (k := 16) (by decide) h
  have hn := n.toNat_lt
  rw [checkedRatioQ16]
  by_cases hd : d = 0
  · rw [if_pos hd, hd]
    rfl
  · have hpos : d.toNat ≠ 0 := fun hzero => hd (UInt32.toNat_inj.mp hzero)
    rw [if_neg hd, shl64, Checked.shiftLeft_eq _ (by omega), Checked.ok_bind, div64,
      Checked.div_eq _ hpos, Checked.ok_bind, ← hvalue, narrow32_eq (by omega), UInt32.ofNat_toNat]
    rfl

/-- How many angles a histogram holds. -/
def counted (hist : Vector Word 8) : ℕ := (hist.toList.map UInt32.toNat).sum

theorem get_le_counted (hist : Vector Word 8) (b : Fin 8) : (hist.get b).toNat ≤ counted hist := by
  refine FixedPoint.le_sum ?_
  simp [Vector.get]

theorem headD_le_counted (hist : Vector Word 8) : (hist.toList.headD 0).toNat ≤ counted hist := by
  rw [counted]
  cases hist.toList with
  | nil => exact Nat.zero_le _
  | cons x xs => exact Nat.le_add_right x.toNat _

theorem counted_set (hist : Vector Word 8) (b : Fin 8) (x : Word) :
    counted (hist.set b.val x b.isLt) + (hist.get b).toNat = counted hist + x.toNat := by
  have hlength : b.val < hist.toList.length := by
    rw [Vector.length_toList]
    exact b.isLt
  have hset := FixedPoint.sum_set_add hlength x
  have hget : hist.toList[b.val] = hist.get b := by simp [Vector.get]
  rw [hget] at hset
  rw [counted, Vector.toList_set]
  exact hset

/-- One angle more, as long as no counter can be full. -/
theorem countAngle_eq {hist : Vector Word 8} {status : Word} (h : counted hist < 1000000)
    (deg : Int16) :
    (countAngle (hist, status) deg).2 = status ∧
      counted (countAngle (hist, status) deg).1 = counted hist + 1 := by
  have hle := get_le_counted hist (angleBin deg)
  have hset := counted_set hist (angleBin deg)
    (FixedPoint.clamp ((hist.get (angleBin deg)).toNat + 1))
  have hadd := satadd32_clamp (hist.get (angleBin deg)).toNat status
  rw [saturation, if_neg (by omega), UInt32.or_zero, FixedPoint.clamp_toNat] at hadd
  rw [FixedPoint.toNat_clamp_of_lt (by omega)] at hset
  simp only [countAngle, hadd, true_and]
  omega

theorem countAngles_eq {angles : List Int16} {hist : Vector Word 8} {status : Word}
    (h : counted hist + angles.length ≤ 1000000) :
    (angles.foldl countAngle (hist, status)).2 = status ∧
      counted (angles.foldl countAngle (hist, status)).1 = counted hist + angles.length := by
  induction angles generalizing hist with
  | nil => exact ⟨rfl, rfl⟩
  | cons deg angles ih =>
      rw [List.length_cons] at h ⊢
      obtain ⟨hstatus, hcounted⟩ := @countAngle_eq hist status (by omega) deg
      obtain ⟨next, hnext⟩ : ∃ next, next = (countAngle (hist, status) deg).1 := ⟨_, rfl⟩
      have hstep : countAngle (hist, status) deg = (next, status) :=
        Prod.ext hnext.symm hstatus
      rw [List.foldl_cons, hstep]
      rw [← hnext] at hcounted
      obtain ⟨hstatus', hcounted'⟩ := @ih next (by omega)
      exact ⟨hstatus', by omega⟩

theorem square64_eq {d : ℤ} (hlow : -8000000 ≤ d) (hhigh : d ≤ 8000000) :
    square64 d = .ok (d * d).toNat ∧ (d * d).toNat ≤ 8000000 * 8000000 := by
  have hsquare : d * d ≤ 8000000 * 8000000 :=
    Int.natAbs_le_iff_mul_self_le.mp (show d.natAbs ≤ 8000000 by omega)
  exact ⟨if_pos (by omega), by omega⟩

/-- The squares of eight numbers below `2 ^ 23` add up. -/
theorem foldlM_squares {n : ℕ} (hn : n ≤ 1000000) (xs : List Word)
    (hxs : ∀ x ∈ xs, x.toNat ≤ 1000000) (num : ℕ)
    (hnum : num + xs.length * (8000000 * 8000000) ≤ 8 * (8000000 * 8000000)) :
    ∃ v, v ≤ 8 * (8000000 * 8000000) ∧ xs.foldlM (fun num x => do
      let scaled ← Checked.mul .overflow 32 8 x.toNat
      add64 num (← square64 (scaled - n))) num = (.ok v : Checked ℕ) := by
  induction xs generalizing num with
  | nil => exact ⟨num, by omega, rfl⟩
  | cons x xs ih =>
      have hx := hxs x List.mem_cons_self
      rw [List.length_cons] at hnum
      obtain ⟨hsquare, hle⟩ := square64_eq (d := (8 * x.toNat : ℕ) - n) (by omega) (by omega)
      obtain ⟨v, hv, hrest⟩ := ih (fun y hy => hxs y (List.mem_cons_of_mem x hy)) _
        (show num + (((8 * x.toNat : ℕ) - (n : ℤ)) * ((8 * x.toNat : ℕ) - n)).toNat +
          xs.length * (8000000 * 8000000) ≤ 8 * (8000000 * 8000000) by omega)
      refine ⟨v, hv, ?_⟩
      rw [List.foldlM_cons, Checked.mul_eq _ (by omega), Checked.ok_bind, hsquare,
        Checked.ok_bind, add64, Checked.add_eq _ (by omega), Checked.ok_bind]
      exact hrest

theorem angularChi2Q16_ok {hist : Vector Word 8} (h : counted hist ≤ 1000000) (status : Word) :
    ∃ v, angularChi2Q16 hist (counted hist) status = .ok (v, status) := by
  rw [angularChi2Q16]
  by_cases hzero : counted hist = 0
  · rw [if_pos hzero]
    exact ⟨_, rfl⟩
  have hxs : ∀ x ∈ hist.toList, x.toNat ≤ 1000000 := fun x hx => (FixedPoint.le_sum hx).trans h
  obtain ⟨num, hnum, hloop⟩ := foldlM_squares h hist.toList hxs 0
    (by rw [Vector.length_toList, Nat.zero_add])
  rw [if_neg hzero]
  simp only [if_neg (show ¬1000000 < counted hist by omega)]
  rw [hloop, Checked.ok_bind, mul64, Checked.mul_eq _ (by omega), Checked.ok_bind, div64,
    Checked.div_eq _ (by omega), Checked.ok_bind]
  have hrem := Nat.mod_lt num (show 0 < 8 * counted hist by omega)
  by_cases hwhole : 0xffff < num / (8 * counted hist)
  · rw [if_pos hwhole]
    exact ⟨_, rfl⟩
  have hquotient : num % (8 * counted hist) * 2 ^ 16 / (8 * counted hist) ≤ 2 ^ 16 :=
    FixedPoint.div_le_of_le hrem.le
  rw [if_neg hwhole, shl64, Checked.shiftLeft_eq _ (by omega), Checked.ok_bind, shl64,
    Checked.shiftLeft_eq _ (by omega), Checked.ok_bind, div64, Checked.div_eq _ (by omega),
    Checked.ok_bind, add64, Checked.add_eq _ (by omega), Checked.ok_bind]
  exact ⟨_, rfl⟩

theorem angularConcentrationQ16_ok {hist : Vector Word 8} (h : counted hist ≤ 1000000) :
    ∃ v, angularConcentrationQ16 hist (counted hist) = .ok v ∧ v.toNat ≤ 65536 := by
  rw [angularConcentrationQ16]
  by_cases hzero : counted hist = 0
  · rw [if_pos hzero]
    exact ⟨_, rfl, by simp⟩
  obtain ⟨m, hm⟩ : ∃ m,
      m = hist.toList.tail.foldl (fun m x => if m < x then x else m) (hist.toList.headD 0) :=
    ⟨_, rfl⟩
  have hle : m.toNat ≤ counted hist := by
    have hmax := (@WordArith.foldl_better_spec Word (fun a b => b ≤ a)
      (fun x m => m < x) _ UInt32.le_refl (fun hab hbc => UInt32.le_trans hbc hab)
      UInt32.le_of_lt UInt32.not_lt.mp hist.toList.tail (hist.toList.headD 0)).1
    rw [← hm] at hmax
    rcases List.mem_cons.mp hmax with hfirst | hrest
    · rw [hfirst]
      exact headD_le_counted hist
    · exact FixedPoint.le_sum (List.mem_of_mem_tail hrest)
  have hquotient : (m.toNat * 8 - counted hist) * 2 ^ 16 / (7 * counted hist) ≤ 2 ^ 16 :=
    FixedPoint.div_le_of_le (by omega)
  rw [if_neg hzero]
  dsimp only
  rw [← hm, mul64, Checked.mul_eq _ (by omega), Checked.ok_bind]
  by_cases hlow : m.toNat * 8 ≤ counted hist
  · rw [if_pos hlow]
    exact ⟨_, rfl, by simp⟩
  rw [if_neg hlow, sub64, Checked.sub_eq _ (by omega), Checked.ok_bind, shl64,
    Checked.shiftLeft_eq _ (by omega), Checked.ok_bind, mul64, Checked.mul_eq _ (by omega),
    Checked.ok_bind, div64, Checked.div_eq _ (by omega), Checked.ok_bind, narrow32_eq (by omega)]
  refine ⟨_, rfl, ?_⟩
  rw [UInt32.toNat_ofNat_of_lt' (show _ < 2 ^ 32 by omega)]
  exact hquotient

theorem counted_zero : counted (Vector.replicate 8 0) = 0 := rfl

theorem toNat_usedCount (angleCount : Word) :
    (if 1000000 < angleCount then 1000000 else angleCount : Word).toNat =
      min angleCount.toNat 1000000 := by
  split
  · next h => exact (Nat.min_eq_right (Nat.le_of_lt h)).symm
  · next h => exact (Nat.min_eq_left (Nat.not_lt.mp h)).symm

/-- The histogram of the angles that are used. -/
theorem countUsed_eq (angles : List Int16) {used : Word} (h : used.toNat ≤ 1000000)
    (status : Word) :
    ∃ hist, ((List.range used.toNat).map fun i => angles.getD i 0).foldl countAngle
      (Vector.replicate 8 0, status) = (hist, status) ∧ counted hist = used.toNat := by
  have hlength : ((List.range used.toNat).map fun i => angles.getD i 0).length = used.toNat := by
    rw [List.length_map, List.length_range]
  obtain ⟨hsame, hcounted⟩ := @countAngles_eq ((List.range used.toNat).map fun i => angles.getD i 0)
    (Vector.replicate 8 0) status (by rwa [counted_zero, Nat.zero_add, hlength])
  rw [counted_zero, Nat.zero_add, hlength] at hcounted
  exact ⟨_, Prod.ext rfl hsame, hcounted⟩

/-- There are no more foreground pixels than pixels. -/
theorem countForeground_le (threshold : Byte) {ps : List Byte} (h : ps.length < 2 ^ 32) :
    UInt32.ofNat (ps.countP fun p => p ≤ threshold) ≤ UInt32.ofNat ps.length := by
  have hle : (ps.countP fun p => p ≤ threshold) ≤ ps.length := List.countP_le_length
  rw [UInt32.le_iff_toNat_le, UInt32.toNat_ofNat_of_lt' (lt_of_le_of_lt hle h),
    UInt32.toNat_ofNat_of_lt' h]
  exact hle

/-- What the fields of a descriptor that was built have to do with each other. -/
structure Built (d : VisionDescriptor) : Prop where
  angles : counted d.angleHist = d.angleCount.toNat
  angleCount : d.angleCount.toNat ≤ 1000000
  foregroundCount : d.foregroundCount ≤ d.pixelCount
  foregroundQ16 : d.foregroundQ16.toNat ≤ 65536
  concentration : d.angularConcentrationQ16.toNat ≤ 65536

/-- The descriptor that is left when an argument is bad. -/
theorem built_zero (w h status : Word) :
    Built { VisionDescriptor.zero with width := w, height := h, status := status } where
  angles := counted_zero
  angleCount := Nat.zero_le _
  foregroundCount := UInt32.le_refl 0
  foregroundQ16 := Nat.zero_le _
  concentration := Nat.zero_le _

/-- The arguments are good. -/
structure Describable (g : Option (List Byte)) (w h stride : Word) (angles : Option (List Int16))
    (angleCount : Word) : Prop where
  image : g ≠ none
  width : w ≠ 0
  height : h ≠ 0
  stride_le : w ≤ stride
  angles : angles = none → angleCount = 0
  pixels : w.toNat * h.toNat < 2 ^ 32

theorem buildDescriptor_built (g : Option (List Byte)) (w h stride : Word)
    (angles : Option (List Int16)) (angleCount : Word) :
    ∃ d, buildDescriptor g w h stride angles angleCount = .ok d ∧ Built d ∧
      (Describable g w h stride angles angleCount → d.pixelCount.toNat = w.toNat * h.toNat ∧
        d.angleCount.toNat = min angleCount.toNat 1000000) := by
  rw [buildDescriptor]
  dsimp only
  -- what is refused leaves a descriptor of zeros
  by_cases hbad : g = none ∨ w = 0 ∨ h = 0 ∨ stride < w ∨ (angles = none ∧ angleCount ≠ 0)
  · rw [if_pos hbad]
    refine ⟨_, rfl, built_zero w h _, fun hgood => ?_⟩
    rcases hbad with himage | hwidth | hheight | hstride | ⟨hangles, hcount⟩
    · exact absurd himage hgood.image
    · exact absurd hwidth hgood.width
    · exact absurd hheight hgood.height
    · exact absurd hstride (UInt32.not_lt.mpr hgood.stride_le)
    · exact absurd (hgood.angles hangles) hcount
  rw [if_neg hbad, mul64, Checked.mul_eq _ (mul_lt_two_pow w h), Checked.ok_bind]
  by_cases hlarge : 0xffffffff < w.toNat * h.toNat
  · rw [if_pos hlarge]
    refine ⟨_, rfl, built_zero w h _, fun hgood => ?_⟩
    have hpixels := hgood.pixels
    omega
  rw [if_neg hlarge]
  obtain ⟨t, status, hotsu, -⟩ := otsuThreshold_spec g w h stride
  rw [hotsu, Checked.ok_bind]
  dsimp only
  have hlength := length_pixels (g.getD []) w h stride
  rw [Nat.mul_comm] at hlength
  have hpixels : (pixels (g.getD []) w h stride).length < 2 ^ 32 := by omega
  rw [countForeground_eq hpixels, Checked.ok_bind]
  have hcount := countForeground_le t hpixels
  rw [hlength] at hcount
  obtain ⟨hratio, hratioLe⟩ := checkedRatioQ16_eq hcount
  rw [hratio, Checked.ok_bind]
  -- the angles behind the first 1000000 are not counted
  obtain ⟨used, hused⟩ : ∃ used, used = if 1000000 < angleCount then 1000000 else angleCount :=
    ⟨_, rfl⟩
  have husedNat : used.toNat = min angleCount.toNat 1000000 := by
    rw [hused]
    exact toNat_usedCount angleCount
  have husedLe : used.toNat ≤ 1000000 := husedNat ▸ Nat.min_le_right _ _
  obtain ⟨status', hstatus'⟩ : ∃ status',
      status' = if used ≠ angleCount then status ||| statusAngleSaturated else status := ⟨_, rfl⟩
  obtain ⟨hist, hhist, hcounted⟩ := countUsed_eq (angles.getD []) husedLe status'
  rw [← hused, ← hstatus', hhist]
  obtain ⟨chi2, hchi2⟩ := @angularChi2Q16_ok hist (by rw [hcounted]; exact husedLe) status'
  obtain ⟨concentration, hconcentration, hconcentrationLe⟩ :=
    @angularConcentrationQ16_ok hist (by rw [hcounted]; exact husedLe)
  rw [hcounted] at hchi2 hconcentration
  dsimp only
  rw [hchi2, Checked.ok_bind]
  dsimp only
  rw [hconcentration, Checked.ok_bind]
  refine ⟨_, rfl, ⟨hcounted, husedLe, hcount, hratioLe, hconcentrationLe⟩, fun _ => ⟨?_, husedNat⟩⟩
  exact UInt32.toNat_ofNat_of_lt' (by change w.toNat * h.toNat < 2 ^ 32; omega)

/-- A descriptor that is built from an image and angles. -/
def IsDescriptor (d : VisionDescriptor) : Prop :=
  ∃ g w h stride angles angleCount, buildDescriptor g w h stride angles angleCount = .ok d

theorem IsDescriptor.built {d : VisionDescriptor} (h : IsDescriptor d) : Built d := by
  obtain ⟨g, w, h, stride, angles, angleCount, hd⟩ := h
  obtain ⟨d', hd', hbuilt, -⟩ := buildDescriptor_built g w h stride angles angleCount
  rw [hd] at hd'
  rwa [Except.ok.inj hd']

/-! ### Differences -/

def absdiff32 (a b : Word) : Word := if b ≤ a then a - b else b - a

/-- How far the thresholds are apart. -/
def thresholdDifference (a b : VisionDescriptor) : Word :=
  (absdiff32 a.otsuThreshold.toUInt32 b.otsuThreshold.toUInt32 <<< 16) / 255

/-- How far bin `i` of the histograms is apart. -/
def binDifference (a b : VisionDescriptor) (i : Fin 8) : Word :=
  absdiff32 (ratioQ16 (a.angleHist.get i) a.angleCount) (ratioQ16 (b.angleHist.get i) b.angleCount)

/-- Half the sum over the bins. -/
def angleDifference (a b : VisionDescriptor) : UInt64 :=
  if a.angleCount ≠ 0 ∨ b.angleCount ≠ 0 then
    let tv := (List.finRange 8).foldl (fun tv i => tv + (binDifference a b i).toUInt64) 0 >>> 1
    if 65536 < tv then 65536 else tv
  else 0

/-- `RmR_Vision_DifferenceQ16`, neither of its pointers being null. -/
def differenceQ16 (a b : VisionDescriptor) : Word :=
  (((thresholdDifference a b).toUInt64 + (absdiff32 a.foregroundQ16 b.foregroundQ16).toUInt64 +
    angleDifference a b) / 3).toUInt32

/-- Half the sum over the bins, where every result has to fit. -/
def checkedAngleDifference (a b : VisionDescriptor) : Checked ℕ :=
  if a.angleCount ≠ 0 ∨ b.angleCount ≠ 0 then do
    let tv ← (List.finRange 8).foldlM (fun tv i => do
      let x ← checkedRatioQ16 (a.angleHist.get i) a.angleCount
      let y ← checkedRatioQ16 (b.angleHist.get i) b.angleCount
      add64 tv (absdiff32 x y).toNat) 0
    pure (if 65536 < tv >>> 1 then 65536 else tv >>> 1)
  else pure 0

/-- `RmR_Vision_DifferenceQ16`, where every result has to fit. -/
def checkedDifferenceQ16 (a b : VisionDescriptor) : Checked Word := do
  let th ← div64 (← Checked.shiftLeft .overflow 32
    (absdiff32 a.otsuThreshold.toUInt32 b.otsuThreshold.toUInt32).toNat 16) 255
  let tv ← checkedAngleDifference a b
  narrow32 (← div64
    (← add64 (← add64 th (absdiff32 a.foregroundQ16 b.foregroundQ16).toNat) tv) 3)

theorem absdiff32_comm (a b : Word) : absdiff32 a b = absdiff32 b a := by
  rw [absdiff32, absdiff32]
  split_ifs with hba hab hab
  · rw [UInt32.le_antisymm hab hba]
  · rfl
  · rfl
  · exact absurd (UInt32.le_total a b) (by simp [hab, hba])

theorem absdiff32_self (a : Word) : absdiff32 a a = 0 := by
  rw [absdiff32, if_pos (UInt32.le_refl a), UInt32.sub_self]

theorem absdiff32_le {a b : Word} {k : ℕ} (ha : a.toNat ≤ k) (hb : b.toNat ≤ k) :
    (absdiff32 a b).toNat ≤ k := by
  rw [absdiff32]
  split_ifs with hba
  · rw [UInt32.toNat_sub_of_le _ _ hba]
    omega
  · rw [UInt32.toNat_sub_of_le _ _ (UInt32.le_of_lt (UInt32.not_le.mp hba))]
    omega

theorem toNat_thresholdDifference (a b : VisionDescriptor) :
    (absdiff32 a.otsuThreshold.toUInt32 b.otsuThreshold.toUInt32).toNat ≤ 255 ∧
      (thresholdDifference a b).toNat =
        (absdiff32 a.otsuThreshold.toUInt32 b.otsuThreshold.toUInt32).toNat * 2 ^ 16 / 255 := by
  have hle : (absdiff32 a.otsuThreshold.toUInt32 b.otsuThreshold.toUInt32).toNat ≤ 255 :=
    absdiff32_le (Nat.le_of_lt_succ a.otsuThreshold.toNat_lt)
      (Nat.le_of_lt_succ b.otsuThreshold.toNat_lt)
  refine ⟨hle, ?_⟩
  rw [thresholdDifference, UInt32.toNat_div, UInt32.toNat_shiftLeft, Nat.shiftLeft_eq]
  change _ * 2 ^ 16 % 2 ^ 32 / 255 = _
  rw [Nat.mod_eq_of_lt (by omega)]

theorem angleDifference_le (a b : VisionDescriptor) : (angleDifference a b).toNat ≤ 65536 := by
  rw [angleDifference]
  dsimp only
  split_ifs with hangles hlarge
  · exact Nat.le_refl _
  · exact UInt64.le_iff_toNat_le.mp (UInt64.not_lt.mp hlarge)
  · exact Nat.zero_le _

/-- The difference of any descriptors is a third of three terms. -/
theorem toNat_differenceQ16 (a b : VisionDescriptor) :
    (differenceQ16 a b).toNat = ((thresholdDifference a b).toNat +
      (absdiff32 a.foregroundQ16 b.foregroundQ16).toNat + (angleDifference a b).toNat) / 3 := by
  have hth := (thresholdDifference a b).toNat_lt
  have hfg := (absdiff32 a.foregroundQ16 b.foregroundQ16).toNat_lt
  have htv := angleDifference_le a b
  obtain ⟨hthLe, hthEq⟩ := toNat_thresholdDifference a b
  have hsum : ((thresholdDifference a b).toUInt64 +
      (absdiff32 a.foregroundQ16 b.foregroundQ16).toUInt64 + angleDifference a b).toNat =
      (thresholdDifference a b).toNat + (absdiff32 a.foregroundQ16 b.foregroundQ16).toNat +
        (angleDifference a b).toNat := by
    rw [UInt64.toNat_add, UInt64.toNat_add, UInt32.toNat_toUInt64, UInt32.toNat_toUInt64,
      Nat.mod_add_mod]
    exact Nat.mod_eq_of_lt (by omega)
  rw [differenceQ16, UInt64.toNat_toUInt32, UInt64.toNat_div, hsum]
  exact Nat.mod_eq_of_lt (show _ / 3 < 2 ^ 32 by omega)

theorem differenceQ16_lt (a b : VisionDescriptor) : (differenceQ16 a b).toNat < 0xffffffff := by
  have hfg := (absdiff32 a.foregroundQ16 b.foregroundQ16).toNat_lt
  have htv := angleDifference_le a b
  obtain ⟨hthLe, hthEq⟩ := toNat_thresholdDifference a b
  rw [toNat_differenceQ16]
  omega

theorem differenceQ16_comm (a b : VisionDescriptor) : differenceQ16 a b = differenceQ16 b a := by
  have hbins : binDifference a b = binDifference b a := funext fun i => absdiff32_comm _ _
  have hangles : angleDifference a b = angleDifference b a := by
    rw [angleDifference, angleDifference, hbins]
    simp only [or_comm]
  rw [differenceQ16, differenceQ16, thresholdDifference, thresholdDifference, hangles,
    absdiff32_comm a.foregroundQ16, absdiff32_comm a.otsuThreshold.toUInt32]

theorem differenceQ16_eq_zero {a b : VisionDescriptor} (hth : a.otsuThreshold = b.otsuThreshold)
    (hfg : a.foregroundQ16 = b.foregroundQ16)
    (hangles : ∀ i, ratioQ16 (a.angleHist.get i) a.angleCount =
      ratioQ16 (b.angleHist.get i) b.angleCount) : differenceQ16 a b = 0 := by
  have hbins : binDifference a b = fun _ => 0 := by
    funext i
    rw [binDifference, hangles, absdiff32_self]
  have htv : angleDifference a b = 0 := by
    rw [angleDifference, hbins]
    split_ifs <;> rfl
  rw [differenceQ16, thresholdDifference, hth, hfg, absdiff32_self, absdiff32_self, htv]
  rfl

section Built

variable {a b : VisionDescriptor}

theorem Built.ratio (h : Built a) (i : Fin 8) :
    checkedRatioQ16 (a.angleHist.get i) a.angleCount =
        .ok (ratioQ16 (a.angleHist.get i) a.angleCount) ∧
      (ratioQ16 (a.angleHist.get i) a.angleCount).toNat ≤ 65536 :=
  checkedRatioQ16_eq (UInt32.le_iff_toNat_le.mpr ((get_le_counted _ i).trans h.angles.le))

theorem Built.binDifference_le (ha : Built a) (hb : Built b) (i : Fin 8) :
    (binDifference a b i).toNat ≤ 65536 :=
  absdiff32_le (ha.ratio i).2 (hb.ratio i).2

/-- The sum over some bins, from `tv` on. -/
theorem Built.foldlM_bins (ha : Built a) (hb : Built b) (bins : List (Fin 8)) (tv : UInt64)
    (htv : tv.toNat + bins.length * 65536 < 2 ^ 64) :
    bins.foldlM (fun tv i => do
      let x ← checkedRatioQ16 (a.angleHist.get i) a.angleCount
      let y ← checkedRatioQ16 (b.angleHist.get i) b.angleCount
      add64 tv (absdiff32 x y).toNat) tv.toNat =
        .ok (bins.foldl (fun tv i => tv + (binDifference a b i).toUInt64) tv).toNat := by
  induction bins generalizing tv with
  | nil => rfl
  | cons i bins ih =>
      have hle := ha.binDifference_le hb i
      rw [List.length_cons] at htv
      have hadd : (tv + (binDifference a b i).toUInt64).toNat =
          tv.toNat + (binDifference a b i).toNat := by
        rw [UInt64.toNat_add, UInt32.toNat_toUInt64]
        exact Nat.mod_eq_of_lt (by omega)
      rw [List.foldlM_cons, (ha.ratio i).1, Checked.ok_bind, (hb.ratio i).1, Checked.ok_bind,
        ← binDifference, add64, Checked.add_eq _ (by omega), Checked.ok_bind, ← hadd]
      exact ih _ (by omega)

theorem Built.checkedAngleDifference_eq (ha : Built a) (hb : Built b) :
    checkedAngleDifference a b = .ok (angleDifference a b).toNat := by
  rw [checkedAngleDifference, angleDifference]
  by_cases hangles : a.angleCount ≠ 0 ∨ b.angleCount ≠ 0
  · have hsum := ha.foldlM_bins hb (List.finRange 8) 0 (by simp)
    rw [UInt64.toNat_zero] at hsum
    rw [if_pos hangles, if_pos hangles, hsum, Checked.ok_bind]
    obtain ⟨tv, htv⟩ : ∃ tv, tv =
        (List.finRange 8).foldl (fun tv i => tv + (binDifference a b i).toUInt64) 0 := ⟨_, rfl⟩
    have hhalf : (tv >>> 1).toNat = tv.toNat >>> 1 := UInt64.toNat_shiftRight tv 1
    rw [← htv, ← hhalf]
    dsimp only
    by_cases hlarge : (65536 : UInt64) < tv >>> 1
    · have hlt : 65536 < (tv >>> 1).toNat := UInt64.lt_iff_toNat_lt.mp hlarge
      rw [if_pos hlarge, if_pos hlt]
      rfl
    · have hle : ¬65536 < (tv >>> 1).toNat := fun hlt => hlarge (UInt64.lt_iff_toNat_lt.mpr hlt)
      rw [if_neg hlarge, if_neg hle]
      rfl
  · rw [if_neg hangles, if_neg hangles]
    rfl

/-- Nothing overflows in the difference of descriptors that were built, and each of its three
terms is at most one. -/
theorem Built.differenceQ16_eq (ha : Built a) (hb : Built b) :
    checkedDifferenceQ16 a b = .ok (differenceQ16 a b) ∧ (differenceQ16 a b).toNat ≤ 65536 := by
  have hfg := absdiff32_le ha.foregroundQ16 hb.foregroundQ16
  have htv := angleDifference_le a b
  obtain ⟨hthLe, hthEq⟩ := toNat_thresholdDifference a b
  have hvalue := toNat_differenceQ16 a b
  refine ⟨?_, by omega⟩
  rw [checkedDifferenceQ16, Checked.shiftLeft_eq _ (by omega), Checked.ok_bind, div64,
    Checked.div_eq _ (by decide), Checked.ok_bind, ← hthEq, ha.checkedAngleDifference_eq hb,
    Checked.ok_bind, add64, Checked.add_eq _ (by omega), Checked.ok_bind, add64,
    Checked.add_eq _ (by omega), Checked.ok_bind, div64, Checked.div_eq _ (by decide),
    Checked.ok_bind, ← hvalue, narrow32_eq (UInt32.toNat_lt _), UInt32.ofNat_toNat]

end Built

/-- No result is too large for its word and nothing is divided by zero, whatever the image and
the angles. The threshold of an image with two gray levels has pixels on both of its sides,
the histogram holds the angles that are counted, and the ratios are at most one. From good
arguments all pixels are counted, and the angles up to a million. -/
theorem buildDescriptor_spec (g : Option (List Byte)) (w h stride : Word)
    (angles : Option (List Int16)) (angleCount : Word) :
    (∃ t status, otsuThreshold g w h stride = .ok (t, status) ∧
      ∀ bytes ∈ g, w ≤ stride → w.toNat * h.toNat < 2 ^ 32 →
        (∃ p ∈ pixels bytes w h stride, ∃ q ∈ pixels bytes w h stride, p ≠ q) →
          (∃ p ∈ pixels bytes w h stride, p ≤ t) ∧ ∃ p ∈ pixels bytes w h stride, t < p) ∧
    ∃ d, buildDescriptor g w h stride angles angleCount = .ok d ∧
      (d.angleHist.toList.map UInt32.toNat).sum = d.angleCount.toNat ∧
      d.angleCount.toNat ≤ 1000000 ∧ d.foregroundCount ≤ d.pixelCount ∧
      d.foregroundQ16.toNat ≤ 65536 ∧ d.angularConcentrationQ16.toNat ≤ 65536 ∧
      (Describable g w h stride angles angleCount → d.pixelCount.toNat = w.toNat * h.toNat ∧
        d.angleCount.toNat = min angleCount.toNat 1000000) := by
  obtain ⟨t, status, hotsu, hsplits⟩ := otsuThreshold_spec g w h stride
  obtain ⟨d, hd, hbuilt, hcounts⟩ := buildDescriptor_built g w h stride angles angleCount
  exact ⟨⟨t, status, hotsu, hsplits⟩, d, hd, hbuilt.angles, hbuilt.angleCount,
    hbuilt.foregroundCount, hbuilt.foregroundQ16, hbuilt.concentration, hcounts⟩

end Blake3.Stability
