import Blake3.Pai42.Kernel

/-!
`build_geometry` of `pai42_bridge.py`, which makes the report of the kernel with
unbounded integers. The directions that it gets from `math.cos` and `math.sin`
are parameters.
-/

namespace Blake3.Pai42

open WordArith

namespace Bridge

def q16One : ℤ := 65536

structure Record where
  k : ℤ
  cycle : ℤ
  par : ℤ

structure Decoded where
  format : String
  hwSig64 : ℤ
  records : List Record

structure Point where
  index : ℕ
  k : ℤ
  cycle : ℤ
  par : ℤ
  radiusQ16 : ℤ
  xQ16 : ℤ
  yQ16 : ℤ

structure Geometry where
  sourceFormat : String
  hwSig64 : ℤ
  minCycle : ℤ
  maxCycle : ℤ
  meanRadiusQ16 : ℤ
  varianceQ16 : ℤ
  symmetryQ16 : ℤ
  stabilityQ16 : ℤ
  prototypeScoreQ16 : ℤ
  points : List Point

/-- `build_geometry`; there is no result where an index or an empty list raises. -/
def buildGeometry (cos sin : ℕ → ℤ) (decoded : Decoded) : Option Geometry := do
  let cycles := decoded.records.map Record.cycle
  let minimum ← cycles.min?
  let maximum ← cycles.max?
  let span := maximum - minimum
  let radii := if span = 0 then List.replicate 42 (q16One.fdiv 2)
    else cycles.map fun cycle => ((cycle - minimum) * q16One).fdiv span
  let meanRadius := radii.sum.fdiv 42
  let variance := min q16One ((radii.map fun r => (r - meanRadius) ^ 2).sum.fdiv (42 * q16One))
  let errors ← (List.range 21).mapM fun i => do
    let a ← radii[i]?
    let b ← radii[i + 21]?
    pure |a - b|
  let symmetry := q16One - min q16One (errors.sum.fdiv 21)
  let stability := q16One - variance
  let score := (55 * symmetry + 45 * stability).fdiv 100
  let points ← radii.zipIdx.mapM fun (radius, index) => do
    let record ← decoded.records[index]?
    let cycle ← cycles[index]?
    pure (Point.mk index record.k cycle record.par radius
      ((cos index * radius) >>> (16 : ℕ)) ((sin index * radius) >>> (16 : ℕ)))
  pure (Geometry.mk decoded.format decoded.hwSig64 minimum maximum meanRadius variance symmetry
    stability score points)

end Bridge

/-! ### The bridge makes the same report -/

/-- The cycles of a container, as the bridge has them. -/
def cycleInts (cycles : Vector UInt64 42) : List ℤ := cycles.toList.map fun c => (c.toNat : ℤ)

theorem min?_cycleInts (cycles : Vector UInt64 42) :
    (cycleInts cycles).min? = some ((leastCycle cycles).toNat : ℤ) := by
  obtain ⟨hmem, hle⟩ := leastCycle_spec cycles
  refine List.min?_eq_some_iff.mpr ⟨List.mem_map.mpr ⟨_, hmem, rfl⟩, fun b hb => ?_⟩
  obtain ⟨c, hc, rfl⟩ := List.mem_map.mp hb
  exact_mod_cast UInt64.le_iff_toNat_le.mp (hle c hc)

theorem max?_cycleInts (cycles : Vector UInt64 42) :
    (cycleInts cycles).max? = some ((greatestCycle cycles).toNat : ℤ) := by
  obtain ⟨hmem, hle⟩ := greatestCycle_spec cycles
  refine List.max?_eq_some_iff.mpr ⟨List.mem_map.mpr ⟨_, hmem, rfl⟩, fun b hb => ?_⟩
  obtain ⟨c, hc, rfl⟩ := List.mem_map.mp hb
  exact_mod_cast UInt64.le_iff_toNat_le.mp (hle c hc)

/-- The radii of the bridge. -/
theorem ints_radiiOf (cycles : Vector UInt64 42) : ints (radiiOf cycles) =
    if ((greatestCycle cycles).toNat : ℤ) - (leastCycle cycles).toNat = 0 then
      List.replicate 42 (Bridge.q16One.fdiv 2)
    else (cycleInts cycles).map fun cycle =>
      ((cycle - (leastCycle cycles).toNat) * Bridge.q16One).fdiv
        (((greatestCycle cycles).toNat : ℤ) - (leastCycle cycles).toNat) := by
  have hle := UInt64.le_iff_toNat_le.mp (least_le_greatest cycles)
  have hints : ints (radiiOf cycles) = cycles.toList.map fun c =>
      (scaled (leastCycle cycles).toNat (greatestCycle cycles).toNat c.toNat : ℤ) := by
    rw [ints, radiiOf, Vector.toList_map, List.map_map]
    refine List.map_congr_left fun c hc => ?_
    have hc' := UInt64.le_iff_toNat_le.mp ((greatestCycle_spec cycles).2 c hc)
    exact congrArg Nat.cast (toNat_ofNat_scaled hc')
  rw [hints]
  split
  · next hzero =>
      have heq : (greatestCycle cycles).toNat = (leastCycle cycles).toNat := by omega
      simp only [scaled, heq, if_true]
      rw [List.map_const', cycles.length_toList]
      rfl
  · next hne =>
      have hspan : ¬(greatestCycle cycles).toNat = (leastCycle cycles).toNat := by omega
      rw [cycleInts, List.map_map]
      refine List.map_congr_left fun c hc => ?_
      have hc' := UInt64.le_iff_toNat_le.mp ((leastCycle_spec cycles).2 c hc)
      rw [scaled, if_neg hspan, Function.comp_apply, Int.fdiv_eq_ediv_of_nonneg _ (by omega),
        Int.natCast_ediv, Nat.cast_mul, Nat.cast_sub hc', Nat.cast_sub hle]
      rfl

/-- A traversal whose every step succeeds. -/
theorem mapM_eq_some {α β : Type} {f : α → Option β} {R : α → β → Prop} {l : List α}
    (h : ∀ a ∈ l, ∃ b, f a = some b ∧ R a b) : ∃ bs, l.mapM f = some bs ∧ List.Forall₂ R l bs := by
  induction l with
  | nil => exact ⟨[], rfl, List.Forall₂.nil⟩
  | cons a l ih =>
      obtain ⟨b, hb, hab⟩ := h a List.mem_cons_self
      obtain ⟨bs, hbs, hl⟩ := ih fun a ha => h a (List.mem_cons_of_mem _ ha)
      exact ⟨b :: bs, by simp [List.mapM_cons, hb, hbs], List.Forall₂.cons hab hl⟩

/-- What a traversal gives, read through a function of its results. -/
theorem map_eq_of_forall₂ {α β γ : Type} {R : α → β → Prop} {f : α → γ} {g : β → γ} {l : List α}
    {bs : List β} (h : List.Forall₂ R l bs) (hR : ∀ a b, R a b → g b = f a) :
    bs.map g = l.map f := by
  induction h with
  | nil => rfl
  | cons hab _ ih => rw [List.map_cons, List.map_cons, hR _ _ hab, ih]

theorem ints_getElem? (radii : Vector UInt32 42) (i : Fin 42) :
    (ints radii)[i.val]? = some ((radii.get i).toNat : ℤ) := by
  have hlen : i.val < radii.toList.length := by rw [radii.length_toList]; exact i.isLt
  rw [ints, List.getElem?_map, List.getElem?_eq_getElem hlen]
  simp [Vector.get]

theorem mapM_errors (radii : Vector UInt32 42) :
    ((List.range 21).mapM fun i => do
      let a ← (ints radii)[i]?
      let b ← (ints radii)[i + 21]?
      pure |a - b|) = some (opposite radii) := by
  have hstep : ∀ i ∈ List.finRange 21,
      ∃ b, (do
        let a ← (ints radii)[i.val]?
        let b ← (ints radii)[i.val + 21]?
        pure |a - b|) = some b ∧ b =
        |((radii.get (Fin.castAdd 21 i)).toNat : ℤ) -
          ((radii.get (Fin.addNat i 21)).toNat : ℤ)| := by
    intro i _
    have ha := ints_getElem? radii (Fin.castAdd 21 i)
    have hb := ints_getElem? radii (Fin.addNat i 21)
    rw [Fin.val_castAdd] at ha
    rw [Fin.val_addNat] at hb
    rw [ha, hb]
    exact ⟨_, rfl, rfl⟩
  have hrange : List.range 21 = (List.finRange 21).map Fin.val := by decide
  obtain ⟨bs, hbs, hall⟩ := mapM_eq_some hstep
  rw [hrange, List.mapM_map]
  refine hbs.trans (congrArg some ?_)
  rw [← List.map_id bs]
  exact map_eq_of_forall₂ hall fun _ _ h => h

theorem length_ints (radii : Vector UInt32 42) : (ints radii).length = 42 := by
  rw [ints, List.length_map, radii.length_toList]

/-- A coordinate of every point, as the bridge computes it. -/
theorem coordinates_eq {radii : Vector UInt32 42} (h : Scaled radii) (table : Vector Int32 42)
    (htable : ∀ i, |(table.get i).toInt| ≤ 65536) {direction : ℕ → ℤ}
    (hdir : ∀ i : Fin 42, direction i = (table.get i).toInt) :
    ((ints radii).zipIdx.map fun p => (direction p.2 * p.1) >>> (16 : ℕ)) =
      (Vector.zipWith coordinate table radii).toList.map Int32.toInt := by
  refine List.ext_getElem (by simp [length_ints]) fun i hi _ => ?_
  have hi' : i < 42 := by simpa [length_ints] using hi
  have hr : (radii.get ⟨i, hi'⟩).toNat ≤ 65536 := h _ (by simp [Vector.get])
  have hcoord := toInt_coordinate (htable ⟨i, hi'⟩) hr
  have hd := hdir ⟨i, hi'⟩
  simp only [List.getElem_map, List.getElem_zipIdx, Nat.zero_add, ints]
  rw [Vector.getElem_toList, Vector.getElem_toList, Vector.getElem_zipWith]
  rw [← hd] at hcoord
  exact hcoord.symm

theorem cosQ16_le (i : Fin 42) : |(cosQ16.get i).toInt| ≤ 65536 := by
  revert i
  decide

theorem sinQ16_le (i : Fin 42) : |(sinQ16.get i).toInt| ≤ 65536 := by
  revert i
  decide

/-- The report of the bridge says what the observation says. -/
structure Agrees (out : Observation) (g : Bridge.Geometry) : Prop where
  minCycle : g.minCycle = out.minCycle.toNat
  maxCycle : g.maxCycle = out.maxCycle.toNat
  meanRadius : g.meanRadiusQ16 = out.meanRadiusQ16.toNat
  variance : g.varianceQ16 = out.varianceQ16.toNat
  symmetry : g.symmetryQ16 = out.symmetryQ16.toNat
  stability : g.stabilityQ16 = out.stabilityQ16.toNat
  prototypeScore : g.prototypeScoreQ16 = out.prototypeScoreQ16.toNat
  radius : g.points.map Bridge.Point.radiusQ16 = ints out.radiusQ16

/-- The cycles of a decoded container are those the kernel is given. -/
def Bridge.Decoded.Holds (decoded : Bridge.Decoded) (cycles : Vector UInt64 42) : Prop :=
  decoded.records.map Bridge.Record.cycle = cycleInts cycles

theorem mapM_points (cos sin : ℕ → ℤ) {records : List Bridge.Record} {cycles radii : List ℤ}
    (hrecords : records.length = radii.length) (hcycles : cycles.length = radii.length) :
    ∃ points, (radii.zipIdx.mapM fun (radius, index) => do
        let record ← records[index]?
        let cycle ← cycles[index]?
        pure (Bridge.Point.mk index record.k cycle record.par radius
          ((cos index * radius) >>> (16 : ℕ)) ((sin index * radius) >>> (16 : ℕ)))) = some points ∧
      points.map Bridge.Point.radiusQ16 = radii ∧
      points.map Bridge.Point.xQ16 = radii.zipIdx.map (fun p => (cos p.2 * p.1) >>> (16 : ℕ)) ∧
      points.map Bridge.Point.yQ16 = radii.zipIdx.map fun p => (sin p.2 * p.1) >>> (16 : ℕ) := by
  have hstep : ∀ p ∈ radii.zipIdx, ∃ b : Bridge.Point, (do
        let record ← records[p.2]?
        let cycle ← cycles[p.2]?
        pure (Bridge.Point.mk p.2 record.k cycle record.par p.1
          ((cos p.2 * p.1) >>> (16 : ℕ)) ((sin p.2 * p.1) >>> (16 : ℕ)))) = some b ∧
      b.radiusQ16 = p.1 ∧ b.xQ16 = (cos p.2 * p.1) >>> (16 : ℕ) ∧
      b.yQ16 = (sin p.2 * p.1) >>> (16 : ℕ) := by
    rintro ⟨radius, index⟩ hp
    have hlt : index < radii.length := by simpa using (List.mem_zipIdx hp).2.1
    rw [List.getElem?_eq_getElem (hrecords ▸ hlt), List.getElem?_eq_getElem (hcycles ▸ hlt)]
    exact ⟨_, rfl, rfl, rfl, rfl⟩
  obtain ⟨points, hpoints, hall⟩ := mapM_eq_some hstep
  refine ⟨points, hpoints, ?_, map_eq_of_forall₂ hall fun _ _ h => h.2.1,
    map_eq_of_forall₂ hall fun _ _ h => h.2.2⟩
  rw [map_eq_of_forall₂ hall fun _ _ h => h.1]
  exact List.zipIdx_map_fst 0 radii

/-- The bridge computes what the kernel observes. -/
theorem buildGeometry_eq (cos sin : ℕ → ℤ) {decoded : Bridge.Decoded} {cycles : Vector UInt64 42}
    (hcycles : decoded.Holds cycles) (hwSig64 : UInt64) :
    ∃ g, Bridge.buildGeometry cos sin decoded = some g ∧
      Agrees (observe hwSig64 (leastCycle cycles) (greatestCycle cycles) (radiiOf cycles)) g ∧
      g.points.map Bridge.Point.xQ16 =
        (ints (radiiOf cycles)).zipIdx.map (fun p => (cos p.2 * p.1) >>> (16 : ℕ)) ∧
      g.points.map Bridge.Point.yQ16 =
        (ints (radiiOf cycles)).zipIdx.map fun p => (sin p.2 * p.1) >>> (16 : ℕ) := by
  have hscaled := scaled_radiiOf cycles
  have hlen := length_ints (radiiOf cycles)
  have hlenCycles : (cycleInts cycles).length = 42 := by
    rw [cycleInts, List.length_map, cycles.length_toList]
  have hrecords : decoded.records.length = (ints (radiiOf cycles)).length := by
    rw [hlen, ← hlenCycles, ← hcycles, List.length_map]
  obtain ⟨points, hpoints, hradius, hx, hy⟩ := mapM_points cos sin hrecords
    (hlenCycles.trans hlen.symm)
  have hcycleInts : decoded.records.map Bridge.Record.cycle = cycleInts cycles := hcycles
  have herrors := mapM_errors (radiiOf cycles)
  simp only [Option.bind_eq_bind] at herrors hpoints
  unfold Bridge.buildGeometry
  simp only [hcycleInts, min?_cycleInts, max?_cycleInts, ← ints_radiiOf, herrors, hpoints,
    Option.bind_eq_bind, Option.bind_some]
  refine ⟨_, rfl, ?_, hx, hy⟩
  have hmean := (meanRadius_eq hscaled).1
  have hvariance := variance_eq hscaled
  have hsymmetry := symmetry_eq hscaled
  have hstability := (stability_eq (radiiOf cycles)).1
  have hscore := (prototypeScore_eq (radiiOf cycles)).1
  rw [hvariance] at hstability
  rw [hsymmetry, hstability] at hscore
  exact ⟨rfl, rfl, hmean.symm, hvariance.symm, hsymmetry.symm, hstability.symm, hscore.symm,
    hradius⟩

/-- Every build succeeds without an overflow, and the bridge makes the same report. -/
theorem build_exact (hwSig64 : UInt64) (cycles : Vector UInt64 42) :
    ∃ out, build wrapping hwSig64 cycles = (0, out) ∧
      build checked hwSig64 cycles = some (0, out) ∧ Exact cycles out ∧
      ∀ (cos sin : ℕ → ℤ) (decoded : Bridge.Decoded), decoded.Holds cycles →
        ∃ g, Bridge.buildGeometry cos sin decoded = some g ∧ Agrees out g ∧
          ((∀ i : Fin 42, cos i = (cosQ16.get i).toInt ∧ sin i = (sinQ16.get i).toInt) →
            g.points.map Bridge.Point.xQ16 = out.xQ16.toList.map Int32.toInt ∧
            g.points.map Bridge.Point.yQ16 = out.yQ16.toList.map Int32.toInt) := by
  have hscaled := scaled_radiiOf cycles
  have hvalid := validate_observe hscaled (least_le_greatest cycles) hwSig64
  refine ⟨observe hwSig64 (leastCycle cycles) (greatestCycle cycles) (radiiOf cycles), ?_, ?_,
    exact_observe hwSig64 cycles, fun cos sin decoded hholds => ?_⟩
  · rw [build_eq]
    dsimp only
    rw [hvalid]
    rfl
  · rw [build_eq]
    dsimp only
    rw [hvalid]
    rfl
  · obtain ⟨g, hg, hagrees, hx, hy⟩ := buildGeometry_eq cos sin hholds hwSig64
    refine ⟨g, hg, hagrees, fun hdir => ⟨?_, ?_⟩⟩
    · rw [hx]
      exact coordinates_eq hscaled cosQ16 cosQ16_le fun i => (hdir i).1
    · rw [hy]
      exact coordinates_eq hscaled sinQ16 sinQ16_le fun i => (hdir i).2

/-- A ramp of cycles, and the tables as directions. -/
theorem build_exact_ramp :
    ∃ out g, build wrapping 0 (Vector.ofFn fun i => UInt64.ofNat i.val) = (0, out) ∧
      Bridge.buildGeometry (fun i => (cosQ16.toList.getD i 0).toInt)
        (fun i => (sinQ16.toList.getD i 0).toInt)
        ⟨"V1_EXTENDED", 0, (List.range 42).map fun i : ℕ => ⟨i + 1, i, 1⟩⟩ = some g ∧
      Agrees out g ∧ g.points.map Bridge.Point.xQ16 = out.xQ16.toList.map Int32.toInt := by
  obtain ⟨out, hbuild, -, -, hbridge⟩ :=
    build_exact 0 (Vector.ofFn fun i => UInt64.ofNat i.val)
  obtain ⟨g, hg, hagrees, hpoints⟩ := hbridge (fun i => (cosQ16.toList.getD i 0).toInt)
    (fun i => (sinQ16.toList.getD i 0).toInt)
    ⟨"V1_EXTENDED", 0, (List.range 42).map fun i : ℕ => ⟨i + 1, i, 1⟩⟩
    (by unfold Bridge.Decoded.Holds; decide)
  exact ⟨out, g, hbuild, hg, hagrees, (hpoints (by decide)).1⟩

end Blake3.Pai42
