import Blake3.Lib.Ranking
import Blake3.Lib.WordArith
import Blake3.Stability.Descriptor
import Blake3.Visual.Store

/-!
The prototype that is nearest to a descriptor: `RmR_VisualPrototype_Compare` and
`RmR_VisualStore_Classify`.
-/

namespace Blake3.Visual

open Stability (IsDescriptor differenceQ16)

/-- `RMR_VISUAL_VIEW_ANY` -/
def viewAny : Byte := 0xff

/-- The statuses of a comparison: the others, and the two that only it has. -/
inductive MatchStatus where
  | of (status : Status)
  | noMatch
  | ambiguous
  deriving DecidableEq, Repr

structure VisualMatch where
  status : MatchStatus
  distanceQ16 : Word
  scoreQ16 : Word
  bestViewId : Word
  comparedViews : Word
  prototypeCrc32c : Word
  deriving DecidableEq

structure VisualClassification where
  status : MatchStatus
  slotIndex : Word
  classId : Word
  scoreQ16 : Word
  runnerUpQ16 : Word
  marginQ16 : Word
  bestViewId : Word
  deriving DecidableEq

/-! ### Comparisons -/

/-- The variables of the two passes over the views. -/
structure Nearest where
  best : Word
  bestViewId : Word
  compared : Word

def Nearest.start : Nearest where
  best := 0xffffffff
  bestViewId := viewAny.toUInt32
  compared := 0

/-- Whether a pass goes on to the next view. -/
def skips (preferredView : Byte) (pass : ℕ) (v : VisualView) : Bool :=
  let exactPass := preferredView ≠ viewAny ∧ v.viewId = preferredView
  if preferredView ≠ viewAny then pass = 0 ∧ ¬exactPass ∨ pass = 1 ∧ exactPass
  else pass = 1

def Nearest.consider (query : VisionDescriptor) (s : Nearest) (v : VisualView) : Nearest :=
  let d := differenceQ16 v.descriptor query
  if d < s.best then
    { best := d, bestViewId := v.viewId.toUInt32, compared := s.compared + 1 }
  else { s with compared := s.compared + 1 }

def Nearest.pass (p : VisualPrototype) (query : VisionDescriptor) (preferredView : Byte) (pass : ℕ)
    (s : Nearest) : Nearest :=
  p.seen.foldl (fun s v => if skips preferredView pass v then s else s.consider query v) s

/-- Both passes; the second one is left out if the first one has found a view. -/
def Nearest.passes (p : VisualPrototype) (query : VisionDescriptor) (preferredView : Byte) :
    Nearest :=
  let s := pass p query preferredView 0 start
  if s.best ≠ 0xffffffff ∨ preferredView = viewAny then s
  else pass p query preferredView 1 s

/-- `RmR_VisualPrototype_Compare`, none of its pointers being null. -/
def compare (p : VisualPrototype) (query : VisionDescriptor) (preferredView : Byte) :
    VisualMatch :=
  match verify p with
  | .ok =>
      let s := Nearest.passes p query preferredView
      if s.best = 0xffffffff then
        { status := .noMatch, distanceQ16 := 0, scoreQ16 := 0, bestViewId := s.bestViewId,
          comparedViews := 0, prototypeCrc32c := 0 }
      else
        let best := if 65536 < s.best then 65536 else s.best
        { status := .of .ok, distanceQ16 := best, scoreQ16 := 65536 - best,
          bestViewId := s.bestViewId, comparedViews := s.compared,
          prototypeCrc32c := p.prototypeCrc32c }
  | status =>
      { status := .of status, distanceQ16 := 0, scoreQ16 := 0, bestViewId := viewAny.toUInt32,
        comparedViews := 0, prototypeCrc32c := 0 }

/-! ### Classifications -/

/-- The variables of the loop over the slots. -/
structure Ranked where
  best : Word
  second : Word
  bestSlot : Word
  bestView : Word

def Ranked.start : Ranked where
  best := 0
  second := 0
  bestSlot := 0xffffffff
  bestView := viewAny.toUInt32

/-- One turn of the loop. -/
def Ranked.rank (query : VisionDescriptor) (preferredView : Byte) (s : Ranked)
    (slot : VisualPrototype × ℕ) : Ranked :=
  let m := compare slot.1 query preferredView
  if m.status ≠ .of .ok then s
  else if s.best < m.scoreQ16 then
    { best := m.scoreQ16, second := s.best, bestSlot := UInt32.ofNat slot.2,
      bestView := m.bestViewId }
  else if s.second < m.scoreQ16 then { s with second := m.scoreQ16 }
  else s

namespace VisualStore

/-- `RmR_VisualStore_Classify`, none of its pointers being null. -/
def classify (store : VisualStore) (query : VisionDescriptor) (preferredView : Byte)
    (minimumScoreQ16 minimumMarginQ16 : Word) : VisualClassification :=
  let out : VisualClassification :=
    { status := .of .ok, slotIndex := 0xffffffff, classId := 0, scoreQ16 := 0, runnerUpQ16 := 0,
      marginQ16 := 0, bestViewId := viewAny.toUInt32 }
  if store.count = 0 then { out with status := .of .empty }
  else
    let s := store.used.zipIdx.foldl (Ranked.rank query preferredView) Ranked.start
    if s.bestSlot = 0xffffffff ∨ s.best < minimumScoreQ16 then { out with status := .noMatch }
    else
      { status := if s.best - s.second < minimumMarginQ16 then .ambiguous else .of .ok
        slotIndex := s.bestSlot
        classId := (store.slots.getD s.bestSlot.toNat VisualPrototype.zero).classId
        scoreQ16 := s.best
        runnerUpQ16 := s.second
        marginQ16 := s.best - s.second
        bestViewId := s.bestView }

end VisualStore

/-! ### The nearest view -/

/-- The views that count: the preferred one if there is one, and all of them otherwise. -/
def VisualPrototype.candidates (p : VisualPrototype) (preferredView : Byte) : List VisualView :=
  if ∃ v ∈ p.seen, v.viewId = preferredView then p.seen.filter fun v => v.viewId = preferredView
  else p.seen

theorem viewId_lt_of_viewsMask {mask mask' : Word} {views : List VisualView}
    (h : viewsMask mask views = .ok mask') : ∀ v ∈ views, v.viewId.toNat < maxViews := by
  induction views generalizing mask with
  | nil => intro v hv; exact absurd hv List.not_mem_nil
  | cons v views ih =>
      rw [viewsMask] at h
      obtain ⟨hlt, h⟩ := of_check h (by simp)
      obtain ⟨-, h⟩ := of_check h (by simp)
      exact List.forall_mem_cons.mpr ⟨Nat.not_le.mp hlt, ih h⟩

theorem viewsMask_ne_error_ok (mask : Word) (views : List VisualView) :
    viewsMask mask views ≠ .error .ok := by
  induction views generalizing mask with
  | nil => simp [viewsMask]
  | cons v views ih =>
      rw [viewsMask]
      split_ifs
      · simp
      · simp
      · exact ih _

theorem viewId_ne_viewAny {p : VisualPrototype} (h : verify p = .ok) :
    ∀ v ∈ p.seen, v.viewId ≠ viewAny := by
  have hstructure := structureStatus_of_verify h
  rw [structureStatus] at hstructure
  obtain ⟨-, hstructure⟩ := of_check hstructure (by decide)
  obtain ⟨-, hstructure⟩ := of_check hstructure (by decide)
  obtain ⟨-, hstructure⟩ := of_check hstructure (by decide)
  obtain ⟨-, hstructure⟩ := of_check hstructure (by decide)
  obtain ⟨-, hstructure⟩ := of_check hstructure (by decide)
  obtain ⟨-, hstructure⟩ := of_check hstructure (by decide)
  intro v hv hany
  cases hmask : viewsMask 0 p.seen with
  | error status =>
      rw [hmask] at hstructure
      dsimp only at hstructure
      rw [hstructure] at hmask
      exact absurd hmask (viewsMask_ne_error_ok 0 p.seen)
  | ok mask =>
      have hlt := viewId_lt_of_viewsMask hmask v hv
      rw [hany] at hlt
      exact absurd hlt (by decide)

theorem seen_ne_nil {p : VisualPrototype} (h : verify p = .ok) : p.seen ≠ [] := by
  obtain ⟨-, -, -, -, -, -, hpos, hle⟩ := fields_of_structureStatus (structureStatus_of_verify h)
  have hle' : p.viewCount.toNat ≤ 16 := hle
  refine List.ne_nil_of_length_pos ?_
  rw [VisualPrototype.seen, List.length_take, Vector.length_toList]
  omega

namespace Nearest

variable {p : VisualPrototype} {query : VisionDescriptor} {preferredView : Byte}

/-- A pass goes through the views that it does not skip. -/
theorem pass_eq (k : ℕ) (s : Nearest) :
    pass p query preferredView k s =
      (p.seen.filter fun v => !skips preferredView k v).foldl (consider query) s := by
  rw [pass, List.foldl_filter]
  congr 1
  funext s v
  cases skips preferredView k v <;> rfl

/-- What is kept of some views is the best pair of a difference and an id. -/
theorem foldl_consider (views : List VisualView) (s : Nearest) :
    ((views.foldl (consider query) s).best, (views.foldl (consider query) s).bestViewId) =
      (views.map fun v => (differenceQ16 v.descriptor query, v.viewId.toUInt32)).foldl
        (fun r c => if c.1 < r.1 then c else r) (s.best, s.bestViewId) := by
  induction views generalizing s with
  | nil => rfl
  | cons v views ih =>
      rw [List.foldl_cons, ih, List.map_cons, List.foldl_cons, consider]
      dsimp only
      by_cases hlt : differenceQ16 v.descriptor query < s.best
      · rw [if_pos hlt, if_pos hlt]
      · rw [if_neg hlt, if_neg hlt]

/-- Of some views, the first whose difference is least. -/
theorem foldl_consider_start {views : List VisualView} (hne : views ≠ []) :
    ∃ v ∈ views, (views.foldl (consider query) start).best = differenceQ16 v.descriptor query ∧
      (views.foldl (consider query) start).bestViewId = v.viewId.toUInt32 ∧
      ∀ w ∈ views, differenceQ16 v.descriptor query ≤ differenceQ16 w.descriptor query := by
  have hkept := @foldl_consider query views start
  obtain ⟨hmem, hle⟩ := @WordArith.foldl_better_spec (Word × Word) (fun a b => a.1 ≤ b.1)
    (fun c r => c.1 < r.1) _ (fun a => UInt32.le_refl a.1)
    (fun hab hbc => UInt32.le_trans hab hbc) UInt32.le_of_lt UInt32.not_lt.mp
    (views.map fun v => (differenceQ16 v.descriptor query, v.viewId.toUInt32))
    (start.best, start.bestViewId)
  rw [← hkept] at hmem hle
  have hleast : ∀ w ∈ views,
      (views.foldl (consider query) start).best ≤ differenceQ16 w.descriptor query :=
    fun w hw => hle _ (List.mem_cons_of_mem _ (List.mem_map_of_mem hw))
  rcases List.mem_cons.mp hmem with hstart | hview
  · -- any difference is less than the first value
    obtain ⟨w, hw⟩ := List.exists_mem_of_ne_nil views hne
    have hlt := Stability.differenceQ16_lt w.descriptor query
    have hge := UInt32.le_iff_toNat_le.mp (hleast w hw)
    rw [(Prod.mk.inj hstart).1] at hge
    exact absurd hlt (Nat.not_lt.mpr hge)
  · obtain ⟨v, hv, heq⟩ := List.mem_map.mp hview
    obtain ⟨hbest, hid⟩ := Prod.mk.inj heq
    refine ⟨v, hv, hbest.symm, hid.symm, fun w hw => ?_⟩
    rw [hbest]
    exact hleast w hw

/-- The two passes go through the views that count. -/
theorem passes_eq (h : verify p = .ok) :
    passes p query preferredView =
      (p.candidates preferredView).foldl (consider query) start ∧
    p.candidates preferredView ≠ [] := by
  have hseen := seen_ne_nil h
  have hids := viewId_ne_viewAny h
  by_cases hpreferred : ∃ v ∈ p.seen, v.viewId = preferredView
  · obtain ⟨v, hv, hid⟩ := hpreferred
    have hany : preferredView ≠ viewAny := hid ▸ hids v hv
    have hcandidates : p.candidates preferredView =
        p.seen.filter fun v => v.viewId = preferredView := if_pos ⟨v, hv, hid⟩
    have hne : p.candidates preferredView ≠ [] := by
      rw [hcandidates]
      exact List.ne_nil_of_mem (List.mem_filter.mpr ⟨hv, decide_eq_true hid⟩)
    have hfirst : pass p query preferredView 0 start =
        (p.candidates preferredView).foldl (consider query) start := by
      rw [pass_eq, hcandidates]
      simp [skips, hany]
    obtain ⟨w, -, hbest, -⟩ := @foldl_consider_start query _ hne
    have hfound : (pass p query preferredView 0 start).best ≠ 0xffffffff := by
      intro hmax
      have hlt := Stability.differenceQ16_lt w.descriptor query
      rw [← hbest, ← hfirst, hmax] at hlt
      exact absurd hlt (by decide)
    refine ⟨?_, hne⟩
    rw [passes]
    rw [if_pos (.inl hfound), hfirst]
  · have hcandidates : p.candidates preferredView = p.seen := if_neg hpreferred
    rw [hcandidates]
    refine ⟨?_, hseen⟩
    have hother : ∀ v ∈ p.seen, v.viewId ≠ preferredView := fun v hv hid => hpreferred ⟨v, hv, hid⟩
    rw [passes]
    by_cases hany : preferredView = viewAny
    · rw [if_pos (.inr hany), pass_eq]
      simp [skips, hany]
    · -- no view is the preferred one: the first pass skips them all, the second one none
      have hfirst : pass p query preferredView 0 start = start := by
        have hnone : (p.seen.filter fun v => !skips preferredView 0 v) = [] := by
          simpa [skips, hany] using hother
        rw [pass_eq, hnone, List.foldl_nil]
      have hsecond : (p.seen.filter fun v => !skips preferredView 1 v) = p.seen := by
        simpa [skips, hany] using hother
      rw [hfirst, if_neg (by simp [start, hany]), pass_eq, hsecond]

end Nearest

/-- The least difference of the views that count, of which one is named. -/
theorem compare_spec {p : VisualPrototype} {query : VisionDescriptor} {preferredView : Byte}
    (h : (compare p query preferredView).status = .of .ok) :
    ∃ v ∈ p.candidates preferredView,
      (compare p query preferredView).bestViewId = v.viewId.toUInt32 ∧
      (compare p query preferredView).distanceQ16.toNat =
        min (differenceQ16 v.descriptor query).toNat 65536 ∧
      (compare p query preferredView).scoreQ16.toNat =
        65536 - (compare p query preferredView).distanceQ16.toNat ∧
      ∀ w ∈ p.candidates preferredView,
        differenceQ16 v.descriptor query ≤ differenceQ16 w.descriptor query := by
  have hverify : verify p = .ok := by
    by_contra hne
    rw [compare] at h
    split at h
    · next hok => exact hne hok
    · exact hne (MatchStatus.of.inj h)
  obtain ⟨hpasses, hcandidates⟩ :=
    @Nearest.passes_eq p query preferredView hverify
  obtain ⟨v, hv, hbest, hid, hleast⟩ := @Nearest.foldl_consider_start query _ hcandidates
  rw [← hpasses] at hbest hid
  have hlt := Stability.differenceQ16_lt v.descriptor query
  have hne : (Nearest.passes p query preferredView).best ≠ 0xffffffff := by
    rw [hbest]
    intro hmax
    rw [hmax] at hlt
    exact absurd hlt (by decide)
  obtain ⟨d, hd⟩ : ∃ d, d = if 65536 < (Nearest.passes p query preferredView).best then 65536
      else (Nearest.passes p query preferredView).best := ⟨_, rfl⟩
  have hcompare : compare p query preferredView =
      { status := .of .ok, distanceQ16 := d, scoreQ16 := 65536 - d,
        bestViewId := (Nearest.passes p query preferredView).bestViewId,
        comparedViews := (Nearest.passes p query preferredView).compared,
        prototypeCrc32c := p.prototypeCrc32c } := by
    rw [compare, hverify]
    dsimp only
    rw [if_neg hne, ← hd]
  have hdEq : d.toNat = min (differenceQ16 v.descriptor query).toNat 65536 := by
    rw [hd, hbest]
    split_ifs with hlarge
    · exact (Nat.min_eq_right (UInt32.le_of_lt hlarge)).symm
    · exact (Nat.min_eq_left (UInt32.not_lt.mp hlarge)).symm
  have hdLe : d ≤ 65536 := by
    rw [UInt32.le_iff_toNat_le, hdEq]
    exact Nat.min_le_right _ _
  rw [hcompare]
  exact ⟨v, hv, hid, hdEq, UInt32.toNat_sub_of_le _ _ hdLe, hleast⟩

namespace VisualStore

/-- The scores of the prototypes whose comparison succeeds. -/
def scores (slots : List VisualPrototype) (query : VisionDescriptor) (preferredView : Byte) :
    List ℕ :=
  slots.filterMap fun p =>
    if (compare p query preferredView).status = .of .ok then
      some (compare p query preferredView).scoreQ16.toNat
    else none

variable {query : VisionDescriptor} {preferredView : Byte}

/-- One turn of the loop: a score that is seen, or nothing. -/
theorem rank_cases (s : Ranked) (p : VisualPrototype) (i : ℕ) :
    (((compare p query preferredView).status ≠ .of .ok) ∧
        s.rank query preferredView (p, i) = s) ∨
      ((compare p query preferredView).status = .of .ok ∧
        ((s.rank query preferredView (p, i)).best.toNat,
          (s.rank query preferredView (p, i)).second.toNat) =
          Ranking.step (s.best.toNat, s.second.toNat)
            (compare p query preferredView).scoreQ16.toNat ∧
        ((s.rank query preferredView (p, i)).bestSlot = s.bestSlot ∧
            (s.rank query preferredView (p, i)).best = s.best ∨
          (s.rank query preferredView (p, i)).bestSlot = UInt32.ofNat i ∧
            s.best < (s.rank query preferredView (p, i)).best)) := by
  rw [Ranked.rank]
  dsimp only
  by_cases hok : (compare p query preferredView).status ≠ .of .ok
  · rw [if_pos hok]
    exact .inl ⟨hok, rfl⟩
  · rw [if_neg hok]
    refine .inr ⟨not_not.mp hok, ?_⟩
    rw [Ranking.step]
    by_cases hbest : s.best < (compare p query preferredView).scoreQ16
    · rw [if_pos hbest, if_pos (UInt32.lt_iff_toNat_lt.mp hbest)]
      exact ⟨rfl, .inr ⟨rfl, hbest⟩⟩
    · rw [if_neg hbest, if_neg fun hlt => hbest (UInt32.lt_iff_toNat_lt.mpr hlt)]
      by_cases hsecond : s.second < (compare p query preferredView).scoreQ16
      · rw [if_pos hsecond, if_pos (UInt32.lt_iff_toNat_lt.mp hsecond)]
        exact ⟨rfl, .inl ⟨rfl, rfl⟩⟩
      · rw [if_neg hsecond, if_neg fun hlt => hsecond (UInt32.lt_iff_toNat_lt.mpr hlt)]
        exact ⟨rfl, .inl ⟨rfl, rfl⟩⟩

/-- The loop ranks the scores; it has found a slot as soon as one of them is positive. -/
theorem foldl_rank (slots : List VisualPrototype) {i : ℕ} (hi : i + slots.length < 2 ^ 32)
    {s : Ranked} (hs : s.bestSlot = 0xffffffff ↔ s.best = 0) :
    let s' := (slots.zipIdx i).foldl (Ranked.rank query preferredView) s
    (s'.best.toNat, s'.second.toNat) = (scores slots query preferredView).foldl Ranking.step
        (s.best.toNat, s.second.toNat) ∧
      (s'.bestSlot = 0xffffffff ↔ s'.best = 0) := by
  induction slots generalizing i s with
  | nil => exact ⟨rfl, hs⟩
  | cons p slots ih =>
      rw [List.length_cons] at hi
      rw [List.zipIdx_cons, List.foldl_cons, scores, List.filterMap_cons]
      rcases @rank_cases query preferredView s p i with
        ⟨hfailed, hsame⟩ | ⟨hok, hstep, hslot⟩
      · rw [if_neg hfailed, hsame]
        exact ih (by omega) hs
      · rw [if_pos hok, List.foldl_cons, ← hstep]
        refine ih (by omega) ?_
        rcases hslot with ⟨hkept, hbest⟩ | ⟨hnew, hbest⟩
        · rw [hkept, hbest]
          exact hs
        · rw [hnew]
          refine iff_of_false ?_ ?_
          · intro hmax
            have hindex := congrArg UInt32.toNat hmax
            rw [UInt32.toNat_ofNat_of_lt' (show i < 2 ^ 32 by omega)] at hindex
            have hlast : i = 0xffffffff := hindex
            omega
          · intro hzero
            rw [hzero] at hbest
            exact absurd hbest (UInt32.not_lt.mpr (Nat.zero_le _))

/-- The best score and the second best; zero where there is none. -/
def topTwo (store : VisualStore) (query : VisionDescriptor) (preferredView : Byte) : ℕ × ℕ :=
  Ranking.firstTwo 0 (Ranking.descending (scores store.used query preferredView))

theorem classify_eq (store : VisualStore) (query : VisionDescriptor) (preferredView : Byte)
    (minimumScoreQ16 minimumMarginQ16 : Word) :
    let c := store.classify query preferredView minimumScoreQ16 minimumMarginQ16
    let top := store.topTwo query preferredView
    c.status = (if store.count = 0 then .of .empty
      else if top.1 = 0 ∨ top.1 < minimumScoreQ16.toNat then .noMatch
      else if top.1 - top.2 < minimumMarginQ16.toNat then .ambiguous else .of .ok) ∧
    (c.status = .of .ok ∨ c.status = .ambiguous →
      c.scoreQ16.toNat = top.1 ∧ c.runnerUpQ16.toNat = top.2 ∧
        c.marginQ16.toNat = top.1 - top.2) ∧
    (c.status = .of .empty ∨ c.status = .noMatch →
      c.scoreQ16 = 0 ∧ c.runnerUpQ16 = 0 ∧ c.marginQ16 = 0) := by
  intro c top
  by_cases hcount : store.count = 0
  · have hc : c.status = .of .empty ∧ c.scoreQ16 = 0 ∧ c.runnerUpQ16 = 0 ∧ c.marginQ16 = 0 := by
      simp [c, classify, hcount]
    rw [if_pos hcount, hc.1]
    exact ⟨rfl, by simp, fun _ => hc.2⟩
  have hlength : 0 + store.used.length < 2 ^ 32 := by
    have hle := List.length_take_le store.count.toNat store.slots
    have hlt := store.count.toNat_lt
    rw [used]
    omega
  obtain ⟨s, hs⟩ : ∃ s, s = store.used.zipIdx.foldl (Ranked.rank query preferredView)
      Ranked.start := ⟨_, rfl⟩
  have hstart : Ranked.start.bestSlot = 0xffffffff ↔ Ranked.start.best = 0 := iff_of_true rfl rfl
  obtain ⟨htop, hslot⟩ := @foldl_rank query preferredView store.used 0 hlength _ hstart
  rw [← hs] at htop hslot
  have hscores : ∀ x ∈ scores store.used query preferredView, 0 ≤ x := fun x _ => Nat.zero_le x
  -- the pass over the slots keeps the two best scores
  have hranking : (s.best.toNat, s.second.toNat) = top :=
    htop.trans (Ranking.foldl_step hscores)
  have hbest : s.best.toNat = top.1 := congrArg Prod.fst hranking
  have hsecond : s.second.toNat = top.2 := congrArg Prod.snd hranking
  have hle : top.2 ≤ top.1 := Ranking.firstTwo_le hscores
  have hmargin : (s.best - s.second).toNat = top.1 - top.2 := by
    rw [UInt32.toNat_sub_of_le _ _ (UInt32.le_iff_toNat_le.mpr (by omega)), hbest, hsecond]
  have hnone : s.bestSlot = 0xffffffff ∨ s.best < minimumScoreQ16 ↔
      top.1 = 0 ∨ top.1 < minimumScoreQ16.toNat := by
    rw [hslot, ← UInt32.toNat_inj, UInt32.lt_iff_toNat_lt, hbest, UInt32.toNat_zero]
  rw [if_neg hcount]
  by_cases hlow : s.bestSlot = 0xffffffff ∨ s.best < minimumScoreQ16
  · have hc : c.status = .noMatch ∧ c.scoreQ16 = 0 ∧ c.runnerUpQ16 = 0 ∧ c.marginQ16 = 0 := by
      simp only [c, classify, if_neg hcount, ← hs, if_pos hlow, and_self]
    rw [if_pos (hnone.mp hlow), hc.1]
    exact ⟨rfl, by simp, fun _ => hc.2⟩
  · have hc : c.status = (if s.best - s.second < minimumMarginQ16 then .ambiguous else .of .ok) ∧
        c.scoreQ16 = s.best ∧ c.runnerUpQ16 = s.second ∧ c.marginQ16 = s.best - s.second := by
      simp only [c, classify, if_neg hcount, ← hs, if_neg hlow, and_self]
    rw [if_neg fun h => hlow (hnone.mpr h), hc.1, hc.2.1, hc.2.2.1, hc.2.2.2]
    simp only [UInt32.lt_iff_toNat_lt, hmargin]
    refine ⟨trivial, fun _ => ⟨hbest, hsecond, trivial⟩, ?_⟩
    split_ifs <;> simp

/-- The two best scores are all that matters of the slots. -/
theorem classify_congr {store store' : VisualStore} (hcount : store'.count = store.count)
    (htop : store'.topTwo query preferredView = store.topTwo query preferredView)
    (minimumScoreQ16 minimumMarginQ16 : Word) :
    let c := store.classify query preferredView minimumScoreQ16 minimumMarginQ16
    let c' := store'.classify query preferredView minimumScoreQ16 minimumMarginQ16
    c'.scoreQ16 = c.scoreQ16 ∧ c'.runnerUpQ16 = c.runnerUpQ16 ∧ c'.marginQ16 = c.marginQ16 ∧
      c'.status = c.status := by
  intro c c'
  obtain ⟨hstatus, hreported, hzero⟩ :=
    store.classify_eq query preferredView minimumScoreQ16 minimumMarginQ16
  obtain ⟨hstatus', hreported', hzero'⟩ :=
    store'.classify_eq query preferredView minimumScoreQ16 minimumMarginQ16
  have hsame : c'.status = c.status := by
    refine hstatus'.trans (Eq.trans ?_ hstatus.symm)
    rw [hcount, htop]
  have hcases : (c.status = .of .ok ∨ c.status = .ambiguous) ∨
      (c.status = .of .empty ∨ c.status = .noMatch) := by
    have hvalue : c.status = _ := hstatus
    rw [hvalue]
    split_ifs <;> simp
  rcases hcases with hmatch | hnone
  · obtain ⟨hscore, hrunnerUp, hmargin⟩ := hreported hmatch
    have hmatch' : c'.status = .of .ok ∨ c'.status = .ambiguous := by rwa [hsame]
    obtain ⟨hscore', hrunnerUp', hmargin'⟩ := hreported' hmatch'
    rw [htop] at hscore' hrunnerUp' hmargin'
    exact ⟨UInt32.toNat_inj.mp (hscore'.trans hscore.symm),
      UInt32.toNat_inj.mp (hrunnerUp'.trans hrunnerUp.symm),
      UInt32.toNat_inj.mp (hmargin'.trans hmargin.symm), hsame⟩
  · obtain ⟨hscore, hrunnerUp, hmargin⟩ := hzero hnone
    have hnone' : c'.status = .of .empty ∨ c'.status = .noMatch := by rwa [hsame]
    obtain ⟨hscore', hrunnerUp', hmargin'⟩ := hzero' hnone'
    exact ⟨hscore'.trans hscore.symm, hrunnerUp'.trans hrunnerUp.symm,
      hmargin'.trans hmargin.symm, hsame⟩

/-- What is reported unless there is no match are the two best scores, whatever the order of the
slots. The distance of a prototype is that of the nearest view that counts. -/
theorem classify_spec (store : VisualStore) (query : VisionDescriptor) (preferredView : Byte)
    (minimumScoreQ16 minimumMarginQ16 : Word) :
    let c := store.classify query preferredView minimumScoreQ16 minimumMarginQ16
    let seen := scores store.used query preferredView
    let best := (Ranking.descending seen).getD 0 0
    let second := (Ranking.descending seen).getD 1 0
    c.status = (if store.count = 0 then .of .empty
      else if best = 0 ∨ best < minimumScoreQ16.toNat then .noMatch
      else if best - second < minimumMarginQ16.toNat then .ambiguous else .of .ok) ∧
    (c.status = .of .ok ∨ c.status = .ambiguous →
      c.scoreQ16.toNat = best ∧ c.runnerUpQ16.toNat = second ∧ c.marginQ16.toNat = best - second ∧
        (2 ≤ seen.count best → c.marginQ16 = 0)) ∧
    (c.status = .of .empty ∨ c.status = .noMatch →
      c.scoreQ16 = 0 ∧ c.runnerUpQ16 = 0 ∧ c.marginQ16 = 0) ∧
    (∀ slots, (slots.take store.count.toNat).Perm store.used →
      let c' := { store with slots := slots : VisualStore }.classify query preferredView
        minimumScoreQ16 minimumMarginQ16
      c'.scoreQ16 = c.scoreQ16 ∧ c'.runnerUpQ16 = c.runnerUpQ16 ∧ c'.marginQ16 = c.marginQ16 ∧
        c'.status = c.status) ∧
    ∀ p, (compare p query preferredView).status = .of .ok →
      ∃ v ∈ p.candidates preferredView,
        (compare p query preferredView).bestViewId = v.viewId.toUInt32 ∧
        (compare p query preferredView).distanceQ16.toNat =
          min (differenceQ16 v.descriptor query).toNat 65536 ∧
        (compare p query preferredView).scoreQ16.toNat =
          65536 - (compare p query preferredView).distanceQ16.toNat ∧
        ∀ w ∈ p.candidates preferredView,
          differenceQ16 v.descriptor query ≤ differenceQ16 w.descriptor query := by
  intro c seen best second
  obtain ⟨hstatus, hreported, hzero⟩ :=
    store.classify_eq query preferredView minimumScoreQ16 minimumMarginQ16
  refine ⟨hstatus, fun hmatch => ?_, hzero, fun slots hperm => ?_, fun p => compare_spec⟩
  · obtain ⟨hscore, hrunnerUp, hmargin⟩ := hreported hmatch
    refine ⟨hscore, hrunnerUp, hmargin, fun htie => ?_⟩
    have hsecond : second = best := Ranking.firstTwo_of_tie htie
    rw [← UInt32.toNat_inj]
    refine hmargin.trans ?_
    change best - second = 0
    omega
  · refine @classify_congr query preferredView store { store with slots := slots } rfl ?_
      minimumScoreQ16 minimumMarginQ16
    have hscores : (scores ({ store with slots := slots : VisualStore }.used) query
        preferredView).Perm (scores store.used query preferredView) := hperm.filterMap _
    rw [topTwo, topTwo, Ranking.descending_congr hscores]

/-- A prototype that is as near as can be, below a minimum that is out of reach. -/
theorem classify_below_minimum :
    let store : VisualStore := { slots := [bigGato], capacity := 1, count := 1 }
    let c := store.classify VisionDescriptor.zero viewAny 65537 0
    let seen := scores store.used VisionDescriptor.zero viewAny
    c.status = .noMatch ∧ (Ranking.descending seen).getD 0 0 = 65536 ∧
      ¬c.scoreQ16.toNat = (Ranking.descending seen).getD 0 0 := by
  decide +kernel

end VisualStore

/-! ### Descriptors that were built -/

/-- The difference of descriptors that were built is that of the numbers, at most one, and zero
where the ratios agree; so that the score of a prototype of such descriptors is what its
distance leaves. -/
theorem differenceQ16_spec {a b : VisionDescriptor} (ha : IsDescriptor a) (hb : IsDescriptor b) :
    Stability.checkedDifferenceQ16 a b = .ok (differenceQ16 a b) ∧
    differenceQ16 a b = differenceQ16 b a ∧ (differenceQ16 a b).toNat ≤ 65536 ∧
    (a.otsuThreshold = b.otsuThreshold → a.foregroundQ16 = b.foregroundQ16 →
      (∀ i, Stability.ratioQ16 (a.angleHist.get i) a.angleCount =
        Stability.ratioQ16 (b.angleHist.get i) b.angleCount) → differenceQ16 a b = 0) ∧
    ∀ p preferredView, (compare p a preferredView).status = .of .ok →
      (∀ v ∈ p.seen, IsDescriptor v.descriptor) →
      (∃ v ∈ p.seen, (compare p a preferredView).distanceQ16 = differenceQ16 v.descriptor a) ∧
        (compare p a preferredView).scoreQ16.toNat +
          (compare p a preferredView).distanceQ16.toNat = 65536 := by
  obtain ⟨hchecked, hle⟩ := ha.built.differenceQ16_eq hb.built
  refine ⟨hchecked, Stability.differenceQ16_comm a b, hle, Stability.differenceQ16_eq_zero,
    fun p preferredView hok hviews => ?_⟩
  obtain ⟨v, hv, -, hdistance, hscore, -⟩ := compare_spec hok
  have hseen : v ∈ p.seen := by
    rw [VisualPrototype.candidates] at hv
    split_ifs at hv
    · exact List.mem_of_mem_filter hv
    · exact hv
  obtain ⟨-, hviewLe⟩ := (hviews v hseen).built.differenceQ16_eq ha.built
  rw [Nat.min_eq_left hviewLe] at hdistance
  exact ⟨⟨v, hseen, UInt32.toNat_inj.mp hdistance⟩, by omega⟩

/-- One black pixel and no angle. -/
def blackPixel : VisionDescriptor := { VisionDescriptor.zero with
  width := 1
  height := 1
  pixelCount := 1
  foregroundCount := 1
  foregroundQ16 := 65536
  grayCrc32c := 0x527d5351
  descriptorCrc32c := 0xe9f5ac66 }

/-- Two pixels and one angle. -/
def twoPixels : VisionDescriptor := { VisionDescriptor.zero with
  width := 2
  height := 1
  pixelCount := 2
  foregroundCount := 1
  foregroundQ16 := 32768
  angleCount := 1
  angleHist := (Vector.replicate 8 0).setIfInBounds 0 1
  angularChi2Q16 := 458752
  angularConcentrationQ16 := 65536
  grayCrc32c := 0x89d3ac1e
  descriptorCrc32c := 0x26ee564b }

theorem isDescriptor_blackPixel : IsDescriptor blackPixel :=
  ⟨some [0], 1, 1, 1, none, 0, by decide +kernel⟩

theorem isDescriptor_twoPixels : IsDescriptor twoPixels :=
  ⟨some [0, 9], 2, 1, 2, some [10], 1, by decide +kernel⟩

theorem differenceQ16_spec_pixels :
    Stability.checkedDifferenceQ16 blackPixel twoPixels = .ok (differenceQ16 blackPixel twoPixels) ∧
    differenceQ16 blackPixel twoPixels = differenceQ16 twoPixels blackPixel ∧
    (differenceQ16 blackPixel twoPixels).toNat ≤ 65536 ∧
    (blackPixel.otsuThreshold = twoPixels.otsuThreshold →
      blackPixel.foregroundQ16 = twoPixels.foregroundQ16 →
      (∀ i, Stability.ratioQ16 (blackPixel.angleHist.get i) blackPixel.angleCount =
        Stability.ratioQ16 (twoPixels.angleHist.get i) twoPixels.angleCount) →
      differenceQ16 blackPixel twoPixels = 0) ∧
    ∀ p preferredView, (compare p blackPixel preferredView).status = .of .ok →
      (∀ v ∈ p.seen, IsDescriptor v.descriptor) →
      (∃ v ∈ p.seen,
        (compare p blackPixel preferredView).distanceQ16 = differenceQ16 v.descriptor blackPixel) ∧
        (compare p blackPixel preferredView).scoreQ16.toNat +
          (compare p blackPixel preferredView).distanceQ16.toNat = 65536 :=
  differenceQ16_spec isDescriptor_blackPixel isDescriptor_twoPixels

end Blake3.Visual
