import Blake3.Fault
import Blake3.Lib.FixedPoint
import Blake3.Words
import Mathlib.Data.List.Induction
import Mathlib.Data.List.Perm.Basic

/-!
The counters of a trace: `RmR_StabilityTrace_Init`, `RmR_StabilityTrace_Add` and
`RmR_StabilityTrace_Finalize` of `rmr_stability.c`. A trace is the tally of its events,
as far as five counters of 32 bits can tell.
-/

namespace Blake3.Stability

def statusNoSamples : Word := 1
def statusNoPeakSamples : Word := 2
def statusNoNonpeakSamples : Word := 4
def statusCounterSaturated : Word := 16

structure StabilityTrace where
  rows : Word
  peakTotal : Word
  peakStable : Word
  nonpeakTotal : Word
  nonpeakStable : Word
  peakRateQ30 : Word
  nonpeakRateQ30 : Word
  deltaPQ30 : Int32
  status : Word
  deriving DecidableEq

/-- What `RmR_StabilityTrace_Add` is given besides the trace. -/
structure Event where
  gate : Word
  stable : Byte
  peakFlag : Byte

/-- `satadd32`: the sum and `*st`. -/
def satadd32 (a b st : Word) : Word × Word :=
  if 0xffffffff - a < b then (0xffffffff, st ||| statusCounterSaturated) else (a + b, st)

/-- `ratio_q30` -/
def ratioQ30 (n d : Word) : Word := FixedPoint.ratio 30 n d

/-- `ratio_q16` -/
def ratioQ16 (n d : Word) : Word := FixedPoint.ratio 16 n d

def Event.isPeak (e : Event) : Bool :=
  e.peakFlag ≠ 0 ∨ e.gate = 3 ∨ e.gate = 4 ∨ e.gate = 8

def Event.isStable (e : Event) : Bool := e.stable ≠ 0

namespace StabilityTrace

def init : StabilityTrace where
  rows := 0
  peakTotal := 0
  peakStable := 0
  nonpeakTotal := 0
  nonpeakStable := 0
  peakRateQ30 := 0
  nonpeakRateQ30 := 0
  deltaPQ30 := 0
  status := statusNoSamples ||| statusNoPeakSamples ||| statusNoNonpeakSamples

/-- `t->rows = satadd32(t->rows, 1u, &t->status)`, and so on for each counter. -/
def stepRows (t : StabilityTrace) : StabilityTrace :=
  { t with rows := (satadd32 t.rows 1 t.status).1, status := (satadd32 t.rows 1 t.status).2 }

def stepPeakTotal (t : StabilityTrace) : StabilityTrace :=
  { t with
    peakTotal := (satadd32 t.peakTotal 1 t.status).1
    status := (satadd32 t.peakTotal 1 t.status).2 }

def stepPeakStable (t : StabilityTrace) : StabilityTrace :=
  { t with
    peakStable := (satadd32 t.peakStable 1 t.status).1
    status := (satadd32 t.peakStable 1 t.status).2 }

def stepNonpeakTotal (t : StabilityTrace) : StabilityTrace :=
  { t with
    nonpeakTotal := (satadd32 t.nonpeakTotal 1 t.status).1
    status := (satadd32 t.nonpeakTotal 1 t.status).2 }

def stepNonpeakStable (t : StabilityTrace) : StabilityTrace :=
  { t with
    nonpeakStable := (satadd32 t.nonpeakStable 1 t.status).1
    status := (satadd32 t.nonpeakStable 1 t.status).2 }

def add (t : StabilityTrace) (e : Event) : StabilityTrace :=
  let t := t.stepRows
  if e.isPeak then
    let t := t.stepPeakTotal
    if e.isStable then t.stepPeakStable else t
  else
    let t := t.stepNonpeakTotal
    if e.isStable then t.stepNonpeakStable else t

/-- `a - b` of `int32_t`; a difference that does not fit has no value. -/
def subInt32 (a b : Int32) : Result Int32 :=
  if -2 ^ 31 ≤ a.toInt - b.toInt ∧ a.toInt - b.toInt < 2 ^ 31 then .ok (a - b)
  else .error .overflow

/-- The status that `RmR_StabilityTrace_Finalize` returns. -/
def finalStatus (t : StabilityTrace) : Word :=
  let status := t.status &&& statusCounterSaturated
  let status := if t.rows = 0 then status ||| statusNoSamples else status
  let status := if t.peakTotal = 0 then status ||| statusNoPeakSamples else status
  if t.nonpeakTotal = 0 then status ||| statusNoNonpeakSamples else status

/-- `RmR_StabilityTrace_Finalize`: the status and the trace. -/
def finalize (t : StabilityTrace) : Result (Word × StabilityTrace) := do
  let peakRateQ30 := ratioQ30 t.peakStable t.peakTotal
  let nonpeakRateQ30 := ratioQ30 t.nonpeakStable t.nonpeakTotal
  let deltaPQ30 ← subInt32 peakRateQ30.toInt32 nonpeakRateQ30.toInt32
  pure (t.finalStatus, { t with
    status := t.finalStatus
    peakRateQ30 := peakRateQ30
    nonpeakRateQ30 := nonpeakRateQ30
    deltaPQ30 := deltaPQ30 })

/-- The trace after some events. -/
def run (events : List Event) : StabilityTrace := events.foldl add init

end StabilityTrace

/-! ### Tallies -/

/-- How many events of each kind there are. -/
structure Tally where
  rows : ℕ
  peakTotal : ℕ
  peakStable : ℕ
  nonpeakTotal : ℕ
  nonpeakStable : ℕ

def tally (events : List Event) : Tally where
  rows := events.length
  peakTotal := events.countP fun e => e.isPeak
  peakStable := events.countP fun e => e.isPeak && e.isStable
  nonpeakTotal := events.countP fun e => !e.isPeak
  nonpeakStable := events.countP fun e => !e.isPeak && e.isStable

/-- The flag of a counter that did not suffice. -/
def saturation (n : ℕ) : Word := if 2 ^ 32 ≤ n then statusCounterSaturated else 0

/-- The trace of a tally. -/
def Tally.trace (k : Tally) : StabilityTrace where
  rows := FixedPoint.clamp k.rows
  peakTotal := FixedPoint.clamp k.peakTotal
  peakStable := FixedPoint.clamp k.peakStable
  nonpeakTotal := FixedPoint.clamp k.nonpeakTotal
  nonpeakStable := FixedPoint.clamp k.nonpeakStable
  peakRateQ30 := 0
  nonpeakRateQ30 := 0
  deltaPQ30 := 0
  status := StabilityTrace.init.status ||| saturation k.rows

theorem satadd32_clamp (n : ℕ) (st : Word) :
    satadd32 (FixedPoint.clamp n) 1 st =
      (FixedPoint.clamp (n + 1), st ||| saturation (n + 1)) := by
  have hadd := FixedPoint.satAdd_clamp_one n
  rw [FixedPoint.satAdd] at hadd
  rw [satadd32, saturation]
  split at hadd
  · next hfull =>
      simp only [Prod.mk.injEq, Bool.true_eq, decide_eq_true_eq] at hadd
      rw [if_pos hfull, if_pos hadd.2, hadd.1]
  · next hroom =>
      simp only [Prod.mk.injEq, Bool.false_eq, decide_eq_false_iff_not] at hadd
      rw [if_neg hroom, if_neg hadd.2, hadd.1, UInt32.or_zero]

/-- The counter of all events is the first one that does not suffice. -/
theorem or_saturation {m n : ℕ} (h : m ≤ n) (st : Word) :
    st ||| saturation n ||| saturation m = st ||| saturation n ∧
      st ||| saturation m ||| saturation n = st ||| saturation n := by
  have hsame : saturation n ||| saturation m = saturation n := by
    by_cases hm : 2 ^ 32 ≤ m
    · rw [saturation, saturation, if_pos hm, if_pos (hm.trans h), UInt32.or_self]
    · rw [saturation, saturation, if_neg hm, UInt32.or_zero]
  constructor
  · rw [UInt32.or_assoc, hsame]
  · rw [UInt32.or_assoc, UInt32.or_comm (saturation m), hsame]

theorem tally_perm {events events' : List Event} (h : events'.Perm events) :
    tally events' = tally events := by
  simp only [tally, h.length_eq, h.countP_eq]

theorem tally_bounds (events : List Event) :
    (tally events).rows = (tally events).peakTotal + (tally events).nonpeakTotal ∧
      (tally events).peakStable ≤ (tally events).peakTotal ∧
      (tally events).nonpeakStable ≤ (tally events).nonpeakTotal := by
  refine ⟨?_, List.countP_mono_left (by simp +contextual),
    List.countP_mono_left (by simp +contextual)⟩
  have hsplit := List.length_eq_countP_add_countP (fun e : Event => e.isPeak) (l := events)
  simpa [tally] using hsplit

/-- The tally of one event more. -/
def Tally.add (k : Tally) (e : Event) : Tally where
  rows := k.rows + 1
  peakTotal := if e.isPeak then k.peakTotal + 1 else k.peakTotal
  peakStable := if e.isPeak ∧ e.isStable then k.peakStable + 1 else k.peakStable
  nonpeakTotal := if e.isPeak then k.nonpeakTotal else k.nonpeakTotal + 1
  nonpeakStable := if ¬e.isPeak ∧ e.isStable then k.nonpeakStable + 1 else k.nonpeakStable

theorem tally_concat (events : List Event) (e : Event) :
    tally (events ++ [e]) = (tally events).add e := by
  cases hp : e.isPeak <;> cases hs : e.isStable <;> simp [tally, Tally.add, hp, hs]

namespace StabilityTrace

variable (k : Tally)

theorem stepRows_trace : k.trace.stepRows = { k with rows := k.rows + 1 : Tally }.trace := by
  simp only [stepRows, Tally.trace, satadd32_clamp, (or_saturation (Nat.le_succ _) _).2]

theorem stepPeakTotal_trace (h : k.peakTotal + 1 ≤ k.rows) :
    k.trace.stepPeakTotal = { k with peakTotal := k.peakTotal + 1 : Tally }.trace := by
  simp only [stepPeakTotal, Tally.trace, satadd32_clamp, (or_saturation h _).1]

theorem stepPeakStable_trace (h : k.peakStable + 1 ≤ k.rows) :
    k.trace.stepPeakStable = { k with peakStable := k.peakStable + 1 : Tally }.trace := by
  simp only [stepPeakStable, Tally.trace, satadd32_clamp, (or_saturation h _).1]

theorem stepNonpeakTotal_trace (h : k.nonpeakTotal + 1 ≤ k.rows) :
    k.trace.stepNonpeakTotal = { k with nonpeakTotal := k.nonpeakTotal + 1 : Tally }.trace := by
  simp only [stepNonpeakTotal, Tally.trace, satadd32_clamp, (or_saturation h _).1]

theorem stepNonpeakStable_trace (h : k.nonpeakStable + 1 ≤ k.rows) :
    k.trace.stepNonpeakStable = { k with nonpeakStable := k.nonpeakStable + 1 : Tally }.trace := by
  simp only [stepNonpeakStable, Tally.trace, satadd32_clamp, (or_saturation h _).1]

/-- One event more: the flag of the rows covers that of every other counter. -/
theorem add_trace {k : Tally} (hrows : k.rows = k.peakTotal + k.nonpeakTotal)
    (hpeak : k.peakStable ≤ k.peakTotal) (hnonpeak : k.nonpeakStable ≤ k.nonpeakTotal) (e : Event) :
    k.trace.add e = (k.add e).trace := by
  rw [add, stepRows_trace, Tally.add]
  cases hp : e.isPeak
  · rw [if_neg Bool.false_ne_true, stepNonpeakTotal_trace _ (by dsimp only; omega)]
    cases hs : e.isStable
    · simp
    · rw [if_pos rfl, stepNonpeakStable_trace _ (by dsimp only; omega)]
      simp
  · rw [if_pos rfl, stepPeakTotal_trace _ (by dsimp only; omega)]
    cases hs : e.isStable
    · simp
    · rw [if_pos rfl, stepPeakStable_trace _ (by dsimp only; omega)]
      simp

theorem run_eq (events : List Event) : run events = (tally events).trace := by
  induction events using List.reverseRecOn with
  | nil => rfl
  | append_singleton events e ih =>
      obtain ⟨hrows, hpeak, hnonpeak⟩ := tally_bounds events
      rw [tally_concat, ← add_trace hrows hpeak hnonpeak, ← ih, run, run, List.foldl_append,
        List.foldl_cons, List.foldl_nil]

/-! ### Rates -/

theorem toInt_rate {rate : Word} (h : rate.toNat ≤ 2 ^ 30) : rate.toInt32.toInt = rate.toNat := by
  change rate.toBitVec.toInt = rate.toBitVec.toNat
  have hbits : rate.toBitVec.toNat ≤ 2 ^ 30 := h
  exact BitVec.toInt_eq_toNat_of_lt (by omega)

theorem subInt32_eq {a b : Int32} (hlow : -2 ^ 31 ≤ a.toInt - b.toInt)
    (hhigh : a.toInt - b.toInt < 2 ^ 31) :
    ∃ d, subInt32 a b = .ok d ∧ d.toInt = a.toInt - b.toInt := by
  refine ⟨a - b, if_pos ⟨hlow, hhigh⟩, ?_⟩
  rw [Int32.toInt_sub]
  exact Int.bmod_eq_of_le (by omega) (by omega)

theorem finalStatus_trace (k : Tally) :
    finalStatus k.trace &&& statusCounterSaturated = 0 ↔ k.rows < 2 ^ 32 := by
  have hstatus : k.trace.status &&& statusCounterSaturated = saturation k.rows := by
    simp only [Tally.trace, saturation]
    split_ifs <;> rfl
  have hflags : finalStatus k.trace &&& statusCounterSaturated = saturation k.rows := by
    rw [finalStatus, hstatus, saturation]
    split_ifs <;> rfl
  rw [hflags, saturation]
  split_ifs with h
  · exact iff_of_false (by decide) (by omega)
  · exact iff_of_true rfl (by omega)

/-- What the events leave does not depend on their order. The rates are ratios of a part to
its whole, so that their difference fits; the rows are the sum of both kinds until the
counter of the rows has run out, which the status tells. -/
theorem finalize_run (events : List Event) :
    (∀ events', events'.Perm events → finalize (run events') = finalize (run events)) ∧
    ∃ status t, finalize (run events) = .ok (status, t) ∧
      t.peakStable ≤ t.peakTotal ∧ t.nonpeakStable ≤ t.nonpeakTotal ∧
      t.peakRateQ30 = ratioQ30 t.peakStable t.peakTotal ∧
      t.nonpeakRateQ30 = ratioQ30 t.nonpeakStable t.nonpeakTotal ∧
      t.peakRateQ30.toNat ≤ 2 ^ 30 ∧ t.nonpeakRateQ30.toNat ≤ 2 ^ 30 ∧
      t.deltaPQ30.toInt = t.peakRateQ30.toNat - t.nonpeakRateQ30.toNat ∧
      (status &&& statusCounterSaturated = 0 ↔ events.length < 2 ^ 32) ∧
      (events.length < 2 ^ 32 → t.rows.toNat = t.peakTotal.toNat + t.nonpeakTotal.toNat) := by
  constructor
  · intro events' hperm
    rw [run_eq, run_eq, tally_perm hperm]
  obtain ⟨hrows, hpeak, hnonpeak⟩ := tally_bounds events
  have hpeakLe : (tally events).trace.peakStable ≤ (tally events).trace.peakTotal :=
    FixedPoint.clamp_mono hpeak
  have hnonpeakLe : (tally events).trace.nonpeakStable ≤ (tally events).trace.nonpeakTotal :=
    FixedPoint.clamp_mono hnonpeak
  have hpeakRate := FixedPoint.ratio_le (show 30 < 32 by decide) hpeakLe
  have hnonpeakRate := FixedPoint.ratio_le (show 30 < 32 by decide) hnonpeakLe
  have hpeakInt := toInt_rate hpeakRate
  have hnonpeakInt := toInt_rate hnonpeakRate
  obtain ⟨delta, hsub, hdelta⟩ := subInt32_eq
    (a := (ratioQ30 (tally events).trace.peakStable (tally events).trace.peakTotal).toInt32)
    (b := (ratioQ30 (tally events).trace.nonpeakStable (tally events).trace.nonpeakTotal).toInt32)
    (by rw [ratioQ30, ratioQ30]; omega) (by rw [ratioQ30, ratioQ30]; omega)
  rw [run_eq, finalize, hsub, Result.ok_bind]
  refine ⟨_, _, rfl, hpeakLe, hnonpeakLe, rfl, rfl, hpeakRate, hnonpeakRate, ?_,
    finalStatus_trace (tally events), fun hlt => ?_⟩
  · change delta.toInt = _
    rw [hdelta, ratioQ30, ratioQ30, hpeakInt, hnonpeakInt]
  · have hlen : (tally events).rows < 2 ^ 32 := hlt
    simp only [Tally.trace]
    rw [FixedPoint.toNat_clamp_of_lt hlen, FixedPoint.toNat_clamp_of_lt (by omega),
      FixedPoint.toNat_clamp_of_lt (by omega), hrows]

end StabilityTrace

end Blake3.Stability
