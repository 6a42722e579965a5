import Mathlib.Data.List.Basic

/-!
A source that delivers its items in reads of any positive length. A plan says
how many items the next reads deliver at most, or that a read fails.
-/

namespace ShortReads

variable {α : Type*}

/-- What is left, and what the next reads do: deliver up to one more item than planned, or fail. -/
structure Source (α : Type*) where
  rest : List α
  plan : ℕ → Option ℕ

namespace Source

/-- One read of at most `len` items; no items at the end of the source. -/
def read (s : Source α) (len : ℕ) : Option (List α) × Source α :=
  match s.plan 0 with
  | none => (none, { s with plan := fun i => s.plan (i + 1) })
  | some size =>
      (some (s.rest.take (min len (size + 1))),
        { rest := s.rest.drop (min len (size + 1)), plan := fun i => s.plan (i + 1) })

/-- No read fails. -/
def Reliable (s : Source α) : Prop := ∀ i, (s.plan i).isSome = true

/-- The source of a list in reads of any positive lengths. -/
def inReads (items : List α) (sizes : ℕ → ℕ) : Source α :=
  { rest := items, plan := fun i => some (sizes i) }

theorem reliable_inReads (items : List α) (sizes : ℕ → ℕ) : (inReads items sizes).Reliable :=
  fun _ => rfl

/-- A read delivers a part of what is left, which is empty only at the end. -/
theorem Reliable.read {s : Source α} (h : s.Reliable) {len : ℕ} (hlen : 0 < len) :
    ∃ n s', s.read len = (some (s.rest.take n), s') ∧ s'.rest = s.rest.drop n ∧ s'.Reliable ∧
      0 < n ∧ n ≤ len := by
  obtain ⟨size, hsize⟩ := Option.isSome_iff_exists.mp (h 0)
  refine ⟨min len (size + 1), ⟨s.rest.drop (min len (size + 1)), fun i => s.plan (i + 1)⟩, ?_,
    rfl, fun i => h (i + 1), by omega, by omega⟩
  rw [Source.read, hsize]

/-- Reading to the end of the source. -/
theorem Reliable.induction {motive : (s : Source α) → s.Reliable → Prop} {len : ℕ} (hlen : 0 < len)
    (nil : ∀ s s' h, s.read len = (some [], s') → s.rest = [] → motive s h)
    (cons : ∀ s s' a got h h', s.read len = (some (a :: got), s') → s.rest = a :: got ++ s'.rest →
      got.length + 1 ≤ len → motive s' h' → motive s h) {s : Source α} (h : s.Reliable) :
    motive s h := by
  obtain ⟨n, hn⟩ : ∃ n, s.rest.length < n := ⟨_, Nat.lt_succ_self _⟩
  induction n generalizing s with
  | zero => exact absurd hn (Nat.not_lt_zero _)
  | succ n ih =>
      obtain ⟨k, s', hread, hrest, hs', hpos, hle⟩ := h.read hlen
      rcases htake : s.rest.take k with _ | ⟨a, got⟩
      · rw [htake] at hread
        refine nil s s' h hread ?_
        rcases List.take_eq_nil_iff.mp htake with hk | hnil
        · exact absurd hk (Nat.ne_of_gt hpos)
        · exact hnil
      · rw [htake] at hread
        have happend : s.rest = a :: got ++ s'.rest := by
          rw [← htake, hrest, List.take_append_drop]
        have hlength := congrArg List.length htake
        rw [List.length_take, List.length_cons] at hlength
        refine cons s s' a got h hs' hread happend (by omega) (ih hs' ?_)
        rw [happend, List.length_append, List.length_cons] at hn
        omega

end Source

end ShortReads
