import Mathlib.Algebra.Order.Ring.Nat
import Mathlib.Data.List.Basic

/-!
A sink that takes what it is given in writes of any length. A plan says how many
items the next writes take at most, and a write that takes none has failed.
-/

namespace ShortWrites

variable {α : Type*}

/-- What was taken so far, and how much the next writes take at most. -/
structure Sink (α : Type*) where
  written : List α
  plan : ℕ → ℕ

namespace Sink

/-- One write, with the number of items it took. -/
def write (s : Sink α) (items : List α) : ℕ × Sink α :=
  let taken := min items.length (s.plan 0)
  (taken, { written := s.written ++ items.take taken, plan := fun i => s.plan (i + 1) })

/-- No write fails. -/
def Reliable (s : Sink α) : Prop := ∀ i, 0 < s.plan i

end Sink

/-- The loop that writes until all items are taken, from `done` on, and gives up
at a write that fails. -/
def writeFrom (items : List α) (done : ℕ) (s : Sink α) : Bool × Sink α :=
  if done < items.length then
    match s.write (items.drop done) with
    | (0, s) => (false, s)
    | (taken + 1, s) => writeFrom items (done + (taken + 1)) s
  else (true, s)
termination_by items.length - done

/-- The loop over some buffers, of which none is written behind a failure. -/
def writePieces : List (List α) → Bool × Sink α → Bool × Sink α
  | [], state => state
  | piece :: pieces, (ok, s) => writePieces pieces (if ok then writeFrom piece 0 s else (ok, s))

variable {items : List α} {pieces : List (List α)} {done : ℕ} {s : Sink α}

theorem writeFrom_length (items : List α) (s : Sink α) :
    writeFrom items items.length s = (true, s) := by
  rw [writeFrom, if_neg (Nat.lt_irrefl _)]

/-- What was taken is the front of the items, and all of them if and only if the
loop says so. -/
theorem writeFrom_spec (h : done ≤ items.length) :
    ∃ n ≤ (items.drop done).length,
      (writeFrom items done s).2.written = s.written ++ (items.drop done).take n ∧
      ((writeFrom items done s).1 = true ↔ n = (items.drop done).length) := by
  induction hleft : items.length - done using Nat.strong_induction_on generalizing done s with
  | _ left ih =>
  rcases Nat.lt_or_ge done items.length with hlt | hge
  · have hlength : (items.drop done).length = items.length - done := List.length_drop
    rw [writeFrom, if_pos hlt, Sink.write]
    rcases htaken : min (items.drop done).length (s.plan 0) with _ | taken
    · refine ⟨0, Nat.zero_le _, by rw [List.take_zero], ?_⟩
      simp only [Bool.false_eq_true, false_iff]
      omega
    · have hle : taken + 1 ≤ (items.drop done).length := htaken ▸ Nat.min_le_left _ _
      obtain ⟨n, hn, hwritten, hok⟩ := ih (items.length - (done + (taken + 1))) (by omega)
        (s := ⟨s.written ++ (items.drop done).take (taken + 1), fun i => s.plan (i + 1)⟩)
        (show done + (taken + 1) ≤ items.length by omega) rfl
      rw [← List.drop_drop] at hn hwritten hok
      rw [List.length_drop] at hn hok
      refine ⟨taken + 1 + n, by omega, ?_, ?_⟩
      · rw [hwritten, List.append_assoc, ← List.take_add]
      · rw [hok]
        omega
  · obtain rfl : done = items.length := Nat.le_antisymm h hge
    rw [writeFrom_length]
    exact ⟨0, Nat.zero_le _, by simp, by simp⟩

theorem writeFrom_reliable (h : s.Reliable) :
    (writeFrom items done s).1 = true ∧ (writeFrom items done s).2.Reliable := by
  induction hleft : items.length - done using Nat.strong_induction_on generalizing done s with
  | _ left ih =>
  rw [writeFrom]
  split
  · next hlt =>
      have hpos := h 0
      have hlength : (items.drop done).length = items.length - done := List.length_drop
      rw [Sink.write]
      rcases htaken : min (items.drop done).length (s.plan 0) with _ | taken
      · omega
      · exact ih _ (by omega) (fun i => h (i + 1)) rfl
  · exact ⟨rfl, h⟩

theorem writePieces_singleton (piece : List α) (state : Bool × Sink α) :
    writePieces [piece] state = if state.1 then writeFrom piece 0 state.2 else state := rfl

theorem writePieces_append (pieces pieces' : List (List α)) (state : Bool × Sink α) :
    writePieces (pieces ++ pieces') state = writePieces pieces' (writePieces pieces state) := by
  induction pieces generalizing state with
  | nil => rfl
  | cons piece pieces ih => exact ih _

theorem writePieces_failed (pieces : List (List α)) (s : Sink α) :
    writePieces pieces (false, s) = (false, s) := by
  induction pieces with
  | nil => rfl
  | cons piece pieces ih => exact ih

/-- What was taken is the front of the buffers one after the other. -/
theorem writePieces_spec (pieces : List (List α)) (s : Sink α) :
    ∃ n ≤ pieces.flatten.length,
      (writePieces pieces (true, s)).2.written = s.written ++ pieces.flatten.take n ∧
      ((writePieces pieces (true, s)).1 = true ↔ n = pieces.flatten.length) := by
  induction pieces generalizing s with
  | nil => exact ⟨0, le_rfl, by simp [writePieces], by simp [writePieces]⟩
  | cons piece pieces ih =>
      obtain ⟨n, hn, hwritten, hok⟩ := writeFrom_spec (s := s) (Nat.zero_le piece.length)
      rw [List.drop_zero] at hn hwritten hok
      rw [List.flatten_cons, List.length_append, writePieces, if_pos rfl]
      generalize writeFrom piece 0 s = state at hwritten hok
      obtain ⟨ok, s'⟩ := state
      dsimp only at hwritten hok
      cases ok with
      | false =>
          have hlt : n < piece.length := Nat.lt_of_le_of_ne hn fun heq =>
            Bool.false_ne_true (hok.mpr heq)
          rw [writePieces_failed]
          refine ⟨n, by omega, ?_, ?_⟩
          · rw [hwritten, List.take_append_of_le_length hn]
          · simp only [Bool.false_eq_true, false_iff]
            omega
      | true =>
          obtain rfl := hok.mp rfl
          obtain ⟨m, hm, hwritten', hok'⟩ := ih s'
          refine ⟨piece.length + m, by omega, ?_, ?_⟩
          · rw [hwritten', hwritten, List.take_length, List.append_assoc,
              List.take_length_add_append]
          · rw [hok']
            omega

theorem writePieces_reliable (h : s.Reliable) : (writePieces pieces (true, s)).1 = true := by
  induction pieces generalizing s with
  | nil => rfl
  | cons piece pieces ih =>
      obtain ⟨hok, hreliable⟩ : (writeFrom piece 0 s).1 = true ∧ (writeFrom piece 0 s).2.Reliable :=
        writeFrom_reliable h
      rw [writePieces, if_pos rfl]
      generalize writeFrom piece 0 s = state at hok hreliable
      obtain ⟨ok, s'⟩ := state
      obtain rfl : ok = true := hok
      exact ih hreliable

end ShortWrites
