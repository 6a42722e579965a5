import Mathlib.Data.List.Basic
import Mathlib.Data.List.Induction

/-!
Histories of a machine that answers every input with an output: one entry for
each step, with the states around it. An invariant may speak of the history
so far as well as of the state.
-/

namespace Trace

variable {σ ι ο : Type*}

structure Entry (σ ι ο : Type*) where
  before : σ
  input : ι
  output : ο
  after : σ

/-- The entry of one step. -/
def entry (step : σ → ι → ο × σ) (s : σ) (i : ι) : Entry σ ι ο :=
  ⟨s, i, (step s i).1, (step s i).2⟩

def history (step : σ → ι → ο × σ) : σ → List ι → List (Entry σ ι ο)
  | _, [] => []
  | s, i :: is => entry step s i :: history step (step s i).2 is

def final (step : σ → ι → ο × σ) (s : σ) (is : List ι) : σ :=
  is.foldl (fun s i => (step s i).2) s

variable {step : σ → ι → ο × σ}

theorem history_append (s : σ) (is js : List ι) :
    history step s (is ++ js) = history step s is ++ history step (final step s is) js := by
  induction is generalizing s with
  | nil => rfl
  | cons i is ih => exact congrArg (entry step s i :: ·) (ih _)

theorem final_concat (s : σ) (is : List ι) (i : ι) :
    final step s (is ++ [i]) = (step (final step s is) i).2 := by
  simp [final]

theorem history_concat (s : σ) (is : List ι) (i : ι) :
    history step s (is ++ [i]) = history step s is ++ [entry step (final step s is) i] := by
  rw [history_append]
  rfl

/-- What holds at the start and is kept by every step holds of every history. -/
theorem invariant_history {I : List (Entry σ ι ο) → σ → Prop} {s : σ} (init : I [] s)
    (keep : ∀ h t i, I h t → I (h ++ [entry step t i]) (step t i).2) (is : List ι) :
    I (history step s is) (final step s is) := by
  induction is using List.reverseRecOn with
  | nil => exact init
  | append_singleton is i ih =>
      rw [history_concat, final_concat]
      exact keep _ _ _ ih

/-- The first entries of a history are the history of the first inputs. -/
theorem exists_of_history_eq_append {s : σ} {is : List ι} {pre post : List (Entry σ ι ο)}
    (h : history step s is = pre ++ post) :
    ∃ js ks, is = js ++ ks ∧ pre = history step s js ∧
      post = history step (final step s js) ks := by
  induction pre generalizing s is with
  | nil => exact ⟨[], is, rfl, rfl, h.symm⟩
  | cons p pre ih =>
      cases is with
      | nil => simp [history] at h
      | cons j is =>
          obtain ⟨rfl, htail⟩ := List.cons.inj h
          obtain ⟨js, ks, rfl, rfl, rfl⟩ := ih htail
          exact ⟨j :: js, ks, rfl, rfl, rfl⟩

/-- A place in a history is a step from the state that the inputs before it lead to. -/
theorem exists_of_history_eq {s : σ} {is : List ι} {pre post : List (Entry σ ι ο)}
    {e : Entry σ ι ο} (h : history step s is = pre ++ e :: post) :
    ∃ js i ks, is = js ++ i :: ks ∧ pre = history step s js ∧
      e = entry step (final step s js) i ∧ post = history step e.after ks := by
  obtain ⟨js, ks, rfl, hpre, hpost⟩ := exists_of_history_eq_append h
  cases ks with
  | nil => simp [history] at hpost
  | cons i ks =>
      obtain ⟨rfl, rfl⟩ := List.cons.inj hpost
      exact ⟨js, i, ks, rfl, hpre, rfl, rfl⟩

theorem exists_of_mem_history {s : σ} {is : List ι} {e : Entry σ ι ο}
    (h : e ∈ history step s is) : ∃ t i, e = entry step t i := by
  obtain ⟨pre, post, hsplit⟩ := List.append_of_mem h
  obtain ⟨js, i, -, -, -, he, -⟩ := exists_of_history_eq hsplit
  exact ⟨_, i, he⟩

/-- A set of states that no step leaves. -/
theorem closed_history {P : σ → Prop} (keep : ∀ t i, P t → P (step t i).2) {s : σ} (hs : P s)
    (is : List ι) : ∀ e ∈ history step s is, P e.after := by
  induction is generalizing s with
  | nil => simp [history]
  | cons i is ih =>
      intro e he
      rcases List.mem_cons.mp he with rfl | he
      · exact keep s i hs
      · exact ih (keep s i hs) e he

/-! ### The entries since one of a kind -/

variable {α : Type*}

/-- The last entry of a history is the one that is looked for, or comes after it. -/
theorem concat_eq_append_cons {h pre post : List α} {c e : α} :
    h ++ [c] = pre ++ e :: post ↔
      (h = pre ∧ c = e ∧ post = []) ∨ ∃ mid, post = mid ++ [c] ∧ h = pre ++ e :: mid := by
  constructor
  · intro heq
    rcases List.eq_nil_or_concat post with rfl | ⟨mid, d, rfl⟩
    · obtain ⟨rfl, hc⟩ := List.append_inj' heq rfl
      exact Or.inl ⟨rfl, List.singleton_inj.mp hc, rfl⟩
    · rw [List.concat_eq_append, ← List.cons_append, ← List.append_assoc] at heq
      obtain ⟨rfl, hc⟩ := List.append_inj' heq rfl
      obtain rfl := List.singleton_inj.mp hc
      exact Or.inr ⟨mid, List.concat_eq_append, rfl⟩
  · rintro (⟨rfl, rfl, rfl⟩ | ⟨mid, rfl, rfl⟩)
    · rfl
    · simp

/-- How many entries are marked since the last one that resets the count. -/
def countSince (reset mark : α → Bool) (h : List α) : ℕ :=
  h.foldl (fun n a => if reset a then 0 else if mark a then n + 1 else n) 0

variable {reset mark : α → Bool}

@[simp] theorem countSince_nil : countSince reset mark [] = 0 := rfl

@[simp] theorem countSince_concat (h : List α) (a : α) :
    countSince reset mark (h ++ [a]) =
      if reset a then 0
      else if mark a then countSince reset mark h + 1 else countSince reset mark h := by
  simp [countSince]

theorem countSince_append_cons (pre : List α) {a : α} (ha : reset a = true) {mid : List α}
    (hmid : ∀ x ∈ mid, reset x = false) :
    countSince reset mark (pre ++ a :: mid) = mid.countP mark := by
  induction mid using List.reverseRecOn with
  | nil => simp [ha]
  | append_singleton mid x ih =>
      have hx : reset x = false := hmid x (by simp)
      have hrest := ih fun y hy => hmid y (by simp [hy])
      rw [← List.cons_append, ← List.append_assoc, countSince_concat, hrest, List.countP_append]
      cases hm : mark x <;> simp [hx, hm]

end Trace
