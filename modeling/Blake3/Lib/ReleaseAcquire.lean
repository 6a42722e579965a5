import Mathlib.Logic.Relation
import Mathlib.Algebra.Order.BigOperators.Group.Finset

/-!
Threads over memory with acquire loads, release stores and compare-and-swap. A
location keeps all its writes, each at its place in the modification order. A
load may read any write that the view of its thread does not rule out, and
takes over what the writer had seen; a successful swap writes at the place
right behind the write it has read.
-/

namespace ReleaseAcquire

variable {L : Type*} {V : L → Type*} {S ι : Type*}

/-- For every location the last write that has been seen. -/
abbrev View (L : Type*) := L → ℕ

structure Message (L α : Type*) where
  value : α
  view : View L

abbrev Memory (V : L → Type*) := ∀ l, ℕ → Option (Message L (V l))

/-- The next action of a thread, with its state afterwards. -/
inductive Act (V : L → Type*) (S : Type*)
  | load (l : L) (next : V l → S)
  | store (l : L) (value : V l) (next : S)
  | swap (l : L) (expected desired : V l) (succeeded : S) (failed : V l → S)
  | own (next : S)
  | halt

structure Thread (L S : Type*) where
  state : S
  view : View L

structure Config (V : L → Type*) (ι S : Type*) where
  memory : Memory V
  threads : ι → Thread L S

/-- All locations with their first values, and nothing seen beyond them. -/
def Config.start (values : ∀ l, V l) (states : ι → S) : Config V ι S where
  memory l n := if n = 0 then some ⟨values l, fun _ => 0⟩ else none
  threads i := ⟨states i, fun _ => 0⟩

def View.join (W X : View L) : View L :=
  fun l => max (W l) (X l)

/-- Every write of every location satisfies `P`. -/
def Memory.All (P : ∀ l, ℕ → Message L (V l) → Prop) (m : Memory V) : Prop :=
  ∀ l n w, m l n = some w → P l n w

theorem start_all {P : ∀ l, ℕ → Message L (V l) → Prop} {values : ∀ l, V l} {states : ι → S}
    (h : ∀ l, P l 0 ⟨values l, fun _ => 0⟩) : (Config.start values states).memory.All P := by
  intro l n w hw
  simp only [Config.start, Option.ite_none_right_eq_some, Option.some.injEq] at hw
  obtain ⟨rfl, rfl⟩ := hw
  exact h l

section Update

variable [DecidableEq ι]

def Config.update (c : Config V ι S) (i : ι) (m : Memory V) (t : Thread L S) : Config V ι S :=
  ⟨m, Function.update c.threads i t⟩

@[simp] theorem Config.update_memory (c : Config V ι S) (i : ι) (m : Memory V)
    (t : Thread L S) : (c.update i m t).memory = m := rfl

@[simp] theorem Config.update_threads_self (c : Config V ι S) (i : ι) (m : Memory V)
    (t : Thread L S) : (c.update i m t).threads i = t := by
  simp [Config.update]

theorem Config.update_threads_of_ne (c : Config V ι S) {i j : ι} (m : Memory V)
    (t : Thread L S) (h : j ≠ i) : (c.update i m t).threads j = c.threads j := by
  simp [Config.update, h]

/-- What holds of the thread that steps and of the other threads holds of all. -/
theorem Config.update_forall {Q : Thread L S → Prop} {c : Config V ι S} {i : ι} {m : Memory V}
    {t : Thread L S} (self : Q t) (others : ∀ j, j ≠ i → Q (c.threads j)) (j : ι) :
    Q ((c.update i m t).threads j) := by
  by_cases hj : j = i
  · rwa [hj, update_threads_self]
  · rw [update_threads_of_ne c m t hj]
    exact others j hj

end Update

variable [DecidableEq L]

def Memory.write (m : Memory V) (l : L) (n : ℕ) (w : Message L (V l)) : Memory V :=
  Function.update m l (Function.update (m l) n (some w))

/-- The view after the write at place `n` has been seen. -/
def View.seen (W : View L) (l : L) (n : ℕ) : View L :=
  Function.update W l (max (W l) n)

inductive Step (program : S → Act V S) (m : Memory V) (t : Thread L S) :
    Memory V → Thread L S → Prop
  | load {l next n w} (action : program t.state = .load l next) (visible : t.view l ≤ n)
      (written : m l n = some w) :
      Step program m t m ⟨next w.value, (t.view.join w.view).seen l n⟩
  | store {l v next n} (action : program t.state = .store l v next) (later : t.view l < n)
      (free : m l n = none) :
      Step program m t (m.write l n ⟨v, t.view.seen l n⟩) ⟨next, t.view.seen l n⟩
  | swap {l expected desired succeeded failed n w}
      (action : program t.state = .swap l expected desired succeeded failed)
      (visible : t.view l ≤ n) (written : m l n = some w) (equal : w.value = expected)
      (free : m l (n + 1) = none) :
      Step program m t (m.write l (n + 1) ⟨desired, (t.view.join w.view).seen l (n + 1)⟩)
        ⟨succeeded, (t.view.join w.view).seen l (n + 1)⟩
  | swapFailed {l expected desired succeeded failed n w}
      (action : program t.state = .swap l expected desired succeeded failed)
      (visible : t.view l ≤ n) (written : m l n = some w) (unequal : w.value ≠ expected) :
      Step program m t m ⟨failed w.value, (t.view.join w.view).seen l n⟩
  | own {next} (action : program t.state = .own next) : Step program m t m ⟨next, t.view⟩

/-- A thread at an action of its own takes that action. -/
theorem Step.eq_of_own {program : S → Act V S} {m m' : Memory V} {t t' : Thread L S} {next : S}
    (h : Step program m t m' t') (own : program t.state = .own next) :
    m' = m ∧ t' = ⟨next, t.view⟩ := by
  cases h with
  | own action =>
      cases own.symm.trans action
      exact ⟨rfl, rfl⟩
  | _ action => cases own.symm.trans action

section Views

theorem View.le_seen (W : View L) (l : L) (n : ℕ) : W ≤ W.seen l n := by
  intro l'
  by_cases hl : l' = l
  · subst hl
    simp [View.seen]
  · simp [View.seen, hl]

theorem View.le_seen_self (W : View L) (l : L) (n : ℕ) : n ≤ W.seen l n l := by
  simp [View.seen]

theorem View.le_join_seen_right (W X : View L) (l : L) (n : ℕ) : X ≤ (W.join X).seen l n :=
  fun l' => (le_max_right _ _).trans (View.le_seen (W.join X) l n l')

end Views

namespace Memory

variable {P : ∀ l, ℕ → Message L (V l) → Prop} {m : Memory V} {l : L} {n : ℕ}
  {w : Message L (V l)}

@[simp] theorem write_self : m.write l n w l n = some w := by
  simp [write]

theorem write_of_ne_place {n' : ℕ} (h : n' ≠ n) : m.write l n w l n' = m l n' := by
  simp [write, h]

theorem write_of_ne {l' : L} (h : l' ≠ l) : m.write l n w l' = m l' := by
  simp [write, h]

/-- A write at a free place leaves all writes as they are. -/
theorem write_eq_some {l' : L} {n' : ℕ} {w' : Message L (V l')} (free : m l n = none)
    (h : m l' n' = some w') : m.write l n w l' n' = some w' := by
  by_cases hl : l' = l
  · subst hl
    rwa [write_of_ne_place]
    rintro rfl
    rw [free] at h
    cases h
  · rwa [write_of_ne hl]

theorem write_isSome {l' : L} {n' : ℕ} (h : (m l' n').isSome) :
    (m.write l n w l' n').isSome := by
  by_cases hl : l' = l
  · subst hl
    by_cases hn : n' = n
    · simp [hn]
    · rwa [write_of_ne_place hn]
  · rwa [write_of_ne hl]

theorem All.write (h : m.All P) (hw : P l n w) : (m.write l n w).All P := by
  intro l' n' w' hw'
  by_cases hl : l' = l
  · subst hl
    by_cases hn : n' = n
    · subst hn
      rw [write_self] at hw'
      cases hw'
      exact hw
    · rw [write_of_ne_place hn] at hw'
      exact h _ _ _ hw'
  · rw [write_of_ne hl] at hw'
    exact h _ _ _ hw'

end Memory

/-! ### Runs -/

section Runs

variable [DecidableEq ι] {program : S → Act V S}

inductive Config.Step (program : S → Act V S) (c : Config V ι S) : Config V ι S → Prop
  | thread (i : ι) {m t} (step : ReleaseAcquire.Step program c.memory (c.threads i) m t) :
      Config.Step program c (c.update i m t)

/-- What the threads can reach, in any order of their steps. -/
def Reachable (program : S → Act V S) : Config V ι S → Config V ι S → Prop :=
  Relation.ReflTransGen (Config.Step program)

theorem Reachable.invariant {I : Config V ι S → Prop} {c c' : Config V ι S}
    (h : Reachable program c c') (init : I c)
    (keep : ∀ d d', I d → Config.Step program d d' → I d') : I c' := by
  induction h with
  | refl => exact init
  | tail _ step ih => exact keep _ _ ih step

/-- Predicates of single writes and single threads that every step keeps hold of
all writes and all threads. -/
theorem Reachable.modular {P : ∀ l, ℕ → Message L (V l) → Prop} {T : Thread L S → Prop}
    {c c' : Config V ι S} (h : Reachable program c c') (writes : c.memory.All P)
    (threads : ∀ i, T (c.threads i))
    (keep : ∀ m t m' t', m.All P → T t → ReleaseAcquire.Step program m t m' t' →
      m'.All P ∧ T t') :
    c'.memory.All P ∧ ∀ i, T (c'.threads i) := by
  refine h.invariant (I := fun d => d.memory.All P ∧ ∀ i, T (d.threads i)) ⟨writes, threads⟩ ?_
  rintro d _ ⟨hwrites, hthreads⟩ ⟨i, step⟩
  obtain ⟨hm, ht⟩ := keep _ _ _ _ hwrites (hthreads i) step
  exact ⟨hm, Config.update_forall ht fun j _ => hthreads j⟩

/-- Writes are never undone. -/
theorem Step.isSome {m m' : Memory V} {t t' : Thread L S}
    (h : ReleaseAcquire.Step program m t m' t') {l : L} {n : ℕ} (hw : (m l n).isSome) :
    (m' l n).isSome := by
  cases h with
  | load => exact hw
  | store => exact Memory.write_isSome hw
  | swap => exact Memory.write_isSome hw
  | swapFailed => exact hw
  | own => exact hw

/-- A step that `claims` counts, or does not count. A counted step is a swap that
has read the first write of `l`. -/
structure Counts (claims : S → ℕ) (l : L) (m : Memory V) (t : Thread L S) (m' : Memory V)
    (t' : Thread L S) : Prop where
  cases : claims t'.state = claims t.state ∨
    claims t'.state = claims t.state + 1 ∧ m l 1 = none ∧ (m' l 1).isSome

/-- At most one claim in all threads together, and none before the write that is
its trace. -/
structure AtMostOne (claims : S → ℕ) (l : L) (c : Config V ι S) : Prop where
  le_one : ∀ i, claims (c.threads i).state ≤ 1
  unique : ∀ i j, 0 < claims (c.threads i).state → 0 < claims (c.threads j).state → i = j
  trace : ∀ i, 0 < claims (c.threads i).state → (c.memory l 1).isSome

theorem AtMostOne.step {claims : S → ℕ} {l : L} {c : Config V ι S} (h : AtMostOne claims l c)
    {i : ι} {m : Memory V} {t : Thread L S}
    (step : ReleaseAcquire.Step program c.memory (c.threads i) m t)
    (counts : Counts claims l c.memory (c.threads i) m t) :
    AtMostOne claims l (c.update i m t) := by
  rcases counts.cases with heq | ⟨hsucc, hfree, htrace⟩
  · have hclaims : ∀ j, claims ((c.update i m t).threads j).state =
        claims (c.threads j).state := by
      intro j
      by_cases hj : j = i
      · rw [hj, Config.update_threads_self, heq]
      · rw [Config.update_threads_of_ne c m t hj]
    refine ⟨fun j => ?_, fun j k => ?_, fun j => ?_⟩
    · rw [hclaims]
      exact h.le_one j
    · rw [hclaims, hclaims]
      exact h.unique j k
    · rw [hclaims]
      exact fun hj => step.isSome (h.trace j hj)
  · -- the first write of the place shows that nothing has been claimed before
    have hzero : ∀ j, claims (c.threads j).state = 0 := by
      intro j
      by_contra hj
      have := h.trace j (Nat.pos_of_ne_zero hj)
      rw [hfree] at this
      cases this
    have hclaims : ∀ j, j ≠ i → claims ((c.update i m t).threads j).state = 0 := by
      intro j hj
      rw [Config.update_threads_of_ne c m t hj, hzero]
    refine ⟨fun j => ?_, fun j k hj hk => ?_, fun j _ => htrace⟩
    · by_cases hj : j = i
      · rw [hj, Config.update_threads_self, hsucc, hzero]
      · rw [hclaims j hj]
        exact Nat.zero_le 1
    · have hi : ∀ k, 0 < claims ((c.update i m t).threads k).state → k = i := by
        intro k hk
        by_contra hne
        rw [hclaims k hne] at hk
        exact absurd hk (lt_irrefl 0)
      rw [hi j hj, hi k hk]

end Runs

/-! ### Actions that are possible -/

section Progress

variable [DecidableEq ι] {program : S → Act V S}

/-- The view is of writes that there are. -/
def Memory.Closed (m : Memory V) (W : View L) : Prop :=
  ∀ l, (m l (W l)).isSome

/-- Behind some place nothing is written. -/
def Memory.Bounded (m : Memory V) : Prop :=
  ∀ l, ∃ N, ∀ n, N ≤ n → m l n = none

omit [DecidableEq L] in
theorem Memory.Closed.join {m : Memory V} {W X : View L} (hW : m.Closed W) (hX : m.Closed X) :
    m.Closed (W.join X) := by
  intro l
  rcases le_total (W l) (X l) with h | h
  · rw [View.join, max_eq_right h]
    exact hX l
  · rw [View.join, max_eq_left h]
    exact hW l

theorem Memory.Closed.seen {m : Memory V} {W : View L} (hW : m.Closed W) {l : L} {n : ℕ}
    (hn : (m l n).isSome) : m.Closed (W.seen l n) := by
  intro l'
  by_cases hl : l' = l
  · subst hl
    rw [View.seen, Function.update_self]
    rcases le_total (W l') n with h | h
    · rwa [max_eq_right h]
    · rw [max_eq_left h]
      exact hW l'
  · rw [View.seen, Function.update_of_ne hl]
    exact hW l'

theorem Memory.Closed.write {m : Memory V} {W : View L} (hW : m.Closed W) (l : L) (n : ℕ)
    (w : Message L (V l)) : (m.write l n w).Closed W :=
  fun l' => Memory.write_isSome (hW l')

theorem Memory.Bounded.write {m : Memory V} (hm : m.Bounded) (l : L) (n : ℕ)
    (w : Message L (V l)) : (m.write l n w).Bounded := by
  intro l'
  obtain ⟨N, hN⟩ := hm l'
  by_cases hl : l' = l
  · subst hl
    refine ⟨max N (n + 1), fun k hk => ?_⟩
    rw [Memory.write_of_ne_place (by omega)]
    exact hN k (by omega)
  · exact ⟨N, fun k hk => by rw [Memory.write_of_ne hl]; exact hN k hk⟩

/-- All views are closed, those of the writes as well. -/
structure Config.Sound (c : Config V ι S) : Prop where
  writes : c.memory.All fun _ _ w => c.memory.Closed w.view
  threads : ∀ i, c.memory.Closed (c.threads i).view
  bounded : c.memory.Bounded

omit [DecidableEq L] [DecidableEq ι] in
theorem Config.sound_start (values : ∀ l, V l) (states : ι → S) :
    (Config.start values states).Sound where
  writes := start_all fun _ _ => rfl
  threads _ _ := rfl
  bounded _ := ⟨1, fun n hn => if_neg (by omega)⟩

/-- The step leaves a closed view, and closed writes, if it finds them. -/
structure Step.Closes (m' : Memory V) (t' : Thread L S) : Prop where
  writes : m'.All fun _ _ w => m'.Closed w.view
  thread : m'.Closed t'.view
  bounded : m'.Bounded

theorem Step.closes {m m' : Memory V} {t t' : Thread L S} (h : Step program m t m' t')
    (writes : m.All fun _ _ w => m.Closed w.view) (thread : m.Closed t.view)
    (bounded : m.Bounded) : Step.Closes m' t' := by
  have hwrite : ∀ l n (w : Message L (V l)), (m.write l n w).Closed w.view →
      (m.write l n w).All fun _ _ w' => (m.write l n w).Closed w'.view := by
    intro l n w hw
    exact Memory.All.write (fun l' n' w' hw' => (writes l' n' w' hw').write l n w) hw
  cases h with
  | load _ _ written =>
      exact ⟨writes, (thread.join (writes _ _ _ written)).seen (by simp [written]), bounded⟩
  | @store l v next n =>
      have hview := (thread.write l n ⟨v, t.view.seen l n⟩).seen (l := l) (n := n) (by simp)
      exact ⟨hwrite _ _ _ hview, hview, bounded.write _ _ _⟩
  | @swap l _ desired _ _ n w _ _ written =>
      have hview := ((thread.join (writes _ _ _ written)).write l (n + 1)
        ⟨desired, (t.view.join w.view).seen l (n + 1)⟩).seen (l := l) (n := n + 1) (by simp)
      exact ⟨hwrite _ _ _ hview, hview, bounded.write _ _ _⟩
  | swapFailed _ _ written =>
      exact ⟨writes, (thread.join (writes _ _ _ written)).seen (by simp [written]), bounded⟩
  | own => exact ⟨writes, thread, bounded⟩

theorem Config.Sound.step {c c' : Config V ι S} (h : c.Sound) (step : Config.Step program c c') :
    c'.Sound := by
  obtain ⟨i, step⟩ := step
  obtain ⟨hwrites, hthread, hbounded⟩ := step.closes h.writes (h.threads i) h.bounded
  refine ⟨hwrites, Config.update_forall (Q := fun t => Memory.Closed _ t.view) hthread ?_, hbounded⟩
  exact fun j _ l => step.isSome (h.threads j l)

theorem Reachable.sound {values : ∀ l, V l} {states : ι → S} {c : Config V ι S}
    (h : Reachable program (Config.start values states) c) : c.Sound :=
  Reachable.invariant h (Config.sound_start values states) fun _ _ => Config.Sound.step

variable {c : Config V ι S} {i : ι}

/-- A thread can load any write that its view allows. -/
theorem Config.step_load (program : S → Act V S) {l : L} {next : V l → S} {n : ℕ}
    {w : Message L (V l)}
    (action : program (c.threads i).state = .load l next)
    (visible : (c.threads i).view l ≤ n) (written : c.memory l n = some w) :
    ∃ W, Config.Step program c (c.update i c.memory ⟨next w.value, W⟩) :=
  ⟨_, .thread i (.load action visible written)⟩

/-- A thread can always store. -/
theorem Config.Sound.step_store (h : c.Sound) (program : S → Act V S) {l : L} {v : V l} {next : S}
    (action : program (c.threads i).state = .store l v next) :
    ∃ n W, Config.Step program c (c.update i (c.memory.write l n ⟨v, W⟩) ⟨next, W⟩) := by
  obtain ⟨N, hN⟩ := h.bounded l
  exact ⟨max N ((c.threads i).view l + 1), _,
    .thread i (.store action (by omega) (hN _ (le_max_left _ _)))⟩

omit [DecidableEq L] in
/-- The last of the writes without a gap from what the view has seen. -/
theorem Memory.Closed.exists_last {m : Memory V} {W : View L} (hW : m.Closed W) (hm : m.Bounded)
    (l : L) : ∃ n w, W l ≤ n ∧ m l n = some w ∧ m l (n + 1) = none := by
  obtain ⟨N, hN⟩ := hm l
  have hex : ∃ k, m l (W l + k + 1) = none := ⟨N, hN _ (by omega)⟩
  classical
  obtain ⟨w, hw⟩ : ∃ w, m l (W l + Nat.find hex) = some w := by
    apply Option.isSome_iff_exists.mp
    rcases hk : Nat.find hex with _ | k
    · exact hW l
    · exact Option.isSome_iff_ne_none.mpr (Nat.find_min hex (show k < _ by omega))
  exact ⟨_, w, Nat.le_add_right _ _, hw, Nat.find_spec hex⟩

omit [DecidableEq ι] in
/-- A thread can act unless it has halted. -/
theorem Config.Sound.exists_step (h : c.Sound) (hi : program (c.threads i).state ≠ .halt) :
    ∃ m t, ReleaseAcquire.Step program c.memory (c.threads i) m t := by
  cases action : program (c.threads i).state with
  | load l next =>
      obtain ⟨n, w, hn, hw, _⟩ := (h.threads i).exists_last h.bounded l
      exact ⟨_, _, .load action hn hw⟩
  | store l v next =>
      obtain ⟨N, hN⟩ := h.bounded l
      exact ⟨_, _, .store (n := max N ((c.threads i).view l + 1)) action (by omega)
        (hN _ (le_max_left _ _))⟩
  | swap l expected desired succeeded failed =>
      obtain ⟨n, w, hn, hw, hfree⟩ := (h.threads i).exists_last h.bounded l
      by_cases heq : w.value = expected
      · exact ⟨_, _, .swap action hn hw heq hfree⟩
      · exact ⟨_, _, .swapFailed action hn hw heq⟩
  | own next => exact ⟨_, _, .own action⟩
  | halt => exact absurd action hi

/-! ### Programs without loops -/

section Rank

/-- Every action brings the thread closer to its end. -/
def Descends (program : S → Act V S) (rank : S → ℕ) : Prop :=
  ∀ m t m' t', Step program m t m' t' → rank t'.state < rank t.state

variable [Fintype ι] {rank : S → ℕ}

def Config.height (rank : S → ℕ) (c : Config V ι S) : ℕ :=
  ∑ i, rank (c.threads i).state

theorem Descends.lt (hrank : Descends program rank) {c' : Config V ι S}
    (step : Config.Step program c c') : c'.height rank < c.height rank := by
  obtain ⟨i, step⟩ := step
  refine Finset.sum_lt_sum (fun j _ => ?_) ⟨i, Finset.mem_univ i, ?_⟩
  · by_cases hj : j = i
    · subst hj
      rw [Config.update_threads_self]
      exact (hrank _ _ _ _ step).le
    · rw [Config.update_threads_of_ne c _ _ hj]
  · rw [Config.update_threads_self]
    exact hrank _ _ _ _ step

/-- A run takes no more steps than there is rank at its start. -/
theorem Descends.length_le (hrank : Descends program rank) (run : ℕ → Config V ι S) (n : ℕ)
    (steps : ∀ k < n, Config.Step program (run k) (run (k + 1))) :
    n + (run n).height rank ≤ (run 0).height rank := by
  induction n with
  | zero => rw [Nat.zero_add]
  | succ n ih =>
      have hbefore := ih fun k hk => steps k (by omega)
      have hlast := hrank.lt (steps n (Nat.lt_succ_self n))
      omega

/-- Every run can be completed. -/
theorem Descends.exists_halted (hrank : Descends program rank) (h : c.Sound) :
    ∃ c', Reachable program c c' ∧ ∀ i, program (c'.threads i).state = .halt := by
  induction hn : c.height rank using Nat.strong_induction_on generalizing c with
  | _ n ih =>
    by_cases hall : ∀ i, program (c.threads i).state = .halt
    · exact ⟨c, .refl, hall⟩
    · obtain ⟨i, hi⟩ := not_forall.mp hall
      obtain ⟨m, t, step⟩ := h.exists_step hi
      have hstep : Config.Step program c (c.update i m t) := .thread i step
      obtain ⟨c', hc', hhalt⟩ := ih _ (hn ▸ hrank.lt hstep) (h.step hstep) rfl
      exact ⟨c', hc'.head hstep, hhalt⟩

end Rank

end Progress

end ReleaseAcquire
