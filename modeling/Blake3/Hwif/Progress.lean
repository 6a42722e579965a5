import Mathlib.Data.Fintype.EquivFin
import Blake3.Hwif.Once

/-!
Under every interleaving the backend is chosen once, and no call returns another
one; and no run gets stuck: whatever the threads have done, they can go on
until all their calls have returned.
-/

namespace Blake3.Hwif

open ReleaseAcquire

variable {ι : Type*} [DecidableEq ι] {target : BuildTarget} {calls : ι → List Call} {c : State ι}

/-- A state that the threads can reach from the start. -/
abbrev State.Reached (target : BuildTarget) (calls : ι → List Call) (c : State ι) : Prop :=
  State.Reaches target (State.init calls) c

/-- The thread takes one step, to `s`, which leaves the memory as it is. -/
theorem exists_load (target : BuildTarget) {g : Global} {next : GlobalValue g → Caller} {i : ι}
    {n : ℕ}
    {w : Message Global (GlobalValue g)}
    (action : (c.threads i).state.next target = .load g next)
    (visible : (c.threads i).view g ≤ n) (written : c.memory g n = some w) :
    ∃ c', State.Reaches target c c' ∧ c'.memory = c.memory ∧
      (c'.threads i).state = next w.value := by
  obtain ⟨W, hstep⟩ := Config.step_load (Caller.next target) action visible written
  exact ⟨_, .single hstep, rfl, by rw [Config.update_threads_self]⟩

theorem exists_own (target : BuildTarget) {next : Caller} {i : ι}
    (action : (c.threads i).state.next target = .own next) :
    ∃ c', State.Reaches target c c' ∧ c'.memory = c.memory ∧ (c'.threads i).state = next :=
  ⟨_, .single (.thread i (.own action)), rfl, by rw [Config.update_threads_self]⟩

/-- Every thread can see the last state once it is there. -/
theorem exists_published_visible (h : State.Reached target calls c) (hm : Published c.memory)
    (i : ι) : ∃ n w, (c.threads i).view .bootstrapState ≤ n ∧
      c.memory .bootstrapState n = some w ∧ w.value = (2 : UInt8) := by
  have hwrites := (invariant_of_reaches h).writes
  obtain ⟨n, w, hwritten, hw⟩ := hm
  have hn := (StateWrite.view_pos (hwrites _ _ _ hwritten) hw).1
  obtain ⟨w', hseen⟩ := Option.isSome_iff_exists.mp (h.sound.threads i .bootstrapState)
  cases (hwrites _ _ _ hseen : StateWrite _ w') with
  | initial place => exact ⟨n, w, by omega, hwritten, hw⟩
  | claim place => exact ⟨n, w, by omega, hwritten, hw⟩
  | published _ value => exact ⟨_, w', le_rfl, hseen, value⟩

/-- The thread has made all its calls, and all have returned. -/
structure Caller.Finished (s : Caller) : Prop where
  ready : s.pc = .ready
  todo : s.todo = []

/-! ### After the publication -/

section Published

variable {i : ι}

theorem exists_return_of_loadCurrent (h : State.Reached target calls c)
    (hpc : (c.threads i).state.pc = .loadCurrent) :
    ∃ c', State.Reaches target c c' ∧ c'.memory = c.memory ∧
      (c'.threads i).state.pc = .ready ∧ (c'.threads i).state.todo = (c.threads i).state.todo := by
  obtain ⟨w, hw⟩ := Option.isSome_iff_exists.mp (h.sound.threads i .current)
  obtain ⟨c', hc', hmemory, hstate⟩ := exists_load target
    (show _ = Act.load _ _ by rw [Caller.next, hpc]) le_rfl hw
  exact ⟨c', hc', hmemory, by rw [hstate]; rfl, by rw [hstate]; rfl⟩

/-- The loops and the tests for the last state find it. -/
theorem exists_loadCurrent (h : State.Reached target calls c) (hm : Published c.memory)
    (hpc : (c.threads i).state.pc = .currentLoad ∨ (c.threads i).state.pc = .bootstrapLoad ∨
      (c.threads i).state.pc = .spin) :
    ∃ c', State.Reaches target c c' ∧ c'.memory = c.memory ∧
      (c'.threads i).state = (c.threads i).state.goto .loadCurrent := by
  obtain ⟨n, w, hvisible, hwritten, hw⟩ := exists_published_visible h hm i
  rcases hpc with hpc | hpc | hpc <;>
  · obtain ⟨c', hc', hmemory, hstate⟩ := exists_load target
      (show _ = Act.load _ _ by rw [Caller.next, hpc]) hvisible hwritten
    exact ⟨c', hc', hmemory, by rw [hstate, hw]; rfl⟩

theorem exists_return_of_load (h : State.Reached target calls c) (hm : Published c.memory)
    (hpc : (c.threads i).state.pc = .currentLoad ∨ (c.threads i).state.pc = .bootstrapLoad ∨
      (c.threads i).state.pc = .spin) :
    ∃ c', State.Reaches target c c' ∧ c'.memory = c.memory ∧
      (c'.threads i).state.pc = .ready ∧ (c'.threads i).state.todo = (c.threads i).state.todo := by
  obtain ⟨c', hc', hmemory, hstate⟩ := exists_loadCurrent h hm hpc
  obtain ⟨d, hd, hmemory', hready, htodo⟩ :=
    exists_return_of_loadCurrent (i := i) (h.trans hc') (by rw [hstate]; rfl)
  exact ⟨d, hc'.trans hd, hmemory'.trans hmemory, hready, by rw [htodo, hstate]; rfl⟩

theorem exists_return (h : State.Reached target calls c) (hm : Published c.memory) (i : ι) :
    ∃ c', State.Reaches target c c' ∧ c'.memory = c.memory ∧
      (c'.threads i).state.pc = .ready ∧ (c'.threads i).state.todo = (c.threads i).state.todo := by
  have hinit : ¬ (c.threads i).state.pc.Initialises :=
    fun hi => (invariant_of_reaches h).phases.unpublished i hi hm
  cases hpc : (c.threads i).state.pc with
  | ready => exact ⟨c, .refl, rfl, hpc, rfl⟩
  | currentLoad => exact exists_return_of_load h hm (.inl hpc)
  | bootstrapLoad => exact exists_return_of_load h hm (.inr (.inl hpc))
  | spin => exact exists_return_of_load h hm (.inr (.inr hpc))
  | compareExchange =>
      -- the exchange fails, since it sees the last state
      obtain ⟨n, w, hvisible, hwritten, hw⟩ := exists_published_visible h hm i
      have hstep : Config.Step (Caller.next target) c (c.update i c.memory _) :=
        .thread i (.swapFailed (show _ = Act.swap _ _ _ _ _ by rw [Caller.next, hpc]) hvisible
          hwritten (by rw [hw]; decide))
      obtain ⟨c', hc', hmemory, hready, htodo⟩ := exists_return_of_load (i := i) (h.tail hstep) hm
        (by rw [Config.update_threads_self]; exact .inr (.inr rfl))
      rw [Config.update_threads_self] at htodo
      exact ⟨c', hc'.head hstep, hmemory, hready, htodo⟩
  | loadCurrent => exact exists_return_of_loadCurrent h hpc
  | probe => exact absurd (hpc ▸ .probe) hinit
  | storeCurrent ops => exact absurd (hpc ▸ .storeCurrent ops) hinit
  | storeState ops => exact absurd (hpc ▸ .storeState ops) hinit

/-- One call after the other returns. -/
theorem exists_finished_of_published (h : State.Reached target calls c) (hm : Published c.memory)
    (i : ι) : ∃ c', State.Reaches target c c' ∧ c'.memory = c.memory ∧
      (c'.threads i).state.Finished := by
  induction htodo : (c.threads i).state.todo generalizing c with
  | nil =>
      obtain ⟨c', hc', hmemory, hready, htodo'⟩ := exists_return h hm i
      exact ⟨c', hc', hmemory, hready, htodo'.trans htodo⟩
  | cons call todo ih =>
      obtain ⟨c', hc', hmemory, hready, htodo'⟩ := exists_return h hm i
      rw [htodo] at htodo'
      obtain ⟨d, hd, hmemory', hrest⟩ : ∃ d, State.Reaches target c' d ∧ d.memory = c'.memory ∧
          (d.threads i).state.todo = todo := by
        cases call with
        | bootstrap | current =>
            obtain ⟨d, hd, hmemory', hstate⟩ := exists_own target
              (show _ = Act.own _ by rw [Caller.next, hready, htodo'])
            exact ⟨d, hd, hmemory', by rw [hstate]⟩
      have hsame := hmemory'.trans hmemory
      obtain ⟨e, he, hmemory'', hfinished⟩ :=
        ih ((h.trans hc').trans hd) (hsame ▸ hm) hrest
      exact ⟨e, (hc'.trans hd).trans he, hmemory''.trans hsame, hfinished⟩

end Published

/-! ### Up to the publication -/

section Unpublished

variable {i : ι}

/-- The thread that has won the exchange needs nobody else to publish. -/
theorem exists_published_of_initialises (h : State.Reached target calls c)
    (hi : (c.threads i).state.pc.Initialises) :
    ∃ c', State.Reaches target c c' ∧ Published c'.memory := by
  have hlast : ∀ {d : State ι} (ops : Ops), State.Reached target calls d →
      (d.threads i).state.pc = .storeState ops →
      ∃ c', State.Reaches target d c' ∧ Published c'.memory := by
    intro d ops hd hpc
    obtain ⟨n, W, hstep⟩ := hd.sound.step_store (Caller.next target) (i := i)
      (show _ = Act.store _ _ _ by rw [Caller.next, hpc])
    refine ⟨_, .single hstep, n, ⟨(2 : UInt8), W⟩, ?_, rfl⟩
    rw [Config.update_memory, Memory.write_self]
  have hstore : ∀ {d : State ι} (ops : Ops), State.Reached target calls d →
      (d.threads i).state.pc = .storeCurrent ops →
      ∃ c', State.Reaches target d c' ∧ Published c'.memory := by
    intro d ops hd hpc
    obtain ⟨n, W, hstep⟩ := hd.sound.step_store (Caller.next target) (i := i)
      (show _ = Act.store _ _ _ by rw [Caller.next, hpc])
    obtain ⟨c', hc', hm⟩ := hlast ops (hd.tail hstep)
      (by rw [Config.update_threads_self]; rfl)
    exact ⟨c', hc'.head hstep, hm⟩
  cases hpc : (c.threads i).state.pc with
  | probe =>
      obtain ⟨d, hd, _, hstate⟩ := exists_own target
        (show _ = Act.own _ by rw [Caller.next, hpc])
      obtain ⟨c', hc', hm⟩ := hstore (selected target) (h.trans hd) (by rw [hstate])
      exact ⟨c', hd.trans hc', hm⟩
  | storeCurrent ops => exact hstore ops h hpc
  | storeState ops => exact hlast ops h hpc
  | _ =>
      rw [hpc] at hi
      cases hi

/-- Before the exchange every thread sees the initial state. -/
theorem exists_initial_visible (h : State.Reached target calls c)
    (hfree : c.memory .bootstrapState 1 = none) (i : ι) :
    ∃ w, (c.threads i).view .bootstrapState ≤ 0 ∧ c.memory .bootstrapState 0 = some w ∧
      w.value = (0 : UInt8) := by
  have hinv := invariant_of_reaches h
  obtain ⟨w, hseen⟩ := Option.isSome_iff_exists.mp (h.sound.threads i .bootstrapState)
  cases (hinv.writes _ _ _ hseen : StateWrite _ w) with
  | initial place value =>
      rw [place] at hseen
      exact ⟨w, place.le, hseen, value⟩
  | claim place =>
      rw [place, hfree] at hseen
      cases hseen
  | published _ value =>
      have hsome := hinv.claimed ⟨_, w, hseen, value⟩
      rw [hfree] at hsome
      cases hsome

theorem exists_initialises_of_compareExchange (h : State.Reached target calls c)
    (hfree : c.memory .bootstrapState 1 = none)
    (hpc : (c.threads i).state.pc = .compareExchange) :
    ∃ c', State.Reaches target c c' ∧ (c'.threads i).state.pc.Initialises := by
  obtain ⟨w, hvisible, hwritten, hw⟩ := exists_initial_visible h hfree i
  refine ⟨_, .single (.thread i (.swap (show _ = Act.swap _ _ _ _ _ by rw [Caller.next, hpc])
    hvisible hwritten hw hfree)), ?_⟩
  rw [Config.update_threads_self]
  exact .probe

theorem exists_initialises_of_bootstrapLoad (h : State.Reached target calls c)
    (hfree : c.memory .bootstrapState 1 = none)
    (hpc : (c.threads i).state.pc = .bootstrapLoad) :
    ∃ c', State.Reaches target c c' ∧ (c'.threads i).state.pc.Initialises := by
  obtain ⟨w, hvisible, hwritten, hw⟩ := exists_initial_visible h hfree i
  obtain ⟨d, hd, hmemory, hstate⟩ := exists_load target
    (show _ = Act.load _ _ by rw [Caller.next, hpc]) hvisible hwritten
  obtain ⟨c', hc', hi⟩ := exists_initialises_of_compareExchange (i := i) (h.trans hd)
    (hmemory ▸ hfree) (by rw [hstate, hw]; rfl)
  exact ⟨c', hd.trans hc', hi⟩

theorem exists_initialises_of_currentLoad (h : State.Reached target calls c)
    (hfree : c.memory .bootstrapState 1 = none)
    (hpc : (c.threads i).state.pc = .currentLoad) :
    ∃ c', State.Reaches target c c' ∧ (c'.threads i).state.pc.Initialises := by
  obtain ⟨w, hvisible, hwritten, hw⟩ := exists_initial_visible h hfree i
  obtain ⟨d, hd, hmemory, hstate⟩ := exists_load target
    (show _ = Act.load _ _ by rw [Caller.next, hpc]) hvisible hwritten
  obtain ⟨c', hc', hi⟩ := exists_initialises_of_bootstrapLoad (i := i) (h.trans hd)
    (hmemory ▸ hfree) (by rw [hstate, hw]; rfl)
  exact ⟨c', hd.trans hc', hi⟩

/-- As long as the exchange has not been won, any thread in a call can win it. -/
theorem exists_initialises (h : State.Reached target calls c)
    (hfree : c.memory .bootstrapState 1 = none) (hi : ¬ (c.threads i).state.Finished) :
    ∃ c', State.Reaches target c c' ∧ (c'.threads i).state.pc.Initialises := by
  have hinv := invariant_of_reaches h
  have hunpublished : ¬ Published c.memory := by
    intro hm
    have hsome := hinv.claimed hm
    rw [hfree] at hsome
    cases hsome
  cases hpc : (c.threads i).state.pc with
  | ready =>
      cases htodo : (c.threads i).state.todo with
      | nil => exact absurd ⟨hpc, htodo⟩ hi
      | cons call todo =>
          cases call with
          | bootstrap =>
              obtain ⟨d, hd, hmemory, hstate⟩ := exists_own target
                (show _ = Act.own _ by rw [Caller.next, hpc, htodo])
              obtain ⟨c', hc', hinit⟩ := exists_initialises_of_bootstrapLoad (i := i)
                (h.trans hd) (hmemory ▸ hfree) (by rw [hstate])
              exact ⟨c', hd.trans hc', hinit⟩
          | current =>
              obtain ⟨d, hd, hmemory, hstate⟩ := exists_own target
                (show _ = Act.own _ by rw [Caller.next, hpc, htodo])
              obtain ⟨c', hc', hinit⟩ := exists_initialises_of_currentLoad (i := i)
                (h.trans hd) (hmemory ▸ hfree) (by rw [hstate])
              exact ⟨c', hd.trans hc', hinit⟩
  | currentLoad => exact exists_initialises_of_currentLoad h hfree hpc
  | bootstrapLoad => exact exists_initialises_of_bootstrapLoad h hfree hpc
  | compareExchange => exact exists_initialises_of_compareExchange h hfree hpc
  | spin =>
      have hsome := hinv.phases.spinning i hpc
      rw [hfree] at hsome
      cases hsome
  | loadCurrent => exact absurd (hinv.phases.reports i (.inl hpc)) hunpublished
  | probe => exact ⟨c, .refl, hpc ▸ .probe⟩
  | storeCurrent ops => exact ⟨c, .refl, hpc ▸ .storeCurrent ops⟩
  | storeState ops => exact ⟨c, .refl, hpc ▸ .storeState ops⟩

theorem exists_finished (h : State.Reached target calls c) (i : ι) :
    ∃ c', State.Reaches target c c' ∧ (c'.threads i).state.Finished := by
  by_cases hi : (c.threads i).state.Finished
  · exact ⟨c, .refl, hi⟩
  obtain ⟨d, hd, hm⟩ : ∃ d, State.Reaches target c d ∧ Published d.memory := by
    rcases hfree : c.memory .bootstrapState 1 with _ | w
    · obtain ⟨d, hd, hinit⟩ := exists_initialises h hfree hi
      obtain ⟨e, he, hm⟩ := exists_published_of_initialises (h.trans hd) hinit
      exact ⟨e, hd.trans he, hm⟩
    · rcases (invariant_of_reaches h).phases.claimed (by simp [hfree]) with hm | ⟨j, hj⟩
      · exact ⟨c, .refl, hm⟩
      · exact exists_published_of_initialises h hj
  obtain ⟨c', hc', _, hfinished⟩ := exists_finished_of_published (h.trans hd) hm i
  exact ⟨c', hd.trans hc', hfinished⟩

end Unpublished

/-! ### All threads -/

theorem count_of_reaches (h : State.Reached target calls c) (i : ι) :
    (c.threads i).state.count = (calls i).length := by
  refine Reachable.invariant (I := fun d => (d.threads i).state.count = (calls i).length) h
    (Nat.add_zero _) ?_
  rintro d _ hd ⟨j, step⟩
  by_cases hj : i = j
  · subst hj
    rw [Config.update_threads_self, (step_move step).count, hd]
  · rw [Config.update_threads_of_ne d _ _ hj, hd]

/-- A thread that has finished takes no further step. -/
theorem finished_stable {c' : State ι} (h : State.Reaches target c c') {i : ι}
    (hi : (c.threads i).state.Finished) : c'.threads i = c.threads i := by
  refine Reachable.invariant (I := fun d => d.threads i = c.threads i) h rfl ?_
  rintro d _ hd ⟨j, step⟩
  by_cases hj : i = j
  · subst hj
    have hhalt : (d.threads i).state.next target = .halt := by
      rw [hd, Caller.next, hi.ready, hi.todo]
    cases step with
    | _ action => exact absurd (hhalt.symm.trans action) nofun
  · rw [Config.update_threads_of_ne d _ _ hj, hd]

theorem exists_all_finished [Finite ι] (h : State.Reached target calls c) :
    ∃ c', State.Reaches target c c' ∧ ∀ i, (c'.threads i).state.Finished := by
  have := Fintype.ofFinite ι
  suffices hsome : ∀ threads : Finset ι, ∃ c', State.Reaches target c c' ∧
      ∀ i ∈ threads, (c'.threads i).state.Finished by
    obtain ⟨c', hc', hall⟩ := hsome Finset.univ
    exact ⟨c', hc', fun i => hall i (Finset.mem_univ i)⟩
  intro threads
  induction threads using Finset.induction_on with
  | empty => exact ⟨c, .refl, nofun⟩
  | insert i threads _ ih =>
      obtain ⟨d, hd, hfinished⟩ := ih
      obtain ⟨c', hc', hi⟩ := exists_finished (h.trans hd) i
      refine ⟨c', hd.trans hc', fun j hj => ?_⟩
      rcases Finset.mem_insert.mp hj with rfl | hj
      · exact hi
      · rw [finished_stable hc' (hfinished j hj)]
        exact hfinished j hj

theorem hwifSelftest_selected (target : BuildTarget) :
    hwifSelftest target (selected target) = 0 := by
  obtain ⟨arch, osLinux, privileged⟩ := target
  cases arch <;> cases osLinux <;> cases privileged <;> rfl

/-- However many threads call, and in whatever order they take their steps: every
call returns the backend of the build, the probe is run by one thread at most
and no more than once, and before its thread has stored the last state no
call of any thread returns. -/
theorem bootstrap_once {calls : ι → List Call} (h : State.Reaches target (State.init calls) c) :
    (∀ i, ∀ ops ∈ (c.threads i).state.results,
      ops = selected target ∧ hwifSelftest target ops = 0) ∧
    (∀ i, (c.threads i).state.probes ≤ 1) ∧
    (∀ i j, 0 < (c.threads i).state.probes → 0 < (c.threads j).state.probes → i = j) ∧
    ∀ i, (c.threads i).state.results ≠ [] →
      (∃ j, (c.threads j).state.probes = 1) ∧ ∀ j, ¬ (c.threads j).state.pc.Initialises := by
  have hinv := invariant_of_reaches h
  have hle : ∀ i, (c.threads i).state.probes ≤ (c.threads i).state.claims :=
    fun i => Nat.le_add_right _ _
  refine ⟨fun i ops hops => ?_, fun i => (hle i).trans (hinv.once.le_one i), ?_, ?_⟩
  · have heq := (hinv.threads i).results ops hops
    exact ⟨heq, heq ▸ hwifSelftest_selected target⟩
  · intro i j hi hj
    exact hinv.once.unique i j (hi.trans_le (hle i)) (hj.trans_le (hle j))
  · intro i hresults
    have hpublished := hinv.phases.reports i (.inr hresults)
    obtain ⟨j, hj⟩ := hinv.phases.probed hpublished
    have hone := (hle j).trans (hinv.once.le_one j)
    exact ⟨⟨j, by omega⟩, fun k hk => hinv.phases.unpublished k hk hpublished⟩

/-- Two threads that start at the same time, with two calls each. -/
theorem bootstrap_once_pair :
    ∃ c : State (Fin 2),
      State.Reaches ⟨.x86_64, true, false⟩ (State.init fun _ => [.current, .bootstrap]) c ∧
      (c.threads 0).state.results = [.x86_64, .x86_64] ∧
      ∃ j, (c.threads j).state.probes = 1 := by
  obtain ⟨c, hc, hfinished⟩ := exists_all_finished
    (show State.Reached ⟨.x86_64, true, false⟩ (fun _ : Fin 2 => [.current, .bootstrap]) _
      from .refl)
  obtain ⟨hresults, _, _, hprobed⟩ := bootstrap_once hc
  have hcount := count_of_reaches hc 0
  rw [Caller.count, (hfinished 0).todo, (hfinished 0).ready] at hcount
  have heq : (c.threads 0).state.results = List.replicate 2 .x86_64 :=
    List.eq_replicate_iff.mpr ⟨by simpa using hcount, fun ops hops => (hresults 0 ops hops).1⟩
  exact ⟨c, hc, heq, (hprobed 0 (by simp [heq])).1⟩

/-- Every run can be completed, and then every call of every thread has returned
the backend of the build. -/
theorem bootstrap_completes [Finite ι] (h : State.Reached target calls c) :
    ∃ c', State.Reaches target c c' ∧ ∀ i,
      (c'.threads i).state.results = List.replicate (calls i).length (selected target) := by
  obtain ⟨c', hc', hfinished⟩ := exists_all_finished h
  refine ⟨c', hc', fun i => List.eq_replicate_iff.mpr ⟨?_, ?_⟩⟩
  · have hcount := count_of_reaches (h.trans hc') i
    rw [Caller.count, (hfinished i).todo, (hfinished i).ready] at hcount
    simpa using hcount
  · exact (invariant_of_reaches (h.trans hc')).threads i |>.results

theorem bootstrap_completes_pair :
    ∃ c : State (Fin 2),
      State.Reaches ⟨.arm, true, false⟩ (State.init fun _ => [.current, .bootstrap]) c ∧
      ∀ i, (c.threads i).state.results = [.armv7User, .armv7User] :=
  bootstrap_completes .refl

end Blake3.Hwif
