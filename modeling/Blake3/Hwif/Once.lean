import Blake3.Hwif.Bootstrap

/-!
What one step of a thread can be, and what holds of the memory and of all
threads under every interleaving.
-/

namespace Blake3.Hwif

open ReleaseAcquire

variable {ι : Type*} [DecidableEq ι] {target : BuildTarget}

/-! ### One step of one thread -/

/-- The thread neither initialises nor has seen that this is done. -/
inductive Pc.Waits : Pc → Prop
  | ready : Waits .ready
  | currentLoad : Waits .currentLoad
  | bootstrapLoad : Waits .bootstrapLoad
  | compareExchange : Waits .compareExchange
  | spin : Waits .spin

/-- The thread has won the exchange and has not yet stored the last state. -/
inductive Pc.Initialises : Pc → Prop
  | probe : Initialises .probe
  | storeCurrent (ops : Ops) : Initialises (.storeCurrent ops)
  | storeState (ops : Ops) : Initialises (.storeState ops)

/-- The calls of a thread that have begun or are still to begin, and those that have returned. -/
def Caller.count (s : Caller) : ℕ :=
  s.todo.length + s.results.length + if s.pc = .ready then 0 else 1

inductive Move (target : BuildTarget) (m : Memory GlobalValue) (t : Thread Global Caller) :
    Memory GlobalValue → Thread Global Caller → Prop
  | waits {t' : Thread Global Caller} (before : t.state.pc.Waits) (after : t'.state.pc.Waits)
      (results : t'.state.results = t.state.results) (probes : t'.state.probes = t.state.probes)
      (count : t'.state.count = t.state.count)
      (spin : t'.state.pc = .spin → t.state.pc = .spin ∨
        ∃ n w, m .bootstrapState n = some w ∧ w.value ≠ (0 : UInt8)) :
      Move target m t m t'
  | sawState {n w W} (before : t.state.pc.Waits) (called : t.state.pc ≠ .ready)
      (written : m .bootstrapState n = some w) (state : w.value = (2 : UInt8))
      (view : w.view ≤ W) :
      Move target m t m ⟨t.state.goto .loadCurrent, W⟩
  | won {n w W} (before : t.state.pc = .compareExchange)
      (written : m .bootstrapState n = some w) (state : w.value = (0 : UInt8))
      (free : m .bootstrapState (n + 1) = none) (view : n + 1 ≤ W .bootstrapState) :
      Move target m t (m.write .bootstrapState (n + 1) ⟨(1 : UInt8), W⟩)
        ⟨t.state.goto .probe, W⟩
  | probed (before : t.state.pc = .probe) :
      Move target m t m
        ⟨{ t.state with pc := .storeCurrent (selected target), probes := t.state.probes + 1 },
          t.view⟩
  | storedCurrent {ops n} (before : t.state.pc = .storeCurrent ops)
      (later : t.view .current < n) (free : m .current n = none) :
      Move target m t (m.write .current n ⟨ops, t.view.seen .current n⟩)
        ⟨t.state.goto (.storeState ops), t.view.seen .current n⟩
  | storedState {ops n W} (before : t.state.pc = .storeState ops)
      (later : t.view .bootstrapState < n) (free : m .bootstrapState n = none)
      (view : t.view ≤ W) :
      Move target m t (m.write .bootstrapState n ⟨(2 : UInt8), W⟩) ⟨t.state.give ops, W⟩
  | loaded {n w W} (before : t.state.pc = .loadCurrent) (visible : t.view .current ≤ n)
      (written : m .current n = some w) :
      Move target m t m ⟨t.state.give w.value, W⟩

theorem step_move {m m' : Memory GlobalValue} {t t' : Thread Global Caller}
    (h : Step (Caller.next target) m t m' t') : Move target m t m' t' := by
  obtain ⟨⟨todo, pc, results, probes⟩, W⟩ := t
  cases pc with
  | ready =>
      cases todo with
      | nil => cases h with | _ action => cases action
      | cons call todo =>
          cases call with
          | bootstrap =>
              cases h with
              | own action =>
                  cases action
                  exact .waits .ready .bootstrapLoad rfl rfl (by simp +arith [Caller.count])
                    fun heq => by cases heq
              | _ action => cases action
          | current =>
              cases h with
              | own action =>
                  cases action
                  exact .waits .ready .currentLoad rfl rfl (by simp +arith [Caller.count])
                    fun heq => by cases heq
              | _ action => cases action
  | currentLoad =>
      cases h with
      | load action visible written =>
          cases action
          dsimp only
          -- who reads the final state takes over the view of its writer
          split_ifs with hstate
          · exact .waits .currentLoad .bootstrapLoad rfl rfl rfl fun heq => by cases heq
          · exact .sawState .currentLoad (fun heq => by cases heq) written (not_not.mp hstate)
              (View.le_join_seen_right _ _ _ _)
      | _ action => cases action
  | bootstrapLoad =>
      cases h with
      | load action visible written =>
          cases action
          dsimp only
          split_ifs with hstate
          · exact .sawState .bootstrapLoad (fun heq => by cases heq) written hstate
              (View.le_join_seen_right _ _ _ _)
          · exact .waits .bootstrapLoad .compareExchange rfl rfl rfl fun heq => by cases heq
      | _ action => cases action
  | compareExchange =>
      cases h with
      | swap action visible written equal free =>
          cases action
          exact .won rfl written equal free (View.le_seen_self _ _ _)
      | swapFailed action _ written unequal =>
          -- another thread has claimed the initialisation
          cases action
          exact .waits .compareExchange .spin rfl rfl rfl fun _ => .inr ⟨_, _, written, unequal⟩
      | _ action => cases action
  | probe =>
      cases h with
      | own action =>
          cases action
          exact .probed rfl
      | _ action => cases action
  | storeCurrent ops =>
      cases h with
      | store action later free =>
          cases action
          exact .storedCurrent rfl later free
      | _ action => cases action
  | storeState ops =>
      cases h with
      | store action later free =>
          cases action
          exact .storedState rfl later free (View.le_seen _ _ _)
      | _ action => cases action
  | spin =>
      cases h with
      | load action visible written =>
          cases action
          dsimp only
          split_ifs with hstate
          · exact .waits .spin .spin rfl rfl rfl fun _ => .inl rfl
          · exact .sawState .spin (fun heq => by cases heq) written (not_not.mp hstate)
              (View.le_join_seen_right _ _ _ _)
      | _ action => cases action
  | loadCurrent =>
      cases h with
      | load action visible written =>
          cases action
          exact .loaded rfl visible written
      | _ action => cases action

/-! ### What holds of every write and of every thread -/

/-- How often a thread has won the exchange. -/
def Caller.claims (s : Caller) : ℕ :=
  s.probes + if s.pc = .probe then 1 else 0

@[simp] theorem claims_goto (s : Caller) (pc : Pc) :
    (s.goto pc).claims = s.probes + if pc = .probe then 1 else 0 := rfl

@[simp] theorem claims_give (s : Caller) (ops : Ops) : (s.give ops).claims = s.probes := rfl

theorem claims_of_ne {s : Caller} (h : s.pc ≠ .probe) : s.claims = s.probes := by
  rw [Caller.claims, if_neg h, Nat.add_zero]

/-- The writes to `g_bootstrap_state`: the last of its values is only written by
a thread that has stored the backend. -/
inductive StateWrite (n : ℕ) (w : Message Global UInt8) : Prop
  | initial (place : n = 0) (value : w.value = 0)
  | claim (place : n = 1) (value : w.value = 1)
  | published (place : 1 < n) (value : w.value = 2) (view : 0 < w.view .current)

def WriteOk (target : BuildTarget) : ∀ g, ℕ → Message Global (GlobalValue g) → Prop
  | .current, n, w => n ≠ 0 → w.value = selected target
  | .bootstrapState, n, w => StateWrite n w

structure ThreadOk (target : BuildTarget) (t : Thread Global Caller) : Prop where
  storing : ∀ ops, t.state.pc = .storeCurrent ops ∨ t.state.pc = .storeState ops →
    ops = selected target
  claimed : t.state.pc.Initialises → 0 < t.state.claims ∧ 0 < t.view .bootstrapState
  stored : ∀ ops, t.state.pc = .storeState ops → 0 < t.view .current
  loading : t.state.pc = .loadCurrent → 0 < t.view .current
  results : ∀ ops ∈ t.state.results, ops = selected target

theorem StateWrite.eq_zero {n : ℕ} {w : Message Global UInt8} (h : StateWrite n w)
    (hw : w.value = 0) : n = 0 := by
  cases h with
  | initial place => exact place
  | claim _ value | published _ value =>
      rw [value] at hw
      exact absurd hw (by decide)

theorem StateWrite.view_pos {n : ℕ} {w : Message Global UInt8} (h : StateWrite n w)
    (hw : w.value = 2) : 1 < n ∧ 0 < w.view .current := by
  cases h with
  | published place _ view => exact ⟨place, view⟩
  | initial _ value | claim _ value =>
      rw [value] at hw
      exact absurd hw (by decide)

/-- A thread that waits has only its results to answer for. -/
theorem ThreadOk.of_waits {t : Thread Global Caller} (h : t.state.pc.Waits)
    (hresults : ∀ ops ∈ t.state.results, ops = selected target) : ThreadOk target t := by
  obtain ⟨⟨todo, pc, results, probes⟩, W⟩ := t
  refine ⟨?_, ?_, ?_, ?_, hresults⟩ <;> cases h <;> nofun

theorem mem_give {s : Caller} {ops x : Ops} (h : x ∈ (s.give ops).results) :
    x ∈ s.results ∨ x = ops := by
  simpa [Caller.give] using h

theorem Move.keeps {m m' : Memory GlobalValue} {t t' : Thread Global Caller}
    (h : Move target m t m' t') (hm : m.All (WriteOk target)) (ht : ThreadOk target t) :
    m'.All (WriteOk target) ∧ ThreadOk target t' := by
  cases h with
  | waits _ after results =>
      exact ⟨hm, .of_waits after (results ▸ ht.results)⟩
  | sawState _ _ written state view =>
      refine ⟨hm, nofun, nofun, nofun, fun _ => ?_, ht.results⟩
      exact (StateWrite.view_pos (hm _ _ _ written) state).2.trans_le (view .current)
  | won before written state free view =>
      have hzero := StateWrite.eq_zero (hm _ _ _ written) state
      refine ⟨hm.write (.claim (by omega) rfl), nofun, fun _ => ?_, nofun, nofun, ht.results⟩
      exact ⟨Nat.succ_pos _, (Nat.succ_pos _).trans_le view⟩
  | probed before =>
      refine ⟨hm, ?_, ?_, nofun, nofun, ht.results⟩
      · rintro ops (h | h)
        · cases h
          rfl
        · cases h
      · exact fun _ => ⟨Nat.succ_pos _, (ht.claimed (before ▸ .probe)).2⟩
  | @storedCurrent _ n before later =>
      have hops := ht.storing _ (.inl before)
      refine ⟨hm.write fun _ => hops, ?_, ?_, ?_, nofun, ht.results⟩
      · rintro ops (h | h) <;> cases h
        exact hops
      · obtain ⟨hclaims, hview⟩ := ht.claimed (before ▸ .storeCurrent _)
        rw [claims_of_ne (by simp [before])] at hclaims
        exact fun _ => ⟨by simpa using hclaims, hview.trans_le (View.le_seen t.view .current n _)⟩
      · exact fun _ _ => (Nat.zero_lt_of_lt later).trans_le (View.le_seen_self t.view .current n)
  | storedState before later free view =>
      have hops := ht.storing _ (.inr before)
      have hclaimed := (ht.claimed (before ▸ .storeState _)).2
      have hstored := ht.stored _ before
      refine ⟨hm.write (.published (by omega) rfl (hstored.trans_le (view _))), ?_⟩
      refine .of_waits .ready fun x hx => ?_
      exact (mem_give hx).elim (ht.results x) fun h => h.trans hops
  | loaded before visible written =>
      have hplace := (ht.loading before).trans_le visible
      refine ⟨hm, .of_waits .ready fun x hx => ?_⟩
      exact (mem_give hx).elim (ht.results x) fun h =>
        h.trans (hm _ _ _ written (Nat.pos_iff_ne_zero.mp hplace))

/-! ### The chosen backend is chosen once -/

theorem Pc.Waits.ne_probe {pc : Pc} (h : pc.Waits) : pc ≠ .probe := by
  cases h <;> nofun

theorem Pc.Waits.not_initialises {pc : Pc} (h : pc.Waits) : ¬ pc.Initialises := by
  cases h <;> nofun

theorem Move.counts {m m' : Memory GlobalValue} {t t' : Thread Global Caller}
    (h : Move target m t m' t') (hm : m.All (WriteOk target)) :
    Counts Caller.claims .bootstrapState m t m' t' := by
  cases h with
  | waits before after _ probes =>
      exact ⟨.inl (by rw [claims_of_ne after.ne_probe, claims_of_ne before.ne_probe, probes])⟩
  | sawState before =>
      exact ⟨.inl (by simp [claims_of_ne before.ne_probe])⟩
  | won before written state free =>
      have hzero := StateWrite.eq_zero (hm _ _ _ written) state
      subst hzero
      have hbefore : t.state.pc ≠ .probe := by simp [before]
      exact ⟨.inr ⟨by simp [claims_of_ne hbefore], free, by simp⟩⟩
  | probed before =>
      exact ⟨.inl (by simp [Caller.claims, before])⟩
  | storedCurrent before | storedState before | loaded before =>
      have hbefore : t.state.pc ≠ .probe := by simp [before]
      exact ⟨.inl (by simp [claims_of_ne hbefore])⟩

theorem Move.isSome {m m' : Memory GlobalValue} {t t' : Thread Global Caller}
    (h : Move target m t m' t') {g : Global} {n : ℕ} (hm : (m g n).isSome) : (m' g n).isSome := by
  cases h with
  | won | storedCurrent | storedState => exact Memory.write_isSome hm
  | _ => exact hm

theorem Move.count {m m' : Memory GlobalValue} {t t' : Thread Global Caller}
    (h : Move target m t m' t') : t'.state.count = t.state.count := by
  cases h with
  | waits _ _ _ _ count => exact count
  | sawState _ called => simp [Caller.count, Caller.goto, called]
  | storedState before | loaded before => simp +arith [Caller.count, Caller.give, before]
  | won before | probed before | storedCurrent before =>
      simp [Caller.count, Caller.goto, before]

theorem Move.probes_le {m m' : Memory GlobalValue} {t t' : Thread Global Caller}
    (h : Move target m t m' t') : t.state.probes ≤ t'.state.probes := by
  cases h with
  | waits _ _ _ probes => exact probes.ge
  | probed => exact Nat.le_succ _
  | _ => exact le_rfl

/-- The last state has been written. -/
def Published (m : Memory GlobalValue) : Prop :=
  ∃ n w, m .bootstrapState n = some w ∧ w.value = (2 : UInt8)

theorem Published.write {m : Memory GlobalValue} (h : Published m) {g : Global} {n : ℕ}
    (free : m g n = none) (w : Message Global (GlobalValue g)) : Published (m.write g n w) := by
  obtain ⟨n', w', hwritten, hw'⟩ := h
  exact ⟨n', w', Memory.write_eq_some free hwritten, hw'⟩

theorem Move.published_mono {m m' : Memory GlobalValue} {t t' : Thread Global Caller}
    (h : Move target m t m' t') (hm : Published m) : Published m' := by
  cases h with
  | won _ _ _ free | storedCurrent _ _ free | storedState _ _ free => exact hm.write free _
  | _ => exact hm

/-- Only the last store of the initialising thread publishes. -/
theorem Move.published {m m' : Memory GlobalValue} {t t' : Thread Global Caller}
    (h : Move target m t m' t') (hm : Published m') :
    Published m ∨ t.state.pc.Initialises ∧ t.state.pc ≠ .probe ∧ t'.state.pc = .ready := by
  cases h with
  | @won n =>
      obtain ⟨n', w', hwritten, hw'⟩ := hm
      by_cases hn : n' = n + 1
      · rw [hn, Memory.write_self] at hwritten
        cases hwritten
        cases hw'
      · rw [Memory.write_of_ne_place hn] at hwritten
        exact .inl ⟨n', w', hwritten, hw'⟩
  | storedCurrent =>
      obtain ⟨n', w', hwritten, hw'⟩ := hm
      rw [Memory.write_of_ne (show Global.bootstrapState ≠ .current from nofun)] at hwritten
      exact .inl ⟨n', w', hwritten, hw'⟩
  | storedState before =>
      exact .inr ⟨before ▸ .storeState _, by simp [before], rfl⟩
  | _ => exact .inl hm

theorem Move.initialises {m m' : Memory GlobalValue} {t t' : Thread Global Caller}
    (h : Move target m t m' t') (hm : m.All (WriteOk target)) (ht : t'.state.pc.Initialises) :
    t.state.pc.Initialises ∨ m .bootstrapState 1 = none := by
  cases h with
  | waits _ after => exact absurd ht after.not_initialises
  | won _ written state free =>
      have hzero := StateWrite.eq_zero (hm _ _ _ written) state
      subst hzero
      exact .inr free
  | probed before => exact .inl (before ▸ .probe)
  | storedCurrent before => exact .inl (before ▸ .storeCurrent _)
  | sawState | storedState | loaded => cases ht

/-- A thread returns, or is about to, only what has been published. -/
def Caller.Reports (s : Caller) : Prop :=
  s.pc = .loadCurrent ∨ s.results ≠ []

theorem Move.reports {m m' : Memory GlobalValue} {t t' : Thread Global Caller}
    (h : Move target m t m' t') (ht : t'.state.Reports) : t.state.Reports ∨ Published m' := by
  cases h with
  | waits _ after results =>
      rcases ht with ht | ht
      · rw [ht] at after
        cases after
      · exact .inl (.inr (results ▸ ht))
  | sawState _ _ written state => exact .inr ⟨_, _, written, state⟩
  | won | probed | storedCurrent => exact .inl (ht.imp nofun id)
  | storedState => exact .inr ⟨_, _, Memory.write_self, rfl⟩
  | loaded before => exact .inl (.inl before)

/-- A thread that starts to initialise goes on until it has published. -/
theorem Move.goesOn {m m' : Memory GlobalValue} {t t' : Thread Global Caller}
    (h : Move target m t m' t') (ht : t.state.pc.Initialises) :
    t'.state.pc.Initialises ∨ Published m' := by
  cases h with
  | waits before | sawState before => exact absurd ht before.not_initialises
  | won before | loaded before =>
      rw [before] at ht
      cases ht
  | probed => exact .inl (.storeCurrent _)
  | storedCurrent => exact .inl (.storeState _)
  | storedState => exact .inr ⟨_, _, Memory.write_self, rfl⟩

/-- The exchange is won by a thread that then initialises. -/
theorem Move.claim {m m' : Memory GlobalValue} {t t' : Thread Global Caller}
    (h : Move target m t m' t') (hm : (m' .bootstrapState 1).isSome) :
    (m .bootstrapState 1).isSome ∨ t'.state.pc.Initialises ∨ Published m' := by
  cases h with
  | won => exact .inr (.inl .probe)
  | storedState => exact .inr (.inr ⟨_, _, Memory.write_self, rfl⟩)
  | storedCurrent =>
      rw [Memory.write_of_ne (show Global.bootstrapState ≠ .current from nofun)] at hm
      exact .inl hm
  | _ => exact .inl hm

theorem Move.spin {m m' : Memory GlobalValue} {t t' : Thread Global Caller}
    (h : Move target m t m' t') (hm : m.All (WriteOk target)) (ht : t'.state.pc = .spin) :
    t.state.pc = .spin ∨ (m .bootstrapState 1).isSome ∨ Published m := by
  cases h with
  | waits _ _ _ _ _ spin =>
      refine (spin ht).imp id fun ⟨n, w, written, hw⟩ => ?_
      cases (hm _ _ _ written : StateWrite n w) with
      | initial _ value => exact absurd value hw
      | claim place =>
          subst place
          exact .inl (by simp [written])
      | published _ value => exact .inr ⟨n, w, written, value⟩
  | _ => cases ht

/-- What the threads have to do with the publication. -/
structure Phases (c : State ι) : Prop where
  unpublished : ∀ i, (c.threads i).state.pc.Initialises → ¬ Published c.memory
  probed : Published c.memory → ∃ i, 0 < (c.threads i).state.probes
  reports : ∀ i, (c.threads i).state.Reports → Published c.memory
  claimed : (c.memory .bootstrapState 1).isSome →
    Published c.memory ∨ ∃ i, (c.threads i).state.pc.Initialises
  spinning : ∀ i, (c.threads i).state.pc = .spin → (c.memory .bootstrapState 1).isSome

structure Invariant (target : BuildTarget) (c : State ι) : Prop where
  writes : c.memory.All (WriteOk target)
  threads : ∀ i, ThreadOk target (c.threads i)
  once : AtMostOne Caller.claims .bootstrapState c
  phases : Phases c

variable {c c' : State ι}

omit [DecidableEq ι] in
theorem Invariant.claims_pos (h : Invariant target c) {i : ι}
    (hi : (c.threads i).state.pc.Initialises) : 0 < (c.threads i).state.claims :=
  ((h.threads i).claimed hi).1

omit [DecidableEq ι] in
/-- A published state leaves the place of the exchange taken. -/
theorem Invariant.claimed (h : Invariant target c) (hm : Published c.memory) :
    (c.memory .bootstrapState 1).isSome := by
  obtain ⟨i, hi⟩ := h.phases.probed hm
  exact h.once.trace i (hi.trans_le (Nat.le_add_right _ _))

theorem Invariant.phases_step (h : Invariant target c) {i : ι} {m : Memory GlobalValue}
    {t : Thread Global Caller} (move : Move target c.memory (c.threads i) m t) :
    Phases (c.update i m t) := by
  -- one case for each phase, and in each the thread that moves and the others
  constructor
  · intro j hj hpublished
    rcases move.published hpublished with hold | ⟨hi, _, hready⟩
    · by_cases hji : j = i
      · subst hji
        rw [Config.update_threads_self] at hj
        rcases move.initialises h.writes hj with hinit | hfree
        · exact h.phases.unpublished j hinit hold
        · have hsome := h.claimed hold
          rw [hfree] at hsome
          cases hsome
      · rw [Config.update_threads_of_ne c m t hji] at hj
        exact h.phases.unpublished j hj hold
    · -- the thread that publishes was the only one to initialise
      by_cases hji : j = i
      · subst hji
        rw [Config.update_threads_self, hready] at hj
        cases hj
      · rw [Config.update_threads_of_ne c m t hji] at hj
        exact hji (h.once.unique j i (h.claims_pos hj) (h.claims_pos hi))
  · intro hpublished
    rcases move.published hpublished with hold | ⟨hi, hprobe, _⟩
    · obtain ⟨j, hj⟩ := h.phases.probed hold
      refine ⟨j, ?_⟩
      by_cases hji : j = i
      · subst hji
        rw [Config.update_threads_self]
        exact hj.trans_le move.probes_le
      · rwa [Config.update_threads_of_ne c m t hji]
    · have hclaims := h.claims_pos hi
      rw [claims_of_ne hprobe] at hclaims
      refine ⟨i, ?_⟩
      rw [Config.update_threads_self]
      exact hclaims.trans_le move.probes_le
  · refine Config.update_forall
      (Q := fun t' : Thread Global Caller => t'.state.Reports → Published m) ?_ ?_
    · exact fun ht => (move.reports ht).elim
        (fun hold => move.published_mono (h.phases.reports i hold)) id
    · exact fun j _ hj => move.published_mono (h.phases.reports j hj)
  · intro hclaimed
    rcases move.claim hclaimed with hold | hnew | hpublished
    · rcases h.phases.claimed hold with hpublished | ⟨j, hj⟩
      · exact .inl (move.published_mono hpublished)
      · by_cases hji : j = i
        · subst hji
          refine (move.goesOn hj).symm.imp id fun hnew => ⟨j, ?_⟩
          rwa [Config.update_threads_self]
        · refine .inr ⟨j, ?_⟩
          rwa [Config.update_threads_of_ne c m t hji]
    · refine .inr ⟨i, ?_⟩
      rwa [Config.update_threads_self]
    · exact .inl hpublished
  · refine Config.update_forall (Q := fun t' : Thread Global Caller =>
      t'.state.pc = .spin → (m .bootstrapState 1).isSome) ?_ ?_
    · intro ht
      rcases move.spin h.writes ht with hold | hclaimed | hpublished
      · exact move.isSome (h.phases.spinning i hold)
      · exact move.isSome hclaimed
      · exact move.isSome (h.claimed hpublished)
    · exact fun j _ hj => move.isSome (h.phases.spinning j hj)

theorem Invariant.step (h : Invariant target c) (step : Config.Step (Caller.next target) c c') :
    Invariant target c' := by
  obtain ⟨i, step⟩ := step
  have move := step_move step
  obtain ⟨hwrites, hthread⟩ := move.keeps h.writes (h.threads i)
  exact ⟨hwrites, Config.update_forall hthread fun j _ => h.threads j,
    h.once.step step (move.counts h.writes), h.phases_step move⟩

omit [DecidableEq ι] in
theorem not_published_init (calls : ι → List Call) : ¬ Published (State.init calls).memory := by
  rintro ⟨n, w, hwritten, hw⟩
  simp only [State.init, Config.start, Option.ite_none_right_eq_some, Option.some.injEq]
    at hwritten
  obtain ⟨_, rfl⟩ := hwritten
  cases hw

omit [DecidableEq ι] in
theorem invariant_init (calls : ι → List Call) : Invariant target (State.init calls) where
  writes := start_all fun
    | .current => fun h => absurd rfl h
    | .bootstrapState => .initial rfl rfl
  threads _ := .of_waits .ready nofun
  once := ⟨fun _ => Nat.zero_le 1, nofun, nofun⟩
  phases := ⟨nofun, fun h => absurd h (not_published_init calls),
    fun _ h => h.elim nofun fun hne => absurd rfl hne, nofun, nofun⟩

theorem invariant_of_reaches {calls : ι → List Call}
    (h : State.Reaches target (State.init calls) c) :
    Invariant target c :=
  Reachable.invariant h (invariant_init calls) fun _ _ => Invariant.step

end Blake3.Hwif
