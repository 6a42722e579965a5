import Blake3.Lib.Trace
import Blake3.Words

/-!
The supervisor of `crypto_freestanding140`: `rmr_cf140_guard.c`. It answers
event codes with action codes; the states, events and actions are 32-bit
words, as a caller may send any of them. `Move` lists what one step can do, and
`Contract` is what the history of every run keeps to.
-/

namespace Blake3.Cf140

open Trace

def retryLimit : Word := 7

def guardIdle : Word := 0
def guardRunning : Word := 1
def guardAckWait : Word := 2
def guardRollback : Word := 3
def guardFailsafe : Word := 4
def guardHalted : Word := 5

def eventArm : Word := 1
def eventExecOk : Word := 2
def eventExecFail : Word := 3
def eventAckOk : Word := 4
def eventAckFail : Word := 5
def eventWatchdogExpired : Word := 6
def eventRollbackOk : Word := 7
def eventRollbackFail : Word := 8
def eventOperatorReset : Word := 9

def actionExecute : Word := 1
def actionRequestAck : Word := 2
def actionCommit : Word := 3
def actionRetry : Word := 4
def actionRollback : Word := 5
def actionEnterFailsafe : Word := 6
def actionHalt : Word := 7
def actionResetAccepted : Word := 8

structure Guard where
  state : Word
  retries : Word
  maxRetries : Word
  sequence : Word
  lastEvent : Word
  deriving DecidableEq, Repr

def retryOrRollback (guard : Guard) : Word × Guard :=
  if guard.retries < guard.maxRetries then
    (actionRetry, { guard with retries := guard.retries + 1, state := guardRunning })
  else (actionRollback, { guard with state := guardRollback })

def failClosed (guard : Guard) : Word × Guard :=
  (actionEnterFailsafe, { guard with state := guardFailsafe })

def guardInit (maxRetries : Word) : Guard where
  state := guardIdle
  retries := 0
  maxRetries := if maxRetries ≤ retryLimit then maxRetries else retryLimit
  sequence := 0
  lastEvent := 0

/-- What every step records, whatever it answers. -/
def Guard.tick (guard : Guard) (event : Word) : Guard :=
  { guard with sequence := guard.sequence + 1, lastEvent := event }

def guardStep (guard : Guard) (event : Word) : Word × Guard :=
  let guard := guard.tick event
  if guard.state = guardIdle then
    if event = eventArm then
      (actionExecute, { guard with state := guardRunning, retries := 0 })
    else failClosed guard
  else if guard.state = guardRunning then
    if event = eventExecOk then (actionRequestAck, { guard with state := guardAckWait })
    else if event = eventExecFail ∨ event = eventWatchdogExpired then retryOrRollback guard
    else failClosed guard
  else if guard.state = guardAckWait then
    if event = eventAckOk then (actionCommit, { guard with state := guardIdle, retries := 0 })
    else if event = eventAckFail ∨ event = eventWatchdogExpired then retryOrRollback guard
    else failClosed guard
  else if guard.state = guardRollback then
    if event = eventRollbackOk then (actionEnterFailsafe, { guard with state := guardFailsafe })
    else if event = eventRollbackFail then (actionHalt, { guard with state := guardHalted })
    else failClosed guard
  else if guard.state = guardFailsafe then
    if event = eventOperatorReset then
      (actionResetAccepted, { guard with state := guardIdle, retries := 0 })
    else (actionEnterFailsafe, guard)
  else if guard.state = guardHalted then (actionHalt, guard)
  else failClosed guard

/-! ### The protocol -/

/-- The events by which an execution fails, or its acknowledgement. -/
def Fails (state event : Word) : Prop :=
  (state = guardRunning ∧ (event = eventExecFail ∨ event = eventWatchdogExpired)) ∨
    (state = guardAckWait ∧ (event = eventAckFail ∨ event = eventWatchdogExpired))

/-- The events that a state has an answer of its own to. -/
def InProtocol (state event : Word) : Prop :=
  (state = guardIdle ∧ event = eventArm) ∨ (state = guardRunning ∧ event = eventExecOk) ∨
    (state = guardAckWait ∧ event = eventAckOk) ∨ Fails state event ∨
      (state = guardRollback ∧ (event = eventRollbackOk ∨ event = eventRollbackFail))

theorem inProtocol_idle {event : Word} : InProtocol guardIdle event ↔ event = eventArm := by
  simp [InProtocol, Fails, guardIdle, guardRunning, guardAckWait, guardRollback]

theorem inProtocol_running {event : Word} : InProtocol guardRunning event ↔
    event = eventExecOk ∨ event = eventExecFail ∨ event = eventWatchdogExpired := by
  simp [InProtocol, Fails, guardIdle, guardRunning, guardAckWait, guardRollback]

theorem inProtocol_ackWait {event : Word} : InProtocol guardAckWait event ↔
    event = eventAckOk ∨ event = eventAckFail ∨ event = eventWatchdogExpired := by
  simp [InProtocol, Fails, guardIdle, guardRunning, guardAckWait, guardRollback]

theorem inProtocol_rollback {event : Word} :
    InProtocol guardRollback event ↔ event = eventRollbackOk ∨ event = eventRollbackFail := by
  simp [InProtocol, Fails, guardIdle, guardRunning, guardAckWait, guardRollback]

/-- The other states have no protocol. -/
theorem not_inProtocol {state event : Word} (h0 : state ≠ guardIdle) (h1 : state ≠ guardRunning)
    (h2 : state ≠ guardAckWait) (h3 : state ≠ guardRollback) : ¬InProtocol state event := by
  simp [InProtocol, Fails, h0, h1, h2, h3]

/-- What one step can do. -/
inductive Move (g : Guard) (event : Word) : Word × Guard → Prop
  | arm (hs : g.state = guardIdle) (he : event = eventArm) :
      Move g event (actionExecute, { g.tick event with state := guardRunning, retries := 0 })
  | execOk (hs : g.state = guardRunning) (he : event = eventExecOk) :
      Move g event (actionRequestAck, { g.tick event with state := guardAckWait })
  | commit (hs : g.state = guardAckWait) (he : event = eventAckOk) :
      Move g event (actionCommit, { g.tick event with state := guardIdle, retries := 0 })
  | retry (h : Fails g.state event) (hlt : g.retries < g.maxRetries) :
      Move g event
        (actionRetry, { g.tick event with retries := g.retries + 1, state := guardRunning })
  | rollback (h : Fails g.state event) (hge : ¬g.retries < g.maxRetries) :
      Move g event (actionRollback, { g.tick event with state := guardRollback })
  | rollbackOk (hs : g.state = guardRollback) (he : event = eventRollbackOk) :
      Move g event (actionEnterFailsafe, { g.tick event with state := guardFailsafe })
  | rollbackFail (hs : g.state = guardRollback) (he : event = eventRollbackFail) :
      Move g event (actionHalt, { g.tick event with state := guardHalted })
  | reset (hs : g.state = guardFailsafe) (he : event = eventOperatorReset) :
      Move g event (actionResetAccepted, { g.tick event with state := guardIdle, retries := 0 })
  | failsafe (hs : g.state = guardFailsafe) (he : event ≠ eventOperatorReset) :
      Move g event (actionEnterFailsafe, g.tick event)
  | halted (hs : g.state = guardHalted) : Move g event (actionHalt, g.tick event)
  | outside (hs : g.state ≠ guardFailsafe) (hs' : g.state ≠ guardHalted)
      (h : ¬InProtocol g.state event) :
      Move g event (actionEnterFailsafe, { g.tick event with state := guardFailsafe })

@[simp] theorem state_tick (g : Guard) (event : Word) : (g.tick event).state = g.state := rfl

@[simp] theorem retries_tick (g : Guard) (event : Word) : (g.tick event).retries = g.retries := rfl

@[simp] theorem maxRetries_tick (g : Guard) (event : Word) :
    (g.tick event).maxRetries = g.maxRetries := rfl

theorem retryOrRollback_move {g : Guard} {event : Word} (h : Fails g.state event) :
    Move g event (retryOrRollback (g.tick event)) := by
  rw [retryOrRollback]
  split
  · next hlt => exact Move.retry h hlt
  · next hge => exact Move.rollback h hge

/-- Every step is a move of the protocol. -/
theorem guardStep_move (g : Guard) (event : Word) : Move g event (guardStep g event) := by
  -- what every state but the last two does with an event it does not expect
  have houtside (hf : g.state ≠ guardFailsafe) (hh : g.state ≠ guardHalted)
      (h : ¬InProtocol g.state event) : Move g event (failClosed (g.tick event)) :=
    Move.outside hf hh h
  unfold guardStep
  dsimp only
  split
  · next hs =>
      change g.state = guardIdle at hs
      rw [hs] at houtside
      split
      · next he => exact Move.arm hs he
      · next he => exact houtside (by decide) (by decide) (by simp [inProtocol_idle, he])
  split
  · next hs =>
      change g.state = guardRunning at hs
      rw [hs] at houtside
      split
      · next he => exact Move.execOk hs he
      split
      · next he => exact retryOrRollback_move (Or.inl ⟨hs, he⟩)
      · next he he' =>
          exact houtside (by decide) (by decide) (by simp only [inProtocol_running, he, he',
            or_self, not_false_eq_true])
  split
  · next hs =>
      change g.state = guardAckWait at hs
      rw [hs] at houtside
      split
      · next he => exact Move.commit hs he
      split
      · next he => exact retryOrRollback_move (Or.inr ⟨hs, he⟩)
      · next he he' =>
          exact houtside (by decide) (by decide) (by simp only [inProtocol_ackWait, he, he',
            or_self, not_false_eq_true])
  split
  · next hs =>
      change g.state = guardRollback at hs
      rw [hs] at houtside
      split
      · next he => exact Move.rollbackOk hs he
      split
      · next he => exact Move.rollbackFail hs he
      · next he he' =>
          exact houtside (by decide) (by decide) (by simp [inProtocol_rollback, he, he'])
  split
  · next hs =>
      split
      · next he => exact Move.reset hs he
      · next he => exact Move.failsafe hs he
  split
  · next hs => exact Move.halted hs
  · next h0 h1 h2 h3 h4 h5 =>
      exact houtside h4 h5 (not_inProtocol h0 h1 h2 h3)

/-! ### Histories -/

abbrev Step := Entry Guard Word Word

/-- The step starts an execution. -/
def Starts (e : Step) : Prop := e.output = actionExecute ∨ e.output = actionRetry

/-- The step gives an execution up. -/
def Stops (e : Step) : Prop :=
  e.output = actionRollback ∨ e.output = actionEnterFailsafe ∨ e.output = actionHalt

/-- The operator's reset is accepted in the failsafe state. -/
def Accepted (e : Step) : Prop :=
  e.before.state = guardFailsafe ∧ e.input = eventOperatorReset ∧ e.output = actionResetAccepted

/-- A reset was accepted, and the supervisor armed after it. -/
def Released (h : List Step) : Prop :=
  ∃ r a, [r, a].Sublist h ∧ Accepted r ∧ a.input = eventArm ∧ a.output = actionExecute

def isExecute (e : Step) : Bool := e.output = actionExecute

def isRetry (e : Step) : Bool := e.output = actionRetry

def retriesSince (h : List Step) : ℕ := countSince isExecute isRetry h

/-- What the state says after a stop, `post` being the steps since then. -/
def Held (state : Word) (post : List Step) : Prop :=
  Released post ∨ (state = guardIdle ∧ ∃ r ∈ post, Accepted r) ∨
    state = guardRollback ∨ state = guardFailsafe ∨ state = guardHalted

/-- What the history says about the guard. -/
structure Tracked (limit : Word) (h : List Step) (g : Guard) : Prop where
  limit_eq : g.maxRetries = limit
  running : g.state = guardRunning → ∃ pre e, h = pre ++ [e] ∧ Starts e
  ackWait : g.state = guardAckWait → ∃ pre e r, h = pre ++ [e, r] ∧ Starts e ∧
    r.input = eventExecOk ∧ r.output = actionRequestAck
  counted : retriesSince h ≤ limit.toNat
  active : g.state = guardRunning ∨ g.state = guardAckWait → retriesSince h = g.retries.toNat
  held : ∀ pre e post, h = pre ++ e :: post → Stops e → Held g.state post

theorem tracked_init (maxRetries : Word) :
    Tracked (guardInit maxRetries).maxRetries [] (guardInit maxRetries) where
  limit_eq := rfl
  running := fun h => absurd h (by simp [guardInit, guardIdle, guardRunning])
  ackWait := fun h => absurd h (by simp [guardInit, guardIdle, guardAckWait])
  counted := Nat.zero_le _
  active := fun _ => rfl
  held := by simp

section Moves

variable {g : Guard} {event : Word} {r : Word × Guard}

theorem Move.maxRetries_eq (m : Move g event r) : r.2.maxRetries = g.maxRetries := by
  cases m <;> rfl

theorem Move.starts_of_running (m : Move g event r) (h : r.2.state = guardRunning) :
    r.1 = actionExecute ∨ r.1 = actionRetry := by
  cases m
  case arm => exact Or.inl rfl
  case retry => exact Or.inr rfl
  case failsafe hs he => simp [hs, guardFailsafe, guardRunning] at h
  case halted hs => simp [hs, guardHalted, guardRunning] at h
  all_goals exact absurd h (by dsimp only; decide)

theorem Move.of_ackWait (m : Move g event r) (h : r.2.state = guardAckWait) :
    g.state = guardRunning ∧ event = eventExecOk ∧ r.1 = actionRequestAck ∧
      r.2.retries = g.retries := by
  cases m
  case execOk hs he => exact ⟨hs, he, rfl, rfl⟩
  case failsafe hs he => simp [hs, guardFailsafe, guardAckWait] at h
  case halted hs => simp [hs, guardHalted, guardAckWait] at h
  all_goals exact absurd h (by dsimp only; decide)

theorem Move.of_execute (m : Move g event r) (h : r.1 = actionExecute) :
    g.state = guardIdle ∧ event = eventArm ∧ r.2.retries = 0 := by
  cases m
  case arm hs he => exact ⟨hs, he, rfl⟩
  all_goals exact absurd h (by dsimp only; decide)

theorem Move.of_retry (m : Move g event r) (h : r.1 = actionRetry) :
    Fails g.state event ∧ g.retries < g.maxRetries ∧ r.2.retries = g.retries + 1 := by
  cases m
  case retry hf hlt => exact ⟨hf, hlt, rfl⟩
  all_goals exact absurd h (by dsimp only; decide)

theorem Move.of_commit (m : Move g event r) (h : r.1 = actionCommit) :
    g.state = guardAckWait ∧ event = eventAckOk := by
  cases m
  case commit hs he => exact ⟨hs, he⟩
  all_goals exact absurd h (by dsimp only; decide)

/-- Only a halt and a rollback leave an execution for good. -/
theorem Move.state_of_stops (m : Move g event r)
    (h : r.1 = actionRollback ∨ r.1 = actionEnterFailsafe ∨ r.1 = actionHalt) :
    r.2.state = guardRollback ∨ r.2.state = guardFailsafe ∨ r.2.state = guardHalted := by
  cases m
  case rollback => exact Or.inl rfl
  case rollbackFail => exact Or.inr (Or.inr rfl)
  case halted hs => exact Or.inr (Or.inr hs)
  case failsafe hs he => exact Or.inr (Or.inl hs)
  case rollbackOk | outside => exact Or.inr (Or.inl rfl)
  all_goals exact absurd h (by dsimp only; decide)

theorem Fails.state {state event : Word} (h : Fails state event) :
    state = guardRunning ∨ state = guardAckWait :=
  h.imp And.left And.left

theorem Move.state_of_halted (m : Move g event r) (h : g.state = guardHalted) :
    r.2.state = guardHalted := by
  cases m
  case halted => exact h
  case rollbackFail => rfl
  case outside hh _ => exact absurd h hh
  case retry hf _ | rollback hf _ =>
    rcases hf.state with hs | hs <;> exact absurd (h.symm.trans hs) (by decide)
  all_goals
    next hs _ => exact absurd (h.symm.trans hs) (by decide)

theorem Move.reset_of_failsafe (m : Move g event r) (h : g.state = guardFailsafe)
    (hleft : r.2.state ≠ guardFailsafe) : event = eventOperatorReset := by
  cases m
  case reset he => exact he
  case failsafe => exact absurd h hleft
  case outside | rollbackOk => exact absurd rfl hleft
  case halted hs => exact absurd (h.symm.trans hs) (by decide)
  case retry hf _ | rollback hf _ =>
    rcases hf.state with hs | hs <;> exact absurd (h.symm.trans hs) (by decide)
  all_goals
    next hs _ => exact absurd (h.symm.trans hs) (by decide)

/-- Outside its protocol a state that has one leads to the failsafe state. -/
theorem Move.of_outside (m : Move g event r) (hf : g.state ≠ guardFailsafe)
    (hh : g.state ≠ guardHalted) (h : ¬InProtocol g.state event) :
    r.1 = actionEnterFailsafe ∧ r.2.state = guardFailsafe := by
  unfold InProtocol at h
  cases m
  case outside => exact ⟨rfl, rfl⟩
  case arm hs he => exact absurd (Or.inl ⟨hs, he⟩) h
  case execOk hs he => exact absurd (Or.inr (Or.inl ⟨hs, he⟩)) h
  case commit hs he => exact absurd (Or.inr (Or.inr (Or.inl ⟨hs, he⟩))) h
  case retry hfails _ | rollback hfails _ =>
    exact absurd (Or.inr (Or.inr (Or.inr (Or.inl hfails)))) h
  case rollbackOk hs he =>
    exact absurd (Or.inr (Or.inr (Or.inr (Or.inr ⟨hs, Or.inl he⟩)))) h
  case rollbackFail hs he =>
    exact absurd (Or.inr (Or.inr (Or.inr (Or.inr ⟨hs, Or.inr he⟩)))) h
  case reset hs _ | failsafe hs _ => exact absurd hs hf
  case halted hs => exact absurd hs hh

end Moves

section Keep

variable {limit : Word} {h : List Step} {g : Guard} {event : Word} {r : Word × Guard}

theorem Tracked.count_step (t : Tracked limit h g) (m : Move g event r) :
    retriesSince (h ++ [⟨g, event, r.1, r.2⟩]) ≤ limit.toNat ∧
      (r.2.state = guardRunning ∨ r.2.state = guardAckWait →
        retriesSince (h ++ [⟨g, event, r.1, r.2⟩]) = r.2.retries.toNat) := by
  by_cases hexec : r.1 = actionExecute
  · obtain ⟨-, -, hr⟩ := m.of_execute hexec
    simp [retriesSince, isExecute, hexec, hr]
  by_cases hretry : r.1 = actionRetry
  · obtain ⟨hfails, hlt, hr⟩ := m.of_retry hretry
    rw [t.limit_eq, UInt32.lt_iff_toNat_lt] at hlt
    have hcount : retriesSince h = g.retries.toNat := t.active hfails.state
    have hsucc : (g.retries + 1).toNat = g.retries.toNat + 1 := by
      have := limit.toNat_lt
      rw [UInt32.toNat_add]
      exact Nat.mod_eq_of_lt (by change g.retries.toNat + 1 < 2 ^ 32; omega)
    have hnew : retriesSince (h ++ [⟨g, event, r.1, r.2⟩]) = g.retries.toNat + 1 := by
      rw [← hcount]
      simp [retriesSince, isExecute, isRetry, hretry, actionExecute, actionRetry]
    rw [hnew, hr, hsucc]
    exact ⟨hlt, fun _ => rfl⟩
  · have hnew : retriesSince (h ++ [⟨g, event, r.1, r.2⟩]) = retriesSince h := by
      simp [retriesSince, isExecute, isRetry, hexec, hretry]
    rw [hnew]
    refine ⟨t.counted, fun hstate => ?_⟩
    rcases hstate with hrun | hack
    · exact absurd (m.starts_of_running hrun) (not_or.mpr ⟨hexec, hretry⟩)
    · obtain ⟨hs, -, -, hr⟩ := m.of_ackWait hack
      rw [hr]
      exact t.active (Or.inl hs)

theorem Released.concat {post : List Step} (hr : Released post) (e : Step) :
    Released (post ++ [e]) := by
  obtain ⟨r, a, hsub, hrest⟩ := hr
  exact ⟨r, a, hsub.trans (List.sublist_append_left post [e]), hrest⟩

theorem Released.of_accepted {post : List Step} {q e : Step} (hq : q ∈ post) (hacc : Accepted q)
    (harm : e.input = eventArm) (hexec : e.output = actionExecute) : Released (post ++ [e]) :=
  ⟨q, e, (List.singleton_sublist.mpr hq).append (List.Sublist.refl [e]), hacc, harm, hexec⟩

theorem exists_accepted_concat (post : List Step) {e : Step} (he : Accepted e) :
    ∃ q ∈ post ++ [e], Accepted q :=
  ⟨e, List.mem_append_right _ (List.mem_singleton_self _), he⟩

/-- After a stop a move leads to another stop, to an accepted reset, or arms after one. -/
theorem Held.step {post : List Step} (hh : Held g.state post) (m : Move g event r) :
    Held r.2.state (post ++ [⟨g, event, r.1, r.2⟩]) := by
  rcases hh with hrel | ⟨hidle, q, hq, hacc⟩ | hstop
  · exact Or.inl (hrel.concat _)
  · cases m
    case arm hs he =>
      exact Or.inl (Released.of_accepted hq hacc he rfl)
    case outside => exact Or.inr (Or.inr (Or.inr (Or.inl rfl)))
    case retry hf _ | rollback hf _ =>
      exact absurd hf.state (by rw [hidle]; decide)
    case halted hs => exact absurd (hidle.symm.trans hs) (by decide)
    all_goals
      next hs _ => exact absurd (hidle.symm.trans hs) (by decide)
  · cases m
    case reset hs he => exact Or.inr (Or.inl ⟨rfl, exists_accepted_concat post ⟨hs, he, rfl⟩⟩)
    case failsafe | halted => exact Or.inr (Or.inr hstop)
    case rollbackOk | outside => exact Or.inr (Or.inr (Or.inr (Or.inl rfl)))
    case rollbackFail => exact Or.inr (Or.inr (Or.inr (Or.inr rfl)))
    case retry hf _ | rollback hf _ =>
      rcases hf.state with hs | hs <;> exact absurd hstop (by rw [hs]; decide)
    all_goals
      next hs _ => exact absurd hstop (by rw [hs]; decide)

theorem Tracked.step (t : Tracked limit h g) (m : Move g event r) :
    Tracked limit (h ++ [⟨g, event, r.1, r.2⟩]) r.2 where
  limit_eq := m.maxRetries_eq.trans t.limit_eq
  running := fun hrun => ⟨h, _, rfl, m.starts_of_running hrun⟩
  ackWait := fun hack => by
    obtain ⟨hs, he, ha, -⟩ := m.of_ackWait hack
    obtain ⟨pre, e, rfl, hstart⟩ := t.running hs
    exact ⟨pre, e, _, List.append_assoc .., hstart, he, ha⟩
  counted := (t.count_step m).1
  active := (t.count_step m).2
  held := fun pre e post heq hstop => by
    rcases concat_eq_append_cons.mp heq with ⟨rfl, rfl, rfl⟩ | ⟨mid, rfl, rfl⟩
    · exact Or.inr (Or.inr (m.state_of_stops hstop))
    · exact (t.held pre e mid rfl hstop).step m

end Keep

theorem tracked_history (maxRetries : Word) (events : List Word) :
    Tracked (guardInit maxRetries).maxRetries (history guardStep (guardInit maxRetries) events)
      (final guardStep (guardInit maxRetries) events) :=
  invariant_history (tracked_init maxRetries) (fun _ _ _ t => t.step (guardStep_move _ _)) events

/-- A place in the history of a run: what is known of the guard before it, and the move made. -/
theorem tracked_of_split {maxRetries : Word} {events : List Word} {pre post : List Step} {e : Step}
    (h : history guardStep (guardInit maxRetries) events = pre ++ e :: post) :
    Tracked (guardInit maxRetries).maxRetries pre e.before ∧
      Move e.before e.input (e.output, e.after) ∧
      ∃ later, post = history guardStep e.after later := by
  obtain ⟨js, i, ks, -, rfl, rfl, hpost⟩ := exists_of_history_eq h
  exact ⟨tracked_history maxRetries js, guardStep_move _ i, ks, hpost⟩

theorem toNat_maxRetries (maxRetries : Word) :
    (guardInit maxRetries).maxRetries.toNat = min maxRetries.toNat retryLimit.toNat := by
  rw [guardInit]
  dsimp only
  split
  · next hle => exact (Nat.min_eq_left (UInt32.le_iff_toNat_le.mp hle)).symm
  · next hgt =>
      have hle : ¬maxRetries.toNat ≤ retryLimit.toNat := fun h =>
        hgt (UInt32.le_iff_toNat_le.mpr h)
      exact (Nat.min_eq_right (Nat.le_of_not_le hle)).symm

/-- What a supervisor promises about the steps of a run; `limit` bounds the retries. -/
structure Contract (limit : ℕ) (h : List Step) : Prop where
  /-- A commit follows the acknowledged success of the last execution. -/
  commit : ∀ pre e post, h = pre ++ e :: post → e.output = actionCommit →
    e.input = eventAckOk ∧ ∃ before start mid ok after,
      pre = before ++ start :: (mid ++ ok :: after) ∧ Starts start ∧
        ok.input = eventExecOk ∧ ok.output = actionRequestAck ∧
        ∀ x ∈ mid ++ ok :: after, ¬Starts x
  retries : ∀ pre e mid post, h = pre ++ e :: (mid ++ post) → e.output = actionExecute →
    (∀ x ∈ mid, x.output ≠ actionExecute) → mid.countP isRetry ≤ limit
  /-- After a stop nothing runs before a reset is accepted and the supervisor armed. -/
  stopped : ∀ pre e mid x post, h = pre ++ e :: (mid ++ x :: post) → Stops e →
    Starts x ∨ x.output = actionCommit → Released (mid ++ [x])
  halted : ∀ pre e post, h = pre ++ e :: post → e.before.state = guardHalted →
    ∀ x ∈ e :: post, x.after.state = guardHalted
  failsafe : ∀ e ∈ h, e.before.state = guardFailsafe → e.after.state ≠ guardFailsafe →
    e.input = eventOperatorReset
  outside : ∀ e ∈ h, e.before.state = guardIdle ∨ e.before.state = guardRunning ∨
    e.before.state = guardAckWait ∨ e.before.state = guardRollback →
    ¬InProtocol e.before.state e.input →
    e.output = actionEnterFailsafe ∧ e.after.state = guardFailsafe

theorem not_starts_of_requestAck {e : Step} (h : e.output = actionRequestAck) : ¬Starts e := by
  rw [Starts, h]
  decide

/-- An execution or a commit after a stop is one after a release. -/
theorem Held.released {g : Guard} {event : Word} {r : Word × Guard} {mid : List Step}
    (hh : Held g.state mid) (m : Move g event r)
    (hrun : (r.1 = actionExecute ∨ r.1 = actionRetry) ∨ r.1 = actionCommit) :
    Released (mid ++ [⟨g, event, r.1, r.2⟩]) := by
  rcases hh with hrel | ⟨hidle, q, hq, hacc⟩ | hstop
  · exact hrel.concat _
  · rcases hrun with (hexec | hretry) | hcommit
    · exact Released.of_accepted hq hacc (m.of_execute hexec).2.1 hexec
    · exact absurd (m.of_retry hretry).1.state (by rw [hidle]; decide)
    · exact absurd (m.of_commit hcommit).1 (by rw [hidle]; decide)
  · rcases hrun with (hexec | hretry) | hcommit
    · exact absurd hstop (by rw [(m.of_execute hexec).1]; decide)
    · rcases (m.of_retry hretry).1.state with hs | hs <;>
        exact absurd hstop (by rw [hs]; decide)
    · exact absurd hstop (by rw [(m.of_commit hcommit).1]; decide)

/-- Every run of the supervisor keeps to its contract. -/
theorem guard_contract (maxRetries : Word) (events : List Word) :
    Contract (min maxRetries.toNat retryLimit.toNat)
      (history guardStep (guardInit maxRetries) events) where
  commit := by
    intro pre e post heq hcommit
    obtain ⟨t, m, -⟩ := tracked_of_split heq
    obtain ⟨hs, he⟩ := m.of_commit hcommit
    obtain ⟨before, start, ok, hpre, hstart, hok, hack⟩ := t.ackWait hs
    refine ⟨he, before, start, [], ok, [], hpre, hstart, hok, hack, fun x hx => ?_⟩
    obtain rfl := List.mem_singleton.mp hx
    exact not_starts_of_requestAck hack
  retries := by
    intro pre e mid post heq hexec hmid
    rw [← List.cons_append, ← List.append_assoc] at heq
    obtain ⟨js, ks, -, hpre, -⟩ := exists_of_history_eq_append heq
    have hcount : retriesSince (pre ++ e :: mid) = mid.countP isRetry :=
      countSince_append_cons pre (decide_eq_true hexec) fun x hx => decide_eq_false (hmid x hx)
    rw [← toNat_maxRetries, ← hcount, hpre]
    exact (tracked_history maxRetries js).counted
  stopped := by
    intro pre e mid x post heq hstop hrun
    rw [← List.cons_append, ← List.append_assoc] at heq
    obtain ⟨t, m, -⟩ := tracked_of_split heq
    exact (t.held pre e mid rfl hstop).released m hrun
  halted := by
    intro pre e post heq hhalted
    obtain ⟨-, m, later, rfl⟩ := tracked_of_split heq
    have hafter : e.after.state = guardHalted := m.state_of_halted hhalted
    intro x hx
    rcases List.mem_cons.mp hx with rfl | hx
    · exact hafter
    · exact closed_history (P := fun g => g.state = guardHalted)
        (fun g event => (guardStep_move g event).state_of_halted) hafter later x hx
  failsafe := by
    intro e he hs hleft
    obtain ⟨g, event, rfl⟩ := exists_of_mem_history he
    exact (guardStep_move g event).reset_of_failsafe hs hleft
  outside := by
    intro e he hs hout
    obtain ⟨g, event, rfl⟩ := exists_of_mem_history he
    refine (guardStep_move g event).of_outside ?_ ?_ hout
    · rcases hs with hs | hs | hs | hs <;> exact fun h => absurd (hs.symm.trans h) (by decide)
    · rcases hs with hs | hs | hs | hs <;> exact fun h => absurd (hs.symm.trans h) (by decide)

example : (history guardStep (guardInit 1) [eventArm, eventExecFail, eventExecOk, eventAckOk]).map
    Entry.output = [actionExecute, actionRetry, actionRequestAck, actionCommit] := by decide

end Blake3.Cf140
