import Blake3.Rust.Modes

/-!
What `reset` gives back. No call changes the key and the flags, so that after a
reset only the offset that was set can distinguish a hasher from a new one. It
does so as soon as it is not zero: a new hasher can be finalized, one with an
offset panics.
-/

namespace Blake3.Rust.Hasher

/-! ### Calls -/

/-- The calls by which a hasher is observed. -/
inductive Request where
  | update (input : List Byte) (join : Join)
  | count
  | finalize
  | finalizeXof

inductive Answer where
  | unit
  | count (count : UInt64)
  | hash (hash : CVBytes)
  | reader (reader : OutputReader)

/-- All calls on a hasher. -/
inductive Call where
  | request (request : Request)
  | setInputOffset (offset : UInt64)
  | finalizeNonRoot
  | reset

section

variable (f : Compress) (b : Build) (simd : Simd)

/-- A request returns an answer, or panics. -/
def answer (self : Hasher) : Request → Result (Answer × Hasher)
  | .update input join => do
      let self ← self.updateWithJoin f b simd join input
      return (.unit, self)
  | .count => do
      let count ← self.count b
      return (.count count, self)
  | .finalize => do
      let hash ← self.finalize f b
      return (.hash hash, self)
  | .finalizeXof => do
      let reader ← self.finalizeXof f b
      return (.reader reader, self)

/-- The answers to a sequence of requests. -/
def observe (self : Hasher) : List Request → Result (List Answer)
  | [] => return []
  | request :: requests => do
      let (answer, self) ← self.answer f b simd request
      let answers ← observe self requests
      return answer :: answers

def step (self : Hasher) : Call → Result Hasher
  | .request request => do
      let (_, self) ← self.answer f b simd request
      return self
  | .setInputOffset offset => self.setInputOffset b offset
  | .finalizeNonRoot => do
      let _ ← self.finalizeNonRoot f b
      return self
  | .reset => return self.reset

def run (self : Hasher) (calls : List Call) : Result Hasher :=
  calls.foldlM (step f b simd) self

/-- `self` returns what `fresh` returns, and panics only where `fresh` does. -/
def ObservedAs (self fresh : Hasher) : Prop :=
  ∀ requests answers, fresh.observe f b simd requests = .ok answers →
    self.observe f b simd requests = .ok answers

end

/-! ### What no call changes -/

variable {f : Compress} {b : Build} {simd : Simd} {join : Join} {key : CVWords} {flags : Byte}
  {initial : UInt64} {s s' : Hasher}

theorem keyed_merge (h : Keyed key flags initial s) {counter : UInt64}
    (hrun : mergeCvStack f b s counter = .ok s') : Keyed key flags initial s' := by
  obtain ⟨_, -, hrun⟩ := Result.bind_eq_ok.mp hrun
  obtain ⟨_, -, hrun⟩ := Result.bind_eq_ok.mp hrun
  cases hrun
  exact ⟨h.key_eq, h.flags_eq, h.initial_eq⟩

theorem keyed_push (h : Keyed key flags initial s) {cv : CVBytes} {counter : UInt64}
    (hrun : pushCv f b s cv counter = .ok s') : Keyed key flags initial s' := by
  obtain ⟨_, hmerge, hrun⟩ := Result.bind_eq_ok.mp hrun
  have hmerged := keyed_merge h hmerge
  split at hrun
  · cases hrun
    exact ⟨hmerged.key_eq, hmerged.flags_eq, hmerged.initial_eq⟩
  · cases hrun

theorem keyed_pushSubtree (h : Keyed key flags initial s) {input : List Byte}
    (hrun : pushSubtree f b simd join s input = .ok s') : Keyed key flags initial s' := by
  unfold pushSubtree at hrun
  dsimp only at hrun
  split at hrun
  · obtain ⟨_, -, hrun⟩ := Result.bind_eq_ok.mp hrun
    obtain ⟨_, -, hrun⟩ := Result.bind_eq_ok.mp hrun
    exact keyed_push h hrun
  · obtain ⟨_, -, hrun⟩ := Result.bind_eq_ok.mp hrun
    obtain ⟨_, hfirst, hrun⟩ := Result.bind_eq_ok.mp hrun
    obtain ⟨_, -, hrun⟩ := Result.bind_eq_ok.mp hrun
    exact keyed_push (keyed_push h hfirst) hrun

theorem keyed_updateSubtrees (h : Keyed key flags initial s) {input rest : List Byte}
    (hrun : updateSubtrees f b simd join s input = .ok (s', rest)) :
    Keyed key flags initial s' := by
  induction hn : input.length using Nat.strong_induction_on generalizing s input with
  | _ n ih =>
    rw [updateSubtrees] at hrun
    split at hrun
    · obtain ⟨_, -, hrun⟩ := Result.bind_eq_ok.mp hrun
      obtain ⟨countSoFar, -, hrun⟩ := Result.bind_eq_ok.mp hrun
      obtain ⟨pushed, hpush, hrun⟩ := Result.bind_eq_ok.mp hrun
      obtain ⟨_, -, hrun⟩ := Result.bind_eq_ok.mp hrun
      have hpushed := keyed_pushSubtree h hpush
      have hpos : 0 < shrinkSubtreeLen (largestPowerOfTwoLeq input.length) countSoFar :=
        shrinkSubtreeLen_pos _ (Nat.two_pow_pos _)
      refine ih _ ?_ ?_ hrun rfl
      · rw [List.length_drop]
        omega
      · exact ⟨hpushed.key_eq, hpushed.flags_eq, hpushed.initial_eq⟩
    · cases hrun
      exact h

theorem keyed_updateWholeChunks (h : Keyed key flags initial s) {input : List Byte}
    (hrun : updateWholeChunks f b simd join s input = .ok s') : Keyed key flags initial s' := by
  obtain ⟨⟨_, _⟩, hloop, hrun⟩ := Result.bind_eq_ok.mp hrun
  obtain ⟨_, -, hrun⟩ := Result.bind_eq_ok.mp hrun
  have hlooped := keyed_updateSubtrees h hloop
  split at hrun
  · cases hrun
    exact hlooped
  · obtain ⟨_, hchunk, hrun⟩ := Result.bind_eq_ok.mp hrun
    refine keyed_merge ?_ hrun
    exact ⟨hlooped.key_eq, (ChunkState.update_flags hchunk).trans hlooped.flags_eq,
      hlooped.initial_eq⟩

theorem keyed_updateWithJoin (h : Keyed key flags initial s) {input : List Byte}
    (hrun : updateWithJoin f b simd join s input = .ok s') : Keyed key flags initial s' := by
  obtain ⟨_, -, hrun⟩ := Result.bind_eq_ok.mp hrun
  split at hrun
  · obtain ⟨chunkState, hchunk, hrun⟩ := Result.bind_eq_ok.mp hrun
    have hread : Keyed key flags initial { s with chunkState := chunkState } :=
      ⟨h.key_eq, (ChunkState.update_flags hchunk).trans h.flags_eq, h.initial_eq⟩
    dsimp only at hrun
    split at hrun
    · cases hrun
      exact hread
    · obtain ⟨_, -, hrun⟩ := Result.bind_eq_ok.mp hrun
      obtain ⟨_, hpush, hrun⟩ := Result.bind_eq_ok.mp hrun
      obtain ⟨_, -, hrun⟩ := Result.bind_eq_ok.mp hrun
      have hpushed := keyed_push hread hpush
      refine keyed_updateWholeChunks ?_ hrun
      exact ⟨hpushed.key_eq, hpushed.flags_eq, hpushed.initial_eq⟩
  · exact keyed_updateWholeChunks h hrun

theorem keyed_answer (h : Keyed key flags initial s) {request : Request} {a : Answer}
    (hrun : s.answer f b simd request = .ok (a, s')) : Keyed key flags initial s' := by
  cases request with
  | update input join =>
      obtain ⟨_, hupdate, hrun⟩ := Result.bind_eq_ok.mp hrun
      cases hrun
      exact keyed_updateWithJoin h hupdate
  | count =>
      obtain ⟨_, -, hrun⟩ := Result.bind_eq_ok.mp hrun
      cases hrun
      exact h
  | finalize =>
      obtain ⟨_, -, hrun⟩ := Result.bind_eq_ok.mp hrun
      cases hrun
      exact h
  | finalizeXof =>
      obtain ⟨_, -, hrun⟩ := Result.bind_eq_ok.mp hrun
      cases hrun
      exact h

/-- Setting an offset changes nothing but the two counters. -/
theorem keyed_setInputOffset (h : Keyed key flags initial s) {offset : UInt64}
    (hrun : s.setInputOffset b offset = .ok s') : Keyed key flags (offset / 1024) s' := by
  obtain ⟨_, -, hrun⟩ := Result.bind_eq_ok.mp hrun
  split at hrun
  · cases hrun
  · split at hrun
    · cases hrun
    · cases hrun
      exact ⟨h.key_eq, h.flags_eq, rfl⟩

theorem keyed_step (h : Keyed key flags initial s) {call : Call}
    (hrun : s.step f b simd call = .ok s') : Keyed key flags s'.initialChunkCounter s' := by
  cases call with
  | request request =>
      obtain ⟨⟨_, _⟩, hanswer, hrun⟩ := Result.bind_eq_ok.mp hrun
      cases hrun
      have hkept := keyed_answer h hanswer
      exact ⟨hkept.key_eq, hkept.flags_eq, rfl⟩
  | setInputOffset offset =>
      have hset := keyed_setInputOffset h hrun
      exact ⟨hset.key_eq, hset.flags_eq, rfl⟩
  | finalizeNonRoot =>
      obtain ⟨_, -, hrun⟩ := Result.bind_eq_ok.mp hrun
      cases hrun
      exact ⟨h.key_eq, h.flags_eq, rfl⟩
  | reset =>
      cases hrun
      exact ⟨h.key_eq, h.flags_eq, rfl⟩

theorem keyed_run (h : Keyed key flags initial s) {calls : List Call}
    (hrun : s.run f b simd calls = .ok s') : Keyed key flags s'.initialChunkCounter s' := by
  induction calls generalizing s initial with
  | nil =>
      cases hrun
      exact ⟨h.key_eq, h.flags_eq, rfl⟩
  | cons call calls ih =>
      rw [run, List.foldlM_cons] at hrun
      obtain ⟨_, hstep, hrun⟩ := Result.bind_eq_ok.mp hrun
      exact ih (keyed_step h hstep) hrun

/-! ### Reset -/

/-- After a reset only the offset is left. -/
theorem reset_eq (h : Keyed key flags initial s) :
    s.reset = { newInternal key flags with initialChunkCounter := initial } := by
  obtain ⟨rfl, rfl, rfl⟩ := h
  rfl

variable (f b key flags) in
/-- A new hasher can be finalized. -/
theorem finalize_newInternal : ∃ hash, (newInternal key flags).finalize f b = .ok hash := by
  obtain ⟨_, hash, -, -, hrun, -⟩ := finalize_eq (b := b) (reads_newInternal f key flags)
    (by simp)
  exact ⟨hash, hrun⟩

/-- With an offset, `finalize` panics. -/
theorem finalize_of_offset (h : s.initialChunkCounter ≠ 0) :
    s.finalize f b =
      .error (.assertFailed "set_input_offset must be used with finalize_non_root") := by
  rw [finalize, assertNoOffset, if_neg h]
  rfl

/-- Whatever calls were made on a hasher, which every constructor makes with
`new_internal`, after a reset it returns what a new one of the same key and
flags returns and panics only where that one does if and only if its offset was
zero before the reset. -/
theorem reset_observedAs_new_iff (f : Compress) (b : Build) (simd : Simd) (key : CVWords)
    (flags : Byte) {calls : List Call} {s : Hasher}
    (hrun : (newInternal key flags).run f b simd calls = .ok s) :
    s.reset.ObservedAs f b simd (newInternal key flags) ↔ s.initialChunkCounter = 0 := by
  have hnew : Keyed key flags 0 (newInternal key flags) := ⟨rfl, rfl, rfl⟩
  have hkeyed := keyed_run hnew hrun
  constructor
  · intro hobserved
    by_contra hoffset
    obtain ⟨hash, hfinalize⟩ := finalize_newInternal f b key flags
    have hfresh : (newInternal key flags).observe f b simd [.finalize] = .ok [.hash hash] := by
      rw [observe, answer, hfinalize]
      rfl
    have hreset := hobserved _ _ hfresh
    have hpanic := finalize_of_offset (f := f) (b := b) (s := s.reset) hoffset
    rw [observe, answer, hpanic] at hreset
    cases hreset
  · intro hzero
    rw [reset_eq hkeyed, hzero]
    intro requests answers hanswers
    exact hanswers

/-- A hasher whose offset was set and that is reset panics in `finalize`. -/
theorem finalize_after_reset_panics :
    ∃ s hash, new.run compress .wrapping .portable [.setInputOffset 1024] = .ok s ∧
      new.observe compress .wrapping .portable [.finalize] = .ok [.hash hash] ∧
      s.reset.observe compress .wrapping .portable [.finalize] =
        .error (.assertFailed "set_input_offset must be used with finalize_non_root") := by
  obtain ⟨hash, hfinalize⟩ := finalize_newInternal compress .wrapping iv 0
  obtain ⟨s, hset, hreads⟩ := setInputOffset_newInternal (b := .wrapping) compress iv 0 1 (by omega)
  have hoffset : s.reset.initialChunkCounter ≠ 0 := by
    rw [reset_eq hreads.keyed]
    decide
  refine ⟨s, hash, ?_, ?_, ?_⟩
  · rw [run, List.foldlM_cons]
    exact Result.bind_eq_ok.mpr ⟨s, hset, rfl⟩
  · rw [observe, answer, show new.finalize compress .wrapping = .ok hash from hfinalize]
    rfl
  · rw [observe, answer, finalize_of_offset hoffset]
    rfl

/-- An offset of zero is no offset, here before five thousand bytes are hashed. -/
theorem reset_observedAs_new_of_no_offset :
    ∃ s, new.run compress .wrapping .portable
        [.setInputOffset 0, .request (.update (List.replicate 5000 7) .rightFirst)] = .ok s ∧
      s.reset.ObservedAs compress .wrapping .portable new := by
  obtain ⟨s, hset, hreads⟩ := setInputOffset_newInternal (b := .wrapping) compress iv 0 0 (by omega)
  obtain ⟨s', hupdate, hread⟩ := updateWithJoin_eq (b := .wrapping) .portable .rightFirst hreads
    (List.replicate 5000 7)
    ⟨by rw [List.nil_append, List.length_replicate]; decide, .inl rfl⟩
  have hrun : new.run compress .wrapping .portable
      [.setInputOffset 0, .request (.update (List.replicate 5000 7) .rightFirst)] = .ok s' := by
    rw [run, List.foldlM_cons]
    refine Result.bind_eq_ok.mpr ⟨s, hset, ?_⟩
    rw [List.foldlM_cons, step, answer, hupdate]
    rfl
  refine ⟨s', hrun, (reset_observedAs_new_iff compress .wrapping .portable iv 0 hrun).mpr ?_⟩
  exact hread.keyed.initial_eq

end Blake3.Rust.Hasher
