import Blake3.C.HasherTree

/-!
Sequences of calls on one C hasher. The key and the flags survive every call,
so that a reset gives back the state of the initialization; in between, the
hasher has read the bytes of all updates since then. From this follow what
finalization returns and what the state looks like after any updates.
-/

namespace Blake3.C

open LeftTree CarryStack

variable {f : Compress} {simd : Simd} {schedule : Schedule} {useTbb : Bool} {key : CVWords}
  {flags : Byte}

/-! ### What no call changes -/

/-- The key and the flags of the initialization. -/
structure Keyed (key : CVWords) (flags : Byte) (s : Hasher) : Prop where
  key_eq : s.key = key
  flags_eq : s.chunk.flags = flags

theorem Keyed.merge {s s' : Hasher} (h : Keyed key flags s) {total : UInt64}
    (hrun : hasherMergeCvStack f s total = .ok s') : Keyed key flags s' := by
  obtain ⟨_, -, hrun⟩ := Result.bind_eq_ok.mp hrun
  cases hrun
  exact ⟨h.key_eq, h.flags_eq⟩

theorem Keyed.push {s s' : Hasher} (h : Keyed key flags s) {cv : CVBytes} {counter : UInt64}
    (hrun : hasherPushCv f s cv counter = .ok s') : Keyed key flags s' := by
  obtain ⟨_, hmerge, hrun⟩ := Result.bind_eq_ok.mp hrun
  have hmerged := h.merge hmerge
  split at hrun
  · cases hrun
    exact ⟨hmerged.key_eq, hmerged.flags_eq⟩
  · cases hrun

theorem Keyed.pushSubtree {s s' : Hasher} (h : Keyed key flags s) {input : List Byte}
    (hrun : pushSubtree f simd schedule useTbb s input = .ok s') : Keyed key flags s' := by
  unfold C.pushSubtree at hrun
  split at hrun
  · obtain ⟨_, -, hrun⟩ := Result.bind_eq_ok.mp hrun
    exact h.push hrun
  · obtain ⟨_, -, hrun⟩ := Result.bind_eq_ok.mp hrun
    obtain ⟨_, hfirst, hrun⟩ := Result.bind_eq_ok.mp hrun
    exact (h.push hfirst).push hrun

theorem Keyed.updateSubtrees {s s' : Hasher} (h : Keyed key flags s) {input rest : List Byte}
    (hrun : updateSubtrees f simd schedule useTbb s input = .ok (s', rest)) :
    Keyed key flags s' := by
  induction hn : input.length using Nat.strong_induction_on generalizing s input with
  | _ n ih =>
    rw [C.updateSubtrees] at hrun
    split at hrun
    · obtain ⟨pushed, hpush, hrun⟩ := Result.bind_eq_ok.mp hrun
      have hpushed := h.pushSubtree hpush
      have hpos := nextSubtreeLen_pos s input.length
      dsimp only at hrun
      refine ih (input.drop (nextSubtreeLen s input.length)).length
        (by rw [List.length_drop]; omega) ?_ hrun rfl
      exact ⟨hpushed.key_eq, hpushed.flags_eq⟩
    · cases hrun
      exact h

theorem Keyed.updateWholeChunks {s s' : Hasher} (h : Keyed key flags s) {input : List Byte}
    (hrun : updateWholeChunks f simd schedule useTbb s input = .ok s') : Keyed key flags s' := by
  obtain ⟨⟨_, _⟩, hloop, hrun⟩ := Result.bind_eq_ok.mp hrun
  have hlooped := h.updateSubtrees hloop
  dsimp only at hrun
  split at hrun
  · cases hrun
    exact hlooped
  · obtain ⟨chunk, hchunk, hrun⟩ := Result.bind_eq_ok.mp hrun
    refine Keyed.merge ?_ hrun
    exact ⟨hlooped.key_eq, (ChunkState.update_flags hchunk).trans hlooped.flags_eq⟩

theorem Keyed.update {s s' : Hasher} (h : Keyed key flags s) {input : List Byte}
    (hrun : blake3HasherUpdateBase f simd schedule useTbb s input = .ok s') :
    Keyed key flags s' := by
  unfold blake3HasherUpdateBase at hrun
  split at hrun
  · cases hrun
    exact h
  · split at hrun
    · obtain ⟨chunk, hchunk, hrun⟩ := Result.bind_eq_ok.mp hrun
      have hflags := (ChunkState.update_flags hchunk).trans h.flags_eq
      dsimp only at hrun
      split at hrun
      · cases hrun
        exact ⟨h.key_eq, hflags⟩
      · obtain ⟨_, hpush, hrun⟩ := Result.bind_eq_ok.mp hrun
        have hread : Keyed key flags { s with chunk := chunk } := ⟨h.key_eq, hflags⟩
        have hpushed := hread.push hpush
        refine Keyed.updateWholeChunks ?_ hrun
        exact ⟨hpushed.key_eq, hpushed.flags_eq⟩
    · exact h.updateWholeChunks hrun

theorem Keyed.reset {s : Hasher} (h : Keyed key flags s) :
    blake3HasherReset s = hasherInitBase key flags := by
  obtain ⟨rfl, rfl⟩ := h
  rfl

/-! ### Runs -/

/-- What is known of a hasher that has absorbed `bytes`, as long as these are
fewer than `2 ^ 64`. -/
structure Absorbed (f : Compress) (key : CVWords) (flags : Byte) (s : Hasher)
    (bytes : List Byte) : Prop where
  keyed : Keyed key flags s
  reads : bytes.length < 2 ^ 64 → Reads f key flags s bytes

theorem absorbed_hasherInitBase : Absorbed f key flags (hasherInitBase key flags) [] :=
  { keyed := ⟨rfl, rfl⟩, reads := fun _ => reads_hasherInitBase }

/-- The bytes absorbed after one call. -/
def absorbedBy (bytes : List Byte) : Call → List Byte
  | .update input _ => bytes ++ input
  | .finalizeSeek _ _ => bytes
  | .reset => []

theorem absorbed_cons (bytes : List Byte) (call : Call) (calls : List Call) :
    absorbed bytes (call :: calls) = absorbed (absorbedBy bytes call) calls := by
  cases call <;> rfl

theorem Absorbed.step {s s' : Hasher} {bytes : List Byte} (h : Absorbed f key flags s bytes)
    {call : Call} (hrun : s.step f simd schedule call = .ok s') :
    Absorbed f key flags s' (absorbedBy bytes call) := by
  cases call with
  | update input useTbb =>
      refine ⟨h.keyed.update hrun, fun hlen => ?_⟩
      rw [absorbedBy] at hlen ⊢
      have hreads := h.reads (by rw [List.length_append] at hlen; omega)
      obtain ⟨s'', hok, hreads'⟩ := blake3HasherUpdateBase_eq simd schedule useTbb hreads hlen
      rw [Hasher.step, hok] at hrun
      cases hrun
      exact hreads'
  | finalizeSeek seek outLen =>
      obtain ⟨_, -, hrun⟩ := Result.bind_eq_ok.mp hrun
      cases hrun
      exact h
  | reset =>
      cases hrun
      rw [h.keyed.reset]
      exact absorbed_hasherInitBase

variable (simd schedule) in
/-- A call on a hasher that has absorbed few enough bytes goes through. -/
theorem Absorbed.step_ok {s : Hasher} {bytes : List Byte} (h : Absorbed f key flags s bytes)
    {call : Call} (hbefore : bytes.length < 2 ^ 64)
    (hafter : (absorbedBy bytes call).length < 2 ^ 64) :
    ∃ s', s.step f simd schedule call = .ok s' := by
  cases call with
  | update input useTbb =>
      obtain ⟨s', hok, -⟩ := blake3HasherUpdateBase_eq simd schedule useTbb (h.reads hbefore) hafter
      exact ⟨s', hok⟩
  | finalizeSeek seek outLen =>
      refine ⟨s, ?_⟩
      rw [Hasher.step, blake3HasherFinalizeSeek_eq (h.reads hbefore)]
      rfl
  | reset => exact ⟨_, rfl⟩

theorem Absorbed.run {s s' : Hasher} {bytes : List Byte} (h : Absorbed f key flags s bytes)
    {calls : List Call} (hrun : s.run f simd schedule calls = .ok s') :
    Absorbed f key flags s' (absorbed bytes calls) := by
  induction calls generalizing s bytes with
  | nil =>
      cases hrun
      exact h
  | cons call calls ih =>
      rw [Hasher.run, List.foldlM_cons] at hrun
      obtain ⟨s₁, hstep, hrun⟩ := Result.bind_eq_ok.mp hrun
      rw [absorbed_cons]
      exact ih (h.step hstep) hrun

variable (f key flags simd schedule) in
/-- Calls go through as long as few enough bytes are absorbed between resets. -/
theorem Absorbed.run_ok {s : Hasher} {bytes : List Byte} (h : Absorbed f key flags s bytes)
    {calls : List Call} (hshort : ∀ p, p <+: calls → (absorbed bytes p).length < 2 ^ 64) :
    ∃ s', s.run f simd schedule calls = .ok s' := by
  induction calls generalizing s bytes with
  | nil => exact ⟨s, rfl⟩
  | cons call calls ih =>
      have hbefore := hshort [] (List.nil_prefix)
      have hafter : ∀ p, p <+: calls → (absorbed (absorbedBy bytes call) p).length < 2 ^ 64 := by
        intro p hp
        rw [← absorbed_cons]
        exact hshort _ (List.cons_prefix_cons.mpr ⟨rfl, hp⟩)
      obtain ⟨s₁, hstep⟩ := h.step_ok simd schedule hbefore (hafter [] List.nil_prefix)
      obtain ⟨s', hrun⟩ := ih (h.step hstep) hafter
      refine ⟨s', ?_⟩
      rw [Hasher.run, List.foldlM_cons, hstep]
      exact hrun

/-- Finalization returns the requested piece of the output stream of the
reference implementation, whatever calls were made before. As long as no more
than `2 ^ 64 - 1` bytes are absorbed between resets no call goes wrong. -/
theorem finalizeSeek_eq_reference (f : Compress) (simd : Simd) (schedule : Schedule)
    (key : CVWords) (flags : Byte) (calls : List Call) :
    ((∀ p, p <+: calls → (absorbed [] p).length < 2 ^ 64) →
      ∃ s, (hasherInitBase key flags).run f simd schedule calls = .ok s) ∧
    ∀ s, (hasherInitBase key flags).run f simd schedule calls = .ok s →
      (absorbed [] calls).length < 2 ^ 64 → ∀ (seek : UInt64) (outLen : ℕ),
        ∃ reference log,
          (Reference.hash f (.newInternal key flags.toUInt32) (absorbed [] calls)
            (seek.toNat + outLen)).run [] = .ok (reference, log) ∧
          reference.length = seek.toNat + outLen ∧
          blake3HasherFinalizeSeek f s seek outLen = .ok (reference.drop seek.toNat) := by
  refine ⟨absorbed_hasherInitBase.run_ok f simd schedule key flags,
    fun s hrun hlen seek outLen => ?_⟩
  have hreads := (absorbed_hasherInitBase.run hrun).reads hlen
  obtain ⟨log, href⟩ := Reference.run_hash f key flags.toUInt32 hlen.le (seek.toNat + outLen) []
  refine ⟨_, log, href, length_streamBytes _ _ _ _, ?_⟩
  rw [blake3HasherFinalizeSeek_eq hreads, streamBytes_add, Nat.zero_add,
    List.drop_left' (length_streamBytes _ _ _ _)]

theorem finalizeSeek_eq_reference_of_reset :
    ∃ s reference log, (hasherInitBase iv 0).run compress .portable .serial
        [.update [1, 2, 3] false, .finalizeSeek 0 32, .reset, .update [4] true] = .ok s ∧
      (Reference.hash compress (.newInternal iv 0) [4] 12).run [] = .ok (reference, log) ∧
      blake3HasherFinalizeSeek compress s 5 7 = .ok (reference.drop 5) := by
  obtain ⟨hok, hout⟩ := finalizeSeek_eq_reference compress .portable .serial iv 0
    [.update [1, 2, 3] false, .finalizeSeek 0 32, .reset, .update [4] true]
  obtain ⟨s, hrun⟩ := hok fun p hp => by
    rw [List.prefix_iff_eq_take] at hp
    have hlen : ∀ k, (absorbed [] (List.take k [.update [1, 2, 3] false, .finalizeSeek 0 32, .reset,
        .update [4] true])).length < 2 ^ 64 := by
      intro k
      match k with
      | 0 | 1 | 2 | 3 | k + 4 => simp [absorbed]
    rw [hp]
    exact hlen _
  obtain ⟨reference, log, href, -, hfin⟩ := hout s hrun (by simp [absorbed]) 5 7
  exact ⟨s, reference, log, hrun, href, hfin⟩

end Blake3.C
