import Blake3.C.Runs

/-!
The state of a C hasher between updates. Each entry of the stack stands for a
complete subtree whose size is a power of two and whose first chunk is at a
multiple of that size; the entries, bottom to top, are the chunks before the
current one.
-/

namespace Blake3.C

open LeftTree CarryStack

variable {f : Compress} {key : CVWords} {flags : Byte}

/-- `Entries cvAt st es`: the entry with exponent `e` is `cvAt start (2 ^ e)`
for the `2 ^ e` chunks from number `start` on, where `start` counts the chunks
under the entries below and is a multiple of `2 ^ e`. The top entry is first. -/
def Entries (cvAt : ℕ → ℕ → CVBytes) : List CVBytes → List ℕ → Prop
  | [], [] => True
  | cv :: st, e :: es => cv = cvAt (weight es) (2 ^ e) ∧ 2 ^ e ∣ weight es ∧ Entries cvAt st es
  | _, _ => False

/-- The chaining value of the subtree over `chunks` chunks from number `start` on. -/
def subtreeAt (f : Compress) (key : CVWords) (flags : Byte) (bytes : List Byte)
    (start chunks : ℕ) : CVBytes :=
  leBytesFromWords32 (subtreeCv f key flags.toUInt32 (UInt64.ofNat start)
    ((bytes.drop (1024 * start)).take (1024 * chunks)))

/-- Entries that cover the chunks of `bytes` are the values of its subtrees. -/
theorem entries_of_covers {bytes : List Byte} {st : List CVBytes} {es : List ℕ}
    {xs : List CVBytes} (h : Covers (parentBytes f key flags.toUInt32) st es xs) (hlazy : Lazy es)
    (hle : 1024 * weight es ≤ bytes.length)
    (hxs : xs = (chunkBytes f key flags.toUInt32 0 bytes).take (weight es)) :
    Entries (subtreeAt f key flags bytes) st es := by
  induction h with
  | nil => trivial
  | @push st es xs ys e below hlen ih =>
      have hpos := Nat.two_pow_pos e
      have hbelow := below.length_leaves
      rw [weight_cons] at hle hxs
      refine ⟨?_, hlazy.dvd_weight, ih hlazy.1.lazy (by omega) ?_⟩
      · have hys : ys = chunkBytes f key flags.toUInt32 (UInt64.ofNat (weight es))
            ((bytes.drop (1024 * weight es)).take (1024 * 2 ^ e)) := by
          have hdrop := chunkBytes_drop f key flags.toUInt32 0
            (show 1024 * weight es ≤ bytes.length by omega)
          rw [UInt64.zero_add] at hdrop
          rw [chunkBytes_take _ _ _ _ (by rw [List.length_drop]; omega), hdrop, List.take_drop,
            Nat.add_comm, ← hxs, ← hbelow, List.drop_left]
        rw [hys, subtreeAt, fold_chunkBytes]
        rw [List.length_take, List.length_drop]
        omega
      · have htake := congrArg (List.take (weight es)) hxs
        rw [List.take_left' hbelow, List.take_take, Nat.min_eq_left (by omega)] at htake
        exact htake

/-- The state of a hasher that has read `bytes`. -/
structure StateInvariant (f : Compress) (key : CVWords) (flags : Byte) (bytes : List Byte)
    (s : Hasher) : Prop where
  buf_len_le : s.chunk.bufLen ≤ 64
  chunk_len_le : chunkStateLen s.chunk ≤ 1024
  stack_len_le : s.cvStack.length ≤ 55
  bytes_length : bytes.length = 1024 * s.chunk.chunkCounter.toNat + chunkStateLen s.chunk
  stack : ∃ es, Entries (subtreeAt f key flags bytes) s.cvStack es ∧
    weight es = s.chunk.chunkCounter.toNat ∧
    -- merged, or with an empty chunk state merged below the top entry
    (s.cvStack.length = popcnt s.chunk.chunkCounter ∨
      chunkStateLen s.chunk = 0 ∧ ∃ e es', es = e :: es' ∧
        s.cvStack.length = popcount (s.chunk.chunkCounter.toNat - 2 ^ e) + 1)
  two_le : chunkStateLen s.chunk = 0 → s.cvStack ≠ [] → 2 ≤ s.cvStack.length

theorem Reads.stateInvariant {s : Hasher} {bytes : List Byte} (h : Reads f key flags s bytes)
    (hlen : bytes.length < 2 ^ 64) : StateInvariant f key flags bytes s := by
  obtain ⟨n, whole, chunk, es, hcov, rfl, hmerged, htwo⟩ := h
  have hwhole := hcov.whole_length
  have hcount := hcov.count_eq
  have hleaves := hcov.spans.length_leaves
  have hweight := hcov.covers.length_leaves
  have hentries := hcov.covers.length_eq
  rw [List.length_append, hwhole] at hlen
  have hctr : s.chunk.chunkCounter.toNat = n := by rw [hcov.counter_eq, toNat_ofNat64 (by omega)]
  refine
    { buf_len_le := ?_, chunk_len_le := hcount ▸ hcov.chunk_length,
      stack_len_le := hentries ▸ hcov.lazy.length_le (by omega),
      bytes_length := by rw [List.length_append, hwhole, hctr, hcount],
      stack := ⟨es, ?_, by omega, ?_⟩,
      two_le := fun hzero => htwo (List.length_eq_zero_iff.mp (hcount ▸ hzero)) }
  · rw [hcov.chunk_eq]
    exact length_rest_pendingOf _ _ _ _ _
  · refine entries_of_covers hcov.covers hcov.lazy (by rw [List.length_append]; omega) ?_
    rw [hcov.spans.leaves_append, ← hweight, List.take_left]
  · rcases Nat.eq_zero_or_pos chunk.length with hzero | hpos
    · cases es with
      | nil =>
          left
          rw [popcnt, hctr, hentries]
          rw [weight_nil] at hweight
          simp [← hleaves, hweight]
      | cons e es =>
          right
          refine ⟨by omega, e, es, rfl, ?_⟩
          rw [hentries, hctr, List.length_cons, ← hcov.lazy.1.popcount_weight]
          congr 2
          rw [weight_cons] at hweight
          omega
    · left
      rw [popcnt, hctr, hcov.covers.length_of_merged (hmerged hpos), hleaves]

theorem absorbed_updates (bytes : List Byte) (inputs : List (List Byte × Bool)) :
    absorbed bytes (inputs.map fun input => .update input.1 input.2) =
      bytes ++ inputs.flatMap Prod.fst := by
  induction inputs generalizing bytes with
  | nil => simp [absorbed]
  | cons input inputs ih => simp [absorbed, ih]

/-- Any updates of fewer than `2 ^ 64` bytes go through, no push leaves the
array, and the state at the end has its invariant. -/
theorem updates_stateInvariant (f : Compress) (simd : Simd) (schedule : Schedule) (key : CVWords)
    (flags : Byte) (inputs : List (List Byte × Bool))
    (hlen : (inputs.flatMap Prod.fst).length < 2 ^ 64) :
    ∃ s, (hasherInitBase key flags).run f simd schedule
        (inputs.map fun input => .update input.1 input.2) = .ok s ∧
      StateInvariant f key flags (inputs.flatMap Prod.fst) s := by
  have hshort : ∀ p, p <+: inputs.map (fun input => Call.update input.1 input.2) →
      (absorbed [] p).length < 2 ^ 64 := by
    intro p hp
    rw [List.prefix_iff_eq_take, ← List.map_take] at hp
    rw [hp, absorbed_updates, List.nil_append]
    refine lt_of_le_of_lt ?_ hlen
    conv_rhs => rw [← List.take_append_drop p.length inputs, List.flatMap_append,
      List.length_append]
    exact Nat.le_add_right _ _
  obtain ⟨s, hrun⟩ := Absorbed.run_ok f simd schedule key flags absorbed_hasherInitBase hshort
  have habsorbed := absorbed_hasherInitBase.run hrun
  rw [absorbed_updates, List.nil_append] at habsorbed
  exact ⟨s, hrun, (habsorbed.reads hlen).stateInvariant hlen⟩

/-- Six chunks and a bit in updates that end inside of the third, the fourth and the last. -/
theorem updates_stateInvariant_of_three : ∃ s, (hasherInitBase iv 0).run compress .portable .serial
    [.update (List.replicate 3000 1) false, .update (List.replicate 100 2) true,
      .update (List.replicate 3100 3) true] = .ok s ∧
    StateInvariant compress iv 0
      (List.replicate 3000 1 ++ List.replicate 100 2 ++ List.replicate 3100 3) s := by
  have h := updates_stateInvariant compress .portable .serial iv 0
    [(List.replicate 3000 1, false), (List.replicate 100 2, true), (List.replicate 3100 3, true)]
    (by
      simp only [List.flatMap_cons, List.flatMap_nil, List.length_append, List.length_replicate,
        List.length_nil]
      omega)
  simpa only [List.map_cons, List.map_nil, List.flatMap_cons, List.flatMap_nil, List.append_nil,
    List.append_assoc] using h

end Blake3.C
