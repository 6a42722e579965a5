import Blake3.Rust.Hasher

/-!
The Rust hasher computes the tree. A hasher that starts behind `i` chunks
numbers its own chunks from there on; the number of chunks it has read, which
decides what is merged, is the difference. A subtree that fits behind the
offset has a size that divides both counters, so that the stack is that of a
hasher which starts at zero.
-/

namespace Blake3.Rust

open LeftTree CarryStack

/-! ### Subtrees behind an offset -/

/-- A subtree of `total` bytes may start behind `i` chunks. -/
structure Room (i total : ℕ) : Prop where
  below : 1024 * i + total < 2 ^ 64
  aligned : i = 0 ∨ ∃ k, 2 ^ k ∣ i ∧ total ≤ 1024 * 2 ^ k

namespace Room

variable {i total : ℕ}

theorem mono (h : Room i total) {total' : ℕ} (hle : total' ≤ total) : Room i total' := by
  have hbelow := h.below
  refine ⟨by omega, ?_⟩
  rcases h.aligned with hzero | ⟨k, hdvd, hk⟩
  · exact .inl hzero
  · exact .inr ⟨k, hdvd, by omega⟩

/-- A subtree that divides the absolute number of chunks divides the number of
chunks since the offset. -/
theorem dvd_of_dvd_add (h : Room i total) {j n : ℕ} (hdvd : 2 ^ j ∣ i + n)
    (hle : 1024 * 2 ^ j ≤ total) : 2 ^ j ∣ n := by
  rcases h.aligned with rfl | ⟨k, hk, htotal⟩
  · rwa [Nat.zero_add] at hdvd
  · have hpow : 2 ^ j ≤ 2 ^ k := by omega
    have hjk : j ≤ k := (Nat.pow_le_pow_iff_right (by omega)).mp hpow
    exact (Nat.dvd_add_right ((Nat.pow_dvd_pow 2 hjk).trans hk)).mp hdvd

end Room

/-- The number of low zero bits is the exponent of the largest power of two
that divides a number. -/
theorem two_pow_dvd_iff {x : UInt64} (hx : x.toNat ≠ 0) (k : ℕ) :
    2 ^ k ∣ x.toNat ↔ k ≤ trailingZeros x := by
  have hmerged : Merged x.toNat.bitIndices := Nat.bitIndices_sorted.pairwise
  have hweight : weight x.toNat.bitIndices = x.toNat := Nat.sum_map_two_pow_bitIndices _
  have hne : x.toNat.bitIndices ≠ [] := by
    intro hnil
    rw [hnil, weight_nil] at hweight
    exact hx hweight.symm
  rw [trailingZeros]
  generalize x.toNat.bitIndices = es at *
  rw [← hweight]
  cases es with
  | nil => exact absurd rfl hne
  | cons e es =>
      rw [List.headD_cons]
      constructor
      · intro hdvd
        exact hmerged.le_of_dvd hdvd e List.mem_cons_self
      · intro hle
        have hlow : 2 ^ e ∣ weight (e :: es) :=
          Nat.dvd_add (Nat.dvd_refl _) hmerged.lazy.dvd_weight
        exact (Nat.pow_dvd_pow 2 hle).trans hlow

variable (b : Build)

theorem maxSubtreeLen_zero : maxSubtreeLen b (UInt64.ofNat (0 * 1024)) = .ok none := by
  rw [Nat.zero_mul]
  exact if_pos rfl

/-- An offset of whole chunks, by the length of a chunk. -/
theorem chunkOffset_eq {i : ℕ} (hi : i * 1024 < 2 ^ 64) :
    UInt64.ofNat (i * 1024) % 1024 = 0 ∧ UInt64.ofNat (i * 1024) / 1024 = UInt64.ofNat i := by
  have htoNat : (UInt64.ofNat (i * 1024)).toNat = i * 1024 := toNat_ofNat64 hi
  constructor
  · rw [← UInt64.toNat_inj, UInt64.toNat_mod, htoNat]
    exact Nat.mul_mod_left i 1024
  · rw [← UInt64.toNat_inj, UInt64.toNat_div, htoNat, toNat_ofNat64 (by omega)]
    exact Nat.mul_div_cancel i (by omega)

/-- The largest subtree that starts behind `i` chunks. -/
theorem maxSubtreeLen_eq {i : ℕ} (hpos : 0 < i) (hi : i * 1024 < 2 ^ 64) :
    maxSubtreeLen b (UInt64.ofNat (i * 1024)) =
      .ok (some (UInt64.ofNat (2 ^ trailingZeros (UInt64.ofNat i) * 1024))) := by
  have htoNat : (UInt64.ofNat (i * 1024)).toNat = i * 1024 := toNat_ofNat64 hi
  have hne : UInt64.ofNat (i * 1024) ≠ 0 := by
    intro h
    rw [← UInt64.toNat_inj, htoNat, UInt64.toNat_zero] at h
    omega
  obtain ⟨hmod, hdiv⟩ := chunkOffset_eq hi
  have hdvd : 2 ^ trailingZeros (UInt64.ofNat i) ∣ i := by
    have hiff := two_pow_dvd_iff (x := UInt64.ofNat i) (by rw [toNat_ofNat64 (by omega)]; omega)
      (trailingZeros (UInt64.ofNat i))
    rw [toNat_ofNat64 (by omega)] at hiff
    exact hiff.mpr le_rfl
  have hle := Nat.le_of_dvd hpos hdvd
  rw [maxSubtreeLen, if_neg hne, if_neg (not_not_intro hmod)]
  dsimp only
  rw [hdiv]
  generalize 2 ^ trailingZeros (UInt64.ofNat i) = chunks at *
  have hlt : chunks * 1024 < 2 ^ 64 := (Nat.mul_le_mul_right 1024 hle).trans_lt hi
  have hmul : b.mulU64 (UInt64.ofNat chunks) 1024 = .ok (UInt64.ofNat (chunks * 1024)) :=
    b.mulU64_ofNat (y := 1024) hlt (by omega) (by omega)
  rw [hmul]
  rfl

/-- A subtree that has room keeps to the maximum length. -/
theorem Room.le_maxSubtreeLen {i total : ℕ} (h : Room i total) :
    maxSubtreeLen b (UInt64.ofNat (i * 1024)) = .ok none ∨
      ∃ max, maxSubtreeLen b (UInt64.ofNat (i * 1024)) = .ok (some (UInt64.ofNat max)) ∧
        max < 2 ^ 64 ∧ total ≤ max := by
  have hbelow := h.below
  rcases Nat.eq_zero_or_pos i with rfl | hpos
  · exact .inl (maxSubtreeLen_zero b)
  · rcases h.aligned with rfl | ⟨k, hdvd, hle⟩
    · exact absurd hpos (Nat.lt_irrefl 0)
    · have htoNat : (UInt64.ofNat i).toNat = i := toNat_ofNat64 (by omega)
      have hiff : ∀ k, 2 ^ k ∣ i ↔ k ≤ trailingZeros (UInt64.ofNat i) := by
        intro k
        have := two_pow_dvd_iff (x := UInt64.ofNat i) (by omega) k
        rwa [htoNat] at this
      have hpow : 2 ^ k ≤ 2 ^ trailingZeros (UInt64.ofNat i) :=
        Nat.pow_le_pow_right (by omega) ((hiff k).mp hdvd)
      have hself : 2 ^ trailingZeros (UInt64.ofNat i) ≤ i :=
        Nat.le_of_dvd hpos ((hiff _).mpr le_rfl)
      refine .inr ⟨_, maxSubtreeLen_eq b hpos (by omega), ?_, ?_⟩
      · exact (Nat.mul_le_mul_right 1024 hself).trans_lt (by omega)
      · omega

/-! ### Merging and pushing -/

/-- The key and the flags of the construction, and the offset. -/
structure Keyed (key : CVWords) (flags : Byte) (initial : UInt64) (s : Hasher) : Prop where
  key_eq : s.key = key
  flags_eq : s.chunkState.flags = flags
  initial_eq : s.initialChunkCounter = initial

namespace Hasher

variable {f : Compress} {b} (simd : Simd) (join : Join) {key : CVWords} {flags : Byte} {i : ℕ}

theorem mergeCvStack_eq {s : Hasher} (h : Keyed key flags (UInt64.ofNat i) s) {n : ℕ}
    (hn : i + n < 2 ^ 64) {st : List CVBytes}
    (hrun : mergeLoop (parentBytes f key flags.toUInt32) Fault.unwrapNone (popcount n) s.cvStack =
      .ok st) :
    mergeCvStack f b s (UInt64.ofNat (i + n)) = .ok { s with cvStack := st } := by
  have hop : (fun leftChild rightChild =>
      (parentNodeOutput leftChild rightChild s.key s.chunkState.flags).chainingValue f) =
        parentBytes f key flags.toUInt32 := by
    funext left right
    rw [h.key_eq, h.flags_eq, chainingValue_parentNodeOutput]
  rw [mergeCvStack, h.initial_eq, b.subU64_ofNat hn, Result.ok_bind]
  dsimp only
  rw [hop, toNat_ofNat64 (by omega), hrun]
  rfl

theorem pushCv_eq {s : Hasher} (h : Keyed key flags (UInt64.ofNat i) s) {n : ℕ}
    (hi : i + n < 2 ^ 64) (hn : n < 2 ^ 54) {st : List CVBytes}
    (hrun : mergeLoop (parentBytes f key flags.toUInt32) Fault.unwrapNone (popcount n) s.cvStack =
      .ok st) (hlen : st.length = popcount n) (cv : CVBytes) :
    pushCv f b s cv (UInt64.ofNat (i + n)) = .ok { s with cvStack := cv :: st } := by
  have := popcount_le_of_lt hn
  rw [pushCv, mergeCvStack_eq h hi hrun, Result.ok_bind, if_pos (by simp only; omega)]
  rfl

/-! ### Subtrees -/

/-- The hasher has read `whole`, a whole number of chunks, and `chunk`, from
behind `i` chunks on. -/
structure Covered (f : Compress) (key : CVWords) (flags : Byte) (i : ℕ) (s : Hasher) (n : ℕ)
    (whole chunk : List Byte) (es : List ℕ) : Prop where
  keyed : Keyed key flags (UInt64.ofNat i) s
  chunk_length : chunk.length ≤ 1024
  chunk_eq : s.chunkState = .ofPending (UInt64.ofNat (i + n)) flags
    (pendingOf f key flags.toUInt32 (UInt64.ofNat (i + n)) chunk)
  spans : Spans f key flags.toUInt32 (UInt64.ofNat i) s.cvStack es n whole

section Covered

variable {s : Hasher} {n : ℕ} {whole chunk : List Byte} {es : List ℕ}

theorem Covered.counter_eq (h : Covered f key flags i s n whole chunk es) :
    s.chunkState.chunkCounter = UInt64.ofNat (i + n) := by
  rw [h.chunk_eq]
  rfl

theorem Covered.chunk_count_eq (h : Covered f key flags i s n whole chunk es) :
    s.chunkState.count = chunk.length := by
  rw [h.chunk_eq, ChunkState.count_ofPending, length_pendingOf]

theorem Covered.length_eq (h : Covered f key flags i s n whole chunk es) :
    (whole ++ chunk).length = 1024 * n + chunk.length := by
  rw [List.length_append, h.spans.whole_length]

/-- The count is the number of bytes read. -/
theorem Covered.count_eq (h : Covered f key flags i s n whole chunk es)
    (hroom : Room i (whole ++ chunk).length) :
    s.count b = .ok (UInt64.ofNat (whole ++ chunk).length) := by
  have hbelow := hroom.below
  have hlen := h.length_eq
  rw [count, h.counter_eq, h.keyed.initial_eq, b.subU64_ofNat (by omega), Result.ok_bind]
  have hmul : b.mulU64 (UInt64.ofNat n) 1024 = .ok (UInt64.ofNat (n * 1024)) :=
    b.mulU64_ofNat (y := 1024) (by omega) (by omega) (by omega)
  rw [hmul, Result.ok_bind, h.chunk_count_eq, b.addU64_ofNat (by omega), hlen, Nat.mul_comm]

end Covered

/-- Pushing a whole subtree that divides what has been read. -/
theorem pushSubtree_eq {s : Hasher} {n j : ℕ} {whole block : List Byte} {es : List ℕ}
    (h : Covered f key flags i s n whole [] es) (hblock : block.length = 1024 * 2 ^ j)
    (hdvd : 2 ^ j ∣ n) (hn : 1024 * (i + n + 2 ^ j) < 2 ^ 64) :
    ∃ st es', pushSubtree f b simd join s block = .ok { s with cvStack := st } ∧
      Spans f key flags.toUInt32 (UInt64.ofNat i) st es' (n + 2 ^ j) (whole ++ block) ∧
      (0 < j → 2 ≤ st.length) := by
  have hjpos := Nat.two_pow_pos j
  have hkey := h.keyed.key_eq
  subst hkey
  have hctr : UInt64.ofNat i + UInt64.ofNat n = UInt64.ofNat (i + n) := (UInt64.ofNat_add i n).symm
  rw [pushSubtree, h.counter_eq, h.keyed.flags_eq]
  cases j with
  | zero =>
      -- one chunk
      have hone : block.length = 1024 := by rw [hblock, Nat.pow_zero]
      obtain ⟨st, es', hrun, hlen, hspans⟩ := h.spans.push_chunk Fault.unwrapNone hone
      refine ⟨_, _, ?_, hspans, fun hpos => absurd hpos (Nat.lt_irrefl 0)⟩
      rw [if_pos hone.le, b.debugAssert_of hone, Result.ok_bind,
        ChunkState.update_new f b flags _ s.key hone.le, Result.ok_bind, chunk_output, hctr]
      exact pushCv_eq h.keyed (by omega) (by omega) hrun hlen _
  | succ k =>
      -- two halves of `2 ^ k` chunks
      have hpow : 2 ^ (k + 1) = 2 ^ k * 2 := Nat.pow_succ 2 k
      have hkpos := Nat.two_pow_pos k
      obtain ⟨st, es', hrun, hlen, hlen', hspans⟩ :=
        h.spans.push_pair Fault.unwrapNone hblock hdvd rfl
      refine ⟨_, _, ?_, hspans, fun _ => by simp⟩
      have hpair := compressSubtreeToParentNode_eq f b simd join s.key flags block
        (UInt64.ofNat (i + n)) (by omega) (by omega)
        (by rw [toNat_ofNat64 (by omega)]; omega)
      rw [hctr] at hlen' ⊢
      generalize top _ (chunkBytes f s.key flags.toUInt32 (UInt64.ofNat (i + n)) block) = pair at *
      have hhalf : UInt64.ofNat (block.length / 1024) / 2 = UInt64.ofNat (2 ^ k) := by
        rw [← UInt64.toNat_inj, UInt64.toNat_div, toNat_ofNat64 (by omega),
          toNat_ofNat64 (by omega), show (2 : UInt64).toNat = 2 from rfl]
        omega
      have hfirst := pushCv_eq (b := b) h.keyed (by omega) (by omega) hrun hlen pair.1
      have hpushed : Keyed s.key flags (UInt64.ofNat i) { s with cvStack := pair.1 :: st } :=
        ⟨rfl, h.keyed.flags_eq, h.keyed.initial_eq⟩
      have hsecond := pushCv_eq (f := f) (b := b) hpushed (n := n + 2 ^ k) (by omega) (by omega)
        (mergeLoop_of_length Fault.unwrapNone hlen'.le) hlen' pair.2
      rw [if_neg (by omega), hpair, Result.ok_bind, hfirst, Result.ok_bind]
      dsimp only
      rw [h.counter_eq, hhalf, b.addU64_ofNat (by omega), Result.ok_bind, Nat.add_assoc]
      exact hsecond

/-- The hasher behind a subtree that has been pushed. -/
theorem Covered.advance {s : Hasher} {n m : ℕ} {whole block : List Byte} {es es' : List ℕ}
    {st : List CVBytes} (h : Covered f key flags i s n whole [] es)
    (hspans : Spans f key flags.toUInt32 (UInt64.ofNat i) st es' m (whole ++ block)) :
    Covered f key flags i
      { s with
        cvStack := st, chunkState := { s.chunkState with chunkCounter := UInt64.ofNat (i + m) } }
      m (whole ++ block) [] es' :=
  { keyed := ⟨h.keyed.key_eq, h.keyed.flags_eq, h.keyed.initial_eq⟩,
    chunk_length := by simp, spans := hspans,
    chunk_eq := by
      dsimp only
      rw [h.chunk_eq, pendingOf_nil, pendingOf_nil]
      rfl }

theorem largestPowerOfTwoLeq_eq {n : ℕ} (hpos : 0 < n) : largestPowerOfTwoLeq n = 2 ^ n.log2 := by
  have hlow := Nat.log2_self_le (n := n) (by omega)
  have hhigh := Nat.lt_log2_self (n := n)
  rw [Nat.pow_succ] at hhigh
  rw [largestPowerOfTwoLeq, clog_eq (k := n.log2) (by omega) (by omega)]

/-- The loop over whole subtrees leaves at most a chunk of input, and if it
leaves nothing the last subtree is on the stack as two entries. -/
theorem updateSubtrees_eq {s : Hasher} {n : ℕ} {whole input : List Byte} {es : List ℕ}
    (h : Covered f key flags i s n whole [] es) (hroom : Room i (whole ++ input).length) :
    ∃ s' n' whole' es' rest, updateSubtrees f b simd join s input = .ok (s', rest) ∧
      Covered f key flags i s' n' whole' [] es' ∧ whole ++ input = whole' ++ rest ∧
      rest.length ≤ 1024 ∧ (rest = [] → input ≠ [] → 2 ≤ s'.cvStack.length) := by
  -- on the length of the input: each subtree takes a chunk at least
  induction hm : input.length using Nat.strong_induction_on generalizing s n whole es input with
  | _ m ih =>
    rw [updateSubtrees]
    by_cases hlong : 1024 < input.length
    · have hlen : (whole ++ input).length = 1024 * n + input.length := by
        rw [List.length_append, h.spans.whole_length]
      have hbelow := hroom.below
      have hcountSoFar : b.mulU64 s.chunkState.chunkCounter 1024 =
          .ok (UInt64.ofNat ((i + n) * 1024)) := by
        rw [h.counter_eq]
        exact b.mulU64_ofNat (y := 1024) (by omega) (by omega) (by omega)
      have hcount : (UInt64.ofNat ((i + n) * 1024)).toNat = 1024 * (i + n) := by
        rw [toNat_ofNat64 (by omega), Nat.mul_comm]
      obtain ⟨j, hj, hle, hdvd⟩ := exists_subtreeLen hcount hlong (by omega)
      have hjpos := Nat.two_pow_pos j
      have hblock : (input.take (1024 * 2 ^ j)).length = 1024 * 2 ^ j := by
        rw [List.length_take]
        omega
      have hchunks : 1024 * 2 ^ j / 1024 = 2 ^ j := Nat.mul_div_cancel_left _ (by omega)
      have hsplit : whole ++ input.take (1024 * 2 ^ j) ++ input.drop (1024 * 2 ^ j) =
          whole ++ input := by
        rw [List.append_assoc, List.take_append_drop]
      obtain ⟨st, es', hpush, hspans, htwo⟩ := pushSubtree_eq (b := b) simd join h hblock
        (hroom.dvd_of_dvd_add hdvd (by omega)) (by omega)
      obtain ⟨s', n', whole', es'', rest, hrun, hcov', hsplit', hrest, htwo'⟩ :=
        ih (input.drop (1024 * 2 ^ j)).length (by rw [List.length_drop]; omega)
          (h.advance hspans) (by rwa [hsplit]) rfl
      refine ⟨s', n', whole', es'', rest, ?_, hcov', ?_, hrest, fun hnil hne => ?_⟩
      · have hempty : s.chunkState.count = 0 := h.chunk_count_eq
        rw [if_pos hlong, b.debugAssert_of hempty, Result.ok_bind, hcountSoFar,
          Result.ok_bind, largestPowerOfTwoLeq_eq (by omega), hj]
        dsimp only
        rw [hpush, Result.ok_bind]
        dsimp only
        rw [h.counter_eq, hchunks, b.addU64_ofNat (by omega), Result.ok_bind, Nat.add_assoc]
        exact hrun
      · rw [← hsplit', hsplit]
      · by_cases hdone : input.drop (1024 * 2 ^ j) = []
        · -- the subtree was the whole input, of more than one chunk
          rw [hdone, updateSubtrees, if_neg (by simp)] at hrun
          cases hrun
          rw [List.drop_eq_nil_iff] at hdone
          refine htwo (Nat.pos_of_ne_zero ?_)
          rintro rfl
          omega
        · exact htwo' hnil hdone
    · refine ⟨s, n, whole, es, input, by rw [if_neg hlong]; rfl, h, rfl, by omega, ?_⟩
      intro hnil hne
      exact absurd hnil hne

/-! ### Updates -/

/-- The hasher has read `bytes` from behind `i` chunks on. -/
def Reads (f : Compress) (key : CVWords) (flags : Byte) (i : ℕ) (s : Hasher) (bytes : List Byte) :
    Prop :=
  ∃ n whole chunk es, Covered f key flags i s n whole chunk es ∧ bytes = whole ++ chunk ∧
    (0 < chunk.length → Merged es) ∧ (chunk = [] → s.cvStack ≠ [] → 2 ≤ s.cvStack.length)

theorem Reads.keyed {s : Hasher} {bytes : List Byte} (h : Reads f key flags i s bytes) :
    Keyed key flags (UInt64.ofNat i) s := by
  obtain ⟨_, _, _, _, hcov, -⟩ := h
  exact hcov.keyed

theorem Reads.count_eq {s : Hasher} {bytes : List Byte} (h : Reads f key flags i s bytes)
    (hroom : Room i bytes.length) : s.count b = .ok (UInt64.ofNat bytes.length) := by
  obtain ⟨_, _, _, _, hcov, rfl, -⟩ := h
  exact hcov.count_eq hroom

variable (f key flags) in
theorem reads_newInternal : Reads f key flags 0 (newInternal key flags) [] := by
  refine ⟨0, [], [], [], ?_, rfl, by simp, fun _ hne => absurd rfl hne⟩
  exact
    { keyed := ⟨rfl, rfl, rfl⟩, chunk_length := by simp, spans := .empty,
      chunk_eq := by
        rw [pendingOf_nil]
        exact ChunkState.new_eq_ofPending flags 0 key }

variable (f key flags i) in
/-- A hasher without input starts wherever it is told to. -/
theorem setInputOffset_newInternal (hi : 1024 * i < 2 ^ 64) :
    ∃ s, (newInternal key flags).setInputOffset b (UInt64.ofNat (i * 1024)) = .ok s ∧
      Reads f key flags i s [] := by
  have hcount : (newInternal key flags).count b = .ok 0 :=
    (reads_newInternal f key flags).count_eq ⟨by simp, .inl rfl⟩
  obtain ⟨hmod, hdiv⟩ := @chunkOffset_eq i (by omega)
  rw [setInputOffset, hcount, Result.ok_bind, if_neg (not_not_intro rfl),
    if_neg (not_not_intro hmod)]
  refine ⟨_, rfl, 0, [], [], [], ?_, rfl, by simp, fun _ hne => absurd rfl hne⟩
  dsimp only
  rw [hdiv]
  exact
    { keyed := ⟨rfl, rfl, rfl⟩, chunk_length := by simp, spans := .empty,
      chunk_eq := by
        rw [pendingOf_nil, ← ChunkState.new_eq_ofPending]
        rfl }

/-- Input that leaves room is not rejected. -/
theorem assertSubtreeLen_eq {s : Hasher} {bytes input : List Byte}
    (h : Reads f key flags i s bytes) (hroom : Room i (bytes ++ input).length) :
    assertSubtreeLen b s input = .ok () := by
  have hbelow := hroom.below
  rw [List.length_append] at hbelow
  have hcount := h.count_eq (b := b) (hroom.mono (by rw [List.length_append]; omega))
  have hoffset : b.mulU64 s.initialChunkCounter 1024 = .ok (UInt64.ofNat (i * 1024)) := by
    rw [h.keyed.initial_eq]
    exact b.mulU64_ofNat (y := 1024) (by omega) (by omega) (by omega)
  rw [assertSubtreeLen, hoffset, Result.ok_bind]
  rcases hroom.le_maxSubtreeLen b with hnone | ⟨max, hsome, hmax, hle⟩
  · rw [hnone]
    rfl
  · rw [List.length_append] at hle
    have hsum : max = bytes.length + (max - bytes.length) := by omega
    have hsub : b.subU64 (UInt64.ofNat max) (UInt64.ofNat bytes.length) =
        .ok (UInt64.ofNat (max - bytes.length)) := by
      conv_lhs => rw [hsum]
      exact b.subU64_ofNat (by omega)
    rw [hsome, Result.ok_bind]
    dsimp only
    rw [hcount, Result.ok_bind, hsub, Result.ok_bind, if_neg]
    · rfl
    · rw [UInt64.lt_iff_toNat_lt, toNat_ofNat64 (by omega), toNat_ofNat64 (by omega)]
      omega

theorem updateWholeChunks_eq {s : Hasher} {n : ℕ} {whole input : List Byte} {es : List ℕ}
    (h : Covered f key flags i s n whole [] es) (hroom : Room i (whole ++ input).length)
    (htwo : input = [] → s.cvStack ≠ [] → 2 ≤ s.cvStack.length) :
    ∃ s', updateWholeChunks f b simd join s input = .ok s' ∧
      Reads f key flags i s' (whole ++ input) := by
  obtain ⟨s', n', whole', es', rest, hrun, hcov, hsplit, hrest, htwo'⟩ :=
    updateSubtrees_eq (b := b) simd join h hroom
  have hbelow := hroom.below
  rw [hsplit, List.length_append, hcov.spans.whole_length] at hbelow
  rw [updateWholeChunks, hrun, Result.ok_bind, hsplit]
  dsimp only
  rw [b.debugAssert_of hrest, Result.ok_bind]
  by_cases hnil : rest = []
  · subst hnil
    refine ⟨s', by rw [if_pos rfl]; rfl, n', whole', [], es', hcov, rfl, by simp, ?_⟩
    intro _ hst
    by_cases hne : input = []
    · -- nothing was done
      subst hne
      rw [updateSubtrees, if_neg (by simp)] at hrun
      cases hrun
      exact htwo rfl hst
    · exact htwo' rfl hne
  · have hchunk : s'.chunkState.update f b rest = .ok (.ofPending (UInt64.ofNat (i + n')) flags
        (pendingOf f key flags.toUInt32 (UInt64.ofNat (i + n')) rest)) := by
      rw [hcov.chunk_eq,
        ChunkState.update_pendingOf f b flags _ key [] rest (by simpa using hrest), List.nil_append]
    obtain ⟨st, es'', hmerge, -, hspans, hm⟩ := hcov.spans.merge Fault.unwrapNone
    have hkeyed : Keyed key flags (UInt64.ofNat i) { s' with
        chunkState := .ofPending (UInt64.ofNat (i + n')) flags
          (pendingOf f key flags.toUInt32 (UInt64.ofNat (i + n')) rest) } :=
      ⟨hcov.keyed.key_eq, rfl, hcov.keyed.initial_eq⟩
    have hmerged := mergeCvStack_eq (b := b) hkeyed (by omega) hmerge
    rw [if_neg hnil, hchunk, Result.ok_bind]
    refine ⟨_, hmerged, n', whole', rest, es'', ?_, rfl, fun _ => hm, fun h => absurd h hnil⟩
    exact
      { keyed := ⟨hcov.keyed.key_eq, rfl, hcov.keyed.initial_eq⟩, chunk_length := hrest,
        chunk_eq := rfl, spans := hspans }

/-- A partial chunk that is complete goes onto the stack. -/
theorem pushChunk_eq {s : Hasher} {n : ℕ} {whole chunk : List Byte} {es : List ℕ}
    (h : Covered f key flags i s n whole chunk es) (hfull : chunk.length = 1024)
    (hn : 1024 * (i + n + 1) < 2 ^ 64) :
    ∃ s' es', pushCv f b s (s.chunkState.output.chainingValue f) s.chunkState.chunkCounter =
        .ok s' ∧ b.addU64 s'.chunkState.chunkCounter 1 = .ok (UInt64.ofNat (i + (n + 1))) ∧
      Covered f key flags i
        { s' with
          chunkState := .new s'.key (UInt64.ofNat (i + (n + 1))) s'.chunkState.flags }
        (n + 1) (whole ++ chunk) [] es' := by
  obtain ⟨st, es', hrun, hlen, hspans⟩ := h.spans.push_chunk Fault.unwrapNone hfull
  have hpush := pushCv_eq (b := b) h.keyed (by omega) (by omega) hrun hlen
    (s.chunkState.output.chainingValue f)
  have hcv : s.chunkState.output.chainingValue f = cvBytes f (chunkNode f key flags.toUInt32
      (UInt64.ofNat i + UInt64.ofNat n) chunk) := by
    rw [h.chunk_eq, chunk_output, UInt64.ofNat_add]
  rw [← hcv] at hspans
  rw [h.counter_eq]
  refine ⟨_, 0 :: es', hpush, ?_, ?_⟩
  · dsimp only
    rw [h.counter_eq]
    exact b.addU64_ofNat (y := 1) (by omega)
  · exact
      { keyed := ⟨h.keyed.key_eq, h.keyed.flags_eq, h.keyed.initial_eq⟩, chunk_length := by simp,
        spans := hspans,
        chunk_eq := by
          dsimp only
          rw [h.keyed.key_eq, h.keyed.flags_eq, pendingOf_nil]
          exact ChunkState.new_eq_ofPending flags _ key }

/-- An update reads its input, if there is room for it. -/
theorem updateWithJoin_eq {s : Hasher} {bytes : List Byte} (h : Reads f key flags i s bytes)
    (input : List Byte) (hroom : Room i (bytes ++ input).length) :
    ∃ s', updateWithJoin f b simd join s input = .ok s' ∧
      Reads f key flags i s' (bytes ++ input) := by
  rw [updateWithJoin, assertSubtreeLen_eq h hroom, Result.ok_bind]
  obtain ⟨n, whole, chunk, es, hcov, rfl, hmerged, htwo⟩ := h
  have hchunk := hcov.chunk_length
  have hbelow := hroom.below
  rw [List.length_append, hcov.length_eq] at hbelow
  rw [hcov.chunk_count_eq]
  by_cases hpos : 0 < chunk.length
  · have hread : s.chunkState.update f b (input.take (1024 - chunk.length)) =
        .ok (.ofPending (UInt64.ofNat (i + n)) flags (pendingOf f key flags.toUInt32
          (UInt64.ofNat (i + n)) (chunk ++ input.take (1024 - chunk.length)))) := by
      rw [hcov.chunk_eq]
      exact ChunkState.update_pendingOf f b flags _ key chunk _ (by rw [List.length_take]; omega)
    have hnext : Covered f key flags i
        { s with chunkState := .ofPending (UInt64.ofNat (i + n)) flags (pendingOf f key
          flags.toUInt32 (UInt64.ofNat (i + n)) (chunk ++ input.take (1024 - chunk.length))) }
        n whole (chunk ++ input.take (1024 - chunk.length)) es :=
      { keyed := ⟨hcov.keyed.key_eq, rfl, hcov.keyed.initial_eq⟩,
        chunk_length := by rw [List.length_append, List.length_take]; omega,
        chunk_eq := rfl, spans := hcov.spans }
    rw [if_pos hpos]
    dsimp only
    rw [take_min_length, drop_min_length, hread, Result.ok_bind]
    by_cases hnil : input.drop (1024 - chunk.length) = []
    · -- the input ends in the current chunk
      rw [if_pos hnil]
      rw [List.drop_eq_nil_iff] at hnil
      rw [List.take_of_length_le hnil] at hnext ⊢
      refine ⟨_, rfl, n, whole, chunk ++ input, es, hnext, List.append_assoc _ _ _,
        fun _ => hmerged hpos, fun hall => ?_⟩
      rw [(List.append_eq_nil_iff.mp hall).1] at hpos
      exact absurd hpos (by simp)
    · -- the chunk is completed and pushed, and the rest starts a new one
      have hrest : 1024 - chunk.length < input.length := by
        rw [List.drop_eq_nil_iff] at hnil
        omega
      have hfull : (chunk ++ input.take (1024 - chunk.length)).length = 1024 := by
        rw [List.length_append, List.length_take]
        omega
      obtain ⟨s', es', hpush, hadd, hcov'⟩ := pushChunk_eq (b := b) hnext hfull (by omega)
      have hsplit : whole ++ (chunk ++ input.take (1024 - chunk.length)) ++
          input.drop (1024 - chunk.length) = whole ++ chunk ++ input := by
        rw [List.append_assoc, List.append_assoc, List.take_append_drop, List.append_assoc]
      obtain ⟨s'', hrun, hreads⟩ := updateWholeChunks_eq (b := b) simd join hcov'
        (by rwa [hsplit]) fun hdone => absurd hdone hnil
      refine ⟨s'', ?_, hsplit ▸ hreads⟩
      rw [if_neg hnil, b.debugAssert_of (hnext.chunk_count_eq.trans hfull), Result.ok_bind]
      dsimp only at hpush ⊢
      rw [hpush, Result.ok_bind, hadd, Result.ok_bind]
      exact hrun
  · obtain rfl : chunk = [] := List.length_eq_zero_iff.mp (by omega)
    rw [List.append_nil] at hroom ⊢
    rw [if_neg hpos]
    exact updateWholeChunks_eq simd join hcov hroom fun _ => htwo rfl

/-! ### The output -/

theorem node_rollup (o : Output) (cvs : List CVBytes) :
    (cvs.foldl (fun output cv => parentNodeOutput cv (output.chainingValue f) key flags) o).node =
      cvs.foldl (fun acc cv => parentOf key flags.toUInt32 cv (cvBytes f acc)) o.node := by
  induction cvs generalizing o with
  | nil => rfl
  | cons cv cvs ih =>
      rw [List.foldl_cons, ih, node_parentNodeOutput, Output.chainingValue_eq]
      rfl

theorem counter_rollup {o : Output} (cvs : List CVBytes) (ho : o.counter = 0) :
    (cvs.foldl (fun output cv => parentNodeOutput cv (output.chainingValue f) key flags)
      o).counter = 0 := by
  induction cvs generalizing o with
  | nil => exact ho
  | cons cv cvs ih => exact ih rfl

/-- The top of what has been read; without an offset its counter is zero. -/
theorem finalOutput_eq {s : Hasher} {bytes : List Byte} (h : Reads f key flags i s bytes)
    (hroom : Room i bytes.length) :
    ∃ o, finalOutput f b s = .ok o ∧ (i = 0 → o.counter = 0) ∧
      o.node = subtreeNode f key flags.toUInt32 (UInt64.ofNat i) bytes := by
  obtain ⟨n, whole, chunk, es, hcov, rfl, hmerged, htwo⟩ := h
  have hbelow := hroom.below
  rw [hcov.length_eq] at hbelow
  have hkey := hcov.keyed.key_eq
  subst hkey
  have hspans := hcov.spans
  have hchunk : s.chunkState.output.node =
      chunkNode f s.key flags.toUInt32 (UInt64.ofNat (i + n)) chunk := by
    rw [hcov.chunk_eq, ChunkState.output_ofPending]
    rfl
  rw [finalOutput, hcov.chunk_count_eq, hcov.keyed.flags_eq, hcov.keyed.initial_eq, hcov.counter_eq]
  by_cases hst : s.cvStack = []
  · -- the first chunk is at the top
    rw [hst] at hspans
    obtain ⟨rfl, rfl⟩ := hspans.of_nil
    rw [if_pos hst, Nat.add_zero, b.debugAssert_of rfl, Result.ok_bind]
    refine ⟨_, rfl, ?_, ?_⟩
    · rintro rfl
      exact hcov.counter_eq
    · rw [hchunk, subtreeNode, treeNode_of_le _ _ _ _ (by simpa using hcov.chunk_length)]
      rfl
  · rw [if_neg hst]
    by_cases hpos : 0 < chunk.length
    · -- roll up the current chunk with every entry of the stack
      have hlen : s.cvStack.length = popcount n := by
        rw [hspans.covers.length_of_merged (hmerged hpos), hspans.length_leaves]
      have hassert : debugAssertMerged b s = .ok () := by
        rw [debugAssertMerged, hcov.counter_eq, hcov.keyed.initial_eq, b.subU64_ofNat (by omega),
          Result.ok_bind, toNat_ofNat64 (by omega), b.debugAssert_of hlen]
        exact ite_self _
      rw [if_pos hpos, hassert, Result.ok_bind]
      refine ⟨_, rfl, ?_, ?_⟩
      · intro _
        obtain ⟨top, rest, hstack⟩ := List.exists_cons_of_ne_nil hst
        rw [hstack]
        dsimp only
        rw [List.foldl_cons]
        exact counter_rollup rest rfl
      · rw [node_rollup, hchunk, UInt64.ofNat_add]
        exact hspans.rollup_chunk (hmerged hpos) hpos hcov.chunk_length
    · -- the top two entries make the first parent
      obtain rfl : chunk = [] := List.length_eq_zero_iff.mp (by omega)
      have htwo := htwo rfl hst
      rw [if_neg hpos, b.debugAssert_of htwo, Result.ok_bind, List.append_nil]
      rcases hstack : s.cvStack with _ | ⟨right, _ | ⟨left, cvs⟩⟩
      · rw [hstack] at htwo
        cases htwo
      · rw [hstack] at htwo
        exact absurd htwo (by simp)
      · rw [hstack] at hspans
        refine ⟨_, rfl, fun _ => counter_rollup cvs rfl, ?_⟩
        rw [node_rollup, node_parentNodeOutput]
        exact hspans.rollup_pair

end Hasher

end Blake3.Rust
