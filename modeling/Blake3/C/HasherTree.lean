import Blake3.C.Hasher
import Blake3.ReferenceTree
import Blake3.Stack

/-!
The C hasher computes the tree. After any sequence of updates the stack covers
the chunks before the current one, fully merged but perhaps for its top entry;
an update that ends exactly at a subtree leaves two entries, so that the last
parent can still become the root.
-/

namespace Blake3.C

open LeftTree CarryStack

variable {f : Compress} (simd : Simd) (schedule : Schedule) (useTbb : Bool) {key : CVWords}
  {flags : Byte}

/-! ### Merging and pushing -/

theorem node_parentOutput (left right : CVBytes) :
    (parentOutput left right key flags).node = parentOf key flags.toUInt32 left right := by
  simp [parentOutput, Output.node, blockNode, parentOf, parentNode,
    wordsFromLeBytes64_parentBlock]

theorem chainingValue_parentOutput (left right : CVBytes) :
    (parentOutput left right key flags).chainingValue f =
      parentBytes f key flags.toUInt32 left right := by
  rw [Output.chainingValue_eq, node_parentOutput]
  rfl

theorem popcnt_ofNat {n : ℕ} (h : n < 2 ^ 64) : popcnt (UInt64.ofNat n) = popcount n := by
  rw [popcnt, toNat_ofNat64 h]

theorem hasherMergeCvStack_eq {s : Hasher} (hkey : s.key = key) (hflags : s.chunk.flags = flags)
    {n : ℕ} (hn : n < 2 ^ 64) {st : List CVBytes}
    (hrun : mergeLoop (parentBytes f key flags.toUInt32) Fault.outOfBounds (popcount n) s.cvStack =
      .ok st) :
    hasherMergeCvStack f s (UInt64.ofNat n) = .ok { s with cvStack := st } := by
  have hop : (fun left right => (parentOutput left right s.key s.chunk.flags).chainingValue f) =
      parentBytes f key flags.toUInt32 := by
    funext left right
    rw [hkey, hflags, chainingValue_parentOutput]
  rw [hasherMergeCvStack, hop, popcnt_ofNat hn, hrun]
  rfl

theorem hasherPushCv_eq {s : Hasher} (hkey : s.key = key) (hflags : s.chunk.flags = flags)
    {n : ℕ} (hn : n < 2 ^ 54) {st : List CVBytes}
    (hrun : mergeLoop (parentBytes f key flags.toUInt32) Fault.outOfBounds (popcount n) s.cvStack =
      .ok st) (hlen : st.length = popcount n) (cv : CVBytes) :
    hasherPushCv f s cv (UInt64.ofNat n) = .ok { s with cvStack := cv :: st } := by
  have := popcount_le_of_lt hn
  rw [hasherPushCv, hasherMergeCvStack_eq hkey hflags (by omega) hrun, Result.ok_bind,
    if_pos (by simp only; omega)]
  rfl

/-! ### Subtrees -/

/-- The hasher has read `whole`, a whole number of chunks, and `chunk`. -/
structure Covered (f : Compress) (key : CVWords) (flags : Byte) (s : Hasher) (n : ℕ)
    (whole chunk : List Byte) (es : List ℕ) : Prop where
  key_eq : s.key = key
  whole_length : whole.length = 1024 * n
  chunk_length : chunk.length ≤ 1024
  chunk_eq : s.chunk =
    .ofPending (UInt64.ofNat n) flags (pendingOf f key flags.toUInt32 (UInt64.ofNat n) chunk)
  covers : Covers (parentBytes f key flags.toUInt32) s.cvStack es
    (chunkBytes f key flags.toUInt32 0 whole)
  lazy : Lazy es

theorem Covered.flags_eq {s : Hasher} {n : ℕ} {whole chunk : List Byte} {es : List ℕ}
    (h : Covered f key flags s n whole chunk es) : s.chunk.flags = flags := by
  rw [h.chunk_eq]
  rfl

theorem Covered.counter_eq {s : Hasher} {n : ℕ} {whole chunk : List Byte} {es : List ℕ}
    (h : Covered f key flags s n whole chunk es) : s.chunk.chunkCounter = UInt64.ofNat n := by
  rw [h.chunk_eq]
  rfl

theorem Covered.spans {s : Hasher} {n : ℕ} {whole chunk : List Byte} {es : List ℕ}
    (h : Covered f key flags s n whole chunk es) :
    Spans f key flags.toUInt32 0 s.cvStack es n whole :=
  ⟨h.whole_length, h.covers, h.lazy⟩

theorem Covered.count_eq {s : Hasher} {n : ℕ} {whole chunk : List Byte} {es : List ℕ}
    (h : Covered f key flags s n whole chunk es) : chunkStateLen s.chunk = chunk.length := by
  rw [h.chunk_eq, chunkStateLen, ChunkState.count_ofPending, length_pendingOf]

/-- Pushing a whole subtree that divides what has been read. -/
theorem pushSubtree_eq {s : Hasher} {n j : ℕ} {whole block : List Byte} {es : List ℕ}
    (h : Covered f key flags s n whole [] es) (hblock : block.length = 1024 * 2 ^ j)
    (hdvd : 2 ^ j ∣ n) (hn : n + 2 ^ j ≤ 2 ^ 54) :
    ∃ st es', pushSubtree f simd schedule useTbb s block = .ok { s with cvStack := st } ∧
      Spans f key flags.toUInt32 0 st es' (n + 2 ^ j) (whole ++ block) ∧
      (0 < j → 2 ≤ st.length) := by
  have hjpos := Nat.two_pow_pos j
  have hkey := h.key_eq
  subst hkey
  have hctr : (0 : UInt64) + UInt64.ofNat n = UInt64.ofNat n := UInt64.zero_add _
  rw [pushSubtree, h.counter_eq, h.flags_eq]
  cases j with
  | zero =>
      -- one chunk
      have hone : block.length = 1024 := by rw [hblock, Nat.pow_zero]
      obtain ⟨st, es', hrun, hlen, hspans⟩ := h.spans.push_chunk Fault.outOfBounds hone
      refine ⟨_, _, ?_, hspans, fun hpos => absurd hpos (Nat.lt_irrefl 0)⟩
      have hchunk : chunkStateUpdate f
          { chunkStateInit s.key flags with chunkCounter := UInt64.ofNat n } block =
          .ok (.ofPending (UInt64.ofNat n) flags
            (pendingOf f s.key flags.toUInt32 (UInt64.ofNat n) block)) :=
        ChunkState.update_new f .wrapping flags _ s.key hone.le
      rw [if_pos hone.le, hchunk, Result.ok_bind, chunkStateOutput, chunk_output, hctr]
      exact hasherPushCv_eq rfl h.flags_eq (by omega) hrun hlen _
  | succ i =>
      -- two halves of `2 ^ i` chunks
      have hpow : 2 ^ (i + 1) = 2 ^ i * 2 := Nat.pow_succ 2 i
      obtain ⟨st, es', hrun, hlen, hlen', hspans⟩ :=
        h.spans.push_pair Fault.outOfBounds hblock hdvd rfl
      refine ⟨_, _, ?_, hspans, fun _ => by simp⟩
      rw [hctr] at hlen' ⊢
      rw [if_neg (by omega), compressSubtreeToParentNode_eq _ _ _ _ _ _ _ (by omega),
        Result.ok_bind]
      generalize top _ (chunkBytes f s.key flags.toUInt32 (UInt64.ofNat n) block) = pair at *
      have hmid : s.chunk.chunkCounter + UInt64.ofNat (block.length / 1024 / 2) =
          UInt64.ofNat (n + 2 ^ i) := by
        rw [h.counter_eq, UInt64.ofNat_add]
        congr 2
        omega
      rw [hasherPushCv_eq rfl h.flags_eq (by omega) hrun hlen, Result.ok_bind]
      dsimp only
      rw [hmid]
      exact hasherPushCv_eq (s := { s with cvStack := _ :: st }) (n := n + 2 ^ i) rfl h.flags_eq
        (by omega) (mergeLoop_of_length Fault.outOfBounds hlen'.le) hlen' _

/-- The hasher behind a subtree that has been pushed. -/
theorem Covered.advance {s : Hasher} {n m : ℕ} {whole block : List Byte} {es es' : List ℕ}
    {st : List CVBytes} (h : Covered f key flags s n whole [] es)
    (hspans : Spans f key flags.toUInt32 0 st es' m (whole ++ block)) :
    Covered f key flags
      { s with cvStack := st, chunk := { s.chunk with chunkCounter := UInt64.ofNat m } }
      m (whole ++ block) [] es' :=
  { key_eq := h.key_eq, chunk_length := by simp, covers := hspans.covers, lazy := hspans.lazy,
    whole_length := hspans.whole_length,
    chunk_eq := by
      dsimp only
      rw [h.chunk_eq, pendingOf_nil, pendingOf_nil]
      rfl }

/-- The next subtree is a power of two of chunks that divides what has been read. -/
theorem exists_nextSubtreeLen {s : Hasher} {n len : ℕ} {whole chunk : List Byte} {es : List ℕ}
    (h : Covered f key flags s n whole chunk es) (hlong : 1024 < len)
    (hlen : 1024 * n + len < 2 ^ 64) :
    ∃ j, nextSubtreeLen s len = 1024 * 2 ^ j ∧ 1024 * 2 ^ j ≤ len ∧ 2 ^ j ∣ n := by
  have hcount : (UInt64.ofNat n * 1024).toNat = 1024 * n := by
    rw [UInt64.toNat_mul, toNat_ofNat64 (by omega), show (1024 : UInt64).toNat = 1024 from rfl]
    omega
  rw [nextSubtreeLen, h.counter_eq, roundDownToPowerOf2_eq (by omega)]
  exact exists_subtreeLen hcount hlong (by omega)

/-- The loop over whole subtrees leaves at most a chunk of input, and if it
leaves nothing the last subtree is on the stack as two entries. -/
theorem updateSubtrees_eq {s : Hasher} {n : ℕ} {whole input : List Byte} {es : List ℕ}
    (h : Covered f key flags s n whole [] es) (hlen : 1024 * n + input.length < 2 ^ 64) :
    ∃ s' n' whole' es' rest, updateSubtrees f simd schedule useTbb s input = .ok (s', rest) ∧
      Covered f key flags s' n' whole' [] es' ∧ whole ++ input = whole' ++ rest ∧
      rest.length ≤ 1024 ∧ (rest = [] → input ≠ [] → 2 ≤ s'.cvStack.length) := by
  induction hm : input.length using Nat.strong_induction_on generalizing s n whole es input with
  | _ m ih =>
    rw [updateSubtrees]
    by_cases hlong : 1024 < input.length
    · obtain ⟨j, hj, hle, hdvd⟩ := exists_nextSubtreeLen h hlong hlen
      have hjpos := Nat.two_pow_pos j
      have hblock : (input.take (1024 * 2 ^ j)).length = 1024 * 2 ^ j := by
        rw [List.length_take]
        omega
      obtain ⟨st, es', hpush, hspans, htwo⟩ := pushSubtree_eq simd schedule
        useTbb h hblock hdvd (by omega)
      have hnext := h.advance hspans
      have hcounter : s.chunk.chunkCounter + UInt64.ofNat (1024 * 2 ^ j / 1024) =
          UInt64.ofNat (n + 2 ^ j) := by
        rw [h.counter_eq, Nat.mul_div_cancel_left _ (by omega), UInt64.ofNat_add]
      obtain ⟨s', n', whole', es'', rest, hrun, hcov', hsplit, hrest, htwo'⟩ :=
        ih (input.drop (1024 * 2 ^ j)).length (by rw [List.length_drop]; omega) hnext
          (by rw [List.length_drop]; omega) rfl
      refine ⟨s', n', whole', es'', rest, ?_, hcov', ?_, hrest, fun hnil hne => ?_⟩
      · rw [if_pos hlong, hj]
        dsimp only
        rw [hpush, Result.ok_bind]
        dsimp only
        rw [hcounter]
        exact hrun
      · rw [← hsplit, List.append_assoc, List.take_append_drop]
      · by_cases hdone : input.drop (1024 * 2 ^ j) = []
        · -- the subtree was the whole input, of more than one chunk
          rw [hdone, updateSubtrees, if_neg (by simp)] at hrun
          cases hrun
          rw [List.drop_eq_nil_iff] at hdone
          refine htwo (Nat.pos_of_ne_zero ?_)
          rintro rfl
          omega
        · exact htwo' hnil hdone
    · refine ⟨s, n, whole, es, input, by rw [if_neg hlong]; rfl, h, rfl, by omega, ?_⟩
      exact fun hnil hne => absurd hnil hne

/-! ### Updates -/

/-- The hasher has read `bytes`. -/
def Reads (f : Compress) (key : CVWords) (flags : Byte) (s : Hasher) (bytes : List Byte) : Prop :=
  ∃ n whole chunk es, Covered f key flags s n whole chunk es ∧ bytes = whole ++ chunk ∧
    (0 < chunk.length → Merged es) ∧ (chunk = [] → s.cvStack ≠ [] → 2 ≤ s.cvStack.length)

theorem covered_hasherInitBase : Covered f key flags (hasherInitBase key flags) 0 [] [] [] :=
  { key_eq := rfl, whole_length := rfl, chunk_length := by simp, lazy := trivial,
    covers := Spans.empty.covers,
    chunk_eq := by
      rw [pendingOf_nil]
      exact ChunkState.new_eq_ofPending flags 0 key }

theorem reads_hasherInitBase : Reads f key flags (hasherInitBase key flags) [] :=
  ⟨0, [], [], [], covered_hasherInitBase, rfl, by simp, fun _ hne => absurd rfl hne⟩

theorem updateWholeChunks_eq {s : Hasher} {n : ℕ} {whole input : List Byte} {es : List ℕ}
    (h : Covered f key flags s n whole [] es) (hne : input ≠ [])
    (hlen : 1024 * n + input.length < 2 ^ 64) :
    ∃ s', updateWholeChunks f simd schedule useTbb s input = .ok s' ∧
      Reads f key flags s' (whole ++ input) := by
  obtain ⟨s', n', whole', es', rest, hrun, hcov, hsplit, hrest, htwo⟩ :=
    updateSubtrees_eq simd schedule useTbb h hlen
  have hcount : 1024 * n' + rest.length = 1024 * n + input.length := by
    rw [← hcov.whole_length, ← h.whole_length, ← List.length_append, ← List.length_append, hsplit]
  rw [updateWholeChunks, hrun, Result.ok_bind, hsplit]
  dsimp only
  by_cases hnil : rest = []
  · subst hnil
    exact ⟨s', by rw [if_pos rfl]; rfl, n', whole', [], es', hcov, rfl, by simp,
      fun _ _ => htwo rfl hne⟩
  · have hchunk : chunkStateUpdate f s'.chunk rest = .ok (.ofPending (UInt64.ofNat n') flags
        (pendingOf f key flags.toUInt32 (UInt64.ofNat n') rest)) := by
      rw [hcov.chunk_eq, chunkStateUpdate,
        ChunkState.update_pendingOf f .wrapping flags _ key [] rest (by simpa using hrest),
        List.nil_append]
    obtain ⟨st, es'', hmerge, -, hspans, hm⟩ := hcov.spans.merge Fault.outOfBounds
    have hpair := hasherMergeCvStack_eq (s := { s' with
      chunk := .ofPending (UInt64.ofNat n') flags
        (pendingOf f key flags.toUInt32 (UInt64.ofNat n') rest) })
      hcov.key_eq rfl (by omega) hmerge
    rw [if_neg hnil, hchunk, Result.ok_bind]
    exact ⟨_, hpair, n', whole', rest, es'',
      { key_eq := hcov.key_eq, whole_length := hcov.whole_length, chunk_length := hrest,
        chunk_eq := rfl, covers := hspans.covers, lazy := hm.lazy },
      rfl, fun _ => hm, fun h => absurd h hnil⟩

/-- A partial chunk that is complete goes onto the stack. -/
theorem pushChunk_eq {s : Hasher} {n : ℕ} {whole chunk : List Byte} {es : List ℕ}
    (h : Covered f key flags s n whole chunk es) (hfull : chunk.length = 1024) (hn : n < 2 ^ 54) :
    ∃ s' es', hasherPushCv f s ((chunkStateOutput s.chunk).chainingValue f) s.chunk.chunkCounter =
        .ok s' ∧
      Covered f key flags
        { s' with chunk := chunkStateReset s'.chunk s'.key (s'.chunk.chunkCounter + 1) } (n + 1)
        (whole ++ chunk) [] es' := by
  obtain ⟨st, es', hrun, hlen, hspans⟩ := h.spans.push_chunk Fault.outOfBounds hfull
  rw [UInt64.zero_add] at hspans
  have hpush := hasherPushCv_eq h.key_eq h.flags_eq hn hrun hlen
    (cvBytes f (chunkNode f key flags.toUInt32 (UInt64.ofNat n) chunk))
  have hcv : (chunkStateOutput s.chunk).chainingValue f =
      cvBytes f (chunkNode f key flags.toUInt32 (UInt64.ofNat n) chunk) := by
    rw [h.chunk_eq, chunkStateOutput, chunk_output]
  rw [hcv, h.counter_eq]
  refine ⟨_, 0 :: es', hpush, ?_⟩
  exact
    { key_eq := h.key_eq, chunk_length := by simp, covers := hspans.covers, lazy := hspans.lazy,
      whole_length := hspans.whole_length,
      chunk_eq := by
        dsimp only
        rw [h.chunk_eq, h.key_eq, pendingOf_nil, UInt64.ofNat_add]
        exact ChunkState.new_eq_ofPending flags _ key }

/-- An update reads its input. -/
theorem blake3HasherUpdateBase_eq {s : Hasher} {bytes input : List Byte}
    (h : Reads f key flags s bytes) (hlen : (bytes ++ input).length < 2 ^ 64) :
    ∃ s', blake3HasherUpdateBase f simd schedule useTbb s input = .ok s' ∧
      Reads f key flags s' (bytes ++ input) := by
  by_cases hne : input = []
  · subst hne
    exact ⟨s, by rw [blake3HasherUpdateBase, if_pos rfl]; rfl, by rwa [List.append_nil]⟩
  · obtain ⟨n, whole, chunk, es, hcov, rfl, hmerged, htwo⟩ := h
    have hchunk := hcov.chunk_length
    rw [List.length_append, List.length_append, hcov.whole_length] at hlen
    rw [blake3HasherUpdateBase, if_neg hne, hcov.count_eq]
    by_cases hpos : 0 < chunk.length
    · -- what the current chunk still needs
      have hsub : subSize 1024 chunk.length = 1024 - chunk.length := if_pos hchunk
      have hread : chunkStateUpdate f s.chunk (input.take (1024 - chunk.length)) =
          .ok (.ofPending (UInt64.ofNat n) flags (pendingOf f key flags.toUInt32 (UInt64.ofNat n)
            (chunk ++ input.take (1024 - chunk.length)))) := by
        rw [hcov.chunk_eq]
        exact ChunkState.update_pendingOf f .wrapping flags _ key chunk _
          (by rw [List.length_take]; omega)
      have hnext : Covered f key flags
          { s with chunk := .ofPending (UInt64.ofNat n) flags (pendingOf f key flags.toUInt32
            (UInt64.ofNat n) (chunk ++ input.take (1024 - chunk.length))) }
          n whole (chunk ++ input.take (1024 - chunk.length)) es :=
        { key_eq := hcov.key_eq, whole_length := hcov.whole_length,
          chunk_length := by rw [List.length_append, List.length_take]; omega,
          chunk_eq := rfl, covers := hcov.covers, lazy := hcov.lazy }
      rw [if_pos hpos, hsub]
      dsimp only
      rw [take_min_length, drop_min_length, hread, Result.ok_bind]
      by_cases hnil : input.drop (1024 - chunk.length) = []
      · rw [if_pos hnil]
        rw [List.drop_eq_nil_iff] at hnil
        rw [List.take_of_length_le hnil] at hnext ⊢
        exact ⟨_, rfl, n, whole, chunk ++ input, es, hnext, List.append_assoc _ _ _,
          fun _ => hmerged hpos, fun h => absurd (List.append_eq_nil_iff.mp h).2 hne⟩
      · have hrest : 1024 - chunk.length < input.length := by
          rw [List.drop_eq_nil_iff] at hnil
          omega
        obtain ⟨s', es', hpush, hcov'⟩ := pushChunk_eq hnext
          (by rw [List.length_append, List.length_take]; omega) (by omega)
        obtain ⟨s'', hrun, hreads⟩ := updateWholeChunks_eq simd schedule useTbb hcov' hnil
          (by rw [List.length_drop]; omega)
        refine ⟨s'', ?_, ?_⟩
        · rw [if_neg hnil]
          dsimp only at hpush ⊢
          rw [hpush, Result.ok_bind]
          exact hrun
        · rw [List.append_assoc, List.append_assoc, List.take_append_drop] at hreads
          rwa [List.append_assoc]
    · obtain rfl : chunk = [] := List.length_eq_zero_iff.mp (by omega)
      rw [if_neg hpos, List.append_nil]
      exact updateWholeChunks_eq simd schedule useTbb hcov hne (by omega)

/-! ### The output -/

theorem node_rollup (o : Output) (cvs : List CVBytes) :
    (cvs.foldl (fun output cv => parentOutput cv (output.chainingValue f) key flags) o).node =
      cvs.foldl (fun acc cv => parentOf key flags.toUInt32 cv (cvBytes f acc)) o.node := by
  induction cvs generalizing o with
  | nil => rfl
  | cons cv cvs ih =>
      rw [List.foldl_cons, ih, node_parentOutput, Output.chainingValue_eq]
      rfl

/-- The root of what has been read. -/
theorem finalOutput_eq {s : Hasher} {bytes : List Byte} (h : Reads f key flags s bytes) :
    ∃ o, finalOutput f s = .ok o ∧ o.node = rootNode f key flags.toUInt32 bytes := by
  obtain ⟨n, whole, chunk, es, hcov, rfl, hmerged, htwo⟩ := h
  have hkey := hcov.key_eq
  subst hkey
  have hspans := hcov.spans
  have hctr : (0 : UInt64) + UInt64.ofNat n = UInt64.ofNat n := UInt64.zero_add _
  have hchunk : (chunkStateOutput s.chunk).node =
      chunkNode f s.key flags.toUInt32 (UInt64.ofNat n) chunk := by
    rw [hcov.chunk_eq, chunkStateOutput, ChunkState.output_ofPending]
    rfl
  rw [finalOutput, hcov.count_eq, hcov.flags_eq, rootNode_eq_subtreeNode]
  by_cases hst : s.cvStack = []
  · -- the first chunk is the root
    rw [hst] at hspans
    obtain ⟨rfl, rfl⟩ := hspans.of_nil
    rw [if_pos hst, subtreeNode, treeNode_of_le _ _ _ _ (by simpa using hcov.chunk_length)]
    exact ⟨_, rfl, hchunk⟩
  · rw [if_neg hst]
    by_cases hpos : 0 < chunk.length
    · -- roll up the current chunk with every entry of the stack
      rw [if_pos hpos]
      refine ⟨_, rfl, ?_⟩
      rw [node_rollup, hchunk, ← hctr]
      exact hspans.rollup_chunk (hmerged hpos) hpos hcov.chunk_length
    · -- the top two entries make the first parent
      obtain rfl : chunk = [] := List.length_eq_zero_iff.mp (by omega)
      have htwo := htwo rfl hst
      rw [if_neg hpos, List.append_nil]
      rcases hstack : s.cvStack with _ | ⟨right, _ | ⟨left, cvs⟩⟩
      · rw [hstack] at htwo
        cases htwo
      · rw [hstack] at htwo
        exact absurd htwo (by simp)
      · rw [hstack] at hspans
        refine ⟨_, rfl, ?_⟩
        rw [node_rollup, node_parentOutput]
        exact hspans.rollup_pair

/-- Any piece of the output stream, from whatever position. -/
theorem outputRootBytes_eq (o : Output) (seek : UInt64) (outLen : ℕ) :
    outputRootBytes f o seek outLen = streamBytes f o.node seek.toNat outLen := by
  obtain ⟨p, hp, rfl⟩ : ∃ p, p < 2 ^ 64 ∧ seek = UInt64.ofNat p :=
    ⟨seek.toNat, seek.toNat_lt, UInt64.ofNat_toNat.symm⟩
  have hdiv : UInt64.ofNat p / 64 = UInt64.ofNat (p / 64) := by
    rw [← UInt64.toNat_inj, UInt64.toNat_div, toNat_ofNat64 hp, toNat_ofNat64 (by omega)]
    rfl
  have hmod : (UInt64.ofNat p % 64).toNat = p % 64 := by
    rw [UInt64.toNat_mod, toNat_ofNat64 hp]
    rfl
  -- what follows the first block starts at a block boundary
  have htail : ∀ k len,
      xofMany f o.inputChainingValue o.block o.blockLen (UInt64.ofNat k)
          (o.flags ||| ByteFlag.root) (len / 64) ++
        (if len % 64 = 0 then [] else (compressXof f o.inputChainingValue o.block o.blockLen
          (UInt64.ofNat k + UInt64.ofNat (len / 64)) (o.flags ||| ByteFlag.root)).toList.take
            (len % 64)) = streamBytes f o.node (64 * k) len := by
    intro k len
    rw [← Output.xofMany_append_last, UInt64.ofNat_add]
    congr 1
    split
    · next hzero => rw [hzero, List.take_zero]
    · rfl
  rw [toNat_ofNat64 hp, outputRootBytes, hdiv, hmod]
  by_cases hzero : outLen = 0
  · subst hzero
    rfl
  · rw [if_neg hzero]
    dsimp only
    by_cases hoff : p % 64 = 0
    · simp only [hoff, ↓reduceIte, Nat.sub_zero, List.nil_append]
      rw [htail, show 64 * (p / 64) = p by omega]
    · simp only [hoff, ↓reduceIte]
      rw [List.append_assoc, show UInt64.ofNat (p / 64) + 1 = UInt64.ofNat (p / 64 + 1) from
        (UInt64.ofNat_add _ 1).symm, htail, Output.take_drop_root f o (by omega)]
      rcases Nat.le_total outLen (64 - p % 64) with hle | hle
      · rw [Nat.min_eq_right hle, Nat.sub_self]
        simp [streamBytes]
      · rw [Nat.min_eq_left hle, show 64 * (p / 64 + 1) = p + (64 - p % 64) by omega,
          ← streamBytes_add, Nat.add_sub_cancel' hle]

theorem blake3HasherFinalizeSeek_eq {s : Hasher} {bytes : List Byte}
    (h : Reads f key flags s bytes) (seek : UInt64) (outLen : ℕ) :
    blake3HasherFinalizeSeek f s seek outLen =
      .ok (streamBytes f (rootNode f key flags.toUInt32 bytes) seek.toNat outLen) := by
  obtain ⟨o, hrun, hnode⟩ := finalOutput_eq h
  rw [blake3HasherFinalizeSeek]
  by_cases hzero : outLen = 0
  · subst hzero
    rfl
  · rw [if_neg hzero, hrun, Result.ok_bind, outputRootBytes_eq, hnode]
    rfl

end Blake3.C
