import Blake3.Lib.CarryStack
import Blake3.Reference
import Blake3.Tree

/-!
The reference implementation computes the tree. The tree is taken over
chaining values that carry the compressions made below them, so that one
argument gives both the root node and the record of everything evaluated on
the way to it. An update goes wrong only when the stack is full, which takes
more than `2 ^ 64` bytes.
-/

namespace Blake3

open LeftTree CarryStack

/-! ### Values with the compressions below them -/

abbrev TracedCv := CVWords × List CompressInput
abbrev TracedNode := CompressInput × List CompressInput

section Traced

variable (f : Compress) (key : CVWords) (flags : Word)

def tracedCvOf (o : TracedNode) : TracedCv := (cvOf f o.1, o.1 :: o.2)

def tracedJoin (left right : TracedCv) : TracedNode :=
  (parentNode key flags left.1 right.1, left.2 ++ right.2)

abbrev tracedParent (left right : TracedCv) : TracedCv :=
  tracedCvOf f (tracedJoin key flags left right)

def tracedChunk (ctr : UInt64) (bytes : List Byte) : TracedNode :=
  (chunkNode f key flags ctr bytes,
    ((Pending.empty key).extend bytes).absorbInputs f ctr flags)

def tracedChunks (ctr : UInt64) (bytes : List Byte) : List TracedCv :=
  chunkMap (fun c b => tracedCvOf f (tracedChunk f key flags c b)) ctr bytes

/-- The top node over the chunks numbered from `ctr` with the compressions
below it. -/
def tracedTree (ctr : UInt64) (bytes : List Byte) : TracedNode :=
  treeNode (tracedChunk f key flags) (tracedJoin key flags) (tracedCvOf f) ctr bytes

/-- The root node of a message with the compressions below it. -/
def tracedRoot (bytes : List Byte) : TracedNode := tracedTree f key flags 0 bytes

theorem map_fst_tracedChunks (ctr : UInt64) (bytes : List Byte) :
    (tracedChunks f key flags ctr bytes).map Prod.fst = chunkCvs f key flags ctr bytes :=
  map_chunkMap _ _ ctr bytes

theorem fst_tracedRoot (bytes : List Byte) :
    (tracedRoot f key flags bytes).1 = rootNode f key flags bytes := by
  rcases Nat.lt_or_ge 1024 bytes.length with hlong | hshort
  · rw [rootNode, if_neg (by omega), ← map_fst_tracedChunks,
      top_map (tracedParent f key flags) (fun _ _ => rfl), tracedRoot, tracedTree,
      treeNode_of_lt _ _ _ _ hlong]
    · rfl
    · rw [tracedChunks, length_chunkMap]
      omega
  · rw [rootNode, if_pos hshort, tracedRoot, tracedTree, treeNode_of_le _ _ _ _ hshort]
    rfl

end Traced

namespace Reference

variable {f : Compress} {key : CVWords} {flags : Word}

/-! ### Runs -/

theorem run_bind_ok {α β : Type} {x : Traced α} {g : α → Traced β} {L L' : List CompressInput}
    {a : α} (h : x.run L = .ok (a, L')) : (x >>= g).run L = (g a).run L' := by
  rw [StateT.run_bind, h]
  rfl

theorem run_bind_error {α β : Type} {x : Traced α} {g : α → Traced β} {L : List CompressInput}
    {e : Fault} (h : x.run L = .error e) : (x >>= g).run L = .error e := by
  rw [StateT.run_bind, h]
  rfl

theorem run_compressTraced (x : CompressInput) (L : List CompressInput) :
    (compressTraced f x).run L = .ok (f x, x :: L) := rfl

theorem run_chainingValue (o : Output) (L : List CompressInput) :
    (o.chainingValue f).run L = .ok (cvOf f o, o :: L) := rfl

theorem addU8_of_lt {a b : ℕ} (h : a + b < 256) : addU8 a b = pure (a + b) := if_pos h

/-! ### Chunk state -/

/-- The chunk state in which a chunk has been read as far as `p`. -/
def ChunkState.ofPending (ctr : UInt64) (flags : Word) (p : Pending) : ChunkState :=
  { chainingValue := p.cv, chunkCounter := ctr, block := blockOfBytes p.rest,
    blockLen := p.rest.length, blocksCompressed := p.blocks, flags := flags }

namespace ChunkState

variable {ctr : UInt64}

theorem new_eq_ofPending :
    ChunkState.new key ctr flags = ofPending ctr flags (Pending.empty key) := by
  simp [new, ofPending, Pending.empty]

@[simp] theorem len_ofPending (p : Pending) :
    (ofPending ctr flags p).len = 64 * p.blocks + p.rest.length := rfl

theorem compressFullBlock_of_lt {p : Pending} (h : p.rest.length < 64) :
    compressFullBlock f (ofPending ctr flags p) = pure (ofPending ctr flags p) :=
  if_neg (by simp only [ofPending]; omega)

variable (f flags ctr) in
theorem run_compressFullBlock {p : Pending} (h : p.rest.length = 64) (hb : p.blocks < 255)
    (L : List CompressInput) :
    (compressFullBlock f (ofPending ctr flags p)).run L =
      .ok (ofPending ctr flags (p.step f ctr flags), p.blockInput ctr flags :: L) := by
  have hdrop : p.rest.drop 64 = [] := List.drop_eq_nil_of_le h.le
  rw [compressFullBlock, if_pos (show (ofPending ctr flags p).blockLen = 64 from h),
    run_bind_ok (run_compressTraced _ _), addU8_of_lt (by simp only [ofPending]; omega)]
  simp only [Pending.step, hdrop, ofPending, blockOfBytes_nil]
  rfl

/-- Copying input behind a block that is not full reads on. -/
theorem update_fill {p : Pending} {input : List Byte} (hne : input ≠ [])
    (h : p.rest.length < 64) :
    update f (ofPending ctr flags p) input =
      update f (ofPending ctr flags (p.extend (input.take (64 - p.rest.length))))
        (input.drop (64 - p.rest.length)) := by
  rw [update, if_neg hne, compressFullBlock_of_lt h, pure_bind, if_pos (by exact h)]
  dsimp only
  rw [addU8_of_lt (by simp only [ofPending]; omega), pure_bind]
  simp only [ofPending, take_min_length, drop_min_length, writeAt_blockOfBytes, Pending.extend,
    List.length_append, List.length_take]

variable (f flags ctr) in
/-- A chunk state reads input up to the size of a chunk. -/
theorem run_update {p : Pending} {input : List Byte} (hrest : p.rest.length ≤ 64)
    (hlen : 64 * p.blocks + p.rest.length + input.length ≤ 1024) (L : List CompressInput) :
    (update f (ofPending ctr flags p) input).run L =
      .ok (ofPending ctr flags ((p.extend input).absorb f ctr flags),
        ((p.extend input).absorbInputs f ctr flags).reverse ++ L) := by
  induction hn : input.length using Nat.strong_induction_on generalizing p input L with
  | _ n ih =>
    by_cases hne : input = []
    · subst hne
      rw [update, if_pos rfl, Pending.extend_nil, Pending.absorb_of_le hrest,
        Pending.absorbInputs_of_le hrest]
      rfl
    · have hpos : 0 < input.length := List.length_pos_iff.mpr hne
      -- a block with space left takes more input, and the rest is read by induction
      have hfill : ∀ (q : Pending) (L : List CompressInput), q.rest.length < 64 →
          64 * q.blocks + q.rest.length + input.length ≤ 1024 →
          (update f (ofPending ctr flags q) input).run L =
            .ok (ofPending ctr flags ((q.extend input).absorb f ctr flags),
              ((q.extend input).absorbInputs f ctr flags).reverse ++ L) := by
        intro q L hq hqlen
        rw [update_fill hne hq,
          ih (input.drop (64 - q.rest.length)).length (by rw [List.length_drop]; omega)
            (by simp only [Pending.extend_rest, List.length_append, List.length_take]; omega)
            (by simp only [Pending.extend_blocks, Pending.extend_rest, List.length_append,
                  List.length_take, List.length_drop]; omega) L rfl,
          ← Pending.extend_append, List.take_append_drop]
      rcases Nat.lt_or_eq_of_le hrest with hlt | hfull
      · exact hfill p L hlt hlen
      · have hstep (L : List CompressInput) :=
          run_compressFullBlock f flags ctr hfull (by omega) L
        have hlong : 64 < (p.extend input).rest.length := by
          rw [Pending.extend_rest, List.length_append]
          omega
        have hrest0 : (p.step f ctr flags).rest.length = 0 := by
          simp only [Pending.step, List.length_drop]
          omega
        have hnext : (update f (ofPending ctr flags p) input).run L =
            (update f (ofPending ctr flags (p.step f ctr flags)) input).run
              (p.blockInput ctr flags :: L) := by
          rw [update, if_neg hne, run_bind_ok (hstep L)]
          conv_rhs => rw [update, if_neg hne, compressFullBlock_of_lt (by omega), pure_bind]
        rw [hnext, hfill _ _ (by omega) (by rw [hrest0]; simp only [Pending.step]; omega),
          Pending.absorb_of_lt hlong, Pending.absorbInputs_of_lt hlong,
          Pending.step_extend (by omega)]
        simp [Pending.blockInput, blockOfBytes_append hfull.ge]

end ChunkState

/-! ### The stack -/

theorem and_one_eq_zero (m : UInt64) : m &&& 1 = 0 ↔ m.toNat % 2 = 0 := by
  rw [← UInt64.toNat_inj, UInt64.toNat_and]
  exact ⟨fun h => by rwa [← Nat.and_one_is_mod], fun h => by rwa [← Nat.and_one_is_mod] at h⟩

theorem toNat_shiftRight_one (m : UInt64) : (m >>> 1).toNat = m.toNat / 2 := by
  rw [UInt64.toNat_shiftRight]
  exact Nat.shiftRight_eq_div_pow _ 1

/-- A merged stack over the leaves `xs`, all compressions below it on record. -/
structure RecordedStack (f : Compress) (key : CVWords) (flags : Word) (st : List TracedCv)
    (es : List ℕ) (xs : List TracedCv) (L : List CompressInput) : Prop where
  covers : Covers (tracedParent f key flags) st es xs
  merged : Merged es
  recorded : ∀ t ∈ st, t.2 ⊆ L

/-- A push ends with the leaves `xs` on the stack, or it fails because they
need more entries than there are. -/
def PushOutcome (f : Compress) (key : CVWords) (flags : Word) (s : Hasher) (xs : List TracedCv)
    (r : Result (Hasher × List CompressInput)) : Prop :=
  ((∃ e, r = .error e) ∧ 54 < popcount xs.length) ∨
    ∃ st es L, r = .ok ({ s with cvStack := st.map Prod.fst }, L) ∧
      RecordedStack f key flags st es xs L ∧ st.length ≤ 54

theorem run_pushStack {s : Hasher} {v : TracedCv} {st : List TracedCv} {es : List ℕ}
    {xs : List TracedCv} {L : List CompressInput}
    (h : RecordedStack f key flags (v :: st) es xs L) :
    PushOutcome f key flags s xs
      ((Hasher.pushStack { s with cvStack := st.map Prod.fst } v.1).run L) := by
  have hcount := h.covers.length_of_merged h.merged
  rw [List.length_cons] at hcount
  unfold Hasher.pushStack
  by_cases hlt : (st.map Prod.fst).length < 54
  · rw [if_pos hlt]
    rw [List.length_map] at hlt
    exact .inr ⟨v :: st, es, L, rfl, h, by rw [List.length_cons]; omega⟩
  · rw [if_neg hlt]
    rw [List.length_map] at hlt
    exact .inl ⟨⟨_, rfl⟩, by omega⟩

/-- Everything below a parent is on record when everything below its children is. -/
theorem tracedParent_subset {a b : TracedCv} {L : List CompressInput} (ha : a.2 ⊆ L)
    (hb : b.2 ⊆ L) :
    (tracedParent f key flags a b).2 ⊆ parentNode key flags a.1 b.1 :: L :=
  List.cons_subset_cons _ (List.append_subset.mpr ⟨ha, hb⟩)

theorem parentOutput_eq (left right : CVWords) :
    parentOutput left right key flags = parentNode key flags left right := by
  rw [parentOutput, parentNode, UInt32.or_comm]

theorem run_parentCv (left right : CVWords) (L : List CompressInput) :
    (parentCv f left right key flags).run L =
      .ok (Blake3.parentCv f key flags left right, parentNode key flags left right :: L) := by
  rw [parentCv, parentOutput_eq, run_chainingValue]
  rfl

/-- With an odd total the new block becomes an entry of its own. -/
theorem run_pushStack_of_odd {s : Hasher} {st : List TracedCv} {es : List ℕ}
    {xs ys : List TracedCv} {i : ℕ} {total : UInt64} {L : List CompressInput}
    (h : RecordedStack f key flags st es xs L) (hi : ∀ e ∈ es, i ≤ e) (hys : ys.length = 2 ^ i)
    (htotal : weight es + 2 ^ i = total.toNat * 2 ^ i) (hodd : ¬total &&& 1 = 0)
    (hrec : (fold (tracedParent f key flags) ys).2 ⊆ L) :
    PushOutcome f key flags s (xs ++ ys)
      ((Hasher.pushStack { s with cvStack := st.map Prod.fst }
        (fold (tracedParent f key flags) ys).1).run L) := by
  rw [and_one_eq_zero] at hodd
  refine run_pushStack ⟨.push h.covers hys, ?_, ?_⟩
  · exact h.merged.carry_odd (m := total.toNat / 2) hi (by rw [htotal]; congr 1; omega)
  · intro t ht
    rcases List.mem_cons.mp ht with rfl | ht
    · exact hrec
    · exact h.recorded t ht

/-- Pushing the value of the next complete block merges it as often as the
new total has trailing zero bits. -/
theorem run_addChunkChainingValueLoop {s : Hasher} (hkey : s.keyWords = key)
    (hflags : s.flags = flags) {st : List TracedCv} {es : List ℕ} {xs : List TracedCv}
    (hcov : Covers (tracedParent f key flags) st es xs) :
    ∀ (ys : List TracedCv) (i : ℕ) (total : UInt64) (L : List CompressInput), Merged es →
      (∀ t ∈ st, t.2 ⊆ L) → (∀ e ∈ es, i ≤ e) → ys.length = 2 ^ i → 0 < total.toNat →
      weight es + 2 ^ i = total.toNat * 2 ^ i → (fold (tracedParent f key flags) ys).2 ⊆ L →
      PushOutcome f key flags s (xs ++ ys)
        ((Hasher.addChunkChainingValueLoop f s (fold (tracedParent f key flags) ys).1 total
          (st.map Prod.fst)).run L) := by
  induction hcov with
  | nil =>
      intro ys i total L hm hrecst hi hys hpos htotal hrec
      have hodd : ¬total &&& 1 = 0 := by
        rw [weight_nil, Nat.zero_add] at htotal
        have hone : total.toNat = 1 :=
          Nat.eq_of_mul_eq_mul_right (Nat.two_pow_pos i) (by rw [← htotal, Nat.one_mul])
        rw [and_one_eq_zero]
        omega
      rw [List.map_nil, Hasher.addChunkChainingValueLoop, if_neg hodd]
      exact run_pushStack_of_odd ⟨.nil, hm, hrecst⟩ hi hys htotal hodd hrec
  | @push st es xs zs e hbelow hlen ih =>
      intro ys i total L hm hrecst hi hys hpos htotal hrec
      rw [List.map_cons, Hasher.addChunkChainingValueLoop]
      by_cases heven : total &&& 1 = 0
      · -- the top entry is of the size of the new block
        have hmt : total.toNat = 2 * (total >>> 1).toNat := by
          rw [and_one_eq_zero] at heven
          rw [toNat_shiftRight_one]
          omega
        obtain ⟨es', heq, hes'⟩ := hm.carry_even hi (hmt ▸ htotal) (by omega)
        obtain ⟨rfl, rfl⟩ := List.cons.inj heq
        have hfold := fold_append (tracedParent f key flags) hlen
          (hys ▸ Nat.two_pow_pos e) hys.le
        rw [if_pos heven, hkey, hflags, run_bind_ok (run_parentCv _ _ L), List.append_assoc]
        have hnext := ih (zs ++ ys) (e + 1) (total >>> 1)
          (parentNode key flags (fold (tracedParent f key flags) zs).1
            (fold (tracedParent f key flags) ys).1 :: L)
          (List.pairwise_cons.mp hm).2
          (fun t ht => List.subset_cons_of_subset _ (hrecst t (List.mem_cons_of_mem _ ht))) hes'
          (by rw [List.length_append, hlen, hys, Nat.pow_succ]; omega) (by omega)
          (by rw [weight_cons, hmt] at htotal; rw [Nat.pow_succ]; linarith)
          (by rw [hfold]; exact tracedParent_subset (hrecst _ List.mem_cons_self) hrec)
        rw [hfold] at hnext
        exact hnext
      · rw [if_neg heven]
        exact run_pushStack_of_odd ⟨.push hbelow hlen, hm, hrecst⟩ hi hys htotal heven hrec

/-! ### The hasher -/

/-- The hasher has read `bytes`, with everything compressed on record: whole
chunks are on the stack and a last chunk, of which at least one byte has been
read unless it is the first, is in the chunk state. -/
structure Covered (f : Compress) (key : CVWords) (flags : Word) (s : Hasher) (n : ℕ)
    (whole chunk : List Byte) (st : List TracedCv) (es : List ℕ) (L : List CompressInput) :
    Prop where
  keyWords_eq : s.keyWords = key
  flags_eq : s.flags = flags
  whole_length : whole.length = 1024 * n
  chunk_length : chunk.length ≤ 1024
  count_lt : n < 2 ^ 55 - 1
  chunkState : s.chunkState =
    .ofPending (UInt64.ofNat n) flags (pendingOf f key flags (UInt64.ofNat n) chunk)
  cvStack : s.cvStack = st.map Prod.fst
  stack : RecordedStack f key flags st es (tracedChunks f key flags 0 whole) L
  recorded_chunk : (tracedChunk f key flags (UInt64.ofNat n) chunk).2 ⊆ L

def Reads (f : Compress) (key : CVWords) (flags : Word) (s : Hasher) (bytes : List Byte)
    (L : List CompressInput) : Prop :=
  ∃ n whole chunk st es, Covered f key flags s n whole chunk st es L ∧ bytes = whole ++ chunk ∧
    (0 < n → 0 < chunk.length)

/-- A chunk of which nothing has been read. -/
theorem new_eq_pendingOf (ctr : UInt64) :
    ChunkState.new key ctr flags = .ofPending ctr flags (pendingOf f key flags ctr []) := by
  rw [pendingOf_nil, ChunkState.new_eq_ofPending]

theorem tracedChunk_nil (ctr : UInt64) : (tracedChunk f key flags ctr []).2 = [] := by
  rw [tracedChunk, Pending.extend_nil, Pending.absorbInputs_of_le (by simp [Pending.empty])]

variable (f key flags) in
theorem reads_newInternal (L : List CompressInput) :
    Reads f key flags (Hasher.newInternal key flags) [] L :=
  ⟨0, [], [], [], [],
    { keyWords_eq := rfl, flags_eq := rfl, whole_length := rfl, chunk_length := by simp,
      count_lt := by norm_num, chunkState := new_eq_pendingOf 0, cvStack := rfl,
      stack := ⟨by rw [tracedChunks, chunkMap_nil]; exact .nil, .nil, by simp⟩,
      recorded_chunk := by rw [tracedChunk_nil]; exact List.nil_subset _ },
    rfl, by simp⟩

theorem Covered.len_eq {s : Hasher} {n : ℕ} {whole chunk : List Byte} {st : List TracedCv}
    {es : List ℕ} {L : List CompressInput} (h : Covered f key flags s n whole chunk st es L) :
    s.chunkState.len = chunk.length := by
  rw [h.chunkState, ChunkState.len_ofPending, length_pendingOf]

variable (f key flags) in
theorem tracedChunks_append {n : ℕ} {whole chunk : List Byte} (hw : whole.length = 1024 * n)
    (hpos : 0 < chunk.length) (hle : chunk.length ≤ 1024) :
    tracedChunks f key flags 0 (whole ++ chunk) =
      tracedChunks f key flags 0 whole ++
        [tracedCvOf f (tracedChunk f key flags (UInt64.ofNat n) chunk)] := by
  rw [tracedChunks, chunkMap_append _ _ hw, chunkMap_of_le _ hpos hle, UInt64.zero_add]
  rfl

theorem addU64_one {n : ℕ} (hn : n + 1 < 2 ^ 64) :
    addU64 (UInt64.ofNat n) 1 = pure (UInt64.ofNat (n + 1)) := by
  have h : (UInt64.ofNat n).toNat = n := toNat_ofNat64 (by omega)
  rw [addU64, if_pos (by rw [h]; exact hn), UInt64.ofNat_add]
  rfl

/-- A complete chunk goes onto the stack, unless the stack is too small. -/
theorem run_finishChunk {s : Hasher} {n : ℕ} {whole chunk : List Byte} {st : List TracedCv}
    {es : List ℕ} {L : List CompressInput} (h : Covered f key flags s n whole chunk st es L)
    (hfull : chunk.length = 1024) :
    ((∃ e, (s.finishChunk f).run L = .error e) ∧ 54 < popcount (n + 1)) ∨
      ∃ s' st' es' L', (s.finishChunk f).run L = .ok (s', L') ∧
        Covered f key flags s' (n + 1) (whole ++ chunk) [] st' es' L' := by
  have hcount := h.count_lt
  have hsplit := tracedChunks_append f key flags h.whole_length
    (by omega) hfull.le
  have hleaves : (tracedChunks f key flags 0 (whole ++ chunk)).length = n + 1 := by
    rw [tracedChunks, length_chunkMap, List.length_append, h.whole_length, hfull]
    omega
  have hweight : weight es = n := by
    rw [← h.stack.covers.length_leaves, tracedChunks, length_chunkMap, h.whole_length]
    omega
  have htoNat : (UInt64.ofNat (n + 1)).toNat = n + 1 := toNat_ofNat64 (by omega)
  have hnode : s.chunkState.output = chunkNode f key flags (UInt64.ofNat n) chunk := by
    rw [h.chunkState]
    rfl
  have hctr : s.chunkState.chunkCounter = UInt64.ofNat n := by
    rw [h.chunkState]
    rfl
  -- the chunk is pushed with as many merges as its number has trailing zeros
  have hpush := run_addChunkChainingValueLoop h.keyWords_eq h.flags_eq h.stack.covers
    [tracedCvOf f (tracedChunk f key flags (UInt64.ofNat n) chunk)] 0 (UInt64.ofNat (n + 1))
    (chunkNode f key flags (UInt64.ofNat n) chunk :: L) h.stack.merged
    (fun t ht => List.subset_cons_of_subset _ (h.stack.recorded t ht)) (by simp) (by simp)
    (by omega) (by rw [hweight, htoNat]; omega)
    (by rw [fold_singleton]; exact List.cons_subset_cons _ h.recorded_chunk)
  rw [← hsplit, fold_singleton, ← h.cvStack] at hpush
  have hrun : (s.finishChunk f).run L =
      ((s.addChunkChainingValue f (chunkCv f key flags (UInt64.ofNat n) chunk)
        (UInt64.ofNat (n + 1)) >>= fun t => pure
          { t with chunkState := .new t.keyWords (UInt64.ofNat (n + 1)) t.flags }).run
        (chunkNode f key flags (UInt64.ofNat n) chunk :: L)) := by
    rw [Hasher.finishChunk, if_pos (by rw [h.len_eq, hfull]), hnode, hctr,
      run_bind_ok (run_chainingValue _ _), addU64_one (by omega), pure_bind]
    rfl
  rw [hrun]
  rcases hpush with ⟨⟨e, herr⟩, hpop⟩ | ⟨st', es', L', hok, hstack, hle⟩
  · exact .inl ⟨⟨e, run_bind_error herr⟩, hleaves ▸ hpop⟩
  · right
    refine ⟨_, st', es', L', run_bind_ok hok, ?_⟩
    have hpop := hstack.covers.length_of_merged hstack.merged
    rw [hleaves] at hpop
    -- 2 ^ 55 - 1 chunks would fill 55 entries, one more than there are
    have hlt : n + 1 ≠ 2 ^ 55 - 1 := by
      intro heq
      rw [heq, popcount_two_pow_sub_one] at hpop
      omega
    exact
      { keyWords_eq := h.keyWords_eq, flags_eq := h.flags_eq,
        whole_length := by rw [List.length_append, h.whole_length, hfull]; ring,
        chunk_length := by simp, count_lt := by omega,
        chunkState := by
          dsimp only
          rw [h.keyWords_eq, h.flags_eq]
          exact new_eq_pendingOf _
        cvStack := rfl, stack := hstack,
        recorded_chunk := by rw [tracedChunk_nil]; exact List.nil_subset _ }

/-- Input that fits goes into the chunk state. -/
theorem run_readChunk {s : Hasher} {n : ℕ} {whole chunk : List Byte} {st : List TracedCv}
    {es : List ℕ} {L : List CompressInput} (h : Covered f key flags s n whole chunk st es L)
    (piece : List Byte) (hle : chunk.length + piece.length ≤ 1024) :
    ∃ chunkState L', (s.chunkState.update f piece).run L = .ok (chunkState, L') ∧
      Covered f key flags { s with chunkState := chunkState } n whole
        (chunk ++ piece) st es L' := by
  have hlen := length_pendingOf f key flags (UInt64.ofNat n) chunk
  have hrun := ChunkState.run_update f flags (UInt64.ofNat n)
    (length_rest_pendingOf f key flags (UInt64.ofNat n) chunk) (by rw [hlen]; exact hle) L
  rw [pendingOf_append, ← h.chunkState] at hrun
  refine ⟨_, _, hrun, ?_⟩
  have hinputs : (tracedChunk f key flags (UInt64.ofNat n) (chunk ++ piece)).2 =
      (tracedChunk f key flags (UInt64.ofNat n) chunk).2 ++
        ((pendingOf f key flags (UInt64.ofNat n) chunk).extend piece).absorbInputs f
          (UInt64.ofNat n) flags := by
    rw [tracedChunk, Pending.extend_append, Pending.absorbInputs_extend]
    rfl
  exact
    { keyWords_eq := h.keyWords_eq, flags_eq := h.flags_eq, whole_length := h.whole_length,
      chunk_length := by rw [List.length_append]; exact hle, count_lt := h.count_lt,
      chunkState := rfl, cvStack := h.cvStack,
      stack := ⟨h.stack.covers, h.stack.merged,
        fun t ht => List.subset_append_of_subset_right _ (h.stack.recorded t ht)⟩,
      recorded_chunk := by
        rw [hinputs]
        refine List.append_subset.mpr ⟨?_, ?_⟩
        · exact List.subset_append_of_subset_right _ h.recorded_chunk
        · exact List.subset_append_of_subset_left _ (List.subset_def.mpr (by simp)) }

/-- One turn of the loop of `update`: finish a full chunk and fill the next. -/
theorem update_step {s s' : Hasher} {input : List Byte} {L L' : List CompressInput}
    (hne : input ≠ []) (hfin : (s.finishChunk f).run L = .ok (s', L')) {n : ℕ}
    {whole chunk : List Byte} {st : List TracedCv} {es : List ℕ}
    (h : Covered f key flags s' n whole chunk st es L') (hlt : chunk.length < 1024) :
    ∃ s'' L'', (s.update f input).run L =
        (s''.update f (input.drop (1024 - chunk.length))).run L'' ∧
      Covered f key flags s'' n whole (chunk ++ input.take (1024 - chunk.length)) st es L'' := by
  obtain ⟨chunkState, L'', hrun, hcov⟩ := run_readChunk h (input.take (1024 - chunk.length))
    (by rw [List.length_take]; omega)
  refine ⟨_, L'', ?_, hcov⟩
  rw [Hasher.update, if_neg hne, run_bind_ok hfin, if_pos (by rw [h.len_eq]; exact hlt)]
  dsimp only
  rw [h.len_eq, take_min_length, drop_min_length, run_bind_ok hrun]

/-- An update reads its input, unless the message is too long for the stack. -/
theorem run_update {s : Hasher} {bytes : List Byte} {L : List CompressInput}
    (h : Reads f key flags s bytes L) (input : List Byte) :
    ((∃ e, (s.update f input).run L = .error e) ∧ 2 ^ 64 < (bytes ++ input).length) ∨
      ∃ s' L', (s.update f input).run L = .ok (s', L') ∧
        Reads f key flags s' (bytes ++ input) L' := by
  induction hn : input.length using Nat.strong_induction_on generalizing s bytes input L with
  | _ m ih =>
    by_cases hne : input = []
    · subst hne
      right
      refine ⟨s, L, ?_, by rwa [List.append_nil]⟩
      rw [Hasher.update, if_pos rfl]
      rfl
    · have hpos : 0 < input.length := List.length_pos_iff.mpr hne
      -- once the chunk has room, it is filled and the rest is read by induction
      have hroom : ∀ {s' : Hasher} {L' : List CompressInput} {n : ℕ} {whole chunk : List Byte}
          {st : List TracedCv} {es : List ℕ}, (s.finishChunk f).run L = .ok (s', L') →
          Covered f key flags s' n whole chunk st es L' → chunk.length < 1024 →
          bytes = whole ++ chunk →
          ((∃ e, (s.update f input).run L = .error e) ∧ 2 ^ 64 < (bytes ++ input).length) ∨
            ∃ s' L', (s.update f input).run L = .ok (s', L') ∧
              Reads f key flags s' (bytes ++ input) L' := by
        intro s' L' n whole chunk st es hfin hcov hlt hsplit
        obtain ⟨s'', L'', hrun, hcov'⟩ := update_step hne hfin hcov hlt
        have hbytes : bytes ++ input = whole ++ (chunk ++ input.take (1024 - chunk.length)) ++
            input.drop (1024 - chunk.length) := by
          rw [hsplit, List.append_assoc, List.append_assoc, List.append_assoc,
            List.take_append_drop]
        rw [hrun, hbytes]
        refine ih _ (by rw [List.length_drop]; omega) ⟨n, whole, _, st, es, hcov', rfl, ?_⟩ _ rfl
        intro _
        rw [List.length_append, List.length_take]
        omega
      obtain ⟨n, whole, chunk, st, es, hcov, hsplit, -⟩ := h
      rcases Nat.lt_or_eq_of_le hcov.chunk_length with hlt | hfull
      · have hfin : (s.finishChunk f).run L = .ok (s, L) := by
          rw [Hasher.finishChunk, if_neg (by rw [hcov.len_eq]; omega)]
          rfl
        exact hroom hfin hcov hlt hsplit
      · rcases run_finishChunk hcov hfull with ⟨⟨e, herr⟩, hpop⟩ | ⟨s', st', es', L', hok, hcov'⟩
        · left
          refine ⟨⟨e, ?_⟩, ?_⟩
          · rw [Hasher.update, if_neg hne, run_bind_error herr]
          · have hbig : 2 ^ 54 ≤ n + 1 := by
              by_contra hlt
              have := popcount_le_of_lt (n := n + 1) (k := 54) (by omega)
              omega
            rw [hsplit, List.length_append, List.length_append, hcov.whole_length, hfull]
            omega
        · exact hroom hok hcov' (by simp) (by rw [hsplit, List.append_nil])

/-! ### The root -/

variable (f key flags) in
/-- Rolling up the right edge, with everything compressed on record. -/
theorem run_rollup (st : List TracedCv) (o : TracedNode) (L : List CompressInput)
    (ho : o.2 ⊆ L) (hst : ∀ t ∈ st, t.2 ⊆ L) :
    ∃ L', ((st.map Prod.fst).foldlM (fun output cv => do
        let right ← Output.chainingValue f output
        return parentOutput cv right key flags) o.1 : Traced Output).run L =
        .ok ((st.foldl (fun acc v => tracedJoin key flags v (tracedCvOf f acc)) o).1, L') ∧
      (st.foldl (fun acc v => tracedJoin key flags v (tracedCvOf f acc)) o).2 ⊆ L' := by
  induction st generalizing o L with
  | nil => exact ⟨L, rfl, ho⟩
  | cons t st ih =>
      have hnext : (tracedJoin key flags t (tracedCvOf f o)).2 ⊆ o.1 :: L :=
        List.append_subset.mpr ⟨List.subset_cons_of_subset _ (hst t List.mem_cons_self),
          List.cons_subset_cons _ ho⟩
      obtain ⟨L', hrun, hsub⟩ := ih (tracedJoin key flags t (tracedCvOf f o)) (o.1 :: L) hnext
        fun v hv => List.subset_cons_of_subset _ (hst v (List.mem_cons_of_mem _ hv))
      have hjoin : (do
          let right ← Output.chainingValue f o.1
          return parentOutput t.1 right key flags : Traced Output).run L =
            .ok ((tracedJoin key flags t (tracedCvOf f o)).1, o.1 :: L) := by
        rw [run_bind_ok (run_chainingValue _ _), parentOutput_eq]
        rfl
      refine ⟨L', ?_, hsub⟩
      rw [List.map_cons, List.foldlM_cons, run_bind_ok hjoin, hrun]
      rfl

/-- The root of what has been read. -/
theorem run_rootOutput {s : Hasher} {bytes : List Byte} {L : List CompressInput}
    (h : Reads f key flags s bytes L) :
    ∃ L', (s.rootOutput f).run L = .ok (rootNode f key flags bytes, L') ∧
      (tracedRoot f key flags bytes).2 ⊆ L' := by
  obtain ⟨n, whole, chunk, st, es, h, rfl, hchunk⟩ := h
  obtain ⟨L', hrun, hsub⟩ := run_rollup f key flags st
    (tracedChunk f key flags (UInt64.ofNat n) chunk) L h.recorded_chunk h.stack.recorded
  have hroll : (s.rootOutput f).run L = .ok ((st.foldl (fun acc v =>
      tracedJoin key flags v (tracedCvOf f acc))
      (tracedChunk f key flags (UInt64.ofNat n) chunk)).1, L') := by
    rw [Hasher.rootOutput, h.cvStack, h.chunkState, h.keyWords_eq, h.flags_eq]
    exact hrun
  have hroot : st.foldl (fun acc v => tracedJoin key flags v (tracedCvOf f acc))
      (tracedChunk f key flags (UInt64.ofNat n) chunk) =
        tracedRoot f key flags (whole ++ chunk) := by
    have hwhole := h.whole_length
    rcases Nat.eq_zero_or_pos n with rfl | hn
    · -- the first chunk is the root, and the stack is empty
      obtain rfl : whole = [] := List.length_eq_zero_iff.mp (by omega)
      have hweight := h.stack.covers.length_leaves
      have hst := h.stack.covers.length_of_merged h.stack.merged
      rw [tracedChunks, chunkMap_nil, List.length_nil, popcount_zero] at hst
      obtain rfl : st = [] := List.length_eq_zero_iff.mp hst
      rw [tracedRoot, tracedTree, treeNode_of_le _ _ _ _ (by simpa using h.chunk_length)]
      rfl
    · have hleaf : RootOf (tracedJoin key flags) (tracedCvOf f)
          (tracedChunk f key flags (UInt64.ofNat n) chunk)
          [tracedCvOf f (tracedChunk f key flags (UInt64.ofNat n) chunk)] :=
        ⟨(fold_singleton _ _).symm, fun hlen => absurd hlen (by simp)⟩
      have hall := h.stack.covers.rootOf h.stack.merged hleaf (by simp)
        fun e _ => Nat.two_pow_pos e
      rw [← tracedChunks_append f key flags hwhole (hchunk hn) h.chunk_length] at hall
      have hlong : 1024 < (whole ++ chunk).length := by
        rw [List.length_append, hwhole]
        have := hchunk hn
        omega
      rw [hall.node (by rw [tracedChunks, length_chunkMap]; omega), tracedRoot, tracedTree,
        treeNode_of_lt _ _ _ _ hlong]
      rfl
  rw [hroot] at hroll hsub
  exact ⟨L', by rw [hroll, fst_tracedRoot], hsub⟩

/-- The root output bytes are a piece of the output stream. -/
theorem run_rootOutputBytes (o : Output) (k outLen : ℕ) (L : List CompressInput) :
    ∃ L', (o.rootOutputBytes f (UInt64.ofNat k) outLen).run L =
        .ok (streamBytes f o (64 * k) outLen, L') ∧ L ⊆ L' ∧
      (0 < outLen → { o with counter := UInt64.ofNat k, flags := o.flags ||| Flag.root } ∈ L') := by
  induction hn : outLen using Nat.strong_induction_on generalizing k L outLen with
  | _ m ih =>
    subst hn
    by_cases hzero : outLen = 0
    · subst hzero
      exact ⟨L, by rw [Output.rootOutputBytes, if_pos rfl]; rfl, List.Subset.refl L, by simp⟩
    · obtain ⟨L', hrun, hsub, -⟩ := ih (outLen - 64) (by omega) (k + 1) (outLen - 64)
        ({ o with counter := UInt64.ofNat k, flags := o.flags ||| Flag.root } :: L) rfl
      have hblock : streamBytes f o (64 * k) (min outLen 64) =
          (leBytesFromWords64 (f { o with
            counter := UInt64.ofNat k, flags := o.flags ||| Flag.root })).toList.take outLen := by
        rw [streamBytes_block _ _ (by omega), Nat.mul_mod_right,
          Nat.mul_div_cancel_left _ (by omega), List.drop_zero, outputBlock, List.take_eq_take_iff]
        simp
      have hsplit : streamBytes f o (64 * k) outLen =
          streamBytes f o (64 * k) (min outLen 64) ++
            streamBytes f o (64 * (k + 1)) (outLen - 64) := by
        rcases Nat.le_total outLen 64 with hle | hle
        · rw [Nat.min_eq_left hle, Nat.sub_eq_zero_of_le hle]
          simp [streamBytes]
        · rw [Nat.min_eq_right hle, Nat.mul_add, Nat.mul_one, ← streamBytes_add,
            Nat.add_sub_cancel' hle]
      refine ⟨L', ?_, fun q hq => hsub (List.mem_cons_of_mem _ hq),
        fun _ => hsub List.mem_cons_self⟩
      have hnext : UInt64.ofNat (k + 1) = UInt64.ofNat k + 1 := by
        rw [UInt64.ofNat_add]
        rfl
      rw [hnext] at hrun
      rw [Output.rootOutputBytes, if_neg hzero, run_bind_ok (run_compressTraced _ _)]
      dsimp only
      rw [run_bind_ok hrun, hsplit, hblock]
      rfl

/-- What a hasher that has read `bytes` returns. -/
theorem run_finalize {s : Hasher} {bytes : List Byte} {L : List CompressInput}
    (h : Reads f key flags s bytes L) (outLen : ℕ) :
    ∃ L', (s.finalize f outLen).run L =
        .ok (streamBytes f (rootNode f key flags bytes) 0 outLen, L') ∧
      (tracedRoot f key flags bytes).2 ⊆ L' ∧
      (0 < outLen → { rootNode f key flags bytes with
        counter := 0, flags := (rootNode f key flags bytes).flags ||| Flag.root } ∈ L') := by
  obtain ⟨L₁, hroot, hsub⟩ := run_rootOutput h
  obtain ⟨L₂, hout, hsub₂, hmem⟩ := run_rootOutputBytes (f := f) (rootNode f key flags bytes) 0
    outLen L₁
  refine ⟨L₂, ?_, fun q hq => hsub₂ (hsub hq), hmem⟩
  rw [Hasher.finalize, run_bind_ok hroot]
  exact hout

variable (f key flags) in
/-- A message of at most `2 ^ 64` bytes is hashed without going wrong. -/
theorem run_hash {bytes : List Byte} (hlen : bytes.length ≤ 2 ^ 64) (outLen : ℕ)
    (L : List CompressInput) :
    ∃ L', (hash f (.newInternal key flags) bytes outLen).run L =
      .ok (streamBytes f (rootNode f key flags bytes) 0 outLen, L') := by
  rcases run_update (reads_newInternal f key flags L) bytes with
    ⟨-, hlong⟩ | ⟨s, L₁, hrun, hreads⟩
  · rw [List.nil_append] at hlong
    omega
  · obtain ⟨L₂, hfin, -⟩ := run_finalize hreads outLen
    exact ⟨L₂, by rw [hash, run_bind_ok hrun]; exact hfin⟩

end Reference

end Blake3
