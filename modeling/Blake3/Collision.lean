import Blake3.ReferenceTree

/-!
The tree mode adds no collision of its own. Two messages with one hash are
followed down from the root, both trees at once. At every level either two
different compressions have one chaining value, or the same compression was
made twice; then the flags say that the nodes are of one kind, and the messages
agree on what the node covers.
-/

namespace Blake3

open LeftTree

/-! ### Collisions -/

/-- Two different arguments, one from each list, with one value. -/
def Collides {α β : Type*} (g : α → β) (l m : List α) : Prop :=
  ∃ x ∈ l, ∃ y ∈ m, x ≠ y ∧ g x = g y

section Collides

variable {α β : Type*} {g : α → β}

theorem Collides.mono {l l' m m' : List α} (h : Collides g l m) (hl : l ⊆ l') (hm : m ⊆ m') :
    Collides g l' m' := by
  obtain ⟨x, hx, y, hy, hne, heq⟩ := h
  exact ⟨x, hl hx, y, hm hy, hne, heq⟩

variable (g) in
/-- Arguments with one value are the same, or they collide. -/
theorem eq_or_collides {x y : α} {l m : List α} (hx : x ∈ l) (hy : y ∈ m) (h : g x = g y) :
    x = y ∨ Collides g l m := by
  rcases eq_or_ne x y with rfl | hne
  · exact .inl rfl
  · exact .inr ⟨x, hx, y, hy, hne, h⟩

theorem not_collides_of_ne {x y : α} (h : g x ≠ g y) : ¬Collides g [x] [x, y] := by
  rintro ⟨a, ha, b, hb, hne, heq⟩
  simp only [List.mem_cons, List.not_mem_nil, or_false] at ha hb
  rcases hb with rfl | rfl
  · exact hne ha
  · exact h (ha ▸ heq)

end Collides

/-! ### What the flags tell apart -/

/-- Mode flags beside which `CHUNK_START` can be read off, and which do not mark
every block as both the end of a chunk and a parent. -/
structure SeparatesBlocks (flags : Word) : Prop where
  start_clear : flags &&& Flag.chunkStart = 0
  end_or_parent_clear : ¬(flags &&& Flag.chunkEnd = Flag.chunkEnd ∧
    flags &&& Flag.parent = Flag.parent)

/-- The flags of the four ways to make a hasher are of this kind. -/
theorem separatesBlocks_of_mode {flags : Word}
    (h : flags ∈ [0, Flag.keyedHash, Flag.deriveKeyContext, Flag.deriveKeyMaterial]) :
    SeparatesBlocks flags := by
  simp only [List.mem_cons, List.not_mem_nil, or_false] at h
  rcases h with rfl | rfl | rfl | rfl <;> exact ⟨by decide, by decide⟩

theorem and_or_self_right (a b : Word) : a &&& b ||| b = b := by
  apply UInt32.toBitVec_inj.mp
  ext i hi
  simp

theorem startFlag_and_of {mask : Word} (h : Flag.chunkStart &&& mask = 0) (blocks : ℕ) :
    startFlag blocks &&& mask = 0 := by
  rw [startFlag]
  split
  · exact h
  · exact UInt32.zero_and

theorem startFlag_inj {m n : ℕ} (h : startFlag m = startFlag n) : m = 0 ↔ n = 0 := by
  unfold startFlag at h
  split at h <;> split at h
  · simp [*]
  · exact absurd h (by decide)
  · exact absurd h (by decide)
  · simp [*]

theorem or_and_of {mask b : Word} (h : b &&& mask = 0) (a : Word) :
    (a ||| b) &&& mask = a &&& mask := by
  rw [or_and_distrib, h, UInt32.or_zero]

/-- Whether a block is the first of its chunk can be read off its flags. -/
theorem isFirst_of_flags {flags : Word} {m n : ℕ} (hflags : flags &&& Flag.chunkStart = 0)
    (h : (flags ||| startFlag m) &&& Flag.chunkStart =
      (flags ||| startFlag n) &&& Flag.chunkStart) : m = 0 ↔ n = 0 := by
  have hbit : ∀ k, (flags ||| startFlag k) &&& Flag.chunkStart = startFlag k := by
    intro k
    rw [or_and_distrib, hflags, startFlag]
    split <;> rfl
  apply startFlag_inj
  rw [← hbit m, h, hbit]

/-- A chunk cannot be taken for a parent. -/
theorem chunk_flags_ne_parent_flags {flags : Word} (h : SeparatesBlocks flags) (blocks : ℕ) :
    flags ||| startFlag blocks ||| Flag.chunkEnd ||| Flag.root ≠
      flags ||| Flag.parent ||| Flag.root := by
  intro heq
  have hand (mask : Word) := congrArg (· &&& mask) heq
  simp only [or_and_distrib] at hand
  apply h.end_or_parent_clear
  constructor
  · have hend := hand Flag.chunkEnd
    rw [startFlag_and_of rfl, show Flag.root &&& Flag.chunkEnd = 0 from rfl,
      show Flag.parent &&& Flag.chunkEnd = 0 from rfl] at hend
    simpa [and_or_self_right] using hend.symm
  · have hparent := hand Flag.parent
    rw [startFlag_and_of rfl, show Flag.root &&& Flag.parent = 0 from rfl,
      show Flag.chunkEnd &&& Flag.parent = 0 from rfl] at hparent
    simpa [and_or_self_right] using hparent

/-! ### Inside a chunk -/

namespace Pending

variable (f : Compress) (ctr : UInt64) (flags : Word)

/-- A chunk of which `n` blocks have been compressed. -/
def steps (p : Pending) (n : ℕ) : Pending := (step f ctr flags)^[n] p

/-- The first `n` compressions of a chunk. -/
def stepInputs (p : Pending) (n : ℕ) : List CompressInput :=
  (List.range n).map fun i => (p.steps f ctr flags i).blockInput ctr flags

variable {f ctr flags}

theorem steps_succ (p : Pending) (n : ℕ) :
    p.steps f ctr flags (n + 1) = (p.steps f ctr flags n).step f ctr flags :=
  Function.iterate_succ_apply' _ _ _

theorem step_steps (p : Pending) (n : ℕ) :
    (p.step f ctr flags).steps f ctr flags n = p.steps f ctr flags (n + 1) := rfl

theorem blocks_steps (p : Pending) (n : ℕ) :
    (p.steps f ctr flags n).blocks = p.blocks + n := by
  induction n with
  | zero => rfl
  | succ n ih =>
      rw [steps_succ, step, ih]
      rfl

theorem rest_steps (p : Pending) (n : ℕ) :
    (p.steps f ctr flags n).rest = p.rest.drop (64 * n) := by
  induction n with
  | zero => rfl
  | succ n ih =>
      rw [steps_succ, step, ih]
      exact List.drop_drop

theorem stepInputs_succ (p : Pending) (n : ℕ) :
    p.stepInputs f ctr flags (n + 1) =
      p.stepInputs f ctr flags n ++ [(p.steps f ctr flags n).blockInput ctr flags] := by
  rw [stepInputs, List.range_succ, List.map_append, List.map_singleton, stepInputs]

theorem stepInputs_succ_left (p : Pending) (n : ℕ) :
    p.stepInputs f ctr flags (n + 1) =
      p.blockInput ctr flags :: (p.step f ctr flags).stepInputs f ctr flags n := by
  rw [stepInputs, List.range_succ_eq_map, List.map_cons, List.map_map]
  rfl

variable (f ctr flags) in
/-- Every block but the last is compressed. -/
theorem absorb_eq_steps (p : Pending) :
    ∃ n, 64 * n ≤ p.rest.length ∧ p.absorb f ctr flags = p.steps f ctr flags n ∧
      p.absorbInputs f ctr flags = p.stepInputs f ctr flags n := by
  induction p using absorb.induct f ctr flags with
  | case1 p h ih =>
      obtain ⟨n, hle, habsorb, hinputs⟩ := ih
      simp only [step, List.length_drop] at hle
      refine ⟨n + 1, by omega, ?_, ?_⟩
      · rw [absorb_of_lt h, habsorb, step_steps]
      · rw [absorbInputs_of_lt h, hinputs, stepInputs_succ_left]
  | case2 p h =>
      exact ⟨0, by omega, absorb_of_le (by omega), absorbInputs_of_le (by omega)⟩

end Pending

/-- A block is made of the first 64 bytes. -/
theorem blockOfBytes_take (bytes : List Byte) :
    blockOfBytes (bytes.take 64) = blockOfBytes bytes := by
  apply Vector.ext
  intro i hi
  simp [blockOfBytes]

/-- Strings that agree on `m` blocks and on the next one. -/
theorem take_succ_block {a b : List Byte} {m : ℕ} (ha : 64 * (m + 1) ≤ a.length)
    (hb : 64 * (m + 1) ≤ b.length) (htake : a.take (64 * m) = b.take (64 * m))
    (hblock : blockOfBytes (a.drop (64 * m)) = blockOfBytes (b.drop (64 * m))) :
    a.take (64 * (m + 1)) = b.take (64 * (m + 1)) := by
  have hlen : ∀ c : List Byte, 64 * (m + 1) ≤ c.length →
      ((c.drop (64 * m)).take 64).length = 64 := by
    intro c hc
    rw [List.length_take, List.length_drop]
    omega
  have hnext : (a.drop (64 * m)).take 64 = (b.drop (64 * m)).take 64 := by
    apply eq_of_blockOfBytes
    · rw [hlen a ha, hlen b hb]
    · exact (hlen a ha).le
    · rw [blockOfBytes_take, hblock, blockOfBytes_take]
  rw [Nat.mul_succ, List.take_add, List.take_add, htake, hnext]

section Determined

variable (f : Compress) (key : CVWords) (flags : Word)

/-- Backwards through two chains of blocks: where they come to one chaining
value, they have read the same. -/
theorem steps_determined (hflags : flags &&& Flag.chunkStart = 0) (ctr : UInt64) (a b : List Byte)
    (m n : ℕ) (ha : 64 * m ≤ a.length) (hb : 64 * n ≤ b.length) (hfirst : m = 0 ↔ n = 0)
    (hcv : (((Pending.empty key).extend a).steps f ctr flags m).cv =
      (((Pending.empty key).extend b).steps f ctr flags n).cv) :
    (m = n ∧ a.take (64 * m) = b.take (64 * n)) ∨
      Collides (cvOf f) (((Pending.empty key).extend a).stepInputs f ctr flags m)
        (((Pending.empty key).extend b).stepInputs f ctr flags n) := by
  induction m generalizing n with
  | zero =>
      obtain rfl := hfirst.mp rfl
      exact .inl ⟨rfl, by simp⟩
  | succ m ih =>
      obtain ⟨n, rfl⟩ := Nat.exists_eq_succ_of_ne_zero (mt hfirst.mpr m.succ_ne_zero)
      rw [Pending.steps_succ, Pending.steps_succ] at hcv
      rw [Pending.stepInputs_succ, Pending.stepInputs_succ]
      rcases eq_or_collides (cvOf f) (List.mem_append_right _ (List.mem_singleton_self _))
        (List.mem_append_right _ (List.mem_singleton_self _)) hcv with heq | hcol
      · -- the last compressions are the same, so the chains before them end alike
        injection heq with hcv hwords _ _ hflag
        have hblock := wordsFromLeBytes64_injective hwords
        rw [Pending.rest_steps, Pending.rest_steps] at hblock
        rw [Pending.blocks_steps, Pending.blocks_steps] at hflag
        have hfirst : m = 0 ↔ n = 0 := by
          simpa [Pending.empty] using isFirst_of_flags hflags
            (congrArg (· &&& Flag.chunkStart) hflag)
        rcases ih n (by omega) (by omega) hfirst hcv with ⟨rfl, htake⟩ | hcol
        · exact .inl ⟨rfl, take_succ_block ha hb htake hblock⟩
        · exact .inr (hcol.mono (List.subset_append_left _ _) (List.subset_append_left _ _))
      · exact .inr hcol

/-- A node as it is compressed when it is the root. -/
def rootInput (node : CompressInput) : CompressInput :=
  { node with counter := 0, flags := node.flags ||| Flag.root }

/-- Two chunks with one last block have read the same. -/
theorem chunk_determined (hflags : flags &&& Flag.chunkStart = 0) (ctr : UInt64) {a b : List Byte}
    (h : rootInput (tracedChunk f key flags ctr a).1 =
      rootInput (tracedChunk f key flags ctr b).1) :
    a = b ∨ Collides (cvOf f) (tracedChunk f key flags ctr a).2
      (tracedChunk f key flags ctr b).2 := by
  obtain ⟨m, hm, habsorb, hinputs⟩ :=
    Pending.absorb_eq_steps f ctr flags ((Pending.empty key).extend a)
  obtain ⟨n, hn, habsorb', hinputs'⟩ :=
    Pending.absorb_eq_steps f ctr flags ((Pending.empty key).extend b)
  have hlen := length_rest_pendingOf f key flags ctr a
  have hlen' := length_rest_pendingOf f key flags ctr b
  rw [pendingOf, habsorb, Pending.rest_steps] at hlen
  rw [pendingOf, habsorb', Pending.rest_steps] at hlen'
  rw [tracedChunk, hinputs, tracedChunk, hinputs']
  simp only [tracedChunk, chunkNode, rootInput, pendingOf, habsorb, habsorb', Pending.node] at h
  injection h with hcv hwords _ hlast hflag
  rw [Pending.rest_steps, Pending.rest_steps] at hwords hlast
  have hfirst : m = 0 ↔ n = 0 := by
    have hstart := congrArg (· &&& Flag.chunkStart) hflag
    simp only [or_and_of (show Flag.root &&& Flag.chunkStart = 0 from rfl),
      or_and_of (show Flag.chunkEnd &&& Flag.chunkStart = 0 from rfl)] at hstart
    simpa [Pending.blocks_steps, Pending.empty] using isFirst_of_flags hflags hstart
  rcases steps_determined f key flags hflags ctr a b m n hm hn hfirst hcv with ⟨rfl, htake⟩ | hcol
  · left
    have hdrop : a.drop (64 * m) = b.drop (64 * m) := by
      apply eq_of_blockOfBytes
      · have hcount := congrArg UInt32.toNat hlast
        rwa [UInt32.toNat_ofNat_of_lt' (hlen.trans_lt (by decide)),
          UInt32.toNat_ofNat_of_lt' (hlen'.trans_lt (by decide))] at hcount
      · exact hlen
      · exact wordsFromLeBytes64_injective hwords
    rw [← List.take_append_drop (64 * m) a, htake, hdrop, List.take_append_drop]
  · exact .inr hcol

/-! ### Down the tree -/

theorem chunk_ne_parent (hflags : SeparatesBlocks flags) (ctr : UInt64) (bytes : List Byte)
    (left right : TracedCv) :
    rootInput (tracedChunk f key flags ctr bytes).1 ≠
      rootInput (tracedJoin key flags left right).1 :=
  fun h => chunk_flags_ne_parent_flags hflags _ (congrArg CompressInput.flags h)

/-- A parent node determines the chaining values of its children. -/
theorem children_of_parent {l r l' r' : TracedCv}
    (h : rootInput (tracedJoin key flags l r).1 = rootInput (tracedJoin key flags l' r').1) :
    l.1 = l'.1 ∧ r.1 = r'.1 := by
  have hwords : parentWords l.1 r.1 = parentWords l'.1 r'.1 := congrArg CompressInput.blockWords h
  exact parentWords_inj hwords

theorem tracedTree_of_le (ctr : UInt64) {bytes : List Byte} (hshort : bytes.length ≤ 1024) :
    tracedTree f key flags ctr bytes = tracedChunk f key flags ctr bytes :=
  treeNode_of_le _ _ _ ctr hshort

theorem tracedTree_split (ctr : UInt64) {bytes : List Byte} (hlong : 1024 < bytes.length) :
    ∃ k, 0 < k ∧ 1024 * k < bytes.length ∧ tracedTree f key flags ctr bytes =
      tracedJoin key flags (tracedCvOf f (tracedTree f key flags ctr (bytes.take (1024 * k))))
        (tracedCvOf f (tracedTree f key flags (ctr + UInt64.ofNat k) (bytes.drop (1024 * k)))) := by
  have hpos := leftLen_pos ((bytes.length + 1023) / 1024)
  have hlt := leftLen_lt (n := (bytes.length + 1023) / 1024) (by omega)
  exact ⟨_, hpos, by omega, treeNode_split _ _ _ ctr bytes hlong rfl⟩

variable {f} in
/-- Nodes with one chaining value are the same, or they collide. -/
theorem node_determined {P : Prop} {o o' : TracedNode} (h : cvOf f o.1 = cvOf f o'.1)
    (hnode : o.1 = o'.1 → P ∨ Collides (cvOf f) o.2 o'.2) :
    P ∨ Collides (cvOf f) (tracedCvOf f o).2 (tracedCvOf f o').2 := by
  rcases eq_or_collides (cvOf f) (List.mem_cons_self (l := o.2)) (List.mem_cons_self (l := o'.2)) h
    with heq | hcol
  · exact (hnode heq).imp_right fun hcol =>
      hcol.mono (List.subset_cons_self _ _) (List.subset_cons_self _ _)
  · exact .inr hcol

/-- Two trees over chunks of the same numbers with one top node are over the
same bytes. -/
theorem tree_determined (hflags : SeparatesBlocks flags) (ctr : UInt64) (a b : List Byte)
    (h : rootInput (tracedTree f key flags ctr a).1 = rootInput (tracedTree f key flags ctr b).1) :
    a = b ∨ Collides (cvOf f) (tracedTree f key flags ctr a).2
      (tracedTree f key flags ctr b).2 := by
  induction hn : a.length using Nat.strong_induction_on generalizing ctr a b with
  | _ n ih =>
    rcases Nat.lt_or_ge 1024 a.length with ha | ha <;>
        rcases Nat.lt_or_ge 1024 b.length with hb | hb
    · obtain ⟨k, hk, hka, hsplit⟩ := tracedTree_split f key flags ctr ha
      obtain ⟨k', hk', hkb, hsplit'⟩ := tracedTree_split f key flags ctr hb
      rw [hsplit, hsplit'] at h ⊢
      obtain ⟨hleft, hright⟩ := children_of_parent key flags h
      have hlen : (a.take (1024 * k)).length = 1024 * k := by
        rw [List.length_take]
        omega
      have hlen' : (b.take (1024 * k')).length = 1024 * k' := by
        rw [List.length_take]
        omega
      rcases node_determined hleft fun hnode => ih _ (by omega) ctr _ _
        (congrArg rootInput hnode) rfl with htake | hcol
      · -- the sides on the left are the same, so those on the right start at one chunk
        obtain rfl : k = k' := by
          rw [htake] at hlen
          omega
        rcases node_determined hright fun hnode => ih _ (by rw [List.length_drop]; omega) _ _ _
          (congrArg rootInput hnode) rfl with hdrop | hcol
        · left
          rw [← List.take_append_drop (1024 * k) a, htake, hdrop, List.take_append_drop]
        · exact .inr (hcol.mono (List.subset_append_right _ _) (List.subset_append_right _ _))
      · exact .inr (hcol.mono (List.subset_append_left _ _) (List.subset_append_left _ _))
    · obtain ⟨k, -, -, hsplit⟩ := tracedTree_split f key flags ctr ha
      rw [hsplit, tracedTree_of_le f key flags ctr hb] at h
      exact absurd h.symm (chunk_ne_parent f key flags hflags ctr b _ _)
    · obtain ⟨k, -, -, hsplit⟩ := tracedTree_split f key flags ctr hb
      rw [hsplit, tracedTree_of_le f key flags ctr ha] at h
      exact absurd h (chunk_ne_parent f key flags hflags ctr a _ _)
    · rw [tracedTree_of_le f key flags ctr ha, tracedTree_of_le f key flags ctr hb] at h ⊢
      exact chunk_determined f key flags hflags.start_clear ctr h

end Determined

/-! ### The reference implementation -/

namespace Reference

variable {f : Compress} {key : CVWords} {flags : Word}

/-- A hash that is returned is the first compression of the root, and all
compressions of the tree are on record. -/
theorem hash_eq_ok {bytes hashBytes : List Byte} {L : List CompressInput}
    (h : (hash f (.newInternal key flags) bytes 32).run [] = .ok (hashBytes, L)) :
    hashBytes = (leBytesFromWords32 (cvOf f (rootInput (rootNode f key flags bytes)))).toList ∧
      rootInput (rootNode f key flags bytes) ∈ L ∧ (tracedRoot f key flags bytes).2 ⊆ L := by
  rcases run_update (reads_newInternal f key flags []) bytes with
    ⟨⟨e, herr⟩, -⟩ | ⟨s, L₁, hrun, hreads⟩
  · rw [hash, run_bind_error herr] at h
    cases h
  · obtain ⟨L₂, hfin, hsub, hmem⟩ := run_finalize hreads 32
    rw [hash, run_bind_ok hrun, hfin] at h
    obtain ⟨rfl, rfl⟩ := Prod.mk.inj (Except.ok.inj h)
    exact ⟨streamBytes_hash f _, hmem (by omega), hsub⟩

variable (f key flags) in
/-- A message of one chunk is hashed with the compressions of the chunk and one
for the root. -/
theorem run_hash_of_le (bytes : List Byte) (hshort : bytes.length ≤ 1024) :
    (hash f (.newInternal key flags) bytes 32).run [] =
      .ok ((leBytesFromWords32 (cvOf f (rootInput (chunkNode f key flags 0 bytes)))).toList,
        rootInput (chunkNode f key flags 0 bytes) ::
          (tracedChunk f key flags 0 bytes).2.reverse) := by
  have hchunk : ((Hasher.newInternal key flags).chunkState.update f bytes).run [] =
      .ok (.ofPending 0 flags (pendingOf f key flags 0 bytes),
        (tracedChunk f key flags 0 bytes).2.reverse) := by
    have hnew : (Hasher.newInternal key flags).chunkState =
        .ofPending 0 flags (Pending.empty key) := ChunkState.new_eq_ofPending
    rw [hnew, ChunkState.run_update f flags 0 (by simp [Pending.empty])
      (by simpa [Pending.empty] using hshort), List.append_nil]
    rfl
  have hupdate : (Hasher.update f (.newInternal key flags) bytes).run [] =
      .ok ({ Hasher.newInternal key flags with
          chunkState := .ofPending 0 flags (pendingOf f key flags 0 bytes) },
        (tracedChunk f key flags 0 bytes).2.reverse) := by
    have hfin : (Hasher.newInternal key flags).finishChunk f =
        pure (Hasher.newInternal key flags) := by
      rw [Hasher.finishChunk, if_neg (by simp [Hasher.newInternal, ChunkState.new, ChunkState.len])]
    rw [Hasher.update]
    split
    · next hnil =>
        subst hnil
        rw [← new_eq_pendingOf, tracedChunk_nil]
        rfl
    · rw [hfin, pure_bind, if_pos (by simp [Hasher.newInternal, ChunkState.new, ChunkState.len])]
      dsimp only
      have hlen : (Hasher.newInternal key flags).chunkState.len = 0 := rfl
      rw [hlen, take_min_length, drop_min_length, List.take_of_length_le hshort,
        List.drop_eq_nil_of_le hshort, run_bind_ok hchunk, Hasher.update, if_pos rfl]
      rfl
  rw [hash, run_bind_ok hupdate, Hasher.finalize, Hasher.rootOutput]
  simp only [Hasher.newInternal, List.foldlM_nil, pure_bind]
  rw [Output.rootOutputBytes, if_neg (by decide), run_bind_ok (run_compressTraced _ _),
    Output.rootOutputBytes, if_pos rfl, pure_bind, List.append_nil, take_leBytesFromWords64]
  rfl

/-- Two messages with one hash were hashed with two different compressions of
one chaining value. -/
theorem collision_of_hash_eq (f : Compress) (key : CVWords) (flags : Word)
    (hflags : SeparatesBlocks flags) {a b hashBytes : List Byte} {La Lb : List CompressInput}
    (ha : (hash f (.newInternal key flags) a 32).run [] = .ok (hashBytes, La))
    (hb : (hash f (.newInternal key flags) b 32).run [] = .ok (hashBytes, Lb)) (hne : a ≠ b) :
    ∃ x ∈ La, ∃ y ∈ Lb, x ≠ y ∧ first8Words (f x) = first8Words (f y) := by
  obtain ⟨hhash, hroot, hsub⟩ := hash_eq_ok ha
  obtain ⟨hhash', hroot', hsub'⟩ := hash_eq_ok hb
  have hcv := leBytesFromWords32_injective (Vector.toList_inj.mp (hhash.symm.trans hhash'))
  change Collides (cvOf f) La Lb
  rcases eq_or_collides (cvOf f) hroot hroot' hcv with hnode | hcol
  · rw [← fst_tracedRoot, ← fst_tracedRoot] at hnode
    rcases tree_determined f key flags hflags 0 a b hnode with rfl | hcol
    · exact absurd rfl hne
    · exact hcol.mono hsub hsub'
  · exact hcol

/-- A compression that computes the same for every input collides at once. -/
theorem collision_of_hash_eq_of_constant :
    ∃ La Lb, (∃ hashBytes,
      (hash (fun _ => Vector.replicate 16 0) (.newInternal iv 0) [] 32).run [] =
        .ok (hashBytes, La) ∧
      (hash (fun _ => Vector.replicate 16 0) (.newInternal iv 0) [1] 32).run [] =
        .ok (hashBytes, Lb)) ∧
      ∃ x ∈ La, ∃ y ∈ Lb, x ≠ y ∧
        first8Words (Vector.replicate 16 (0 : Word)) = first8Words (Vector.replicate 16 0) := by
  have hcv : ∀ x, cvOf (fun _ => Vector.replicate 16 0) x = Vector.replicate 8 0 := by
    intro x
    change first8Words (Vector.replicate 16 0) = Vector.replicate 8 0
    decide
  have ha := run_hash_of_le (fun _ => Vector.replicate 16 0) iv 0 [] (by simp)
  have hb := run_hash_of_le (fun _ => Vector.replicate 16 0) iv 0 [1] (by simp)
  rw [hcv] at ha hb
  exact ⟨_, _, ⟨_, ha, hb⟩, collision_of_hash_eq (fun _ => Vector.replicate 16 0) iv 0
    (separatesBlocks_of_mode (by simp)) ha hb (by simp)⟩

/-! ### A flag that hides the first block -/

/-- A compression that gives back the key unless it is a root. -/
def keyBelowRoot : Compress := fun x =>
  if x.flags &&& Flag.root = 0 then parentWords iv iv else Vector.replicate 16 0

theorem cvOf_keyBelowRoot {x : CompressInput} (h : x.flags &&& Flag.root = 0) :
    cvOf keyBelowRoot x = iv := by
  rw [cvOf, keyBelowRoot, if_pos h]
  decide

theorem cvOf_keyBelowRoot_of_root {x : CompressInput} (h : x.flags &&& Flag.root ≠ 0) :
    cvOf keyBelowRoot x = Vector.replicate 8 0 := by
  rw [cvOf, keyBelowRoot, if_neg h]
  decide

theorem rootInput_flags (node : CompressInput) : (rootInput node).flags &&& Flag.root ≠ 0 := by
  rw [rootInput, or_and_distrib, show Flag.root &&& Flag.root = Flag.root from rfl]
  intro hzero
  exact absurd (UInt32.or_eq_zero_iff.mp hzero).2 (by decide)

/-- With `CHUNK_START` among the mode flags a chunk whose first block gives the
key is hashed like the bytes after that block, and there is no collision. -/
theorem hash_eq_without_collision :
    ∃ hashBytes La Lb,
      (hash keyBelowRoot (.newInternal iv Flag.chunkStart) [0] 32).run [] = .ok (hashBytes, La) ∧
      (hash keyBelowRoot (.newInternal iv Flag.chunkStart) (List.replicate 65 0) 32).run [] =
        .ok (hashBytes, Lb) ∧
      ¬∃ x ∈ La, ∃ y ∈ Lb, x ≠ y ∧
        first8Words (keyBelowRoot x) = first8Words (keyBelowRoot y) := by
  have hlong : 64 < ((Pending.empty iv).extend (List.replicate 65 0)).rest.length := by decide
  have hnext : ((Pending.empty iv).extend (List.replicate 65 0)).step keyBelowRoot 0
      Flag.chunkStart = { cv := iv, blocks := 1, rest := [0] } := by
    rw [Pending.step, cvOf_keyBelowRoot rfl]
    rfl
  have hpending : pendingOf keyBelowRoot iv Flag.chunkStart 0 (List.replicate 65 0) =
      { cv := iv, blocks := 1, rest := [0] } := by
    rw [pendingOf, Pending.absorb_of_lt hlong, hnext, Pending.absorb_of_le (by simp)]
  -- the start flag of the second block is there in any case
  have hnode : chunkNode keyBelowRoot iv Flag.chunkStart 0 (List.replicate 65 0) =
      chunkNode keyBelowRoot iv Flag.chunkStart 0 [0] := by
    rw [chunkNode, hpending, chunkNode, pendingOf, Pending.absorb_of_le (by simp [Pending.empty])]
    rfl
  have hbelow : ∃ x, x.flags &&& Flag.root = 0 ∧
      (tracedChunk keyBelowRoot iv Flag.chunkStart 0 (List.replicate 65 0)).2 = [x] := by
    refine ⟨((Pending.empty iv).extend (List.replicate 65 0)).blockInput 0 Flag.chunkStart, rfl, ?_⟩
    rw [tracedChunk, Pending.absorbInputs_of_lt hlong, hnext, Pending.absorbInputs_of_le (by simp)]
  have halone : (tracedChunk keyBelowRoot iv Flag.chunkStart 0 [0]).2 = [] := by
    rw [tracedChunk, Pending.absorbInputs_of_le (by simp [Pending.empty])]
  have ha := run_hash_of_le keyBelowRoot iv Flag.chunkStart [0] (by simp)
  have hb := run_hash_of_le keyBelowRoot iv Flag.chunkStart (List.replicate 65 0) (by simp)
  obtain ⟨below, hflags, hbelow⟩ := hbelow
  rw [hnode, hbelow, List.reverse_singleton] at hb
  rw [halone, List.reverse_nil] at ha
  refine ⟨_, _, _, ha, hb, not_collides_of_ne (g := cvOf keyBelowRoot) ?_⟩
  rw [cvOf_keyBelowRoot hflags, cvOf_keyBelowRoot_of_root (rootInput_flags _)]
  decide

end Reference

end Blake3
