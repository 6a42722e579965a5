import Blake3.Lib.CarryStack
import Blake3.Portable

/-!
The stack of chaining values that `c/blake3.c` and `src/lib.rs` keep, apart
from the hasher around it. It spans the whole chunks read so far, which are
numbered from a counter that is zero unless the hasher starts in the middle of
a message. A chunk or a subtree that is pushed extends what is spanned, and
rolling up the stack gives the node at the top.
-/

namespace Blake3

open LeftTree CarryStack

section SubtreeNode

variable (f : Compress) (key : CVWords) (flags : Word)

/-- The node at the top of the subtree over the chunks numbered from `ctr`. -/
def subtreeNode (ctr : UInt64) (bytes : List Byte) : CompressInput :=
  treeNode (chunkNode f key flags) (parentOf key flags) (cvBytes f) ctr bytes

theorem rootNode_eq_subtreeNode (bytes : List Byte) :
    rootNode f key flags bytes = subtreeNode f key flags 0 bytes := by
  rcases Nat.lt_or_ge 1024 bytes.length with hlong | hshort
  · rw [rootNode_eq_parentOf f key flags hlong, subtreeNode, treeNode_of_lt _ _ _ _ hlong]
    rfl
  · rw [rootNode, if_pos hshort, subtreeNode, treeNode_of_le _ _ _ _ hshort]

end SubtreeNode

/-- The stack spans `whole`, which is `n` chunks long. -/
structure Spans (f : Compress) (key : CVWords) (flags : Word) (ctr : UInt64) (st : List CVBytes)
    (es : List ℕ) (n : ℕ) (whole : List Byte) : Prop where
  whole_length : whole.length = 1024 * n
  covers : Covers (parentBytes f key flags) st es (chunkBytes f key flags ctr whole)
  lazy : Lazy es

namespace Spans

variable {f : Compress} {key : CVWords} {flags : Word} {ctr : UInt64} {st : List CVBytes}
  {es : List ℕ} {n : ℕ} {whole : List Byte}

theorem empty : Spans f key flags ctr [] [] 0 [] :=
  { whole_length := rfl, lazy := trivial,
    covers := by
      rw [chunkBytes, chunkMap_nil]
      exact .nil }

theorem length_leaves (h : Spans f key flags ctr st es n whole) :
    (chunkBytes f key flags ctr whole).length = n := by
  rw [length_chunkBytes, h.whole_length]
  omega

theorem weight_eq (h : Spans f key flags ctr st es n whole) : weight es = n :=
  h.covers.length_leaves.symm.trans h.length_leaves

theorem of_nil (h : Spans f key flags ctr [] es n whole) : n = 0 ∧ whole = [] := by
  have hes : es = [] := List.length_eq_zero_iff.mp h.covers.length_eq.symm
  have hweight := h.weight_eq
  rw [hes, weight_nil] at hweight
  have hlen := h.whole_length
  exact ⟨hweight.symm, List.length_eq_zero_iff.mp (by omega)⟩

theorem pos_of_ne_nil (h : Spans f key flags ctr st es n whole) (hst : st ≠ []) : 0 < n := by
  have hle := length_le_weight es
  have hlen := List.length_pos_iff.mpr hst
  rw [h.weight_eq, ← h.covers.length_eq] at hle
  omega

/-- The leaves of the next block follow those already covered. -/
theorem leaves_append (h : Spans f key flags ctr st es n whole) (block : List Byte) :
    chunkBytes f key flags ctr (whole ++ block) =
      chunkBytes f key flags ctr whole ++ chunkBytes f key flags (ctr + UInt64.ofNat n) block :=
  chunkMap_append _ _ h.whole_length block

/-! ### Merging and pushing -/

theorem merge {ε : Type*} (short : ε) (h : Spans f key flags ctr st es n whole) :
    ∃ st' es', mergeLoop (parentBytes f key flags) short (popcount n) st = .ok st' ∧
      st'.length = popcount n ∧ Spans f key flags ctr st' es' n whole ∧ Merged es' := by
  obtain ⟨st', es', hrun, hcov, hm⟩ := h.covers.mergeLoop short h.lazy
  have hlen := hcov.length_of_merged hm
  rw [h.length_leaves] at hrun hlen
  exact ⟨st', es', hrun, hlen, ⟨h.whole_length, hcov, hm.lazy⟩, hm⟩

/-- A whole chunk is pushed as it is. -/
theorem push_chunk {ε : Type*} (short : ε) (h : Spans f key flags ctr st es n whole)
    {chunk : List Byte} (hchunk : chunk.length = 1024) :
    ∃ st' es', mergeLoop (parentBytes f key flags) short (popcount n) st = .ok st' ∧
      st'.length = popcount n ∧
      Spans f key flags ctr
        (cvBytes f (chunkNode f key flags (ctr + UInt64.ofNat n) chunk) :: st') (0 :: es')
        (n + 1) (whole ++ chunk) := by
  have hleaf : chunkBytes f key flags (ctr + UInt64.ofNat n) chunk =
      [cvBytes f (chunkNode f key flags (ctr + UInt64.ofNat n) chunk)] :=
    chunkMap_of_le _ (by omega) hchunk.le
  obtain ⟨st', es', hrun, hlen, -, -, hcov, hlazy⟩ :=
    h.covers.push_block short h.lazy (j := 0) (congrArg List.length hleaf) (by simp)
  rw [h.length_leaves] at hrun hlen
  rw [← h.leaves_append, hleaf, fold_singleton] at hcov
  refine ⟨st', es', hrun, hlen, ?_, hcov, hlazy⟩
  rw [List.length_append, h.whole_length, hchunk]
  ring

/-- A subtree whose size divides what has been read is pushed as the two
chaining values below its top. -/
theorem push_pair {ε : Type*} (short : ε) (h : Spans f key flags ctr st es n whole) {i : ℕ}
    {block : List Byte} (hblock : block.length = 1024 * 2 ^ (i + 1)) (hdvd : 2 ^ (i + 1) ∣ n)
    {pair : CVBytes × CVBytes}
    (hpair : top (parentBytes f key flags) (chunkBytes f key flags (ctr + UInt64.ofNat n) block) =
      pair) :
    ∃ st' es', mergeLoop (parentBytes f key flags) short (popcount n) st = .ok st' ∧
      st'.length = popcount n ∧ (pair.1 :: st').length = popcount (n + 2 ^ i) ∧
      Spans f key flags ctr (pair.2 :: pair.1 :: st') (i :: i :: es') (n + 2 ^ (i + 1))
        (whole ++ block) := by
  have hipos := Nat.two_pow_pos i
  have hleaves := h.leaves_append block
  have hys : (chunkBytes f key flags (ctr + UInt64.ofNat n) block).length = 2 ^ (i + 1) := by
    rw [length_chunkBytes, hblock]
    omega
  have htop := top_eq_of_length (parentBytes f key flags) hys
  have hhalf : leftLen (2 ^ (i + 1)) = 2 ^ i := by
    rw [Nat.pow_succ, Nat.mul_two]
    exact leftLen_eq hipos le_rfl
  rw [hhalf, hpair] at htop
  generalize chunkBytes f key flags (ctr + UInt64.ofNat n) block = ys at *
  have hleft : (ys.take (2 ^ i)).length = 2 ^ i := by
    rw [List.length_take, hys, Nat.pow_succ]
    omega
  have hright : (ys.drop (2 ^ i)).length = 2 ^ i := by
    rw [List.length_drop, hys, Nat.pow_succ]
    omega
  obtain ⟨st', es', hrun, hlen, hlen', hcov, hlazy⟩ :=
    h.covers.push_halves short h.lazy hleft hright (h.length_leaves.symm ▸ hdvd)
  rw [List.append_assoc, List.take_append_drop, ← hleaves] at hcov
  rw [h.length_leaves] at hrun hlen hlen'
  subst htop
  refine ⟨st', es', hrun, hlen, hlen', ?_, hcov, hlazy⟩
  rw [List.length_append, h.whole_length, hblock]
  ring

/-! ### Rolling up -/

/-- The current chunk, which is not empty, with every entry of a merged stack. -/
theorem rollup_chunk (h : Spans f key flags ctr st es n whole) (hm : Merged es)
    {chunk : List Byte} (hpos : 0 < chunk.length) (hle : chunk.length ≤ 1024) :
    st.foldl (fun acc cv => parentOf key flags cv (cvBytes f acc))
        (chunkNode f key flags (ctr + UInt64.ofNat n) chunk) =
      subtreeNode f key flags ctr (whole ++ chunk) := by
  have hleaf : RootOf (parentOf key flags) (cvBytes f)
      (chunkNode f key flags (ctr + UInt64.ofNat n) chunk)
      [cvBytes f (chunkNode f key flags (ctr + UInt64.ofNat n) chunk)] :=
    ⟨(fold_singleton _ _).symm, fun hlen => absurd hlen (by simp)⟩
  have hroot := h.covers.rootOf hm hleaf (by simp) fun e _ => Nat.two_pow_pos e
  have hsplit : chunkBytes f key flags (ctr + UInt64.ofNat n) chunk =
      [cvBytes f (chunkNode f key flags (ctr + UInt64.ofNat n) chunk)] := chunkMap_of_le _ hpos hle
  rw [← hsplit, ← h.leaves_append] at hroot
  rcases List.eq_nil_or_concat st with rfl | ⟨_, _, hst⟩
  · obtain ⟨rfl, rfl⟩ := h.of_nil
    rw [subtreeNode, treeNode_of_le _ _ _ _ (by simpa using hle), List.foldl_nil]
    simp
  · have hn := h.pos_of_ne_nil (by rw [hst]; simp)
    have hlong : 1024 < (whole ++ chunk).length := by
      rw [List.length_append, h.whole_length]
      omega
    rw [hroot.node (by rw [length_chunkBytes]; omega), subtreeNode, treeNode_of_lt _ _ _ _ hlong]
    rfl

/-- The top two entries of a lazy stack make the first parent. -/
theorem rollup_pair {left right : CVBytes}
    (h : Spans f key flags ctr (right :: left :: st) es n whole) :
    st.foldl (fun acc cv => parentOf key flags cv (cvBytes f acc)) (parentOf key flags left right) =
      subtreeNode f key flags ctr whole := by
  have hroot : RootOf (parentOf key flags) (cvBytes f) _ _ := Covers.rootOf_lazy h.covers h.lazy
  have hle := length_le_weight es
  have hlen := h.whole_length
  rw [h.weight_eq, ← h.covers.length_eq, List.length_cons, List.length_cons] at hle
  rw [hroot.node (by rw [h.length_leaves]; omega), subtreeNode, treeNode_of_lt _ _ _ _ (by omega)]
  rfl

end Spans

end Blake3
