import Blake3.Rust.Modes

/-!
Hashing an input in parts with the functions of `src/hazmat.rs`. The input is
split recursively where `left_subtree_len` says, the recursion stops anywhere,
each part is hashed from its own offset, and the chaining values are merged.
Every part fits behind its offset, and the root is that of the whole input.
-/

namespace Blake3.Rust

open LeftTree

/-- A recursive partition of an input. A part that is not split further is
given to its hasher in pieces. -/
inductive Partition where
  | subtree (pieces : List (List Byte))
  | split (left right : Partition)

namespace Partition

def bytes : Partition → List Byte
  | .subtree pieces => pieces.flatten
  | .split left right => left.bytes ++ right.bytes

/-- Every split is the one of `left_subtree_len`. -/
def SplitsLeft (b : Build) : Partition → Prop
  | .subtree _ => True
  | .split left right =>
      1024 < left.bytes.length + right.bytes.length ∧
      leftSubtreeLen b (UInt64.ofNat (left.bytes.length + right.bytes.length)) =
        .ok (UInt64.ofNat left.bytes.length) ∧
      left.SplitsLeft b ∧ right.SplitsLeft b

/-- The parts that are not split further, with their offsets. -/
def subtrees : Partition → ℕ → List (ℕ × List Byte)
  | .subtree pieces, offset => [(offset, pieces.flatten)]
  | .split left right, offset =>
      left.subtrees offset ++ right.subtrees (offset + left.bytes.length)

section

variable (f : Compress) (b : Build) (simd : Simd) (join : Join) (hasher : Hasher) (mode : Mode)

/-- The chaining value of a part at an offset. -/
def chainingValue : Partition → ℕ → Result CVBytes
  | .subtree pieces, offset => do
      let hasher ← hasher.setInputOffset b (UInt64.ofNat offset)
      let hasher ← hasher.updates f b simd join pieces
      hasher.finalizeNonRoot f b
  | .split left right, offset => do
      let leftCv ← left.chainingValue offset
      let rightCv ← right.chainingValue (offset + left.bytes.length)
      return mergeSubtreesNonRoot f leftCv rightCv mode

/-- The hash of an input that is split once at least. -/
def rootHash (left right : Partition) : Result CVBytes := do
  let leftCv ← left.chainingValue f b simd join hasher mode 0
  let rightCv ← right.chainingValue f b simd join hasher mode left.bytes.length
  mergeSubtreesRoot f b leftCv rightCv mode

/-- The extended output of an input that is split once at least. -/
def rootXof (left right : Partition) : Result OutputReader := do
  let leftCv ← left.chainingValue f b simd join hasher mode 0
  let rightCv ← right.chainingValue f b simd join hasher mode left.bytes.length
  return mergeSubtreesRootXof leftCv rightCv mode

end

/-! ### One split -/

/-- Both sides of a split have room where they start. -/
theorem room_split {b : Build} {i l r : ℕ} (hroom : Room i (l + r)) (hlong : 1024 < l + r)
    (hlen : l + r + 1 < 2 ^ 64)
    (hsplit : leftSubtreeLen b (UInt64.ofNat (l + r)) = .ok (UInt64.ofNat l)) :
    l = 1024 * leftLen ((l + r + 1023) / 1024) ∧ 0 < r ∧ Room i l ∧ Room (i + l / 1024) r := by
  have hbelow := hroom.below
  have hlt := leftLen_lt (n := (l + r + 1023) / 1024) (by omega)
  have hle := le_two_mul_leftLen ((l + r + 1023) / 1024)
  obtain ⟨j, hj⟩ := exists_leftLen ((l + r + 1023) / 1024)
  rw [leftSubtreeLen_eq b hlong hlen] at hsplit
  have hl : l = 1024 * leftLen ((l + r + 1023) / 1024) := by
    have heq := congrArg UInt64.toNat (Except.ok.inj hsplit)
    rw [toNat_ofNat64 (by omega), toNat_ofNat64 (by omega)] at heq
    exact heq.symm
  have hchunks : l / 1024 = 2 ^ j := by omega
  refine ⟨hl, by omega, hroom.mono (by omega), ?_⟩
  rw [hchunks]
  refine ⟨by omega, .inr ⟨j, ?_, by omega⟩⟩
  rcases hroom.aligned with rfl | ⟨k, hk, htotal⟩
  · exact Nat.dvd_add (Nat.dvd_zero _) (Nat.dvd_refl _)
  · -- the left side is smaller than what may start here
    have hpow : 2 ^ j ≤ 2 ^ k := by omega
    have hjk : j ≤ k := (Nat.pow_le_pow_iff_right (by omega)).mp hpow
    exact Nat.dvd_add ((Nat.pow_dvd_pow 2 hjk).trans hk) (Nat.dvd_refl _)

variable (f : Compress) (b : Build) (simd : Simd) (join : Join) (key : CVWords) (flags : Byte)

/-- A node is made of the chaining values of its two sides. -/
theorem subtreeNode_split {i : ℕ} {left right : List Byte}
    (hleft : left.length = 1024 * leftLen ((left.length + right.length + 1023) / 1024))
    (hlong : 1024 < left.length + right.length) :
    subtreeNode f key flags.toUInt32 (UInt64.ofNat i) (left ++ right) =
      parentOf key flags.toUInt32
        (cvBytes f (subtreeNode f key flags.toUInt32 (UInt64.ofNat i) left))
        (cvBytes f
          (subtreeNode f key flags.toUInt32 (UInt64.ofNat (i + left.length / 1024)) right)) := by
  have hchunks : left.length / 1024 = leftLen ((left.length + right.length + 1023) / 1024) := by
    omega
  have hsplit := treeNode_split (chunkNode f key flags.toUInt32) (parentOf key flags.toUInt32)
    (cvBytes f) (UInt64.ofNat i) (left ++ right)
    (by rw [List.length_append]; exact hlong) (by rw [List.length_append])
  rw [← hleft, List.take_left, List.drop_left, ← UInt64.ofNat_add, ← hchunks] at hsplit
  exact hsplit

/-! ### All splits -/

/-- Each part that is not split further fits behind its offset. -/
theorem subtrees_fit {p : Partition} {i : ℕ} (hsplits : p.SplitsLeft b)
    (hroom : Room i p.bytes.length) (hlen : p.bytes.length + 1 < 2 ^ 64) :
    ∀ part ∈ p.subtrees (i * 1024), ∃ j, part.1 = j * 1024 ∧ Room j part.2.length := by
  induction p generalizing i with
  | subtree pieces =>
      intro part hpart
      obtain rfl := List.mem_singleton.mp hpart
      exact ⟨i, rfl, hroom⟩
  | split left right ihLeft ihRight =>
      obtain ⟨hlong, hat, hleft, hright⟩ := hsplits
      rw [bytes, List.length_append] at hroom hlen
      obtain ⟨hl, -, hroomLeft, hroomRight⟩ := room_split hroom hlong hlen hat
      intro part hpart
      rw [subtrees] at hpart
      rcases List.mem_append.mp hpart with hmem | hmem
      · exact ihLeft hleft hroomLeft (by omega) part hmem
      · have hoffset : i * 1024 + left.bytes.length = (i + left.bytes.length / 1024) * 1024 := by
          omega
        rw [hoffset] at hmem
        exact ihRight hright hroomRight (by omega) part hmem

/-- The chaining value of a part is that of the subtree over its bytes. -/
theorem chainingValue_eq {mode : Mode} (hkey : mode.keyWords = key)
    (hflags : mode.flagsByte = flags)
    {p : Partition} {i : ℕ} (hsplits : p.SplitsLeft b) (hroom : Room i p.bytes.length)
    (hlen : p.bytes.length + 1 < 2 ^ 64) (hpos : 0 < p.bytes.length) :
    p.chainingValue f b simd join (.newInternal key flags) mode (i * 1024) =
      .ok (cvBytes f (subtreeNode f key flags.toUInt32 (UInt64.ofNat i) p.bytes)) := by
  induction p generalizing i with
  | subtree pieces =>
      have hbelow := hroom.below
      obtain ⟨s, hset, hstart⟩ :=
        Hasher.setInputOffset_newInternal (b := b) f key flags i (by omega)
      obtain ⟨s', hrun, hreads⟩ := Hasher.updates_eq (b := b) simd join hstart pieces
        (by rwa [List.nil_append])
      rw [List.nil_append] at hreads
      obtain ⟨o, hout, -, hnode⟩ := Hasher.finalOutput_eq (b := b) hreads hroom
      have hcount := hreads.count_eq (b := b) hroom
      have hne : UInt64.ofNat pieces.flatten.length ≠ 0 := by
        intro hzero
        have heq := congrArg UInt64.toNat hzero
        rw [toNat_ofNat64 (by rw [bytes] at hlen; omega), UInt64.toNat_zero] at heq
        rw [bytes] at hpos
        omega
      rw [chainingValue, hset, Result.ok_bind, hrun, Result.ok_bind, Hasher.finalizeNonRoot, hcount,
        Result.ok_bind, if_neg hne, hout, Result.ok_bind, Output.chainingValue_eq, hnode]
      rfl
  | split left right ihLeft ihRight =>
      obtain ⟨hlong, hat, hleft, hright⟩ := hsplits
      rw [bytes, List.length_append] at hroom hlen
      obtain ⟨hl, hrpos, hroomLeft, hroomRight⟩ := room_split hroom hlong hlen hat
      have hlpos := leftLen_pos ((left.bytes.length + right.bytes.length + 1023) / 1024)
      have hoffset : i * 1024 + left.bytes.length = (i + left.bytes.length / 1024) * 1024 := by
        omega
      rw [chainingValue, ihLeft hleft hroomLeft (by omega) (by omega), Result.ok_bind, hoffset,
        ihRight hright hroomRight (by omega) hrpos, Result.ok_bind, mergeSubtreesNonRoot,
        mergeSubtreesInner, hkey, hflags, chainingValue_parentNodeOutput, bytes,
        subtreeNode_split f key flags hl hlong]
      rfl

end Partition

/-! ### The whole input -/

/-- The mode for merging the subtrees of a hash mode. -/
def HashMode.subtreeMode (f : Compress) (b : Build) (simd : Simd) : HashMode → Result Mode
  | .hash => return .hash
  | .keyedHash key => return .keyedHash key
  | .deriveKey context => do
      let contextKey ← hashDeriveKeyContext f b simd context
      return .deriveKeyMaterial contextKey

theorem HashMode.subtreeMode_eq (f : Compress) (b : Build) (simd : Simd) {mode : HashMode}
    (hfits : mode.Fits) :
    ∃ m, mode.subtreeMode f b simd = .ok m ∧ m.keyWords = mode.keyWords f ∧
      m.flagsByte = mode.flags := by
  cases mode with
  | hash => exact ⟨_, rfl, rfl, rfl⟩
  | keyedHash key => exact ⟨_, rfl, rfl, rfl⟩
  | deriveKey context =>
      rw [subtreeMode, hashDeriveKeyContext_eq f b simd hfits]
      exact ⟨_, rfl, words_leBytes32 _, rfl⟩

namespace Partition

/-- However an input of more than one chunk is partitioned where
`left_subtree_len` says, in every mode each part keeps to the maximum length
for its offset, nothing panics, and merging gives the hash and the output
stream of the whole input. -/
theorem rootHash_eq_hash (f : Compress) (b : Build) (simd : Simd) (join : Join) (mode : HashMode)
    (hfits : mode.Fits) (left right : Partition) (hsplits : (split left right).SplitsLeft b)
    (hlen : (split left right).bytes.length + 1 < 2 ^ 64) :
    (∀ part ∈ (split left right).subtrees 0,
      maxSubtreeLen b (UInt64.ofNat part.1) = .ok none ∨
        ∃ max, maxSubtreeLen b (UInt64.ofNat part.1) = .ok (some max) ∧
          part.2.length ≤ max.toNat) ∧
    ∃ hasher m hash reader whole,
      mode.hasher f b simd = .ok hasher ∧ mode.subtreeMode f b simd = .ok m ∧
      left.rootHash f b simd join hasher m right = .ok hash ∧
      mode.hashWithJoin f b simd .serial (split left right).bytes = .ok hash ∧
      left.rootXof f b simd join hasher m right = .ok reader ∧
      (hasher.update f b simd (split left right).bytes >>= Hasher.finalizeXof f b) = .ok whole ∧
      ∀ (pos : UInt64) (outLen : ℕ), pos.toNat + outLen < 2 ^ 64 → ∃ bytes r r',
        (reader.setPosition pos).fill f b outLen = .ok (bytes, r) ∧
        (whole.setPosition pos).fill f b outLen = .ok (bytes, r') := by
  have hroom : Room 0 (split left right).bytes.length := ⟨by omega, .inl rfl⟩
  refine ⟨fun part hpart => ?_, ?_⟩
  · obtain ⟨j, hj, hroom'⟩ := subtrees_fit b hsplits hroom (by omega) part hpart
    rw [hj]
    rcases hroom'.le_maxSubtreeLen b with hnone | ⟨max, hsome, hmax, hle⟩
    · exact .inl hnone
    · exact .inr ⟨_, hsome, by rwa [toNat_ofNat64 hmax]⟩
  · obtain ⟨m, hm, hkey, hflags⟩ := mode.subtreeMode_eq f b simd hfits
    obtain ⟨hlong, hat, hleft, hright⟩ := hsplits
    have hbytes : (split left right).bytes = left.bytes ++ right.bytes := rfl
    rw [hbytes] at hroom hlen ⊢
    rw [List.length_append] at hroom hlen
    obtain ⟨hl, hrpos, hroomLeft, hroomRight⟩ := room_split hroom hlong (by omega) hat
    have hlpos := leftLen_pos ((left.bytes.length + right.bytes.length + 1023) / 1024)
    have hoffset : left.bytes.length = (0 + left.bytes.length / 1024) * 1024 := by omega
    have hleftCv := chainingValue_eq f b simd join (mode.keyWords f) mode.flags hkey hflags hleft
      hroomLeft (by omega) (by omega)
    have hrightCv := chainingValue_eq f b simd join (mode.keyWords f) mode.flags hkey hflags hright
      hroomRight (by omega) hrpos
    rw [Nat.zero_mul] at hleftCv
    rw [← hoffset] at hrightCv
    have hnode := subtreeNode_split f (mode.keyWords f) mode.flags (i := 0) hl hlong
    -- the root that is merged is that of the whole input
    generalize cvBytes f (subtreeNode f _ _ (UInt64.ofNat 0) left.bytes) = leftCv at *
    generalize cvBytes f (subtreeNode f _ _ _ right.bytes) = rightCv at *
    have hroot : (mergeSubtreesInner leftCv rightCv m).node =
        rootNode f (mode.keyWords f) mode.flags.toUInt32 (left.bytes ++ right.bytes) := by
      rw [mergeSubtreesInner, hkey, hflags, node_parentNodeOutput, ← hnode, rootNode_eq_subtreeNode]
      rfl
    obtain ⟨hash, hrun, hhash⟩ :=
      Rust.rootHash_eq f b (o := mergeSubtreesInner leftCv rightCv m) rfl
    obtain ⟨hash', hall, hhash'⟩ := mode.hashWithJoin_eq f b simd .serial hfits
      (left.bytes ++ right.bytes) (by rw [List.length_append]; omega)
    rw [hroot, ← hhash', Vector.toList_inj] at hhash
    subst hhash
    obtain ⟨s, hupdate, hreads⟩ := Hasher.updateWithJoin_eq (b := b) simd .serial
      (Hasher.reads_newInternal f (mode.keyWords f) mode.flags) (left.bytes ++ right.bytes)
      (by rw [List.nil_append, List.length_append]; exact hroom)
    rw [List.nil_append] at hreads
    obtain ⟨o, -, -, honode, -, -, hxof, hctr⟩ := Hasher.finalize_eq (b := b) hreads
      (by rw [List.length_append]; omega)
    refine ⟨_, m, hash, mergeSubtreesRootXof leftCv rightCv m, .new o,
      mode.hasher_eq f b simd hfits, hm, ?_, hall, ?_, ?_, ?_⟩
    · rw [rootHash, hleftCv, Result.ok_bind, hrightCv, Result.ok_bind]
      exact hrun
    · rw [rootXof, hleftCv, Result.ok_bind, hrightCv, Result.ok_bind]
      rfl
    · rw [Hasher.update, hupdate, Result.ok_bind, hxof]
    · intro pos outLen hend
      have hfill := OutputReader.fill_setPosition f b (mergeSubtreesInner leftCv rightCv m) hend
      have hfill' := OutputReader.fill_setPosition f b o hend
      rw [honode, ← hroot] at hfill'
      exact ⟨_, _, _, hfill, hfill'⟩

/-- A chunk and one more byte, each its own part. -/
theorem rootHash_eq_hash_of_two_chunks :
    ∃ hasher m hash, (HashMode.hash.hasher compress .wrapping .portable) = .ok hasher ∧
      HashMode.hash.subtreeMode compress .wrapping .portable = .ok m ∧
      rootHash compress .wrapping .portable .serial hasher m (.subtree [List.replicate 1024 0])
        (.subtree [[1]]) = .ok hash ∧
      HashMode.hash.hashWithJoin compress .wrapping .portable .serial
        (split (.subtree [List.replicate 1024 0]) (.subtree [[1]])).bytes = .ok hash := by
  have hlen : (subtree [List.replicate 1024 0]).bytes.length = 1024 := by
    rw [bytes, List.flatten_singleton, List.length_replicate]
  have hat := leftSubtreeLen_eq .wrapping (n := 1025) (by omega) (by omega)
  obtain ⟨-, hasher, m, hash, -, -, hhasher, hm, hroot, hall, -⟩ :=
    rootHash_eq_hash compress .wrapping .portable .serial .hash trivial
      (.subtree [List.replicate 1024 0]) (.subtree [[1]])
      ⟨by rw [hlen]; decide, by rw [hlen]; exact hat, trivial, trivial⟩
      (by rw [bytes, List.length_append, hlen]; decide)
  exact ⟨hasher, m, hash, hhasher, hm, hroot, hall⟩

end Partition

end Blake3.Rust
