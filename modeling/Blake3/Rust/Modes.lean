import Blake3.ReferenceTree
import Blake3.Rust.HasherTree

/-!
The three hash modes of `src/lib.rs`. However the input is split into updates,
the incremental hasher ends at the root node that the reference implementation
computes, and hashing the input all at once ends there too.
-/

namespace Blake3.Rust

/-! ### Modes -/

inductive HashMode where
  | hash
  | keyedHash (key : CVBytes)
  | deriveKey (context : List Byte)

namespace HashMode

/-- A context string fits in memory. -/
def Fits : HashMode → Prop
  | .hash => True
  | .keyedHash _ => True
  | .deriveKey context => context.length < 2 ^ 63

/-- The incremental hasher of a mode. -/
def hasher (f : Compress) (b : Build) (simd : Simd) : HashMode → Result Hasher
  | .hash => return Hasher.new
  | .keyedHash key => return Hasher.newKeyed key
  | .deriveKey context => Hasher.newDeriveKey f b simd context

/-- The reference hasher of a mode. -/
def referenceHasher (f : Compress) : HashMode → Reference.Traced Reference.Hasher
  | .hash => return Reference.Hasher.new
  | .keyedHash key => return Reference.Hasher.newKeyed key
  | .deriveKey context => Reference.Hasher.newDeriveKey f context

/-- The input hashed all at once in a mode, with any join. -/
def hashWithJoin (f : Compress) (b : Build) (simd : Simd) (join : Join) (input : List Byte) :
    HashMode → Result CVBytes
  | .hash => do rootHash f b (← hashAllAtOnce f b simd join iv 0 input)
  | .keyedHash key => do
      rootHash f b (← hashAllAtOnce f b simd join (wordsFromLeBytes32 key) ByteFlag.keyedHash input)
  | .deriveKey context => do
      let contextKey ← hashDeriveKeyContext f b simd context
      rootHash f b (← hashAllAtOnce f b simd join (wordsFromLeBytes32 contextKey)
        ByteFlag.deriveKeyMaterial input)

example (f : Compress) (b : Build) (simd : Simd) (context input : List Byte) :
    hashWithJoin f b simd .serial input (.deriveKey context) =
      Rust.deriveKey f b simd context input := rfl

/-- The key words that a mode starts from. -/
def keyWords (f : Compress) : HashMode → CVWords
  | .hash => iv
  | .keyedHash key => wordsFromLeBytes32 key
  | .deriveKey context =>
      let root := rootNode f iv Flag.deriveKeyContext context
      first8Words (f { root with counter := 0, flags := root.flags ||| Flag.root })

def flags : HashMode → Byte
  | .hash => 0
  | .keyedHash _ => ByteFlag.keyedHash
  | .deriveKey _ => ByteFlag.deriveKeyMaterial

end HashMode

variable (f : Compress) (b : Build) (simd : Simd) (join : Join)

theorem hashDeriveKeyContext_eq {context : List Byte} (hlen : context.length < 2 ^ 63) :
    hashDeriveKeyContext f b simd context =
      .ok (leBytesFromWords32 (HashMode.keyWords f (.deriveKey context))) := by
  obtain ⟨o, hrun, hctr, hnode⟩ := hashAllAtOnce_eq f b simd .serial iv ByteFlag.deriveKeyContext
    context (by omega)
  obtain ⟨h, hroot, hbytes⟩ := rootHash_eq f b hctr
  rw [hnode, streamBytes_hash, Vector.toList_inj] at hbytes
  rw [hashDeriveKeyContext, hrun, Result.ok_bind, hroot, hbytes]
  rfl

namespace HashMode

theorem hasher_eq {mode : HashMode} (hfits : mode.Fits) :
    mode.hasher f b simd = .ok (Hasher.newInternal (mode.keyWords f) mode.flags) := by
  cases mode with
  | hash => rfl
  | keyedHash key => rfl
  | deriveKey context =>
      rw [hasher, Hasher.newDeriveKey, hashDeriveKeyContext_eq f b simd hfits, Result.ok_bind,
        Hasher.newFromContextKey, words_leBytes32]
      rfl

theorem run_referenceHasher {mode : HashMode} (hfits : mode.Fits) (L : List CompressInput) :
    ∃ L', (mode.referenceHasher f).run L =
      .ok (Reference.Hasher.newInternal (mode.keyWords f) mode.flags.toUInt32, L') := by
  cases mode with
  | hash => exact ⟨L, rfl⟩
  | keyedHash key => exact ⟨L, rfl⟩
  | deriveKey context =>
      have hlen : context.length < 2 ^ 63 := hfits
      obtain ⟨L', hrun⟩ := Reference.run_hash f iv Flag.deriveKeyContext
        (by omega : context.length ≤ 2 ^ 64) 32 L
      refine ⟨L', ?_⟩
      rw [streamBytes_hash] at hrun
      rw [referenceHasher, Reference.Hasher.newDeriveKey, Reference.run_bind_ok hrun]
      have hkey : ∀ v : CVBytes, (Vector.ofFn fun i : Fin 32 => v.toList.getD i 0) = v := by
        intro v
        apply Vector.ext
        intro i hi
        simp
      dsimp only
      rw [hkey, words_leBytes32]
      rfl

/-- The root of the tree over the input, for any degree and any join. -/
theorem hashWithJoin_eq {mode : HashMode} (hfits : mode.Fits) (input : List Byte)
    (hlen : input.length + 1 < 2 ^ 64) :
    ∃ h, mode.hashWithJoin f b simd join input = .ok h ∧
      h.toList = streamBytes f (rootNode f (mode.keyWords f) mode.flags.toUInt32 input) 0 32 := by
  obtain ⟨o, hrun, hctr, hnode⟩ := hashAllAtOnce_eq f b simd join (mode.keyWords f) mode.flags
    input (by omega)
  obtain ⟨h, hroot, hbytes⟩ := rootHash_eq f b hctr
  have hall : mode.hashWithJoin f b simd join input =
      hashAllAtOnce f b simd join (mode.keyWords f) mode.flags input >>= rootHash f b := by
    cases mode with
    | hash => rfl
    | keyedHash key => rfl
    | deriveKey context =>
        rw [hashWithJoin, hashDeriveKeyContext_eq f b simd hfits, Result.ok_bind, words_leBytes32]
        rfl
  exact ⟨h, by rw [hall, hrun, Result.ok_bind, hroot], by rw [hbytes, hnode]⟩

end HashMode

/-! ### Incremental hashing -/

namespace Hasher

/-- A sequence of updates. -/
def updates (self : Hasher) (slices : List (List Byte)) : Result Hasher :=
  slices.foldlM (updateWithJoin f b simd join) self

variable {f b key flags i}

theorem updates_eq {s : Hasher} {bytes : List Byte} (h : Reads f key flags i s bytes)
    (slices : List (List Byte)) (hroom : Room i (bytes ++ slices.flatten).length) :
    ∃ s', s.updates f b simd join slices = .ok s' ∧
      Reads f key flags i s' (bytes ++ slices.flatten) := by
  induction slices generalizing s bytes with
  | nil => exact ⟨s, rfl, by rwa [List.flatten_nil, List.append_nil]⟩
  | cons slice slices ih =>
      rw [List.flatten_cons, ← List.append_assoc] at hroom ⊢
      obtain ⟨s₁, hstep, hreads⟩ := updateWithJoin_eq (b := b) simd join h slice
        (hroom.mono (List.prefix_append _ _).length_le)
      obtain ⟨s', hrun, hreads'⟩ := ih hreads hroom
      refine ⟨s', ?_, hreads'⟩
      rw [updates, List.foldlM_cons, hstep]
      exact hrun

/-- What a hasher without an offset returns. -/
theorem finalize_eq {s : Hasher} {bytes : List Byte} (h : Reads f key flags 0 s bytes)
    (hlen : bytes.length < 2 ^ 64) :
    ∃ o hash, finalOutput f b s = .ok o ∧ o.node = rootNode f key flags.toUInt32 bytes ∧
      finalize f b s = .ok hash ∧ hash.toList = streamBytes f o.node 0 32 ∧
      finalizeXof f b s = .ok (OutputReader.new o) ∧ o.counter = 0 := by
  obtain ⟨o, hrun, hctr, hnode⟩ := finalOutput_eq (b := b) h ⟨by omega, .inl rfl⟩
  obtain ⟨hash, hroot, hbytes⟩ := rootHash_eq f b (hctr rfl)
  have hassert : assertNoOffset s = .ok () := if_pos h.keyed.initial_eq
  refine ⟨o, hash, hrun, ?_, ?_, hbytes, ?_, hctr rfl⟩
  · rw [hnode, rootNode_eq_subtreeNode]
    rfl
  · rw [finalize, hassert, Result.ok_bind, hrun, Result.ok_bind, hroot]
  · rw [finalizeXof, hassert, Result.ok_bind, hrun]
    rfl

end Hasher

/-! ### Agreement -/

/-- In every mode, whatever slices are given to `update`, finalization reaches
the root output of the reference implementation, and with it the same hash and
the same output stream. -/
theorem updates_agree_with_reference (mode : HashMode) (hfits : mode.Fits)
    (slices : List (List Byte)) (hlen : slices.flatten.length < 2 ^ 64) :
    ∃ s reference o hash, (mode.hasher f b simd >>= (·.updates f b simd join slices)) = .ok s ∧
      (∃ log, (mode.referenceHasher f).run [] = .ok (reference, log)) ∧
      (∃ log, (reference.update f slices.flatten >>= Reference.Hasher.rootOutput f).run [] =
        .ok (o.node, log)) ∧
      s.finalOutput f b = .ok o ∧ s.finalize f b = .ok hash ∧
      (∃ log, (Reference.hash f reference slices.flatten 32).run [] = .ok (hash.toList, log)) ∧
      s.finalizeXof f b = .ok (OutputReader.new o) ∧
      ∀ outLen, outLen < 2 ^ 64 → ∃ bytes reader log,
        (OutputReader.new o).fill f b outLen = .ok (bytes, reader) ∧
        (Reference.hash f reference slices.flatten outLen).run [] = .ok (bytes, log) := by
  have hstart := Hasher.reads_newInternal f (mode.keyWords f) mode.flags
  obtain ⟨s, hrun, hreads⟩ := Hasher.updates_eq (b := b) simd join hstart slices
    ⟨by rw [List.nil_append]; omega, .inl rfl⟩
  rw [List.nil_append] at hreads
  obtain ⟨o, hash, hout, hnode, hhash, hbytes, hxof, hctr⟩ :=
    Hasher.finalize_eq (b := b) hreads hlen
  obtain ⟨_, href⟩ := HashMode.run_referenceHasher f hfits []
  have horef : ∀ outLen, ∃ log, (Reference.hash f
      (.newInternal (mode.keyWords f) mode.flags.toUInt32) slices.flatten outLen).run [] =
        .ok (streamBytes f o.node 0 outLen, log) := by
    intro outLen
    rw [hnode]
    exact Reference.run_hash f _ _ hlen.le outLen []
  refine ⟨s, _, o, hash, ?_, ⟨_, href⟩, ?_, hout, hhash, ?_, hxof, ?_⟩
  · rw [HashMode.hasher_eq f b simd hfits, Result.ok_bind, hrun]
  · rcases Reference.run_update (Reference.reads_newInternal f (mode.keyWords f) mode.flags.toUInt32
      []) slices.flatten with ⟨-, hlong⟩ | ⟨t, L, hupdate, ht⟩
    · rw [List.nil_append] at hlong
      omega
    · obtain ⟨L', hroot, -⟩ := Reference.run_rootOutput ht
      refine ⟨L', ?_⟩
      rw [Reference.run_bind_ok hupdate, hroot, hnode]
      rfl
  · rw [hbytes]
    exact horef 32
  · intro outLen houtLen
    obtain ⟨log, hlog⟩ := horef outLen
    have hzero : OutputReader.new o = OutputReader.atPosition o 0 := by
      rw [OutputReader.new_eq_atPosition, hctr]
      rfl
    have hfill := OutputReader.fill_eq f b o (p := 0) ((Nat.zero_add outLen).symm ▸ houtLen)
    rw [← hzero] at hfill
    exact ⟨_, _, log, hfill, hlog⟩

theorem updates_agree_with_reference_keyed :
    ∃ s hash reference log, (HashMode.hasher compress .wrapping .portable
        (.keyedHash (Vector.replicate 32 7)) >>=
          (·.updates compress .wrapping .portable .rightFirst [[1, 2], [3]])) = .ok s ∧
      s.finalize compress .wrapping = .ok hash ∧
      (Reference.hash compress reference [1, 2, 3] 32).run [] = .ok (hash.toList, log) := by
  obtain ⟨s, reference, o, hash, hrun, -, -, -, hhash, ⟨log, href⟩, -⟩ :=
    updates_agree_with_reference compress .wrapping .portable .rightFirst
      (.keyedHash (Vector.replicate 32 7)) trivial [[1, 2], [3]] (by simp)
  exact ⟨s, hash, reference, log, hrun, hhash, href⟩

/-- Hashing an input all at once gives one hash for every degree and every
join, the hash that an incremental hasher of the mode gives for the input in
any split. -/
theorem hashWithJoin_agrees_with_updates (mode : HashMode) (hfits : mode.Fits)
    (input : List Byte) (hlen : input.length + 1 < 2 ^ 64) :
    ∃ hash, (∀ simd join, mode.hashWithJoin f b simd join input = .ok hash) ∧
      ∀ simd join slices, slices.flatten = input →
        (mode.hasher f b simd >>= (·.updates f b simd join slices) >>= Hasher.finalize f b) =
          .ok hash := by
  obtain ⟨hash, -, hbytes⟩ := HashMode.hashWithJoin_eq f b .portable .serial hfits input hlen
  refine ⟨hash, fun simd join => ?_, ?_⟩
  · obtain ⟨hash', hrun, hbytes'⟩ := HashMode.hashWithJoin_eq f b simd join hfits input hlen
    rw [hrun, Vector.toList_inj.mp (hbytes'.trans hbytes.symm)]
  · rintro simd join slices rfl
    have hstart := Hasher.reads_newInternal f (mode.keyWords f) mode.flags
    obtain ⟨s, hrun, hreads⟩ := Hasher.updates_eq (b := b) simd join hstart slices
      ⟨by rw [List.nil_append]; omega, .inl rfl⟩
    rw [List.nil_append] at hreads
    obtain ⟨o, hash', -, hnode, hhash, hbytes', -⟩ := Hasher.finalize_eq (b := b) hreads (by omega)
    rw [hnode] at hbytes'
    rw [HashMode.hasher_eq f b simd hfits, Result.ok_bind, hrun, Result.ok_bind, hhash,
      Vector.toList_inj.mp (hbytes'.trans hbytes.symm)]

theorem hashWithJoin_agrees_with_updates_derived :
    ∃ hash, HashMode.hashWithJoin compress .wrapping .portable .rightFirst [1, 2, 3]
        (.deriveKey [99]) = .ok hash ∧
      (HashMode.hasher compress .wrapping .portable (.deriveKey [99]) >>=
        (·.updates compress .wrapping .portable .serial [[1], [], [2, 3]]) >>=
          Hasher.finalize compress .wrapping) = .ok hash := by
  obtain ⟨hash, hall, hsplit⟩ := hashWithJoin_agrees_with_updates compress .wrapping
    (.deriveKey [99]) (by simp [HashMode.Fits]) [1, 2, 3] (by simp)
  exact ⟨hash, hall _ _, hsplit _ _ [[1], [], [2, 3]] rfl⟩

end Blake3.Rust
