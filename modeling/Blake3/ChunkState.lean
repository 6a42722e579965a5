import Blake3.Portable

/-!
The chunk state of `c/blake3.c` and `src/lib.rs`. The two are one algorithm:
they differ in what an addition that overflows does and in the debug
assertions, both of which the build decides. However the input of a chunk is
split, the state that is reached is the one of its pending blocks.
-/

namespace Blake3

structure ChunkState where
  cv : CVWords
  chunkCounter : UInt64
  buf : Block
  bufLen : ℕ
  blocksCompressed : ℕ
  flags : Byte

namespace ChunkState

def new (key : CVWords) (chunkCounter : UInt64) (flags : Byte) : ChunkState :=
  { cv := key, chunkCounter := chunkCounter, buf := Vector.replicate 64 0, bufLen := 0,
    blocksCompressed := 0, flags := flags }

/-- The number of bytes read (`chunk_state_len`, `count`). -/
def count (self : ChunkState) : ℕ := 64 * self.blocksCompressed + self.bufLen

/-- Copy input into the buffer; what does not fit is returned. -/
def fillBuf (b : Build) (self : ChunkState) (input : List Byte) :
    Result (ChunkState × List Byte) := do
  if self.bufLen ≤ 64 then
    let take := min (64 - self.bufLen) input.length
    let bufLen ← b.addU8 self.bufLen take
    return ({ self with buf := writeAt self.buf self.bufLen (input.take take), bufLen := bufLen },
      input.drop take)
  else throw .outOfBounds

def startFlag (self : ChunkState) : Byte :=
  if self.blocksCompressed = 0 then ByteFlag.chunkStart else 0

/-- Compress a buffer that is known to be full, and clear it. -/
def compressBuf (f : Compress) (b : Build) (self : ChunkState) : Result ChunkState := do
  b.debugAssert (self.bufLen = 64)
  let cv := compressInPlace f self.cv self.buf 64 self.chunkCounter (self.flags ||| self.startFlag)
  let blocksCompressed ← b.addU8 self.blocksCompressed 1
  return { self with
    cv := cv, bufLen := 0, buf := Vector.replicate 64 0, blocksCompressed := blocksCompressed }

/-- Fill a buffer that is not empty, and compress it when more input follows. -/
def finishBuf (f : Compress) (b : Build) (self : ChunkState) (input : List Byte) :
    Result (ChunkState × List Byte) := do
  if 0 < self.bufLen then
    let (self, input) ← fillBuf b self input
    if input = [] then return (self, input)
    else
      let self ← compressBuf f b self
      return (self, input)
  else return (self, input)

/-- Compress blocks directly from the input while more input follows. -/
def compressBlocks (f : Compress) (b : Build) (self : ChunkState) (input : List Byte) :
    Result (ChunkState × List Byte) := do
  if 64 < input.length then
    b.debugAssert (self.bufLen = 0)
    let cv := compressInPlace f self.cv (blockOfBytes (input.take 64)) 64 self.chunkCounter
      (self.flags ||| self.startFlag)
    let blocksCompressed ← b.addU8 self.blocksCompressed 1
    compressBlocks f b { self with cv := cv, blocksCompressed := blocksCompressed } (input.drop 64)
  else return (self, input)
termination_by input.length
decreasing_by
  simp only [List.length_drop]
  omega

def update (f : Compress) (b : Build) (self : ChunkState) (input : List Byte) :
    Result ChunkState := do
  let (self, input) ← finishBuf f b self input
  let (self, input) ← compressBlocks f b self input
  let (self, input) ← fillBuf b self input
  b.debugAssert (input = [])
  b.debugAssert (self.count ≤ 1024)
  return self

def output (self : ChunkState) : Output :=
  { inputChainingValue := self.cv, block := self.buf, blockLen := self.bufLen,
    counter := self.chunkCounter,
    flags := self.flags ||| self.startFlag ||| ByteFlag.chunkEnd }

/-! ### The state of a pending chunk -/

/-- The chunk state in which a chunk has been read as far as `p`. -/
def ofPending (ctr : UInt64) (flags : Byte) (p : Pending) : ChunkState :=
  { cv := p.cv, chunkCounter := ctr, buf := blockOfBytes p.rest, bufLen := p.rest.length,
    blocksCompressed := p.blocks, flags := flags }

variable (f : Compress) (b : Build) (flags : Byte) (ctr : UInt64)

theorem new_eq_ofPending (key : CVWords) :
    new key ctr flags = ofPending ctr flags (Pending.empty key) := by
  simp [new, ofPending, Pending.empty]

@[simp] theorem count_ofPending (p : Pending) :
    (ofPending ctr flags p).count = 64 * p.blocks + p.rest.length := rfl

@[simp] theorem startFlag_ofPending (p : Pending) :
    (ofPending ctr flags p).startFlag = startFlagByte p.blocks := rfl

theorem output_ofPending (p : Pending) :
    (ofPending ctr flags p).output.node = p.node ctr flags.toUInt32 := by
  simp only [Output.node, output, startFlag_ofPending, blockNode, UInt8.toUInt32_or,
    startFlagByte_toUInt32, ByteFlag.chunkEnd_toUInt32]
  rfl

theorem fillBuf_ofPending {p : Pending} (hrest : p.rest.length ≤ 64) (input : List Byte) :
    fillBuf b (ofPending ctr flags p) input =
      .ok (ofPending ctr flags (p.extend (input.take (64 - p.rest.length))),
        input.drop (64 - p.rest.length)) := by
  rw [fillBuf, if_pos (show (ofPending ctr flags p).bufLen ≤ 64 from hrest)]
  dsimp only
  rw [b.addU8_of_lt (by simp only [ofPending]; omega), Result.ok_bind]
  simp only [ofPending, take_min_length, drop_min_length, writeAt_blockOfBytes, Pending.extend,
    List.length_append, List.length_take]
  rfl

/-- Compressing a block gives the next pending state. -/
theorem compressInPlace_eq_step {p : Pending} (rest : List Byte)
    (hrest : blockOfBytes rest = blockOfBytes p.rest) :
    compressInPlace f p.cv (blockOfBytes rest) 64 ctr (flags ||| startFlagByte p.blocks) =
      (p.step f ctr flags.toUInt32).cv := by
  simp [compressInPlace, Pending.step, cvOf, Pending.blockInput, blockNode, hrest]

theorem compressBuf_ofPending {p : Pending} (hrest : p.rest.length = 64) (hb : p.blocks < 255) :
    compressBuf f b (ofPending ctr flags p) =
      .ok (ofPending ctr flags (p.step f ctr flags.toUInt32)) := by
  have hdrop : p.rest.drop 64 = [] := List.drop_eq_nil_of_le hrest.le
  rw [compressBuf, b.debugAssert_of (show (ofPending ctr flags p).bufLen = 64 from hrest),
    Result.ok_bind]
  dsimp only
  rw [b.addU8_of_lt (by simp only [ofPending]; omega), Result.ok_bind]
  simp only [startFlag_ofPending, Pending.step, hdrop]
  rw [ofPending, compressInPlace_eq_step f flags ctr p.rest rfl]
  simp [ofPending, Pending.step]

/-- The pending chunk whose waiting bytes are still in the input. -/
def unread (p : Pending) : Pending := { p with rest := [] }

theorem unread_extend {p : Pending} (h : p.rest = []) (input : List Byte) :
    unread (p.extend input) = p := by
  obtain ⟨cv, blocks, rest⟩ := p
  obtain rfl : rest = [] := h
  rfl

theorem compressBlocks_unread (p : Pending) (hlen : 64 * p.blocks + p.rest.length ≤ 1024) :
    compressBlocks f b (ofPending ctr flags (unread p)) p.rest =
      .ok (ofPending ctr flags (unread (p.absorb f ctr flags.toUInt32)),
        (p.absorb f ctr flags.toUInt32).rest) := by
  induction p using Pending.absorb.induct f ctr flags.toUInt32 with
  | case1 p h ih =>
      have hblock : blockOfBytes (p.rest.take 64) = blockOfBytes p.rest := by
        conv_rhs => rw [← List.take_append_drop 64 p.rest]
        rw [blockOfBytes_append (by rw [List.length_take]; omega)]
      have hstep := compressInPlace_eq_step f flags ctr (p := p) (p.rest.take 64) hblock
      rw [Pending.absorb_of_lt h,
        ← ih (by simp only [Pending.step, List.length_drop]; omega)]
      rw [compressBlocks, if_pos h, b.debugAssert_of (by rfl), Result.ok_bind]
      dsimp only
      rw [b.addU8_of_lt (by simp only [ofPending, unread]; omega), Result.ok_bind]
      exact congrArg (fun cv => compressBlocks f b
        { ofPending ctr flags (unread p) with cv := cv, blocksCompressed := p.blocks + 1 }
        (p.rest.drop 64)) hstep
  | case2 p h =>
      rw [Pending.absorb_of_le (by omega), compressBlocks, if_neg h]
      rfl

/-- After the buffer has been dealt with, either everything is in it, or it is
empty and the input continues the chunk. -/
theorem finishBuf_ofPending {p : Pending} {input : List Byte} (hrest : p.rest.length ≤ 64)
    (hlen : 64 * p.blocks + p.rest.length + input.length ≤ 1024) :
    (finishBuf f b (ofPending ctr flags p) input = .ok (ofPending ctr flags (p.extend input), []) ∧
        (p.extend input).rest.length ≤ 64) ∨
      ∃ q, finishBuf f b (ofPending ctr flags p) input =
          .ok (ofPending ctr flags (unread q), q.rest) ∧
        q.absorb f ctr flags.toUInt32 = (p.extend input).absorb f ctr flags.toUInt32 ∧
        64 * q.blocks + q.rest.length ≤ 1024 := by
  by_cases hempty : p.rest.length = 0
  · -- nothing is buffered, and the whole input is still to be read
    obtain ⟨cv, blocks, rest⟩ := p
    obtain rfl : rest = [] := List.length_eq_zero_iff.mp hempty
    refine .inr ⟨{ cv := cv, blocks := blocks, rest := input }, ?_, ?_, by simpa using hlen⟩
    · rw [finishBuf, if_neg (by simp [ofPending])]
      rfl
    · simp [Pending.extend]
  · have hfill := fillBuf_ofPending b flags ctr hrest input
    have hpos : 0 < (ofPending ctr flags p).bufLen := by simp only [ofPending]; omega
    by_cases hfits : p.rest.length + input.length ≤ 64
    · left
      rw [List.take_of_length_le (by omega), List.drop_eq_nil_of_le (by omega)] at hfill
      refine ⟨?_, by rw [Pending.extend_rest, List.length_append]; exact hfits⟩
      rw [finishBuf, if_pos hpos, hfill]
      rfl
    · -- the buffer is filled to a block that is not the last
      right
      have hlong : 64 < (p.extend input).rest.length := by
        rw [Pending.extend_rest, List.length_append]
        omega
      have hfull : (p.extend (input.take (64 - p.rest.length))).rest.length = 64 := by
        rw [Pending.extend_rest, List.length_append, List.length_take]
        omega
      have hne : ¬input.drop (64 - p.rest.length) = [] := by
        rw [List.drop_eq_nil_iff]
        omega
      have hsplit : p.extend input = (p.extend (input.take (64 - p.rest.length))).extend
          (input.drop (64 - p.rest.length)) := by
        rw [← Pending.extend_append, List.take_append_drop]
      have hnil : ((p.extend (input.take (64 - p.rest.length))).step f ctr flags.toUInt32).rest =
          [] := List.drop_eq_nil_of_le hfull.le
      refine ⟨(p.extend input).step f ctr flags.toUInt32, ?_, (Pending.absorb_of_lt hlong).symm, ?_⟩
      · rw [finishBuf, if_pos hpos, hfill, Result.ok_bind]
        dsimp only
        rw [if_neg hne, compressBuf_ofPending f b flags ctr hfull
          (by simp only [Pending.extend]; omega), hsplit, Pending.step_extend hfull.ge]
        rw [unread_extend hnil, Pending.extend_rest, hnil, List.nil_append]
        rfl
      · simp only [Pending.step, Pending.extend_blocks, Pending.extend_rest, List.length_drop,
          List.length_append]
        omega

/-- A chunk state reads input up to the size of a chunk. -/
theorem update_ofPending {p : Pending} {input : List Byte} (hrest : p.rest.length ≤ 64)
    (hlen : 64 * p.blocks + p.rest.length + input.length ≤ 1024) :
    update f b (ofPending ctr flags p) input =
      .ok (ofPending ctr flags ((p.extend input).absorb f ctr flags.toUInt32)) := by
  -- what is left in the input at the end is copied into an empty buffer
  have hlast : ∀ q : Pending, q.rest.length ≤ 64 →
      fillBuf b (ofPending ctr flags (unread q)) q.rest = .ok (ofPending ctr flags q, []) := by
    intro q hq
    rw [fillBuf_ofPending b flags ctr (by simp [unread])]
    simp [unread, Pending.extend, List.take_of_length_le hq, List.drop_eq_nil_of_le hq]
  have hcount := Pending.absorb_count f ctr flags.toUInt32 (p.extend input)
  have hlength := Pending.length_absorb f ctr flags.toUInt32 (p.extend input)
  rw [Pending.extend_blocks, Pending.extend_rest, List.length_append] at hcount
  rcases finishBuf_ofPending f b flags ctr hrest hlen with ⟨hbuf, hfits⟩ | ⟨q, hbuf, hq, hqlen⟩
  · have hfill := fillBuf_ofPending b flags ctr hfits []
    rw [List.take_nil, List.drop_nil, Pending.extend_nil] at hfill
    rw [Pending.absorb_of_le hfits] at hcount ⊢
    rw [update, hbuf, Result.ok_bind]
    dsimp only
    rw [compressBlocks, if_neg (by simp), Result.pure_eq, Result.ok_bind]
    dsimp only
    rw [hfill, Result.ok_bind]
    dsimp only
    rw [b.debugAssert_of rfl, Result.ok_bind, b.debugAssert_of (by rw [count_ofPending]; omega)]
    rfl
  · rw [update, hbuf, Result.ok_bind]
    dsimp only
    rw [compressBlocks_unread f b flags ctr q hqlen, Result.ok_bind]
    dsimp only
    rw [hq, hlast _ hlength, Result.ok_bind]
    dsimp only
    rw [b.debugAssert_of rfl, Result.ok_bind, b.debugAssert_of (by rw [count_ofPending]; omega)]
    rfl

/-- A chunk read from the start, in two parts. -/
theorem update_pendingOf (key : CVWords) (chunk input : List Byte)
    (hlen : chunk.length + input.length ≤ 1024) :
    update f b (ofPending ctr flags (pendingOf f key flags.toUInt32 ctr chunk)) input =
      .ok (ofPending ctr flags (pendingOf f key flags.toUInt32 ctr (chunk ++ input))) := by
  rw [update_ofPending f b flags ctr (length_rest_pendingOf _ _ _ _ _)
    (by rw [length_pendingOf]; exact hlen), pendingOf_append]

/-- A whole chunk of its own. -/
theorem update_new (key : CVWords) {chunk : List Byte} (hlen : chunk.length ≤ 1024) :
    update f b (new key ctr flags) chunk =
      .ok (ofPending ctr flags (pendingOf f key flags.toUInt32 ctr chunk)) := by
  have h := update_pendingOf f b flags ctr key [] chunk (by simpa using hlen)
  rwa [pendingOf_nil, ← new_eq_ofPending, List.nil_append] at h

/-! ### Flags never change -/

section Frame

variable {f b} {self self' : ChunkState} {input rest : List Byte}

theorem fillBuf_flags (h : fillBuf b self input = .ok (self', rest)) :
    self'.flags = self.flags := by
  unfold fillBuf at h
  split at h
  · obtain ⟨_, -, h⟩ := Result.bind_eq_ok.mp h
    cases h
    rfl
  · cases h

theorem compressBuf_flags (h : compressBuf f b self = .ok self') : self'.flags = self.flags := by
  obtain ⟨_, -, h⟩ := Result.bind_eq_ok.mp h
  obtain ⟨_, -, h⟩ := Result.bind_eq_ok.mp h
  cases h
  rfl

theorem finishBuf_flags (h : finishBuf f b self input = .ok (self', rest)) :
    self'.flags = self.flags := by
  unfold finishBuf at h
  split at h
  · obtain ⟨⟨filled, _⟩, hfill, h⟩ := Result.bind_eq_ok.mp h
    dsimp only at h
    split at h
    · cases h
      exact fillBuf_flags hfill
    · obtain ⟨_, hbuf, h⟩ := Result.bind_eq_ok.mp h
      cases h
      rw [compressBuf_flags hbuf, fillBuf_flags hfill]
  · cases h
    rfl

theorem compressBlocks_flags (h : compressBlocks f b self input = .ok (self', rest)) :
    self'.flags = self.flags := by
  induction hn : input.length using Nat.strong_induction_on generalizing self input with
  | _ n ih =>
    rw [compressBlocks] at h
    split at h
    · obtain ⟨_, -, h⟩ := Result.bind_eq_ok.mp h
      obtain ⟨_, -, h⟩ := Result.bind_eq_ok.mp h
      have hrest := ih (input.drop 64).length (by rw [List.length_drop]; omega) h rfl
      exact hrest
    · cases h
      rfl

theorem update_flags (h : update f b self input = .ok self') : self'.flags = self.flags := by
  obtain ⟨⟨_, _⟩, hfinish, h⟩ := Result.bind_eq_ok.mp h
  obtain ⟨⟨_, _⟩, hblocks, h⟩ := Result.bind_eq_ok.mp h
  obtain ⟨⟨_, _⟩, hfill, h⟩ := Result.bind_eq_ok.mp h
  obtain ⟨_, -, h⟩ := Result.bind_eq_ok.mp h
  obtain ⟨_, -, h⟩ := Result.bind_eq_ok.mp h
  cases h
  rw [fillBuf_flags hfill, compressBlocks_flags hblocks, finishBuf_flags hfinish]

end Frame

end ChunkState

end Blake3
