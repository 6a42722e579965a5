import Blake3.ChunkState

/-!
The reader of extended output of `src/lib.rs`. It keeps the number of a block
and a position in that block; a read takes the rest of the current block, then
whole blocks, then the front of one more. Over all reads and seeks it behaves
as a cursor on one stream.
-/

namespace Blake3.Rust

/-! ### The reader -/

structure OutputReader where
  inner : Output
  positionWithinBlock : ℕ

inductive SeekFrom where
  | start (x : UInt64)
  | current (x : Int64)
  | fromEnd (x : Int64)
  deriving DecidableEq

/-- An error of kind `InvalidInput`. -/
structure SeekError where
  message : String
  deriving DecidableEq

namespace SeekError

def fromEnd : SeekError := ⟨"seek from end not supported"⟩
def beforeStart : SeekError := ⟨"seek before start"⟩

end SeekError

def rootOutputBlock (f : Compress) (self : Output) : Block :=
  compressXof f self.inputChainingValue self.block self.blockLen self.counter
    (self.flags ||| ByteFlag.root)

namespace OutputReader

def new (inner : Output) : OutputReader := { inner := inner, positionWithinBlock := 0 }

section

variable (f : Compress) (b : Build)

/-- The rest of the current block, or as much of it as the buffer takes. -/
def fillOneBlock (self : OutputReader) (len : ℕ) : Result (List Byte × OutputReader) := do
  let outputBlock := rootOutputBlock f self.inner
  if 64 < self.positionWithinBlock then throw .outOfBounds
  else
    let outputBytes := outputBlock.toList.drop self.positionWithinBlock
    let take := min len outputBytes.length
    let position ← b.addU8 self.positionWithinBlock take
    if position = 64 then
      let counter ← b.addU64 self.inner.counter 1
      return (outputBytes.take take,
        { inner := { self.inner with counter := counter }, positionWithinBlock := 0 })
    else return (outputBytes.take take, { self with positionWithinBlock := position })

/-- If we're partway through a block, try to get to a block boundary. -/
def fillFirst (self : OutputReader) (len : ℕ) : Result (List Byte × OutputReader) :=
  if self.positionWithinBlock ≠ 0 then fillOneBlock f b self len else .ok ([], self)

/-- As many whole blocks as fit. -/
def fillWhole (self : OutputReader) (fullBlocks : ℕ) : Result (List Byte × OutputReader) := do
  if 0 < fullBlocks then
    b.debugAssert (0 = self.positionWithinBlock)
    let bytes := xofMany f self.inner.inputChainingValue self.inner.block self.inner.blockLen
      self.inner.counter (self.inner.flags ||| ByteFlag.root) fullBlocks
    let counter ← b.addU64 self.inner.counter (UInt64.ofNat fullBlocks)
    return (bytes, { self with inner := { self.inner with counter := counter } })
  else return ([], self)

/-- The front of the next block. -/
def fillLast (self : OutputReader) (len : ℕ) : Result (List Byte × OutputReader) := do
  if len ≠ 0 then
    b.debugAssert (len < 64)
    let (bytes, self) ← fillOneBlock f b self len
    b.debugAssert (len - bytes.length = 0)
    return (bytes, self)
  else return ([], self)

/-- The bytes that a buffer of length `len` is filled with. -/
def fill (self : OutputReader) (len : ℕ) : Result (List Byte × OutputReader) := do
  if len = 0 then return ([], self)
  else
    let (first, self) ← fillFirst f b self len
    let len := len - first.length
    let (whole, self) ← fillWhole f b self (len / 64)
    let (last, self) ← fillLast f b self (len - 64 * (len / 64))
    return (first ++ whole ++ last, self)

def position (self : OutputReader) : Result UInt64 := do
  let bytes ← b.mulU64 self.inner.counter 64
  b.addU64 bytes (UInt64.ofNat self.positionWithinBlock)

def setPosition (self : OutputReader) (position : UInt64) : OutputReader :=
  { inner := { self.inner with counter := position / 64 },
    positionWithinBlock := (position % 64).toNat }

/-- A seek to a target that may lie before the start, or behind the last
position, to which it is cut. -/
def seekTo (self : OutputReader) (targetPosition : ℤ) :
    Result (Except SeekError UInt64 × OutputReader) := do
  let maxPosition : ℤ := 2 ^ 64 - 1
  if targetPosition < 0 then return (.error .beforeStart, self)
  else
    let self := self.setPosition (UInt64.ofNat (min targetPosition maxPosition).toNat)
    let position ← self.position b
    return (.ok position, self)

def seek (self : OutputReader) :
    SeekFrom → Result (Except SeekError UInt64 × OutputReader)
  | .start x => self.seekTo b x.toNat
  | .current x => do
      let position ← self.position b
      self.seekTo b (position.toNat + x.toInt)
  | .fromEnd _ => return (.error .fromEnd, self)

end

/-! ### Sequences of calls -/

inductive Call where
  | fill (len : ℕ)
  | position
  | setPosition (position : UInt64)
  | seek (pos : SeekFrom)

/-- What a call returns. -/
inductive Answer where
  | bytes (buf : List Byte)
  | position (position : UInt64)
  | unit
  | seek (result : Except SeekError UInt64)

def step (f : Compress) (b : Build) (self : OutputReader) : Call → Result (Answer × OutputReader)
  | .fill len => do
      let (buf, self) ← self.fill f b len
      return (.bytes buf, self)
  | .position => do
      let position ← self.position b
      return (.position position, self)
  | .setPosition position => return (.unit, self.setPosition position)
  | .seek pos => do
      let (result, self) ← self.seek b pos
      return (.seek result, self)

def run (f : Compress) (b : Build) (self : OutputReader) :
    List Call → Result (List Answer × OutputReader)
  | [] => return ([], self)
  | call :: calls => do
      let (answer, self) ← self.step f b call
      let (answers, self) ← run f b self calls
      return (answer :: answers, self)

end OutputReader

/-! ### A cursor on a stream

What the reader is for: a position in one infinite stream. -/

namespace Cursor

/-- Where a seek leads, when it is not rejected. -/
def target (p : ℕ) : SeekFrom → Except SeekError ℕ
  | .start x => .ok x.toNat
  | .current x =>
      if p + x.toInt < 0 then .error .beforeStart
      else .ok (min (p + x.toInt) (2 ^ 64 - 1)).toNat
  | .fromEnd _ => .error .fromEnd

/-- The position after a call: a read moves behind what it returns, and a
rejected seek does not move. -/
def move (p : ℕ) : OutputReader.Call → ℕ
  | .fill len => p + len
  | .position => p
  | .setPosition position => position.toNat
  | .seek pos =>
      match target p pos with
      | .ok q => q
      | .error _ => p

/-- What a call returns at a position of a stream. -/
def answer (stream : ℕ → Byte) (p : ℕ) : OutputReader.Call → OutputReader.Answer
  | .fill len => .bytes ((List.range' p len).map stream)
  | .position => .position (UInt64.ofNat p)
  | .setPosition _ => .unit
  | .seek pos => .seek ((target p pos).map UInt64.ofNat)

def answers (stream : ℕ → Byte) : ℕ → List OutputReader.Call → List OutputReader.Answer
  | _, [] => []
  | p, call :: calls => answer stream p call :: answers stream (move p call) calls

end Cursor

/-! ### The reader is a cursor -/

namespace OutputReader

variable (f : Compress) (b : Build) (o : Output)

/-- The reader at a position of the output stream of `o`. -/
def atPosition (p : ℕ) : OutputReader :=
  { inner := { o with counter := UInt64.ofNat (p / 64) }, positionWithinBlock := p % 64 }

theorem new_eq_atPosition : new o = atPosition o (64 * o.counter.toNat) := by
  have hdiv : 64 * o.counter.toNat / 64 = o.counter.toNat := Nat.mul_div_cancel_left _ (by omega)
  rw [atPosition, hdiv, Nat.mul_mod_right, UInt64.ofNat_toNat]
  rfl

theorem setPosition_atPosition (p : ℕ) (q : UInt64) :
    (atPosition o p).setPosition q = atPosition o q.toNat := by
  have hdiv : q / 64 = UInt64.ofNat (q.toNat / 64) := by
    have hlt := q.toNat_lt
    rw [← UInt64.toNat_inj, UInt64.toNat_div, toNat_ofNat64 (by omega)]
    rfl
  have hmod : (q % 64).toNat = q.toNat % 64 := UInt64.toNat_mod q 64
  rw [setPosition, hdiv, hmod]
  rfl

theorem position_atPosition {p : ℕ} (hp : p < 2 ^ 64) :
    (atPosition o p).position b = .ok (UInt64.ofNat p) := by
  have hsum : p / 64 * 64 + p % 64 = p := by omega
  have hmul : b.mulU64 (UInt64.ofNat (p / 64)) 64 = .ok (UInt64.ofNat (p / 64 * 64)) :=
    b.mulU64_ofNat (y := 64) (by omega) (by omega) (by omega)
  rw [position, atPosition]
  dsimp only
  rw [hmul, Result.ok_bind, b.addU64_ofNat (by omega), hsum]

/-- A read within one block. -/
theorem fillOneBlock_eq {p : ℕ} (hp : p < 2 ^ 64) (len : ℕ) :
    fillOneBlock f b (atPosition o p) len =
      .ok (streamBytes f o.node p (min len (64 - p % 64)),
        atPosition o (p + min len (64 - p % 64))) := by
  have hlen : ((rootOutputBlock f (atPosition o p).inner).toList.drop (p % 64)).length =
      64 - p % 64 := by simp
  have hbytes : ((rootOutputBlock f (atPosition o p).inner).toList.drop (p % 64)).take
      (min len (64 - p % 64)) = streamBytes f o.node p (min len (64 - p % 64)) :=
    Output.take_drop_root f o (by omega)
  have hadd : b.addU8 (p % 64) (min len (64 - p % 64)) = .ok (p % 64 + min len (64 - p % 64)) :=
    b.addU8_of_lt (by omega)
  have hpos : (atPosition o p).positionWithinBlock = p % 64 := rfl
  rw [fillOneBlock, hpos, if_neg (by omega)]
  dsimp only
  rw [hlen, hadd, Result.ok_bind, hbytes]
  by_cases hend : p % 64 + min len (64 - p % 64) = 64
  · -- the block is used up
    have hnext : b.addU64 (UInt64.ofNat (p / 64)) 1 = .ok (UInt64.ofNat (p / 64 + 1)) :=
      b.addU64_ofNat (y := 1) (by omega)
    have hdiv : (p + min len (64 - p % 64)) / 64 = p / 64 + 1 := by omega
    have hmod : (p + min len (64 - p % 64)) % 64 = 0 := by omega
    rw [if_pos hend, atPosition, hnext, Result.ok_bind, atPosition, hdiv, hmod]
    rfl
  · have hdiv : (p + min len (64 - p % 64)) / 64 = p / 64 := by omega
    have hmod : (p + min len (64 - p % 64)) % 64 = p % 64 + min len (64 - p % 64) := by omega
    rw [if_neg hend, atPosition, atPosition, hdiv, hmod]
    rfl

theorem fillFirst_eq {p : ℕ} (hp : p < 2 ^ 64) (len : ℕ) :
    fillFirst f b (atPosition o p) len =
      .ok (streamBytes f o.node p (min len ((64 - p % 64) % 64)),
        atPosition o (p + min len ((64 - p % 64) % 64))) := by
  have hpos : (atPosition o p).positionWithinBlock = p % 64 := rfl
  rw [fillFirst, hpos]
  by_cases hzero : p % 64 = 0
  · rw [if_neg (not_not_intro hzero), hzero]
    simp [streamBytes]
  · have hrest : (64 - p % 64) % 64 = 64 - p % 64 := Nat.mod_eq_of_lt (by omega)
    rw [if_pos hzero, hrest]
    exact fillOneBlock_eq f b o hp len

/-- Whole blocks from a block boundary. -/
theorem fillWhole_eq {p k : ℕ} (hboundary : k ≠ 0 → p % 64 = 0) (hp : p + 64 * k < 2 ^ 64) :
    fillWhole f b (atPosition o p) k =
      .ok (streamBytes f o.node p (64 * k), atPosition o (p + 64 * k)) := by
  have hpos : (atPosition o p).positionWithinBlock = p % 64 := rfl
  rw [fillWhole, hpos]
  by_cases hk : k = 0
  · subst hk
    simp [streamBytes]
  · have hzero := hboundary hk
    have hdiv : (p + 64 * k) / 64 = p / 64 + k := by omega
    have hmod : (p + 64 * k) % 64 = 0 := by omega
    have hstart : 64 * (p / 64) = p := by omega
    have hadd : b.addU64 (UInt64.ofNat (p / 64)) (UInt64.ofNat k) =
        .ok (UInt64.ofNat (p / 64 + k)) := b.addU64_ofNat (by omega)
    have hbytes := Output.xofMany_root f o (p / 64) k
    rw [hstart] at hbytes
    rw [if_pos (Nat.pos_of_ne_zero hk), b.debugAssert_of hzero.symm, Result.ok_bind]
    rw [atPosition]
    dsimp only
    rw [hadd, Result.ok_bind, hbytes, atPosition, hdiv, hmod, hzero]
    rfl

theorem fillLast_eq {p : ℕ} (len : ℕ) (hboundary : len ≠ 0 → p % 64 = 0) (hlen : len < 64)
    (hp : p < 2 ^ 64) :
    fillLast f b (atPosition o p) len =
      .ok (streamBytes f o.node p len, atPosition o (p + len)) := by
  rw [fillLast]
  by_cases hzero : len = 0
  · subst hzero
    simp [streamBytes]
  · have hmin : min len (64 - p % 64) = len := by
      have := hboundary hzero
      omega
    have hone := fillOneBlock_eq f b o hp len
    rw [hmin] at hone
    rw [if_pos hzero, b.debugAssert_of hlen, Result.ok_bind, hone, Result.ok_bind]
    dsimp only
    rw [b.debugAssert_of (by rw [length_streamBytes]; omega)]
    rfl

/-- A read returns the next piece of the stream and moves behind it. -/
theorem fill_eq {p len : ℕ} (hp : p + len < 2 ^ 64) :
    fill f b (atPosition o p) len = .ok (streamBytes f o.node p len, atPosition o (p + len)) := by
  rw [fill]
  by_cases hzero : len = 0
  · subst hzero
    simp [streamBytes]
  · have hfirst := fillFirst_eq f b o (p := p) (by omega) len
    generalize hm : min len ((64 - p % 64) % 64) = m at hfirst
    have hwhole := fillWhole_eq f b o (p := p + m) (k := (len - m) / 64) (by omega) (by omega)
    have hlast := fillLast_eq f b o (p := p + m + 64 * ((len - m) / 64))
      (len - m - 64 * ((len - m) / 64)) (by omega) (by omega) (by omega)
    have hsum : m + (64 * ((len - m) / 64) + (len - m - 64 * ((len - m) / 64))) = len := by omega
    have hend : p + m + 64 * ((len - m) / 64) + (len - m - 64 * ((len - m) / 64)) = p + len := by
      omega
    have hbytes :
        streamBytes f o.node p m ++ streamBytes f o.node (p + m) (64 * ((len - m) / 64)) ++
        streamBytes f o.node (p + m + 64 * ((len - m) / 64)) (len - m - 64 * ((len - m) / 64)) =
          streamBytes f o.node p len := by
      rw [List.append_assoc, ← streamBytes_add, ← streamBytes_add, hsum]
    rw [if_neg hzero, hfirst, Result.ok_bind]
    dsimp only
    rw [length_streamBytes, hwhole, Result.ok_bind]
    dsimp only
    rw [hlast, Result.ok_bind, hend, hbytes]
    rfl

/-- Any piece of the stream, from whatever position. -/
theorem fill_setPosition {pos : UInt64} {len : ℕ} (h : pos.toNat + len < 2 ^ 64) :
    ((new o).setPosition pos).fill f b len =
      .ok (streamBytes f o.node pos.toNat len, atPosition o (pos.toNat + len)) := by
  rw [new_eq_atPosition, setPosition_atPosition]
  exact fill_eq f b o h

theorem seekTo_atPosition (p : ℕ) (targetPosition : ℤ) :
    (atPosition o p).seekTo b targetPosition =
      if targetPosition < 0 then .ok (.error .beforeStart, atPosition o p)
      else .ok (.ok (UInt64.ofNat (min targetPosition (2 ^ 64 - 1)).toNat),
        atPosition o (min targetPosition (2 ^ 64 - 1)).toNat) := by
  rw [seekTo]
  split
  · rfl
  · have hlt : (min targetPosition (2 ^ 64 - 1)).toNat < 2 ^ 64 := by omega
    dsimp only
    rw [setPosition_atPosition, toNat_ofNat64 hlt, position_atPosition b o hlt]
    rfl

theorem seek_atPosition {p : ℕ} (hp : p < 2 ^ 64) (pos : SeekFrom) :
    (atPosition o p).seek b pos =
      .ok ((Cursor.target p pos).map UInt64.ofNat, atPosition o (Cursor.move p (.seek pos))) := by
  cases pos with
  | start x =>
      have hlt := x.toNat_lt
      have hmin : (min (x.toNat : ℤ) (2 ^ 64 - 1)).toNat = x.toNat := by omega
      rw [seek, seekTo_atPosition, if_neg (by omega), hmin]
      rfl
  | current x =>
      rw [seek, position_atPosition b o hp, Result.ok_bind, toNat_ofNat64 hp, seekTo_atPosition,
        Cursor.move, Cursor.target]
      split <;> rfl
  | fromEnd x => rfl

/-- One call. -/
theorem step_atPosition {p : ℕ} {call : Call} (hbefore : p < 2 ^ 64)
    (hafter : Cursor.move p call < 2 ^ 64) :
    (atPosition o p).step f b call =
      .ok (Cursor.answer (stream f o.node) p call, atPosition o (Cursor.move p call)) := by
  cases call with
  | fill len =>
      rw [step, fill_eq f b o hafter]
      rfl
  | position =>
      rw [step, position_atPosition b o hbefore]
      rfl
  | setPosition position =>
      rw [step, setPosition_atPosition]
      rfl
  | seek pos =>
      rw [step, seek_atPosition b o hbefore]
      rfl

theorem run_atPosition {p : ℕ} {calls : List Call}
    (hbelow : ∀ pre, pre <+: calls → pre.foldl Cursor.move p < 2 ^ 64) :
    (atPosition o p).run f b calls =
      .ok (Cursor.answers (stream f o.node) p calls, atPosition o (calls.foldl Cursor.move p)) := by
  induction calls generalizing p with
  | nil => rfl
  | cons call calls ih =>
      have hfirst : [call] <+: call :: calls := List.cons_prefix_cons.mpr ⟨rfl, List.nil_prefix⟩
      have hstep :=
        step_atPosition f b o (p := p) (hbelow [] List.nil_prefix) (hbelow [call] hfirst)
      have hrest := ih (p := Cursor.move p call) fun pre hpre =>
        hbelow (call :: pre) (List.cons_prefix_cons.mpr ⟨rfl, hpre⟩)
      rw [run, hstep, Result.ok_bind]
      dsimp only
      rw [hrest]
      rfl

/-- As long as all positions stay below `2 ^ 64`, a sequence of calls goes
through and returns what a cursor on one stream returns, the root blocks of
`o` with counters from zero on; afterwards the reader is where the cursor is. -/
theorem calls_read_one_stream (calls : List Call)
    (hbelow : ∀ pre, pre <+: calls → pre.foldl Cursor.move (64 * o.counter.toNat) < 2 ^ 64) :
    ∃ r, (new o).run f b calls =
        .ok (Cursor.answers (stream f o.node) (64 * o.counter.toNat) calls, r) ∧
      r.position b = .ok (UInt64.ofNat (calls.foldl Cursor.move (64 * o.counter.toNat))) := by
  have hend := hbelow calls (List.prefix_refl calls)
  refine ⟨_, ?_, position_atPosition b o hend⟩
  rw [new_eq_atPosition]
  exact run_atPosition f b o hbelow

/-- Reads of the output for the empty message across a block boundary, a step
back and a rejected seek. -/
theorem calls_read_one_stream_of_seek :
    ∃ r, (new (ChunkState.new iv 0 0).output).run compress .wrapping
        [.fill 100, .seek (.current (-90)), .fill 60, .seek (.fromEnd 0), .position] =
      .ok (Cursor.answers (stream compress (ChunkState.new iv 0 0).output.node) 0
        [.fill 100, .seek (.current (-90)), .fill 60, .seek (.fromEnd 0), .position], r) ∧
      r.position .wrapping = .ok 70 := by
  obtain ⟨r, hrun, hpos⟩ := calls_read_one_stream compress .wrapping (ChunkState.new iv 0 0).output
    [.fill 100, .seek (.current (-90)), .fill 60, .seek (.fromEnd 0), .position]
    fun pre hpre => by
      rw [List.prefix_iff_eq_take] at hpre
      have hlt : ∀ k, ((List.take k [Call.fill 100, .seek (.current (-90)), .fill 60,
          .seek (.fromEnd 0), .position]).foldl Cursor.move 0) < 2 ^ 64 := by
        intro k
        match k with
        | 0 | 1 | 2 | 3 | 4 => decide
        | k + 5 =>
            rw [List.take_of_length_le (by simp)]
            decide
      rw [hpre]
      exact hlt _
  exact ⟨r, hrun, hpos⟩

end OutputReader

end Blake3.Rust
