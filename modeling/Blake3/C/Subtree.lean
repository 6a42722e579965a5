import Blake3.Lib.Slots
import Blake3.Parallel

/-!
`blake3_compress_subtree_wide` of `c/blake3.c`. Both halves of a split write
their chaining values to one array, the right half behind the slots of the
left one, and with TBB they may do so at the same time: the stores of the two
halves are interleaved by a schedule. Whatever the schedule, the values are
the batched reduction of the chunks.
-/

namespace Blake3.C

open LeftTree

/-! ### Sizes -/

/-- The index of the highest one bit. -/
def highestOne (x : ℕ) : ℕ := x.log2

def roundDownToPowerOf2 (x : ℕ) : ℕ := 1 <<< highestOne (x ||| 1)

def leftSubtreeLen (inputLen : ℕ) : ℕ :=
  let fullChunks := (inputLen - 1) / 1024
  roundDownToPowerOf2 fullChunks * 1024

theorem log2_or_one {x : ℕ} (h : 0 < x) : (x ||| 1).log2 = x.log2 := by
  have hlow := Nat.log2_self_le (n := x) (by omega)
  have hhigh := Nat.lt_log2_self (n := x)
  have hle := Nat.left_le_or (n := x) (m := 1)
  rw [Nat.log2_eq_iff (by omega)]
  exact ⟨hlow.trans hle, Nat.or_lt_two_pow hhigh (Nat.one_lt_two_pow (by omega))⟩

theorem roundDownToPowerOf2_eq {x : ℕ} (h : 0 < x) : roundDownToPowerOf2 x = 2 ^ x.log2 := by
  rw [roundDownToPowerOf2, highestOne, log2_or_one h, Nat.one_shiftLeft]

/-- The left side of a split holds as many chunks as the left side of the tree. -/
theorem leftSubtreeLen_eq {n : ℕ} (h : 1024 < n) :
    leftSubtreeLen n = 1024 * leftLen ((n + 1023) / 1024) := by
  rw [leftSubtreeLen, roundDownToPowerOf2_eq (by omega), leftLen, Nat.mul_comm,
    show (n + 1023) / 1024 - 1 = (n - 1) / 1024 by omega]

theorem leftSubtreeLen_pos {n : ℕ} (h : 1024 < n) : 0 < leftSubtreeLen n := by
  have := leftLen_pos ((n + 1023) / 1024)
  rw [leftSubtreeLen_eq h]
  omega

theorem leftSubtreeLen_lt {n : ℕ} (h : 1024 < n) : leftSubtreeLen n < n := by
  have := leftLen_lt (n := (n + 1023) / 1024) (by omega)
  rw [leftSubtreeLen_eq h]
  omega

/-! ### Two halves -/

/-- How the stores of the two halves of a split are interleaved when they run
at the same time. -/
structure Schedule where
  merge : UInt64 → ℕ → List (ℕ × CVBytes) → List (ℕ × CVBytes) → List (ℕ × CVBytes)
  shuffle : ∀ ctr len l r, Slots.Shuffle l r (merge ctr len l r)

/-- The left half first. -/
def Schedule.serial : Schedule :=
  { merge := fun _ _ l r => l ++ r, shuffle := fun _ _ l r => .append l r }

/-- The stores of `blake3_compress_subtree_wide_join_tbb`: those of the left
half first unless TBB is used. -/
def Schedule.join (schedule : Schedule) (useTbb : Bool) (ctr : UInt64) (len : ℕ)
    (l r : List (ℕ × CVBytes)) : List (ℕ × CVBytes) :=
  if useTbb then schedule.merge ctr len l r else l ++ r

theorem Schedule.join_shuffle (schedule : Schedule) (useTbb : Bool) (ctr : UInt64) (len : ℕ)
    (l r : List (ℕ × CVBytes)) : Slots.Shuffle l r (schedule.join useTbb ctr len l r) := by
  unfold join
  split
  · exact schedule.shuffle ctr len l r
  · exact .append l r

/-- The slot at which the right half starts to write. -/
def splitDegree (simd : Simd) (leftInputLen : ℕ) : ℕ :=
  if 1024 < leftInputLen ∧ simd.degree = 1 then 2 else simd.degree

theorem splitDegree_le (simd : Simd) (leftInputLen : ℕ) :
    splitDegree simd leftInputLen ≤ max simd.degree 2 := by
  unfold splitDegree
  split <;> omega

/-- The right half starts where the values of the left half end. -/
theorem splitDegree_eq {α : Type} (op : α → α → α) (simd : Simd) {l : List α}
    (h : simd.degree < l.length) :
    splitDegree simd (1024 * leftLen l.length) =
      (batched op simd.degree (l.take (leftLen l.length))).length := by
  obtain ⟨i, hi⟩ := simd.degree_pow
  rw [length_batched_left op hi h, splitDegree]
  split <;> split <;> omega

/-- The first `k` chaining values of an array that has been written to. -/
def readCvs (cvArray : List (Option CVBytes)) (k : ℕ) : Result (List CVBytes) :=
  match Slots.read cvArray k with
  | some cvs => .ok cvs
  | none => .error .uninitialized

section

variable (f : Compress) (simd : Simd) (schedule : Schedule) (useTbb : Bool) (key : CVWords)
  (flags : Byte)

/-- The array that both halves of a split write to. -/
def joinArray (degree : ℕ) (ctr : UInt64) (len : ℕ) (left right : List CVBytes) :
    List (Option CVBytes) :=
  Slots.put (List.replicate (2 * simd.maxDegreeOr2) none)
    (schedule.join useTbb ctr len (Slots.stores 0 left) (Slots.stores degree right))

/-- What is made of the values of the two halves. -/
def compressHalves (outLen leftN rightN : ℕ) (cvArray : List (Option CVBytes)) :
    Result (List CVBytes) := do
  -- With one value on each side, return them directly.
  if leftN = 1 then
    let cvs ← readCvs cvArray 2
    if outLen < 2 then throw .outOfBounds else return cvs
  -- Otherwise, do one layer of parent node compression.
  else
    let cvs ← readCvs cvArray (leftN + rightN)
    compressParentsParallel f .wrapping simd key flags outLen cvs

/-- The chaining values written to `out`, which has space for `outLen` of them. -/
def compressSubtreeWide (outLen : ℕ) (input : List Byte) (chunkCounter : UInt64) :
    Result (List CVBytes) := do
  if input.length ≤ simd.degree * 1024 then
    compressChunksParallel f .wrapping simd key flags outLen input chunkCounter
  else
    let leftInputLen := leftSubtreeLen input.length
    let rightChunkCounter := chunkCounter + UInt64.ofNat (leftInputLen / 1024)
    let degree := splitDegree simd leftInputLen
    let left ← compressSubtreeWide (2 * simd.maxDegreeOr2) (input.take leftInputLen) chunkCounter
    let right ← compressSubtreeWide (2 * simd.maxDegreeOr2 - degree) (input.drop leftInputLen)
      rightChunkCounter
    compressHalves f simd key flags outLen left.length right.length
      (joinArray simd schedule useTbb degree chunkCounter input.length left right)
termination_by input.length
decreasing_by
  · have := simd.degree_pos
    have := leftSubtreeLen_lt (n := input.length) (by omega)
    simp only [List.length_take]
    omega
  · have := simd.degree_pos
    have := leftSubtreeLen_pos (n := input.length) (by omega)
    simp only [List.length_drop]
    omega

def compressSubtreeToParentNode (input : List Byte) (chunkCounter : UInt64) :
    Result (CVBytes × CVBytes) := do
  let cvs ← compressSubtreeWide f simd schedule useTbb key flags simd.maxDegreeOr2 input
    chunkCounter
  if simd.maxDegreeOr2 < cvs.length then
    throw (.assertFailed "num_cvs <= MAX_SIMD_DEGREE_OR_2")
  else condenseCvs f .wrapping simd key flags cvs >>= firstPair

/-! ### What is written -/

/-- The array after both halves have written to it. -/
theorem readCvs_joinArray (left right : List CVBytes) (ctr : UInt64) (len : ℕ)
    (hn : left.length + right.length ≤ 2 * simd.maxDegreeOr2) :
    readCvs (joinArray simd schedule useTbb left.length ctr len left right)
      (left.length + right.length) = .ok (left ++ right) := by
  rw [readCvs, joinArray,
    Slots.read_put_shuffle (schedule.join_shuffle useTbb ctr len _ _) hn]

theorem compressHalves_eq {outLen : ℕ} {left right : List CVBytes} (ctr : UInt64) (len : ℕ)
    (hright : 0 < right.length) (hle : right.length ≤ left.length)
    (hleft : left.length ≤ max simd.degree 2) (hout : max simd.degree 2 ≤ outLen) :
    compressHalves f simd key flags outLen left.length right.length
        (joinArray simd schedule useTbb left.length ctr len left right) =
      .ok (if left.length = 1 then left ++ right
        else pairs (parentBytes f key flags.toUInt32) (left ++ right)) := by
  have hmax := simd.max_degree_le
  have hread := readCvs_joinArray simd schedule useTbb left right ctr len
    (by omega)
  unfold compressHalves
  by_cases hone : left.length = 1
  · have htwo : left.length + right.length = 2 := by omega
    rw [htwo] at hread
    rw [if_pos hone, if_pos hone, hread, Result.ok_bind, if_neg (by omega)]
    rfl
  · rw [if_neg hone, if_neg hone, hread, Result.ok_bind]
    have hlen : (left ++ right).length = left.length + right.length := List.length_append
    exact compressParentsParallel_eq f .wrapping simd key flags outLen (by omega) (by omega)
      (by omega)

theorem compressSubtreeWide_eq (outLen : ℕ) {input : List Byte} (ctr : UInt64)
    (hpos : 0 < input.length) (hout : max simd.degree 2 ≤ outLen) :
    compressSubtreeWide f simd schedule useTbb key flags outLen input ctr =
      .ok (batched (parentBytes f key flags.toUInt32) simd.degree
        (chunkBytes f key flags.toUInt32 ctr input)) := by
  induction hlen : input.length using Nat.strong_induction_on generalizing input ctr outLen with
  | _ n ih =>
    subst hlen
    obtain ⟨i, hdegree⟩ := simd.degree_pow
    have hdpos := simd.degree_pos
    have hmax := simd.max_degree_le
    have hcount := length_chunkBytes f key flags.toUInt32 ctr input
    rw [compressSubtreeWide]
    by_cases hle : input.length ≤ simd.degree * 1024
    · rw [if_pos hle,
        compressChunksParallel_eq f .wrapping simd key flags outLen hpos hle (by omega)
        (.inl rfl), batched_of_le _ (by omega)]
    · have hleft := leftSubtreeLen_eq (n := input.length) (by omega)
      have hlt := leftSubtreeLen_lt (n := input.length) (by omega)
      have hgt := leftSubtreeLen_pos (n := input.length) (by omega)
      rw [← hcount] at hleft
      rw [hleft] at hlt hgt
      have htake := chunkBytes_take f key flags.toUInt32 ctr hlt.le
      have hdrop := chunkBytes_drop f key flags.toUInt32 ctr hlt.le
      generalize chunkBytes f key flags.toUInt32 ctr input = leaves at *
      have hdeg := splitDegree_eq (parentBytes f key flags.toUInt32) simd (l := leaves)
        (by omega)
      have hdle := splitDegree_le simd (1024 * leftLen leaves.length)
      have hrightle := length_batched_right_le (parentBytes f key flags.toUInt32) hdegree
        (l := leaves) (by omega)
      have hrightpos := length_batched_pos (parentBytes f key flags.toUInt32) simd.degree
        (l := leaves.drop (leftLen leaves.length)) (by rw [List.length_drop]; omega)
      rw [if_neg hle, hleft]
      dsimp only
      rw [Nat.mul_div_cancel_left _ (by omega),
        ih _ (by rw [List.length_take]; omega) _ ctr (by rw [List.length_take]; omega)
          (by omega) rfl,
        Result.ok_bind,
        ih _ (by rw [List.length_drop]; omega) _ _ (by rw [List.length_drop]; omega) (by omega) rfl,
        Result.ok_bind, htake, hdrop, hdeg,
        compressHalves_eq f simd schedule useTbb key flags ctr _ hrightpos hrightle (by omega) hout,
        batched_split _ (l := leaves) (by omega)]

theorem compressSubtreeToParentNode_eq {input : List Byte} (ctr : UInt64)
    (hlong : 1024 < input.length) :
    compressSubtreeToParentNode f simd schedule useTbb key flags input ctr =
      .ok (top (parentBytes f key flags.toUInt32) (chunkBytes f key flags.toUInt32 ctr input)) := by
  obtain ⟨i, hdegree⟩ := simd.degree_pow
  have hmax := simd.max_degree_le
  have hcount := length_chunkBytes f key flags.toUInt32 ctr input
  have htwo : 2 ≤ (chunkBytes f key flags.toUInt32 ctr input).length := by omega
  have hle := length_batched_le (parentBytes f key flags.toUInt32) simd.degree
    (chunkBytes f key flags.toUInt32 ctr input)
  have hge := two_le_length_batched (parentBytes f key flags.toUInt32) simd.degree htwo
  rw [compressSubtreeToParentNode,
    compressSubtreeWide_eq f simd schedule useTbb key flags _ ctr (by omega) hmax, Result.ok_bind,
    if_neg (by omega), condenseCvs_eq f .wrapping simd key flags hge hle.2,
    top_batched _ hdegree htwo]

/-! ### Non-interference -/

variable {f} in
/-- Below the root only compressions without the root flag matter. -/
theorem chunkBytes_congr {g : Compress} (h : AgreeBelowRoot g f)
    (hflags : flags &&& ByteFlag.root = 0) (ctr : UInt64) (input : List Byte) :
    parentBytes g key flags.toUInt32 = parentBytes f key flags.toUInt32 ∧
      chunkBytes g key flags.toUInt32 ctr input = chunkBytes f key flags.toUInt32 ctr input := by
  have hword : flags.toUInt32 &&& Flag.root = 0 := by
    rw [← ByteFlag.root_toUInt32, ← UInt8.toUInt32_and, hflags]
    rfl
  constructor
  · funext left right
    exact congrArg leBytesFromWords32 (h.parentCv hword key _ _)
  · rw [← map_chunkCvs, ← map_chunkCvs, chunkCvs, chunkCvs]
    congr 2
    funext c bytes
    exact h.chunkCv hword key c bytes

/-- The array does not depend on who writes first. -/
theorem joinArray_eq {degree : ℕ} {left right : List CVBytes} (h : left.length ≤ degree)
    (ctr : UInt64) (len : ℕ) :
    joinArray simd schedule useTbb degree ctr len left right =
      Slots.put (List.replicate (2 * simd.maxDegreeOr2) none)
        (Slots.stores degree right ++ Slots.stores 0 left) := by
  rw [joinArray, Slots.put_shuffle h (schedule.join_shuffle useTbb ctr len _ _)]
  exact Slots.put_perm List.perm_append_comm (Slots.nodup_stores left right h) _

/-- What the two halves of a split return, and where they write it. -/
theorem compressSubtreeWide_halves {input : List Byte} (ctr : UInt64)
    (hsplit : simd.degree * 1024 < input.length) :
    ∃ left right,
      (∀ schedule useTbb,
        compressSubtreeWide f simd schedule useTbb key flags (2 * simd.maxDegreeOr2)
          (input.take (leftSubtreeLen input.length)) ctr = .ok left ∧
        compressSubtreeWide f simd schedule useTbb key flags
          (2 * simd.maxDegreeOr2 - splitDegree simd (leftSubtreeLen input.length))
          (input.drop (leftSubtreeLen input.length))
          (ctr + UInt64.ofNat (leftSubtreeLen input.length / 1024)) = .ok right) ∧
      left.length = splitDegree simd (leftSubtreeLen input.length) ∧
      right.length ≤ left.length := by
  obtain ⟨i, hdegree⟩ := simd.degree_pow
  have hdpos := simd.degree_pos
  have hmax := simd.max_degree_le
  have hcount := length_chunkBytes f key flags.toUInt32 ctr input
  have hleft := leftSubtreeLen_eq (n := input.length) (by omega)
  have hlt := leftSubtreeLen_lt (n := input.length) (by omega)
  have hgt := leftSubtreeLen_pos (n := input.length) (by omega)
  have hdle := splitDegree_le simd (leftSubtreeLen input.length)
  rw [← hcount] at hleft
  have htake := chunkBytes_take f key flags.toUInt32 ctr (hleft ▸ hlt.le)
  have hdrop := chunkBytes_drop f key flags.toUInt32 ctr (hleft ▸ hlt.le)
  refine ⟨_, _, fun schedule useTbb =>
    ⟨compressSubtreeWide_eq f simd schedule useTbb key flags _ ctr
      (by rw [List.length_take]; omega) (by omega),
    compressSubtreeWide_eq f simd schedule useTbb key flags _ _
      (by rw [List.length_drop]; omega) (by omega)⟩, ?_, ?_⟩
  · rw [hleft, htake, splitDegree_eq (parentBytes f key flags.toUInt32) simd (by omega)]
  · rw [hleft, Nat.mul_div_cancel_left _ (by omega), htake, hdrop]
    exact length_batched_right_le (parentBytes f key flags.toUInt32) hdegree (by omega)

/-- The values returned for a subtree of more than one chunk: between two and
a whole batch of them, spanning the tree over its chunks, made without the
root flag, and the same however the stores of the halves of any split are
interleaved, since the two halves write to different slots. -/
theorem compressSubtreeWide_spans_subtree (ctr : UInt64) {input : List Byte}
    (hlong : 1024 < input.length) :
    ∃ cvs,
      (∀ schedule useTbb outLen, max simd.degree 2 ≤ outLen →
        compressSubtreeWide f simd schedule useTbb key flags outLen input ctr = .ok cvs) ∧
      2 ≤ cvs.length ∧ cvs.length ≤ max simd.degree 2 ∧
      collapse (parentBytes f key flags.toUInt32) cvs =
        leBytesFromWords32 (subtreeCv f key flags.toUInt32 ctr input) ∧
      (flags &&& ByteFlag.root = 0 → ∀ g, AgreeBelowRoot g f → ∀ schedule useTbb outLen,
        max simd.degree 2 ≤ outLen →
          compressSubtreeWide g simd schedule useTbb key flags outLen input ctr = .ok cvs) ∧
      (simd.degree * 1024 < input.length →
        ∃ degree left right, degree = splitDegree simd (leftSubtreeLen input.length) ∧
          degree ≤ max simd.degree 2 ∧
          (∀ schedule useTbb,
            compressSubtreeWide f simd schedule useTbb key flags (2 * simd.maxDegreeOr2)
              (input.take (leftSubtreeLen input.length)) ctr = .ok left ∧
            compressSubtreeWide f simd schedule useTbb key flags (2 * simd.maxDegreeOr2 - degree)
              (input.drop (leftSubtreeLen input.length))
              (ctr + UInt64.ofNat (leftSubtreeLen input.length / 1024)) = .ok right ∧
            joinArray simd schedule useTbb degree ctr input.length left right =
              Slots.put (List.replicate (2 * simd.maxDegreeOr2) none)
                (Slots.stores degree right ++ Slots.stores 0 left)) ∧
          (∀ s ∈ Slots.stores 0 left, s.1 < degree) ∧
          (∀ s ∈ Slots.stores degree right, degree ≤ s.1 ∧ s.1 < 2 * simd.maxDegreeOr2)) := by
  obtain ⟨i, hdegree⟩ := simd.degree_pow
  have hcount := length_chunkBytes f key flags.toUInt32 ctr input
  have htwo : 2 ≤ (chunkBytes f key flags.toUInt32 ctr input).length := by omega
  have hmax := simd.max_degree_le
  refine ⟨_, fun schedule useTbb outLen hout =>
      compressSubtreeWide_eq f simd schedule useTbb key flags outLen ctr (by omega) hout,
    two_le_length_batched _ simd.degree htwo, (length_batched_le _ simd.degree _).2, ?_, ?_, ?_⟩
  · -- reducing what was batched gives the root of the whole subtree
    rw [collapse_eq_fold, fold_batched _ hdegree, fold_chunkBytes f key _ ctr (by omega)]
  · intro hflags g hg schedule useTbb outLen hout
    obtain ⟨hparent, hchunks⟩ := chunkBytes_congr key flags hg hflags ctr input
    rw [compressSubtreeWide_eq g simd schedule useTbb key flags outLen ctr (by omega) hout, hparent,
      hchunks]
  · intro hsplit
    obtain ⟨left, right, hruns, hleft, hright⟩ :=
      compressSubtreeWide_halves f simd key flags ctr hsplit
    have hdle := splitDegree_le simd (leftSubtreeLen input.length)
    refine ⟨_, left, right, rfl, hdle, fun schedule useTbb =>
      ⟨(hruns schedule useTbb).1, (hruns schedule useTbb).2,
        joinArray_eq simd schedule useTbb hleft.le ctr _⟩, fun s hs => ?_, fun s hs => ?_⟩
    · have := Slots.mem_stores hs
      omega
    · have := Slots.mem_stores hs
      omega

/-- Two chunks at degree one: the special case of returning both values. -/
theorem compressSubtreeWide_spans_two_chunks :
    ∃ cvs, compressSubtreeWide compress .portable .serial false iv 0 2 (List.replicate 2048 0) 0 =
      .ok cvs ∧ cvs.length = 2 := by
  obtain ⟨cvs, hrun, hge, hle, -⟩ := compressSubtreeWide_spans_subtree compress .portable iv 0 0
    (by rw [List.length_replicate]; omega : 1024 < (List.replicate 2048 (0 : Byte)).length)
  exact ⟨cvs, hrun _ _ _ (by simp [Simd.portable]), by simp [Simd.portable] at hle; omega⟩

end

end Blake3.C
