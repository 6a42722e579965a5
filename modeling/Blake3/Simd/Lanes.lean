import Blake3.Simd.Intrinsics

/-!
Hashing several inputs at once: lane `j` of every register belongs to input
`j`. The kernels of the back ends are one program with different registers,
rotations, transpositions and ways to add the number of a lane to the counter.
Where these do what they should, each lane runs the portable code on its own
input, whatever the other lanes hold.
-/

namespace Blake3.Simd

open Registers QuarterRound

variable {n : ℕ}

/-- Lane `j` of an array of registers. -/
def lane {m : ℕ} (j : Fin n) (v : Vector (Lanes n) m) : Vector Word m := v.map fun a => a j

/-- What differs between the kernels. -/
structure Backend (n : ℕ) where
  arx : Arx (Lanes n)
  loadCounters : UInt64 → Bool → Lanes n × Lanes n
  transposeMsgVecs : (Fin n → List Byte) → ℕ → Vector (Lanes n) 16
  storeCvs : Vector (Lanes n) 8 → List Byte

/-! ### The kernels -/

section Kernel

variable (K : Backend n)

/-- The state before the first round. -/
def startVecs (h : Vector (Lanes n) 8) (counters : Lanes n × Lanes n) (blockLen flags : Word) :
    Vector (Lanes n) 16 :=
  #v[h.get 0, h.get 1, h.get 2, h.get 3, h.get 4, h.get 5, h.get 6, h.get 7,
    set1 (iv.get 0), set1 (iv.get 1), set1 (iv.get 2), set1 (iv.get 3),
    counters.1, counters.2, set1 blockLen, set1 flags]

/-- The loop over the blocks of the inputs, from block `block` on. -/
def hashLoop (args : ManyArgs) (inputs : Fin n → List Byte) (counters : Lanes n × Lanes n) :
    ℕ → ℕ → Vector (Lanes n) 8 → Byte → Vector (Lanes n) 8
  | _, 0, h, _ => h
  | block, left + 1, h, blockFlags =>
      let blockFlags := if block + 1 = args.blocks then blockFlags ||| args.flagsEnd else blockFlags
      let msg := K.transposeMsgVecs inputs (block * 64)
      let v := laneRounds K.arx (startVecs h counters 64 blockFlags.toUInt32) msg
      let h := Vector.ofFn fun i => K.arx.xor (v.get (i.castAdd 8)) (v.get (i.natAdd 8))
      hashLoop args inputs counters (block + 1) left h args.flags

/-- `hash4`, `hash8` and `hash16` -/
def hashN (args : ManyArgs) (inputs : Fin n → List Byte) (counter : UInt64) : List Byte :=
  let h := Vector.ofFn fun i => set1 (args.key.get i)
  let counters := K.loadCounters counter args.incrementCounter
  K.storeCvs (hashLoop K args inputs counters 0 args.blocks h (args.flags ||| args.flagsStart))

/-- `xof4`, `xof8` and `xof16`: the same block in every lane. -/
def xofN (storeBlocks : Vector (Lanes n) 16 → List Byte) (cv : CVWords) (block : Block)
    (blockLen : Byte) (counter : UInt64) (flags : Byte) :
    List Byte :=
  let h := Vector.ofFn fun i => set1 (cv.get i)
  let msg := Vector.ofFn fun i => set1 ((wordsFromLeBytes64 block).get i)
  let counters := K.loadCounters counter true
  let v := laneRounds K.arx (startVecs h counters blockLen.toUInt32 flags.toUInt32) msg
  storeBlocks <|
    (Vector.ofFn fun i : Fin 8 => K.arx.xor (v.get (i.castAdd 8)) (v.get (i.natAdd 8))) ++
      Vector.ofFn fun i : Fin 8 => K.arx.xor (v.get (i.natAdd 8)) (h.get i)

end Kernel

/-! ### One lane -/

/-- The parts of a kernel do what they are for in every lane. -/
structure Backend.Lawful (K : Backend n) : Prop where
  laneWise : LaneWise K.arx
  counterLow : ∀ counter increment j, (K.loadCounters counter increment).1 j =
    counterLow (if increment then counter + UInt64.ofNat j.val else counter)
  counterHigh : ∀ counter increment j, (K.loadCounters counter increment).2 j =
    counterHigh (if increment then counter + UInt64.ofNat j.val else counter)
  msgVecs : ∀ inputs block j, lane j (K.transposeMsgVecs inputs (block * 64)) =
    wordsFromLeBytes64 (blockOfBytes ((inputs j).drop (64 * block)))
  storeCvs : ∀ h, K.storeCvs h = (List.finRange n).flatMap fun j =>
    (leBytesFromWords32 (lane j h)).toList

section Lane

variable {K : Backend n} (hK : K.Lawful) (j : Fin n)

theorem lane_startVecs (h : Vector (Lanes n) 8) (counters : Lanes n × Lanes n)
    (x : CompressInput) (hlow : counters.1 j = counterLow x.counter)
    (hhigh : counters.2 j = counterHigh x.counter) (hcv : lane j h = x.chainingValue) :
    lane j (startVecs h counters x.blockLen x.flags) = initialState x := by
  have hget : ∀ (i : ℕ) (hi : i < 8), h[i] j = x.chainingValue[i] := by
    intro i hi
    simp [← hcv, lane]
  simp [lane, startVecs, initialState, set1, hget, hlow, hhigh, counterLow, counterHigh, Vector.get]

/-- The rounds in one lane. -/
theorem lane_laneRounds {o : Arx (Lanes n)} (ho : LaneWise o) (v msg : Vector (Lanes n) 16) :
    lane j (laneRounds o v msg) = allRounds (lane j v) (lane j msg) := by
  rw [lane, laneRounds_map (ho j), laneRounds_wordArx]
  rfl

theorem lane_get {m : ℕ} (v : Vector (Lanes n) m) (i : Fin m) : (lane j v).get i = v.get i j := by
  simp [lane, Vector.get]
  rfl

theorem lane_ofFn {m : ℕ} (f : Fin m → Lanes n) :
    lane j (Vector.ofFn f) = Vector.ofFn fun i => f i j := by
  apply Vector.ext
  intro i hi
  simp [lane]

theorem lane_foldState {o : Arx (Lanes n)} (ho : LaneWise o) (v : Vector (Lanes n) 16) :
    lane j (Vector.ofFn fun i : Fin 8 => o.xor (v.get (i.castAdd 8)) (v.get (i.natAdd 8))) =
      foldState (lane j v) := by
  have hxor : ∀ a b, o.xor a b j = a j ^^^ b j := (ho j).xor
  simp only [lane_ofFn, foldState, lane_get, hxor]

theorem lane_outputWords {o : Arx (Lanes n)} (ho : LaneWise o) (h : Vector (Lanes n) 8)
    (v : Vector (Lanes n) 16) :
    lane j ((Vector.ofFn fun i : Fin 8 => o.xor (v.get (i.castAdd 8)) (v.get (i.natAdd 8))) ++
        Vector.ofFn fun i : Fin 8 => o.xor (v.get (i.natAdd 8)) (h.get i)) =
      outputWords (lane j h) (lane j v) := by
  have hxor : ∀ a b, o.xor a b j = a j ^^^ b j := (ho j).xor
  rw [outputWords, ← lane_foldState j ho]
  rw [lane, Vector.map_append]
  congr 1
  simp only [lane_get, ← hxor]
  exact lane_ofFn j _

theorem lane_set1 {m : ℕ} (words : Vector Word m) :
    lane j (Vector.ofFn fun i => (set1 (words.get i) : Lanes n)) = words := by
  apply Vector.ext
  intro i hi
  simp [lane, set1, Vector.get]

include hK

/-- The counter of a lane. -/
theorem counters_lane (args : ManyArgs) (counter : UInt64) :
    (K.loadCounters counter args.incrementCounter).1 j =
        counterLow (args.advance counter j.val) ∧
      (K.loadCounters counter args.incrementCounter).2 j =
        counterHigh (args.advance counter j.val) :=
  ⟨hK.counterLow _ _ j, hK.counterHigh _ _ j⟩

/-- One compression in the lanes is one in place in each of them. -/
theorem lane_compress (inputs : Fin n → List Byte) (counters : Lanes n × Lanes n)
    {counter : UInt64} (hlow : counters.1 j = counterLow counter)
    (hhigh : counters.2 j = counterHigh counter) (block : ℕ) (h : Vector (Lanes n) 8)
    (flags : Byte) :
    lane j (Vector.ofFn fun i : Fin 8 =>
      let v := laneRounds K.arx (startVecs h counters 64 flags.toUInt32)
        (K.transposeMsgVecs inputs (block * 64))
      K.arx.xor (v.get (i.castAdd 8)) (v.get (i.natAdd 8))) =
      compressInPlacePortable (lane j h) (blockOfBytes ((inputs j).drop (64 * block))) 64 counter
        flags := by
  have hstart := lane_startVecs j h counters
    (compressArgs (lane j h) (blockOfBytes ((inputs j).drop (64 * block))) 64 counter flags)
    hlow hhigh rfl
  rw [compressInPlacePortable, compressPre, ← hstart, ← hK.msgVecs inputs block j,
    ← lane_laneRounds j hK.laneWise, ← lane_foldState j hK.laneWise]
  rfl

/-- Each lane goes through the blocks of its own input. -/
theorem lane_hashLoop (args : ManyArgs) (inputs : Fin n → List Byte)
    (counters : Lanes n × Lanes n) {counter : UInt64} (hlow : counters.1 j = counterLow counter)
    (hhigh : counters.2 j = counterHigh counter) (block left : ℕ)
    (hleft : block + left = args.blocks) (h : Vector (Lanes n) 8) (blockFlags : Byte) :
    lane j (hashLoop K args inputs counters block left h blockFlags) =
      hashOneLoop compressInPlacePortable args counter left (lane j h) blockFlags
        ((inputs j).drop (64 * block)) := by
  induction left generalizing block h blockFlags with
  | zero => rfl
  | succ left ih =>
      have hlast : block + 1 = args.blocks ↔ left + 1 = 1 := by omega
      have hdrop : 64 * block + 64 = 64 * (block + 1) := by omega
      rw [hashLoop, hashOneLoop, ih (block + 1) (by omega), List.drop_drop, hdrop]
      simp only [hlast]
      rw [lane_compress hK j inputs counters hlow hhigh]

/-- A kernel writes what the inputs give one by one. -/
theorem hashN_eq (args : ManyArgs) (inputs : Fin n → List Byte) (counter : UInt64) :
    hashN K args inputs counter =
      hashEach compressInPlacePortable args (List.ofFn inputs) counter := by
  have hlane : ∀ j, lane j (hashLoop K args inputs
      (K.loadCounters counter args.incrementCounter) 0 args.blocks
      (Vector.ofFn fun i => set1 (args.key.get i)) (args.flags ||| args.flagsStart)) =
      hashOneLoop compressInPlacePortable args (args.advance counter j.val) args.blocks args.key
        (args.flags ||| args.flagsStart) (inputs j) := by
    intro j
    obtain ⟨hlow, hhigh⟩ := counters_lane hK j args counter
    rw [lane_hashLoop hK j args inputs _ hlow hhigh 0 args.blocks (Nat.zero_add _), lane_set1,
      Nat.mul_zero, List.drop_zero]
  rw [hashEach_ofFn, hashN, hK.storeCvs]
  simp only [hlane, hashOne]

/-- A kernel writes the blocks of output that belong to its lanes. -/
theorem xofN_eq {storeBlocks : Vector (Lanes n) 16 → List Byte}
    (hstore : ∀ v, storeBlocks v = (List.finRange n).flatMap fun j =>
      (leBytesFromWords64 (lane j v)).toList)
    (cv : CVWords) (block : Block) (blockLen : Byte) (counter : UInt64) (flags : Byte) :
    xofN K storeBlocks cv block blockLen counter flags = (List.finRange n).flatMap fun j =>
      (compressXofPortable cv block blockLen (counter + UInt64.ofNat j.val) flags).toList := by
  have hrounds : ∀ j : Fin n,
      lane j (laneRounds K.arx
        (startVecs (Vector.ofFn fun i => set1 (cv.get i)) (K.loadCounters counter true)
          blockLen.toUInt32 flags.toUInt32)
        (Vector.ofFn fun i => set1 ((wordsFromLeBytes64 block).get i))) =
      compressPre cv block blockLen (counter + UInt64.ofNat j.val) flags := by
    intro j
    have hstart := lane_startVecs j (Vector.ofFn fun i => set1 (cv.get i))
      (K.loadCounters counter true)
      (compressArgs cv block blockLen (counter + UInt64.ofNat j.val) flags)
      (hK.counterLow counter true j) (hK.counterHigh counter true j) (lane_set1 j cv)
    rw [lane_laneRounds j hK.laneWise, lane_set1, compressPre, ← hstart]
    rfl
  rw [xofN, hstore]
  simp only [lane_outputWords _ hK.laneWise, hrounds, lane_set1, compressXofPortable]

end Lane

end Blake3.Simd
