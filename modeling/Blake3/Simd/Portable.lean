import Blake3.Lib.QuarterRound
import Blake3.Portable

/-!
`c/blake3_portable.c`, which the vectorised back ends are compared with: the
rounds select the message words by the schedule table, the compression is used
in place or for a block of output, and the inputs of `hash_many` are hashed one
after the other. The compression of `src/portable.rs` is the same.
-/

namespace Blake3.Simd

scoped instance neZeroSeven : NeZero 7 := ⟨by decide⟩

scoped instance neZeroEight : NeZero 8 := ⟨by decide⟩

scoped instance neZeroSixteen : NeZero 16 := ⟨by decide⟩

/-! ### The compression -/

def counterLow (counter : UInt64) : Word := counter.toUInt32

def counterHigh (counter : UInt64) : Word := (counter >>> 32).toUInt32

def msgSchedule : Vector (Vector (Fin 16) 16) 7 :=
  #v[#v[0, 1, 2, 3, 4, 5, 6, 7, 8, 9, 10, 11, 12, 13, 14, 15],
    #v[2, 6, 3, 10, 7, 0, 4, 13, 1, 11, 12, 5, 9, 14, 15, 8],
    #v[3, 4, 10, 12, 13, 2, 7, 14, 6, 5, 9, 0, 11, 15, 8, 1],
    #v[10, 7, 12, 9, 14, 3, 13, 15, 4, 0, 11, 2, 5, 8, 1, 6],
    #v[12, 13, 9, 11, 15, 10, 14, 8, 7, 2, 5, 3, 0, 1, 6, 4],
    #v[9, 14, 11, 5, 8, 12, 15, 1, 13, 3, 0, 10, 2, 6, 4, 7],
    #v[11, 15, 5, 0, 1, 9, 8, 6, 14, 10, 2, 12, 3, 4, 7, 13]]

/-- The entry of the table for word `i` of a round. -/
def schedule (round : Fin 7) (i : Fin 16) : Fin 16 := (msgSchedule.get round).get i

def roundFn (state msg : BlockWords) (round : Fin 7) : BlockWords :=
  let m (i : Fin 16) := msg.get (schedule round i)
  -- Mix the columns.
  let state := g state 0 4 8 12 (m 0) (m 1)
  let state := g state 1 5 9 13 (m 2) (m 3)
  let state := g state 2 6 10 14 (m 4) (m 5)
  let state := g state 3 7 11 15 (m 6) (m 7)
  -- Mix the rows.
  let state := g state 0 5 10 15 (m 8) (m 9)
  let state := g state 1 6 11 12 (m 10) (m 11)
  let state := g state 2 7 8 13 (m 12) (m 13)
  g state 3 4 9 14 (m 14) (m 15)

/-- All rounds, with the message words in the order of the block. -/
def allRounds (state msg : BlockWords) : BlockWords :=
  let state := roundFn state msg 0
  let state := roundFn state msg 1
  let state := roundFn state msg 2
  let state := roundFn state msg 3
  let state := roundFn state msg 4
  let state := roundFn state msg 5
  roundFn state msg 6

/-- The words of a compression as the C functions are given them. -/
def compressArgs (cv : CVWords) (block : Block) (blockLen : Byte) (counter : UInt64)
    (flags : Byte) : CompressInput :=
  { chainingValue := cv, blockWords := wordsFromLeBytes64 block, counter := counter,
    blockLen := blockLen.toUInt32, flags := flags.toUInt32 }

def compressPre (cv : CVWords) (block : Block) (blockLen : Byte) (counter : UInt64)
    (flags : Byte) : BlockWords :=
  allRounds (initialState (compressArgs cv block blockLen counter flags)) (wordsFromLeBytes64 block)

/-- The new chaining value from the state after the last round. -/
def foldState (state : BlockWords) : CVWords :=
  Vector.ofFn fun i => state.get (i.castAdd 8) ^^^ state.get (i.natAdd 8)

/-- A block of output from the state after the last round. -/
def outputWords (cv : CVWords) (state : BlockWords) : BlockWords :=
  foldState state ++ Vector.ofFn fun i : Fin 8 => state.get (i.natAdd 8) ^^^ cv.get i

theorem outputWords_low (cv : CVWords) (state : BlockWords) (i : Fin 8) :
    (outputWords cv state).get (i.castAdd 8) =
      state.get (i.castAdd 8) ^^^ state.get (i.natAdd 8) := by
  refine (Vector.getElem_append_left i.isLt).trans ?_
  rw [foldState, Vector.getElem_ofFn]

theorem outputWords_high (cv : CVWords) (state : BlockWords) (i : Fin 8) :
    (outputWords cv state).get (i.natAdd 8) = state.get (i.natAdd 8) ^^^ cv.get i := by
  have hsub : 8 + i.val - 8 = i.val := Nat.add_sub_cancel_left 8 i.val
  refine (Vector.getElem_append_right (by omega) (Nat.le_add_right 8 i.val)).trans ?_
  simp only [hsub]
  exact Vector.getElem_ofFn i.isLt

def compressInPlacePortable (cv : CVWords) (block : Block) (blockLen : Byte) (counter : UInt64)
    (flags : Byte) : CVWords :=
  foldState (compressPre cv block blockLen counter flags)

def compressXofPortable (cv : CVWords) (block : Block) (blockLen : Byte) (counter : UInt64)
    (flags : Byte) : Block :=
  leBytesFromWords64 (outputWords cv (compressPre cv block blockLen counter flags))

/-! ### Many inputs -/

/-- A function that replaces a chaining value by the next one. -/
abbrev CompressInPlace := CVWords → Block → Byte → UInt64 → Byte → CVWords

/-- The arguments of `hash_many` that are the same for every input. -/
structure ManyArgs where
  blocks : ℕ
  key : CVWords
  incrementCounter : Bool
  flags : Byte
  flagsStart : Byte
  flagsEnd : Byte

section HashMany

variable (compress : CompressInPlace) (args : ManyArgs)

/-- The loop of `hash_one`, which is the same in every back end. -/
def hashOneLoop (counter : UInt64) : ℕ → CVWords → Byte → List Byte → CVWords
  | 0, cv, _, _ => cv
  | blocks + 1, cv, blockFlags, input =>
      let blockFlags := if blocks + 1 = 1 then blockFlags ||| args.flagsEnd else blockFlags
      hashOneLoop counter blocks (compress cv (blockOfBytes input) 64 counter blockFlags)
        args.flags (input.drop 64)

def hashOne (input : List Byte) (counter : UInt64) : CVBytes :=
  leBytesFromWords32
    (hashOneLoop compress args counter args.blocks args.key (args.flags ||| args.flagsStart) input)

/-- The counter `n` inputs further on. -/
def ManyArgs.advance (counter : UInt64) (n : ℕ) : UInt64 :=
  if args.incrementCounter then counter + UInt64.ofNat n else counter

/-- The loop over the inputs that are left, one at a time. -/
def hashEach : List (List Byte) → UInt64 → List Byte
  | [], _ => []
  | input :: inputs, counter =>
      (hashOne compress args input counter).toList ++ hashEach inputs (args.advance counter 1)

end HashMany

def hashManyPortable (args : ManyArgs) (inputs : List (List Byte)) (counter : UInt64) : List Byte :=
  hashEach compressInPlacePortable args inputs counter

/-! ### The reference rounds -/

/-- The message words in the order in which a round takes them. -/
def scheduled (msg : BlockWords) (round : Fin 7) : BlockWords :=
  Vector.ofFn fun i => msg.get (schedule round i)

theorem roundFn_eq (state msg : BlockWords) (r : Fin 7) :
    roundFn state msg r = round state (scheduled msg r) := by
  simp only [roundFn, round, scheduled, Vector.getElem_ofFn]
  rfl

theorem schedule_zero : ∀ i, schedule 0 i = i := by decide

theorem scheduled_zero (msg : BlockWords) : scheduled msg 0 = msg := by
  apply Vector.ext
  intro i hi
  simp only [scheduled, schedule_zero, Vector.getElem_ofFn]
  rfl

/-- A row of the table is the row before it, permuted. -/
theorem schedule_succ : ∀ (r : Fin 6) (i : Fin 16),
    schedule r.castSucc (msgPermutation.get i) = schedule r.succ i := by decide

theorem permute_scheduled (msg : BlockWords) (r : Fin 6) :
    permute (scheduled msg r.castSucc) = scheduled msg r.succ := by
  apply Vector.ext
  intro i hi
  simp only [permute, scheduled, Vector.getElem_ofFn, Fin.getElem_fin, Fin.eta]
  exact congrArg msg.get (schedule_succ r ⟨i, hi⟩)

theorem rounds_scheduled (msg : BlockWords) (n : ℕ) (state : BlockWords) (r : Fin 6) :
    rounds (n + 1) state (scheduled msg r.castSucc) =
      rounds n (roundFn state msg r.castSucc) (scheduled msg r.succ) := by
  rw [rounds, ← roundFn_eq, permute_scheduled]

/-- The table of the C code says the same as permuting the message between rounds. -/
theorem allRounds_eq (state msg : BlockWords) : allRounds state msg = rounds 7 state msg := by
  have hlast : ∀ state, rounds 1 state (scheduled msg 6) = roundFn state msg 6 :=
    fun state => (roundFn_eq state msg 6).symm
  have hzero : rounds 7 state msg = rounds 7 state (scheduled msg 0) := by rw [scheduled_zero]
  rw [hzero]
  exact ((rounds_scheduled msg 6 state 0).trans <| (rounds_scheduled msg 5 _ 1).trans <|
    (rounds_scheduled msg 4 _ 2).trans <| (rounds_scheduled msg 3 _ 3).trans <|
    (rounds_scheduled msg 2 _ 4).trans <| (rounds_scheduled msg 1 _ 5).trans (hlast _)).symm

section Reference

variable (cv : CVWords) (block : Block) (blockLen : Byte) (counter : UInt64) (flags : Byte)

theorem blockNode_eq : blockNode cv block blockLen.toNat counter flags =
    compressArgs cv block blockLen counter flags := by
  simp [blockNode, compressArgs]

theorem outputWords_eq :
    outputWords cv (compressPre cv block blockLen counter flags) =
      Blake3.compress (compressArgs cv block blockLen counter flags) := by
  rw [compressPre, allRounds_eq]
  rfl

theorem compressInPlacePortable_eq :
    compressInPlacePortable cv block blockLen counter flags =
      compressInPlace Blake3.compress cv block blockLen.toNat counter flags := by
  rw [compressInPlace, blockNode_eq, ← outputWords_eq]
  apply Vector.ext
  intro i hi
  rw [compressInPlacePortable, first8Words, Vector.getElem_ofFn, outputWords]
  exact (Vector.getElem_append_left hi).symm

theorem compressXofPortable_eq :
    compressXofPortable cv block blockLen counter flags =
      compressXof Blake3.compress cv block blockLen.toNat counter flags := by
  rw [compressXof, blockNode_eq, ← outputWords_eq]
  rfl

end Reference

/-- Hashing one input is what `hash_one` of the specification's compression does. -/
theorem hashOne_portable (args : ManyArgs) (input : List Byte) (counter : UInt64) :
    hashOne compressInPlacePortable args input counter =
      Blake3.hashOne Blake3.compress args.key args.flags args.flagsStart args.flagsEnd input
        args.blocks counter := by
  have hloop : ∀ (blocks : ℕ) (cv : CVWords) (blockFlags : Byte) (input : List Byte),
      hashOneLoop compressInPlacePortable args counter blocks cv blockFlags input =
        hashBlocks Blake3.compress args.flags args.flagsEnd counter blocks cv blockFlags input := by
    intro blocks
    induction blocks with
    | zero => intros; rfl
    | succ blocks ih =>
        intro cv blockFlags input
        simp only [hashOneLoop, hashBlocks, compressInPlacePortable_eq, ih, Nat.add_eq_right]
        rfl
  rw [hashOne, Blake3.hashOne, hloop]

/-! ### Batches -/

section Batches

variable (compress : CompressInPlace) (args : ManyArgs)

@[simp] theorem ManyArgs.advance_zero (counter : UInt64) : args.advance counter 0 = counter := by
  simp [ManyArgs.advance]

theorem ManyArgs.advance_advance (counter : UInt64) (m n : ℕ) :
    args.advance (args.advance counter m) n = args.advance counter (m + n) := by
  cases h : args.incrementCounter <;>
    simp [ManyArgs.advance, h, UInt64.ofNat_add, UInt64.add_assoc]

theorem hashEach_append (l m : List (List Byte)) (counter : UInt64) :
    hashEach compress args (l ++ m) counter =
      hashEach compress args l counter ++
        hashEach compress args m (args.advance counter l.length) := by
  induction l generalizing counter with
  | nil => simp [hashEach]
  | cons input l ih =>
      rw [List.cons_append, hashEach, ih, hashEach, List.append_assoc, args.advance_advance,
        List.length_cons, Nat.add_comm 1]

/-- The inputs of a batch each get a counter of their own. -/
theorem hashEach_ofFn {n : ℕ} (inputs : Fin n → List Byte) (counter : UInt64) :
    hashEach compress args (List.ofFn inputs) counter = (List.finRange n).flatMap fun j =>
      (hashOne compress args (inputs j) (args.advance counter j.val)).toList := by
  induction n generalizing counter with
  | zero => simp [hashEach]
  | succ n ih =>
      rw [List.ofFn_succ, hashEach, ih, List.finRange_succ, List.flatMap_cons, List.flatMap_map]
      simp only [args.advance_advance, Fin.val_zero, ManyArgs.advance_zero, Fin.val_succ,
        Nat.add_comm 1]

/-- The loop over whole batches of `n` inputs; what is left goes to `rest`. -/
def batches {n : ℕ} [NeZero n] (kernel : (Fin n → List Byte) → UInt64 → List Byte)
    (rest : List (List Byte) → UInt64 → List Byte) (inputs : List (List Byte)) (counter : UInt64) :
    List Byte :=
  if n ≤ inputs.length then
    kernel (fun i => inputs.getD i.val []) counter ++
      batches kernel rest (inputs.drop n) (args.advance counter n)
  else rest inputs counter
termination_by inputs.length
decreasing_by
  have hn := NeZero.pos n
  rw [List.length_drop]
  omega

theorem ofFn_getD {α : Type} {l : List α} {n : ℕ} (hn : n ≤ l.length) (default : α) :
    List.ofFn (fun i : Fin n => l.getD i.val default) = l.take n := by
  apply List.ext_getElem
  · simp [hn]
  · intro i hi hi'
    have hlt : i < l.length := by
      rw [List.length_take] at hi'
      omega
    simp [hlt]

/-- Batches do not change the output if no batch does. -/
theorem batches_eq {n : ℕ} [NeZero n] {kernel : (Fin n → List Byte) → UInt64 → List Byte}
    {rest : List (List Byte) → UInt64 → List Byte}
    (hkernel : ∀ inputs counter,
      kernel inputs counter = hashEach compress args (List.ofFn inputs) counter)
    (hrest : ∀ inputs counter, rest inputs counter = hashEach compress args inputs counter)
    (inputs : List (List Byte)) (counter : UInt64) :
    batches args kernel rest inputs counter = hashEach compress args inputs counter := by
  induction inputs, counter using batches.induct args (n := n) with
  | case1 inputs counter hle ih =>
      have hlen : (inputs.take n).length = n := by
        rw [List.length_take]
        omega
      have happ := hashEach_append compress args (inputs.take n) (inputs.drop n) counter
      rw [List.take_append_drop, hlen] at happ
      rw [batches, if_pos hle, ih, hkernel, ofFn_getD hle, happ]
  | case2 inputs counter hlt => rw [batches, if_neg hlt, hrest]

end Batches

/-! ### Quarter rounds -/

open QuarterRound

def wordArx : Arx Word where
  add x y := x + y
  xor x y := x ^^^ y
  rot16 x := rotateRight x 16
  rot12 x := rotateRight x 12
  rot8 x := rotateRight x 8
  rot7 x := rotateRight x 7

/-- The message word may be added last. -/
theorem half_wordArx (rotD rotB : Word → Word) (m : Word) (w : Fin 4 → Word) :
    half wordArx rotD rotB m w =
      (let a := w 0 + w 1 + m
       let d := rotD (w 3 ^^^ a)
       let c := w 2 + d
       ![a, rotB (w 1 ^^^ c), c, d]) := by
  have hadd : w 0 + m + w 1 = w 0 + w 1 + m := by
    rw [UInt32.add_assoc, UInt32.add_comm m, ← UInt32.add_assoc]
  simp only [half, wordArx, hadd]

/-- `g` mixes the quadruple it is given and leaves the others alone. -/
theorem view_g {q : Fin 4 → Fin 4 → Fin 16} (hq : Function.Injective2 q) (state : BlockWords)
    (mx my : Word) (i j : Fin 4) :
    view q (g state (q i 0) (q i 1) (q i 2) (q i 3) mx my) j =
      if j = i then mix wordArx mx my (view q state i) else view q state j := by
  -- every assignment of `g` is one to a word of the quadruple
  have hputs : g state (q i 0) (q i 1) (q i 2) (q i 3) mx my =
      (let state := put q 0 (fun _ w => w 0 + w 1 + mx) state i
       let state := put q 3 (fun _ w => rotateRight (w 3 ^^^ w 0) 16) state i
       let state := put q 2 (fun _ w => w 2 + w 3) state i
       let state := put q 1 (fun _ w => rotateRight (w 1 ^^^ w 2) 12) state i
       let state := put q 0 (fun _ w => w 0 + w 1 + my) state i
       let state := put q 3 (fun _ w => rotateRight (w 3 ^^^ w 0) 8) state i
       let state := put q 2 (fun _ w => w 2 + w 3) state i
       put q 1 (fun _ w => rotateRight (w 1 ^^^ w 2) 7) state i) := rfl
  have hmix (w : Fin 4 → Word) : mix wordArx mx my w =
      half wordArx (rotateRight · 8) (rotateRight · 7) my
        (half wordArx (rotateRight · 16) (rotateRight · 12) mx w) := rfl
  rw [hputs]
  by_cases hji : j = i
  · subst hji
    funext k
    simp only [view_put_self hq, hmix, half_wordArx]
    fin_cases k <;> simp [Function.update]
  · simp only [view_put_of_ne hq _ _ _ hji, if_neg hji]

/-- Four applications of `g` to disjoint quadruples. -/
theorem view_g_four {q : Fin 4 → Fin 4 → Fin 16} (hq : Function.Injective2 q) (state : BlockWords)
    (mx my : Fin 4 → Word) (i : Fin 4) :
    view q
        (let state := g state (q 0 0) (q 0 1) (q 0 2) (q 0 3) (mx 0) (my 0)
         let state := g state (q 1 0) (q 1 1) (q 1 2) (q 1 3) (mx 1) (my 1)
         let state := g state (q 2 0) (q 2 1) (q 2 2) (q 2 3) (mx 2) (my 2)
         g state (q 3 0) (q 3 1) (q 3 2) (q 3 3) (mx 3) (my 3)) i =
      mix wordArx (mx i) (my i) (view q state i) := by
  fin_cases i <;> simp [view_g hq]

/-! ### The rounds of registers -/

section LaneRound

variable {α β : Type}

/-- `round_fn` of the vectorised back ends: the columns and then the diagonals,
interleaved, with a register or a word in each place of the state. -/
def laneRoundFn (o : Arx α) (v msg : Vector α 16) (round : Fin 7) : Vector α 16 :=
  let m (i : Fin 16) := msg.get (schedule round i)
  let v := interleaved o columns ![m 0, m 2, m 4, m 6] ![m 1, m 3, m 5, m 7] v
  interleaved o diagonals ![m 8, m 10, m 12, m 14] ![m 9, m 11, m 13, m 15] v

def laneRounds (o : Arx α) (v msg : Vector α 16) : Vector α 16 :=
  let v := laneRoundFn o v msg 0
  let v := laneRoundFn o v msg 1
  let v := laneRoundFn o v msg 2
  let v := laneRoundFn o v msg 3
  let v := laneRoundFn o v msg 4
  let v := laneRoundFn o v msg 5
  laneRoundFn o v msg 6

/-- On words the interleaved round is the portable one. -/
theorem laneRoundFn_wordArx (v msg : BlockWords) (r : Fin 7) :
    laneRoundFn wordArx v msg r = roundFn v msg r := by
  let m (i : Fin 16) := msg.get (schedule r i)
  apply ext_view diagonals_surjective
  intro i
  have hdiagonals := view_g_four diagonals_injective
    (let v := g v 0 4 8 12 (m 0) (m 1)
     let v := g v 1 5 9 13 (m 2) (m 3)
     let v := g v 2 6 10 14 (m 4) (m 5)
     g v 3 7 11 15 (m 6) (m 7))
    ![m 8, m 10, m 12, m 14] ![m 9, m 11, m 13, m 15] i
  have hcolumns : interleaved wordArx columns ![m 0, m 2, m 4, m 6] ![m 1, m 3, m 5, m 7] v =
      (let v := g v 0 4 8 12 (m 0) (m 1)
       let v := g v 1 5 9 13 (m 2) (m 3)
       let v := g v 2 6 10 14 (m 4) (m 5)
       g v 3 7 11 15 (m 6) (m 7)) := by
    apply ext_view columns_surjective
    intro i
    rw [view_interleaved _ columns_injective]
    exact (view_g_four columns_injective v ![m 0, m 2, m 4, m 6] ![m 1, m 3, m 5, m 7] i).symm
  rw [laneRoundFn, view_interleaved _ diagonals_injective, hcolumns]
  exact hdiagonals.symm

theorem laneRounds_wordArx (v msg : BlockWords) : laneRounds wordArx v msg = allRounds v msg := by
  simp only [laneRounds, allRounds, laneRoundFn_wordArx]

/-- A lane of the registers is rounded by itself. -/
theorem laneRoundFn_map {o : Arx α} {p : Arx β} {f : α → β} (h : o.Hom p f) (v msg : Vector α 16)
    (r : Fin 7) : (laneRoundFn o v msg r).map f = laneRoundFn p (v.map f) (msg.map f) r := by
  have hget : ∀ i, (msg.map f).get i = f (msg.get i) := fun i => by
    simp [Vector.get]
  have hpair : ∀ (a b c d : α), (fun i => f (![a, b, c, d] i)) = ![f a, f b, f c, f d] := by
    intro a b c d
    funext i
    fin_cases i <;> rfl
  simp only [laneRoundFn, hget,
    interleaved_map diagonals_injective diagonals_surjective h,
    interleaved_map columns_injective columns_surjective h, hpair]

theorem laneRounds_map {o : Arx α} {p : Arx β} {f : α → β} (h : o.Hom p f)
    (v msg : Vector α 16) : (laneRounds o v msg).map f = laneRounds p (v.map f) (msg.map f) := by
  simp only [laneRounds, laneRoundFn_map h]

end LaneRound

end Blake3.Simd
