import Blake3.Custody.Digest
import Blake3.Fault
import Blake3.Lib.Bitmap
import Blake3.Lib.Buffer

/-!
Receiving the fragments of one packet in `rafaelia_packet_custody.c`: each call
verifies a fragment against its expected digest and marks it in a bitmap.
-/

namespace Blake3.Custody

/-- `rpc_stream_state`. -/
structure StreamState where
  packetId : PacketId
  totalChunks : UInt32
  receivedChunks : UInt32
  rejectedChunks : UInt32
  verifiedBytes : UInt64
  receivedBitmap : Vector Byte 512

/-- The arguments of one `rpc_stream_record`, besides the state. -/
structure Call where
  chunkIndex : UInt32
  payload : Payload
  expectedDigest : Option Digest

/-- `1 << (index & 7)` as a byte. -/
def bitMask (index : UInt32) : Byte := (1 <<< (index &&& 7)).toUInt8

def rpcBitIsSet (state : StreamState) (index : UInt32) : Result Bool :=
  if h : (index >>> 3).toNat < 512 then
    .ok (state.receivedBitmap[(index >>> 3).toNat] &&& bitMask index ≠ 0)
  else .error .outOfBounds

def rpcBitSet (state : StreamState) (index : UInt32) : Result StreamState :=
  if h : (index >>> 3).toNat < 512 then
    .ok { state with
      receivedBitmap := state.receivedBitmap.set (index >>> 3).toNat
        (state.receivedBitmap[(index >>> 3).toNat] ||| bitMask index) }
  else .error .outOfBounds

def rpcDigestEqual (left right : Option Digest) : Bool :=
  match left, right with
  | some left, some right =>
      (List.finRange 32).foldl (fun diff (i : Fin 32) => diff ||| (left[i] ^^^ right[i])) (0 : Byte)
        = 0
  | _, _ => false

/-- The state after `rpc_stream_init`, the `state` pointer not being null. -/
def rpcStreamInit (packetId : Option PacketId) (totalChunks : UInt32) :
    Except Status StreamState :=
  match packetId with
  | none => .error .errArgument
  | some packetId =>
      if ¬rpcValidTotal totalChunks then .error .errRange
      else
        .ok {
          packetId := packetId
          totalChunks := totalChunks
          receivedChunks := 0
          rejectedChunks := 0
          verifiedBytes := 0
          receivedBitmap := Vector.replicate 512 0 }

def rpcStreamRecord (deriveKey : List Byte → List Byte → Digest) (state : StreamState)
    (call : Call) : Result (Status × StreamState) :=
  match call.expectedDigest with
  | none => .ok (.errArgument, state)
  | some expectedDigest =>
      if call.payload.IsNull then .ok (.errArgument, state)
      else if ¬rpcValidTotal state.totalChunks ∨ state.totalChunks ≤ call.chunkIndex then
        .ok (.errRange, state)
      else
        match rpcChunkDigest deriveKey (some state.packetId) call.chunkIndex state.totalChunks
          call.payload with
        | .error status => .ok (status, state)
        | .ok actual =>
            if ¬rpcDigestEqual (some actual) (some expectedDigest) then
              .ok (.errDigest, { state with rejectedChunks := state.rejectedChunks + 1 })
            else do
              if ← rpcBitIsSet state call.chunkIndex then pure (.duplicate, state)
              else
                let state ← rpcBitSet state call.chunkIndex
                pure (.ok, { state with
                  receivedChunks := state.receivedChunks + 1
                  verifiedBytes := state.verifiedBytes + call.payload.len })

/-- The loop of `rpc_stream_next_missing`: the status and what is stored. -/
def nextMissingFrom (state : StreamState) (i : UInt32) : Result (Status × Option UInt32) :=
  if h : i < state.totalChunks then do
    if ← rpcBitIsSet state i then nextMissingFrom state (i + 1)
    else pure (.ok, some i)
  else .ok (.incomplete, none)
termination_by state.totalChunks.toNat - i.toNat
decreasing_by
  have hlt := UInt32.lt_iff_toNat_lt.mp h
  have hbound := state.totalChunks.toNat_lt
  rw [UInt32.toNat_add]
  have hone : (1 : UInt32).toNat = 1 := rfl
  omega

/-- `rpc_stream_next_missing`, the `missing_index` pointer not being null. -/
def rpcStreamNextMissing (state : StreamState) (startIndex : UInt32) :
    Result (Status × Option UInt32) :=
  if ¬rpcValidTotal state.totalChunks ∨ state.totalChunks < startIndex then
    .ok (.errRange, none)
  else nextMissingFrom state startIndex

def rpcStreamComplete (state : StreamState) : Bool :=
  rpcValidTotal state.totalChunks && state.receivedChunks == state.totalChunks

/-- A run of calls, with the status of each. -/
def records (deriveKey : List Byte → List Byte → Digest) :
    StreamState → List Call → Result (List Status × StreamState)
  | state, [] => .ok ([], state)
  | state, call :: calls => do
      let (status, state) ← rpcStreamRecord deriveKey state call
      let (statuses, state) ← records deriveKey state calls
      pure (status :: statuses, state)

/-! ### The bitmap and the digests -/

section Bits

theorem toNat_byteIndex (index : UInt32) : (index >>> 3).toNat = index.toNat / 8 := by
  rw [UInt32.toNat_shiftRight]
  exact Nat.shiftRight_eq_div_pow index.toNat 3

theorem bitMask_eq (index : UInt32) : bitMask index = Bitmap.mask index.toNat := by
  have hlow : (index &&& 7).toNat = index.toNat % 8 := by
    rw [UInt32.toNat_and]
    exact Nat.and_two_pow_sub_one_eq_mod index.toNat 3
  have hpow : 2 ^ (index.toNat % 8) < 2 ^ 8 :=
    Nat.pow_lt_pow_right (by omega) (Nat.mod_lt _ (by omega))
  apply UInt8.toNat_inj.mp
  rw [bitMask, Bitmap.toNat_mask, UInt32.toNat_toUInt8, UInt32.toNat_shiftLeft, hlow,
    Nat.mod_eq_of_lt (show index.toNat % 8 < 32 by omega)]
  have hone : (1 : UInt32).toNat = 1 := rfl
  rw [hone, Nat.one_shiftLeft, Nat.mod_eq_of_lt (hpow.trans (by decide)), Nat.mod_eq_of_lt hpow]

theorem byteIndex_lt {index total : UInt32} (htotal : rpcValidTotal total = true)
    (h : index < total) : (index >>> 3).toNat < 512 := by
  rw [rpcValidTotal, Bool.and_eq_true, decide_eq_true_eq, decide_eq_true_eq] at htotal
  have hlt := UInt32.lt_iff_toNat_lt.mp h
  have hle := UInt32.le_iff_toNat_le.mp htotal.2
  have hmax : (4096 : UInt32).toNat = 4096 := rfl
  rw [toNat_byteIndex]
  omega

variable {state : StreamState} {index : UInt32}

theorem rpcBitIsSet_eq (h : (index >>> 3).toNat < 512) :
    rpcBitIsSet state index = .ok (Bitmap.isSet state.receivedBitmap index.toNat) := by
  rw [rpcBitIsSet, dif_pos h, bitMask_eq,
    Bitmap.isSet_of_lt _ (by rw [← toNat_byteIndex]; exact h)]
  congr 1
  rw [Bool.eq_iff_iff, decide_eq_true_eq, Bitmap.and_mask_ne_zero]
  simp only [toNat_byteIndex]

theorem rpcBitSet_eq (h : (index >>> 3).toNat < 512) :
    rpcBitSet state index = .ok { state with
      receivedBitmap := Bitmap.insert state.receivedBitmap index.toNat
        (by rw [← toNat_byteIndex]; exact h) } := by
  rw [rpcBitSet, dif_pos h]
  simp only [bitMask_eq, toNat_byteIndex, Bitmap.insert]

/-- The comparison is equality of the two digests. -/
theorem rpcDigestEqual_iff (left right : Digest) :
    rpcDigestEqual (some left) (some right) = true ↔ left = right := by
  rw [rpcDigestEqual, decide_eq_true_eq,
    Buffer.foldl_or_eq_zero (fun a b => UInt8.or_eq_zero_iff)]
  constructor
  · rintro ⟨-, h⟩
    refine Vector.ext fun i hi => ?_
    exact UInt8.xor_eq_zero_iff.mp (h ⟨i, hi⟩ (List.mem_finRange _))
  · rintro rfl
    exact ⟨rfl, fun i _ => UInt8.xor_self⟩

end Bits

/-! ### One call -/

section Step

variable (deriveKey : List Byte → List Byte → Digest)

/-- The expected digest of a call is the digest of its fragment. -/
def Genuine (packetId : PacketId) (totalChunks : UInt32) (call : Call) : Prop :=
  ∃ digest ∈ call.expectedDigest,
    rpcChunkDigest deriveKey (some packetId) call.chunkIndex totalChunks call.payload = .ok digest

/-- The status and the next state of one call. -/
inductive Recorded (state : StreamState) (call : Call) : Status → StreamState → Prop where
  | argument (h : ¬Genuine deriveKey state.packetId state.totalChunks call) :
      Recorded state call .errArgument state
  | range (h : ¬Genuine deriveKey state.packetId state.totalChunks call) :
      Recorded state call .errRange state
  | digest (h : ¬Genuine deriveKey state.packetId state.totalChunks call) :
      Recorded state call .errDigest { state with rejectedChunks := state.rejectedChunks + 1 }
  | duplicate (h : Genuine deriveKey state.packetId state.totalChunks call)
      (hset : Bitmap.isSet state.receivedBitmap call.chunkIndex.toNat = true) :
      Recorded state call .duplicate state
  | accepted (h : Genuine deriveKey state.packetId state.totalChunks call)
      (hset : Bitmap.isSet state.receivedBitmap call.chunkIndex.toNat = false)
      (hlt : call.chunkIndex < state.totalChunks) (hbyte : call.chunkIndex.toNat / 8 < 512) :
      Recorded state call .ok { state with
        receivedChunks := state.receivedChunks + 1
        verifiedBytes := state.verifiedBytes + call.payload.len
        receivedBitmap := Bitmap.insert state.receivedBitmap call.chunkIndex.toNat hbyte }

/-- A digest is computed exactly of accepted arguments. -/
theorem rpcChunkDigest_eq_ok {deriveKey : List Byte → List Byte → Digest} {packetId : PacketId}
    {chunkIndex totalChunks : UInt32}
    {payload : Payload} {digest : Digest}
    (h : rpcChunkDigest deriveKey (some packetId) chunkIndex totalChunks payload = .ok digest) :
    ¬payload.IsNull ∧ rpcValidTotal totalChunks = true ∧ chunkIndex < totalChunks := by
  rw [rpcChunkDigest, chunkHasher] at h
  split_ifs at h with hnull hrange hlen
  · cases h
  · cases h
  all_goals
    rw [not_or, not_not, UInt32.not_le] at hrange
    exact ⟨hnull, hrange⟩

theorem rpcStreamRecord_recorded {state : StreamState} (call : Call)
    (htotal : rpcValidTotal state.totalChunks = true) :
    ∃ status state', rpcStreamRecord deriveKey state call = .ok (status, state') ∧
      Recorded deriveKey state call status state' := by
  rw [rpcStreamRecord]
  rcases hexpected : call.expectedDigest with _ | expected
  · refine ⟨_, _, rfl, .argument ?_⟩
    rintro ⟨digest, hdigest, -⟩
    simp [hexpected] at hdigest
  dsimp only
  split_ifs with hnull hrange
  · refine ⟨_, _, rfl, .argument ?_⟩
    rintro ⟨digest, -, hdigest⟩
    exact (rpcChunkDigest_eq_ok hdigest).1 hnull
  · refine ⟨_, _, rfl, .range ?_⟩
    rintro ⟨digest, -, hdigest⟩
    obtain ⟨-, hvalid, hlt⟩ := rpcChunkDigest_eq_ok hdigest
    rcases hrange with hrange | hrange
    · exact hrange hvalid
    · exact UInt32.not_le.mpr hlt hrange
  · rw [not_or, not_not, UInt32.not_le] at hrange
    obtain ⟨actual, hactual⟩ : ∃ actual, rpcChunkDigest deriveKey (some state.packetId)
        call.chunkIndex state.totalChunks call.payload = .ok actual := by
      rw [rpcChunkDigest, chunkHasher, if_neg hnull,
        if_neg (by rw [not_or, not_not, UInt32.not_le]; exact hrange)]
      exact ⟨_, rfl⟩
    rw [hactual]
    dsimp only
    have hgenuine : Genuine deriveKey state.packetId state.totalChunks call ↔
        actual = expected := by
      constructor
      · rintro ⟨digest, hmem, hdigest⟩
        rw [hexpected] at hmem
        obtain rfl := Option.some.inj hmem
        exact Except.ok.inj (hactual.symm.trans hdigest)
      · rintro rfl
        exact ⟨actual, by rw [hexpected]; rfl, hactual⟩
    have hbyte := byteIndex_lt htotal hrange.2
    split_ifs with hequal
    · rw [rpcDigestEqual_iff, ← hgenuine] at hequal
      rw [rpcBitIsSet_eq hbyte, Result.ok_bind]
      rcases hset : Bitmap.isSet state.receivedBitmap call.chunkIndex.toNat with _ | _
      · rw [if_neg (by simp), rpcBitSet_eq hbyte, Result.ok_bind]
        exact ⟨_, _, rfl, .accepted hequal hset hrange.2 _⟩
      · exact ⟨_, _, rfl, .duplicate hequal hset⟩
    · rw [rpcDigestEqual_iff, ← hgenuine] at hequal
      exact ⟨_, _, rfl, .digest hequal⟩

end Step

/-! ### A run of calls -/

section Run

variable (deriveKey : List Byte → List Byte → Digest) (packetId : PacketId) (totalChunks : UInt32)

/-- The calls of a log that returned `RPC_OK`. -/
def acceptedCalls (log : List (Call × Status)) : List Call :=
  (log.filter fun entry => entry.2 = .ok).map Prod.fst

/-- The indices of a log that were accepted, in order. -/
def acceptedIndices (log : List (Call × Status)) : List ℕ :=
  (acceptedCalls log).map fun call => call.chunkIndex.toNat

/-- The bytes of a log that were accepted. -/
def acceptedBytes (log : List (Call × Status)) : ℕ :=
  ((acceptedCalls log).map fun call => call.payload.len.toNat).sum

/-- The calls of a log that returned `RPC_ERR_DIGEST`. -/
def digestFailures (log : List (Call × Status)) : ℕ :=
  log.countP fun entry => entry.2 = .errDigest

/-- What a state holds after the calls of a log. -/
structure StreamInvariant (log : List (Call × Status)) (state : StreamState) : Prop where
  packetId_eq : state.packetId = packetId
  totalChunks_eq : state.totalChunks = totalChunks
  isSet_iff : ∀ i, Bitmap.isSet state.receivedBitmap i = true ↔ i ∈ acceptedIndices log
  lt_total : ∀ i ∈ acceptedIndices log, i < totalChunks.toNat
  nodup : (acceptedIndices log).Nodup
  received : state.receivedChunks.toNat = (acceptedIndices log).length
  verified : state.verifiedBytes.toNat = acceptedBytes log % 2 ^ 64
  rejected : state.rejectedChunks.toNat = digestFailures log % 2 ^ 32
  genuine : ∀ i, i ∈ acceptedIndices log ↔
    ∃ entry ∈ log, Genuine deriveKey packetId totalChunks entry.1 ∧ entry.1.chunkIndex.toNat = i

variable {deriveKey packetId totalChunks}

theorem acceptedCalls_append_ok (log : List (Call × Status)) (call : Call) :
    acceptedCalls (log ++ [(call, .ok)]) = acceptedCalls log ++ [call] := by
  simp [acceptedCalls]

theorem acceptedCalls_append_of_ne (log : List (Call × Status)) (call : Call) {status : Status}
    (h : status ≠ .ok) : acceptedCalls (log ++ [(call, status)]) = acceptedCalls log := by
  simp [acceptedCalls, h]

theorem streamInvariant_init (deriveKey : List Byte → List Byte → Digest) {state : StreamState}
    (h : rpcStreamInit (some packetId) totalChunks = .ok state) :
    rpcValidTotal totalChunks = true ∧
      StreamInvariant deriveKey packetId totalChunks [] state := by
  rw [rpcStreamInit] at h
  split_ifs at h with htotal
  obtain rfl := Except.ok.inj h
  refine ⟨by simpa using htotal, ?_⟩
  exact {
    packetId_eq := rfl
    totalChunks_eq := rfl
    isSet_iff := fun i => by simp [Bitmap.isSet_replicate, acceptedIndices, acceptedCalls]
    lt_total := by simp [acceptedIndices, acceptedCalls]
    nodup := List.nodup_nil
    received := rfl
    verified := rfl
    rejected := rfl
    genuine := by simp [acceptedIndices, acceptedCalls] }

theorem length_le_total {indices : List ℕ} (hnodup : indices.Nodup)
    (hlt : ∀ i ∈ indices, i < totalChunks.toNat) : indices.length ≤ totalChunks.toNat := by
  rw [← List.toFinset_card_of_nodup hnodup, ← Finset.card_range totalChunks.toNat]
  apply Finset.card_le_card
  intro i hi
  exact Finset.mem_range.mpr (hlt i (List.mem_toFinset.mp hi))

/-- A call that is not accepted, and whose fragment is not genuine or not new, keeps the
state but for the failures. -/
theorem StreamInvariant.append_of_ne {log : List (Call × Status)} {state : StreamState}
    (hinv : StreamInvariant deriveKey packetId totalChunks log state) {call : Call}
    {status : Status} (hstatus : status ≠ .ok)
    (hknown : Genuine deriveKey packetId totalChunks call →
      call.chunkIndex.toNat ∈ acceptedIndices log)
    {rejectedChunks : UInt32}
    (hrejected : rejectedChunks.toNat = digestFailures (log ++ [(call, status)]) % 2 ^ 32) :
    StreamInvariant deriveKey packetId totalChunks (log ++ [(call, status)])
      { state with rejectedChunks := rejectedChunks } := by
  have hcalls := acceptedCalls_append_of_ne log call hstatus
  have hindices : acceptedIndices (log ++ [(call, status)]) = acceptedIndices log := by
    rw [acceptedIndices, hcalls, acceptedIndices]
  have hbytes : acceptedBytes (log ++ [(call, status)]) = acceptedBytes log := by
    rw [acceptedBytes, hcalls, acceptedBytes]
  constructor
  · exact hinv.packetId_eq
  · exact hinv.totalChunks_eq
  · rw [hindices]
    exact hinv.isSet_iff
  · rw [hindices]
    exact hinv.lt_total
  · rw [hindices]
    exact hinv.nodup
  · rw [hindices]
    exact hinv.received
  · rw [hbytes]
    exact hinv.verified
  · exact hrejected
  · intro i
    rw [hindices, hinv.genuine]
    constructor
    · rintro ⟨entry, hmem, hentry⟩
      exact ⟨entry, List.mem_append_left _ hmem, hentry⟩
    · rintro ⟨entry, hmem, hgenuine, rfl⟩
      rcases List.mem_append.mp hmem with hmem | hmem
      · exact ⟨entry, hmem, hgenuine, rfl⟩
      · obtain rfl := List.mem_singleton.mp hmem
        exact (hinv.genuine _).mp (hknown hgenuine)

theorem StreamInvariant.accept {log : List (Call × Status)} {state : StreamState}
    (hinv : StreamInvariant deriveKey packetId totalChunks log state) {call : Call}
    (hgenuine : Genuine deriveKey packetId totalChunks call)
    (hset : Bitmap.isSet state.receivedBitmap call.chunkIndex.toNat = false)
    (hlt : call.chunkIndex < totalChunks) (hbyte : call.chunkIndex.toNat / 8 < 512) :
    StreamInvariant deriveKey packetId totalChunks (log ++ [(call, .ok)]) { state with
      receivedChunks := state.receivedChunks + 1
      verifiedBytes := state.verifiedBytes + call.payload.len
      receivedBitmap := Bitmap.insert state.receivedBitmap call.chunkIndex.toNat hbyte } := by
  have hcalls := acceptedCalls_append_ok log call
  have hindices : acceptedIndices (log ++ [(call, .ok)]) =
      acceptedIndices log ++ [call.chunkIndex.toNat] := by
    rw [acceptedIndices, hcalls, List.map_append, acceptedIndices]
    rfl
  have hnew : call.chunkIndex.toNat ∉ acceptedIndices log := by
    rw [← hinv.isSet_iff, hset]
    simp
  have hlt' : ∀ i ∈ acceptedIndices log ++ [call.chunkIndex.toNat], i < totalChunks.toNat := by
    intro i hi
    rcases List.mem_append.mp hi with hi | hi
    · exact hinv.lt_total i hi
    · rw [List.mem_singleton.mp hi]
      exact UInt32.lt_iff_toNat_lt.mp hlt
  have hnodup : (acceptedIndices log ++ [call.chunkIndex.toNat]).Nodup :=
    List.nodup_append_comm.mp (List.nodup_cons.mpr ⟨hnew, hinv.nodup⟩)
  constructor
  · exact hinv.packetId_eq
  · exact hinv.totalChunks_eq
  · intro i
    rw [hindices, Bitmap.isSet_insert, Bool.or_eq_true, hinv.isSet_iff, decide_eq_true_eq,
      List.mem_append, List.mem_singleton]
  · rw [hindices]
    exact hlt'
  · rw [hindices]
    exact hnodup
  · -- distinct indices below the number of chunks: the counter does not wrap
    have hle := length_le_total hnodup hlt'
    have hbound := totalChunks.toNat_lt
    rw [List.length_append, List.length_singleton] at hle
    rw [hindices, List.length_append, List.length_singleton, ← hinv.received, UInt32.toNat_add]
    have hreceived := hinv.received
    exact Nat.mod_eq_of_lt (show state.receivedChunks.toNat + 1 < 2 ^ 32 by omega)
  · rw [acceptedBytes, hcalls, List.map_append, List.sum_append, UInt64.toNat_add, hinv.verified,
      Nat.mod_add_mod]
    simp [acceptedBytes]
  · rw [digestFailures, List.countP_append]
    exact hinv.rejected
  · intro i
    rw [hindices, List.mem_append, List.mem_singleton, hinv.genuine]
    constructor
    · rintro (⟨entry, hmem, hentry⟩ | rfl)
      · exact ⟨entry, List.mem_append_left _ hmem, hentry⟩
      · exact ⟨(call, .ok), by simp, hgenuine, rfl⟩
    · rintro ⟨entry, hmem, hentry, rfl⟩
      rcases List.mem_append.mp hmem with hmem | hmem
      · exact .inl ⟨entry, hmem, hentry, rfl⟩
      · obtain rfl := List.mem_singleton.mp hmem
        exact .inr rfl

theorem StreamInvariant.step {log : List (Call × Status)} {state state' : StreamState}
    (hinv : StreamInvariant deriveKey packetId totalChunks log state) {call : Call}
    {status : Status} (h : Recorded deriveKey state call status state') :
    StreamInvariant deriveKey packetId totalChunks (log ++ [(call, status)]) state' := by
  have hsame : ∀ {status : Status}, status ≠ .errDigest →
      state.rejectedChunks.toNat = digestFailures (log ++ [(call, status)]) % 2 ^ 32 := by
    intro status hne
    rw [hinv.rejected, digestFailures, digestFailures, List.countP_append]
    simp [hne]
  cases h with
  | argument h =>
      rw [hinv.packetId_eq, hinv.totalChunks_eq] at h
      exact hinv.append_of_ne (by decide) (fun hgenuine => absurd hgenuine h) (hsame (by decide))
  | range h =>
      rw [hinv.packetId_eq, hinv.totalChunks_eq] at h
      exact hinv.append_of_ne (by decide) (fun hgenuine => absurd hgenuine h) (hsame (by decide))
  | digest h =>
      rw [hinv.packetId_eq, hinv.totalChunks_eq] at h
      refine hinv.append_of_ne (by decide) (fun hgenuine => absurd hgenuine h) ?_
      rw [UInt32.toNat_add, hinv.rejected, digestFailures, digestFailures, List.countP_append]
      exact Nat.mod_add_mod _ _ _
  | duplicate h hset =>
      exact hinv.append_of_ne (by decide) (fun _ => (hinv.isSet_iff _).mp hset)
        (hsame (by decide))
  | accepted h hset hlt hbyte =>
      rw [hinv.packetId_eq, hinv.totalChunks_eq] at h
      rw [hinv.totalChunks_eq] at hlt
      exact hinv.accept h hset hlt hbyte

/-- Every run goes through, and ends in a state that agrees with its log. -/
theorem records_streamInvariant (htotal : rpcValidTotal totalChunks = true) (calls : List Call)
    {log : List (Call × Status)} {state : StreamState}
    (hinv : StreamInvariant deriveKey packetId totalChunks log state) :
    ∃ statuses state', records deriveKey state calls = .ok (statuses, state') ∧
      statuses.length = calls.length ∧
      StreamInvariant deriveKey packetId totalChunks (log ++ calls.zip statuses) state' := by
  induction calls generalizing log state with
  | nil => exact ⟨[], state, rfl, rfl, by simpa using hinv⟩
  | cons call calls ih =>
      rw [← hinv.totalChunks_eq] at htotal
      obtain ⟨status, next, hrecord, hstep⟩ := rpcStreamRecord_recorded deriveKey call htotal
      obtain ⟨statuses, last, hrun, hlength, hlast⟩ := ih (hinv.step hstep)
      refine ⟨status :: statuses, last, ?_, by rw [List.length_cons, List.length_cons, hlength], ?_⟩
      · rw [records, hrecord, Result.ok_bind]
        dsimp only
        rw [hrun]
        rfl
      · rw [List.zip_cons_cons, List.append_cons]
        exact hlast

/-! ### What is missing -/

/-- The least index from `start` on that is not in the bitmap. -/
inductive NextMissing (state : StreamState) (start : ℕ) : Status → Option UInt32 → Prop where
  | found (i : UInt32) (hstart : start ≤ i.toNat) (hlt : i < state.totalChunks)
      (hmissing : Bitmap.isSet state.receivedBitmap i.toNat = false)
      (hleast : ∀ j, start ≤ j → j < i.toNat → Bitmap.isSet state.receivedBitmap j = true) :
      NextMissing state start .ok (some i)
  | incomplete (hall : ∀ j, start ≤ j → j < state.totalChunks.toNat →
      Bitmap.isSet state.receivedBitmap j = true) : NextMissing state start .incomplete none

theorem nextMissingFrom_eq {state : StreamState} (htotal : rpcValidTotal state.totalChunks = true)
    (start : UInt32) : ∃ status missing, nextMissingFrom state start = .ok (status, missing) ∧
      NextMissing state start.toNat status missing := by
  induction start using nextMissingFrom.induct state with
  | case1 i hlt ih =>
      rw [nextMissingFrom, dif_pos hlt, rpcBitIsSet_eq (byteIndex_lt htotal hlt), Result.ok_bind]
      have hltNat := UInt32.lt_iff_toNat_lt.mp hlt
      rcases hset : Bitmap.isSet state.receivedBitmap i.toNat with _ | _
      · refine ⟨_, _, rfl, .found i le_rfl hlt hset ?_⟩
        intro j hij hji
        omega
      · have hbound := state.totalChunks.toNat_lt
        have hsucc : (i + 1).toNat = i.toNat + 1 := by
          rw [UInt32.toNat_add]
          exact Nat.mod_eq_of_lt (show i.toNat + 1 < 2 ^ 32 by omega)
        obtain ⟨status, missing, hnext, hspec⟩ := ih
        refine ⟨status, missing, hnext, ?_⟩
        rw [hsucc] at hspec
        cases hspec with
        | found k hstart hk hmissing hleast =>
            refine .found k (by omega) hk hmissing ?_
            intro j hij hjk
            rcases Nat.eq_or_lt_of_le hij with rfl | hij
            · exact hset
            · exact hleast j hij hjk
        | incomplete hall =>
            refine .incomplete ?_
            intro j hij hj
            rcases Nat.eq_or_lt_of_le hij with rfl | hij
            · exact hset
            · exact hall j hij hj
  | case2 i hge =>
      rw [nextMissingFrom, dif_neg hge]
      refine ⟨_, _, rfl, .incomplete ?_⟩
      intro j hij hj
      rw [UInt32.lt_iff_toNat_lt] at hge
      omega

theorem rpcStreamNextMissing_eq {state : StreamState} {start : UInt32}
    (htotal : rpcValidTotal state.totalChunks = true) (hstart : start ≤ state.totalChunks) :
    ∃ status missing, rpcStreamNextMissing state start = .ok (status, missing) ∧
      NextMissing state start.toNat status missing := by
  rw [rpcStreamNextMissing, if_neg (by simpa [htotal] using hstart)]
  exact nextMissingFrom_eq htotal start

/-- A stream is complete when every index has been accepted. -/
theorem rpcStreamComplete_iff (htotal : rpcValidTotal totalChunks = true)
    {log : List (Call × Status)} {state : StreamState}
    (hinv : StreamInvariant deriveKey packetId totalChunks log state) :
    rpcStreamComplete state = true ↔ ∀ i < totalChunks.toNat, i ∈ acceptedIndices log := by
  rw [rpcStreamComplete, hinv.totalChunks_eq, htotal, Bool.true_and, beq_iff_eq,
    ← UInt32.toNat_inj, hinv.received, ← List.toFinset_card_of_nodup hinv.nodup]
  have hsubset : (acceptedIndices log).toFinset ⊆ Finset.range totalChunks.toNat := by
    intro i hi
    exact Finset.mem_range.mpr (hinv.lt_total i (List.mem_toFinset.mp hi))
  constructor
  · intro hcard i hi
    have heq := Finset.eq_of_subset_of_card_le hsubset (by rw [hcard, Finset.card_range])
    rw [← List.mem_toFinset, heq]
    exact Finset.mem_range.mpr hi
  · intro hall
    rw [Finset.Subset.antisymm hsubset fun i hi =>
      List.mem_toFinset.mpr (hall i (Finset.mem_range.mp hi)), Finset.card_range]

theorem rpcStreamNextMissing_zero_iff (htotal : rpcValidTotal totalChunks = true)
    {log : List (Call × Status)} {state : StreamState}
    (hinv : StreamInvariant deriveKey packetId totalChunks log state) :
    rpcStreamNextMissing state 0 = .ok (.incomplete, none) ↔
      ∀ i < totalChunks.toNat, i ∈ acceptedIndices log := by
  rw [← hinv.totalChunks_eq] at htotal ⊢
  have hstart : (0 : UInt32) ≤ state.totalChunks := UInt32.le_iff_toNat_le.mpr (Nat.zero_le _)
  obtain ⟨status, missing, hnext, hspec⟩ := rpcStreamNextMissing_eq htotal hstart
  rw [hnext]
  cases hspec with
  | found i hstart hlt hmissing hleast =>
      refine iff_of_false (by simp) fun hall => ?_
      have hmem := hall i.toNat (UInt32.lt_iff_toNat_lt.mp hlt)
      rw [← hinv.isSet_iff, hmissing] at hmem
      cases hmem
  | incomplete hall =>
      refine iff_of_true rfl ?_
      intro i hi
      exact (hinv.isSet_iff i).mp (hall i (Nat.zero_le i) hi)

/-- Two runs with the same genuine calls accept the same indices. -/
theorem mem_acceptedIndices_of_same_genuine {log log' : List (Call × Status)}
    {state state' : StreamState} (hinv : StreamInvariant deriveKey packetId totalChunks log state)
    (hinv' : StreamInvariant deriveKey packetId totalChunks log' state')
    (hsame : ∀ call, Genuine deriveKey packetId totalChunks call →
      (call ∈ log.map Prod.fst ↔ call ∈ log'.map Prod.fst)) (i : ℕ) :
    i ∈ acceptedIndices log ↔ i ∈ acceptedIndices log' := by
  have hcalls : ∀ log : List (Call × Status),
      (∃ entry ∈ log, Genuine deriveKey packetId totalChunks entry.1 ∧
        entry.1.chunkIndex.toNat = i) ↔
      ∃ call ∈ log.map Prod.fst, Genuine deriveKey packetId totalChunks call ∧
        call.chunkIndex.toNat = i := by
    intro log
    simp
  rw [hinv.genuine, hinv'.genuine, hcalls, hcalls]
  constructor
  · rintro ⟨call, hmem, hgenuine, hi⟩
    exact ⟨call, (hsame call hgenuine).mp hmem, hgenuine, hi⟩
  · rintro ⟨call, hmem, hgenuine, hi⟩
    exact ⟨call, (hsame call hgenuine).mpr hmem, hgenuine, hi⟩

theorem same_of_mem_iff (htotal : rpcValidTotal totalChunks = true)
    {log log' : List (Call × Status)} {state state' : StreamState}
    (hinv : StreamInvariant deriveKey packetId totalChunks log state)
    (hinv' : StreamInvariant deriveKey packetId totalChunks log' state')
    (hsame : ∀ i, i ∈ acceptedIndices log ↔ i ∈ acceptedIndices log') :
    state'.receivedBitmap = state.receivedBitmap ∧ state'.receivedChunks = state.receivedChunks ∧
      rpcStreamComplete state' = rpcStreamComplete state := by
  refine ⟨?_, ?_, ?_⟩
  · apply Bitmap.ext_isSet
    intro i
    rw [Bool.eq_iff_iff, hinv.isSet_iff, hinv'.isSet_iff, hsame]
  · apply UInt32.toNat_inj.mp
    rw [hinv.received, hinv'.received]
    exact ((List.perm_ext_iff_of_nodup hinv'.nodup hinv.nodup).mpr
      fun i => (hsame i).symm).length_eq
  · rw [Bool.eq_iff_iff, rpcStreamComplete_iff htotal hinv, rpcStreamComplete_iff htotal hinv']
    simp only [hsame]

/-- Every run after `rpc_stream_init` keeps the counters, the bitmap and the two questions about
them in step, in every order of its calls. -/
theorem records_in_step (deriveKey : List Byte → List Byte → Digest) {state₀ : StreamState}
    (hinit : rpcStreamInit (some packetId) totalChunks = .ok state₀) (calls : List Call) :
    ∃ statuses state, records deriveKey state₀ calls = .ok (statuses, state) ∧
      statuses.length = calls.length ∧
      state.receivedChunks.toNat = Bitmap.count state.receivedBitmap ∧
      state.receivedChunks.toNat = (acceptedIndices (calls.zip statuses)).toFinset.card ∧
      (∀ i, Bitmap.isSet state.receivedBitmap i = true → i < totalChunks.toNat) ∧
      totalChunks.toNat ≤ 4096 ∧
      state.verifiedBytes.toNat = acceptedBytes (calls.zip statuses) % 2 ^ 64 ∧
      (acceptedIndices (calls.zip statuses)).Nodup ∧
      state.rejectedChunks.toNat = digestFailures (calls.zip statuses) % 2 ^ 32 ∧
      (∀ call, ∃ status next, rpcStreamRecord deriveKey state call = .ok (status, next) ∧
        (status = .duplicate ∨ status = .errRange ∨ status = .errArgument → next = state) ∧
        (status = .errDigest → next = { state with rejectedChunks := state.rejectedChunks + 1 })) ∧
      (rpcStreamComplete state = true ↔
        ∀ i < totalChunks.toNat, i ∈ acceptedIndices (calls.zip statuses)) ∧
      (rpcStreamComplete state = true ↔
        rpcStreamNextMissing state 0 = .ok (.incomplete, none)) ∧
      (∀ start ≤ totalChunks, ∃ status missing,
        rpcStreamNextMissing state start = .ok (status, missing) ∧
        NextMissing state start.toNat status missing) ∧
      ∀ calls', (∀ call, Genuine deriveKey packetId totalChunks call →
          (call ∈ calls' ↔ call ∈ calls)) →
        ∃ statuses' state', records deriveKey state₀ calls' = .ok (statuses', state') ∧
          state'.receivedBitmap = state.receivedBitmap ∧
          state'.receivedChunks = state.receivedChunks ∧
          rpcStreamComplete state' = rpcStreamComplete state := by
  obtain ⟨htotal, hempty⟩ := streamInvariant_init deriveKey hinit
  obtain ⟨statuses, state, hrun, hlength, hinv⟩ := records_streamInvariant htotal calls hempty
  rw [List.nil_append] at hinv
  have hmax : totalChunks.toNat ≤ 4096 := by
    rw [rpcValidTotal, Bool.and_eq_true, decide_eq_true_eq, decide_eq_true_eq] at htotal
    exact UInt32.le_iff_toNat_le.mp htotal.2
  have htotal' : rpcValidTotal state.totalChunks = true := by
    rw [hinv.totalChunks_eq]
    exact htotal
  -- an accepted index is below the number of chunks, so its bit is in the bitmap
  have hbits : ∀ i ∈ acceptedIndices (calls.zip statuses), i < 8 * 512 := fun i hi =>
    (hinv.lt_total i hi).trans_le hmax
  refine ⟨statuses, state, hrun, hlength, ?_, ?_, ?_, hmax, hinv.verified, hinv.nodup,
    hinv.rejected, ?_, rpcStreamComplete_iff htotal hinv, ?_, ?_, ?_⟩
  · rw [Bitmap.count_eq_length hinv.nodup hinv.isSet_iff hbits, hinv.received]
  · rw [List.toFinset_card_of_nodup hinv.nodup, hinv.received]
  · intro i hi
    exact hinv.lt_total i ((hinv.isSet_iff i).mp hi)
  · intro call
    obtain ⟨status, next, hrecord, hstep⟩ := rpcStreamRecord_recorded deriveKey call htotal'
    refine ⟨status, next, hrecord, ?_, ?_⟩
    · intro hstatus
      cases hstep with
      | argument h => rfl
      | range h => rfl
      | duplicate h hset => rfl
      | digest h => simp at hstatus
      | accepted h hset hlt hbyte => simp at hstatus
    · rintro rfl
      cases hstep
      rfl
  · rw [rpcStreamComplete_iff htotal hinv, rpcStreamNextMissing_zero_iff htotal hinv]
  · intro start hstart
    rw [← hinv.totalChunks_eq] at hstart
    exact rpcStreamNextMissing_eq htotal' hstart
  · intro calls' hsame
    -- both runs have accepted the indices of the same genuine fragments
    obtain ⟨statuses', state', hrun', hlength', hinv'⟩ :=
      records_streamInvariant htotal calls' hempty
    rw [List.nil_append] at hinv'
    refine ⟨statuses', state', hrun', same_of_mem_iff htotal hinv hinv' ?_⟩
    apply mem_acceptedIndices_of_same_genuine hinv hinv'
    intro call hgenuine
    rw [List.map_fst_zip hlength.ge, List.map_fst_zip hlength'.ge]
    exact (hsame call hgenuine).symm

end Run

/-- A fragment and its repetition. -/
theorem records_in_step_of_repetition : ∃ state₀ statuses state,
    rpcStreamInit (some (Vector.replicate 16 0)) 1 = .ok state₀ ∧
    records (fun _ _ => Vector.replicate 32 0) state₀ (List.replicate 2
      { chunkIndex := 0
        payload := { data := some [7], len := 1, len_eq := by simp }
        expectedDigest := some (Vector.replicate 32 0) }) = .ok (statuses, state) ∧
    state.receivedChunks.toNat = Bitmap.count state.receivedBitmap := by
  have hinit : rpcStreamInit (some (Vector.replicate 16 0)) 1 = .ok _ := rfl
  obtain ⟨statuses, state, hrun, -, hcount, -⟩ := records_in_step
    (fun _ _ => Vector.replicate 32 0) hinit (List.replicate 2
      { chunkIndex := 0
        payload := { data := some [7], len := 1, len_eq := by simp }
        expectedDigest := some (Vector.replicate 32 0) })
  exact ⟨_, statuses, state, hinit, hrun, hcount⟩

/-- A buffer of 4 PiB. -/
def largePayload : Payload where
  data := some (List.replicate (2 ^ 52) 0)
  len := UInt64.ofNat (2 ^ 52)
  len_eq := by
    intro bytes hbytes
    rw [← Option.some.inj hbytes, List.length_replicate, UInt64.toNat_ofNat_of_lt' (by decide)]

/-- The large buffer as a fragment. -/
def largeCall (i : ℕ) : Call where
  chunkIndex := UInt32.ofNat i
  payload := largePayload
  expectedDigest := some (Vector.replicate 32 0)

theorem toNat_chunkIndex_largeCall {i : ℕ} (hi : i < 4096) :
    (largeCall i).chunkIndex.toNat = i :=
  UInt32.toNat_ofNat_of_lt' (hi.trans (by decide))

theorem largeCall_genuine {i : ℕ} (hi : i < 4096) :
    Genuine (fun _ _ => Vector.replicate 32 0) (Vector.replicate 16 0) 4096 (largeCall i) := by
  have hrange : ¬(¬rpcValidTotal 4096 = true ∨ 4096 ≤ (largeCall i).chunkIndex) := by
    rw [not_or, UInt32.le_iff_toNat_le, toNat_chunkIndex_largeCall hi]
    exact ⟨by decide, Nat.not_le.mpr hi⟩
  refine ⟨_, rfl, ?_⟩
  rw [rpcChunkDigest, chunkHasher, if_neg (fun hnull => by cases hnull.1), if_neg hrange]
  rfl

/-- The number of bytes received can wrap around. -/
theorem verifiedBytes_wraps : ∃ deriveKey state₀ statuses state,
    rpcStreamInit (some (Vector.replicate 16 0)) 4096 = .ok state₀ ∧
    records deriveKey state₀ ((List.range 4096).map largeCall) = .ok (statuses, state) ∧
    state.verifiedBytes.toNat ≠ acceptedBytes (((List.range 4096).map largeCall).zip statuses) := by
  have hinit : rpcStreamInit (some (Vector.replicate 16 0)) 4096 = .ok _ := rfl
  obtain ⟨htotal, hempty⟩ := streamInvariant_init
    (fun _ _ => Vector.replicate 32 0) hinit
  obtain ⟨statuses, state, hrun, hlength, hinv⟩ :=
    records_streamInvariant htotal ((List.range 4096).map largeCall) hempty
  rw [List.nil_append] at hinv
  refine ⟨_, _, statuses, state, hinit, hrun, ?_⟩
  have hfst := List.map_fst_zip hlength.ge
  generalize ((List.range 4096).map largeCall).zip statuses = log at hinv hfst ⊢
  have hall : ∀ i < 4096, i ∈ acceptedIndices log := by
    intro i hi
    have hmem := List.mem_map_of_mem (f := largeCall) (List.mem_range.mpr hi)
    rw [← hfst] at hmem
    obtain ⟨entry, hentry, hcall⟩ := List.mem_map.mp hmem
    refine (hinv.genuine i).mpr ⟨entry, hentry, ?_, ?_⟩
    · rw [hcall]
      exact largeCall_genuine hi
    · rw [hcall]
      exact toNat_chunkIndex_largeCall hi
  have hcount : (acceptedIndices log).length = 4096 := by
    have hcomplete := (rpcStreamComplete_iff htotal hinv).mpr hall
    rw [rpcStreamComplete, Bool.and_eq_true, beq_iff_eq] at hcomplete
    rw [← hinv.received, hcomplete.2, hinv.totalChunks_eq]
    rfl
  have hlen : ∀ n ∈ (acceptedCalls log).map (fun call => call.payload.len.toNat), n = 2 ^ 52 := by
    intro n hn
    obtain ⟨call, hcall, rfl⟩ := List.mem_map.mp hn
    obtain ⟨entry, hentry, rfl⟩ := List.mem_map.mp hcall
    have hmem := List.mem_map_of_mem (f := Prod.fst) (List.mem_filter.mp hentry).1
    rw [hfst] at hmem
    obtain ⟨i, -, hi⟩ := List.mem_map.mp hmem
    rw [← hi]
    exact UInt64.toNat_ofNat_of_lt' (by decide)
  have hbytes : acceptedBytes log = 2 ^ 64 := by
    rw [acceptedIndices, List.length_map] at hcount
    rw [acceptedBytes, List.eq_replicate_of_mem hlen, List.sum_replicate_nat, List.length_map,
      hcount]
    decide
  rw [hinv.verified, hbytes]
  decide

end Blake3.Custody
