import Blake3.Lib.Process
import Blake3.Rust.Modes

/-!
`copy_wide` of `src/io.rs`: the loop that reads a file into a hasher. A reader
answers call after call; it writes what it likes into the buffer it is given, and
of that only counts what it says it has read.
-/

namespace Blake3.Rust

inductive IoError where
  | interrupted
  | other (message : String)

/-- One call of `read` with the buffer of 65536 bytes. -/
structure ReadCall where
  written : List Byte
  returned : Except IoError ℕ
  written_le : written.length ≤ 65536
  returned_le : ∀ n, returned = .ok n → n ≤ written.length

namespace ReadCall

/-- The call does not end the loop. -/
def Continues (call : ReadCall) : Prop :=
  (∃ n, call.returned = .ok (n + 1)) ∨ call.returned = .error .interrupted

/-- The call ends the loop: at the end of the file, or with another error. -/
def Ends (call : ReadCall) : Prop :=
  call.returned = .ok 0 ∨ ∃ message, call.returned = .error (.other message)

/-- The bytes that a call delivers. -/
def delivered (call : ReadCall) : Option (List Byte) :=
  match call.returned with
  | .ok n => some (call.written.take n)
  | .error _ => none

theorem delivered_of_ok (call : ReadCall) {n : ℕ} (h : call.returned = .ok n) :
    call.delivered = some (call.written.take n) := by
  rw [delivered, h]

theorem delivered_of_error (call : ReadCall) {e : IoError} (h : call.returned = .error e) :
    call.delivered = none := by
  rw [delivered, h]

theorem length_delivered (call : ReadCall) {n : ℕ} (h : call.returned = .ok n) :
    (call.written.take n).length = n :=
  List.length_take_of_le (call.returned_le n h)

end ReadCall

/-- The buffer behind a call that wrote into it. -/
def overwrite (buffer written : List Byte) : List Byte := written ++ buffer.drop written.length

/-- `&buffer[..n]` -/
def sliceTo (buffer : List Byte) (n : ℕ) : Result (List Byte) :=
  if n ≤ buffer.length then .ok (buffer.take n) else .error .outOfBounds

section

variable (f : Compress) (b : Build) (simd : Simd)

/-- The loop of `copy_wide` on the answers of its reader, from `total` bytes on. -/
def copyWideLoop : Hasher → List Byte → UInt64 → List ReadCall →
    Process Fault (Except IoError UInt64 × Hasher)
  | _, _, _, [] => .never
  | hasher, buffer, total, call :: calls => do
      let buffer := overwrite buffer call.written
      match call.returned with
      | .ok 0 => return (.ok total, hasher)
      | .ok (n + 1) => do
          let input ← .ofExcept (sliceTo buffer (n + 1))
          let hasher ← .ofExcept (hasher.update f b simd input)
          let total ← .ofExcept (b.addU64 total (UInt64.ofNat (n + 1)))
          copyWideLoop hasher buffer total calls
      -- see test_update_reader_interrupted
      | .error .interrupted => copyWideLoop hasher buffer total calls
      | .error e => return (.error e, hasher)

def copyWide (reader : List ReadCall) (hasher : Hasher) :
    Process Fault (Except IoError UInt64 × Hasher) :=
  copyWideLoop f b simd hasher (List.replicate 65536 0) 0 reader

end

/-! ### The loop -/

section

variable {f : Compress} {b : Build} {simd : Simd} {hasher : Hasher} {buffer : List Byte}
  {total : UInt64} {call : ReadCall} {calls : List ReadCall}

/-- The bytes in front of the buffer are the ones of the last call. -/
theorem sliceTo_overwrite {n : ℕ} (h : call.returned = .ok n) :
    sliceTo (overwrite buffer call.written) n = .ok (call.written.take n) := by
  have hle := call.returned_le n h
  rw [sliceTo, overwrite, List.length_append, if_pos (by omega), List.take_append_of_le_length hle]

theorem addU64_eq_ok {x y z : UInt64} (h : b.addU64 x y = .ok z) : z = x + y := by
  rw [Build.addU64] at h
  split at h
  · exact absurd h Result.error_ne_ok
  · exact (Except.ok.inj h).symm

theorem copyWideLoop_read {n : ℕ} (h : call.returned = .ok (n + 1)) :
    copyWideLoop f b simd hasher buffer total (call :: calls) =
      (.ofExcept (hasher.update f b simd (call.written.take (n + 1))) >>= fun hasher =>
        .ofExcept (b.addU64 total (UInt64.ofNat (n + 1))) >>= fun total =>
          copyWideLoop f b simd hasher (overwrite buffer call.written) total calls) := by
  rw [copyWideLoop, h]
  dsimp only
  rw [sliceTo_overwrite h]
  rfl

theorem copyWideLoop_interrupted (h : call.returned = .error .interrupted) :
    copyWideLoop f b simd hasher buffer total (call :: calls) =
      copyWideLoop f b simd hasher (overwrite buffer call.written) total calls := by
  rw [copyWideLoop, h]

theorem copyWideLoop_end (h : call.returned = .ok 0) :
    copyWideLoop f b simd hasher buffer total (call :: calls) = pure (.ok total, hasher) := by
  rw [copyWideLoop, h]

theorem copyWideLoop_error {message : String} (h : call.returned = .error (.other message)) :
    copyWideLoop f b simd hasher buffer total (call :: calls) =
      pure (.error (.other message), hasher) := by
  rw [copyWideLoop, h]

end

/-! ### Whole readers -/

/-- A reader up to its end. -/
structure Reader where
  before : List ReadCall
  last : ReadCall
  continues : ∀ call ∈ before, call.Continues
  ends : last.Ends

namespace Reader

/-- All that it delivers before the end or the error, call by call. -/
def slices (reader : Reader) : List (List Byte) := reader.before.filterMap ReadCall.delivered

def bytes (reader : Reader) : List Byte := reader.slices.flatten

/-- What the loop makes of the last call. -/
def answer (reader : Reader) (total : UInt64) : Except IoError UInt64 :=
  match reader.last.returned with
  | .ok _ => .ok total
  | .error e => .error e

end Reader

section

variable {f : Compress} {b : Build} {simd : Simd}

/-- The loop over the calls before the last one, by what they deliver. -/
theorem copyWideLoop_append {before after : List ReadCall}
    (h : ∀ call ∈ before, call.Continues) {hasher hasher' : Hasher} {buffer : List Byte}
    {total : UInt64} {r : Except IoError UInt64}
    (hrun : copyWideLoop f b simd hasher buffer total (before ++ after) = pure (r, hasher')) :
    ∃ middle buffer', hasher.updates f b simd .serial (before.filterMap ReadCall.delivered) =
        .ok middle ∧
      copyWideLoop f b simd middle buffer'
        (total + UInt64.ofNat (before.filterMap ReadCall.delivered).flatten.length) after =
          pure (r, hasher') := by
  induction before generalizing hasher buffer total with
  | nil => exact ⟨hasher, buffer, rfl, by simpa using hrun⟩
  | cons call before ih =>
      have hrest : ∀ call ∈ before, call.Continues := fun c hc => h c (List.mem_cons_of_mem _ hc)
      rw [List.cons_append] at hrun
      rcases h call List.mem_cons_self with ⟨n, hread⟩ | hread
      · rw [copyWideLoop_read hread, Process.bind_eq_pure] at hrun
        obtain ⟨hasher₁, hupdate, hrun⟩ := hrun
        obtain ⟨total₁, htotal, hrun⟩ := Process.bind_eq_pure.mp hrun
        rw [Process.ofExcept_eq_pure] at hupdate htotal
        obtain ⟨middle, buffer', hmiddle, hend⟩ := ih hrest hrun
        have hdelivered := call.delivered_of_ok hread
        have hlength := call.length_delivered hread
        refine ⟨middle, buffer', ?_, ?_⟩
        · rw [List.filterMap_cons, hdelivered, Hasher.updates, List.foldlM_cons]
          exact Result.bind_eq_ok.mpr ⟨hasher₁, hupdate, hmiddle⟩
        · rw [addU64_eq_ok htotal] at hend
          rw [List.filterMap_cons, hdelivered, List.flatten_cons, List.length_append, hlength,
            UInt64.ofNat_add (n + 1) _, ← UInt64.add_assoc]
          exact hend
      · rw [copyWideLoop_interrupted hread] at hrun
        have hdelivered := call.delivered_of_error hread
        rw [List.filterMap_cons, hdelivered]
        exact ih hrest hrun

/-- The loop goes through if the updates do, as long as the count fits. -/
theorem copyWideLoop_returns {before : List ReadCall} (after : List ReadCall)
    (h : ∀ call ∈ before, call.Continues) {hasher middle : Hasher} (buffer : List Byte)
    (total : UInt64)
    (hupdates : hasher.updates f b simd .serial (before.filterMap ReadCall.delivered) = .ok middle)
    (hfits : total.toNat + (before.filterMap ReadCall.delivered).flatten.length < 2 ^ 64) :
    ∃ buffer', copyWideLoop f b simd hasher buffer total (before ++ after) =
      copyWideLoop f b simd middle buffer'
        (total + UInt64.ofNat (before.filterMap ReadCall.delivered).flatten.length) after := by
  induction before generalizing hasher buffer total with
  | nil =>
      cases hupdates
      exact ⟨buffer, by simp⟩
  | cons call before ih =>
      have hrest : ∀ call ∈ before, call.Continues := fun c hc => h c (List.mem_cons_of_mem _ hc)
      rcases h call List.mem_cons_self with ⟨n, hread⟩ | hread
      · have hdelivered : call.delivered = some (call.written.take (n + 1)) := by
          rw [ReadCall.delivered, hread]
        have hlength : (call.written.take (n + 1)).length = n + 1 :=
          List.length_take_of_le (call.returned_le _ hread)
        rw [List.filterMap_cons, hdelivered] at hupdates hfits
        rw [List.flatten_cons, List.length_append, hlength] at hfits
        obtain ⟨hasher₁, hupdate, hupdates⟩ := Result.bind_eq_ok.mp hupdates
        have hn : (UInt64.ofNat (n + 1)).toNat = n + 1 := toNat_ofNat64 (by omega)
        have htotal : b.addU64 total (UInt64.ofNat (n + 1)) = .ok (total + UInt64.ofNat (n + 1)) :=
          b.addU64_of_lt (by omega)
        have hsum : (total + UInt64.ofNat (n + 1)).toNat = total.toNat + (n + 1) := by
          rw [UInt64.toNat_add, hn]
          omega
        obtain ⟨buffer', hloop⟩ := ih hrest (overwrite buffer call.written) _ hupdates
          (by rw [hsum]; omega)
        refine ⟨buffer', ?_⟩
        rw [List.cons_append, copyWideLoop_read hread,
          show hasher.update f b simd (call.written.take (n + 1)) = .ok hasher₁ from hupdate,
          Process.ofExcept_ok, pure_bind, htotal, Process.ofExcept_ok, pure_bind, hloop,
          List.filterMap_cons, hdelivered, List.flatten_cons, List.length_append, hlength,
          UInt64.ofNat_add (n + 1) _, ← UInt64.add_assoc]
      · have hdelivered : call.delivered = none := by
          rw [ReadCall.delivered, hread]
        rw [List.filterMap_cons, hdelivered] at hupdates hfits ⊢
        rw [List.cons_append, copyWideLoop_interrupted hread]
        exact ih hrest _ _ hupdates hfits

theorem copyWideLoop_last {call : ReadCall} (h : call.Ends) (hasher : Hasher) (buffer : List Byte)
    (total : UInt64) (after : List ReadCall) :
    copyWideLoop f b simd hasher buffer total (call :: after) =
      pure (match call.returned with | .ok _ => .ok total | .error e => .error e, hasher) := by
  rcases h with h | ⟨message, h⟩
  · rw [copyWideLoop_end h, h]
  · rw [copyWideLoop_error h, h]

/-- Where it returns, the updates went through. -/
theorem copyWide_updates {reader : Reader} {after : List ReadCall} {hasher hasher' : Hasher}
    {r : Except IoError UInt64}
    (hrun : copyWide f b simd (reader.before ++ reader.last :: after) hasher = pure (r, hasher')) :
    hasher.updates f b simd .serial reader.slices = .ok hasher' ∧
      r = reader.answer (UInt64.ofNat reader.bytes.length) := by
  obtain ⟨middle, buffer', hupdates, hend⟩ := copyWideLoop_append reader.continues hrun
  rw [copyWideLoop_last reader.ends, UInt64.zero_add] at hend
  obtain ⟨hanswer, rfl⟩ := Prod.mk.inj (Process.pure_inj hend)
  exact ⟨hupdates, hanswer.symm⟩

/-- Where the updates go through and the count fits, it returns. -/
theorem copyWide_returns (reader : Reader) (after : List ReadCall) {hasher hasher' : Hasher}
    (hupdates : hasher.updates f b simd .serial reader.slices = .ok hasher')
    (hfits : reader.bytes.length < 2 ^ 64) :
    copyWide f b simd (reader.before ++ reader.last :: after) hasher =
      pure (reader.answer (UInt64.ofNat reader.bytes.length), hasher') := by
  obtain ⟨buffer', hloop⟩ := copyWideLoop_returns (reader.last :: after) reader.continues
    (List.replicate 65536 0) 0 hupdates (by rw [UInt64.toNat_zero, Nat.zero_add]; exact hfits)
  rw [copyWide, hloop, copyWideLoop_last reader.ends, UInt64.zero_add]
  rfl

/-- `copy_wide` with any reader. Where it returns, the hasher is the one that has been
updated with what the calls before the last one delivered, piece by piece, and
what is returned is the count of these bytes or the error of the last call; and it
returns if the updates do and the count fits a word. A hasher that had read some bytes
has then read these and the ones that were delivered, as it would have by a single
update. -/
theorem copyWide_spec (f : Compress) (b : Build) (simd : Simd) (reader : Reader)
    (after : List ReadCall) (hasher : Hasher) :
    (∀ r hasher', copyWide f b simd (reader.before ++ reader.last :: after) hasher =
        pure (r, hasher') →
      hasher.updates f b simd .serial reader.slices = .ok hasher' ∧
        r = reader.answer (UInt64.ofNat reader.bytes.length)) ∧
    (∀ hasher', hasher.updates f b simd .serial reader.slices = .ok hasher' →
      reader.bytes.length < 2 ^ 64 →
      copyWide f b simd (reader.before ++ reader.last :: after) hasher =
        pure (reader.answer (UInt64.ofNat reader.bytes.length), hasher')) ∧
    ∀ key flags i bytes, hasher.Reads f key flags i bytes →
      Room i (bytes ++ reader.bytes).length →
      ∃ hasher' hasher'', copyWide f b simd (reader.before ++ reader.last :: after) hasher =
          pure (reader.answer (UInt64.ofNat reader.bytes.length), hasher') ∧
        hasher.update f b simd reader.bytes = .ok hasher'' ∧
        hasher'.Reads f key flags i (bytes ++ reader.bytes) ∧
        hasher''.Reads f key flags i (bytes ++ reader.bytes) := by
  refine ⟨fun r hasher' => copyWide_updates, fun hasher' => copyWide_returns reader after,
    fun key flags i bytes hreads hroom => ?_⟩
  obtain ⟨hasher', hupdates, hreads'⟩ := Hasher.updates_eq (b := b) simd .serial hreads
    reader.slices hroom
  obtain ⟨hasher'', hupdate, hreads''⟩ := Hasher.updateWithJoin_eq (b := b) simd .serial hreads
    reader.bytes hroom
  have hbelow := hroom.below
  rw [List.length_append] at hbelow
  exact ⟨hasher', hasher'', copyWide_returns reader after hupdates (by omega), hupdate, hreads',
    hreads''⟩

end

/-! ### A reader that is interrupted -/

theorem ok_le {written : List Byte} {m n : ℕ} (hm : m ≤ written.length)
    (h : (.ok m : Except IoError ℕ) = .ok n) : n ≤ written.length := by
  cases h
  exact hm

/-- Three bytes, with one more written behind them. -/
def shortRead : ReadCall where
  written := [1, 2, 3, 9]
  returned := .ok 3
  written_le := Nat.le_of_ble_eq_true rfl
  returned_le _ := ok_le (Nat.le_of_ble_eq_true rfl)

def nextRead : ReadCall where
  written := [4, 5]
  returned := .ok 2
  written_le := Nat.le_of_ble_eq_true rfl
  returned_le _ := ok_le (Nat.le_of_ble_eq_true rfl)

def endRead : ReadCall where
  written := []
  returned := .ok 0
  written_le := Nat.zero_le _
  returned_le _ := ok_le (Nat.zero_le _)

/-- A call that wrote a byte and then failed. -/
def failedRead (e : IoError) : ReadCall where
  written := [8]
  returned := .error e
  written_le := Nat.le_of_ble_eq_true rfl
  returned_le _ h := absurd h Result.error_ne_ok

theorem continues_interrupted :
    ∀ call ∈ [shortRead, failedRead .interrupted, nextRead], call.Continues := by
  intro call hcall
  rcases List.mem_cons.mp hcall with rfl | hcall
  · exact .inl ⟨2, rfl⟩
  · rcases List.mem_cons.mp hcall with rfl | hcall
    · exact .inr rfl
    · obtain rfl := List.mem_singleton.mp hcall
      exact .inl ⟨1, rfl⟩

/-- Two reads with an interruption between them, and then the last call. -/
def interruptedReader (last : ReadCall) (ends : last.Ends) : Reader where
  before := [shortRead, failedRead .interrupted, nextRead]
  last := last
  continues := continues_interrupted
  ends := ends

theorem copyWide_spec_interrupted :
    (∃ hasher hasher', copyWide compress ⟨true, true⟩ Simd.portable
        [shortRead, failedRead .interrupted, nextRead, endRead] Hasher.new = pure (.ok 5, hasher) ∧
      Hasher.new.update compress ⟨true, true⟩ Simd.portable [1, 2, 3, 4, 5] = .ok hasher' ∧
      hasher.Reads compress iv 0 0 [1, 2, 3, 4, 5] ∧
      hasher'.Reads compress iv 0 0 [1, 2, 3, 4, 5]) ∧
    ∃ hasher, copyWide compress ⟨true, true⟩ Simd.portable
        [shortRead, failedRead .interrupted, nextRead, failedRead (.other "broken"), shortRead]
        Hasher.new = pure (.error (.other "broken"), hasher) ∧
      hasher.Reads compress iv 0 0 [1, 2, 3, 4, 5] := by
  have hnew := Hasher.reads_newInternal compress iv 0
  have hroom : Room 0 ([] ++ [1, 2, 3, 4, 5] : List Byte).length := ⟨by decide, .inl rfl⟩
  obtain ⟨-, -, hread⟩ := copyWide_spec compress ⟨true, true⟩ Simd.portable
    (interruptedReader endRead (.inl rfl)) [] Hasher.new
  obtain ⟨-, -, hbroken⟩ := copyWide_spec compress ⟨true, true⟩ Simd.portable
    (interruptedReader (failedRead (.other "broken")) (.inr ⟨_, rfl⟩)) [shortRead] Hasher.new
  obtain ⟨hasher, hasher', hrun, hupdate, hreads, hreads'⟩ := hread iv 0 0 [] hnew hroom
  obtain ⟨hasher'', -, hrun', -, hreads'', -⟩ := hbroken iv 0 0 [] hnew hroom
  exact ⟨⟨hasher, hasher', hrun, hupdate, hreads, hreads'⟩, hasher'', hrun', hreads''⟩

end Blake3.Rust
