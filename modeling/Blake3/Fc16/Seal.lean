import Blake3.Fc16.Transcript
import Blake3.Lib.Codec
import Blake3.Lib.CrcDetect

/-!
The seal of a snapshot, `rmr_fc16_seal` and `rmr_fc16_verify_seal` of
`rmr_fc16_zip.c`. The verifier looks at seven letters and at the checksum.
-/

namespace Blake3.Fc16

/-- `{'R','F','C','1','6','S','1',0}` -/
def sealMagic : List Byte := [0x52, 0x46, 0x43, 0x31, 0x36, 0x53, 0x31, 0]

def crc32c (bytes : List Byte) : Word := crc32cFinish (crc32cUpdate 0xffffffff bytes)

/-- `g32` -/
def getU32 (p : List Byte) : Word := load32 (p.getD 0 0) (p.getD 1 0) (p.getD 2 0) (p.getD 3 0)

/-- What comes before the checksum, 372 bytes. -/
def sealBody (s : Snapshot) : List Byte :=
  sealMagic ++ putU32 s.version ++ putU32 s.flags ++ putU32 16 ++ putU32 s.rootCrc32c ++
    putU32 s.pathCountLow ++ putU32 s.thermalBeforeMilliC ++ putU32 s.thermalAfterMilliC ++
    putU32 s.warmupRounds ++ putU32 s.benchmarkSamples ++ putU64 s.benchmarkANs ++
    putU64 s.benchmarkBNs ++ putU64 s.entryCount ++ putU64 s.totalBytes ++ putU64 s.hwStamp ++
    s.laneCrc32c.toList.flatMap putU32 ++ s.laneXorFold.toList.flatMap putU32 ++
    s.laneBytes.toList.flatMap putU64 ++ s.sha256.toList

def sealBytes : ℕ := 8 + 4 * 9 + 8 * 5 + 16 * 4 + 16 * 4 + 16 * 8 + 32 + 4

/-- `rmr_fc16_seal`, none of its pointers being null. -/
def sealSnapshot (s : Snapshot) (cap : ℕ) : Except Status (List Byte) :=
  if cap < sealBytes then .error .errCapacity
  else .ok (sealBody s ++ putU32 (crc32c (sealBody s)))

def verifySeal (s : Option (List Byte)) : Status :=
  match s with
  | none => .errArgument
  | some s =>
      if s.length < 12 then .errArgument
      else if s.take 7 ≠ sealMagic.take 7 then .errIntegrity
      else if getU32 (s.drop (s.length - 4)) = crc32c (s.take (s.length - 4)) then .ok
      else .errIntegrity

/-! ### Fields of a seal -/

theorem putU32_getU32 {p : List Byte} (h : p.length = 4) : putU32 (getU32 p) = p := by
  obtain ⟨b₀, b₁, b₂, b₃, rfl⟩ := List.length_eq_four.mp h
  have hstore := congrArg Vector.toList (store32_load32 b₀ b₁ b₂ b₃)
  exact hstore

theorem getU32_putU32 (v : Word) : getU32 (putU32 v) = v := load32_store32 v

/-- Words of a fixed size, one after the other, are read back one by one. -/
theorem toList_flatMap_inj {α : Type} {k n : ℕ} {put : α → List Byte}
    (hput : ∀ v, (put v).length = k) (hinj : ∀ v w, put v = put w → v = w) {xs ys : Vector α n}
    (h : xs.toList.flatMap put = ys.toList.flatMap put) : xs = ys :=
  Vector.toList_inj.mp (Codec.flatMap_inj hput hinj (by simp) h)

theorem length_toList_flatMap {α : Type} {k n : ℕ} {put : α → List Byte}
    (hput : ∀ v, (put v).length = k) (xs : Vector α n) :
    (xs.toList.flatMap put).length = n * k := by
  rw [Codec.length_flatMap hput, Vector.length_toList]

theorem length_sealBody (s : Snapshot) : (sealBody s).length = 372 := by
  delta sealBody
  simp only [List.length_append, length_toList_flatMap length_putU32,
    length_toList_flatMap length_putU64, length_putU32, length_putU64, Vector.length_toList]
  rfl

theorem sealBody_inj {s s' : Snapshot} (h : sealBody s = sealBody s') : s = s' := by
  have h32 : ∀ xs ys : Vector Word 16,
      (xs.toList.flatMap putU32).length = (ys.toList.flatMap putU32).length :=
    fun xs ys =>
      (length_toList_flatMap length_putU32 xs).trans (length_toList_flatMap length_putU32 ys).symm
  have h64 : ∀ xs ys : Vector UInt64 16,
      (xs.toList.flatMap putU64).length = (ys.toList.flatMap putU64).length :=
    fun xs ys =>
      (length_toList_flatMap length_putU64 xs).trans (length_toList_flatMap length_putU64 ys).symm
  delta sealBody at h
  simp only [List.append_assoc] at h
  have h := List.append_cancel_left h
  obtain ⟨hversion, h⟩ := List.append_inj h rfl
  obtain ⟨hflags, h⟩ := List.append_inj h rfl
  have h := List.append_cancel_left h
  obtain ⟨hroot, h⟩ := List.append_inj h rfl
  obtain ⟨hpathCount, h⟩ := List.append_inj h rfl
  obtain ⟨hbefore, h⟩ := List.append_inj h rfl
  obtain ⟨hafter, h⟩ := List.append_inj h rfl
  obtain ⟨hwarmup, h⟩ := List.append_inj h rfl
  obtain ⟨hsamples, h⟩ := List.append_inj h rfl
  obtain ⟨ha, h⟩ := List.append_inj h rfl
  obtain ⟨hb, h⟩ := List.append_inj h rfl
  obtain ⟨hcount, h⟩ := List.append_inj h rfl
  obtain ⟨htotal, h⟩ := List.append_inj h rfl
  obtain ⟨hstamp, h⟩ := List.append_inj h rfl
  obtain ⟨hcrc, h⟩ := List.append_inj h (h32 _ _)
  obtain ⟨hxor, h⟩ := List.append_inj h (h32 _ _)
  obtain ⟨hbytes, hsha⟩ := List.append_inj h (h64 _ _)
  cases s
  cases s'
  rw [Snapshot.mk.injEq]
  exact ⟨putU32_inj hversion, putU32_inj hflags, putU32_inj hroot, putU32_inj hpathCount,
    putU64_inj hcount, putU64_inj htotal, putU64_inj hstamp, putU32_inj hbefore, putU32_inj hafter,
    putU32_inj hwarmup, putU32_inj hsamples, putU64_inj ha, putU64_inj hb,
    toList_flatMap_inj length_putU32 (fun _ _ => putU32_inj) hcrc,
    toList_flatMap_inj length_putU32 (fun _ _ => putU32_inj) hxor,
    toList_flatMap_inj length_putU64 (fun _ _ => putU64_inj) hbytes, Vector.toList_inj.mp hsha⟩

theorem verifySeal_eq_ok (bytes : List Byte) :
    verifySeal (some bytes) = .ok ↔ 12 ≤ bytes.length ∧ bytes.take 7 = sealMagic.take 7 ∧
      bytes.drop (bytes.length - 4) = putU32 (crc32c (bytes.take (bytes.length - 4))) := by
  rw [verifySeal]
  by_cases hshort : bytes.length < 12
  · rw [if_pos hshort]
    exact ⟨fun h => (by cases h), fun h => absurd h.1 (by omega)⟩
  · rw [if_neg hshort]
    by_cases hmagic : bytes.take 7 = sealMagic.take 7
    · rw [if_neg (not_not.mpr hmagic)]
      have hlast : (bytes.drop (bytes.length - 4)).length = 4 := by
        rw [List.length_drop]
        omega
      by_cases hcrc :
        getU32 (bytes.drop (bytes.length - 4)) = crc32c (bytes.take (bytes.length - 4))
      · rw [if_pos hcrc, ← hcrc, putU32_getU32 hlast]
        exact ⟨fun _ => ⟨by omega, hmagic, rfl⟩, fun _ => rfl⟩
      · rw [if_neg hcrc]
        refine ⟨fun h => (by cases h), fun h => absurd ?_ hcrc⟩
        rw [h.2.2, getU32_putU32]
    · rw [if_pos hmagic]
      exact ⟨fun h => (by cases h), fun h => absurd h.2.1 hmagic⟩

theorem verifySeal_sealSnapshot {s : Snapshot} {cap : ℕ} (h : sealBytes ≤ cap) :
    ∃ bytes, sealSnapshot s cap = .ok bytes ∧ bytes.length = sealBytes ∧
      verifySeal (some bytes) = .ok := by
  have hlength : (sealBody s ++ putU32 (crc32c (sealBody s))).length = 376 := by
    rw [List.length_append, length_sealBody]
    rfl
  refine ⟨_, if_neg (by omega), hlength, (verifySeal_eq_ok _).mpr ⟨by omega, ?_, ?_⟩⟩
  · delta sealBody
    simp [sealMagic]
  · rw [hlength, List.drop_left' (length_sealBody s), List.take_left' (length_sealBody s)]

theorem sealSnapshot_inj {s s' : Snapshot} {cap cap' : ℕ} {bytes : List Byte}
    (h : sealSnapshot s cap = .ok bytes) (h' : sealSnapshot s' cap' = .ok bytes) : s = s' := by
  rw [sealSnapshot] at h h'
  split_ifs at h h'
  have hsame := (Except.ok.inj h).trans (Except.ok.inj h').symm
  exact sealBody_inj (List.append_inj hsame
    ((length_sealBody s).trans (length_sealBody s').symm)).1

/-- What the verifier accepts: at least twelve bytes, the letters of the magic
and the checksum of all but the last four bytes in these. All seals are
accepted, and none of them is the seal of two snapshots. -/
theorem verifySeal_spec :
    (∀ bytes, verifySeal (some bytes) = .ok ↔ 12 ≤ bytes.length ∧ bytes.take 7 = sealMagic.take 7 ∧
      bytes.drop (bytes.length - 4) = putU32 (crc32c (bytes.take (bytes.length - 4)))) ∧
    (∀ s cap, sealBytes ≤ cap → ∃ bytes, sealSnapshot s cap = .ok bytes ∧ bytes.length = sealBytes ∧
      verifySeal (some bytes) = .ok) ∧
    ∀ s s' cap cap' bytes, sealSnapshot s cap = .ok bytes → sealSnapshot s' cap' = .ok bytes →
      s = s' :=
  ⟨verifySeal_eq_ok, fun _ _ h => verifySeal_sealSnapshot h, fun _ _ _ _ _ => sealSnapshot_inj⟩

/-- Twelve bytes that are accepted and are no seal. -/
theorem verifySeal_short :
    verifySeal (some (sealMagic ++ [0x70, 0x3a, 0x55, 0xed])) = .ok ∧
      ∀ s cap, sealSnapshot s cap ≠ .ok (sealMagic ++ [0x70, 0x3a, 0x55, 0xed]) := by
  refine ⟨by decide +kernel, fun s cap h => ?_⟩
  rw [sealSnapshot] at h
  split_ifs at h
  have hlength := congrArg List.length (Except.ok.inj h)
  rw [List.length_append, length_sealBody] at hlength
  simp [sealMagic] at hlength

/-! ### Damage -/

/-- The checksum of a seal up to its end, the stored checksum being read as well, does
not depend on the seal. -/
theorem crc_of_verifySeal {s : List Byte} (h : verifySeal (some s) = .ok) :
    Crc.update 0x82f63b78 0xffffffff s = Crc.shifts 0x82f63b78 32 0xffffffff := by
  obtain ⟨-, -, htrailer⟩ := (verifySeal_eq_ok s).mp h
  have hsplit : s = s.take (s.length - 4) ++ s.drop (s.length - 4) :=
    (List.take_append_drop _ s).symm
  rw [hsplit, htrailer, Crc.update_append, putU32_eq, Crc.update_toBytes _ _ (UInt32.toNat_lt _),
    crc32c, crc32cFinish, crc32cUpdate_eq, ← UInt32.xor_assoc, UInt32.xor_self, UInt32.zero_xor]

/-- What is as long as an accepted seal and has another checksum is rejected. -/
theorem verifySeal_of_crc_ne {s s' : List Byte} (h : verifySeal (some s) = .ok)
    (hlength : s'.length = s.length)
    (hcrc : Crc.update 0x82f63b78 0xffffffff s ≠ Crc.update 0x82f63b78 0xffffffff s') :
    verifySeal (some s') = .errIntegrity := by
  have hlong := ((verifySeal_eq_ok s).mp h).1
  have hne : verifySeal (some s') ≠ .ok := fun h' =>
    hcrc ((crc_of_verifySeal h).trans (crc_of_verifySeal h').symm)
  rw [verifySeal, if_neg (by omega)] at hne ⊢
  split_ifs at hne ⊢
  · rfl
  · exact absurd rfl hne
  · rfl

/-- An accepted seal that is changed within 32 consecutive bits, or in an odd number
of bits, is rejected, the checksum it stores being no exception. -/
theorem verifySeal_damaged {s s' : List Byte} (h : verifySeal (some s) = .ok)
    (hlength : s'.length = s.length) :
    (s' ≠ s → ∀ start, (∀ i ∈ Crc.differing s s', start ≤ i ∧ i < start + 32) →
      verifySeal (some s') = .errIntegrity) ∧
    (Odd (Crc.differing s s').card → verifySeal (some s') = .errIntegrity) := by
  constructor
  · intro hne start hwindow
    exact verifySeal_of_crc_ne h hlength (Crc.update_ne_of_window (by decide) hlength hne hwindow)
  · intro hodd
    exact verifySeal_of_crc_ne h hlength (Crc.update_ne_of_odd (by decide) hlength hodd)

theorem verifySeal_short_ok : verifySeal (some (sealMagic ++ [0x70, 0x3a, 0x55, 0xed])) = .ok := by
  decide +kernel

/-- Two bits of the shortest seal, and one of its checksum. -/
theorem verifySeal_damaged_short :
    verifySeal (some (sealMagic ++ [0x71, 0x3b, 0x55, 0xed])) = .errIntegrity ∧
      verifySeal (some (sealMagic ++ [0x70, 0x3a, 0x55, 0xec])) = .errIntegrity :=
  ⟨(@verifySeal_damaged _ (sealMagic ++ [0x71, 0x3b, 0x55, 0xed]) verifySeal_short_ok rfl).1
      (by decide) 64 (by decide),
    (@verifySeal_damaged _ (sealMagic ++ [0x70, 0x3a, 0x55, 0xec]) verifySeal_short_ok rfl).2
      (by decide)⟩

end Blake3.Fc16
