import Blake3.Zrf1.Tokens

/-!
Containers. What is packed is a container of its source, and the unpacker
accepts exactly the containers that fit; no byte string makes it leave its
buffers or wrap around.
-/

namespace Blake3.Zrf1

/-- The size of the contents by the header. -/
def declaredRaw (src : List Byte) : ℕ := LittleEndian.ofBytes ((src.drop 6).take 4)

/-- The size of the payload by the header. -/
def declaredPayload (src : List Byte) : ℕ := LittleEndian.ofBytes ((src.drop 10).take 4)

/-- What the payload stands for. -/
inductive Stored (src out : List Byte) : Prop
  | raw (hmode : src[5]? = some 0) (h : src.drop zHdr = out)
  | tokens (hmode : src[5]? = some 1) (h : Decodes (src.drop zHdr) out)

/-- `src` is a container of `out`. -/
structure Container (hash : List Byte → Digest) (src out : List Byte) : Prop where
  magic : src.take 5 = [0x5a, 0x52, 0x46, 0x31, 1]
  length_eq : src.length = zHdr + declaredPayload src
  raw_eq : declaredRaw src = out.length
  le_max : out.length ≤ zMax
  stored : Stored src out
  digest_eq : (src.drop 14).take 32 = (hash out).toList

/-! ### The digest -/

section Digest

variable {src dst : List Byte}

theorem toUInt32_xor_eq_zero (a b : Byte) : (a ^^^ b).toUInt32 = 0 ↔ a = b := by
  have hword : (a ^^^ b).toUInt32 = (0 : Byte).toUInt32 ↔ a ^^^ b = 0 := UInt8.toUInt32_inj
  rw [← UInt8.xor_eq_zero_iff, ← hword]
  rfl

theorem digestDiff_eq (digest : Digest) (hlen : zHdr ≤ src.length) :
    ∃ diff, digestDiff digest src = .ok diff ∧
      (diff = 0 ↔ (src.drop 14).take 32 = digest.toList) := by
  rw [zHdr] at hlen
  have hfold : ∀ (indices : List (Fin 32)) (diff : Word),
      indices.foldlM (fun diff (k : Fin 32) => do
        let expected ← Memory.load src (14 + k)
        pure (diff ||| (digest.get k ^^^ expected).toUInt32)) diff =
      (.ok (indices.foldl (fun diff (k : Fin 32) =>
        diff ||| (digest.get k ^^^ src[14 + k.val]).toUInt32) diff) : Result Word) := by
    intro indices
    induction indices with
    | nil => exact fun diff => rfl
    | cons k indices ih =>
        intro diff
        rw [List.foldlM_cons, Memory.load_of_lt (by omega), Result.ok_bind, Result.pure_eq,
          Result.ok_bind, ih, List.foldl_cons]
  refine ⟨_, hfold _ _, ?_⟩
  rw [Buffer.foldl_or_eq_zero (fun a b => UInt32.or_eq_zero_iff)]
  constructor
  · rintro ⟨-, h⟩
    apply List.ext_getElem
    · rw [List.length_take, List.length_drop, Vector.length_toList]
      omega
    · intro k hk hk'
      rw [Vector.length_toList] at hk'
      have hbyte := (toUInt32_xor_eq_zero _ _).mp (h ⟨k, hk'⟩ (List.mem_finRange _))
      rw [List.getElem_take, List.getElem_drop, Vector.getElem_toList]
      exact hbyte.symm
  · intro h
    refine ⟨rfl, fun k _ => (toUInt32_xor_eq_zero _ _).mpr ?_⟩
    have hbyte := congrArg (fun bytes => bytes[k.val]?) h
    rw [List.getElem?_eq_getElem (by rw [List.length_take, List.length_drop]; omega),
      List.getElem?_eq_getElem (by simp), Option.some.injEq, List.getElem_take, List.getElem_drop,
      Vector.getElem_toList] at hbyte
    exact hbyte.symm

/-- The output is accepted when its digest is the one in the header. -/
theorem checkDigest_eq (hash : List Byte → Digest) {raw : ℕ} (written : ℕ)
    (hlen : zHdr ≤ src.length) (hraw : raw ≤ dst.length) :
    checkDigest hash src dst raw written =
      if (src.drop 14).take 32 = (hash (dst.take raw)).toList then
        .ok { code := 0, dst := some dst, written := some raw }
      else .ok { code := -4, dst := some dst, written := some written } := by
  obtain ⟨diff, hdiff, hzero⟩ := digestDiff_eq (hash (dst.take raw)) hlen
  rw [checkDigest, zHash, Memory.region_eq (by omega), Result.ok_bind, List.drop_zero,
    Result.pure_eq, Result.ok_bind, hdiff, Result.ok_bind]
  simp only [ne_eq, ite_not, hzero]
  rfl

end Digest

/-! ### Unpacking -/

theorem Decodes.unique {stream out out' : List Byte} (h : Decodes stream out)
    (h' : Decodes stream out') : out = out' := by
  induction h generalizing out' with
  | nil =>
      cases h'
      rfl
  | run htoken rest ih =>
      obtain ⟨_, _, _, heq, rfl, hrest⟩ := h'.of_run htoken
      obtain ⟨rfl, rfl⟩ := List.cons.inj heq
      rw [ih hrest]
  | literal htoken hlength rest ih =>
      obtain ⟨-, _, rfl, hrest⟩ := h'.of_literal htoken
      rw [List.drop_left' hlength] at hrest
      rw [List.take_left' hlength, ih hrest]

/-- A payload stands for one output. -/
theorem Stored.unique {src out out' : List Byte} (h : Stored src out) (h' : Stored src out') :
    out = out' := by
  cases h with
  | raw hmode hraw =>
      cases h' with
      | raw _ hraw' => rw [← hraw, hraw']
      | tokens hmode' _ =>
          rw [hmode] at hmode'
          exact absurd hmode' (by decide)
  | tokens hmode hdecodes =>
      cases h' with
      | raw hmode' _ =>
          rw [hmode] at hmode'
          exact absurd hmode' (by decide)
      | tokens _ hdecodes' => exact hdecodes.unique hdecodes'

section Unpack

variable (hash : List Byte → Digest) (src : List Byte) (cap : ℕ)

/-- How a call of the unpacker ends: with the contents of the container, or with an error and the
count unchanged. -/
inductive UnpackSpec (dst : List Byte) (written : ℕ) : Outcome → Prop
  | ok {dst' out : List Byte} (h : Container hash src out) (hfits : out.length ≤ cap)
      (hlength : dst'.length = dst.length) (hdrop : dst'.drop out.length = dst.drop out.length)
      (hout : dst'.take out.length = out) :
      UnpackSpec dst written { code := 0, dst := some dst', written := some out.length }
  | error {code : ℤ} {dst' : List Byte} (hcode : code < 0)
      (hno : ∀ out, Container hash src out → cap < out.length) (hlength : dst'.length = dst.length)
      (hdrop : dst'.drop (min (declaredRaw src) cap) = dst.drop (min (declaredRaw src) cap)) :
      UnpackSpec dst written { code := code, dst := some dst', written := some written }

variable {hash src cap} {dst : List Byte} {written : ℕ}

theorem UnpackSpec.error_of {code : ℤ} (hcode : code < 0)
    (hno : ∀ out, Container hash src out → cap < out.length) :
    UnpackSpec hash src cap dst written
      { code := code, dst := some dst, written := some written } :=
  .error hcode hno rfl rfl

/-- What happens once the output is written. -/
theorem checkDigest_spec {dst' out : List Byte} (hmagic : src.take 5 = [0x5a, 0x52, 0x46, 0x31, 1])
    (hlen : src.length = zHdr + declaredPayload src) (hraw : declaredRaw src = out.length)
    (hmax : out.length ≤ zMax) (hfits : out.length ≤ cap) (hstored : Stored src out)
    (hroom : out.length ≤ dst.length)
    (hdst : dst' = Buffer.overwrite dst 0 out) :
    ∃ outcome, checkDigest hash src dst' out.length written = .ok outcome ∧
      UnpackSpec hash src cap dst written outcome := by
  have hroom0 : 0 + out.length ≤ dst.length := by omega
  have hlength : dst'.length = dst.length := by rw [hdst, Buffer.length_overwrite hroom0]
  have htake : dst'.take out.length = out := by
    rw [hdst, Buffer.take_overwrite_zero]
  have hdrop : dst'.drop out.length = dst.drop out.length := by
    rw [hdst, Buffer.drop_overwrite (Nat.zero_le _) (by omega)]
  rw [checkDigest_eq hash written (by omega) (by rw [hlength]; exact hroom), htake]
  split_ifs with hdigest
  · exact ⟨_, rfl, .ok ⟨hmagic, hlen, hraw, hmax, hstored, hdigest⟩ hfits hlength hdrop htake⟩
  · refine ⟨_, rfl, .error (by decide) ?_ hlength ?_⟩
    · intro out' hout'
      rw [hout'.stored.unique hstored] at hout'
      exact absurd hout'.digest_eq hdigest
    · rw [hraw, Nat.min_eq_left hfits, hdrop]

/-- There are two modes. -/
theorem Stored.mode_le {out : List Byte} (h : Stored src out) (hlen : 5 < src.length) :
    src[5] ≤ 1 := by
  have hmode? : src[5]? = some src[5] := List.getElem?_eq_getElem hlen
  cases h with
  | raw hzero _ =>
      rw [hmode?, Option.some.injEq] at hzero
      rw [hzero]
      decide
  | tokens hone _ =>
      rw [hmode?, Option.some.injEq] at hone
      rw [hone]
      decide

theorem take_five {b : Byte} (h : 5 ≤ src.length) :
    src.take 5 = [0x5a, 0x52, 0x46, 0x31, b] ↔
      src[0] = 0x5a ∧ src[1] = 0x52 ∧ src[2] = 0x46 ∧ src[3] = 0x31 ∧ src[4] = b := by
  have htake : src.take 5 = [src[0], src[1], src[2], src[3], src[4]] := by
    conv_lhs => rw [← List.drop_zero (l := src)]
    rw [List.drop_eq_getElem_cons (by omega), List.drop_eq_getElem_cons (by omega),
      List.drop_eq_getElem_cons (by omega), List.drop_eq_getElem_cons (by omega),
      List.drop_eq_getElem_cons (by omega)]
    rfl
  rw [htake]
  simp only [List.cons.injEq, and_true]

/-- The contents as they are. -/
theorem unpackRaw_spec (hmagic : src.take 5 = [0x5a, 0x52, 0x46, 0x31, 1])
    (hpayload : src.length = zHdr + declaredPayload src) (hmax : declaredRaw src ≤ zMax)
    (hfits : declaredRaw src ≤ cap) (hdst : declaredRaw src ≤ dst.length)
    (hmode : src[5]? = some 0) :
    ∃ outcome, (if declaredPayload src ≠ declaredRaw src then
        .ok { code := -2, dst := some dst, written := some written }
      else do
        let out ← Memory.copy dst 0 src zHdr (declaredRaw src)
        checkDigest hash src out (declaredRaw src) written) = .ok outcome ∧
      UnpackSpec hash src cap dst written outcome := by
  have hstored : Stored src (src.drop zHdr) := .raw hmode rfl
  have hdrop : (src.drop zHdr).length = declaredPayload src := by
    rw [List.length_drop]
    omega
  by_cases hsize : declaredPayload src = declaredRaw src
  · rw [if_neg (not_not.mpr hsize), Memory.copy_eq (by omega) (by omega), Result.ok_bind,
      List.take_of_length_le (by omega), ← hsize, ← hdrop]
    exact checkDigest_spec hmagic hpayload (by omega) (by omega) (by omega) hstored (by omega) rfl
  · rw [if_pos hsize]
    refine ⟨_, rfl, .error_of (by decide) ?_⟩
    intro out hout
    have hraw := hout.raw_eq
    rw [hout.stored.unique hstored] at hraw
    omega

/-- Runs and literals. -/
theorem unpackTokens_spec (b : Build) (hmagic : src.take 5 = [0x5a, 0x52, 0x46, 0x31, 1])
    (hpayload : src.length = zHdr + declaredPayload src) (hmax : declaredRaw src ≤ zMax)
    (hfits : declaredRaw src ≤ cap) (hdst : declaredRaw src ≤ dst.length)
    (hmode : src[5]? = some 1) :
    ∃ outcome, (do
        let (last, out) ← tokensFrom b src src.length (declaredRaw src) zHdr 0 dst
        match last with
        | none => .ok { code := -3, dst := some out, written := some written }
        | some op =>
            if op ≠ declaredRaw src then
              .ok { code := -3, dst := some out, written := some written }
            else checkDigest hash src out (declaredRaw src) written : Result Outcome) =
        .ok outcome ∧
      UnpackSpec hash src cap dst written outcome := by
  have honly : ∀ out, Stored src out → Decodes (src.drop zHdr) out := by
    intro out hout
    cases hout with
    | raw hzero _ =>
        rw [hmode, Option.some.injEq] at hzero
        exact absurd hzero (by decide)
    | tokens _ h => exact h
  obtain ⟨last, dst', hrun, hspec⟩ := tokensFrom_unpacked b
    (show zHdr ≤ src.length by omega) (Nat.zero_le (declaredRaw src)) hdst
  rw [hrun, Result.ok_bind]
  cases hspec with
  | @done out hdecodes hroom =>
      dsimp only
      by_cases hop : 0 + out.length = declaredRaw src
      · rw [if_neg (not_not.mpr hop), ← hop, Nat.zero_add]
        exact checkDigest_spec hmagic hpayload (by omega) (by omega) (by omega)
          (.tokens hmode hdecodes) (by omega) rfl
      · rw [if_pos hop]
        refine ⟨_, rfl, .error (by decide) ?_ ?_ ?_⟩
        · intro out' hout'
          have hraw := hout'.raw_eq
          rw [hout'.stored.unique (.tokens hmode hdecodes)] at hraw
          omega
        · exact Buffer.length_overwrite (by omega)
        · rw [Nat.min_eq_left hfits, Buffer.drop_overwrite (by omega) hroom]
  | failed hlength hdrop hno =>
      refine ⟨_, rfl, .error (by decide) ?_ hlength ?_⟩
      · intro out' hout'
        have hlong := hno out' (honly out' hout'.stored)
        have hraw := hout'.raw_eq
        omega
      · rw [Nat.min_eq_left hfits, hdrop]

/-- In every build, and whatever the source is, the unpacker stays within its buffers and accepts
the containers that fit. -/
theorem rmrZrf1Unpack_spec (b : Build) (hdst : min (declaredRaw src) cap ≤ dst.length) :
    ∃ outcome, rmrZrf1Unpack b hash (some src) src.length (some dst) cap (some written) =
      .ok outcome ∧ UnpackSpec hash src cap dst written outcome := by
  rw [rmrZrf1Unpack]
  dsimp only
  split_ifs with hshort
  · refine ⟨_, rfl, .error_of (by decide) ?_⟩
    intro out hout
    have hlen := hout.length_eq
    omega
  have hlen : 46 ≤ src.length := Nat.not_lt.mp hshort
  rw [Memory.load_of_lt (show 0 < src.length by omega), Result.ok_bind,
    Memory.load_of_lt (show 1 < src.length by omega), Result.ok_bind,
    Memory.load_of_lt (show 2 < src.length by omega), Result.ok_bind,
    Memory.load_of_lt (show 3 < src.length by omega), Result.ok_bind,
    Memory.load_of_lt (show 4 < src.length by omega), Result.ok_bind]
  split_ifs with hmagic
  · refine ⟨_, rfl, .error_of (by decide) ?_⟩
    intro out hout
    have hbytes := (take_five (by omega)).mp hout.magic
    tauto
  have hmagic : src.take 5 = [0x5a, 0x52, 0x46, 0x31, 1] := by
    rw [take_five (by omega)]
    tauto
  have hmode? : src[5]? = some src[5] := List.getElem?_eq_getElem (by omega)
  rw [Memory.load_of_lt (show 5 < src.length by omega), Result.ok_bind]
  by_cases hmode : (1 : Byte) < src[5]
  · rw [if_pos hmode]
    refine ⟨_, rfl, .error_of (by decide) ?_⟩
    intro out hout
    exact absurd (hout.stored.mode_le (by omega)) (UInt8.not_le.mpr hmode)
  -- the two sizes of the header are read as the container declares them
  obtain ⟨raw, hraw, hrawNat⟩ := Memory.load32_eq (show 6 + 4 ≤ src.length by omega)
  obtain ⟨plen, hplen, hplenNat⟩ := Memory.load32_eq (show 10 + 4 ≤ src.length by omega)
  rw [← declaredRaw] at hrawNat
  rw [← declaredPayload] at hplenNat
  rw [if_neg hmode, hraw, Result.ok_bind, hplen, Result.ok_bind, hrawNat, hplenNat]
  by_cases hsizes : zMax < declaredRaw src ∨ cap < declaredRaw src ∨
      declaredPayload src ≠ src.length - zHdr
  · rw [if_pos hsizes]
    refine ⟨_, rfl, .error_of (by decide) ?_⟩
    intro out hout
    have hlength := hout.length_eq
    have hmax := hout.le_max
    have hout := hout.raw_eq
    omega
  rw [if_neg hsizes]
  rw [not_or, not_or, not_not, Nat.not_lt, Nat.not_lt] at hsizes
  obtain ⟨hmax, hfits, hpayload⟩ := hsizes
  have hpayload : src.length = zHdr + declaredPayload src := by omega
  rw [Nat.min_eq_left hfits] at hdst
  by_cases hzero : src[5] = 0
  · rw [if_pos hzero]
    exact unpackRaw_spec hmagic hpayload hmax hfits hdst (by rw [hmode?, hzero])
  · have hone : src[5] = 1 := by
      have hle := UInt8.le_iff_toNat_le.mp (UInt8.not_lt.mp hmode)
      have hne : src[5].toNat ≠ 0 := fun h => hzero (UInt8.toNat_inj.mp h)
      have honeNat : (1 : Byte).toNat = 1 := rfl
      apply UInt8.toNat_inj.mp
      omega
    rw [if_neg hzero]
    exact unpackTokens_spec b hmagic hpayload hmax hfits hdst (by rw [hmode?, hone])

/-- The unpacker terminates on every source without a wrapping subtraction, reads nothing behind
the source and writes nothing behind the declared size or the capacity; it succeeds only with an
output of the declared size whose digest is the one in the header. -/
theorem rmrZrf1Unpack_stays_within (b : Build) (hash : List Byte → Digest) (src dst : List Byte)
    (cap written : ℕ) (hdst : min (declaredRaw src) cap ≤ dst.length) :
    ∃ code dst' written',
      rmrZrf1Unpack b hash (some src) src.length (some dst) cap (some written) =
        .ok { code := code, dst := some dst', written := some written' } ∧
      dst'.length = dst.length ∧
      dst'.drop (min (declaredRaw src) cap) = dst.drop (min (declaredRaw src) cap) ∧
      (code = 0 ∧ written' = declaredRaw src ∧ Stored src (dst'.take (declaredRaw src)) ∧
          (dst'.take (declaredRaw src)).length = declaredRaw src ∧
          (src.drop 14).take 32 = (hash (dst'.take (declaredRaw src))).toList ∨
        code < 0 ∧ written' = written) := by
  obtain ⟨outcome, hrun, hspec⟩ := rmrZrf1Unpack_spec b hdst
  cases hspec with
  | @ok dst' out h hfits hlength hdrop hout =>
      refine ⟨_, _, _, hrun, hlength, ?_, .inl ?_⟩
      · rw [h.raw_eq, Nat.min_eq_left hfits, hdrop]
      · rw [h.raw_eq, hout]
        exact ⟨rfl, rfl, h.stored, rfl, h.digest_eq⟩
  | error hcode hno hlength hdrop =>
      exact ⟨_, _, _, hrun, hlength, hdrop, .inr ⟨hcode, rfl⟩⟩

/-- A run that does not fit the declared size of one byte. -/
theorem rmrZrf1Unpack_stays_within_of_long_run : ∃ code dst' written',
    rmrZrf1Unpack .wrapping (fun _ => Vector.replicate 32 0)
      (some ([0x5a, 0x52, 0x46, 0x31, 1, 1, 1, 0, 0, 0, 2, 0, 0, 0] ++ List.replicate 32 0 ++
        [0x80, 7])) 48 (some [9, 9]) 2 (some 5) =
      .ok { code := code, dst := some dst', written := some written' } ∧
    dst'.drop 1 = [9] := by
  obtain ⟨code, dst', written', hrun, -, hdrop, -⟩ := rmrZrf1Unpack_stays_within .wrapping
    (fun _ => Vector.replicate 32 0)
    ([0x5a, 0x52, 0x46, 0x31, 1, 1, 1, 0, 0, 0, 2, 0, 0, 0] ++ List.replicate 32 0 ++ [0x80, 7])
    [9, 9] 2 5 (by decide)
  exact ⟨code, dst', written', hrun, hdrop⟩

end Unpack

end Blake3.Zrf1
