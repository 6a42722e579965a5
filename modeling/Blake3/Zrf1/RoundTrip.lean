import Blake3.Zrf1.Container

/-!
Packing and unpacking: what is packed is a container of the source, not longer
than the source and a header, and unpacks to the source.
-/

namespace Blake3.Zrf1

/-- The 46 bytes before the payload. -/
def headerOf (mode : Byte) (n payload : ℕ) (digest : Digest) : List Byte :=
  [0x5a, 0x52, 0x46, 0x31, 1, mode] ++ (LittleEndian.toBytes 4 n ++
    (LittleEndian.toBytes 4 payload ++ digest.toList))

section Header

variable {mode : Byte} {n size : ℕ} {digest : Digest} {payload dst : List Byte}

theorem length_headerOf : (headerOf mode n size digest).length = zHdr := by
  simp [headerOf, zHdr]

theorem zPut32_overwrite {p : ℕ} {bytes : List Byte} (hp : p = bytes.length)
    (h : bytes.length + 4 ≤ dst.length) (hn : n < 2 ^ 32) :
    zPut32 (Buffer.overwrite dst 0 bytes) p (UInt32.ofNat n) =
      .ok (Buffer.overwrite dst 0 (bytes ++ LittleEndian.toBytes 4 n)) := by
  rw [zPut32, LittleEndian.toBytes_word, UInt32.toNat_ofNat_of_lt' hn]
  exact Memory.storeAll_overwrite hp (by rw [LittleEndian.length_toBytes]; exact h)

theorem drop_headerOf : (headerOf mode n size digest ++ payload).drop 6 =
    LittleEndian.toBytes 4 n ++ (LittleEndian.toBytes 4 size ++ (digest.toList ++ payload)) := by
  rw [headerOf, List.append_assoc, List.append_assoc, List.append_assoc]
  rfl

theorem declaredRaw_headerOf (hn : n < 2 ^ 32) :
    declaredRaw (headerOf mode n size digest ++ payload) = n := by
  have hfield : ((headerOf mode n size digest ++ payload).drop 6).take 4 =
      LittleEndian.toBytes 4 n := by
    rw [drop_headerOf, List.take_left' (LittleEndian.length_toBytes 4 n)]
  rw [declaredRaw, hfield, LittleEndian.ofBytes_toBytes_of_lt hn]

theorem declaredPayload_headerOf (hsize : size < 2 ^ 32) :
    declaredPayload (headerOf mode n size digest ++ payload) = size := by
  have hfield : ((headerOf mode n size digest ++ payload).drop (6 + 4)).take 4 =
      LittleEndian.toBytes 4 size := by
    rw [← List.drop_drop, drop_headerOf, List.drop_left' (LittleEndian.length_toBytes 4 n),
      List.take_left' (LittleEndian.length_toBytes 4 size)]
  rw [declaredPayload, hfield, LittleEndian.ofBytes_toBytes_of_lt hsize]

theorem digest_headerOf :
    ((headerOf mode n size digest ++ payload).drop 14).take 32 = digest.toList := by
  have hdrop : (headerOf mode n size digest ++ payload).drop (6 + 4 + 4) =
      digest.toList ++ payload := by
    rw [← List.drop_drop, ← List.drop_drop, drop_headerOf,
      List.drop_left' (LittleEndian.length_toBytes 4 n),
      List.drop_left' (LittleEndian.length_toBytes 4 size)]
  rw [hdrop, List.take_left' (Vector.length_toList)]

/-- A header followed by a payload that stands for the source is a container of the source. -/
theorem container_headerOf (hash : List Byte → Digest) {src : List Byte}
    (hmax : src.length ≤ zMax) (hpayload : payload.length ≤ src.length)
    (hstored : Stored (headerOf mode src.length payload.length (hash src) ++ payload) src) :
    Container hash (headerOf mode src.length payload.length (hash src) ++ payload) src := by
  rw [zMax] at hmax
  constructor
  · rfl
  · rw [declaredPayload_headerOf (by omega), List.length_append, length_headerOf]
  · exact declaredRaw_headerOf (by omega)
  · exact hmax
  · exact hstored
  · exact digest_headerOf

end Header

/-! ### Packing -/

section Pack

variable {hash : List Byte → Digest} {src dst : List Byte} {cap written : ℕ}

theorem zRle_emits (src : List Byte) : ∃ stream, Decodes stream src ∧ Emits src 0 stream :=
  zRleFrom_eq (Nat.zero_le src.length)

theorem zHash_eq (hash : List Byte → Digest) (src : List Byte) :
    zHash hash src src.length = .ok (hash src) := by
  rw [zHash, Memory.region_eq (by omega), List.drop_zero, List.take_length]
  rfl

/-- The stores of the header, one field after the other. -/
theorem storeHeader_eq {α : Type} (mode : Byte) {size : ℕ} (hsrc : src.length < 2 ^ 32)
    (hsize : size < 2 ^ 32) (hdst : zHdr ≤ dst.length) (rest : List Byte → Result α) :
    (do
      let out ← Memory.storeAll dst 0 [0x5a, 0x52, 0x46, 0x31, 1, mode]
      let out ← zPut32 out 6 (UInt32.ofNat src.length)
      let out ← zPut32 out 10 (UInt32.ofNat size)
      let digest ← zHash hash src src.length
      let out ← Memory.storeAll out 14 digest.toList
      rest out) =
      rest (Buffer.overwrite dst 0 (headerOf mode src.length size (hash src))) := by
  rw [zHdr] at hdst
  rw [Memory.storeAll_eq _ (by simp; omega), Result.ok_bind,
    zPut32_overwrite (by simp) (by simp; omega) hsrc, Result.ok_bind,
    zPut32_overwrite (by simp) (by simp; omega) hsize, Result.ok_bind, zHash_eq, Result.ok_bind,
    Memory.storeAll_overwrite (by simp) (by simp; omega), Result.ok_bind, List.append_assoc,
    List.append_assoc]
  rfl

/-- A header and a payload behind it. -/
theorem overwrite_payload {header payload : List Byte} (hheader : header.length = zHdr)
    (h : zHdr + payload.length ≤ dst.length) :
    Buffer.overwrite (Buffer.overwrite dst 0 header) zHdr payload =
      Buffer.overwrite dst 0 (header ++ payload) := by
  rw [← hheader] at h ⊢
  rw [← Nat.zero_add header.length] at h ⊢
  exact Buffer.overwrite_overwrite (by omega)

/-- What is packed is a container of the source, and no more than the source and a header. -/
theorem rmrZrf1Pack_eq (hmax : src.length ≤ zMax) (hcap : src.length + zHdr ≤ cap)
    (hdst : cap ≤ dst.length) :
    ∃ packed, packed.length ≤ src.length + zHdr ∧ Container hash packed src ∧
      rmrZrf1Pack hash (some src) src.length (some dst) cap (some written) =
        .ok { code := 0, dst := some (Buffer.overwrite dst 0 packed),
              written := some packed.length } := by
  obtain ⟨stream, hdecodes, hemits⟩ := zRle_emits src
  have hmax32 : src.length < 2 ^ 32 := by
    rw [zMax] at hmax
    omega
  have hlength : ∀ (mode : Byte) (payload : List Byte),
      (headerOf mode src.length payload.length (hash src) ++ payload).length =
        zHdr + payload.length := fun mode payload => by rw [List.length_append, length_headerOf]
  have hroom : ∀ (mode : Byte) (size : ℕ),
      (Buffer.overwrite dst 0 (headerOf mode src.length size (hash src))).length =
        dst.length := fun mode size =>
    Buffer.length_overwrite (by rw [length_headerOf]; omega)
  rw [rmrZrf1Pack]
  dsimp only
  rw [if_neg (by simpa using hmax), Option.getD_some, zRle, hemits.measure, Result.ok_bind,
    Nat.zero_add]
  dsimp only
  by_cases hsmall : stream.length < src.length
  · have hfits : ¬(cap < zHdr ∨ cap - zHdr < stream.length) := by omega
    refine ⟨headerOf 1 src.length stream.length (hash src) ++ stream, ?_, ?_, ?_⟩
    · rw [hlength]
      omega
    · refine container_headerOf hash hmax hsmall.le (.tokens rfl ?_)
      rwa [List.drop_left' length_headerOf]
    · simp only [if_pos hsmall, if_pos (show (1 : Byte) ≠ 0 by decide), if_neg hfits]
      rw [storeHeader_eq 1 hmax32 (by omega) (by omega), zRle,
        hemits.emit _ _ _ (by rw [hroom]; omega), Nat.add_zero,
        overwrite_payload length_headerOf (by omega), hlength]
      rfl
  · have hfits : ¬(cap < zHdr ∨ cap - zHdr < src.length) := by omega
    refine ⟨headerOf 0 src.length src.length (hash src) ++ src, ?_, ?_, ?_⟩
    · rw [hlength, Nat.add_comm]
    · refine container_headerOf hash hmax le_rfl (.raw rfl ?_)
      exact List.drop_left' length_headerOf
    · simp only [if_neg hsmall, ne_eq, not_true_eq_false, if_false, if_neg hfits]
      rw [storeHeader_eq 0 hmax32 hmax32 (by omega), hlength]
      have hpayload := overwrite_payload (length_headerOf : (headerOf 0 src.length src.length
        (hash src)).length = zHdr) (show zHdr + src.length ≤ dst.length by omega)
      by_cases hempty : src.length = 0
      · obtain rfl := List.length_eq_zero_iff.mp hempty
        rw [if_neg (not_not.mpr hempty), List.append_nil]
        rfl
      · rw [if_pos hempty, Memory.copy_eq (by omega) (by rw [hroom]; omega), List.drop_zero,
          List.take_length, hpayload]
        rfl

/-- A container of what fits is unpacked. -/
theorem rmrZrf1Unpack_of_container (b : Build) {packed : List Byte}
    (hpacked : Container hash packed src) (hfits : src.length ≤ cap) (hdst : cap ≤ dst.length) :
    ∃ dst', rmrZrf1Unpack b hash (some packed) packed.length (some dst) cap (some written) =
      .ok { code := 0, dst := some dst', written := some src.length } ∧
      dst'.take src.length = src := by
  have hspec : ∃ outcome, rmrZrf1Unpack b hash (some packed) packed.length (some dst) cap
      (some written) = .ok outcome ∧ UnpackSpec hash packed cap dst written outcome :=
    rmrZrf1Unpack_spec b (by omega)
  obtain ⟨outcome, hrun, hspec⟩ := hspec
  cases hspec with
  | @ok dst' out h hle hlength hdrop hout =>
      obtain rfl := h.stored.unique hpacked.stored
      exact ⟨dst', hrun, hout⟩
  | error hcode hno hlength hdrop =>
      have hlong := hno src hpacked
      omega

/-- Packing at most 3 MiB into a buffer with room for the header succeeds, the length measured is
the one written, and unpacking what was written gives the source back. -/
theorem rmrZrf1Unpack_pack (hash : List Byte → Digest) (src dst : List Byte) (cap written : ℕ)
    (hmax : src.length ≤ 3 * 1024 * 1024) (hcap : src.length + 46 ≤ cap)
    (hdst : cap ≤ dst.length) :
    ∃ dst' size, rmrZrf1Pack hash (some src) src.length (some dst) cap (some written) =
        .ok { code := 0, dst := some dst', written := some size } ∧
      size ≤ src.length + 46 ∧ dst'.length = dst.length ∧ dst'.drop size = dst.drop size ∧
      (∃ encoded, zRle src src.length none 0 = .ok (encoded, none) ∧
        ∀ buf base, base + encoded ≤ buf.length → ∃ stream, stream.length = encoded ∧
          zRle src src.length (some buf) base =
            .ok (encoded, some (Buffer.overwrite buf base stream))) ∧
      ∀ (b : Build) (out : List Byte) (outCap old : ℕ), src.length ≤ outCap →
        outCap ≤ out.length → ∃ out',
          rmrZrf1Unpack b hash (some (dst'.take size)) size (some out) outCap (some old) =
            .ok { code := 0, dst := some out', written := some src.length } ∧
          out'.take src.length = src := by
  obtain ⟨packed, hlength, hpacked, hpack⟩ := rmrZrf1Pack_eq hmax hcap hdst
  rw [zHdr] at hlength
  have hroom : 0 + packed.length ≤ dst.length := by omega
  refine ⟨_, _, hpack, hlength, Buffer.length_overwrite hroom, ?_, ?_, ?_⟩
  · exact Buffer.drop_overwrite (Nat.zero_le _) (by omega)
  · obtain ⟨stream, -, hemits⟩ := zRle_emits src
    refine ⟨stream.length, ?_, ?_⟩
    · rw [zRle, hemits.measure, Nat.zero_add]
    · intro buf base hbuf
      refine ⟨stream, rfl, ?_⟩
      rw [zRle, hemits.emit _ _ _ (by omega), Nat.zero_add, Nat.add_zero]
  · intro b out outCap old hfits hout
    rw [Buffer.take_overwrite_zero]
    exact rmrZrf1Unpack_of_container b hpacked hfits hout

/-- A run of two hundred bytes, longer than one code, and three others. -/
theorem rmrZrf1Unpack_pack_long_run : ∃ dst' size out',
    rmrZrf1Pack (fun _ => Vector.replicate 32 0) (some (List.replicate 200 7 ++ [1, 2, 3])) 203
      (some (List.replicate 260 0xee)) 249 (some 0) =
        .ok { code := 0, dst := some dst', written := some size } ∧
    size ≤ 203 + 46 ∧
    rmrZrf1Unpack ⟨true, true⟩ (fun _ => Vector.replicate 32 0) (some (dst'.take size)) size
      (some (List.replicate 210 0)) 205 (some 0) =
        .ok { code := 0, dst := some out', written := some 203 } ∧
    out'.take 203 = List.replicate 200 7 ++ [1, 2, 3] := by
  have hlength : (List.replicate 200 (7 : Byte) ++ [1, 2, 3]).length = 203 := by
    rw [List.length_append, List.length_replicate]
    rfl
  obtain ⟨dst', size, hpack, hsize, -, -, -, hunpack⟩ :=
    rmrZrf1Unpack_pack (fun _ => Vector.replicate 32 0) (List.replicate 200 7 ++ [1, 2, 3])
      (List.replicate 260 0xee) 249 0 (hlength.trans_le (by decide)) (hlength ▸ by decide)
      (by rw [List.length_replicate]; decide)
  rw [hlength] at hpack hsize hunpack
  obtain ⟨out', hout, hback⟩ := hunpack ⟨true, true⟩ (List.replicate 210 0) 205 0 (by decide)
    (by rw [List.length_replicate]; decide)
  exact ⟨dst', size, out', hpack, hsize, hout, hback⟩

end Pack

end Blake3.Zrf1
