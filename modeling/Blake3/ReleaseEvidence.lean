import Blake3.Crc32c
import Blake3.Lib.Buffer

/-!
The evidence packets of `rmr_release_evidence_v020.c`. The writer and the checker of a
packet list its fields each for itself; they agree on every one of its bits.
-/

namespace Blake3.ReleaseEvidence

open Fc16 (Span)

inductive Status where
  | ok
  | argument
  | format
  | crc
  | zeroDigest
  deriving DecidableEq, Repr

/-- `RMR_RE_PACKET_BYTES` bytes. -/
abbrev Packet := Vector Byte 64

def schema : Byte := 1
def versionMajor : Byte := 0
def versionMinor : Byte := 2
def versionPatch : Byte := 0
def versionRc : Byte := 1
def statusDraft : Byte := 1

/-- `nonzero |= data[i]`, all along the data. -/
def nonzero (data : List Byte) : Byte := data.foldl (· ||| ·) 0

/-- Successive stores, from index `i` on. -/
def store (packet : Packet) : ℕ → List Byte → Packet
  | _, [] => packet
  | i, b :: bytes => store (packet.setIfInBounds i b) (i + 1) bytes

theorem length_take_packet (packet : Packet) : (packet.toList.take 60).length < 2 ^ 32 := by
  rw [List.length_take, Vector.length_toList]
  decide

/-- `rmr_re_crc32c(packet, 60u)` -/
def packetCrc (packet : Packet) : Word :=
  Crc32c.reCrc32c (.of (packet.toList.take 60) (length_take_packet packet))

/-- `rmr_re_make_draft`; what it is given of a packet is overwritten. -/
def makeDraft (packet : Option Packet) (assetSha256 : Option (Vector Byte 32))
    (reference : Option (Vector Byte 16)) : Status × Option Packet :=
  match packet, assetSha256, reference with
  | some packet, some assetSha256, some reference =>
      if nonzero assetSha256.toList = 0 then (.zeroDigest, some packet)
      else
        -- "RMRE", the schema, the version, the status and two reserved bytes
        let packet := store packet 0 [0x52, 0x4d, 0x52, 0x45, schema, versionMajor, versionMinor,
          versionPatch, versionRc, statusDraft, 0, 0]
        let packet := store packet 12 assetSha256.toList
        let packet := store packet 44 reference.toList
        let crc := packetCrc packet
        (.ok, some (store packet 60 (store32 crc).toList))
  | packet, _, _ => (.argument, packet)

/-- `rmr_re_check_format` -/
def checkFormat (packet : Option Packet) : Status :=
  match packet with
  | none => .argument
  | some packet =>
      if packet[0] ≠ 0x52 ∨ packet[1] ≠ 0x4d ∨ packet[2] ≠ 0x52 ∨ packet[3] ≠ 0x45 ∨
          packet[4] ≠ schema ∨ packet[5] ≠ versionMajor ∨ packet[6] ≠ versionMinor ∨
          packet[7] ≠ versionPatch ∨ packet[8] ≠ versionRc ∨ packet[9] ≠ statusDraft ∨
          packet[10] ≠ 0 ∨ packet[11] ≠ 0 then .format
      else if nonzero ((packet.toList.drop 12).take 32) = 0 then .zeroDigest
      else if load32 packet[60] packet[61] packet[62] packet[63] ≠ packetCrc packet then .crc
      else .ok

/-! ### Layout -/

/-- The bytes in front of the digest. -/
def header : List Byte :=
  [0x52, 0x4d, 0x52, 0x45, schema, versionMajor, versionMinor, versionPatch, versionRc, statusDraft,
    0, 0]

/-- The bytes that the checksum is of. -/
def body (assetSha256 : Vector Byte 32) (reference : Vector Byte 16) : List Byte :=
  header ++ assetSha256.toList ++ reference.toList

/-- The checksum of a packet that begins with these bytes. -/
def sealOf (bytes : List Byte) : List Byte :=
  (store32 (~~~Crc32c.bitwiseUpdate Crc32c.unsignedMask 0xffffffff bytes)).toList

theorem length_body (assetSha256 : Vector Byte 32) (reference : Vector Byte 16) :
    (body assetSha256 reference).length = 60 := by
  rw [body, List.length_append, List.length_append, Vector.length_toList, Vector.length_toList]
  rfl

theorem toList_store (packet : Packet) {i : ℕ} {bytes : List Byte} (h : i + bytes.length ≤ 64) :
    (store packet i bytes).toList = Buffer.overwrite packet.toList i bytes := by
  induction bytes generalizing packet i with
  | nil => rw [store, Buffer.overwrite_nil]
  | cons b bytes ih =>
      rw [List.length_cons] at h
      have hi : i < packet.toList.length := by
        rw [Vector.length_toList]
        omega
      rw [store, ih _ (by omega), Vector.toList_setIfInBounds, Buffer.set_eq_overwrite hi]
      exact @Buffer.overwrite_overwrite _ _ [b] _ _ hi

/-- Stores that go on where the ones from index 0 on ended. -/
theorem toList_store_next {packet old : Packet} {i : ℕ} {done bytes : List Byte}
    (hdone : packet.toList = Buffer.overwrite old.toList 0 done) (hi : done.length = i)
    (h : i + bytes.length ≤ 64) :
    (store packet i bytes).toList = Buffer.overwrite old.toList 0 (done ++ bytes) := by
  have hroom : 0 + done.length ≤ old.toList.length := by
    rw [Vector.length_toList]
    omega
  rw [toList_store _ h, hdone, ← Buffer.overwrite_overwrite hroom, Nat.zero_add, hi]

theorem store32_packetCrc (packet : Packet) :
    (store32 (packetCrc packet)).toList = sealOf (packet.toList.take 60) := by
  have hdata : (Span.of (packet.toList.take 60) (length_take_packet packet)).data ≠ none := by
    simp [Span.of]
  rw [packetCrc, Crc32c.reCrc32c, if_neg (fun h => hdata h.1)]
  rfl

/-- The draft, whatever the packet held. -/
theorem makeDraft_eq (packet : Packet) (assetSha256 : Vector Byte 32)
    (reference : Vector Byte 16) (h : nonzero assetSha256.toList ≠ 0) :
    ∃ draft, makeDraft (some packet) (some assetSha256) (some reference) = (.ok, some draft) ∧
      draft.toList = body assetSha256 reference ++ sealOf (body assetSha256 reference) := by
  have hbody := length_body assetSha256 reference
  obtain ⟨filled, hfilled⟩ : ∃ filled, filled =
    store (store (store packet 0 header) 12 assetSha256.toList) 44 reference.toList := ⟨_, rfl⟩
  have hlist : filled.toList = Buffer.overwrite packet.toList 0 (body assetSha256 reference) := by
    have hheader : (store packet 0 header).toList = Buffer.overwrite packet.toList 0 header :=
      toList_store packet (by decide)
    have hasset := @toList_store_next _ _ 12 _ assetSha256.toList hheader rfl
      (by rw [Vector.length_toList]; omega)
    rw [hfilled, toList_store_next hasset _ (by rw [Vector.length_toList]; omega)]
    · rfl
    · rw [List.length_append, Vector.length_toList]
      rfl
  have hseal : (store32 (packetCrc filled)).toList = sealOf (body assetSha256 reference) := by
    rw [store32_packetCrc, hlist, ← hbody, Buffer.take_overwrite_zero]
  refine ⟨store filled 60 (store32 (packetCrc filled)).toList, ?_, ?_⟩
  · rw [makeDraft, if_neg h, hfilled]
    rfl
  · have hlength : (sealOf (body assetSha256 reference)).length = 4 := rfl
    rw [hseal, toList_store_next hlist hbody (by omega), Buffer.overwrite, List.take_zero,
      List.nil_append, List.drop_eq_nil_of_le, List.append_nil]
    rw [List.length_append, hbody, hlength, Vector.length_toList]

theorem nonzero_eq_zero_iff {n : ℕ} (data : Vector Byte n) :
    nonzero data.toList = 0 ↔ data = Vector.replicate n 0 := by
  have hfold := Buffer.foldl_or_eq_zero (fun a b => UInt8.or_eq_zero_iff) id data.toList 0
  rw [← Vector.toList_inj, Vector.toList_replicate, List.eq_replicate_iff,
    and_iff_right Vector.length_toList]
  exact hfold.trans (and_iff_right rfl)

theorem load32_eq_iff {b₀ b₁ b₂ b₃ : Byte} {w : Word} :
    load32 b₀ b₁ b₂ b₃ = w ↔ [b₀, b₁, b₂, b₃] = (store32 w).toList := by
  constructor
  · rintro rfl
    rw [store32_load32]
    rfl
  · intro h
    have hstore : (#v[b₀, b₁, b₂, b₃] : Vector Byte 4) = store32 w := Vector.toList_inj.mp h
    have hload := load32_store32 w
    rwa [← hstore] at hload

/-- What the checker accepts: the header, a digest that is not zero, and the checksum. -/
theorem checkFormat_eq_ok (packet : Packet) :
    checkFormat (some packet) = .ok ↔ packet.toList.take 12 = header ∧
      nonzero ((packet.toList.drop 12).take 32) ≠ 0 ∧
      packet.toList.drop 60 = sealOf (packet.toList.take 60) := by
  have hlist : packet.toList = List.ofFn fun i : Fin 64 => packet[i] := by
    rw [← Vector.toList_ofFn, Vector.toList_inj]
    ext i hi
    rw [Vector.getElem_ofFn]
    rfl
  have hheader : packet.toList.take 12 = [packet[0], packet[1], packet[2], packet[3], packet[4],
      packet[5], packet[6], packet[7], packet[8], packet[9], packet[10], packet[11]] := by
    rw [hlist]
    rfl
  have hseal : packet.toList.drop 60 = [packet[60], packet[61], packet[62], packet[63]] := by
    rw [hlist]
    rfl
  rw [checkFormat, hseal, ← store32_packetCrc, ← load32_eq_iff, hheader, header]
  simp only [List.cons.injEq, and_true]
  split_ifs with h h' h''
  · refine iff_of_false (by decide) ?_
    rintro ⟨hfields, -⟩
    simp [hfields] at h
  · exact iff_of_false (by decide) fun hok => hok.2.1 h'
  · exact iff_of_false (by decide) fun hok => h'' hok.2.2
  · refine iff_of_true rfl ⟨?_, h', not_not.mp h''⟩
    simpa only [not_or, not_not] using h

/-- A draft is its own body with the checksum behind it. -/
theorem toList_of_makeDraft {old packet : Packet} {assetSha256 : Vector Byte 32}
    {reference : Vector Byte 16}
    (h : makeDraft (some old) (some assetSha256) (some reference) = (.ok, some packet)) :
    nonzero assetSha256.toList ≠ 0 ∧
      packet.toList = body assetSha256 reference ++ sealOf (body assetSha256 reference) := by
  have hnonzero : nonzero assetSha256.toList ≠ 0 := by
    intro hzero
    rw [makeDraft, if_pos hzero] at h
    simp at h
  obtain ⟨draft, hdraft, hlist⟩ := makeDraft_eq old assetSha256 reference hnonzero
  rw [h] at hdraft
  simp only [Prod.mk.injEq, Option.some.injEq, true_and] at hdraft
  exact ⟨hnonzero, hdraft ▸ hlist⟩

theorem exists_vector {n : ℕ} {bytes : List Byte} (h : bytes.length = n) :
    ∃ v : Vector Byte n, v.toList = bytes := ⟨⟨bytes.toArray, h⟩, rfl⟩

/-- What the checker accepts is a draft. -/
theorem exists_makeDraft {packet : Packet} (h : checkFormat (some packet) = .ok) :
    ∃ assetSha256 reference, assetSha256 ≠ Vector.replicate 32 0 ∧
      ∀ old, makeDraft (some old) (some assetSha256) (some reference) = (.ok, some packet) := by
  obtain ⟨hheader, hnonzero, hseal⟩ := (checkFormat_eq_ok packet).mp h
  have hlength : packet.toList.length = 64 := Vector.length_toList
  obtain ⟨assetSha256, hasset⟩ : ∃ v : Vector Byte 32, v.toList = (packet.toList.drop 12).take 32 :=
    exists_vector (by rw [List.length_take, List.length_drop, hlength]; rfl)
  obtain ⟨reference, hreference⟩ :
      ∃ v : Vector Byte 16, v.toList = (packet.toList.drop 44).take 16 :=
    exists_vector (by rw [List.length_take, List.length_drop, hlength]; rfl)
  have hbody : body assetSha256 reference = packet.toList.take 60 := by
    rw [body, hasset, hreference, ← hheader, ← List.take_add, ← List.take_add]
  rw [← hasset] at hnonzero
  refine ⟨assetSha256, reference, fun hzero => hnonzero ((nonzero_eq_zero_iff _).mpr hzero),
    fun old => ?_⟩
  obtain ⟨draft, hdraft, hlist⟩ := makeDraft_eq old assetSha256 reference hnonzero
  rw [hbody, ← hseal, List.take_append_drop, Vector.toList_inj] at hlist
  rw [hdraft, hlist]

theorem checkFormat_of_makeDraft {old packet : Packet} {assetSha256 : Vector Byte 32}
    {reference : Vector Byte 16}
    (h : makeDraft (some old) (some assetSha256) (some reference) = (.ok, some packet)) :
    checkFormat (some packet) = .ok := by
  obtain ⟨hnonzero, hlist⟩ := toList_of_makeDraft h
  have hbody := length_body assetSha256 reference
  have hheader : header.length = 12 := rfl
  have hasset : ((body assetSha256 reference).drop 12).take 32 = assetSha256.toList := by
    rw [body, List.append_assoc, List.drop_left' hheader, List.take_left' Vector.length_toList]
  rw [checkFormat_eq_ok, hlist]
  refine ⟨rfl, ?_, ?_⟩
  · rwa [List.drop_append_of_le_length (by omega), List.take_append_of_le_length, hasset]
    rw [List.length_drop, hbody]
    decide
  · rw [List.drop_left' hbody, List.take_left' hbody]

/-- The checker accepts what the writer makes of a digest that is not zero, and nothing
else; the packet tells what it was made of. -/
theorem checkFormat_iff (packet : Packet) :
    (checkFormat (some packet) = .ok ↔ ∃ assetSha256 reference,
      assetSha256 ≠ Vector.replicate 32 0 ∧
      ∀ old, makeDraft (some old) (some assetSha256) (some reference) = (.ok, some packet)) ∧
    ∀ assetSha256 assetSha256' reference reference' old old',
      makeDraft (some old) (some assetSha256) (some reference) = (.ok, some packet) →
      makeDraft (some old') (some assetSha256') (some reference') = (.ok, some packet) →
      assetSha256 = assetSha256' ∧ reference = reference' := by
  constructor
  · refine ⟨exists_makeDraft, ?_⟩
    rintro ⟨assetSha256, reference, -, hdraft⟩
    exact checkFormat_of_makeDraft (hdraft packet)
  · intro assetSha256 assetSha256' reference reference' old old' h h'
    have hlist := (toList_of_makeDraft h).2.symm.trans (toList_of_makeDraft h').2
    have hbody := (List.append_inj hlist (by rw [length_body, length_body])).1
    rw [body, body, List.append_assoc, List.append_assoc, List.append_cancel_left_eq] at hbody
    obtain ⟨hasset, hreference⟩ := List.append_inj hbody (by simp)
    exact ⟨Vector.toList_inj.mp hasset, Vector.toList_inj.mp hreference⟩

end Blake3.ReleaseEvidence
