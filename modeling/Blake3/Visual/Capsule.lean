import Blake3.Fault
import Blake3.Lib.Codec
import Blake3.Lib.LittleEndian
import Blake3.Visual.Exemplar

/-!
Capsules, `RmR_VisualPrototype_Serialize` and `RmR_VisualPrototype_Deserialize`:
a header, the label, the views and the checksum of all that. The reader walks a
cursor over the bytes; reading behind their end is a fault.
-/

namespace Blake3.Visual

def capsuleMagic : Word := 0x52564331
def capsuleVersion : UInt16 := 1
def capsuleHeaderSize : ℕ := 36
def capsuleViewSize : ℕ := 92
def capsuleTrailerSize : ℕ := 4

structure CapsuleHeader where
  magic : Word
  version : UInt16
  headerSize : UInt16
  total : Word
  classId : Word
  flags : Word
  viewCount : Word
  viewMask : Word
  labelLen : Word
  prototypeCrc : Word

/-! ### The writer -/

/-- `RmR_VisualPrototype_SerializedSize`, the pointer not being null. -/
def serializedSize (p : VisualPrototype) : ℕ :=
  if maxViews < p.viewCount.toNat then 0
  else
    capsuleHeaderSize + strnlen p.label.toList maxLabel + p.viewCount.toNat * capsuleViewSize +
      capsuleTrailerSize

def serializeHeader (h : CapsuleHeader) : List Byte :=
  putU32 h.magic ++ putU16 h.version ++ putU16 h.headerSize ++ putU32 h.total ++ putU32 h.classId ++
    putU32 h.flags ++ putU32 h.viewCount ++ putU32 h.viewMask ++ putU32 h.labelLen ++
    putU32 h.prototypeCrc

def serializeDescriptor (d : VisionDescriptor) : List Byte :=
  putU32 d.width ++ putU32 d.height ++ putU32 d.pixelCount ++ putU32 d.foregroundCount ++
    putU32 d.foregroundQ16 ++ putU32 d.angleCount ++ d.angleHist.toList.flatMap putU32 ++
    putU32 d.angularChi2Q16 ++ putU32 d.angularConcentrationQ16 ++ putU32 d.grayCrc32c ++
    putU32 d.descriptorCrc32c ++ putU32 d.status ++ [d.otsuThreshold] ++ [0, 0, 0]

def serializeView (v : VisualView) : List Byte :=
  [v.viewId, v.flags] ++ putU16 v.reserved ++ putU32 v.sampleId ++ putU32 v.sourceCrc32c ++
    serializeDescriptor v.descriptor

/-- The header for a prototype and a label of `n` bytes. -/
def headerOf (p : VisualPrototype) (n : ℕ) : CapsuleHeader where
  magic := capsuleMagic
  version := capsuleVersion
  headerSize := UInt16.ofNat capsuleHeaderSize
  total := UInt32.ofNat
    (capsuleHeaderSize + n + p.viewCount.toNat * capsuleViewSize + capsuleTrailerSize)
  classId := p.classId
  flags := p.flags
  viewCount := p.viewCount
  viewMask := p.viewMask
  labelLen := UInt32.ofNat n
  prototypeCrc := p.prototypeCrc32c

/-- What is written before the checksum. -/
def serializedBody (p : VisualPrototype) : List Byte :=
  serializeHeader { headerOf p p.text.length with total := UInt32.ofNat (serializedSize p) } ++
    p.text ++ p.seen.flatMap serializeView

/-- `RmR_VisualPrototype_Serialize` into the buffer `out`: the status, the buffer
and the number of bytes written. None of the pointers is null. -/
def serialize (p : VisualPrototype) (out : List Byte) : Status × List Byte × ℕ :=
  match verify p with
  | .ok =>
      let total := serializedSize p
      if out.length < total ∨ 2 ^ 32 ≤ total then (.truncated, out, 0)
      else
        let body := serializedBody p
        let out := Buffer.overwrite out 0 body
        let crc := stabilityCrc32c (out.take (total - capsuleTrailerSize))
        let out := Buffer.overwrite out body.length (putU32 crc)
        if body.length + 4 ≠ total then (.badArgument, out, 0) else (.ok, out, total)
  | status => (status, out, 0)

/-! ### The reader -/

abbrev Cursor := Codec.Reader Fault

def getU8 : Cursor Byte := Codec.byte .outOfBounds

def getU16 : Cursor UInt16 := do
  let b₀ ← getU8
  let b₁ ← getU8
  pure (b₀.toUInt16 ||| b₁.toUInt16 <<< 8)

def getU32 : Cursor Word := do
  let b₀ ← getU8
  let b₁ ← getU8
  let b₂ ← getU8
  let b₃ ← getU8
  pure (load32 b₀ b₁ b₂ b₃)

def deserializeHeader : Cursor CapsuleHeader := do
  let magic ← getU32
  let version ← getU16
  let headerSize ← getU16
  let total ← getU32
  let classId ← getU32
  let flags ← getU32
  let viewCount ← getU32
  let viewMask ← getU32
  let labelLen ← getU32
  let prototypeCrc ← getU32
  pure { magic, version, headerSize, total, classId, flags, viewCount, viewMask, labelLen,
         prototypeCrc }

def deserializeDescriptor : Cursor VisionDescriptor := do
  let width ← getU32
  let height ← getU32
  let pixelCount ← getU32
  let foregroundCount ← getU32
  let foregroundQ16 ← getU32
  let angleCount ← getU32
  let angleHist ← Codec.vector getU32 8
  let angularChi2Q16 ← getU32
  let angularConcentrationQ16 ← getU32
  let grayCrc32c ← getU32
  let descriptorCrc32c ← getU32
  let status ← getU32
  let otsuThreshold ← getU8
  let reserved ← Codec.vector getU8 3
  pure { width, height, pixelCount, foregroundCount, foregroundQ16, angleCount, angleHist,
         angularChi2Q16, angularConcentrationQ16, grayCrc32c, descriptorCrc32c, status,
         otsuThreshold, reserved }

def deserializeView : Cursor VisualView := do
  let viewId ← getU8
  let flags ← getU8
  let reserved ← getU16
  let sampleId ← getU32
  let sourceCrc32c ← getU32
  let descriptor ← deserializeDescriptor
  pure { viewId, flags, reserved, sampleId, sourceCrc32c, descriptor }

/-- The prototype of a header, a label and views. -/
def restored (h : CapsuleHeader) (label : List Byte) (views : List VisualView) :
    VisualPrototype where
  magic := prototypeMagic
  version := apiVersion
  classId := h.classId
  flags := h.flags
  viewCount := h.viewCount
  viewMask := h.viewMask
  prototypeCrc32c := h.prototypeCrc
  label := labelOf label
  views := viewsOf views

/-- `RmR_VisualPrototype_Deserialize`: the status, the prototype and the number
of bytes consumed. None of the pointers is null. -/
def deserialize (data : List Byte) (out : VisualPrototype) :
    Result (Status × VisualPrototype × ℕ) :=
  if data.length < capsuleHeaderSize + capsuleTrailerSize then .ok (.truncated, out, 0)
  else do
    let (h, c) ← deserializeHeader data
    let total := h.total.toNat
    let labelLen := h.labelLen.toNat
    let viewCount := h.viewCount.toNat
    if h.magic ≠ capsuleMagic then pure (.badMagic, out, 0)
    else if h.version ≠ capsuleVersion ∨ h.headerSize.toNat ≠ capsuleHeaderSize then
      pure (.badVersion, out, 0)
    else if data.length < total ∨ total < capsuleHeaderSize + capsuleTrailerSize then
      pure (.truncated, out, 0)
    else if viewCount = 0 ∨ maxViews < viewCount ∨ labelLen = 0 ∨ maxLabel ≤ labelLen then
      pure (.badArgument, out, 0)
    else if capsuleHeaderSize + labelLen + viewCount * capsuleViewSize + capsuleTrailerSize
        ≠ total then
      pure (.truncated, out, 0)
    else do
      let (storedCrc, _) ← getU32 (data.drop (total - 4))
      if stabilityCrc32c (data.take (total - 4)) ≠ storedCrc then pure (.crcMismatch, out, 0)
      else do
        let (label, c) ← Codec.vector getU8 labelLen c
        let (views, c) ← Codec.vector deserializeView viewCount c
        let p := restored h label.toList views.toList
        if data.length - c.length + capsuleTrailerSize ≠ total then pure (.truncated, p, 0)
        else if verify p ≠ .ok ∨ p.classId ≠ classId p.label.toList then pure (.crcMismatch, p, 0)
        else pure (.ok, p, total)

/-! ### Fields -/

theorem inverts_getU8 : Codec.Inverts getU8 fun b => [b] := Codec.inverts_byte _

theorem toNat_load16 (b₀ b₁ : Byte) :
    (b₀.toUInt16 ||| b₁.toUInt16 <<< 8).toNat = b₀.toNat + 2 ^ 8 * b₁.toNat := by
  have h₀ := b₀.toNat_lt
  have h₁ := b₁.toNat_lt
  have hor := Nat.two_pow_add_eq_or_of_lt (i := 8) (b := b₀.toNat) (by omega) b₁.toNat
  have hshift : b₁.toNat <<< 8 % 65536 = 2 ^ 8 * b₁.toNat := by
    rw [Nat.shiftLeft_eq]
    omega
  simp only [UInt16.toNat_or, UInt16.toNat_shiftLeft, UInt8.toNat_toUInt16, UInt16.reduceToNat,
    Nat.reduceMod, Nat.reducePow] at *
  rw [hshift, Nat.or_comm, ← hor, Nat.add_comm]

theorem putU16_load16 (b₀ b₁ : Byte) : putU16 (b₀.toUInt16 ||| b₁.toUInt16 <<< 8) = [b₀, b₁] := by
  have h₀ := b₀.toNat_lt
  have h₁ := b₁.toNat_lt
  have hload := toNat_load16 b₀ b₁
  simp only [putU16, List.cons.injEq, ← UInt8.toNat_inj, UInt16.toNat_toUInt8,
    UInt16.toNat_shiftRight, hload, Nat.shiftRight_eq_div_pow]
  simp
  omega

theorem load16_putU16 (v : UInt16) :
    v.toUInt8.toUInt16 ||| (v >>> 8).toUInt8.toUInt16 <<< 8 = v := by
  have hv := v.toNat_lt
  apply UInt16.toNat_inj.mp
  rw [toNat_load16, UInt16.toNat_toUInt8, UInt16.toNat_toUInt8, UInt16.toNat_shiftRight,
    Nat.shiftRight_eq_div_pow]
  simp
  omega

theorem inverts_getU16 : Codec.Inverts getU16 putU16 := by
  intro bytes v rest
  simp only [getU16, Codec.bind_eq_ok_iff, Codec.pure_eq_ok_iff, inverts_getU8 _ _ _]
  constructor
  · rintro ⟨b₀, _, rfl, b₁, _, rfl, rfl, rfl⟩
    rw [putU16_load16]
    rfl
  · rintro rfl
    exact ⟨_, _, rfl, _, _, rfl, load16_putU16 v, rfl⟩

theorem putU32_load32 (b₀ b₁ b₂ b₃ : Byte) : putU32 (load32 b₀ b₁ b₂ b₃) = [b₀, b₁, b₂, b₃] :=
  congrArg Vector.toList (store32_load32 b₀ b₁ b₂ b₃)

theorem inverts_getU32 : Codec.Inverts getU32 putU32 := by
  intro bytes v rest
  simp only [getU32, Codec.bind_eq_ok_iff, Codec.pure_eq_ok_iff, inverts_getU8 _ _ _]
  constructor
  · rintro ⟨b₀, _, rfl, b₁, _, rfl, b₂, _, rfl, b₃, _, rfl, rfl, rfl⟩
    rw [putU32_load32]
    rfl
  · rintro rfl
    exact ⟨_, _, rfl, _, _, rfl, _, _, rfl, _, _, rfl, load32_store32 v, rfl⟩

theorem inverts_deserializeHeader : Codec.Inverts deserializeHeader serializeHeader := by
  intro bytes h rest
  simp only [deserializeHeader, Codec.bind_eq_ok_iff, Codec.pure_eq_ok_iff, inverts_getU32 _ _ _,
    inverts_getU16 _ _ _]
  constructor
  · rintro ⟨magic, _, rfl, version, _, rfl, headerSize, _, rfl, total, _, rfl, classId, _, rfl,
      flags, _, rfl, viewCount, _, rfl, viewMask, _, rfl, labelLen, _, rfl, prototypeCrc, _, rfl,
      rfl, rfl⟩
    simp only [serializeHeader, List.append_assoc]
  · rintro rfl
    simp only [serializeHeader, List.append_assoc]
    exact ⟨_, _, rfl, _, _, rfl, _, _, rfl, _, _, rfl, _, _, rfl, _, _, rfl, _, _, rfl, _, _, rfl,
      _, _, rfl, _, _, rfl, rfl, rfl⟩

/-- What the reader takes a descriptor from: the last three bytes are kept. -/
def descriptorLayout (d : VisionDescriptor) : List Byte := descriptorBytes d ++ d.reserved.toList

def viewLayout (v : VisualView) : List Byte := viewBytes v ++ v.descriptor.reserved.toList

theorem inverts_deserializeDescriptor :
    Codec.Inverts deserializeDescriptor descriptorLayout := by
  intro bytes d rest
  simp only [deserializeDescriptor, Codec.bind_eq_ok_iff, Codec.pure_eq_ok_iff,
    inverts_getU32 _ _ _, inverts_getU8 _ _ _, inverts_getU32.vector _ _ _ _,
    inverts_getU8.vector _ _ _ _, List.flatMap_singleton']
  constructor
  · rintro ⟨width, _, rfl, height, _, rfl, pixelCount, _, rfl, foregroundCount, _, rfl,
      foregroundQ16, _, rfl, angleCount, _, rfl, angleHist, _, rfl, angularChi2Q16, _, rfl,
      angularConcentrationQ16, _, rfl, grayCrc32c, _, rfl, descriptorCrc32c, _, rfl, status, _, rfl,
      otsuThreshold, _, rfl, reserved, _, rfl, rfl, rfl⟩
    simp only [descriptorLayout, descriptorBytes, List.append_assoc]
  · rintro rfl
    simp only [descriptorLayout, descriptorBytes, List.append_assoc]
    exact ⟨_, _, rfl, _, _, rfl, _, _, rfl, _, _, rfl, _, _, rfl, _, _, rfl, _, _, rfl, _, _, rfl,
      _, _, rfl, _, _, rfl, _, _, rfl, _, _, rfl, _, _, rfl, _, _, rfl, rfl, rfl⟩

theorem inverts_deserializeView : Codec.Inverts deserializeView viewLayout := by
  intro bytes v rest
  simp only [deserializeView, Codec.bind_eq_ok_iff, Codec.pure_eq_ok_iff, inverts_getU32 _ _ _,
    inverts_getU16 _ _ _, inverts_getU8 _ _ _, inverts_deserializeDescriptor _ _ _]
  constructor
  · rintro ⟨viewId, _, rfl, flags, _, rfl, reserved, _, rfl, sampleId, _, rfl, sourceCrc32c, _, rfl,
      descriptor, _, rfl, rfl, rfl⟩
    simp [viewLayout, viewBytes, descriptorLayout]
  · rintro rfl
    refine ⟨v.viewId, _, ?_, v.flags, _, rfl, v.reserved, _, rfl, v.sampleId, _, rfl,
      v.sourceCrc32c, _, rfl, v.descriptor, rest, rfl, rfl, rfl⟩
    simp [viewLayout, viewBytes, descriptorLayout]

/-! ### Sizes -/

@[simp] theorem length_putU16 (v : UInt16) : (putU16 v).length = 2 := rfl

@[simp] theorem length_putU32 (v : Word) : (putU32 v).length = 4 := rfl

@[simp] theorem length_serializeHeader (h : CapsuleHeader) : (serializeHeader h).length = 36 := rfl

theorem length_viewBytes (v : VisualView) : (viewBytes v).length = 89 := by
  simp [viewBytes, descriptorBytes, List.length_flatMap]

theorem serializeView_eq (v : VisualView) : serializeView v = viewBytes v ++ [0, 0, 0] := by
  simp [serializeView, viewBytes, serializeDescriptor, descriptorBytes]

theorem length_viewsLayout (views : List VisualView) :
    (views.flatMap viewLayout).length = views.length * 92 :=
  Codec.length_flatMap (fun v => by simp [viewLayout, length_viewBytes]) views

theorem length_serializedViews (views : List VisualView) :
    (views.flatMap serializeView).length = views.length * 92 :=
  Codec.length_flatMap (fun v => by simp [serializeView_eq, length_viewBytes]) views

/-! ### What the reader accepts -/

/-- The bytes of a prototype whose label was read from `label`. -/
def capsuleLayout (p : VisualPrototype) (label : List Byte) : List Byte :=
  serializeHeader (headerOf p label.length) ++ label ++ p.seen.flatMap viewLayout

/-- Bytes and their checksum. -/
def checked (body : List Byte) : List Byte := body ++ putU32 (stabilityCrc32c body)

/-- `capsuleLayout` describes a prototype that is accepted. -/
structure Layout (p : VisualPrototype) (label : List Byte) : Prop where
  verified : verify p = .ok
  pos : 0 < label.length
  lt : label.length < maxLabel
  label : p.label = labelOf label
  views : p.views = viewsOf p.seen

theorem length_seen {p : VisualPrototype} (h : verify p = .ok) :
    p.seen.length = p.viewCount.toNat := by
  obtain ⟨-, -, -, -, -, -, -, hle⟩ := fields_of_structureStatus (structureStatus_of_verify h)
  rw [VisualPrototype.seen, List.length_take, Vector.length_toList]
  exact Nat.min_eq_left hle

theorem length_capsuleLayout {p : VisualPrototype} (h : verify p = .ok) (label : List Byte) :
    (capsuleLayout p label).length = 36 + label.length + p.viewCount.toNat * 92 := by
  rw [capsuleLayout, List.length_append, List.length_append, length_serializeHeader,
    length_viewsLayout, length_seen h]

theorem length_checked (body : List Byte) : (checked body).length = body.length + 4 := by
  rw [checked, List.length_append, length_putU32]

theorem deserialize_of_layout {p : VisualPrototype} {label : List Byte} (h : Layout p label)
    (rest : List Byte) (out : VisualPrototype) :
    deserialize (checked (capsuleLayout p label) ++ rest) out =
      .ok (.ok, p, (checked (capsuleLayout p label)).length) := by
  obtain ⟨hmagic, hversion, -, -, -, hclass, hcountPos, hcountLe⟩ :=
    fields_of_structureStatus (structureStatus_of_verify h.verified)
  have hpos := h.pos
  have hlt := h.lt
  unfold maxViews at hcountLe
  unfold maxLabel at hlt
  have hbody := length_capsuleLayout h.verified label
  have hlen : (headerOf p label.length).labelLen.toNat = label.length :=
    UInt32.toNat_ofNat_of_lt' (show label.length < 2 ^ 32 by omega)
  have hcount : p.seen.length = (headerOf p label.length).viewCount.toNat := length_seen h.verified
  have htotal : (headerOf p label.length).total.toNat = (capsuleLayout p label).length + 4 := by
    have hsize : capsuleHeaderSize + label.length + p.viewCount.toNat * capsuleViewSize +
        capsuleTrailerSize = (capsuleLayout p label).length + 4 := by
      rw [hbody]
      rfl
    rw [headerOf, hsize]
    exact UInt32.toNat_ofNat_of_lt' (show _ < 2 ^ 32 by omega)
  -- what the reader takes, part by part
  have hread : deserializeHeader (checked (capsuleLayout p label) ++ rest) = .ok
      (headerOf p label.length, label ++ (p.seen.flatMap viewLayout ++
        (putU32 (stabilityCrc32c (capsuleLayout p label)) ++ rest))) := by
    rw [checked, capsuleLayout]
    simp only [List.append_assoc]
    exact inverts_deserializeHeader.get_put _ _
  obtain ⟨labelArray, hlabelArray, hreadLabel⟩ := inverts_getU8.vector_of_length hlen.symm
    (p.seen.flatMap viewLayout ++ (putU32 (stabilityCrc32c (capsuleLayout p label)) ++ rest))
  obtain ⟨views, hviews, hreadViews⟩ := inverts_deserializeView.vector_of_length hcount
    (putU32 (stabilityCrc32c (capsuleLayout p label)) ++ rest)
  rw [List.flatMap_singleton'] at hreadLabel
  have hstored : getU32 ((checked (capsuleLayout p label) ++ rest).drop
      ((headerOf p label.length).total.toNat - 4)) =
        .ok (stabilityCrc32c (capsuleLayout p label), rest) := by
    rw [htotal, Nat.add_sub_cancel, checked, List.append_assoc, List.drop_left]
    exact inverts_getU32.get_put _ _
  have hcrc : (checked (capsuleLayout p label) ++ rest).take
      ((headerOf p label.length).total.toNat - 4) = capsuleLayout p label := by
    rw [htotal, Nat.add_sub_cancel, checked, List.append_assoc, List.take_left]
  have hrestored : restored (headerOf p label.length) label p.seen = p := by
    rw [restored, ← h.label, ← h.views, ← hmagic, ← hversion]
    rfl
  have hsize : (checked (capsuleLayout p label) ++ rest).length =
      (capsuleLayout p label).length + 4 + rest.length := by
    rw [List.length_append, length_checked]
  -- the checks of the header, in the order of the source
  have hshort : ¬(checked (capsuleLayout p label) ++ rest).length <
      capsuleHeaderSize + capsuleTrailerSize := by
    unfold capsuleHeaderSize capsuleTrailerSize
    omega
  have hmagicOk : ¬(headerOf p label.length).magic ≠ capsuleMagic := not_not.mpr rfl
  have hversionOk : ¬((headerOf p label.length).version ≠ capsuleVersion ∨
      (headerOf p label.length).headerSize.toNat ≠ capsuleHeaderSize) :=
    not_or.mpr ⟨not_not.mpr rfl, not_not.mpr rfl⟩
  have htotalOk : ¬((checked (capsuleLayout p label) ++ rest).length <
      (headerOf p label.length).total.toNat ∨
        (headerOf p label.length).total.toNat < capsuleHeaderSize + capsuleTrailerSize) := by
    rw [htotal]
    unfold capsuleHeaderSize capsuleTrailerSize
    omega
  have hcountsOk : ¬((headerOf p label.length).viewCount.toNat = 0 ∨
      maxViews < (headerOf p label.length).viewCount.toNat ∨
        (headerOf p label.length).labelLen.toNat = 0 ∨
          maxLabel ≤ (headerOf p label.length).labelLen.toNat) := by
    rw [hlen]
    change ¬(p.viewCount.toNat = 0 ∨ 16 < p.viewCount.toNat ∨ label.length = 0 ∨ 32 ≤ label.length)
    omega
  have hexpectedOk : ¬capsuleHeaderSize + (headerOf p label.length).labelLen.toNat +
      (headerOf p label.length).viewCount.toNat * capsuleViewSize + capsuleTrailerSize ≠
        (headerOf p label.length).total.toNat := by
    rw [htotal, hbody, hlen]
    exact not_not.mpr rfl
  rw [deserialize, if_neg hshort]
  refine Result.bind_eq_ok.mpr ⟨_, hread, ?_⟩
  dsimp only
  rw [if_neg hmagicOk, if_neg hversionOk, if_neg htotalOk, if_neg hcountsOk, if_neg hexpectedOk]
  refine Result.bind_eq_ok.mpr ⟨_, hstored, ?_⟩
  dsimp only
  rw [hcrc, if_neg (not_not.mpr rfl)]
  refine Result.bind_eq_ok.mpr ⟨_, hreadLabel, Result.bind_eq_ok.mpr ⟨_, hreadViews, ?_⟩⟩
  dsimp only
  -- behind the views only the checksum is left
  have hpositionOk : ¬(checked (capsuleLayout p label) ++ rest).length -
      (putU32 (stabilityCrc32c (capsuleLayout p label)) ++ rest).length + capsuleTrailerSize ≠
        (headerOf p label.length).total.toNat := by
    rw [hsize, htotal, List.length_append, length_putU32]
    unfold capsuleTrailerSize
    omega
  have hverifyOk : ¬(verify p ≠ .ok ∨ p.classId ≠ classId p.label.toList) :=
    not_or.mpr ⟨not_not.mpr h.verified, not_not.mpr hclass⟩
  rw [hlabelArray, hviews, if_neg hpositionOk, hrestored, if_neg hverifyOk, htotal, length_checked]
  rfl

theorem takes_getU8 : Codec.Takes getU8 1 := Codec.takes_byte _

theorem takes_getU16 : Codec.Takes getU16 2 :=
  takes_getU8.bind fun _ => takes_getU8.bind fun _ => Codec.takes_pure _

theorem takes_getU32 : Codec.Takes getU32 4 :=
  takes_getU8.bind fun _ => takes_getU8.bind fun _ =>
    takes_getU8.bind fun _ => takes_getU8.bind fun _ => Codec.takes_pure _

theorem takes_deserializeHeader : Codec.Takes deserializeHeader 36 :=
  takes_getU32.bind fun _ => takes_getU16.bind fun _ => takes_getU16.bind fun _ =>
    takes_getU32.bind fun _ => takes_getU32.bind fun _ => takes_getU32.bind fun _ =>
      takes_getU32.bind fun _ => takes_getU32.bind fun _ => takes_getU32.bind fun _ =>
        takes_getU32.bind fun _ => Codec.takes_pure _

theorem takes_deserializeDescriptor : Codec.Takes deserializeDescriptor 80 :=
  takes_getU32.bind fun _ => takes_getU32.bind fun _ => takes_getU32.bind fun _ =>
    takes_getU32.bind fun _ => takes_getU32.bind fun _ => takes_getU32.bind fun _ =>
      (takes_getU32.vector 8).bind fun _ => takes_getU32.bind fun _ => takes_getU32.bind fun _ =>
        takes_getU32.bind fun _ => takes_getU32.bind fun _ => takes_getU32.bind fun _ =>
          takes_getU8.bind fun _ => (takes_getU8.vector 3).bind fun _ =>
            Codec.takes_pure _

theorem takes_deserializeView : Codec.Takes deserializeView 92 :=
  takes_getU8.bind fun _ => takes_getU8.bind fun _ => takes_getU16.bind fun _ =>
    takes_getU32.bind fun _ => takes_getU32.bind fun _ =>
      takes_deserializeDescriptor.bind fun _ => Codec.takes_pure _

/-- The reader stays within its data, whatever the bytes say about sizes. -/
theorem deserialize_in_bounds (data : List Byte) (out : VisualPrototype) :
    ∃ result, deserialize data out = .ok result := by
  rw [deserialize]
  by_cases hshort : data.length < capsuleHeaderSize + capsuleTrailerSize
  · exact ⟨_, if_pos hshort⟩
  rw [if_neg hshort]
  rw [show capsuleHeaderSize + capsuleTrailerSize = 40 from rfl] at hshort
  obtain ⟨hd, hread⟩ := takes_deserializeHeader data (by omega)
  rw [hread, Result.ok_bind]
  dsimp only
  by_cases hmagic : hd.magic ≠ capsuleMagic
  · exact ⟨_, if_pos hmagic⟩
  rw [if_neg hmagic]
  by_cases hversion : hd.version ≠ capsuleVersion ∨ hd.headerSize.toNat ≠ capsuleHeaderSize
  · exact ⟨_, if_pos hversion⟩
  rw [if_neg hversion]
  by_cases htotal : data.length < hd.total.toNat ∨
      hd.total.toNat < capsuleHeaderSize + capsuleTrailerSize
  · exact ⟨_, if_pos htotal⟩
  rw [if_neg htotal]
  by_cases hcounts : hd.viewCount.toNat = 0 ∨ maxViews < hd.viewCount.toNat ∨
      hd.labelLen.toNat = 0 ∨ maxLabel ≤ hd.labelLen.toNat
  · exact ⟨_, if_pos hcounts⟩
  rw [if_neg hcounts]
  by_cases hexpected : capsuleHeaderSize + hd.labelLen.toNat +
      hd.viewCount.toNat * capsuleViewSize + capsuleTrailerSize ≠ hd.total.toNat
  · exact ⟨_, if_pos hexpected⟩
  rw [if_neg hexpected]
  rw [not_not, show capsuleHeaderSize = 36 from rfl, show capsuleViewSize = 92 from rfl,
    show capsuleTrailerSize = 4 from rfl] at hexpected
  obtain ⟨stored, hstored⟩ := takes_getU32 (data.drop (hd.total.toNat - 4))
    (by rw [List.length_drop]; omega)
  rw [hstored, Result.ok_bind]
  dsimp only
  by_cases hcrc : stabilityCrc32c (data.take (hd.total.toNat - 4)) ≠ stored
  · exact ⟨_, if_pos hcrc⟩
  rw [if_neg hcrc]
  obtain ⟨label, hlabel⟩ := takes_getU8.vector hd.labelLen.toNat
    (data.drop 36) (by rw [List.length_drop]; omega)
  obtain ⟨views, hviews⟩ := takes_deserializeView.vector hd.viewCount.toNat
    ((data.drop 36).drop (hd.labelLen.toNat * 1))
    (by rw [List.length_drop, List.length_drop]; omega)
  rw [hlabel, Result.ok_bind]
  dsimp only
  rw [hviews, Result.ok_bind]
  dsimp only
  split_ifs <;> exact ⟨_, rfl⟩

theorem layout_of_deserialize {data : List Byte} {out p : VisualPrototype} {t : ℕ}
    (h : deserialize data out = .ok (.ok, p, t)) :
    ∃ label rest, Layout p label ∧ data = checked (capsuleLayout p label) ++ rest ∧
      t = (checked (capsuleLayout p label)).length := by
  rw [deserialize] at h
  obtain ⟨hshort, h⟩ := of_check h (by simp)
  obtain ⟨⟨hd, c⟩, hread, h⟩ := Result.bind_eq_ok.mp h
  dsimp only at h
  obtain ⟨hmagic, h⟩ := of_check h (by simp)
  obtain ⟨hversion, h⟩ := of_check h (by simp)
  obtain ⟨htotal, h⟩ := of_check h (by simp)
  obtain ⟨hcounts, h⟩ := of_check h (by simp)
  obtain ⟨hexpected, h⟩ := of_check h (by simp)
  obtain ⟨⟨stored, tail⟩, hstored, h⟩ := Result.bind_eq_ok.mp h
  dsimp only at h
  obtain ⟨hcrc, h⟩ := of_check h (by simp)
  obtain ⟨⟨label, c'⟩, hlabel, h⟩ := Result.bind_eq_ok.mp h
  obtain ⟨⟨views, c''⟩, hviews, h⟩ := Result.bind_eq_ok.mp h
  dsimp only at h
  obtain ⟨-, h⟩ := of_check h (by simp)
  obtain ⟨hverify, h⟩ := of_check h (by simp)
  -- the bytes are the four pieces that were read and what is left of them
  have hdata : data = serializeHeader hd ++ c := (inverts_deserializeHeader _ _ _).mp hread
  have hc : c = label.toList ++ c' := by
    simpa only [List.flatMap_singleton'] using (inverts_getU8.vector _ _ _ _).mp hlabel
  have hc' : c' = views.toList.flatMap viewLayout ++ c'' :=
    (inverts_deserializeView.vector _ _ _ _).mp hviews
  have htail := (inverts_getU32 _ _ _).mp hstored
  rw [not_not] at hmagic hexpected hcrc
  rw [not_or, not_not, not_not] at hversion
  have hlabelLen : label.toList.length = hd.labelLen.toNat := Vector.length_toList
  have hviewCount : views.toList.length = hd.viewCount.toNat := Vector.length_toList
  rw [Result.pure_eq, Except.ok.injEq, Prod.mk.injEq, Prod.mk.injEq] at h
  obtain ⟨-, rfl, rfl⟩ := h
  generalize label.toList = label at *
  generalize views.toList = views at *
  have hseen : (restored hd label views).seen = views := by
    have hle : views.length ≤ 16 := by
      unfold maxViews at hcounts
      omega
    calc (viewsOf views).toList.take hd.viewCount.toNat
        = views.take hd.viewCount.toNat := Buffer.take_padded hle hviewCount.ge
      _ = views := List.take_of_length_le hviewCount.le
  have hheader : headerOf (restored hd label views) label.length = hd := by
    have hsize : UInt16.ofNat capsuleHeaderSize = hd.headerSize := by
      rw [← hversion.2, UInt16.ofNat_toNat]
    have hlen : UInt32.ofNat label.length = hd.labelLen := by rw [hlabelLen, UInt32.ofNat_toNat]
    have htot : UInt32.ofNat (capsuleHeaderSize + label.length +
        hd.viewCount.toNat * capsuleViewSize + capsuleTrailerSize) = hd.total := by
      rw [hlabelLen, hexpected, UInt32.ofNat_toNat]
    rw [headerOf, hsize, hlen, ← hmagic, ← hversion.1]
    exact congrArg (fun total => { hd with total := total }) htot
  have hbody : capsuleLayout (restored hd label views) label =
      serializeHeader hd ++ label ++ views.flatMap viewLayout := by
    rw [capsuleLayout, hheader, hseen]
  have hlength : (serializeHeader hd ++ label ++ views.flatMap viewLayout).length =
      hd.total.toNat - 4 := by
    rw [List.length_append, List.length_append, length_serializeHeader, length_viewsLayout,
      hlabelLen, hviewCount, ← hexpected]
    rfl
  have hsplit : data = serializeHeader hd ++ label ++ views.flatMap viewLayout ++ c'' := by
    rw [hdata, hc, hc', List.append_assoc, List.append_assoc]
  rw [hsplit, List.drop_left' hlength] at htail
  rw [hsplit, List.take_left' hlength] at hcrc
  refine ⟨label, tail, ⟨not_not.mp (not_or.mp hverify).1, by omega, by omega, rfl, ?_⟩, ?_, ?_⟩
  · rw [hseen]
    rfl
  · rw [checked, hbody, hcrc, hsplit, htail, List.append_assoc _ _ tail]
  · rw [length_checked, hbody, hlength]
    unfold capsuleHeaderSize at htotal
    omega

end Blake3.Visual
