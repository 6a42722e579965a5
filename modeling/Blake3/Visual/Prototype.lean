import Blake3.Lib.Buffer
import Blake3.Lib.Crc
import Blake3.Lib.Keyed
import Blake3.Words
import Mathlib.Data.List.TakeWhile

/-!
Labeled visual prototypes: the first half of `rmr_visual_prototype.c`. A
prototype has a label, whose checksum is its class, and up to sixteen views.
-/

namespace Blake3.Visual

def apiVersion : Word := 1
def prototypeMagic : Word := 0x52565031
def maxLabel : ℕ := 32
def maxViews : ℕ := 16

/-- `RMR_VISUAL_ADD_REPLACE` -/
def addReplace : Word := 1

inductive Status where
  | ok
  | badArgument
  | empty
  | full
  | duplicateView
  | badMagic
  | badVersion
  | truncated
  | crcMismatch
  | unsealed
  deriving DecidableEq, Repr

structure VisionDescriptor where
  width : Word
  height : Word
  pixelCount : Word
  foregroundCount : Word
  foregroundQ16 : Word
  angleCount : Word
  angleHist : Vector Word 8
  angularChi2Q16 : Word
  angularConcentrationQ16 : Word
  grayCrc32c : Word
  descriptorCrc32c : Word
  status : Word
  otsuThreshold : Byte
  reserved : Vector Byte 3
  deriving DecidableEq

structure VisualView where
  viewId : Byte
  flags : Byte
  reserved : UInt16
  sampleId : Word
  sourceCrc32c : Word
  descriptor : VisionDescriptor
  deriving DecidableEq

structure VisualPrototype where
  magic : Word
  version : Word
  classId : Word
  flags : Word
  viewCount : Word
  viewMask : Word
  prototypeCrc32c : Word
  label : Vector Byte 32
  views : Vector VisualView 16
  deriving DecidableEq

/-! ### Memory filled with zeros -/

def VisionDescriptor.zero : VisionDescriptor where
  width := 0
  height := 0
  pixelCount := 0
  foregroundCount := 0
  foregroundQ16 := 0
  angleCount := 0
  angleHist := Vector.replicate 8 0
  angularChi2Q16 := 0
  angularConcentrationQ16 := 0
  grayCrc32c := 0
  descriptorCrc32c := 0
  status := 0
  otsuThreshold := 0
  reserved := Vector.replicate 3 0

def VisualView.zero : VisualView where
  viewId := 0
  flags := 0
  reserved := 0
  sampleId := 0
  sourceCrc32c := 0
  descriptor := VisionDescriptor.zero

def VisualPrototype.zero : VisualPrototype where
  magic := 0
  version := 0
  classId := 0
  flags := 0
  viewCount := 0
  viewMask := 0
  prototypeCrc32c := 0
  label := Vector.replicate 32 0
  views := Vector.replicate 16 VisualView.zero

/-! ### Strings and checksums -/

/-- The length of a string of which `cap` bytes may be read; the end of the list
counts as a zero. -/
def strnlen : List Byte → ℕ → ℕ
  | [], _ => 0
  | _, 0 => 0
  | b :: s, cap + 1 => if b ≠ 0 then strnlen s cap + 1 else 0

def crc32cUpdate (crc : Word) (p : List Byte) : Word := Crc.update 0x82f63b78 crc p

def putU16 (v : UInt16) : List Byte := [v.toUInt8, (v >>> 8).toUInt8]

def putU32 (v : Word) : List Byte :=
  [v.toUInt8, (v >>> 8).toUInt8, (v >>> 16).toUInt8, (v >>> 24).toUInt8]

def crcU8 (crc : Word) (value : Byte) : Word := crc32cUpdate crc [value]
def crcU16 (crc : Word) (value : UInt16) : Word := crc32cUpdate crc (putU16 value)
def crcU32 (crc value : Word) : Word := crc32cUpdate crc (putU32 value)

/-- `RmR_Stability_CRC32C` -/
def stabilityCrc32c (data : List Byte) : Word := crc32cUpdate 0xffffffff data ^^^ 0xffffffff

def descriptorCrc (crc : Word) (d : VisionDescriptor) : Word :=
  let crc := crcU32 crc d.width
  let crc := crcU32 crc d.height
  let crc := crcU32 crc d.pixelCount
  let crc := crcU32 crc d.foregroundCount
  let crc := crcU32 crc d.foregroundQ16
  let crc := crcU32 crc d.angleCount
  let crc := d.angleHist.toList.foldl crcU32 crc
  let crc := crcU32 crc d.angularChi2Q16
  let crc := crcU32 crc d.angularConcentrationQ16
  let crc := crcU32 crc d.grayCrc32c
  let crc := crcU32 crc d.descriptorCrc32c
  let crc := crcU32 crc d.status
  crcU8 crc d.otsuThreshold

/-- One turn of the loop of `rmr_prototype_crc`. -/
def viewCrc (crc : Word) (v : VisualView) : Word :=
  let crc := crcU8 crc v.viewId
  let crc := crcU8 crc v.flags
  let crc := crcU16 crc v.reserved
  let crc := crcU32 crc v.sampleId
  let crc := crcU32 crc v.sourceCrc32c
  descriptorCrc crc v.descriptor

/-- The views a loop up to `view_count` sees. -/
def VisualPrototype.seen (p : VisualPrototype) : List VisualView :=
  p.views.toList.take p.viewCount.toNat

/-- The label up to its zero. -/
def VisualPrototype.text (p : VisualPrototype) : List Byte :=
  p.label.toList.take (strnlen p.label.toList maxLabel)

def prototypeCrc (p : VisualPrototype) : Word :=
  let labelLen := strnlen p.label.toList maxLabel
  let crc := crcU32 0xffffffff p.magic
  let crc := crcU32 crc p.version
  let crc := crcU32 crc p.classId
  let crc := crcU32 crc p.flags
  let crc := crcU32 crc p.viewCount
  let crc := crcU32 crc p.viewMask
  let crc := crcU32 crc (UInt32.ofNat labelLen)
  let crc := crc32cUpdate crc (p.label.toList.take labelLen)
  p.seen.foldl viewCrc crc ^^^ 0xffffffff

/-- `RmR_Visual_ClassId` -/
def classId (label : List Byte) : Word :=
  let n := strnlen label maxLabel
  if n = 0 ∨ maxLabel ≤ n then 0 else stabilityCrc32c (label.take n)

/-! ### Building -/

/-- The array of a label: its bytes and then zeros. -/
def labelOf (text : List Byte) : Vector Byte 32 := Buffer.padded 0 text

/-- `RmR_VisualPrototype_Init`, none of its pointers being null. -/
def init (p : VisualPrototype) (label : List Byte) (flags : Word) : Status × VisualPrototype :=
  let n := strnlen label maxLabel
  if n = 0 ∨ maxLabel ≤ n then (.badArgument, p)
  else
    let p : VisualPrototype := { VisualPrototype.zero with
      magic := prototypeMagic
      version := apiVersion
      flags := flags
      label := labelOf (label.take n)
      classId := classId label }
    (if p.classId ≠ 0 then .ok else .badArgument, p)

/-- The bit of a view in a mask. -/
def viewBit (viewId : Byte) : Word := 1 <<< viewId.toUInt32

/-- What `RmR_VisualPrototype_AddView` is given besides the prototype. -/
structure AddView where
  viewId : Byte
  sampleFlags : Byte
  sampleId : Word
  sourceCrc32c : Word
  descriptor : VisionDescriptor
  addFlags : Word
  deriving DecidableEq

/-- The view that is stored. -/
def AddView.view (call : AddView) : VisualView where
  viewId := call.viewId
  flags := call.sampleFlags
  reserved := 0
  sampleId := call.sampleId
  sourceCrc32c := call.sourceCrc32c
  descriptor := call.descriptor

/-- `RmR_VisualPrototype_AddView`, none of its pointers being null and the
prototype having at most sixteen views. -/
def addView (p : VisualPrototype) (call : AddView) : Status × VisualPrototype :=
  if p.magic ≠ prototypeMagic ∨ p.version ≠ apiVersion ∨ maxViews ≤ call.viewId.toNat then
    (.badArgument, p)
  else
    let slot := Keyed.slot VisualView.viewId call.viewId p.seen
    if slot < p.seen.length ∧ call.addFlags &&& addReplace = 0 then (.duplicateView, p)
    else if slot = p.seen.length ∧ maxViews ≤ p.viewCount.toNat then (.full, p)
    else
      (.ok, { p with
        viewCount := if slot = p.seen.length then p.viewCount + 1 else p.viewCount
        views := p.views.setIfInBounds slot call.view
        viewMask := p.viewMask ||| viewBit call.viewId
        prototypeCrc32c := 0 })

/-! ### Sealing -/

/-- The loop of `rmr_visual_structure_status`: the mask of the views. -/
def viewsMask : Word → List VisualView → Except Status Word
  | mask, [] => .ok mask
  | mask, v :: views =>
      if maxViews ≤ v.viewId.toNat then .error .badArgument
      else if mask &&& viewBit v.viewId ≠ 0 then .error .duplicateView
      else viewsMask (mask ||| viewBit v.viewId) views

/-- `rmr_visual_structure_status` -/
def structureStatus (p : VisualPrototype) : Status :=
  let labelLen := strnlen p.label.toList maxLabel
  if p.magic ≠ prototypeMagic then .badMagic
  else if p.version ≠ apiVersion then .badVersion
  else if labelLen = 0 ∨ maxLabel ≤ labelLen then .badArgument
  else if p.classId = 0 ∨ p.classId ≠ classId p.label.toList then .crcMismatch
  else if p.viewCount = 0 then .empty
  else if maxViews < p.viewCount.toNat then .badArgument
  else
    match viewsMask 0 p.seen with
    | .error status => status
    | .ok mask => if mask ≠ p.viewMask then .crcMismatch else .ok

/-- `RmR_VisualPrototype_Seal` -/
def sealPrototype (p : VisualPrototype) : Status × VisualPrototype :=
  match structureStatus p with
  | .ok => (.ok, { p with prototypeCrc32c := prototypeCrc p })
  | status => (status, p)

/-- `RmR_VisualPrototype_Verify` -/
def verify (p : VisualPrototype) : Status :=
  match structureStatus p with
  | .ok =>
      if p.prototypeCrc32c = 0 then .unsealed
      else if prototypeCrc p = p.prototypeCrc32c then .ok
      else .crcMismatch
  | status => status

/-! ### Labels -/

theorem strnlen_eq (s : List Byte) (cap : ℕ) :
    strnlen s cap = ((s.take cap).takeWhile (· ≠ 0)).length := by
  induction s generalizing cap with
  | nil => rw [strnlen, List.take_nil, List.takeWhile_nil, List.length_nil]
  | cons b s ih =>
      cases cap with
      | zero => rfl
      | succ cap =>
          rw [strnlen, List.take_succ_cons, List.takeWhile_cons]
          by_cases hb : b = 0
          · simp [hb]
          · simp [hb, ih]

theorem take_strnlen (s : List Byte) (cap : ℕ) :
    s.take (strnlen s cap) = (s.take cap).takeWhile (· ≠ 0) := by
  have hpre : (s.take cap).takeWhile (· ≠ 0) <+: s :=
    (List.takeWhile_prefix _).trans (List.take_prefix _ _)
  rw [strnlen_eq]
  exact (List.prefix_iff_eq_take.mp hpre).symm

theorem length_take_strnlen (s : List Byte) (cap : ℕ) :
    (s.take (strnlen s cap)).length = strnlen s cap := by
  rw [take_strnlen, strnlen_eq]

theorem strnlen_le (s : List Byte) (cap : ℕ) : strnlen s cap ≤ s.length := by
  rw [← length_take_strnlen s cap, List.length_take]
  exact Nat.min_le_right _ _

theorem ne_zero_of_mem_take_strnlen {s : List Byte} {cap : ℕ} {b : Byte}
    (h : b ∈ s.take (strnlen s cap)) : b ≠ 0 := by
  rw [take_strnlen] at h
  simpa using List.mem_takeWhile_imp h

/-- A string is as long as its bytes exactly when none of them is zero. -/
theorem strnlen_eq_length_iff {text : List Byte} {cap : ℕ} (h : text.length ≤ cap) :
    strnlen text cap = text.length ↔ ∀ b ∈ text, b ≠ 0 := by
  constructor
  · intro hlength b hb
    have hmem : b ∈ text.take (strnlen text cap) := by rwa [hlength, List.take_length]
    exact ne_zero_of_mem_take_strnlen hmem
  · intro hne
    rw [strnlen_eq, List.take_of_length_le h, List.takeWhile_eq_self_iff.mpr]
    simpa using hne

theorem strnlen_append_zero {text : List Byte} {cap : ℕ} (h : text.length < cap)
    (rest : List Byte) : strnlen (text ++ 0 :: rest) cap = strnlen text cap := by
  induction text generalizing cap with
  | nil =>
      cases cap with
      | zero => simp at h
      | succ cap => simp [strnlen]
  | cons b text ih =>
      cases cap with
      | zero => simp at h
      | succ cap => rw [List.cons_append, strnlen, strnlen, ih (by simpa using h)]

theorem strnlen_labelOf {text : List Byte} (h : text.length < 32) :
    strnlen (labelOf text).toList maxLabel = strnlen text maxLabel := by
  obtain ⟨k, hk⟩ : ∃ k, 32 - text.length = k + 1 := ⟨31 - text.length, by omega⟩
  rw [labelOf, Buffer.toList_padded (by omega), hk, List.replicate_succ]
  exact strnlen_append_zero h _

theorem classId_labelOf {text : List Byte} (h : text.length < 32) :
    classId (labelOf text).toList = classId text := by
  rw [classId, classId, strnlen_labelOf h, labelOf,
    Buffer.take_padded (Nat.le_of_lt h) (strnlen_le text maxLabel)]

/-- The class of a label is that of its text. -/
theorem classId_take_strnlen {label : List Byte} (h : strnlen label maxLabel < maxLabel) :
    classId (label.take (strnlen label maxLabel)) = classId label := by
  have hlength := length_take_strnlen label maxLabel
  have htext : strnlen (label.take (strnlen label maxLabel)) maxLabel = strnlen label maxLabel :=
    ((strnlen_eq_length_iff (by omega)).mpr
      fun b hb => ne_zero_of_mem_take_strnlen hb).trans hlength
  rw [classId, classId, htext, List.take_take, Nat.min_self]

/-! ### What verification has checked -/

theorem structureStatus_of_verify {p : VisualPrototype} (h : verify p = .ok) :
    structureStatus p = .ok := by
  rw [verify] at h
  split at h
  · next hstructure => exact hstructure
  · exact h

/-- A check that was passed: its failure would have been another result. -/
theorem of_check {α : Type} {c : Prop} [Decidable c] {failed next result : α}
    (h : (if c then failed else next) = result) (hne : failed ≠ result) : ¬c ∧ next = result := by
  by_cases hc : c
  · rw [if_pos hc] at h
    exact absurd h hne
  · rw [if_neg hc] at h
    exact ⟨hc, h⟩

theorem fields_of_structureStatus {p : VisualPrototype} (h : structureStatus p = .ok) :
    p.magic = prototypeMagic ∧ p.version = apiVersion ∧ 0 < strnlen p.label.toList maxLabel ∧
      strnlen p.label.toList maxLabel < maxLabel ∧ p.classId ≠ 0 ∧
      p.classId = classId p.label.toList ∧ 0 < p.viewCount.toNat ∧
      p.viewCount.toNat ≤ maxViews := by
  rw [structureStatus] at h
  obtain ⟨hmagic, h⟩ := of_check h (by decide)
  obtain ⟨hversion, h⟩ := of_check h (by decide)
  obtain ⟨hlabel, h⟩ := of_check h (by decide)
  obtain ⟨hclass, h⟩ := of_check h (by decide)
  obtain ⟨hempty, h⟩ := of_check h (by decide)
  obtain ⟨hcount, -⟩ := of_check h (by decide)
  have hpos : p.viewCount.toNat ≠ 0 := fun hzero => hempty (UInt32.toNat_inj.mp hzero)
  rw [not_or] at hlabel hclass
  exact ⟨not_not.mp hmagic, not_not.mp hversion, by omega, by omega, hclass.1,
    not_not.mp hclass.2, by omega, by omega⟩

/-! ### Checksums -/

theorem crc32cUpdate_append (crc : Word) (p q : List Byte) :
    crc32cUpdate (crc32cUpdate crc p) q = crc32cUpdate crc (p ++ q) :=
  (Crc.update_append _ crc p q).symm

theorem foldl_crc {α : Type} {crcOf : Word → α → Word} {put : α → List Byte}
    (h : ∀ crc a, crcOf crc a = crc32cUpdate crc (put a)) (crc : Word) (as : List α) :
    as.foldl crcOf crc = crc32cUpdate crc (as.flatMap put) := by
  induction as generalizing crc with
  | nil => rfl
  | cons a as ih => rw [List.foldl_cons, ih, h, crc32cUpdate_append, List.flatMap_cons]

/-- The bytes of a descriptor that are checked, 77 of them. -/
def descriptorBytes (d : VisionDescriptor) : List Byte :=
  putU32 d.width ++ putU32 d.height ++ putU32 d.pixelCount ++ putU32 d.foregroundCount ++
    putU32 d.foregroundQ16 ++ putU32 d.angleCount ++ d.angleHist.toList.flatMap putU32 ++
    putU32 d.angularChi2Q16 ++ putU32 d.angularConcentrationQ16 ++ putU32 d.grayCrc32c ++
    putU32 d.descriptorCrc32c ++ putU32 d.status ++ [d.otsuThreshold]

def viewBytes (v : VisualView) : List Byte :=
  [v.viewId, v.flags] ++ putU16 v.reserved ++ putU32 v.sampleId ++ putU32 v.sourceCrc32c ++
    descriptorBytes v.descriptor

/-- The bytes a prototype's checksum is of. -/
def prototypeBytes (p : VisualPrototype) : List Byte :=
  putU32 p.magic ++ putU32 p.version ++ putU32 p.classId ++ putU32 p.flags ++ putU32 p.viewCount ++
    putU32 p.viewMask ++ putU32 (UInt32.ofNat p.text.length) ++ p.text ++ p.seen.flatMap viewBytes

theorem descriptorCrc_eq (crc : Word) (d : VisionDescriptor) :
    descriptorCrc crc d = crc32cUpdate crc (descriptorBytes d) := by
  have hhist : ∀ (crc : Word) (words : List Word),
      words.foldl crcU32 crc = crc32cUpdate crc (words.flatMap putU32) :=
    foldl_crc fun _ _ => rfl
  simp only [descriptorCrc, crcU8, hhist, crcU32, crc32cUpdate_append, descriptorBytes,
    List.append_assoc]

theorem viewCrc_eq (crc : Word) (v : VisualView) :
    viewCrc crc v = crc32cUpdate crc (viewBytes v) := by
  simp only [viewCrc, descriptorCrc_eq, crcU8, crcU16, crcU32, crc32cUpdate_append, viewBytes,
    List.append_assoc, List.cons_append, List.nil_append]

theorem prototypeCrc_eq (p : VisualPrototype) :
    prototypeCrc p = stabilityCrc32c (prototypeBytes p) := by
  have hlength : p.text.length = strnlen p.label.toList maxLabel := length_take_strnlen _ _
  simp only [prototypeCrc, foldl_crc viewCrc_eq, crcU32, crc32cUpdate_append, stabilityCrc32c,
    prototypeBytes, hlength, List.append_assoc]
  rfl

end Blake3.Visual
