import Blake3.Visual.Prototype
import Mathlib.Data.List.Perm.Subperm
import Mathlib.Data.Nat.Bitwise

/-!
What `RmR_VisualPrototype_Init` and `RmR_VisualPrototype_AddView` build: the
memory of an exemplar, which is a label and a list of views of different ids.
Every exemplar with a view can be sealed; whether the sealed prototype is
accepted depends on the value of the checksum.
-/

namespace Blake3.Visual

/-! ### Masks -/

theorem toNat_viewBit {id : Byte} (h : id.toNat < maxViews) :
    (viewBit id).toNat = 2 ^ id.toNat := by
  have hid : id.toNat < 16 := h
  have hpow : 2 ^ id.toNat < 2 ^ 32 := Nat.pow_lt_pow_right (by omega) (by omega)
  have hmod : id.toNat % 32 = id.toNat := Nat.mod_eq_of_lt (by omega)
  rw [viewBit, UInt32.toNat_shiftLeft, UInt8.toNat_toUInt32, UInt32.toNat_one, hmod,
    Nat.one_shiftLeft, Nat.mod_eq_of_lt hpow]

theorem and_viewBit_ne_zero {mask : Word} {id : Byte} (h : id.toNat < maxViews) :
    mask &&& viewBit id ≠ 0 ↔ mask.toNat.testBit id.toNat = true := by
  rw [ne_eq, ← UInt32.toNat_inj, UInt32.toNat_and, toNat_viewBit h, Nat.and_two_pow]
  cases mask.toNat.testBit id.toNat <;> simp

theorem testBit_or_viewBit {mask : Word} {id : Byte} (h : id.toNat < maxViews) (k : ℕ) :
    (mask ||| viewBit id).toNat.testBit k = (mask.toNat.testBit k || decide (id.toNat = k)) := by
  rw [UInt32.toNat_or, toNat_viewBit h, Nat.testBit_or, Nat.testBit_two_pow]

/-- The mask of some ids. -/
def maskOf (ids : List Byte) : Word := ids.foldl (fun mask id => mask ||| viewBit id) 0

theorem testBit_foldl_viewBit {ids : List Byte} (h : ∀ id ∈ ids, id.toNat < maxViews) (mask : Word)
    (k : ℕ) : (ids.foldl (fun mask id => mask ||| viewBit id) mask).toNat.testBit k = true ↔
      mask.toNat.testBit k = true ∨ k ∈ ids.map UInt8.toNat := by
  induction ids generalizing mask with
  | nil => simp
  | cons id ids ih =>
      have hid := h id List.mem_cons_self
      rw [List.foldl_cons, ih (fun i hi => h i (List.mem_cons_of_mem _ hi)), testBit_or_viewBit hid,
        Bool.or_eq_true, decide_eq_true_eq, or_assoc, List.map_cons, List.mem_cons,
        eq_comm (a := k)]

theorem maskOf_or_viewBit {ids : List Byte} {id : Byte} (h : ∀ i ∈ ids, i.toNat < maxViews)
    (hid : id ∈ ids) : maskOf ids ||| viewBit id = maskOf ids := by
  apply UInt32.toNat_inj.mp
  apply Nat.eq_of_testBit_eq
  intro k
  rw [testBit_or_viewBit (h id hid)]
  by_cases hk : id.toNat = k
  · have hset : (maskOf ids).toNat.testBit k = true :=
      (testBit_foldl_viewBit h 0 k).mpr (.inr (List.mem_map.mpr ⟨id, hid, hk⟩))
    rw [hset, Bool.true_or]
  · rw [decide_eq_false hk, Bool.or_false]

theorem maskOf_append (ids : List Byte) (id : Byte) :
    maskOf (ids ++ [id]) = maskOf ids ||| viewBit id := by
  rw [maskOf, List.foldl_append, List.foldl_cons, List.foldl_nil, ← maskOf]

/-- Views of different ids pass the loop, and leave the mask of their ids. -/
theorem viewsMask_eq {mask : Word} {views : List VisualView}
    (hlt : ∀ v ∈ views, v.viewId.toNat < maxViews) (hnodup : (views.map VisualView.viewId).Nodup)
    (hmask : ∀ v ∈ views, mask.toNat.testBit v.viewId.toNat = false) :
    viewsMask mask views =
      .ok ((views.map VisualView.viewId).foldl (fun mask id => mask ||| viewBit id) mask) := by
  induction views generalizing mask with
  | nil => rfl
  | cons v views ih =>
      have hv := hlt v List.mem_cons_self
      have hnew : ¬mask &&& viewBit v.viewId ≠ 0 := by
        rw [and_viewBit_ne_zero hv, hmask v List.mem_cons_self]
        exact Bool.false_ne_true
      rw [List.map_cons, List.nodup_cons] at hnodup
      rw [viewsMask, if_neg (by omega), if_neg hnew, List.map_cons, List.foldl_cons]
      refine ih (fun w hw => hlt w (List.mem_cons_of_mem _ hw)) hnodup.2 fun w hw => ?_
      have hne : v.viewId.toNat ≠ w.viewId.toNat := by
        intro h
        exact hnodup.1 (List.mem_map.mpr ⟨w, hw, (UInt8.toNat_inj.mp h).symm⟩)
      rw [testBit_or_viewBit hv, hmask w (List.mem_cons_of_mem _ hw), decide_eq_false hne]
      rfl

/-! ### Exemplars -/

/-- A label and views of different ids. -/
structure Exemplar where
  text : List Byte
  flags : Word
  views : List VisualView
  text_ne : ∀ b ∈ text, b ≠ 0
  text_pos : 0 < text.length
  text_lt : text.length < maxLabel
  classId_ne : classId text ≠ 0
  ids_lt : ∀ v ∈ views, v.viewId.toNat < maxViews
  ids_nodup : (views.map VisualView.viewId).Nodup

/-- The array of some views: the slots behind them are zero. -/
def viewsOf (views : List VisualView) : Vector VisualView 16 := Buffer.padded VisualView.zero views

namespace Exemplar

def ids (e : Exemplar) : List Byte := e.views.map VisualView.viewId

/-- The memory of an exemplar, the checksum stored being `crc`. -/
def toPrototype (e : Exemplar) (crc : Word) : VisualPrototype where
  magic := prototypeMagic
  version := apiVersion
  classId := classId e.text
  flags := e.flags
  viewCount := UInt32.ofNat e.views.length
  viewMask := maskOf e.ids
  prototypeCrc32c := crc
  label := labelOf e.text
  views := viewsOf e.views

/-- The view in the place of the view of its id, or behind the others. -/
def put (e : Exemplar) (v : VisualView) (h : v.viewId.toNat < maxViews) : Exemplar :=
  { e with
    views := Keyed.upsert VisualView.viewId v e.views
    ids_lt := fun w hw => by
      rcases Keyed.mem_of_mem_upsert hw with rfl | hw
      · exact h
      · exact e.ids_lt w hw
    ids_nodup := Keyed.nodup_upsert e.ids_nodup }

/-- What a call of `RmR_VisualPrototype_AddView` does to an exemplar. -/
def add (e : Exemplar) (call : AddView) : Status × Exemplar :=
  if h : maxViews ≤ call.viewId.toNat then (.badArgument, e)
  else if call.viewId ∈ e.ids ∧ call.addFlags &&& addReplace = 0 then (.duplicateView, e)
  else (.ok, e.put call.view (Nat.lt_of_not_le h))

variable (e : Exemplar) (crc : Word)

theorem ids_lt' {id : Byte} (h : id ∈ e.ids) : id.toNat < maxViews := by
  obtain ⟨v, hv, rfl⟩ := List.mem_map.mp h
  exact e.ids_lt v hv

/-- There are no more views than ids. -/
theorem length_views_le : e.views.length ≤ maxViews := by
  have hnodup : (e.ids.map UInt8.toNat).Nodup :=
    e.ids_nodup.map fun _ _ h => UInt8.toNat_inj.mp h
  have hsub : e.ids.map UInt8.toNat ⊆ List.range maxViews := by
    intro k hk
    obtain ⟨id, hid, rfl⟩ := List.mem_map.mp hk
    exact List.mem_range.mpr (e.ids_lt' hid)
  have hle := (List.subperm_of_subset hnodup hsub).length_le
  rwa [List.length_map, ids, List.length_map, List.length_range] at hle

theorem toNat_viewCount : (e.toPrototype crc).viewCount.toNat = e.views.length := by
  have hle := e.length_views_le
  exact UInt32.toNat_ofNat_of_lt' (show e.views.length < 2 ^ 32 by unfold maxViews at hle; omega)

theorem seen_toPrototype : (e.toPrototype crc).seen = e.views := by
  have hle := e.length_views_le
  rw [VisualPrototype.seen, toNat_viewCount]
  exact (Buffer.take_padded hle (le_refl _)).trans (List.take_length)

theorem strnlen_text : strnlen e.text maxLabel = e.text.length :=
  (strnlen_eq_length_iff (Nat.le_of_lt e.text_lt)).mpr e.text_ne

theorem text_toPrototype : (e.toPrototype crc).text = e.text := by
  have hlen : strnlen (e.toPrototype crc).label.toList maxLabel = e.text.length :=
    (strnlen_labelOf e.text_lt).trans e.strnlen_text
  rw [VisualPrototype.text, hlen]
  exact (Buffer.take_padded (Nat.le_of_lt e.text_lt) (le_refl _)).trans (List.take_length)

theorem structureStatus_toPrototype :
    structureStatus (e.toPrototype crc) = if e.views = [] then .empty else .ok := by
  have hlen : strnlen (e.toPrototype crc).label.toList maxLabel = e.text.length :=
    (strnlen_labelOf e.text_lt).trans e.strnlen_text
  have hclass : classId (e.toPrototype crc).label.toList = classId e.text :=
    classId_labelOf e.text_lt
  have hpos := e.text_pos
  have hlt := e.text_lt
  have hle := e.length_views_le
  have hmask : viewsMask 0 (e.toPrototype crc).seen = .ok (maskOf e.ids) := by
    rw [seen_toPrototype]
    exact viewsMask_eq e.ids_lt e.ids_nodup fun v _ => Nat.zero_testBit _
  have hcount : (e.toPrototype crc).viewCount = 0 ↔ e.views = [] := by
    rw [← UInt32.toNat_inj, toNat_viewCount, UInt32.toNat_zero, List.length_eq_zero_iff]
  have hmagic : ¬(e.toPrototype crc).magic ≠ prototypeMagic := not_not.mpr rfl
  have hversion : ¬(e.toPrototype crc).version ≠ apiVersion := not_not.mpr rfl
  have hid : ¬((e.toPrototype crc).classId = 0 ∨ (e.toPrototype crc).classId ≠ classId e.text) :=
    not_or.mpr ⟨e.classId_ne, not_not.mpr rfl⟩
  rw [structureStatus, if_neg hmagic, if_neg hversion, hlen, hclass, if_neg (by omega), if_neg hid,
    toNat_viewCount, hmask]
  by_cases hnil : e.views = []
  · rw [if_pos (hcount.mpr hnil), if_pos hnil]
  · rw [if_neg (hcount.not.mpr hnil), if_neg hnil, if_neg (by omega)]
    exact if_neg (not_not.mpr rfl)

theorem slot_lt_iff {id : Byte} :
    Keyed.slot VisualView.viewId id e.views < e.views.length ↔ id ∈ e.ids := Keyed.slot_lt_iff

theorem slot_eq {id : Byte} (h : id ∉ e.ids) :
    Keyed.slot VisualView.viewId id e.views = e.views.length :=
  le_antisymm Keyed.slot_le (not_lt.mp (e.slot_lt_iff.not.mpr h))

/-- A new view always finds a free slot: an exemplar with sixteen views has all
the ids. -/
theorem length_views_lt {v : VisualView} (hv : v.viewId.toNat < maxViews) (h : v.viewId ∉ e.ids) :
    e.views.length < maxViews := by
  have hle : (Keyed.upsert VisualView.viewId v e.views).length ≤ maxViews :=
    (e.put v hv).length_views_le
  rw [Keyed.length_upsert, if_pos (e.slot_eq h)] at hle
  exact hle

/-- A view in the place of another. -/
theorem toPrototype_put_of_mem {v : VisualView} (hv : v.viewId.toNat < maxViews)
    (h : v.viewId ∈ e.ids) : (e.put v hv).toPrototype 0 = { e.toPrototype crc with
      viewMask := maskOf e.ids ||| viewBit v.viewId
      prototypeCrc32c := 0
      views :=
        (viewsOf e.views).setIfInBounds (Keyed.slot VisualView.viewId v.viewId e.views) v } := by
  have hslot := e.slot_lt_iff.mpr h
  have hids : (e.put v hv).ids = e.ids := Keyed.map_key_upsert.trans (if_pos h)
  have hlength : (e.put v hv).views.length = e.views.length :=
    Keyed.length_upsert.trans (if_neg (ne_of_lt hslot))
  have hviews : viewsOf (e.put v hv).views =
      (viewsOf e.views).setIfInBounds (Keyed.slot VisualView.viewId v.viewId e.views) v := by
    have hle : e.views.length ≤ 16 := e.length_views_le
    rw [viewsOf, viewsOf, Buffer.set_padded hle hslot, ← Keyed.upsert_of_lt hslot]
    rfl
  rw [toPrototype, hids, hlength, hviews, maskOf_or_viewBit (fun _ => e.ids_lt') h]
  rfl

/-- A view behind the others. -/
theorem toPrototype_put_of_notMem {v : VisualView} (hv : v.viewId.toNat < maxViews)
    (h : v.viewId ∉ e.ids) : (e.put v hv).toPrototype 0 = { e.toPrototype crc with
      viewCount := (e.toPrototype crc).viewCount + 1
      viewMask := maskOf e.ids ||| viewBit v.viewId
      prototypeCrc32c := 0
      views :=
        (viewsOf e.views).setIfInBounds (Keyed.slot VisualView.viewId v.viewId e.views) v } := by
  have hslot := e.slot_eq h
  have hids : (e.put v hv).ids = e.ids ++ [v.viewId] := Keyed.map_key_upsert.trans (if_neg h)
  have hlength : (e.put v hv).views.length = e.views.length + 1 :=
    Keyed.length_upsert.trans (if_pos hslot)
  have hcount : UInt32.ofNat (e.views.length + 1) = (e.toPrototype crc).viewCount + 1 :=
    UInt32.ofNat_add e.views.length 1
  have hviews : viewsOf (e.put v hv).views =
      (viewsOf e.views).setIfInBounds (Keyed.slot VisualView.viewId v.viewId e.views) v := by
    have hlt : e.views.length < 16 := e.length_views_lt hv h
    rw [viewsOf, viewsOf, hslot, Buffer.set_padded_length hlt, ← Keyed.upsert_of_eq hslot]
    rfl
  rw [toPrototype, hids, hlength, hviews, maskOf_append, hcount]
  rfl

theorem addView_toPrototype (call : AddView) :
    ∃ crc',
      addView (e.toPrototype crc) call = ((e.add call).1, (e.add call).2.toPrototype crc') := by
  rw [addView, add, seen_toPrototype, toNat_viewCount]
  by_cases hid : maxViews ≤ call.viewId.toNat
  · rw [if_pos (.inr (.inr hid)), dif_pos hid]
    exact ⟨crc, rfl⟩
  · have hvalid : ¬((e.toPrototype crc).magic ≠ prototypeMagic ∨
        (e.toPrototype crc).version ≠ apiVersion ∨ maxViews ≤ call.viewId.toNat) := by
      rintro (h | h | h)
      · exact h rfl
      · exact h rfl
      · exact hid h
    rw [if_neg hvalid, dif_neg hid]
    have hv : call.view.viewId.toNat < maxViews := Nat.lt_of_not_le hid
    simp only [slot_lt_iff]
    by_cases hdup : call.viewId ∈ e.ids ∧ call.addFlags &&& addReplace = 0
    · rw [if_pos hdup, if_pos hdup]
      exact ⟨crc, rfl⟩
    · rw [if_neg hdup, if_neg hdup]
      refine ⟨0, ?_⟩
      by_cases hmem : call.viewId ∈ e.ids
      · have hslot := e.slot_lt_iff.mpr hmem
        rw [if_neg (by omega), if_neg (by omega), e.toPrototype_put_of_mem crc hv hmem]
        rfl
      · have hroom : e.views.length < maxViews := e.length_views_lt hv hmem
        rw [if_neg (by omega), if_pos (e.slot_eq hmem), e.toPrototype_put_of_notMem crc hv hmem]
        rfl

/-- A call succeeds if its id is a valid one that is not there, or is to be replaced. -/
theorem add_ok_iff (call : AddView) :
    (e.add call).1 = .ok ↔
      call.viewId.toNat < 16 ∧ (call.viewId ∈ e.ids → call.addFlags &&& addReplace ≠ 0) := by
  rw [add]
  split
  · next hid => exact iff_of_false (by simp) fun h => absurd h.1 (Nat.not_lt.mpr hid)
  · next hid =>
      split
      · next hdup => exact iff_of_false (by simp) fun h => h.2 hdup.1 hdup.2
      · next hdup =>
          exact iff_of_true rfl ⟨Nat.lt_of_not_le hid, fun hmem hflag => hdup ⟨hmem, hflag⟩⟩

theorem mem_views_add {call : AddView} {v : VisualView} (h : v ∈ (e.add call).2.views) :
    v = call.view ∨ v ∈ e.views := by
  unfold add at h
  split at h
  · exact .inr h
  · split at h
    · exact .inr h
    · exact Keyed.mem_of_mem_upsert h

def addAll (e : Exemplar) (calls : List AddView) : Exemplar :=
  calls.foldl (fun e call => (e.add call).2) e

/-- The checksum of an exemplar. -/
def checksum (e : Exemplar) : Word := prototypeCrc (e.toPrototype 0)

theorem prototypeCrc_toPrototype : prototypeCrc (e.toPrototype crc) = e.checksum := rfl

theorem sealPrototype_toPrototype : sealPrototype (e.toPrototype crc) =
    if e.views = [] then (.empty, e.toPrototype crc) else (.ok, e.toPrototype e.checksum) := by
  rw [sealPrototype, structureStatus_toPrototype]
  by_cases hnil : e.views = []
  · rw [if_pos hnil, if_pos hnil]
  · rw [if_neg hnil, if_neg hnil]
    rfl

theorem verify_toPrototype :
    verify (e.toPrototype crc) = .ok ↔ e.views ≠ [] ∧ crc ≠ 0 ∧ e.checksum = crc := by
  rw [verify, structureStatus_toPrototype]
  by_cases hnil : e.views = []
  · simp [hnil]
  · rw [if_neg hnil, prototypeCrc_toPrototype]
    change (if crc = 0 then Status.unsealed else if e.checksum = crc then .ok else .crcMismatch) =
      .ok ↔ _
    by_cases hzero : crc = 0
    · simp [hzero]
    · by_cases hsum : e.checksum = crc <;> simp [hnil, hzero, hsum]

end Exemplar

/-! ### Runs -/

/-- Calls of `RmR_VisualPrototype_AddView`, whatever each of them returns. -/
def addViews (p : VisualPrototype) (calls : List AddView) : VisualPrototype :=
  calls.foldl (fun p call => (addView p call).2) p

theorem init_eq_ok {q p : VisualPrototype} {label : List Byte} {flags : Word}
    (h : init q label flags = (.ok, p)) : ∃ e : Exemplar, p = e.toPrototype 0 ∧ e.views = [] := by
  rw [init] at h
  by_cases hlen : strnlen label maxLabel = 0 ∨ maxLabel ≤ strnlen label maxLabel
  · rw [if_pos hlen] at h
    cases congrArg Prod.fst h
  · rw [if_neg hlen, Prod.mk.injEq] at h
    have hclass : classId label ≠ 0 := by
      intro hzero
      rw [if_neg (not_not.mpr hzero)] at h
      cases h.1
    have htext := length_take_strnlen label maxLabel
    let e : Exemplar := {
      text := label.take (strnlen label maxLabel)
      flags := flags
      views := []
      text_ne := fun b hb => ne_zero_of_mem_take_strnlen hb
      text_pos := by omega
      text_lt := by omega
      classId_ne := by rwa [classId_take_strnlen (by omega)]
      ids_lt := fun v hv => absurd hv List.not_mem_nil
      ids_nodup := List.nodup_nil }
    have hviews : viewsOf e.views = VisualPrototype.zero.views := Buffer.padded_nil
    refine ⟨e, ?_, rfl⟩
    rw [← h.2, Exemplar.toPrototype, classId_take_strnlen (by omega), hviews]
    rfl

theorem addViews_toPrototype (e : Exemplar) (crc : Word) (calls : List AddView) :
    ∃ crc', addViews (e.toPrototype crc) calls = (e.addAll calls).toPrototype crc' := by
  induction calls generalizing e crc with
  | nil => exact ⟨crc, rfl⟩
  | cons call calls ih =>
      obtain ⟨crc', hstep⟩ := e.addView_toPrototype crc call
      obtain ⟨crc'', hrun⟩ := ih (e.add call).2 crc'
      refine ⟨crc'', ?_⟩
      rw [addViews, List.foldl_cons, hstep]
      exact hrun

theorem stabilityCrc32c_eq_zero_iff (data : List Byte) :
    stabilityCrc32c data = 0 ↔ Crc.update 0x82f63b78 0xffffffff data = 0xffffffff := by
  rw [stabilityCrc32c, crc32cUpdate, UInt32.xor_eq_zero_iff]

/-- A sealed prototype is accepted unless its checksum is zero, the value that
stands for no checksum. -/
theorem verify_sealPrototype_iff {q p : VisualPrototype} {label : List Byte} {flags : Word}
    (hinit : init q label flags = (.ok, p)) (calls : List AddView) :
    ((sealPrototype (addViews p calls)).1 = .ok →
        verify (sealPrototype (addViews p calls)).2 = .ok) ↔
      (addViews p calls).viewCount = 0 ∨
        Crc.update 0x82f63b78 0xffffffff (prototypeBytes (addViews p calls)) ≠ 0xffffffff := by
  obtain ⟨e, rfl, -⟩ := init_eq_ok hinit
  obtain ⟨crc, hrun⟩ := addViews_toPrototype e 0 calls
  have hcount : ((e.addAll calls).toPrototype crc).viewCount = 0 ↔ (e.addAll calls).views = [] := by
    rw [← UInt32.toNat_inj, Exemplar.toNat_viewCount, UInt32.toNat_zero, List.length_eq_zero_iff]
  rw [hrun, hcount, ne_eq, ← stabilityCrc32c_eq_zero_iff, ← prototypeCrc_eq,
    Exemplar.prototypeCrc_toPrototype, Exemplar.sealPrototype_toPrototype]
  by_cases hnil : (e.addAll calls).views = []
  · simp [hnil]
  · rw [if_neg hnil, Exemplar.verify_toPrototype]
    simp [hnil]

/-- A view whose source makes the checksum zero. -/
def unsealable : AddView where
  viewId := 0
  sampleFlags := 0
  sampleId := 0
  sourceCrc32c := 0xf1338443
  descriptor := VisionDescriptor.zero
  addFlags := 0

theorem verify_sealPrototype_unsealable :
    let p := addViews (init VisualPrototype.zero [0x61] 0).2 [unsealable]
    (init VisualPrototype.zero [0x61] 0).1 = .ok ∧ (sealPrototype p).1 = .ok ∧
      verify (sealPrototype p).2 = .unsealed := by
  decide +kernel

theorem verify_sealPrototype_iff_letter :
    let p := addViews (init VisualPrototype.zero [0x61] 0).2 [unsealable]
    ((sealPrototype p).1 = .ok → verify (sealPrototype p).2 = .ok) ↔
      p.viewCount = 0 ∨ Crc.update 0x82f63b78 0xffffffff (prototypeBytes p) ≠ 0xffffffff :=
  verify_sealPrototype_iff
    (show init VisualPrototype.zero [0x61] 0 = (.ok, (init VisualPrototype.zero [0x61] 0).2) by
      decide +kernel)
    [unsealable]

/-! ### What a run leaves -/

/-- The calls that return `ok`, in their order. -/
def acceptedViews : VisualPrototype → List AddView → List AddView
  | _, [] => []
  | p, call :: calls =>
      if (addView p call).1 = .ok then call :: acceptedViews (addView p call).2 calls
      else acceptedViews (addView p call).2 calls

theorem Exemplar.add_cases (e : Exemplar) (call : AddView) :
    ((e.add call).1 ≠ .ok ∧ (e.add call).2 = e) ∨
      ((e.add call).1 = .ok ∧
        (e.add call).2.views = Keyed.upsert VisualView.viewId call.view e.views) := by
  rw [Exemplar.add]
  split
  · exact .inl ⟨by simp, rfl⟩
  · split
    · exact .inl ⟨by simp, rfl⟩
    · exact .inr ⟨rfl, rfl⟩

/-- The view of an id is the one of the last call that stored it, or the one that was there
before. -/
theorem lookup_addViews (e : Exemplar) (crc : Word) (calls : List AddView) (id : Byte) :
    Keyed.lookup VisualView.viewId id (addViews (e.toPrototype crc) calls).seen =
      (((acceptedViews (e.toPrototype crc) calls).reverse.find? fun call => call.viewId = id).map
        AddView.view).or (Keyed.lookup VisualView.viewId id e.views) := by
  induction calls generalizing e crc with
  | nil =>
      rw [addViews, List.foldl_nil, e.seen_toPrototype]
      rfl
  | cons call calls ih =>
      obtain ⟨crc', hstep⟩ := e.addView_toPrototype crc call
      rw [addViews, List.foldl_cons, hstep, acceptedViews, hstep, ← addViews, ih]
      rcases e.add_cases call with ⟨hne, hsame⟩ | ⟨hok, hviews⟩
      · rw [if_neg hne, hsame]
      · rw [if_pos hok, hviews, Keyed.lookup_upsert, List.reverse_cons, List.find?_append]
        have hid : call.view.viewId = call.viewId := rfl
        rw [hid]
        by_cases hcall : call.viewId = id
        · cases (acceptedViews ((e.add call).2.toPrototype crc') calls).reverse.find?
              fun call => call.viewId = id <;> simp [hcall]
        · simp [hcall]

/-- A call that fails changes nothing. -/
theorem addView_of_ne_ok {p p' : VisualPrototype} {call : AddView} {status : Status}
    (h : addView p call = (status, p')) (hne : status ≠ .ok) : p' = p := by
  rw [addView] at h
  dsimp only at h
  split_ifs at h
  · exact (Prod.mk.inj h).2.symm
  · exact (Prod.mk.inj h).2.symm
  · exact (Prod.mk.inj h).2.symm
  · exact absurd (Prod.mk.inj h).1.symm hne
  · exact absurd (Prod.mk.inj h).1.symm hne

/-- What any calls leave of a prototype that was initialized: views of different ids, the
mask of these, for each id the view of the last call that stored one, and a structure that
can be sealed as soon as a call has succeeded. A further call succeeds if its id is a valid
one that is not there, or is to be replaced; a call that fails changes nothing. -/
theorem addViews_spec {q p : VisualPrototype} {label : List Byte} {flags : Word}
    (hinit : init q label flags = (.ok, p)) (calls : List AddView) :
    let s := addViews p calls
    (s.seen.map VisualView.viewId).Nodup ∧ (∀ v ∈ s.seen, v.viewId.toNat < 16) ∧
      s.seen.length = s.viewCount.toNat ∧ s.viewCount.toNat ≤ 16 ∧
      (∀ k, s.viewMask.toNat.testBit k = true ↔ ∃ v ∈ s.seen, v.viewId.toNat = k) ∧
      (∀ id, (s.seen.find? fun v => v.viewId = id) =
        ((acceptedViews p calls).reverse.find? fun call => call.viewId = id).map AddView.view) ∧
      (∀ call, (addView s call).1 = .ok ↔ call.viewId.toNat < 16 ∧
        ((∃ v ∈ s.seen, v.viewId = call.viewId) → call.addFlags &&& addReplace ≠ 0)) ∧
      (∀ call status s', addView s call = (status, s') → status ≠ .ok → s' = s) ∧
      (acceptedViews p calls ≠ [] → structureStatus s = .ok ∧ (sealPrototype s).1 = .ok) := by
  obtain ⟨e, rfl, hnil⟩ := init_eq_ok hinit
  obtain ⟨crc, hrun⟩ := addViews_toPrototype e 0 calls
  have hlookup := lookup_addViews e 0 calls
  rw [hnil] at hlookup
  simp only [hrun] at hlookup ⊢
  have hmask (k : ℕ) := @testBit_foldl_viewBit (e.addAll calls).ids
    (fun _ => (e.addAll calls).ids_lt') 0 k
  refine ⟨?_, ?_, ?_, ?_, fun k => ?_, fun id => ?_, fun call => ?_, fun call status s' h hne => ?_,
    fun hne => ?_⟩
  · rw [Exemplar.seen_toPrototype]
    exact (e.addAll calls).ids_nodup
  · rw [Exemplar.seen_toPrototype]
    exact (e.addAll calls).ids_lt
  · rw [Exemplar.seen_toPrototype, Exemplar.toNat_viewCount]
  · rw [Exemplar.toNat_viewCount]
    exact (e.addAll calls).length_views_le
  · rw [Exemplar.seen_toPrototype]
    refine (hmask k).trans ?_
    simp [Exemplar.ids]
  · exact (hlookup id).trans (Option.or_none ..)
  · obtain ⟨crc', hstep⟩ := (e.addAll calls).addView_toPrototype crc call
    rw [hstep, Exemplar.add_ok_iff, Exemplar.seen_toPrototype, Exemplar.ids, List.mem_map]
  · exact addView_of_ne_ok h hne
  · obtain ⟨earlier, call, hlast⟩ := List.eq_nil_or_concat _ |>.resolve_left hne
    -- what was accepted last is still there, so there is a view to be sealed
    have hfound : Keyed.lookup VisualView.viewId call.viewId
        ((e.addAll calls).toPrototype crc).seen ≠ none := by
      rw [hlookup, hlast]
      simp
    have hviews : (e.addAll calls).views ≠ [] := by
      intro hempty
      rw [Exemplar.seen_toPrototype, hempty] at hfound
      exact hfound rfl
    rw [Exemplar.structureStatus_toPrototype, Exemplar.sealPrototype_toPrototype, if_neg hviews,
      if_neg hviews]
    exact ⟨rfl, rfl⟩

/-- A further view, and the first one replaced. -/
def further : AddView := { unsealable with viewId := 3, sampleId := 7 }

def replacing : AddView := { unsealable with sampleId := 9, addFlags := addReplace }

/-- The letter `a`: a view is stored, stored again in vain, replaced, and joined by another;
one call has an id that is too large. -/
theorem addViews_spec_letter :
    let p := (init VisualPrototype.zero [0x61] 0).2
    let calls := [unsealable, unsealable, replacing, { unsealable with viewId := 16 }, further]
    let s := addViews p calls
    acceptedViews p calls = [unsealable, replacing, further] ∧
      (s.seen.map VisualView.viewId).Nodup ∧
      (∀ k, s.viewMask.toNat.testBit k = true ↔ ∃ v ∈ s.seen, v.viewId.toNat = k) ∧
      (s.seen.find? fun v => v.viewId = 0) = some replacing.view ∧
      (s.seen.find? fun v => v.viewId = 3) = some further.view ∧
      (sealPrototype s).1 = .ok := by
  intro p calls s
  have haccepted : acceptedViews p calls = [unsealable, replacing, further] := by decide +kernel
  obtain ⟨hnodup, -, -, -, hmask, hfind, -, -, hseal⟩ := addViews_spec
    (show init VisualPrototype.zero [0x61] 0 = (.ok, (init VisualPrototype.zero [0x61] 0).2) by
      decide +kernel) calls
  rw [haccepted] at hfind hseal
  exact ⟨haccepted, hnodup, hmask, (hfind 0).trans (by decide +kernel),
    (hfind 3).trans (by decide +kernel), (hseal (List.cons_ne_nil _ _)).2⟩

end Blake3.Visual
