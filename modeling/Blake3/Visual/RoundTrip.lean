import Blake3.Visual.Capsule

/-!
Capsules there and back. What the writer writes is read again, byte for byte; the
reader takes more than the writer writes, and the difference is stated exactly.
-/

namespace Blake3.Visual

/-! ### What the writer writes -/

theorem length_text (p : VisualPrototype) : p.text.length = strnlen p.label.toList maxLabel :=
  length_take_strnlen _ _

theorem serializedSize_of_verify {p : VisualPrototype} (h : verify p = .ok) :
    serializedSize p = 36 + p.text.length + p.viewCount.toNat * 92 + 4 := by
  obtain ⟨-, -, -, -, -, -, -, hle⟩ := fields_of_structureStatus (structureStatus_of_verify h)
  rw [serializedSize, if_neg (by omega), length_text]
  rfl

theorem serializedBody_of_verify {p : VisualPrototype} (h : verify p = .ok) :
    serializedBody p =
      serializeHeader (headerOf p p.text.length) ++ p.text ++ p.seen.flatMap serializeView := by
  have hsize : serializedSize p = capsuleHeaderSize + p.text.length +
      p.viewCount.toNat * capsuleViewSize + capsuleTrailerSize := serializedSize_of_verify h
  rw [serializedBody, hsize]
  rfl

theorem length_serializedBody {p : VisualPrototype} (h : verify p = .ok) :
    (serializedBody p).length + 4 = serializedSize p := by
  rw [serializedBody_of_verify h, List.length_append, List.length_append, length_serializeHeader,
    length_serializedViews, length_seen h, serializedSize_of_verify h]

theorem serialize_of_verify {p : VisualPrototype} (h : verify p = .ok) {out : List Byte}
    (hcap : serializedSize p ≤ out.length) : serialize p out =
      (.ok, checked (serializedBody p) ++ out.drop (serializedSize p), serializedSize p) := by
  have hlength := length_serializedBody h
  have hsmall : serializedSize p < 2 ^ 32 := by
    obtain ⟨-, -, -, hlt, -, -, -, hle⟩ := fields_of_structureStatus (structureStatus_of_verify h)
    rw [serializedSize_of_verify h, length_text]
    unfold maxLabel at *
    unfold maxViews at hle
    omega
  have hchecked : (checked (serializedBody p)).length = serializedSize p := by
    rw [length_checked, hlength]
  have htake : (Buffer.overwrite out 0 (serializedBody p)).take
      (serializedSize p - capsuleTrailerSize) = serializedBody p := by
    rw [← hlength]
    exact Buffer.take_overwrite_zero out _
  have hwrite : Buffer.overwrite (Buffer.overwrite out 0 (serializedBody p))
      (serializedBody p).length (putU32 (stabilityCrc32c (serializedBody p))) =
        checked (serializedBody p) ++ out.drop (serializedSize p) := by
    have hnext : Buffer.overwrite (Buffer.overwrite out 0 (serializedBody p))
        (0 + (serializedBody p).length) (putU32 (stabilityCrc32c (serializedBody p))) =
          Buffer.overwrite out 0 (checked (serializedBody p)) :=
      Buffer.overwrite_overwrite (by omega)
    rw [Nat.zero_add] at hnext
    rw [hnext, Buffer.overwrite, List.take_zero, List.nil_append, Nat.zero_add, hchecked]
  rw [serialize, h]
  dsimp only
  rw [if_neg (by omega), htake, hwrite, if_neg (by omega)]

/-! ### Round trips -/

/-- The bytes behind the threshold are zero. -/
def VisionDescriptor.Plain (d : VisionDescriptor) : Prop := d.reserved = Vector.replicate 3 0

instance (d : VisionDescriptor) : Decidable d.Plain :=
  inferInstanceAs (Decidable (d.reserved = Vector.replicate 3 0))

theorem viewLayout_eq_iff (v : VisualView) :
    viewLayout v = serializeView v ↔ v.descriptor.Plain := by
  rw [viewLayout, serializeView_eq, List.append_cancel_left_eq, VisionDescriptor.Plain,
    ← Vector.toList_inj]
  rfl

/-- Views are written as they are read exactly when all are plain. -/
theorem viewsLayout_eq_iff (views : List VisualView) :
    views.flatMap viewLayout = views.flatMap serializeView ↔ ∀ v ∈ views, v.descriptor.Plain := by
  induction views with
  | nil => simp
  | cons v views ih =>
      have hlength : (viewLayout v).length = (serializeView v).length := by
        simp [viewLayout, serializeView_eq]
      rw [List.flatMap_cons, List.flatMap_cons, List.forall_mem_cons, ← ih, ← viewLayout_eq_iff]
      constructor
      · exact fun h => List.append_inj h hlength
      · rintro ⟨hv, hviews⟩
        rw [hv, hviews]

/-- What is written is the layout of the prototype's own text, if all views are
plain. -/
theorem capsuleLayout_eq_iff {p : VisualPrototype} (h : verify p = .ok) :
    capsuleLayout p p.text = serializedBody p ↔ ∀ v ∈ p.seen, v.descriptor.Plain := by
  rw [capsuleLayout, serializedBody_of_verify h, List.append_cancel_left_eq, viewsLayout_eq_iff]

theorem text_of_layout {p : VisualPrototype} {label : List Byte} (h : Layout p label) :
    p.text = label.take (strnlen label maxLabel) := by
  rw [VisualPrototype.text, h.label, strnlen_labelOf h.lt]
  exact Buffer.take_padded (Nat.le_of_lt h.lt) (strnlen_le label maxLabel)

theorem Exemplar.mem_views_addAll {e : Exemplar} {calls : List AddView} {v : VisualView}
    (h : v ∈ (e.addAll calls).views) : v ∈ e.views ∨ ∃ call ∈ calls, v = call.view := by
  induction calls generalizing e with
  | nil => exact .inl h
  | cons call calls ih =>
      rcases ih h with h | ⟨call', hmem, rfl⟩
      · rcases e.mem_views_add h with rfl | h
        · exact .inr ⟨call, List.mem_cons_self, rfl⟩
        · exact .inl h
      · exact .inr ⟨call', List.mem_cons_of_mem _ hmem, rfl⟩

theorem Exemplar.layout {e : Exemplar} {crc : Word} (h : verify (e.toPrototype crc) = .ok) :
    Layout (e.toPrototype crc) e.text where
  verified := h
  pos := e.text_pos
  lt := e.text_lt
  label := rfl
  views := by
    rw [seen_toPrototype]
    rfl

/-- What is built from a label and views, sealed and accepted is written whole
into any buffer that has room, and read again whatever comes behind it. -/
theorem deserialize_serialize {q p : VisualPrototype} {label : List Byte} {flags : Word}
    (hinit : init q label flags = (.ok, p)) {calls : List AddView}
    (hplain : ∀ call ∈ calls, call.descriptor.Plain)
    (hverify : verify (sealPrototype (addViews p calls)).2 = .ok) :
    let s := (sealPrototype (addViews p calls)).2
    ∃ capsule : List Byte, capsule.length = serializedSize s ∧
      (∀ out, serializedSize s ≤ out.length →
        serialize s out = (.ok, capsule ++ out.drop (serializedSize s), serializedSize s)) ∧
      ∀ rest out, deserialize (capsule ++ rest) out = .ok (.ok, s, serializedSize s) := by
  obtain ⟨e, rfl, hnone⟩ := init_eq_ok hinit
  obtain ⟨crc, hrun⟩ := addViews_toPrototype e 0 calls
  obtain ⟨crc', hseal⟩ : ∃ crc', (sealPrototype (addViews (e.toPrototype 0) calls)).2 =
      (e.addAll calls).toPrototype crc' := by
    rw [hrun, Exemplar.sealPrototype_toPrototype]
    split
    · exact ⟨_, rfl⟩
    · exact ⟨_, rfl⟩
  rw [hseal] at hverify ⊢
  have hviews : ∀ v ∈ ((e.addAll calls).toPrototype crc').seen, v.descriptor.Plain := by
    intro v hv
    rw [Exemplar.seen_toPrototype] at hv
    rcases Exemplar.mem_views_addAll hv with hv | ⟨call, hcall, rfl⟩
    · rw [hnone] at hv
      exact absurd hv List.not_mem_nil
    · exact hplain call hcall
  have hlayout := Exemplar.layout hverify
  have htext := (e.addAll calls).text_toPrototype crc'
  have hsame := (capsuleLayout_eq_iff hverify).mpr hviews
  rw [htext] at hsame
  have hsize : (checked (serializedBody ((e.addAll calls).toPrototype crc'))).length =
      serializedSize ((e.addAll calls).toPrototype crc') := by
    rw [length_checked, length_serializedBody hverify]
  refine ⟨_, hsize, fun out hcap => serialize_of_verify hverify hcap, fun rest out => ?_⟩
  rw [← hsize, ← hsame]
  exact deserialize_of_layout hlayout rest out

/-- A view of the letter `a`. -/
theorem deserialize_serialize_letter :
    let s := (sealPrototype (addViews (init VisualPrototype.zero [0x61] 0).2
      [{ unsealable with sourceCrc32c := 0 }])).2
    ∃ capsule : List Byte, capsule.length = serializedSize s ∧
      (∀ out, serializedSize s ≤ out.length →
        serialize s out = (.ok, capsule ++ out.drop (serializedSize s), serializedSize s)) ∧
      ∀ rest out, deserialize (capsule ++ rest) out = .ok (.ok, s, serializedSize s) :=
  deserialize_serialize
    (show init VisualPrototype.zero [0x61] 0 = (.ok, (init VisualPrototype.zero [0x61] 0).2) by
      decide +kernel)
    (by decide) (by decide +kernel)

/-! ### Canonical capsules -/

/-- The word at position `i`. -/
def wordAt (data : List Byte) (i : ℕ) : ℕ := LittleEndian.ofBytes ((data.drop i).take 4)

/-- No byte of the label is zero, and the last three bytes of each view are. The
header has the number of views at byte 20 and the length of the label at 28. -/
def Canonical (data : List Byte) : Prop :=
  (∀ b ∈ (data.drop 36).take (wordAt data 28), b ≠ 0) ∧
    ∀ i < wordAt data 20, (data.drop (36 + wordAt data 28 + 92 * i + 89)).take 3 = [0, 0, 0]

theorem ofBytes_putU32 (v : Word) : LittleEndian.ofBytes (putU32 v) = v.toNat := by
  rw [putU32, LittleEndian.toBytes_word, LittleEndian.ofBytes_toBytes_of_lt v.toNat_lt]

theorem plain_iff_toList (d : VisionDescriptor) : d.Plain ↔ d.reserved.toList = [0, 0, 0] :=
  Vector.toList_inj.symm

/-- The last three bytes of a view among others. -/
theorem reserved_of_drop {views : List VisualView} {i : ℕ} (hi : i < views.length)
    (tail : List Byte) : ((views.flatMap viewLayout ++ tail).drop (92 * i + 89)).take 3 =
      views[i].descriptor.reserved.toList := by
  have hlayout : ∀ v, (viewLayout v).length = 92 := fun v => by simp [viewLayout, length_viewBytes]
  have hle : 92 * i ≤ (views.flatMap viewLayout).length := by
    rw [length_viewsLayout]
    omega
  rw [← List.drop_drop, List.drop_append_of_le_length hle, Codec.drop_flatMap hlayout,
    List.drop_eq_getElem_cons hi, List.flatMap_cons, viewLayout, List.append_assoc,
    List.append_assoc, List.drop_left' (length_viewBytes _)]
  exact List.take_left' Vector.length_toList

theorem canonical_iff {p : VisualPrototype} {label : List Byte} (h : Layout p label)
    (rest : List Byte) : Canonical (checked (capsuleLayout p label) ++ rest) ↔
      (∀ b ∈ label, b ≠ 0) ∧ ∀ v ∈ p.seen, v.descriptor.Plain := by
  have hlt := h.lt
  unfold maxLabel at hlt
  obtain ⟨tail, htail⟩ : ∃ tail, checked (capsuleLayout p label) ++ rest =
      serializeHeader (headerOf p label.length) ++
        (label ++ (p.seen.flatMap viewLayout ++ tail)) := by
    have hpieces : capsuleLayout p label = serializeHeader (headerOf p label.length) ++
        (label ++ p.seen.flatMap viewLayout) := by rw [capsuleLayout, List.append_assoc]
    refine ⟨putU32 (stabilityCrc32c (capsuleLayout p label)) ++ rest, ?_⟩
    rw [checked, hpieces]
    simp only [List.append_assoc]
  have hcount : wordAt (checked (capsuleLayout p label) ++ rest) 20 = p.seen.length := by
    rw [wordAt, htail, length_seen h.verified, ← ofBytes_putU32]
    rfl
  have hlen : wordAt (checked (capsuleLayout p label) ++ rest) 28 = label.length := by
    have hword : wordAt (checked (capsuleLayout p label) ++ rest) 28 =
        (UInt32.ofNat label.length).toNat := by
      rw [wordAt, htail, ← ofBytes_putU32]
      rfl
    rw [hword]
    exact UInt32.toNat_ofNat_of_lt' (show label.length < 2 ^ 32 by omega)
  have hlabel : ((checked (capsuleLayout p label) ++ rest).drop 36).take label.length = label := by
    rw [htail, List.drop_left' (length_serializeHeader _), List.take_left]
  rw [Canonical, hcount, hlen, hlabel]
  refine and_congr_right fun _ => ?_
  have hview : ∀ i (hi : i < p.seen.length),
      ((checked (capsuleLayout p label) ++ rest).drop (36 + label.length + 92 * i + 89)).take 3 =
        p.seen[i].descriptor.reserved.toList := by
    intro i hi
    rw [htail, Nat.add_assoc, Nat.add_assoc, ← List.drop_drop,
      List.drop_left' (length_serializeHeader _), ← List.drop_drop, List.drop_left]
    exact reserved_of_drop hi tail
  constructor
  · intro hzero v hv
    obtain ⟨i, hi, rfl⟩ := List.getElem_of_mem hv
    rw [plain_iff_toList, ← hview i hi]
    exact hzero i hi
  · intro hplain i hi
    rw [hview i hi]
    exact (plain_iff_toList _).mp (hplain _ (List.getElem_mem hi))

/-- Exactly the canonical ones of the capsules that are accepted are written
again as they were. -/
theorem serialize_deserialize_iff {data : List Byte} {out p : VisualPrototype} {t : ℕ}
    (h : deserialize data out = .ok (.ok, p, t)) :
    (∀ buffer : List Byte, t ≤ buffer.length →
        serialize p buffer = (.ok, data.take t ++ buffer.drop t, t)) ↔ Canonical data := by
  obtain ⟨label, rest, hlayout, rfl, rfl⟩ := layout_of_deserialize h
  have hverify := hlayout.verified
  have hlength := length_capsuleLayout hverify label
  have htext : p.text.length = strnlen label maxLabel := by
    rw [length_text, hlayout.label, strnlen_labelOf hlayout.lt]
  have hfull : p.text.length = label.length ↔ ∀ b ∈ label, b ≠ 0 := by
    rw [htext]
    exact strnlen_eq_length_iff (Nat.le_of_lt hlayout.lt)
  have hsame : p.text.length = label.length → p.text = label := by
    intro hlength
    rw [text_of_layout hlayout, ← htext, hlength, List.take_length]
  have hle : p.text.length ≤ label.length := by
    rw [htext]
    exact strnlen_le label maxLabel
  have hsize := serializedSize_of_verify hverify
  have hwritten : (checked (serializedBody p)).length = serializedSize p := by
    rw [length_checked, length_serializedBody hverify]
  rw [canonical_iff hlayout rest, ← hfull, List.take_left]
  constructor
  · intro hwrites
    have hwrite := hwrites (List.replicate (checked (capsuleLayout p label)).length 0) (by simp)
    have hroom : serializedSize p ≤ (List.replicate (checked (capsuleLayout p label)).length
        (0 : Byte)).length := by
      rw [List.length_replicate, length_checked]
      omega
    rw [serialize_of_verify hverify hroom, Prod.mk.injEq, Prod.mk.injEq] at hwrite
    obtain ⟨-, hbytes, hsizes⟩ := hwrite
    rw [length_checked] at hsizes
    -- the lengths agree, so the label was not cut at a zero
    have hlabel : p.text.length = label.length := by omega
    refine ⟨hlabel, (capsuleLayout_eq_iff hverify).mp ?_⟩
    rw [hsame hlabel]
    have hlengths :
        (checked (serializedBody p)).length = (checked (capsuleLayout p label)).length := by
      rw [hwritten, hsizes, length_checked]
    have hchecked := (List.append_inj hbytes hlengths).1
    unfold checked at hchecked
    have hcrc : ∀ v w, (putU32 v).length = (putU32 w).length := fun _ _ => rfl
    exact (List.append_inj' hchecked (hcrc _ _)).1.symm
  · rintro ⟨hlabel, hplain⟩ buffer hbuffer
    have hbody := (capsuleLayout_eq_iff hverify).mpr hplain
    rw [hsame hlabel] at hbody
    rw [hbody, hwritten] at hbuffer ⊢
    exact serialize_of_verify hverify hbuffer

/-- A capsule of the letter `a` and one view, whose descriptor ends in a byte
that the reader keeps and the writer does not write. -/
def tolerated : List Byte :=
  [0x31, 0x43, 0x56, 0x52, 1, 0, 36, 0, 133, 0, 0, 0, 0x30, 0x43, 0xd0, 0xc1, 0, 0, 0, 0, 1, 0, 0,
    0, 1, 0, 0, 0, 1, 0, 0, 0, 0xb0, 0x49, 0xcd, 0x31, 0x61] ++ List.replicate 89 0 ++
    [1, 0, 0, 0xbc, 0x2e, 0x04, 0x85]

/-- The letter `a` and one view, sealed. -/
def toleratedPrototype : VisualPrototype :=
  (sealPrototype (addViews (init VisualPrototype.zero [0x61] 0).2
    [{ unsealable with
        sourceCrc32c := 0
        descriptor := { VisionDescriptor.zero with reserved := #v[1, 0, 0] } }])).2

theorem deserialize_tolerated :
    deserialize tolerated VisualPrototype.zero = .ok (.ok, toleratedPrototype, 133) := by
  decide +kernel

theorem serialize_tolerated :
    deserialize tolerated VisualPrototype.zero = .ok (.ok, toleratedPrototype, 133) ∧
      (serialize toleratedPrototype (List.replicate 133 0)).1 = .ok ∧
      (serialize toleratedPrototype (List.replicate 133 0)).2.1 ≠ tolerated := by
  refine ⟨deserialize_tolerated, ?_⟩
  decide +kernel

theorem serialize_deserialize_iff_tolerated :
    (∀ buffer : List Byte, 133 ≤ buffer.length → serialize toleratedPrototype buffer =
        (.ok, tolerated.take 133 ++ buffer.drop 133, 133)) ↔ Canonical tolerated :=
  serialize_deserialize_iff deserialize_tolerated

end Blake3.Visual
