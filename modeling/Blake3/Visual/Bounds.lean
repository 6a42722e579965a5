import Blake3.Fc16.Core
import Blake3.Lib.Checked
import Blake3.Memory
import Blake3.Visual.RoundTrip

/-!
The memory that `RmR_VisualPrototype_Deserialize` touches. Here the label and the views
are stored one by one into the arrays of the prototype, and the sizes are computed in
words: a store behind the end of an array is a fault, and so is a size that wraps.
-/

namespace Blake3.Visual

open Fc16 (Span)

/-! ### Stores -/

variable {α : Type} {m : ℕ}

/-- `array[i] = x` -/
def storeAt (array : Vector α m) (i : ℕ) (x : α) : Result (Vector α m) :=
  if i < m then .ok (array.setIfInBounds i x) else .error .outOfBounds

/-- A loop of `n` turns, each of which reads an element and stores it. -/
def readInto (get : Cursor α) (array : Vector α m) : ℕ → Cursor (Vector α m)
  | 0 => pure array
  | n + 1 => do
      let array ← readInto get array n
      let x ← get
      StateT.lift (storeAt array n x)

/-- The prototype is filled in from behind the header, and checked. -/
def restoreInto (w len : ℕ) (h : CapsuleHeader) (c : List Byte) :
    Result (Status × Option VisualPrototype × ℕ) := do
  let (label, c) ← readInto getU8 VisualPrototype.zero.label h.labelLen.toNat c
  let label ← storeAt label h.labelLen.toNat 0
  let (views, c) ← readInto deserializeView VisualPrototype.zero.views h.viewCount.toNat c
  let p : VisualPrototype := {
    magic := prototypeMagic
    version := apiVersion
    classId := h.classId
    flags := h.flags
    viewCount := h.viewCount
    viewMask := h.viewMask
    prototypeCrc32c := h.prototypeCrc
    label := label
    views := views }
  let position ← Checked.add .overflow w (len - c.length) capsuleTrailerSize
  if position ≠ h.total.toNat then pure (.truncated, some p, 0)
  else if verify p ≠ .ok ∨ p.classId ≠ classId p.label.toList then pure (.crcMismatch, some p, 0)
  else pure (.ok, some p, h.total.toNat)

/-- `RmR_VisualPrototype_Deserialize` where a `size_t` has `w` bits: the status, what
`out` points to and `*out_consumed`. -/
def deserializeInto (w : ℕ) (data : Span w) (out : Option VisualPrototype) :
    Result (Status × Option VisualPrototype × ℕ) :=
  match data.data, out with
  | some bytes, some out =>
      if data.len < capsuleHeaderSize + capsuleTrailerSize then pure (.truncated, some out, 0)
      else do
        let (h, c) ← deserializeHeader bytes
        if h.magic ≠ capsuleMagic then pure (.badMagic, some out, 0)
        else if h.version ≠ capsuleVersion ∨ h.headerSize.toNat ≠ capsuleHeaderSize then
          pure (.badVersion, some out, 0)
        else if data.len < h.total.toNat ∨
            h.total.toNat < capsuleHeaderSize + capsuleTrailerSize then
          pure (.truncated, some out, 0)
        else if h.viewCount.toNat = 0 ∨ maxViews < h.viewCount.toNat ∨ h.labelLen.toNat = 0 ∨
            maxLabel ≤ h.labelLen.toNat then
          pure (.badArgument, some out, 0)
        else do
          -- the first sum is one of 32-bit words, the others are of `size_t`
          let labelEnd ← Checked.add .overflow 32 capsuleHeaderSize h.labelLen.toNat
          let viewsSize ← Checked.mul .overflow w h.viewCount.toNat capsuleViewSize
          let viewsEnd ← Checked.add .overflow w labelEnd viewsSize
          let expected ← Checked.add .overflow w viewsEnd capsuleTrailerSize
          if expected ≠ h.total.toNat then pure (.truncated, some out, 0)
          else do
            let crcAt ← Checked.sub .overflow h.total.toNat 4
            let (storedCrc, _) ← getU32 (bytes.drop crcAt)
            let covered ← Memory.region bytes 0 crcAt
            if stabilityCrc32c covered ≠ storedCrc then pure (.crcMismatch, some out, 0)
            else restoreInto w data.len h c
  | _, out => pure (.truncated, out, 0)

/-! ### No fault -/

theorem storeAt_padded {z x : α} {xs : List α} (h : xs.length < m) :
    storeAt (Buffer.padded z xs : Vector α m) xs.length x = .ok (Buffer.padded z (xs ++ [x])) := by
  rw [storeAt, if_pos h, Buffer.set_padded_length h]

/-- The loop fills the array from the front with the elements that are read. -/
theorem readInto_eq {get : Cursor α} {z : α} {n : ℕ} (hn : n ≤ m) {bytes rest : List Byte}
    {values : Vector α n} (hread : Codec.vector get n bytes = .ok (values, rest)) :
    readInto get (Vector.replicate m z) n bytes = .ok (Buffer.padded z values.toList, rest) := by
  induction n generalizing bytes rest with
  | zero =>
      obtain rfl : values = #v[] := Vector.eq_empty
      obtain ⟨-, rfl⟩ := Codec.pure_eq_ok_iff.mp hread
      rw [readInto, Codec.pure_eq_ok_iff]
      exact ⟨Buffer.padded_nil.symm, rfl⟩
  | succ n ih =>
      simp only [Codec.vector, Codec.bind_eq_ok_iff, Codec.pure_eq_ok_iff] at hread
      obtain ⟨front, mid, hfront, last, rest', hlast, rfl, rfl⟩ := hread
      have hstore := @storeAt_padded _ m z last front.toList
        (by rw [Vector.length_toList]; omega)
      rw [Vector.length_toList, ← Vector.toList_push] at hstore
      simp only [readInto, Codec.bind_eq_ok_iff]
      refine ⟨_, _, ih (by omega) hfront, _, _, hlast, ?_⟩
      change (storeAt _ n last >>= fun array => pure (array, rest')) = _
      rw [hstore]
      rfl

/-- A zero behind the label is there already. -/
theorem storeAt_labelOf {text : List Byte} (h : text.length < 32) :
    storeAt (labelOf text) text.length 0 = .ok (labelOf text) := by
  rw [labelOf, storeAt_padded h, Buffer.padded_concat]

/-- Where the header has the size of the capsule. -/
def headerTotal (bytes : List Byte) : ℕ :=
  (load32 (bytes.getD 8 0) (bytes.getD 9 0) (bytes.getD 10 0) (bytes.getD 11 0)).toNat

theorem total_of_deserializeHeader {bytes c : List Byte} {h : CapsuleHeader}
    (hread : deserializeHeader bytes = .ok (h, c)) : h.total.toNat = headerTotal bytes := by
  obtain rfl := (inverts_deserializeHeader _ _ _).mp hread
  rw [headerTotal, ← load32_store32 h.total]
  rfl

/-- The two readers fill in the same prototype, once what they are to read is there. -/
theorem restoreInto_eq {w len : ℕ} {h : CapsuleHeader} {c c' c'' : List Byte}
    {label : Vector Byte h.labelLen.toNat} {views : Vector VisualView h.viewCount.toNat}
    (hlabelLen : h.labelLen.toNat < 32) (hviewCount : h.viewCount.toNat ≤ 16)
    (hlabel : Codec.vector getU8 h.labelLen.toNat c = .ok (label, c'))
    (hviews : Codec.vector deserializeView h.viewCount.toNat c' = .ok (views, c''))
    (hposition : len - c''.length + 4 = h.total.toNat) (htotal : h.total.toNat < 2 ^ w) :
    restoreInto w len h c =
      let p := restored h label.toList views.toList
      if verify p ≠ .ok ∨ p.classId ≠ classId p.label.toList then .ok (.crcMismatch, some p, 0)
      else .ok (.ok, some p, h.total.toNat) := by
  have hlabelInto : readInto getU8 VisualPrototype.zero.label h.labelLen.toNat c =
      .ok (labelOf label.toList, c') := readInto_eq (by omega) hlabel
  have hviewsInto : readInto deserializeView VisualPrototype.zero.views h.viewCount.toNat c' =
      .ok (viewsOf views.toList, c'') := readInto_eq (by omega) hviews
  have hterminator := @storeAt_labelOf label.toList (by rw [Vector.length_toList]; omega)
  rw [Vector.length_toList] at hterminator
  rw [restoreInto, hlabelInto, Result.ok_bind]
  dsimp only
  rw [hterminator, Result.ok_bind, hviewsInto, Result.ok_bind]
  dsimp only
  rw [show capsuleTrailerSize = 4 from rfl, Checked.add_eq _ (by omega), Result.ok_bind,
    if_neg (not_not.mpr hposition)]
  rfl

/-- The reader with checked stores and sizes does what the other one does. -/
theorem deserializeInto_eq {w : ℕ} (hw : 16 ≤ w) (data : Span w) {bytes : List Byte}
    (hdata : data.data = some bytes) (out : VisualPrototype) :
    ∃ status p consumed, deserialize bytes out = .ok (status, p, consumed) ∧
      deserializeInto w data (some out) = .ok (status, some p, consumed) ∧
      (status = .ok → consumed = headerTotal bytes ∧ headerTotal bytes ≤ data.len) := by
  have hlen : bytes.length = data.len := data.len_eq bytes hdata
  have hlt := data.len_lt
  have hpow : 2 ^ 16 ≤ 2 ^ w := Nat.pow_le_pow_right (by omega) hw
  unfold deserializeInto
  simp only [hdata]
  rw [deserialize, hlen]
  by_cases hshort : data.len < capsuleHeaderSize + capsuleTrailerSize
  · rw [if_pos hshort, if_pos hshort]
    exact ⟨_, _, _, rfl, rfl, by simp⟩
  rw [if_neg hshort, if_neg hshort]
  rw [show capsuleHeaderSize + capsuleTrailerSize = 40 from rfl] at *
  obtain ⟨hd, hread⟩ := takes_deserializeHeader bytes (by omega)
  have htotalAt := total_of_deserializeHeader hread
  rw [hread, Result.ok_bind, Result.ok_bind]
  dsimp only
  by_cases hmagic : hd.magic ≠ capsuleMagic
  · rw [if_pos hmagic, if_pos hmagic]
    exact ⟨_, _, _, rfl, rfl, by simp⟩
  rw [if_neg hmagic, if_neg hmagic]
  by_cases hversion : hd.version ≠ capsuleVersion ∨ hd.headerSize.toNat ≠ capsuleHeaderSize
  · rw [if_pos hversion, if_pos hversion]
    exact ⟨_, _, _, rfl, rfl, by simp⟩
  rw [if_neg hversion, if_neg hversion]
  by_cases htotal : data.len < hd.total.toNat ∨ hd.total.toNat < 40
  · rw [if_pos htotal, if_pos htotal]
    exact ⟨_, _, _, rfl, rfl, by simp⟩
  rw [if_neg htotal, if_neg htotal]
  by_cases hcounts : hd.viewCount.toNat = 0 ∨ maxViews < hd.viewCount.toNat ∨
      hd.labelLen.toNat = 0 ∨ maxLabel ≤ hd.labelLen.toNat
  · rw [if_pos hcounts, if_pos hcounts]
    exact ⟨_, _, _, rfl, rfl, by simp⟩
  rw [if_neg hcounts, if_neg hcounts]
  rw [show maxViews = 16 from rfl, show maxLabel = 32 from rfl] at hcounts
  -- the counts are small now, so that no size wraps
  rw [show capsuleHeaderSize = 36 from rfl, show capsuleViewSize = 92 from rfl,
    show capsuleTrailerSize = 4 from rfl, Checked.add_eq _ (by omega), Result.ok_bind,
    Checked.mul_eq _ (by omega), Result.ok_bind, Checked.add_eq _ (by omega), Result.ok_bind,
    Checked.add_eq _ (by omega), Result.ok_bind]
  by_cases hexpected : 36 + hd.labelLen.toNat + hd.viewCount.toNat * 92 + 4 ≠ hd.total.toNat
  · rw [if_pos hexpected, if_pos hexpected]
    exact ⟨_, _, _, rfl, rfl, by simp⟩
  rw [if_neg hexpected, if_neg hexpected, Checked.sub_eq _ (by omega), Result.ok_bind]
  obtain ⟨stored, hstored⟩ := takes_getU32 (bytes.drop (hd.total.toNat - 4))
    (by rw [List.length_drop]; omega)
  rw [hstored, Result.ok_bind, Result.ok_bind]
  dsimp only
  rw [Memory.region_eq (by omega), Result.ok_bind, List.drop_zero]
  by_cases hcrc : stabilityCrc32c (bytes.take (hd.total.toNat - 4)) ≠ stored
  · rw [if_pos hcrc, if_pos hcrc]
    exact ⟨_, _, _, rfl, rfl, by simp⟩
  rw [if_neg hcrc, if_neg hcrc]
  obtain ⟨label, hlabel⟩ := takes_getU8.vector hd.labelLen.toNat
    (bytes.drop 36) (by rw [List.length_drop]; omega)
  obtain ⟨views, hviews⟩ := takes_deserializeView.vector hd.viewCount.toNat
    ((bytes.drop 36).drop (hd.labelLen.toNat * 1))
    (by rw [List.length_drop, List.length_drop]; omega)
  have hposition : data.len - (((bytes.drop 36).drop (hd.labelLen.toNat * 1)).drop
      (hd.viewCount.toNat * 92)).length + 4 = hd.total.toNat := by
    rw [List.length_drop, List.length_drop, List.length_drop]
    omega
  rw [hlabel, Result.ok_bind]
  dsimp only
  rw [hviews, Result.ok_bind]
  dsimp only
  rw [hposition, if_neg (not_not.mpr rfl),
    restoreInto_eq (by omega) (by omega) hlabel hviews hposition (by omega)]
  dsimp only
  by_cases hverify : verify (restored hd label.toList views.toList) ≠ .ok ∨
      (restored hd label.toList views.toList).classId ≠
        classId (restored hd label.toList views.toList).label.toList
  · rw [if_pos hverify, if_pos hverify]
    exact ⟨_, _, _, rfl, rfl, by simp⟩
  · rw [if_neg hverify, if_neg hverify]
    exact ⟨_, _, _, rfl, rfl, fun _ => ⟨htotalAt, by omega⟩⟩

/-- Whatever the bytes are: nothing is read behind them, nothing is stored outside of the
prototype and no size wraps. On success the size in the header has been consumed, which is
at most the size of the data. -/
theorem deserializeInto_spec {w : ℕ} (hw : 16 ≤ w) (data : Span w) (out : Option VisualPrototype) :
    ∃ status out' consumed, deserializeInto w data out = .ok (status, out', consumed) ∧
      (status = .ok → consumed = headerTotal data.bytes ∧ headerTotal data.bytes ≤ data.len) := by
  cases hdata : data.data with
  | none =>
      refine ⟨.truncated, out, 0, ?_, by simp⟩
      unfold deserializeInto
      simp only [hdata]
      rfl
  | some bytes =>
      cases out with
      | none =>
          refine ⟨.truncated, none, 0, ?_, by simp⟩
          unfold deserializeInto
          simp only [hdata]
          rfl
      | some out =>
          obtain ⟨status, p, consumed, -, hinto, hok⟩ := deserializeInto_eq hw data hdata out
          rw [Span.bytes, hdata]
          exact ⟨status, some p, consumed, hinto, hok⟩

theorem length_tolerated : tolerated.length < 2 ^ 64 := by
  simp only [tolerated, List.length_append, List.length_cons, List.length_nil,
    List.length_replicate]
  omega

/-- A capsule of a letter and one view, where a `size_t` has 64 bits. -/
theorem deserializeInto_spec_tolerated :
    deserializeInto 64 (Span.of tolerated length_tolerated) (some .zero) =
        .ok (.ok, some toleratedPrototype, 133) ∧
      133 = headerTotal tolerated ∧ headerTotal tolerated ≤ tolerated.length := by
  obtain ⟨status, out, consumed, hrun, hok⟩ := deserializeInto_spec (w := 64) (by decide)
    (Span.of tolerated length_tolerated) (some .zero)
  obtain ⟨status', p, consumed', hread, hinto, -⟩ := deserializeInto_eq (w := 64) (by decide)
    (Span.of tolerated length_tolerated) rfl .zero
  have hresult := Except.ok.inj (hread.symm.trans deserialize_tolerated)
  simp only [Prod.mk.injEq] at hresult
  obtain ⟨rfl, rfl, rfl⟩ := hresult
  have hsame := Except.ok.inj (hinto.symm.trans hrun)
  simp only [Prod.mk.injEq] at hsame
  obtain ⟨rfl, -, rfl⟩ := hsame
  exact ⟨hinto, hok rfl⟩

end Blake3.Visual
