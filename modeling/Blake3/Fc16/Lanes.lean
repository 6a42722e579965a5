import Blake3.Fc16.Core

/-!
What the lanes receive. The byte at position `p` of an entry goes to lane
`base + p / 16`, in whatever pieces the entry arrives; blocks of 16 bytes only
count as such.
-/

namespace Blake3.Fc16

/-! ### The checksum -/

theorem crc32cFold_eq (state : Word) : crc32cFold state = Crc.shifts 0x82f63b78 4 state := by
  have htable :
      ∀ i : Fin 16, crc32cNibble.get i = Crc.shifts 0x82f63b78 4 (UInt32.ofNat i.val) := by
    decide +kernel
  have hlow : (state &&& 0x0f).toNat < 16 := by
    rw [UInt32.toNat_and]
    exact Nat.lt_of_le_of_lt Nat.and_le_right (by decide)
  have hword : UInt32.ofNat (state &&& 0x0f).toNat = state &&& 0x0f := UInt32.ofNat_toNat
  rw [crc32cFold, htable, Crc.shifts_four _ state, Fin.val_ofNat, Nat.mod_eq_of_lt hlow, hword]

/-- The table of nibbles computes the CRC of the reflected polynomial. -/
theorem crc32cUpdate_eq (state : Word) (data : List Byte) :
    crc32cUpdate state data = Crc.update 0x82f63b78 state data := by
  have hbyte : crc32cByte = Crc.byteStep 0x82f63b78 := by
    funext state b
    rw [crc32cByte, crc32cFold_eq, crc32cFold_eq, Crc.shifts_shifts, Crc.byteStep]
  rw [crc32cUpdate, Crc.update, hbyte]

theorem crc32cUpdate_append (state : Word) (p q : List Byte) :
    crc32cUpdate state (p ++ q) = crc32cUpdate (crc32cUpdate state p) q := List.foldl_append

/-! ### One lane -/

/-- A byte and its position in the entry, and what it adds to the fold. -/
abbrev Item := Byte × ℕ

def Item.shifted (item : Item) : Word := item.1.toUInt32 <<< UInt32.ofNat (item.2 % 4 * 8)

namespace Lane

def feedItems (items : List Item) (l : Lane) : Lane :=
  items.foldl (fun l item => l.feedByte (UInt64.ofNat item.2) item.1) l

/-- A lane without the count of its blocks, which no snapshot shows. -/
def forget (l : Lane) : Lane := { l with blocks16 := 0 }

theorem shift_eq (p : ℕ) : (UInt64.ofNat p &&& 3).toUInt32 * 8 = UInt32.ofNat (p % 4 * 8) := by
  apply UInt32.toNat_inj.mp
  have hand : (UInt64.ofNat p &&& 3).toNat = p % 2 ^ 64 % 4 := by
    rw [UInt64.toNat_and, UInt64.toNat_ofNat']
    exact Nat.and_two_pow_sub_one_eq_mod _ 2
  rw [UInt32.toNat_mul, UInt64.toNat_toUInt32, hand, UInt32.toNat_ofNat']
  change p % 2 ^ 64 % 4 % 2 ^ 32 * 8 % 2 ^ 32 = p % 4 * 8 % 2 ^ 32
  omega

theorem crcState_feedItems (items : List Item) (l : Lane) :
    (feedItems items l).crcState = crc32cUpdate l.crcState (items.map Prod.fst) := by
  induction items generalizing l with
  | nil => rfl
  | cons item items ih => exact ih _

theorem xorFold_feedItems (items : List Item) (l : Lane) :
    (feedItems items l).xorFold = (items.map Item.shifted).foldl (· ^^^ ·) l.xorFold := by
  induction items generalizing l with
  | nil => rfl
  | cons item items ih =>
      rw [List.map_cons, List.foldl_cons, Item.shifted, ← shift_eq]
      exact ih _

theorem bytes_feedItems (items : List Item) (l : Lane) :
    (feedItems items l).bytes = l.bytes + UInt64.ofNat items.length := by
  induction items generalizing l with
  | nil => exact (UInt64.add_zero _).symm
  | cons item items ih =>
      have hsucc : UInt64.ofNat (items.length + 1) = 1 + UInt64.ofNat items.length := by
        rw [Nat.add_comm, UInt64.ofNat_add]
        rfl
      rw [List.length_cons, hsucc, ← UInt64.add_assoc]
      exact ih _

theorem forget_feedItems (items : List Item) (l : Lane) :
    (feedItems items l).forget = feedItems items l.forget := by
  induction items generalizing l with
  | nil => rfl
  | cons item items ih => exact ih _

theorem foldl_xor (words : List Word) (v : Word) :
    words.foldl (· ^^^ ·) v = v ^^^ words.foldl (· ^^^ ·) 0 := by
  induction words generalizing v with
  | nil => exact UInt32.xor_zero.symm
  | cons w words ih => rw [List.foldl_cons, List.foldl_cons, ih, ih (0 ^^^ w), UInt32.zero_xor,
      UInt32.xor_assoc]

theorem zipIdx_eq_map (data : List Byte) (p : ℕ) :
    data.zipIdx p = (List.range data.length).map fun i => (data.getD i 0, p + i) := by
  apply List.ext_getElem
  · simp
  · intro i hi hi'
    simp at hi
    simp [hi]

/-- The fold of a block is the exclusive or of its shifted bytes. -/
theorem xorFold16_eq {data : List Byte} {p : ℕ} (hlength : data.length = 16) (hp : p % 16 = 0) :
    xorFold16 data = ((data.zipIdx p).map Item.shifted).foldl (· ^^^ ·) 0 := by
  rw [zipIdx_eq_map, hlength, List.map_map, List.foldl_map, xorFold16]
  congr 1
  funext v i
  have hshift : (p + i) % 4 = i &&& 3 := by
    rw [show i &&& 3 = i % 4 from Nat.and_two_pow_sub_one_eq_mod i 2]
    omega
  rw [Function.comp_apply, Item.shifted, hshift]

/-- A block is sixteen bytes. -/
theorem forget_feedBlock {data : List Byte} {p : ℕ} (hlength : data.length = 16)
    (hp : p % 16 = 0) (l : Lane) :
    (feedBlock data l).forget = (feedItems (data.zipIdx p) l).forget := by
  simp only [forget, feedBlock, crcState_feedItems, xorFold_feedItems, bytes_feedItems,
    List.zipIdx_map_fst, List.length_zipIdx, hlength, xorFold16_eq hlength hp,
    foldl_xor _ l.xorFold]
  rfl

end Lane

/-! ### The sixteen lanes -/

namespace Lanes

variable (lanes : Lanes) (i j : Fin 16) (f g : Lane → Lane)

theorem get_modify : (lanes.modify i f).get j = if i = j then f (lanes.get i) else lanes.get j := by
  have hset : (lanes.setIfInBounds i.val (f (lanes.get i)))[j.val] =
      if i.val = j.val then f (lanes.get i) else lanes[j.val] := Vector.getElem_setIfInBounds ..
  by_cases h : i = j
  · rw [if_pos h]
    rw [if_pos (congrArg Fin.val h)] at hset
    exact hset
  · rw [if_neg h]
    rw [if_neg (Fin.val_ne_of_ne h)] at hset
    exact hset

theorem ext_get {lanes lanes' : Lanes} (h : ∀ i, lanes.get i = lanes'.get i) : lanes = lanes' := by
  apply Vector.ext
  intro i hi
  exact h ⟨i, hi⟩

theorem modify_modify : (lanes.modify i f).modify i g = lanes.modify i (g ∘ f) := by
  apply ext_get
  intro j
  simp only [get_modify]
  by_cases h : i = j <;> simp [h]

theorem modify_id : lanes.modify i id = lanes := by
  apply ext_get
  intro j
  rw [get_modify]
  by_cases h : i = j <;> simp [h]

theorem get_map {α : Type} (f : Lane → α) : (lanes.map f).get i = f (lanes.get i) :=
  Vector.getElem_map ..

def forget : Lanes := lanes.map Lane.forget

theorem get_forget : lanes.forget.get i = (lanes.get i).forget := lanes.get_map i Lane.forget

/-- What a lane becomes does not depend on its count of blocks. -/
theorem forget_modify {lanes lanes' : Lanes} {f g : Lane → Lane} (h : lanes.forget = lanes'.forget)
    (hfg : ∀ l l' : Lane, l.forget = l'.forget → (f l).forget = (g l').forget) :
    (lanes.modify i f).forget = (lanes'.modify i g).forget := by
  have hget : ∀ j, (lanes.get j).forget = (lanes'.get j).forget := by
    intro j
    rw [← get_forget, ← get_forget, h]
  apply ext_get
  intro j
  simp only [get_forget, get_modify]
  by_cases hij : i = j
  · rw [if_pos hij, if_pos hij, hfg _ _ (hget i)]
  · rw [if_neg hij, if_neg hij, hget j]

end Lanes

/-- The lane of position `p`. -/
theorem laneIndex_ofNat (base : Byte) (p : ℕ) :
    laneIndex base (UInt64.ofNat p) = Fin.ofNat 16 (base.toNat + p / 16) := by
  have hbase := base.toNat_lt
  have hand : ∀ w : Word, (w &&& 15).toNat = w.toNat % 16 := by
    intro w
    rw [UInt32.toNat_and]
    exact Nat.and_two_pow_sub_one_eq_mod _ 4
  have hshift : (UInt64.ofNat p >>> 4).toNat = p % 2 ^ 64 / 16 := by
    rw [UInt64.toNat_shiftRight, UInt64.toNat_ofNat', Nat.shiftRight_eq_div_pow]
    rfl
  apply Fin.ext
  rw [laneIndex, Fin.val_ofNat, Fin.val_ofNat, hand, UInt32.toNat_add, UInt64.toNat_toUInt32,
    hshift, UInt8.toNat_toUInt32]
  omega

theorem ofNat_succ (p : ℕ) : UInt64.ofNat p + 1 = UInt64.ofNat (p + 1) :=
  (UInt64.ofNat_add p 1).symm

section Loops

variable (base : Byte)

theorem feedTail_append (lanes : Lanes) (p : ℕ) (xs ys : List Byte) :
    feedTail base lanes (UInt64.ofNat p) (xs ++ ys) =
      feedTail base (feedTail base lanes (UInt64.ofNat p) xs)
        (UInt64.ofNat (p + xs.length)) ys := by
  induction xs generalizing lanes p with
  | nil => rfl
  | cons x xs ih =>
      rw [List.cons_append, feedTail, feedTail, ofNat_succ, ih, List.length_cons]
      congr 2
      omega

theorem forget_feedTail {lanes lanes' : Lanes} (h : lanes.forget = lanes'.forget)
    (absolute : UInt64) (data : List Byte) :
    (feedTail base lanes absolute data).forget = (feedTail base lanes' absolute data).forget := by
  induction data generalizing lanes lanes' absolute with
  | nil => exact h
  | cons b data ih =>
      refine ih (Lanes.forget_modify _ h fun l l' hl => ?_) _
      exact congrArg (Lane.feedByte absolute b) hl

/-- Bytes between two multiples of 16 go to one lane. -/
theorem feedTail_of_le {p : ℕ} {data : List Byte} (h : p % 16 + data.length ≤ 16)
    (lanes : Lanes) : feedTail base lanes (UInt64.ofNat p) data =
      lanes.modify (Fin.ofNat 16 (base.toNat + p / 16)) (Lane.feedItems (data.zipIdx p)) := by
  induction data generalizing lanes p with
  | nil => exact (lanes.modify_id _).symm
  | cons b data ih =>
      rw [List.length_cons] at h
      rw [feedTail, laneIndex_ofNat, ofNat_succ]
      rcases data with _ | ⟨b', data⟩
      · rfl
      · rw [List.length_cons] at h
        have hdiv : (p + 1) / 16 = p / 16 := by omega
        rw [ih (by rw [List.length_cons]; omega), hdiv, Lanes.modify_modify]
        rfl

/-- A lane's share of the bytes from position `p` on. -/
def laneItems (L : Fin 16) (p : ℕ) (data : List Byte) : List Item :=
  (data.zipIdx p).filter fun item => Fin.ofNat 16 (base.toNat + item.2 / 16) = L

theorem get_feedTail (lanes : Lanes) (p : ℕ) (data : List Byte) (L : Fin 16) :
    (feedTail base lanes (UInt64.ofNat p) data).get L =
      Lane.feedItems (laneItems base L p data) (lanes.get L) := by
  induction data generalizing lanes p with
  | nil => rfl
  | cons b data ih =>
      rw [feedTail, laneIndex_ofNat, ofNat_succ, ih, Lanes.get_modify]
      simp only [laneItems, List.zipIdx_cons, List.filter_cons]
      by_cases h : Fin.ofNat 16 (base.toNat + p / 16) = L
      · rw [if_pos h, h, if_pos (by simp)]
        rfl
      · rw [if_neg h, if_neg (by simpa using h)]

theorem feedHead_eq (lanes : Lanes) (p : ℕ) (data : List Byte) :
    ∃ xs ys, data = xs ++ ys ∧ (ys = [] ∨ (p + xs.length) % 16 = 0) ∧
      feedHead base lanes (UInt64.ofNat p) data =
        (feedTail base lanes (UInt64.ofNat p) xs, UInt64.ofNat (p + xs.length), ys) := by
  induction data generalizing lanes p with
  | nil => exact ⟨[], [], rfl, .inl rfl, rfl⟩
  | cons b data ih =>
      have hand : (UInt64.ofNat p &&& 15).toNat = p % 16 := by
        rw [UInt64.toNat_and, UInt64.toNat_ofNat']
        exact (Nat.and_two_pow_sub_one_eq_mod _ 4).trans (by omega)
      rw [feedHead]
      by_cases hp : UInt64.ofNat p &&& 15 = 0
      · rw [hp] at hand
        refine ⟨[], b :: data, rfl, .inr hand.symm, ?_⟩
        rw [if_neg (by simpa using hp)]
        rfl
      · obtain ⟨xs, ys, rfl, hend, hhead⟩ :=
          ih (lanes.modify (laneIndex base (UInt64.ofNat p)) (Lane.feedByte (UInt64.ofNat p) b))
            (p + 1)
        refine ⟨b :: xs, ys, rfl, ?_, ?_⟩
        · rw [List.length_cons, show p + (xs.length + 1) = p + 1 + xs.length by omega]
          exact hend
        · rw [if_pos hp, ofNat_succ, hhead, feedTail, ofNat_succ, List.length_cons,
            show p + (xs.length + 1) = p + 1 + xs.length by omega]

theorem feedBlocks_eq {p : ℕ} {data : List Byte} (h : data = [] ∨ p % 16 = 0) (lanes : Lanes) :
    ∃ xs ys lanes', data = xs ++ ys ∧
      feedBlocks base lanes (UInt64.ofNat p) data = (lanes', UInt64.ofNat (p + xs.length), ys) ∧
      lanes'.forget = (feedTail base lanes (UInt64.ofNat p) xs).forget := by
  induction hlength : data.length using Nat.strong_induction_on generalizing lanes p data with
  | _ n ih =>
      subst hlength
      rw [feedBlocks]
      by_cases hle : 16 ≤ data.length
      · rw [if_pos hle]
        have hp : p % 16 = 0 := by
          rcases h with rfl | h
          · simp at hle
          · exact h
        have htake : (data.take 16).length = 16 := by rw [List.length_take]; omega
        obtain ⟨xs, ys, lanes', hdata, hblocks, hforget⟩ :=
          ih (data.drop 16).length (by rw [List.length_drop]; omega)
            (show data.drop 16 = [] ∨ (p + 16) % 16 = 0 from .inr (by omega))
            (lanes.modify (laneIndex base (UInt64.ofNat p)) (Lane.feedBlock (data.take 16))) rfl
        refine ⟨data.take 16 ++ xs, ys, lanes', ?_, ?_, ?_⟩
        · rw [List.append_assoc, ← hdata, List.take_append_drop]
        · rw [show UInt64.ofNat p + 16 = UInt64.ofNat (p + 16) from (UInt64.ofNat_add p 16).symm,
            hblocks, List.length_append, htake, Nat.add_assoc]
        · rw [hforget, feedTail_append, htake]
          apply forget_feedTail
          rw [feedTail_of_le base (by omega), laneIndex_ofNat]
          refine Lanes.forget_modify _ rfl fun l l' hl => ?_
          rw [Lane.forget_feedBlock htake hp, Lane.forget_feedItems, Lane.forget_feedItems, hl]
      · rw [if_neg hle]
        exact ⟨[], data, lanes, rfl, rfl, rfl⟩

/-- The three loops do what one loop over the bytes does. -/
theorem forget_feedLanes (lanes : Lanes) (p : ℕ) (data : List Byte) :
    (feedLanes base lanes (UInt64.ofNat p) data).forget =
      (feedTail base lanes (UInt64.ofNat p) data).forget := by
  obtain ⟨xs, rest, rfl, hend, hhead⟩ := feedHead_eq base lanes p data
  obtain ⟨ys, zs, lanes', rfl, hblocks, hforget⟩ := feedBlocks_eq base hend
    (feedTail base lanes (UInt64.ofNat p) xs)
  rw [feedLanes, hhead]
  simp only [hblocks]
  rw [feedTail_append, feedTail_append]
  exact forget_feedTail base hforget _ _

end Loops

end Blake3.Fc16
