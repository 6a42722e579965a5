import Blake3.Visual.Exemplar

/-!
The store of prototypes, `RmR_VisualStore_Init`, `RmR_VisualStore_Find` and
`RmR_VisualStore_Upsert`: a fixed number of slots that are searched from the
front for a class.
-/

namespace Blake3.Visual

structure VisualStore where
  slots : List VisualPrototype
  capacity : Word
  count : Word
  deriving DecidableEq

namespace VisualStore

/-- `RmR_VisualStore_Init` with slots for `capacity` prototypes, none of the
pointers being null. -/
def init (store : VisualStore) (capacity : Word) : Status × VisualStore :=
  if capacity = 0 then (.badArgument, store)
  else
    (.ok, { slots := List.replicate capacity.toNat VisualPrototype.zero, capacity := capacity,
            count := 0 })

/-- The slots a loop up to `count` sees. -/
def used (store : VisualStore) : List VisualPrototype := store.slots.take store.count.toNat

/-- The slot of the first prototype of a class, the number of prototypes if
there is none. -/
def slotOf (store : VisualStore) (classId : Word) : ℕ :=
  Keyed.slot VisualPrototype.classId classId store.used

/-- `RmR_VisualStore_Find`: the slot that is pointed to. -/
def find (store : VisualStore) (classId : Word) : Option ℕ :=
  if classId = 0 then none
  else if store.slotOf classId < store.used.length then some (store.slotOf classId)
  else none

/-- `RmR_VisualStore_Upsert`: the status, the store and `*out_slot`. -/
def upsert (store : VisualStore) (p : VisualPrototype) : Status × VisualStore × Word :=
  match verify p with
  | .ok =>
      let slot := store.slotOf p.classId
      if slot = store.count.toNat ∧ store.capacity ≤ store.count then (.full, store, 0xffffffff)
      else
        (.ok, { store with
          count := if slot = store.count.toNat then store.count + 1 else store.count
          slots := store.slots.set slot p }, UInt32.ofNat slot)
  | status => (status, store, 0xffffffff)

/-- The store after a sequence of calls, whatever each of them returned. -/
def run (store : VisualStore) (calls : List VisualPrototype) : VisualStore :=
  calls.foldl (fun store p => (store.upsert p).2.1) store

/-- The prototypes whose call returned `ok`, in the order of the calls. -/
def accepted : VisualStore → List VisualPrototype → List VisualPrototype
  | _, [] => []
  | store, p :: calls =>
      if (store.upsert p).1 = .ok then p :: accepted (store.upsert p).2.1 calls
      else accepted (store.upsert p).2.1 calls

/-- The prototype of a class. -/
def lookup (store : VisualStore) (classId : Word) : Option VisualPrototype :=
  (store.find classId).bind fun i => store.slots[i]?

/-! ### The invariant -/

structure Sound (store : VisualStore) : Prop where
  length : store.slots.length = store.capacity.toNat
  count_le : store.count.toNat ≤ store.capacity.toNat
  classes_nodup : (store.used.map VisualPrototype.classId).Nodup
  verified : ∀ p ∈ store.used, verify p = .ok

theorem sound_init {store store' : VisualStore} {capacity : Word}
    (h : store.init capacity = (.ok, store')) : store'.Sound := by
  obtain ⟨-, h⟩ := of_check h (by simp)
  rw [Prod.mk.injEq] at h
  obtain ⟨-, rfl⟩ := h
  exact ⟨List.length_replicate, Nat.zero_le _, List.nodup_nil,
    fun p hp => absurd hp List.not_mem_nil⟩

theorem capacity_init {store store' : VisualStore} {capacity : Word}
    (h : store.init capacity = (.ok, store')) : store'.capacity = capacity := by
  obtain ⟨-, h⟩ := of_check h (by simp)
  rw [Prod.mk.injEq] at h
  obtain ⟨-, rfl⟩ := h
  rfl

theorem lookup_init {store store' : VisualStore} {capacity : Word}
    (h : store.init capacity = (.ok, store')) (classId : Word) : store'.lookup classId = none := by
  obtain ⟨-, h⟩ := of_check h (by simp)
  rw [Prod.mk.injEq] at h
  obtain ⟨-, rfl⟩ := h
  rw [lookup, find]
  split
  · rfl
  · rfl

namespace Sound

variable {store : VisualStore}

theorem length_used (h : store.Sound) : store.used.length = store.count.toNat := by
  rw [used, List.length_take, h.length]
  exact Nat.min_eq_left h.count_le

theorem slotOf_le (h : store.Sound) (classId : Word) :
    store.slotOf classId ≤ store.count.toNat := by
  rw [← h.length_used]
  exact Keyed.slot_le

theorem slotOf_lt_iff (h : store.Sound) (classId : Word) :
    store.slotOf classId < store.count.toNat ↔
      classId ∈ store.used.map VisualPrototype.classId := by
  rw [← h.length_used]
  exact Keyed.slot_lt_iff

/-- What a call does: a failure changes nothing, and a success puts the
prototype in the place of the one of its class or behind all others. -/
theorem upsert_cases (h : store.Sound) (p : VisualPrototype) :
    (∃ status, status ≠ .ok ∧ store.upsert p = (status, store, 0xffffffff) ∧
      (status = verify p ∨ status = .full ∧ store.count = store.capacity ∧
        p.classId ∉ store.used.map VisualPrototype.classId)) ∨
    ∃ store', store.upsert p = (.ok, store', UInt32.ofNat (store.slotOf p.classId)) ∧
      verify p = .ok ∧ store'.capacity = store.capacity ∧
      store.slotOf p.classId < store.capacity.toNat ∧
      store'.count.toNat ≤ store.capacity.toNat ∧
      store'.slots = store.slots.set (store.slotOf p.classId) p ∧
      store'.used = Keyed.upsert VisualPrototype.classId p store.used := by
  have hle := h.slotOf_le p.classId
  have hcount := h.count_le
  have hcapacity := store.capacity.toNat_lt
  by_cases hverify : verify p = .ok
  · rw [upsert, hverify]
    dsimp only
    by_cases hfull : store.slotOf p.classId = store.count.toNat ∧ store.capacity ≤ store.count
    · rw [if_pos hfull]
      refine .inl ⟨_, by decide, rfl, .inr ⟨rfl, ?_, ?_⟩⟩
      · exact UInt32.toNat_inj.mp (Nat.le_antisymm hcount (UInt32.le_iff_toNat_le.mp hfull.2))
      · rw [← h.slotOf_lt_iff]
        omega
    · rw [if_neg hfull]
      refine .inr ⟨_, rfl, rfl, rfl, ?_⟩
      dsimp only
      by_cases hnew : store.slotOf p.classId = store.count.toNat
      · -- a new class takes the next slot, and the used slots grow by it
        have hroom : store.count.toNat < store.capacity.toNat :=
          Nat.lt_of_not_le fun hle => hfull ⟨hnew, UInt32.le_iff_toNat_le.mpr hle⟩
        have hnext : (store.count + 1).toNat = store.count.toNat + 1 := by
          rw [UInt32.toNat_add, UInt32.toNat_one, Nat.mod_eq_of_lt (by omega)]
        have hslot :
            Keyed.slot VisualPrototype.classId p.classId store.used = store.used.length := by
          rw [h.length_used]
          exact hnew
        rw [if_pos hnew, hnext, hnew]
        refine ⟨hroom, hroom, rfl, ?_⟩
        have hin : store.count.toNat < (store.slots.set store.count.toNat p).length := by
          rw [List.length_set, h.length]
          exact hroom
        rw [used, hnext, Keyed.upsert_of_eq hslot, List.take_succ_eq_append_getElem hin,
          List.take_set_of_le (Nat.le_refl _), List.getElem_set_self, used]
      · -- a class that is there keeps its slot
        have hlt : store.slotOf p.classId < store.count.toNat := by omega
        have hslot :
            Keyed.slot VisualPrototype.classId p.classId store.used < store.used.length := by
          rw [h.length_used]
          exact hlt
        rw [if_neg hnew]
        refine ⟨by omega, hcount, rfl, ?_⟩
        rw [used, Keyed.upsert_of_lt hslot, List.take_set]
        rfl
  · refine .inl ⟨verify p, hverify, ?_, .inl rfl⟩
    rw [upsert]
    split
    · next hok => exact absurd hok hverify
    · rfl

theorem upsert (h : store.Sound) (p : VisualPrototype) : (store.upsert p).2.1.Sound := by
  rcases h.upsert_cases p with
      ⟨status, -, hcall, -⟩ | ⟨store', hcall, hverify, hcapacity, -, hcount, hslots, hused⟩
  · rw [hcall]
    exact h
  · rw [hcall]
    refine ⟨?_, ?_, ?_, ?_⟩
    · rw [hslots, List.length_set, hcapacity, h.length]
    · rwa [hcapacity]
    · rw [hused]
      exact Keyed.nodup_upsert h.classes_nodup
    · intro q hq
      rw [hused] at hq
      rcases Keyed.mem_of_mem_upsert hq with rfl | hq
      · exact hverify
      · exact h.verified q hq

theorem run (h : store.Sound) (calls : List VisualPrototype) : (store.run calls).Sound := by
  induction calls generalizing store with
  | nil => exact h
  | cons p calls ih => exact ih (h.upsert p)

/-- What is found is the first prototype of the class. -/
theorem lookup_eq (h : store.Sound) (classId : Word) :
    store.lookup classId = Keyed.lookup VisualPrototype.classId classId store.used := by
  rw [lookup, find]
  by_cases hzero : classId = 0
  · have hnone : Keyed.lookup VisualPrototype.classId classId store.used = none := by
      refine List.find?_eq_none.mpr fun p hp hclass => ?_
      obtain ⟨-, -, -, -, hne, -⟩ :=
        fields_of_structureStatus (structureStatus_of_verify (h.verified p hp))
      exact hne ((of_decide_eq_true hclass).trans hzero)
    rw [if_pos hzero, hnone, Option.bind_none]
  · rw [if_neg hzero, ← Keyed.getElem?_slot]
    by_cases hlt : store.slotOf classId < store.used.length
    · rw [if_pos hlt, Option.bind_some]
      have hcount : store.slotOf classId < store.count.toNat := by rwa [← h.length_used]
      exact (List.getElem?_take_of_lt hcount).symm
    · rw [if_neg hlt, Option.bind_none]
      exact (List.getElem?_eq_none (not_lt.mp hlt)).symm

/-- Each class has the last prototype that was accepted for it. -/
theorem lookup_run (h : store.Sound) (calls : List VisualPrototype) (classId : Word) :
    (store.run calls).lookup classId = ((store.accepted calls).reverse.find? fun p =>
      p.classId = classId).or (store.lookup classId) := by
  induction calls generalizing store with
  | nil => rfl
  | cons p calls ih =>
      have hstep := ih (h.upsert p)
      have hrun : store.run (p :: calls) = (store.upsert p).2.1.run calls := rfl
      rw [hrun, hstep, accepted]
      rcases h.upsert_cases p with ⟨status, hne, hcall, -⟩ | ⟨store', hcall, -, -, -, -, -, hused⟩
      · rw [hcall, if_neg hne]
      · have hsound : store'.Sound := by
          have hsound := h.upsert p
          rwa [hcall] at hsound
        rw [hcall, if_pos rfl, List.reverse_cons, List.find?_append, hsound.lookup_eq, hused,
          Keyed.lookup_upsert, h.lookup_eq, Option.or_assoc]
        congr 1
        by_cases hclass : p.classId = classId
        · simp [hclass]
        · simp [hclass]

/-- After a success the prototype is found in the slot that was returned, and
every other slot is what it was. -/
theorem find_upsert (h : store.Sound) {p : VisualPrototype} {store' : VisualStore} {slot : Word}
    (hcall : store.upsert p = (.ok, store', slot)) :
    store'.find p.classId = some slot.toNat ∧ store'.slots[slot.toNat]? = some p ∧
      ∀ i, i ≠ slot.toNat → store'.slots[i]? = store.slots[i]? := by
  rcases h.upsert_cases p with ⟨status, hne, hfailed, -⟩ |
    ⟨store'', hdone, hverify, -, hlt, -, hslots, hused⟩
  · rw [hfailed, Prod.mk.injEq] at hcall
    exact absurd hcall.1 hne
  · rw [hdone, Prod.mk.injEq, Prod.mk.injEq] at hcall
    obtain ⟨-, rfl, rfl⟩ := hcall
    have hcapacity := store.capacity.toNat_lt
    have hslot : (UInt32.ofNat (store.slotOf p.classId)).toNat = store.slotOf p.classId :=
      UInt32.toNat_ofNat_of_lt' (show _ < 2 ^ 32 by omega)
    obtain ⟨-, -, -, -, hclass, -⟩ := fields_of_structureStatus (structureStatus_of_verify hverify)
    have hfound : store''.slotOf p.classId = store.slotOf p.classId := by
      rw [slotOf, hused, Keyed.slot_upsert]
      rfl
    have hin : store''.slotOf p.classId < store''.used.length := by
      rw [slotOf, hused]
      exact Keyed.slot_lt_iff.mpr (List.mem_map.mpr ⟨p, Keyed.mem_upsert, rfl⟩)
    rw [hslot, hslots]
    refine ⟨?_, ?_, fun i hi => List.getElem?_set_ne hi.symm⟩
    · rw [find, if_neg hclass, if_pos hin, hfound]
    · rw [List.getElem?_set_self (by rw [h.length]; exact hlt)]

theorem capacity_run (h : store.Sound) (calls : List VisualPrototype) :
    (store.run calls).capacity = store.capacity := by
  induction calls generalizing store with
  | nil => rfl
  | cons p calls ih =>
      have hrun : store.run (p :: calls) = (store.upsert p).2.1.run calls := rfl
      rw [hrun, ih (h.upsert p)]
      rcases h.upsert_cases p with ⟨status, -, hcall, -⟩ | ⟨store', hcall, -, hcapacity, -⟩
      · rw [hcall]
      · rw [hcall]
        exact hcapacity

end Sound

/-- The store after any sequence of calls. It never holds more than its slots,
nor two prototypes of a class, nor one that is not accepted; a further call
stores its prototype in one slot or changes nothing. -/
theorem run_init {store₀ store : VisualStore} {capacity : Word}
    (hinit : store₀.init capacity = (.ok, store)) (calls : List VisualPrototype) :
    let s := store.run calls
    s.slots.length = capacity.toNat ∧ s.count.toNat ≤ capacity.toNat ∧
      (s.used.map VisualPrototype.classId).Nodup ∧ (∀ p ∈ s.used, verify p = .ok) ∧
      (∀ p s' slot, s.upsert p = (.ok, s', slot) →
        s'.find p.classId = some slot.toNat ∧ s'.slots[slot.toNat]? = some p ∧
          ∀ i, i ≠ slot.toNat → s'.slots[i]? = s.slots[i]?) ∧
      (∀ p status s' slot, s.upsert p = (status, s', slot) → status ≠ .ok →
        s' = s ∧ (status = verify p ∨ status = .full ∧ s.count = capacity ∧
          p.classId ∉ s.used.map VisualPrototype.classId)) ∧
      ∀ classId, s.lookup classId =
        (store.accepted calls).reverse.find? fun p => p.classId = classId := by
  have hsound := sound_init hinit
  have hrun := hsound.run calls
  have hcapacity : (store.run calls).capacity = capacity := by
    rw [hsound.capacity_run]
    exact capacity_init hinit
  refine ⟨?_, ?_, hrun.classes_nodup, hrun.verified, fun p s' slot => hrun.find_upsert, ?_, ?_⟩
  · rw [hrun.length, hcapacity]
  · rw [← hcapacity]
    exact hrun.count_le
  · intro p status s' slot hcall hne
    rcases hrun.upsert_cases p with ⟨status', -, hfailed, hreason⟩ | ⟨store', hdone, -⟩
    · rw [hfailed, Prod.mk.injEq, Prod.mk.injEq] at hcall
      obtain ⟨rfl, rfl, -⟩ := hcall
      rw [hcapacity] at hreason
      exact ⟨rfl, hreason⟩
    · rw [hdone, Prod.mk.injEq] at hcall
      exact absurd hcall.1.symm hne
  · intro classId
    rw [hsound.lookup_run, lookup_init hinit, Option.or_none]

/-- A store of two slots. -/
def two : VisualStore := (init { slots := [], capacity := 0, count := 0 } 2).2

/-- A label and one view, sealed. -/
def sample (label : List Byte) : VisualPrototype :=
  (sealPrototype (addViews (Visual.init VisualPrototype.zero label 0).2
    [{ unsealable with sourceCrc32c := 0 }])).2

/-- `big gato 10` -/
def bigGato : VisualPrototype :=
  sample [0x62, 0x69, 0x67, 0x20, 0x67, 0x61, 0x74, 0x6f, 0x20, 0x31, 0x30]

/-- `brown_dog_337`, a label with the same checksum. -/
def brownDog : VisualPrototype :=
  sample [0x62, 0x72, 0x6f, 0x77, 0x6e, 0x5f, 0x64, 0x6f, 0x67, 0x5f, 0x33, 0x33, 0x37]

theorem run_init_two :
    let s := two.run [bigGato, brownDog]
    s.slots.length = (2 : Word).toNat ∧ s.count.toNat ≤ (2 : Word).toNat ∧
      (s.used.map VisualPrototype.classId).Nodup ∧ (∀ p ∈ s.used, verify p = .ok) ∧
      (∀ p s' slot, s.upsert p = (.ok, s', slot) →
        s'.find p.classId = some slot.toNat ∧ s'.slots[slot.toNat]? = some p ∧
          ∀ i, i ≠ slot.toNat → s'.slots[i]? = s.slots[i]?) ∧
      (∀ p status s' slot, s.upsert p = (status, s', slot) → status ≠ .ok →
        s' = s ∧ (status = verify p ∨ status = .full ∧ s.count = 2 ∧
          p.classId ∉ s.used.map VisualPrototype.classId)) ∧
      ∀ classId, s.lookup classId =
        (two.accepted [bigGato, brownDog]).reverse.find? fun p => p.classId = classId :=
  run_init (show init { slots := [], capacity := 0, count := 0 } 2 = (.ok, two) by rfl)
    [bigGato, brownDog]

/-! ### Labels -/

theorem classId_of_verify {p : VisualPrototype} (h : verify p = .ok) :
    p.classId = stabilityCrc32c p.text := by
  obtain ⟨-, -, hpos, hlt, -, hclass, -⟩ := fields_of_structureStatus (structureStatus_of_verify h)
  rw [hclass, classId, if_neg (by omega), VisualPrototype.text]

theorem verify_of_mem_accepted {store : VisualStore} (h : store.Sound)
    {calls : List VisualPrototype}
    {p : VisualPrototype} (hp : p ∈ store.accepted calls) : verify p = .ok := by
  induction calls generalizing store with
  | nil => exact absurd hp List.not_mem_nil
  | cons q calls ih =>
      rw [accepted] at hp
      split at hp
      · next hok =>
          rcases List.mem_cons.mp hp with rfl | hp
          · rcases h.upsert_cases p with ⟨status, hne, hcall, -⟩ | ⟨store', -, hverify, -⟩
            · rw [hcall] at hok
              exact absurd hok hne
            · exact hverify
          · exact ih (h.upsert q) hp
      · exact ih (h.upsert q) hp

/-- A label is known by its checksum. A call overwrites only a prototype whose
label has the checksum of the new one; what was accepted for a label stays until
a prototype is accepted whose label has the same checksum. -/
theorem run_keeps_labels {store₀ store : VisualStore} {capacity : Word}
    (hinit : store₀.init capacity = (.ok, store)) (calls : List VisualPrototype) :
    (∀ p s' slot q, (store.run calls).upsert p = (.ok, s', slot) →
      (store.run calls).used[slot.toNat]? = some q →
        stabilityCrc32c q.text = stabilityCrc32c p.text) ∧
    ∀ earlier p later, store.accepted calls = earlier ++ p :: later →
      (∀ q ∈ later, stabilityCrc32c q.text ≠ stabilityCrc32c p.text) →
        p ∈ (store.run calls).used := by
  have hsound := sound_init hinit
  have hrun := hsound.run calls
  constructor
  · intro p s' slot q hcall hq
    rcases hrun.upsert_cases p with ⟨status, hne, hfailed, -⟩ | ⟨store', hdone, hverify, -, hlt, -⟩
    · rw [hfailed, Prod.mk.injEq] at hcall
      exact absurd hcall.1 hne
    · rw [hdone, Prod.mk.injEq, Prod.mk.injEq] at hcall
      have hslot : slot.toNat = (store.run calls).slotOf p.classId := by
        have hcapacity := (store.run calls).capacity.toNat_lt
        rw [← hcall.2.2]
        exact UInt32.toNat_ofNat_of_lt' (show _ < 2 ^ 32 by omega)
      rw [hslot, slotOf, Keyed.getElem?_slot] at hq
      have hclass : q.classId = p.classId := by simpa using List.find?_some hq
      have hq := hrun.verified q (List.mem_of_find?_eq_some hq)
      rw [← classId_of_verify hq, ← classId_of_verify hverify, hclass]
  · intro earlier p later haccepted hlater
    have hverify : ∀ q ∈ store.accepted calls, verify q = .ok :=
      fun q hq => verify_of_mem_accepted hsound hq
    rw [haccepted] at hverify
    have hp := hverify p (List.mem_append_right _ List.mem_cons_self)
    have hnone : later.reverse.find? (fun q => q.classId = p.classId) = none := by
      refine List.find?_eq_none.mpr fun q hq hclass => ?_
      rw [List.mem_reverse] at hq
      have hqv := hverify q (List.mem_append_right _ (List.mem_cons_of_mem _ hq))
      apply hlater q hq
      rw [← classId_of_verify hqv, ← classId_of_verify hp]
      exact of_decide_eq_true hclass
    have hlookup : (store.run calls).lookup p.classId = some p := by
      rw [hsound.lookup_run, haccepted, List.reverse_append, List.reverse_cons, List.append_assoc,
        List.find?_append, hnone, Option.none_or, List.singleton_append, List.find?_cons,
        decide_eq_true rfl]
      rfl
    rw [hrun.lookup_eq] at hlookup
    exact List.mem_of_find?_eq_some hlookup

/-- Of two labels with one checksum the second takes the place of the first,
though both were accepted and there was a free slot. -/
theorem run_forgets_label :
    two.accepted [bigGato, brownDog] = [bigGato, brownDog] ∧ bigGato.text ≠ brownDog.text ∧
      (two.run [bigGato, brownDog]).used = [brownDog] := by
  decide +kernel

theorem run_keeps_labels_two :
    (∀ p s' slot q, (two.run [bigGato, brownDog]).upsert p = (.ok, s', slot) →
      (two.run [bigGato, brownDog]).used[slot.toNat]? = some q →
        stabilityCrc32c q.text = stabilityCrc32c p.text) ∧
    ∀ earlier p later, two.accepted [bigGato, brownDog] = earlier ++ p :: later →
      (∀ q ∈ later, stabilityCrc32c q.text ≠ stabilityCrc32c p.text) →
        p ∈ (two.run [bigGato, brownDog]).used :=
  run_keeps_labels (show init { slots := [], capacity := 0, count := 0 } 2 = (.ok, two) by rfl)
    [bigGato, brownDog]

end VisualStore

end Blake3.Visual
