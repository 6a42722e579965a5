import Blake3.Fc16.Tree
import Blake3.Lib.Buffer

/-!
Reading one directory. In whatever order and in whatever batches the kernel
returns it, the sorted table holds the names that are kept.
-/

namespace Blake3.Fc16.Adapter

open Buffer

/-! ### Strings -/

/-- `scmp` compares as the lists of the bytes do. -/
theorem scmp_pos_iff {a b : List Byte} (ha : ∀ x ∈ a, x ≠ 0) (hb : ∀ x ∈ b, x ≠ 0) :
    0 < scmp a b ↔ b < a := by
  induction a generalizing b with
  | nil =>
      cases b with
      | nil => simp [scmp]
      | cons y b => simp [scmp]
  | cons x a ih =>
      cases b with
      | nil =>
          have hx : 0 < x.toNat := by
            have := ha x List.mem_cons_self
            rw [Ne, ← UInt8.toNat_inj] at this
            exact Nat.pos_of_ne_zero this
          simp [scmp, hx]
      | cons y b =>
          rw [scmp, List.cons_lt_cons_iff]
          by_cases hxy : x = y
          · subst hxy
            rw [if_pos rfl, ih (fun z hz => ha z (List.mem_cons_of_mem _ hz))
              (fun z hz => hb z (List.mem_cons_of_mem _ hz))]
            simp
          · rw [if_neg hxy, UInt8.lt_iff_toNat_lt]
            have hyx : ¬y = x := fun h => hxy h.symm
            simp [hyx]

theorem scmp_eq_zero_iff {a b : List Byte} (ha : ∀ x ∈ a, x ≠ 0) (hb : ∀ x ∈ b, x ≠ 0) :
    scmp a b = 0 ↔ a = b := by
  induction a generalizing b with
  | nil =>
      cases b with
      | nil => simp [scmp]
      | cons y b =>
          have hy := hb y List.mem_cons_self
          rw [Ne, ← UInt8.toNat_inj] at hy
          simpa [scmp] using hy
  | cons x a ih =>
      cases b with
      | nil =>
          have hx := ha x List.mem_cons_self
          rw [Ne, ← UInt8.toNat_inj] at hx
          simpa [scmp] using hx
      | cons y b =>
          rw [scmp, List.cons.injEq]
          by_cases hxy : x = y
          · rw [if_pos hxy, ih (fun z hz => ha z (List.mem_cons_of_mem _ hz))
              (fun z hz => hb z (List.mem_cons_of_mem _ hz))]
            simp [hxy]
          · have hne : x.toNat ≠ y.toNat := mt UInt8.toNat_inj.mp hxy
            rw [if_neg hxy]
            simp only [hxy, false_and, iff_false]
            omega

theorem isGenerated_iff {cap : ℕ} (n : CString cap) :
    isGenerated n.bytes = true ↔ n.bytes ∈ generatedNames := by
  have hbin : ∀ x ∈ custodyBin, x ≠ 0 := by simp [custodyBin]
  have hzip : ∀ x ∈ custodyZip, x ≠ 0 := by simp [custodyZip]
  have hdigest : ∀ x ∈ custodyDigest, x ≠ 0 := by simp [custodyDigest]
  rw [isGenerated, decide_eq_true_eq, scmp_eq_zero_iff n.nul_free hbin,
    scmp_eq_zero_iff n.nul_free hzip, scmp_eq_zero_iff n.nul_free hdigest]
  simp [generatedNames]

theorem takeWhile_nul {a b : List Byte} (ha : ∀ x ∈ a, x ≠ 0) :
    (a ++ 0 :: b).takeWhile (· ≠ 0) = a := by
  rw [List.takeWhile_append_of_pos (by simpa using ha)]
  simp

theorem scopy_bytes (n : CString maxName) : scopy n.bytes = n := by
  apply CString.ext_bytes
  have hwhile : n.bytes.takeWhile (· ≠ 0) = n.bytes := by
    rw [List.takeWhile_eq_self_iff]
    simpa using n.nul_free
  change (n.bytes.takeWhile (· ≠ 0)).take (maxName - 1) = n.bytes
  rw [hwhile, List.take_of_length_le (Nat.le_sub_one_of_lt n.length_lt)]

/-! ### Sorting -/

/-- The first entries of a table, sorted. -/
theorem sortEntries_eq (e : Table) {n : ℕ} (h : n ≤ 128) :
    ∃ ys, (sortEntries e n).toList = ys ++ e.toList.drop n ∧ ys.Perm (e.toList.take n) ∧
      ys.Pairwise fun a b => a.name.bytes ≤ b.name.bytes := by
  have hgt : ∀ a b : ScanEntry, decide (0 < scmp a.name.bytes b.name.bytes) = true ↔
      b.name.bytes < a.name.bytes := by
    intro a b
    rw [decide_eq_true_eq, scmp_pos_iff a.name.nul_free b.name.nul_free]
  have horder : ∀ a b : ScanEntry,
      InPlaceSort.InOrder (fun a b => decide (0 < scmp a.name.bytes b.name.bytes)) a b ↔
        a.name.bytes ≤ b.name.bytes := by
    intro a b
    rw [InPlaceSort.InOrder, Bool.eq_false_iff, Ne, hgt]
    exact Iff.rfl
  have hasymm : ∀ a b : ScanEntry, decide (0 < scmp a.name.bytes b.name.bytes) = true →
      decide (0 < scmp b.name.bytes a.name.bytes) = false := by
    intro a b hab
    rw [Bool.eq_false_iff, Ne, hgt]
    exact List.lt_asymm ((hgt a b).mp hab)
  obtain ⟨ys, hys, hperm, hsorted⟩ := InPlaceSort.exists_sort hasymm
    (fun a b c hab hbc =>
      (horder a c).mpr (List.le_trans ((horder a b).mp hab) ((horder b c).mp hbc)))
    (l := e.toList) (n := n) (by rwa [Vector.length_toList])
  refine ⟨ys, ?_, hperm, hsorted.imp fun h => (horder _ _).mp h⟩
  rw [sortEntries, ← hys]
  rfl

/-- Sorted names are those of the sorted children. -/
theorem names_eq_byName {names : List (CString maxName)} {children : Children}
    (hperm : names.Perm (children.map Prod.fst))
    (hsorted : names.Pairwise fun a b => a.bytes ≤ b.bytes) :
    names = (byName children).map Prod.fst := by
  refine List.Perm.eq_of_pairwise (fun a b _ _ hab hba => ?_) hsorted ?_
    (hperm.trans ((List.mergeSort_perm children _).map Prod.fst).symm)
  · exact CString.ext_bytes (List.le_antisymm hab hba)
  · rw [List.pairwise_map]
    have htrans : ∀ a b c : CString maxName × Node, decide (a.1.bytes ≤ b.1.bytes) = true →
        decide (b.1.bytes ≤ c.1.bytes) = true → decide (a.1.bytes ≤ c.1.bytes) = true := by
      intro a b c hab hbc
      exact decide_eq_true (List.le_trans (of_decide_eq_true hab) (of_decide_eq_true hbc))
    have htotal : ∀ a b : CString maxName × Node,
        (decide (a.1.bytes ≤ b.1.bytes) || decide (b.1.bytes ≤ a.1.bytes)) = true := by
      intro a b
      simpa using List.le_total a.1.bytes b.1.bytes
    have h := List.pairwise_mergeSort htrans htotal children
    exact h.imp fun h => of_decide_eq_true h

/-! ### Records -/

theorem drop_of_drop {io head tail : List Byte} {off : ℕ} (h : io.drop off = head ++ tail) :
    io.drop (off + head.length) = tail := by
  rw [← List.drop_drop, h, List.drop_left]

theorem getD_of_drop {io tail : List Byte} {off : ℕ} (h : io.drop off = tail) (j : ℕ) :
    io.getD (off + j) 0 = tail.getD j 0 := by
  rw [List.getD_eq_getElem?_getD, List.getD_eq_getElem?_getD, ← List.getElem?_drop, h]

theorem Dirent.length_bytes (d : Dirent) : d.bytes.length = d.reclen := by
  simp [Dirent.bytes, Dirent.reclen, putU64]
  omega

/-- What is read of a record. -/
theorem reads_of_drop {io tail : List Byte} {off : ℕ} {d : Dirent}
    (h : io.drop off = d.bytes ++ tail) (hreclen : d.reclen < 65536) :
    reclenAt io off = d.reclen ∧ io.getD (off + 18) 0 = d.type ∧ nameAt io off = d.name.bytes := by
  obtain ⟨head, hhead⟩ : ∃ head, putU64 d.ino ++ putU64 d.off = head := ⟨_, rfl⟩
  have hlength : head.length = 16 := by simp [← hhead, putU64]
  have hfields :
      io.drop (off + 16) = UInt8.ofNat d.reclen :: UInt8.ofNat (d.reclen / 256) :: d.type ::
      (d.name.bytes ++ 0 :: (d.pad ++ tail)) := by
    rw [← hlength]
    apply drop_of_drop
    simp [h, Dirent.bytes, ← hhead]
  have hname : io.drop (off + 16 + 3) = d.name.bytes ++ 0 :: (d.pad ++ tail) :=
    @drop_of_drop _ [_, _, _] _ _ hfields
  refine ⟨?_, getD_of_drop hfields 2, ?_⟩
  · have hlow := getD_of_drop hfields 0
    have hhigh := getD_of_drop hfields 1
    rw [reclenAt]
    rw [Nat.add_zero] at hlow
    rw [hlow, hhigh, List.getD_cons_zero, List.getD_cons_succ, List.getD_cons_zero,
      UInt8.toNat_ofNat', UInt8.toNat_ofNat']
    omega
  · rw [nameAt, hname]
    exact takeWhile_nul d.name.nul_free

/-- What the table receives of some records. -/
def listed (ds : List Dirent) : List ScanEntry :=
  (ds.filter fun d => !isDot d.name.bytes && !isGenerated d.name.bytes).map fun d =>
    { type := d.type, name := d.name }

theorem listed_append (ds ds' : List Dirent) : listed (ds ++ ds') = listed ds ++ listed ds' := by
  rw [listed, List.filter_append, List.map_append]
  rfl

theorem toList_setIfInBounds {table : Table} {count : ℕ} (h : count < maxEntries)
    (item : ScanEntry) :
    (table.setIfInBounds count item).toList = overwrite table.toList count [item] := by
  rw [Vector.toList_setIfInBounds, set_eq_overwrite (by rwa [Vector.length_toList])]

/-- The records of a batch are added to the table. -/
theorem takeRecords_eq (ds : List Dirent) {io tail : List Byte} {n off : ℕ}
    (hio : io.drop off = ds.flatMap Dirent.bytes ++ tail)
    (hn : n = off + (ds.flatMap Dirent.bytes).length) (hle : n ≤ ioBytes) (table : Table)
    {count : ℕ} (hcount : count + (listed ds).length ≤ maxEntries) :
    ∃ table', takeRecords io n off table count = (.ok, table', count + (listed ds).length) ∧
      table'.toList = overwrite table.toList count (listed ds) := by
  induction ds generalizing off table count with
  | nil =>
      refine ⟨table, ?_, (overwrite_nil _ _).symm⟩
      rw [takeRecords, if_neg (by rw [hn]; exact Nat.lt_irrefl _)]
      rfl
  | cons d ds ih =>
      rw [List.flatMap_cons, List.append_assoc] at hio
      rw [List.flatMap_cons, List.length_append, Dirent.length_bytes] at hn
      have hpos : 20 ≤ d.reclen := by
        rw [Dirent.reclen]
        omega
      rw [ioBytes] at hle
      obtain ⟨hreclen, htype, hname⟩ := reads_of_drop hio (by omega)
      have hrest := drop_of_drop hio
      rw [Dirent.length_bytes] at hrest
      rw [takeRecords, if_pos (by omega), hreclen, htype, hname, if_neg (by omega), scopy_bytes]
      by_cases hlist : ¬isDot d.name.bytes ∧ ¬isGenerated d.name.bytes
      · have hcons : listed (d :: ds) = [{ type := d.type, name := d.name }] ++ listed ds := by
          rw [listed, List.filter_cons_of_pos (by simpa using hlist)]
          rfl
        rw [hcons, List.length_append, List.length_singleton, ← Nat.add_assoc] at hcount ⊢
        have hlt : count < maxEntries := by omega
        obtain ⟨table', htake, htable⟩ := ih hrest (by omega)
          (table.setIfInBounds count { type := d.type, name := d.name }) hcount
        refine ⟨table', ?_, ?_⟩
        · rw [if_pos hlist, if_neg (Nat.not_le_of_lt hlt), htake]
        · rw [htable, toList_setIfInBounds hlt, ← overwrite_overwrite]
          · rfl
          · rwa [Vector.length_toList]
      · have hcons : listed (d :: ds) = listed ds := by
          rw [listed, List.filter_cons_of_neg (by simpa using hlist)]
          rfl
        rw [hcons] at hcount ⊢
        rw [if_neg hlist]
        exact ih hrest (by omega) table hcount

/-! ### Batches -/

theorem toList_ioWrite (io : Vector Byte 16384) {bytes : List Byte} (h : bytes.length ≤ ioBytes) :
    (ioWrite io bytes).toList = overwrite io.toList 0 bytes := by
  rw [ioWrite, Vector.toList_ofFn]
  apply List.ext_getElem
  · rw [List.length_ofFn, length_overwrite (by rwa [Nat.zero_add, Vector.length_toList]),
      Vector.length_toList]
  · intro i hi hi'
    simp only [overwrite, List.take_zero, List.nil_append, Nat.zero_add]
    rw [List.getElem_ofFn, List.getElem_append]
    split
    · next hi => rw [List.getD_eq_getElem _ _ hi]
    · next hi =>
        rw [List.getD_eq_default _ _ (Nat.not_lt.mp hi), List.getElem_drop]
        simp [Vector.get, Nat.add_sub_cancel' (Nat.not_lt.mp hi)]

theorem take_ioWrite (io : Vector Byte 16384) {bytes : List Byte} (h : bytes.length ≤ ioBytes) :
    (ioWrite io bytes).toList.take bytes.length = bytes := by
  rw [toList_ioWrite io h, take_overwrite_zero]

/-- All batches are added to the table. -/
theorem takeBatches_eq (batches : List (List Dirent)) (hne : ∀ batch ∈ batches, batch ≠ [])
    (hle : ∀ batch ∈ batches, (batch.flatMap Dirent.bytes).length ≤ ioBytes)
    (io : Vector Byte 16384) (table : Table) {count : ℕ}
    (hcount : count + (listed batches.flatten).length ≤ maxEntries) :
    ∃ io' table', takeBatches false batches io table count =
        (.ok, io', table', count + (listed batches.flatten).length) ∧
      table'.toList = overwrite table.toList count (listed batches.flatten) := by
  induction batches generalizing io table count with
  | nil => exact ⟨io, table, rfl, (overwrite_nil _ _).symm⟩
  | cons batch batches ih =>
      rw [List.flatten_cons, listed_append, List.length_append, ← Nat.add_assoc] at hcount ⊢
      have hbatch := hle batch List.mem_cons_self
      have hstart : (ioWrite io (batch.flatMap Dirent.bytes)).toList.drop 0 =
          batch.flatMap Dirent.bytes ++
            io.toList.drop (0 + (batch.flatMap Dirent.bytes).length) := by
        rw [List.drop_zero, toList_ioWrite io hbatch, overwrite, List.take_zero, List.nil_append]
      obtain ⟨table₁, htake, htable₁⟩ :=
        takeRecords_eq batch hstart (Nat.zero_add _).symm hbatch table
        (Nat.le_of_add_right_le hcount)
      obtain ⟨io', table', hbatches, htable'⟩ := ih
        (fun b hb => hne b (List.mem_cons_of_mem _ hb))
        (fun b hb => hle b (List.mem_cons_of_mem _ hb))
        (ioWrite io (batch.flatMap Dirent.bytes)) table₁ hcount
      have hbytes : batch.flatMap Dirent.bytes ≠ [] := by
        obtain ⟨d, ds, rfl⟩ := List.exists_cons_of_ne_nil (hne batch List.mem_cons_self)
        rw [List.flatMap_cons, Ne, List.append_eq_nil_iff, ← List.length_eq_zero_iff,
          Dirent.length_bytes, Dirent.reclen]
        omega
      refine ⟨io', table', ?_, ?_⟩
      · rw [takeBatches, if_neg hbytes, htake]
        exact hbatches
      · rw [htable', htable₁, overwrite_overwrite]
        rw [Vector.length_toList]
        exact Nat.le_of_add_right_le hcount

/-! ### The table of a directory -/

theorem names_listed (ds : List Dirent) :
    (listed ds).map ScanEntry.name =
      ((ds.map Dirent.name).filter fun n => !isDot n.bytes).filter fun n =>
        n.bytes ∉ generatedNames := by
  have hgenerated :
      ∀ n : CString maxName, isGenerated n.bytes = decide (n.bytes ∈ generatedNames) :=
    fun n => Bool.eq_iff_iff.mpr ((isGenerated_iff n).trans decide_eq_true_iff.symm)
  rw [listed, List.map_map, List.filter_filter, List.filter_map]
  simp only [hgenerated, Function.comp_def, decide_not, Bool.and_comm]

theorem names_kept (children : Children) :
    (kept children).map Prod.fst =
      (children.map Prod.fst).filter fun n => n.bytes ∉ generatedNames := by
  rw [kept, List.filter_map]
  rfl

/-- A directory is read whole, and its table sorted by name. -/
theorem exists_table {k : Kernel} {path : List Byte} {children : Children}
    (hk : k.ServesDir path children) (hcount : (kept children).length ≤ maxEntries)
    (io : Vector Byte 16384) (table : Table) :
    ∃ io' table' items rest,
      takeBatches (k.getdentsFails path) (k.getdents path) io table 0 =
        (.ok, io', table', items.length) ∧
      (sortEntries table' items.length).toList = items ++ rest ∧
      items.map ScanEntry.name = (byName (kept children)).map Prod.fst ∧
      ∀ item ∈ items, ∃ d ∈ (k.getdents path).flatten, d.name = item.name ∧ d.type = item.type := by
  have hnames : ((listed (k.getdents path).flatten).map ScanEntry.name).Perm
      ((kept children).map Prod.fst) := by
    rw [names_listed, names_kept]
    exact hk.names.filter _
  have hlength : (listed (k.getdents path).flatten).length = (kept children).length := by
    have := hnames.length_eq
    rwa [List.length_map, List.length_map] at this
  have htotal : 0 + (listed (k.getdents path).flatten).length ≤ maxEntries := by
    rwa [Nat.zero_add, hlength]
  obtain ⟨io', table', htake, htable⟩ := takeBatches_eq _ hk.batch_ne hk.batch_le io table htotal
  obtain ⟨items, hitems, hperm, hsorted⟩ := sortEntries_eq table' (hlength ▸ hcount)
  rw [htable, take_overwrite_zero] at hperm
  rw [Nat.zero_add, ← hperm.length_eq] at htake
  rw [← hperm.length_eq] at hitems
  refine ⟨io', table', items, _, hk.ends ▸ htake, hitems, ?_, ?_⟩
  · exact names_eq_byName ((hperm.map _).trans hnames) (List.pairwise_map.mpr hsorted)
  · intro item hitem
    obtain ⟨d, hd, rfl⟩ := List.mem_map.mp (hperm.mem_iff.mp hitem)
    exact ⟨d, List.mem_of_mem_filter hd, rfl, rfl⟩

end Blake3.Fc16.Adapter
