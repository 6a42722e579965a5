import Blake3.Lib.Codec
import Blake3.Lib.Text
import Blake3.Words
import Mathlib.Data.Set.Function

/-!
The manifest of `pai scan`: the lines that `scan_dir_rec` prints and that
`manifest_line_update` hashes. Names are written as they are, between tabs and
newlines.
-/

namespace Blake3.Pai

def tab : Byte := 0x09
def newline : Byte := 0x0a

def hexDigits : List Byte := [
  0x30, 0x31, 0x32, 0x33, 0x34, 0x35, 0x36, 0x37, 0x38, 0x39, 0x61, 0x62, 0x63, 0x64, 0x65, 0x66]

def hexPair (b : Byte) : List Byte :=
  [hexDigits.getD (b >>> 4).toNat 0, hexDigits.getD (b &&& 0x0f).toNat 0]

def digestHex32 (digest : CVBytes) : List Byte := digest.toList.flatMap hexPair

/-- The digits of a number, as `printf` writes them. -/
def digits (n : ℕ) : List Byte := (Nat.toDigits 10 n).map fun c => c.toNat.toUInt8

/-- `%lld`. -/
def decimal (n : Int64) : List Byte :=
  if n.toInt < 0 then 0x2d :: digits n.toInt.natAbs else digits n.toInt.natAbs

structure Entry where
  path : List Byte
  size : Int64
  digest : CVBytes
  deriving DecidableEq

/-- `"%s\t%lld\t%s\n"`. -/
def line (e : Entry) : List Byte :=
  e.path ++ tab :: (decimal e.size ++ tab :: (digestHex32 e.digest ++ [newline]))

/-- The lines of a manifest below its header. -/
def manifest (entries : List Entry) : List Byte := entries.flatMap line

/-! ### Fields -/

theorem isDigit_of_mem {c : Char} {n : ℕ} (h : c ∈ Nat.toDigits 10 n) :
    48 ≤ c.toNat ∧ c.toNat ≤ 57 :=
  Char.isDigit_iff_toNat.mp (Nat.isDigit_of_mem_toDigits (by decide) (by decide) h)

theorem mem_digits {b : Byte} {n : ℕ} (h : b ∈ digits n) : 48 ≤ b.toNat ∧ b.toNat ≤ 57 := by
  obtain ⟨c, hc, rfl⟩ := List.mem_map.mp h
  have hdigit := isDigit_of_mem hc
  rw [Nat.toUInt8_eq, UInt8.toNat_ofNat_of_lt' (lt_of_le_of_lt hdigit.2 (by decide))]
  exact hdigit

/-- The characters behind the digits. -/
theorem map_digits (n : ℕ) :
    (digits n).map (fun b => Char.ofNat b.toNat) = Nat.toDigits 10 n := by
  rw [digits, List.map_map]
  conv_rhs => rw [← List.map_id (Nat.toDigits 10 n)]
  refine List.map_congr_left fun c hc => ?_
  have hlt : c.toNat < 256 := by have := isDigit_of_mem hc; omega
  rw [Function.comp_apply, Nat.toUInt8_eq, UInt8.toNat_ofNat_of_lt' hlt, Char.ofNat_toNat, id]

theorem digits_inj {m n : ℕ} (h : digits m = digits n) : m = n := by
  have hchars : Nat.toDigits 10 m = Nat.toDigits 10 n := by rw [← map_digits, h, map_digits]
  rw [← Nat.ofDigitChars_ten_toDigits (n := m), hchars, Nat.ofDigitChars_ten_toDigits]

theorem mem_decimal {b : Byte} {n : Int64} (h : b ∈ decimal n) : b ≠ tab ∧ b ≠ newline := by
  have hdigit : b ∈ digits n.toInt.natAbs → b ≠ tab ∧ b ≠ newline := by
    intro hb
    have hrange := mem_digits hb
    constructor <;> rintro rfl <;> exact absurd hrange (by decide)
  rw [decimal] at h
  split at h
  · rcases List.mem_cons.mp h with rfl | hb
    · decide
    · exact hdigit hb
  · exact hdigit h

theorem decimal_inj {m n : Int64} (h : decimal m = decimal n) : m = n := by
  have hminus (k : ℕ) : (0x2d : Byte) ∉ digits k := fun hmem => absurd (mem_digits hmem) (by decide)
  apply Int64.toInt_inj.mp
  rw [decimal, decimal] at h
  split at h
  · next hm =>
      split at h
      · have habs := digits_inj (List.cons.inj h).2
        omega
      · exact absurd (h ▸ List.mem_cons_self) (hminus n.toInt.natAbs)
  · next hm =>
      split at h
      · exact absurd (h.symm ▸ List.mem_cons_self) (hminus m.toInt.natAbs)
      · have habs := digits_inj h
        omega

theorem getD_hexDigits_inj : ∀ i j : Fin 16,
    hexDigits.getD i.val 0 = hexDigits.getD j.val 0 → i = j := by decide

theorem getD_hexDigits_plain : ∀ i : Fin 16,
    hexDigits.getD i.val 0 ≠ tab ∧ hexDigits.getD i.val 0 ≠ newline := by decide

theorem toNat_shiftRight_four (b : Byte) : (b >>> 4).toNat = b.toNat / 16 := by
  rw [UInt8.toNat_shiftRight, Nat.shiftRight_eq_div_pow]
  rfl

theorem toNat_and_fifteen (b : Byte) : (b &&& 0x0f).toNat = b.toNat % 16 := by
  rw [UInt8.toNat_and]
  exact Nat.and_two_pow_sub_one_eq_mod _ 4

theorem hexPair_inj (a b : Byte) (h : hexPair a = hexPair b) : a = b := by
  have ha := a.toNat_lt
  have hb := b.toNat_lt
  obtain ⟨hhigh, hlow⟩ := List.cons.inj h
  rw [toNat_shiftRight_four, toNat_shiftRight_four] at hhigh
  rw [toNat_and_fifteen, toNat_and_fifteen] at hlow
  have hdiv :=
    Fin.mk.inj (getD_hexDigits_inj ⟨a.toNat / 16, by omega⟩ ⟨b.toNat / 16, by omega⟩ hhigh)
  have hmod := Fin.mk.inj (getD_hexDigits_inj ⟨a.toNat % 16, by omega⟩ ⟨b.toNat % 16, by omega⟩
    (List.singleton_inj.mp hlow))
  apply UInt8.toNat_inj.mp
  omega

theorem digestHex32_inj {a b : CVBytes} (h : digestHex32 a = digestHex32 b) : a = b := by
  apply Vector.toList_inj.mp
  refine Codec.flatMap_inj (k := 2) (fun _ => rfl) hexPair_inj ?_ h
  rw [a.length_toList, b.length_toList]

theorem mem_digestHex32 {b : Byte} {digest : CVBytes} (h : b ∈ digestHex32 digest) :
    b ≠ tab ∧ b ≠ newline := by
  obtain ⟨x, -, hb⟩ := List.mem_flatMap.mp h
  have hx := x.toNat_lt
  rcases List.mem_cons.mp hb with rfl | hb
  · rw [toNat_shiftRight_four]
    exact getD_hexDigits_plain ⟨x.toNat / 16, by omega⟩
  · rw [List.mem_singleton.mp hb, toNat_and_fifteen]
    exact getD_hexDigits_plain ⟨x.toNat % 16, by omega⟩

/-! ### Lines -/

/-- A line without its newline. -/
def fields (e : Entry) : List Byte :=
  e.path ++ tab :: (decimal e.size ++ tab :: digestHex32 e.digest)

theorem line_eq (e : Entry) : line e = fields e ++ [newline] := by
  simp [line, fields]

/-- The tabs that matter are the last two, whatever the name has. -/
theorem fields_inj {a b : Entry} (h : fields a = fields b) : a = b := by
  have hassoc (e : Entry) :
      fields e = (e.path ++ tab :: decimal e.size) ++ tab :: digestHex32 e.digest := by
    simp [fields]
  have hhex (d : CVBytes) : tab ∉ digestHex32 d := fun hmem => (mem_digestHex32 hmem).1 rfl
  have hsize (n : Int64) : tab ∉ decimal n := fun hmem => (mem_decimal hmem).1 rfl
  rw [hassoc, hassoc] at h
  obtain ⟨hfront, hdigest⟩ := Text.append_cons_inj_right (hhex _) (hhex _) h
  obtain ⟨hpath, hdecimal⟩ := Text.append_cons_inj_right (hsize _) (hsize _) hfront
  obtain ⟨path, size, digest⟩ := a
  obtain ⟨path', size', digest'⟩ := b
  obtain rfl : path = path' := hpath
  obtain rfl : size = size' := decimal_inj hdecimal
  obtain rfl : digest = digest' := digestHex32_inj hdigest
  rfl

theorem newline_not_mem_fields {e : Entry} (h : newline ∉ e.path) : newline ∉ fields e := by
  simp only [fields, List.mem_append, List.mem_cons, not_or]
  have htab : newline ≠ tab := by decide
  exact ⟨h, htab, fun hmem => (mem_decimal hmem).2 rfl, htab,
    fun hmem => (mem_digestHex32 hmem).2 rfl⟩

theorem manifest_inj {as bs : List Entry} (ha : ∀ e ∈ as, newline ∉ e.path)
    (hb : ∀ e ∈ bs, newline ∉ e.path) (h : manifest as = manifest bs) : as = bs := by
  have hline : line = fun e => fields e ++ [newline] := funext line_eq
  rw [manifest, manifest, hline] at h
  exact Text.flatMap_terminated_inj (fun e he => newline_not_mem_fields (ha e he))
    (fun e he => newline_not_mem_fields (hb e he)) (fun _ _ _ _ => fields_inj) h

/-! ### Roots -/

structure File where
  path : List Byte
  content : List Byte

/-- What a scan lists of a file. -/
def listed (digest : List Byte → CVBytes) (f : File) : Entry :=
  ⟨f.path, Int64.ofNat f.content.length, digest f.content⟩

def root (digest : List Byte → CVBytes) (files : List File) : CVBytes :=
  digest (manifest (files.map (listed digest)))

/-- What is hashed for a root: the files and the lines. -/
def hashed (digest : List Byte → CVBytes) (files : List File) : Set (List Byte) :=
  {manifest (files.map (listed digest))} ∪ {bytes | ∃ f ∈ files, f.content = bytes}

/-- Files listed alike are the same files, where the digest tells their contents apart. -/
theorem map_listed_inj {digest : List Byte → CVBytes} {fs gs : List File}
    (hinj : ∀ f ∈ fs, ∀ g ∈ gs, digest f.content = digest g.content → f.content = g.content)
    (h : fs.map (listed digest) = gs.map (listed digest)) : fs = gs := by
  induction fs generalizing gs with
  | nil => exact (List.map_eq_nil_iff.mp h.symm).symm
  | cons f fs ih =>
      cases gs with
      | nil => cases h
      | cons g gs =>
          obtain ⟨hhead, htail⟩ := List.cons.inj h
          obtain ⟨hpath, -, hdigest⟩ := Entry.mk.inj hhead
          have hcontent := hinj f List.mem_cons_self g List.mem_cons_self hdigest
          obtain ⟨path, content⟩ := f
          obtain ⟨path', content'⟩ := g
          obtain rfl : path = path' := hpath
          obtain rfl : content = content' := hcontent
          rw [ih (fun f hf g hg => hinj f (List.mem_cons_of_mem _ hf) g (List.mem_cons_of_mem _ hg))
            htail]

/-- Manifests of names without newlines are told apart, and so are roots where the digest
tells apart what is hashed. -/
theorem manifest_unambiguous :
    (∀ as bs : List Entry, (∀ e ∈ as ++ bs, newline ∉ e.path) → manifest as = manifest bs →
      as = bs) ∧
    ∀ (digest : List Byte → CVBytes) (fs gs : List File), (∀ f ∈ fs ++ gs, newline ∉ f.path) →
      Set.InjOn digest (hashed digest fs ∪ hashed digest gs) → root digest fs = root digest gs →
      fs = gs := by
  refine ⟨fun as bs hplain h => ?_, fun digest fs gs hplain hinj h => ?_⟩
  · exact manifest_inj (fun e he => hplain e (List.mem_append_left _ he))
      (fun e he => hplain e (List.mem_append_right _ he)) h
  · have hlines := hinj (Or.inl (Or.inl rfl)) (Or.inr (Or.inl rfl)) h
    have hfs : ∀ e ∈ fs.map (listed digest), newline ∉ e.path :=
      List.forall_mem_map.mpr fun f hf => hplain f (List.mem_append_left _ hf)
    have hgs : ∀ e ∈ gs.map (listed digest), newline ∉ e.path :=
      List.forall_mem_map.mpr fun f hf => hplain f (List.mem_append_right _ hf)
    refine map_listed_inj (fun f hf g hg hdigest => ?_) (manifest_inj hfs hgs hlines)
    exact hinj (Or.inl (Or.inr ⟨f, hf, rfl⟩)) (Or.inr (Or.inr ⟨g, hg, rfl⟩)) hdigest

/-- A digest that tells apart what differs in length. -/
def lengthDigest (bytes : List Byte) : CVBytes := Vector.replicate 32 bytes.length.toUInt8

/-- Two files, one with a tab in its name: their lines are read back, and are others in
another order. -/
theorem manifest_unambiguous_tab :
    let a : Entry := ⟨[0x61, tab, 0x31], 1, Vector.replicate 32 0⟩
    let b : Entry := ⟨[0x62], 2, Vector.replicate 32 5⟩
    let files : List File := [⟨[0x61, tab, 0x31], [7]⟩, ⟨[0x62], [7, 8]⟩]
    [a, b] = [⟨[0x61] ++ [tab, 0x31], 1, Vector.replicate 32 0⟩, b] ∧
      manifest [a, b] ≠ manifest [b, a] ∧
      files = [⟨[0x61] ++ [tab, 0x31], [7]⟩, ⟨[0x62], [7] ++ [8]⟩] := by
  intro a b files
  have hcases : ∀ x ∈ hashed lengthDigest files,
      x = manifest (files.map (listed lengthDigest)) ∨ x = [7] ∨ x = [7, 8] := by
    rintro x (h | ⟨f, hf, h⟩)
    · exact .inl h
    · rcases List.mem_pair.mp hf with rfl | rfl
      · exact .inr (.inl h.symm)
      · exact .inr (.inr h.symm)
  have hinj : Set.InjOn lengthDigest (hashed lengthDigest files ∪ hashed lengthDigest files) := by
    rw [Set.union_self]
    intro x hx y hy hxy
    rcases hcases x hx with rfl | rfl | rfl <;> rcases hcases y hy with rfl | rfl | rfl
    all_goals first | rfl | exact absurd hxy (by decide +kernel)
  refine ⟨manifest_unambiguous.1 _ _ (by decide) rfl, fun h => ?_,
    manifest_unambiguous.2 lengthDigest files files (by decide) hinj rfl⟩
  exact absurd (manifest_unambiguous.1 [a, b] [b, a] (by decide) h) (by decide)

/-- A name can hold a whole line: it then reads as two files. -/
theorem line_of_line (a b : Entry) :
    line { b with path := line a ++ b.path } = line a ++ line b := by
  simp [line]

/-- The list of a file whose name holds a line, and the list of two files. -/
theorem manifest_ambiguous :
    ∃ as bs : List Entry,
      (∀ e ∈ as ++ bs, e.path ≠ [] ∧ e.path.length ≤ 255 ∧ (0x00 : Byte) ∉ e.path ∧
        (0x2f : Byte) ∉ e.path) ∧
      manifest as = manifest bs ∧ as ≠ bs := by
  refine ⟨[⟨line ⟨[0x61], 1, Vector.replicate 32 0⟩ ++ [0x62], 2, Vector.replicate 32 0⟩],
    [⟨[0x61], 1, Vector.replicate 32 0⟩, ⟨[0x62], 2, Vector.replicate 32 0⟩], by decide, ?_,
    by decide⟩
  have hline := line_of_line ⟨[0x61], 1, Vector.replicate 32 0⟩
    ⟨[0x62], 2, Vector.replicate 32 0⟩
  simpa [manifest] using hline

end Blake3.Pai
