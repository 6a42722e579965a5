import Blake3.Lib.CInt
import Blake3.Lib.Numeral
import Blake3.Pai.Manifest
import Blake3.Pai.Paths
import Mathlib.Data.List.GetD

/-!
Values written in a base: `base.c`. Up to base 62 every digit is a letter; above, a numeral is
a list of decimals in brackets.
-/

namespace Blake3.Pai.Base

open CInt

/-- The bytes of a string literal. -/
def text (s : String) : Str := s.toList.map fun c => c.toNat.toUInt8

def minus : Byte := 0x2d
def comma : Byte := 0x2c
def openBracket : Byte := 0x5b
def closeBracket : Byte := 0x5d

/-- `ALPHA62` -/
def alpha62 : Str := text "0123456789ABCDEFGHIJKLMNOPQRSTUVWXYZabcdefghijklmnopqrstuvwxyz"

/-- `ALPHA62[d]`; the zero that ends it may be read. -/
def alpha62At (d : UInt32) : Defined Byte :=
  match (alpha62 ++ [0])[d.toNat]? with
  | some c => .ok c
  | none => .error .outOfBounds

/-- `while (v && k < 256)`: the digits from place `k` on. -/
def toBaseLoop (base : UInt32) (v : UInt64) (k : ℕ) : List UInt32 :=
  if v ≠ 0 ∧ k < 256 then
    (v % base.toUInt64).toUInt32 :: toBaseLoop base (v / base.toUInt64) (k + 1)
  else []
termination_by 256 - k

/-- `to_base_vec_u64`: the first `*nd` of the digits, lowest first. -/
def toBaseVecU64 (v : UInt64) (base : UInt32) : List UInt32 :=
  if base < 2 then []
  else if v = 0 then [0]
  else toBaseLoop base v 0

/-- `(uint64_t)(neg ? -(value + 1) + 1 : value)` -/
def magnitude (value : Int64) : Defined UInt64 :=
  if value.toInt < 0 then do
    let x ← CInt.add 64 value.toInt 1
    let x ← CInt.neg 64 x
    let x ← CInt.add 64 x 1
    pure (UInt64.ofInt x)
  else pure (UInt64.ofInt value.toInt)

/-- `buf[p++] = c`, in a buffer of 512. -/
def put (buf : Str) (c : Byte) : Defined Str :=
  if buf.length < 512 then .ok (buf ++ [c]) else .error .outOfBounds

/-- `if (neg) buf[p++] = '-'`, with `p` zero. -/
def putSign (value : Int64) : Defined Str :=
  if value.toInt < 0 then put [] minus else .ok []

/-- The letters of the digits below place `i`, the highest first. -/
def putDigits (ds : List UInt32) : ℕ → Str → Defined Str
  | 0, buf => .ok buf
  | i + 1, buf => do
      let c ← alpha62At (ds.getD i 0)
      let buf ← put buf c
      putDigits ds i buf

/-- The digits below place `i` as decimals, the highest first. -/
def listDigits (ds : List UInt32) : ℕ → Str
  | 0 => []
  | i + 1 => digits (ds.getD i 0).toNat ++ ((if i ≠ 0 then [comma] else []) ++ listDigits ds i)

def header (base : UInt32) : Str := text "base " ++ (digits base.toNat ++ text ": ")

/-- `fmt_base`: what it writes to the file. -/
def fmtBase (value : Int64) (base : UInt32) : Defined Str :=
  if base < 2 then .ok (header base ++ text "[invalida]\n")
  else do
    let v ← magnitude value
    let ds := toBaseVecU64 v base
    if base ≤ 62 then do
      let buf ← putSign value
      let buf ← putDigits ds ds.length buf
      let buf ← put buf 0
      pure (header base ++ (buf.takeWhile (· ≠ 0) ++ [newline]))
    else
      pure (header base ++ ((if value.toInt < 0 then [minus] else []) ++
        openBracket :: (listDigits ds ds.length ++ [closeBracket, newline])))

/-! ### Digits -/

theorem not_lt_two {base : UInt32} (hbase : 2 ≤ base.toNat) : ¬base < 2 :=
  fun h => hbase.not_gt (UInt32.lt_iff_toNat_lt.mp h)

theorem toNat_digit {base : UInt32} (hbase : 0 < base.toNat) (v : UInt64) :
    (v % base.toUInt64).toUInt32.toNat = v.toNat % base.toNat := by
  have hlt := Nat.mod_lt v.toNat hbase
  have hword := base.toNat_lt
  rw [UInt64.toNat_toUInt32, UInt64.toNat_mod, UInt32.toNat_toUInt64]
  exact Nat.mod_eq_of_lt (by omega)

/-- A quotient has at least one bit less, so the bound of 256 is never met. -/
theorem map_toBaseLoop {base : UInt32} (hbase : 2 ≤ base.toNat) (v : UInt64) (k : ℕ)
    (hv : v.toNat < 2 ^ (256 - k)) :
    (toBaseLoop base v k).map UInt32.toNat = Nat.digits base.toNat v.toNat := by
  induction v, k using toBaseLoop.induct base with
  | case1 v k hrun ih =>
      obtain ⟨hne, hk⟩ := hrun
      have hpos : 0 < v.toNat := Nat.pos_of_ne_zero fun h => hne (UInt64.toNat_inj.mp h)
      have hquot : (v / base.toUInt64).toNat = v.toNat / base.toNat := by
        rw [UInt64.toNat_div, UInt32.toNat_toUInt64]
      have hhalf : v.toNat / base.toNat ≤ v.toNat / 2 := Nat.div_le_div_left hbase (by decide)
      have hpow : 2 ^ (256 - k) = 2 * 2 ^ (256 - (k + 1)) := by
        rw [show 256 - k = 256 - (k + 1) + 1 by omega, Nat.pow_succ, Nat.mul_comm]
      rw [toBaseLoop, if_pos ⟨hne, hk⟩, List.map_cons, toNat_digit (by omega), ih (by omega), hquot,
        ← Nat.digits_def' hbase hpos]
  | case2 v k hstop =>
      have hzero : v = 0 := by
        by_contra hne
        have hk : 256 ≤ k := by
          by_contra hlt
          exact hstop ⟨hne, by omega⟩
        rw [Nat.sub_eq_zero_of_le hk] at hv
        exact hne (UInt64.toNat_inj.mp (by simpa using hv))
      rw [toBaseLoop, if_neg hstop, hzero]
      exact (Nat.digits_zero _).symm

theorem map_toBaseVecU64 {base : UInt32} (hbase : 2 ≤ base.toNat) (v : UInt64) :
    (toBaseVecU64 v base).map UInt32.toNat = Numeral.digitsOf base.toNat v.toNat := by
  rw [toBaseVecU64, if_neg (not_lt_two hbase)]
  by_cases hv : v = 0
  · rw [if_pos hv, hv]
    exact (Numeral.digitsOf_zero _).symm
  · have hne : v.toNat ≠ 0 := fun h => hv (UInt64.toNat_inj.mp h)
    have hlt := v.toNat_lt
    rw [if_neg hv, map_toBaseLoop hbase v 0 (hlt.trans (by decide)),
      Numeral.digitsOf_of_ne_zero _ hne]

theorem length_toBaseVecU64_le {base : UInt32} (hbase : 2 ≤ base.toNat) (v : UInt64) :
    (toBaseVecU64 v base).length ≤ 64 := by
  have hpow : v.toNat < base.toNat ^ 64 := v.toNat_lt.trans_le (Nat.pow_le_pow_left hbase 64)
  rw [← List.length_map UInt32.toNat, map_toBaseVecU64 hbase]
  exact Numeral.length_digitsOf_le hbase (by decide) hpow

/-! ### The magnitude -/

/-- The least value is the only one whose magnitude is not a value. -/
theorem magnitude_eq {value : Int64} (h : value ≠ Int64.minValue) :
    ∃ v, magnitude value = .ok v ∧ v.toNat = value.toInt.natAbs := by
  have hlow := value.le_toInt
  have hhigh := value.toInt_lt
  have hmin : value.toInt ≠ -2 ^ 63 := fun heq => h (Int64.toInt_inj.mp heq)
  have hnat {x : ℤ} (hx : 0 ≤ x) (hlt : x < 2 ^ 63) : (UInt64.ofInt x).toNat = x.natAbs := by
    rw [UInt64.ofInt, UInt64.toNat_ofNat']
    omega
  rw [magnitude]
  split_ifs with hneg
  · rw [CInt.add_eq ⟨by omega, show value.toInt + 1 < 2 ^ 63 by omega⟩, CInt.ok_bind,
      CInt.neg_eq ⟨by omega, show -(value.toInt + 1) < 2 ^ 63 by omega⟩, CInt.ok_bind,
      CInt.add_eq ⟨by omega, show -(value.toInt + 1) + 1 < 2 ^ 63 by omega⟩, CInt.ok_bind]
    exact ⟨_, rfl, (hnat (by omega) (by omega)).trans (by omega)⟩
  · exact ⟨_, rfl, hnat (by omega) hhigh⟩

theorem magnitude_minValue : magnitude Int64.minValue = .error .overflow := by decide

/-! ### Texts -/

def letter (d : ℕ) : Byte := (alpha62 ++ [0]).getD d 0

/-- The ten digits, the capitals and the small letters. -/
theorem alpha62_eq : alpha62 =
    (List.range' 0x30 10 ++ (List.range' 0x41 26 ++ List.range' 0x61 26)).map Nat.toUInt8 := by
  decide

theorem length_alpha62 : alpha62.length = 62 := by
  rw [alpha62_eq, List.length_map]
  rfl

theorem nodup_alpha62 : alpha62.Nodup := by
  rw [alpha62_eq]
  decide

/-- A letter is no mark and does not end a string. -/
theorem plain_of_mem {c : Byte} (hc : c ∈ alpha62) : c ≠ 0 ∧ c ≠ minus ∧ c ≠ openBracket := by
  have hall : (alpha62.all fun c => c != 0 && (c != minus && c != openBracket)) = true := by
    rw [alpha62_eq]
    decide
  simpa using List.all_eq_true.mp hall c hc

theorem getElem?_alpha62 {d : ℕ} (h : d < 62) : alpha62[d]? = some (letter d) := by
  have hlt : d < alpha62.length := by rw [length_alpha62]; exact h
  rw [letter, List.getD_append _ _ _ _ hlt, List.getD_eq_getElem _ _ hlt,
    List.getElem?_eq_getElem hlt]

theorem idxOf_letter {d : ℕ} (h : d < 62) : alpha62.idxOf? (letter d) = some d :=
  Numeral.idxOf_getElem nodup_alpha62 (getElem?_alpha62 h)

theorem letter_mem {d : ℕ} (h : d < 62) : letter d ∈ alpha62 :=
  List.mem_of_getElem? (getElem?_alpha62 h)

theorem alpha62At_eq {d : UInt32} (h : d.toNat < 62) : alpha62At d = .ok (letter d.toNat) := by
  have hget : (alpha62 ++ [0])[d.toNat]? = some (letter d.toNat) := by
    rw [List.getElem?_append_left (by rw [length_alpha62]; exact h), getElem?_alpha62 h]
  simp only [alpha62At, hget]

/-- The letters of a list of digits, read from the end. -/
def letters (ds : List UInt32) : Str := (ds.map UInt32.toNat).reverse.map letter

theorem length_letters (ds : List UInt32) : (letters ds).length = ds.length := by
  rw [letters, List.length_map, List.length_reverse, List.length_map]

theorem take_succ {ds : List UInt32} {i : ℕ} (h : i < ds.length) :
    ds.take (i + 1) = ds.take i ++ [ds.getD i 0] := by
  rw [List.take_succ_eq_append_getElem h, List.getD_eq_getElem _ _ h]

theorem putDigits_eq {ds : List UInt32} (hds : ∀ d ∈ ds, d.toNat < 62) {i : ℕ} (hi : i ≤ ds.length)
    {buf : Str} (hbuf : buf.length + i ≤ 512) :
    putDigits ds i buf = .ok (buf ++ letters (ds.take i)) := by
  induction i generalizing buf with
  | zero => simp [putDigits, letters]
  | succ i ih =>
      have hd : (ds.getD i 0).toNat < 62 := by
        rw [List.getD_eq_getElem _ _ (by omega)]
        exact hds _ (List.getElem_mem _)
      have hput : put buf (letter (ds.getD i 0).toNat) =
          .ok (buf ++ [letter (ds.getD i 0).toNat]) := if_pos (by omega)
      rw [putDigits, alpha62At_eq hd, CInt.ok_bind, hput, CInt.ok_bind,
        ih (by omega) (by rw [List.length_append, List.length_singleton]; omega),
        take_succ (by omega)]
      simp [letters]

theorem listDigits_eq {ds : List UInt32} {i : ℕ} (hi : i ≤ ds.length) :
    listDigits ds i = [comma].intercalate (((ds.take i).map UInt32.toNat).reverse.map digits) := by
  induction i with
  | zero => rfl
  | succ i ih =>
      rw [listDigits, ih (by omega), take_succ (by omega), List.map_append, List.reverse_append,
        List.map_append]
      by_cases hzero : i = 0
      · subst hzero
        simp
      · rw [if_pos hzero]
        have hne : ((ds.take i).map UInt32.toNat).reverse.map digits ≠ [] := by
          intro hnil
          have hlength := congrArg List.length hnil
          simp only [List.length_map, List.length_reverse, List.length_take,
            List.length_nil] at hlength
          omega
        rw [← List.append_assoc]
        exact (List.intercalate_cons_of_ne_nil hne).symm

/-! ### Reading a numeral -/

/-- A numeral without its sign. -/
def readUnsigned (base : ℕ) (numeral : Str) : Option ℕ :=
  if numeral.head? = some openBracket then
    if numeral.getLast? = some closeBracket then
      Numeral.readList alpha62 comma base numeral.tail.dropLast
    else none
  else Numeral.read alpha62 base numeral

def readNumeral (base : ℕ) (numeral : Str) : Option ℤ :=
  if numeral.head? = some minus then (readUnsigned base numeral.tail).map fun n : ℕ => -(n : ℤ)
  else (readUnsigned base numeral).map fun n : ℕ => (n : ℤ)

theorem digits_eq_map (n : ℕ) : digits n = (Numeral.digitsOf 10 n).reverse.map letter := by
  rw [digits, Numeral.toDigits_eq (by decide), List.map_map]
  refine List.map_congr_left fun d hd => ?_
  have hten : ∀ d < 10, (Nat.digitChar d).toNat.toUInt8 = letter d := by
    unfold letter
    rw [alpha62_eq]
    decide
  exact hten d ((Numeral.canonical_digitsOf (by decide) n).lt d (List.mem_reverse.mp hd))

/-- Digits in a base that the alphabet has letters for. -/
theorem read_letters {base n : ℕ} {ds : List ℕ} (hbase : base ≤ 62)
    (h : Numeral.Canonical base n ds) :
    Numeral.read alpha62 base (ds.reverse.map letter) = some n := by
  rw [Numeral.read_map fun d hd => idxOf_letter
    ((h.lt d (List.mem_reverse.mp hd)).trans_le hbase), h.weigh]

theorem read_digits (n : ℕ) : Numeral.read alpha62 10 (digits n) = some n := by
  rw [digits_eq_map]
  exact read_letters (by decide) (Numeral.canonical_digitsOf (by decide) n)

theorem mem_letters {ds : List UInt32} (hds : ∀ d ∈ ds, d.toNat < 62) {c : Byte}
    (hc : c ∈ letters ds) : c ∈ alpha62 := by
  obtain ⟨n, hn, rfl⟩ := List.mem_map.mp hc
  obtain ⟨d, hd, rfl⟩ := List.mem_map.mp (List.mem_reverse.mp hn)
  exact letter_mem (hds d hd)

/-! ### What is printed -/

def sign (value : Int64) : Str := if value.toInt < 0 then [minus] else []

theorem putSign_eq (value : Int64) : putSign value = .ok (sign value) := by
  rw [putSign, sign]
  split_ifs <;> rfl

theorem length_sign_le (value : Int64) : (sign value).length ≤ 1 := by
  rw [sign]
  split_ifs
  · exact le_rfl
  · exact Nat.zero_le 1

/-- No letter is the zero that ends the string. -/
theorem ne_zero_of_mem {value : Int64} {ds : List UInt32} (hds : ∀ d ∈ ds, d.toNat < 62) {c : Byte}
    (hc : c ∈ sign value ++ letters ds) : c ≠ 0 := by
  rcases List.mem_append.mp hc with hc | hc
  · rw [sign] at hc
    split_ifs at hc
    · rw [List.mem_singleton.mp hc]
      decide
    · cases hc
  · exact (plain_of_mem (mem_letters hds hc)).1

/-- The numeral without its sign. -/
def unsigned (base : UInt32) (ds : List UInt32) : Str :=
  if base ≤ 62 then letters ds else openBracket :: (listDigits ds ds.length ++ [closeBracket])

section

variable {base : UInt32} {v : UInt64}

theorem canonical_toBaseVecU64 (hbase : 2 ≤ base.toNat) (v : UInt64) :
    Numeral.Canonical base.toNat v.toNat ((toBaseVecU64 v base).map UInt32.toNat) := by
  rw [map_toBaseVecU64 hbase]
  exact Numeral.canonical_digitsOf hbase v.toNat

theorem digit_lt (hbase : 2 ≤ base.toNat) {d : UInt32} (hd : d ∈ toBaseVecU64 v base) :
    d.toNat < base.toNat :=
  (canonical_toBaseVecU64 hbase v).lt d.toNat (List.mem_map_of_mem hd)

theorem fmtBase_eq {value : Int64} (hbase : 2 ≤ base.toNat) (hv : magnitude value = .ok v) :
    fmtBase value base =
      .ok (header base ++ (sign value ++ unsigned base (toBaseVecU64 v base) ++ [newline])) := by
  rw [fmtBase, if_neg (not_lt_two hbase), hv, CInt.ok_bind]
  by_cases hsmall : base ≤ 62
  · have hds : ∀ d ∈ toBaseVecU64 v base, d.toNat < 62 := fun d hd =>
      (digit_lt hbase hd).trans_le (UInt32.le_iff_toNat_le.mp hsmall)
    have hdigits := length_toBaseVecU64_le hbase v
    have hsign := length_sign_le value
    have hbuf : (sign value ++ letters (toBaseVecU64 v base)).length < 512 := by
      rw [List.length_append, length_letters]
      omega
    have hend : put (sign value ++ letters (toBaseVecU64 v base)) 0 =
        .ok (sign value ++ letters (toBaseVecU64 v base) ++ [0]) := if_pos hbuf
    rw [if_pos hsmall, putSign_eq, CInt.ok_bind, putDigits_eq hds le_rfl (by omega),
      List.take_length, CInt.ok_bind, hend, CInt.ok_bind,
      List.takeWhile_append_of_pos fun c hc => decide_eq_true (ne_zero_of_mem hds hc), unsigned,
      if_pos hsmall]
    refine congrArg Except.ok ?_
    simp
  · rw [if_neg hsmall, unsigned, if_neg hsmall, sign]
    refine congrArg Except.ok ?_
    simp

theorem readUnsigned_unsigned (hbase : 2 ≤ base.toNat) :
    (unsigned base (toBaseVecU64 v base)).head? ≠ some minus ∧
      readUnsigned base.toNat (unsigned base (toBaseVecU64 v base)) = some v.toNat := by
  have hcanonical := canonical_toBaseVecU64 hbase v
  by_cases hsmall : base ≤ 62
  · have hle : base.toNat ≤ 62 := UInt32.le_iff_toNat_le.mp hsmall
    have hds : ∀ d ∈ toBaseVecU64 v base, d.toNat < 62 := fun d hd =>
      (digit_lt hbase hd).trans_le hle
    have hhead {c : Byte} (h : (letters (toBaseVecU64 v base)).head? = some c) :
        c ≠ minus ∧ c ≠ openBracket :=
      (plain_of_mem (mem_letters hds (List.mem_of_mem_head? h))).2
    rw [unsigned, if_pos hsmall]
    refine ⟨fun h => (hhead h).1 rfl, ?_⟩
    rw [readUnsigned, if_neg fun h => (hhead h).2 rfl]
    exact read_letters hle hcanonical
  · have hcomma (n : ℕ) : comma ∉ digits n := fun h => absurd (mem_digits h) (by decide)
    have hlist {ds : List ℕ} (hne : ds ≠ []) : Numeral.readList alpha62 comma base.toNat
        ([comma].intercalate (ds.map digits)) = Numeral.weigh base.toNat ds :=
      Numeral.readList_intercalate (fun d _ => read_digits d) (fun d _ => hcomma d) hne
    rw [unsigned, if_neg hsmall]
    refine ⟨fun h => absurd (Option.some.inj h) (by decide), ?_⟩
    rw [readUnsigned, List.head?_cons, if_pos rfl,
      if_pos (by rw [← List.cons_append, List.getLast?_concat]),
      List.tail_cons, List.dropLast_concat, listDigits_eq le_rfl, List.take_length,
      hlist (fun h => hcanonical.ne_nil (List.reverse_eq_nil_iff.mp h)), hcanonical.weigh]

/-- Nothing is written of the least value: the magnitude overflows before. -/
theorem fmtBase_minValue (hbase : 2 ≤ base.toNat) :
    fmtBase Int64.minValue base = .error .overflow := by
  rw [fmtBase, if_neg (not_lt_two hbase), magnitude_minValue]
  rfl

end

/-- What is expected of a value in a base: nothing overflows, there are at most 64 digits with no
zero in front, and the numeral that is printed reads as the value. -/
def Exact (value : Int64) (base : UInt32) : Prop :=
  ∃ v out, magnitude value = .ok v ∧ fmtBase value base = .ok out ∧
    (toBaseVecU64 v base).length ≤ 64 ∧
    Numeral.Canonical base.toNat v.toNat ((toBaseVecU64 v base).map UInt32.toNat) ∧
    ∃ numeral, out = header base ++ (numeral ++ [newline]) ∧
      readNumeral base.toNat numeral = some value.toInt

/-- The way to the magnitude is not safe for the least value: `-(value + 1)` is the greatest one,
and one more overflows. Every other value is written exactly, in every base. -/
theorem exact_iff (value : Int64) (base : UInt32) (hbase : 2 ≤ base.toNat) :
    Exact value base ↔ value ≠ Int64.minValue := by
  constructor
  · rintro ⟨v, out, -, hout, -⟩ rfl
    rw [fmtBase_minValue hbase] at hout
    cases hout
  · intro hmin
    obtain ⟨v, hv, habs⟩ := magnitude_eq hmin
    obtain ⟨hminus, hread⟩ := @readUnsigned_unsigned base v hbase
    refine ⟨v, _, hv, fmtBase_eq hbase hv, length_toBaseVecU64_le hbase v,
      canonical_toBaseVecU64 hbase v, _, rfl, ?_⟩
    rw [sign]
    split_ifs with hneg
    · rw [readNumeral, List.singleton_append, List.head?_cons, if_pos rfl, List.tail_cons, hread,
        Option.map_some]
      exact congrArg some (by omega)
    · rw [readNumeral, List.nil_append, if_neg hminus, hread, Option.map_some]
      exact congrArg some (by omega)

theorem exact_hex : Exact (-255) 16 := (exact_iff (-255) 16 (by decide)).mpr (by decide)

theorem not_exact_minValue : ¬Exact Int64.minValue 10 := by
  rintro ⟨v, out, -, hout, -⟩
  rw [fmtBase_minValue (by decide)] at hout
  cases hout

end Blake3.Pai.Base
