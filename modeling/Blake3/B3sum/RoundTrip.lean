import Blake3.B3sum.CheckLine
import Mathlib.Data.Fintype.Basic
import Mathlib.Tactic.FinCases
import Mathlib.Tactic.SplitIfs

/-!
A line that was printed is read back to the path and the hash it was printed
for. The one exception is the tagged form of a path with two spaces in a row,
which is split at the spaces and gives an error.
-/

namespace Blake3.B3sum

@[simp] theorem bail_bind {α β : Type} (message : String) (k : α → Fallible β) :
    (bail message >>= k) = bail message := rfl

@[simp] theorem panicking_bind {α β : Type} (fault : Fault) (k : α → Fallible β) :
    (panicking fault >>= k) = panicking fault := rfl

theorem ensure_of {p : Prop} [Decidable p] (h : p) (message : String) :
    ensure p message = pure () := if_pos h

theorem ensure_of_not {p : Prop} [Decidable p] (h : ¬p) (message : String) :
    ensure p message = bail message := if_neg h

/-! ### Hex -/

theorem hexHalfByte_hexDigit (i : Fin 16) :
    hexHalfByte (hexDigits.get i) = pure (UInt8.ofNat i) := by
  fin_cases i <;> rfl

/-- Hex digits are none of the characters with a meaning in a line. -/
theorem hexDigit_plain : ∀ i : Fin 16, hexDigits.get i ≠ ' ' ∧ hexDigits.get i ≠ '\\' ∧
    hexDigits.get i ≠ ')' ∧ hexDigits.get i ≠ '\n' ∧ hexDigits.get i ≠ '\r' ∧
      (hexDigits.get i).utf8Size = 1 := by
  decide

theorem hexEncode_cons (b : Byte) (bytes : List Byte) :
    hexEncode (b :: bytes) =
      hexDigits.get (highDigit b) :: hexDigits.get (lowDigit b) :: hexEncode bytes := rfl

theorem hexEncode_append (a b : List Byte) : hexEncode (a ++ b) = hexEncode a ++ hexEncode b :=
  List.flatMap_append

theorem byteLen_hexEncode (bytes : List Byte) :
    Text.byteLen (hexEncode bytes) = 2 * bytes.length := by
  induction bytes with
  | nil => rfl
  | cons b bytes ih =>
      rw [hexEncode_cons, Text.byteLen_cons, Text.byteLen_cons, ih, List.length_cons,
        (hexDigit_plain _).2.2.2.2.2, (hexDigit_plain _).2.2.2.2.2]
      omega

/-- The characters of hex are hex digits. -/
theorem mem_hexEncode {c : Char} {bytes : List Byte} (h : c ∈ hexEncode bytes) :
    ∃ i : Fin 16, c = hexDigits.get i := by
  induction bytes with
  | nil => cases h
  | cons b bytes ih =>
      rw [hexEncode_cons, List.mem_cons, List.mem_cons] at h
      rcases h with rfl | rfl | h
      · exact ⟨_, rfl⟩
      · exact ⟨_, rfl⟩
      · exact ih h

theorem take_hexEncode (bytes : List Byte) (k : ℕ) :
    (hexEncode bytes).take (2 * k) = hexEncode (bytes.take k) := by
  induction k generalizing bytes with
  | zero => simp [hexEncode]
  | succ k ih =>
      cases bytes with
      | nil => simp [hexEncode]
      | cons b bytes =>
          rw [hexEncode_cons, Nat.mul_succ, List.take_succ_cons, List.take_succ_cons, ih,
            List.take_succ_cons, hexEncode_cons]

/-- The blocks of the output are encoded one after the other. -/
theorem writeHexOutput_eq (output : ℕ → Byte) (len : ℕ) :
    writeHexOutput output len = hexEncode ((List.range len).map output) := by
  induction len using Nat.strong_induction_on generalizing output with
  | _ len ih =>
    rw [writeHexOutput]
    split
    · next hzero =>
        subst hzero
        rfl
    · next hpos =>
        simp only [List.length_map, List.length_range]
        rw [ih _ (by omega), take_hexEncode, ← List.map_take, List.take_range, ← hexEncode_append]
        rcases Nat.le_total len 64 with hle | hle
        · simp [Nat.min_eq_left hle]
        · have hsplit : List.range len = List.range 64 ++ (List.range (len - 64)).map (64 + ·) := by
            rw [← List.range_add, Nat.add_sub_cancel' hle]
          rw [Nat.min_eq_right hle, Nat.min_self, hsplit, List.map_append, List.map_map]
          congr 2
          apply List.map_congr_left
          intro i _
          rw [Function.comp_apply, Nat.add_comm]

/-- Hex is decoded to the bytes it was encoded from. -/
theorem decodeHexPairs_hexEncode (bytes : List Byte) :
    decodeHexPairs bytes.length (hexEncode bytes) = pure bytes := by
  induction bytes with
  | nil => rfl
  | cons b bytes ih =>
      have hb := b.toNat_lt
      have hmul : mulU8 16 (UInt8.ofNat (highDigit b)) = pure (16 * UInt8.ofNat (highDigit b)) :=
        if_pos (by simp [highDigit]; omega)
      have hadd : addU8 (16 * UInt8.ofNat (highDigit b)) (UInt8.ofNat (lowDigit b)) = pure b := by
        have hsum : 16 * UInt8.ofNat (highDigit b) + UInt8.ofNat (lowDigit b) = b := by
          apply UInt8.toNat_inj.mp
          simp [highDigit, lowDigit]
          omega
        rw [addU8, if_pos (by simp [highDigit, lowDigit]; omega), hsum]
      rw [hexEncode_cons, List.length_cons, decodeHexPairs, hexHalfByte_hexDigit,
        hexHalfByte_hexDigit, ih]
      simp only [pure_bind, hmul, hadd]

theorem decodeHash_hexEncode (hash : CVBytes) :
    decodeHash (hexEncode hash.toList) = pure hash := by
  have hlen : hash.toList.length = 32 := by simp
  have hpairs := decodeHexPairs_hexEncode hash.toList
  rw [hlen] at hpairs
  have hvector : (Vector.ofFn fun i : Fin 32 => hash.toList.getD i 0) = hash := by
    apply Vector.ext
    intro i hi
    simp
  rw [decodeHash, ensure_of (by rw [byteLen_hexEncode, hlen]), pure_bind, hpairs, pure_bind,
    hvector]

/-! ### Escapes -/

/-- How a character of a path is printed. -/
def escapeChar (c : Char) : Str :=
  if c = '\\' then ['\\', '\\'] else if c = '\n' then ['\\', 'n']
  else if c = '\r' then ['\\', 'r'] else [c]

def escape (path : Str) : Str := path.flatMap escapeChar

@[simp] theorem escape_nil : escape [] = [] := rfl

@[simp] theorem escape_cons (c : Char) (path : Str) :
    escape (c :: path) = escapeChar c ++ escape path := rfl

theorem escapeChar_of_ne {c : Char} (h : ¬(c = '\\' ∨ c = '\n' ∨ c = '\r')) :
    escapeChar c = [c] := by
  rw [not_or, not_or] at h
  rw [escapeChar, if_neg h.1, if_neg h.2.1, if_neg h.2.2]

theorem escape_of_no_special {path : Str} (h : ∀ c ∈ path, ¬(c = '\\' ∨ c = '\n' ∨ c = '\r')) :
    escape path = path := by
  induction path with
  | nil => rfl
  | cons c path ih =>
      rw [escape_cons, escapeChar_of_ne (h c List.mem_cons_self),
        ih fun c hc => h c (List.mem_cons_of_mem _ hc)]
      rfl

/-- The three replacements one after the other are one pass over the path. -/
theorem replace_eq_escape (path : Str) :
    Text.replace '\r' ['\\', 'r'] (Text.replace '\n' ['\\', 'n']
      (Text.replace '\\' ['\\', '\\'] path)) = escape path := by
  simp only [Text.replace, escape, List.flatMap_assoc]
  congr 1
  funext c
  rw [escapeChar]
  split_ifs with h1 h2 h3
  · rfl
  · subst h2
    rfl
  · subst h3
    rfl
  · simp [h2, h3]

/-- The printed form of a path on a target that is not Windows. -/
theorem filepathToString_eq (path : Str) :
    filepathToString false path =
      { filepathString := escape path,
        isEscaped := path.any fun c => c = '\\' ∨ c = '\n' ∨ c = '\r' } := by
  unfold filepathToString
  simp only [Bool.false_eq_true, if_false]
  split
  · next h => rw [replace_eq_escape, h]
  · next h =>
      have hnone : ∀ c ∈ path, ¬(c = '\\' ∨ c = '\n' ∨ c = '\r') := by
        simpa using h
      rw [escape_of_no_special hnone]
      simp only [FilepathString.mk.injEq, true_and]
      simpa using h

@[simp] theorem slice_some {α : Type} (a : α) : slice (some a) = pure a := rfl

/-- What is recognised behind a backslash is of one byte. -/
theorem escapeSequence_cases (c : Char) :
    c.utf8Size = 1 ∨ escapeSequence c = bail "Invalid backslash escape" := by
  unfold escapeSequence
  split
  · exact .inl rfl
  · exact .inl rfl
  · exact .inl rfl
  · exact .inr rfl

/-- One escape sequence is taken off the front. -/
theorem unescapeLoop_step {before : Str} (h : '\\' ∉ before) (next : Char) (rest unescaped : Str) :
    unescapeLoop (before ++ '\\' :: next :: rest) unescaped =
      (escapeSequence next >>= fun piece => unescapeLoop rest (unescaped ++ before ++ piece)) := by
  have hlen : Text.byteLen (before ++ '\\' :: next :: rest) =
      Text.byteLen before + (1 + (next.utf8Size + Text.byteLen rest)) := by
    rw [Text.byteLen_append, Text.byteLen_cons, Text.byteLen_cons]
    rfl
  have hnext := next.utf8Size_pos
  have hsub : subUsize (Text.byteLen (before ++ '\\' :: next :: rest)) 1 =
      pure (Text.byteLen (before ++ '\\' :: next :: rest) - 1) := if_pos (by omega)
  have hfrom : Text.sliceFrom (before ++ '\\' :: next :: rest) (Text.byteLen before + 1) =
      some (next :: rest) := by
    have hslice := Text.sliceFrom_append (before ++ ['\\']) (next :: rest)
    rwa [List.append_assoc, Text.byteLen_append] at hslice
  rw [unescapeLoop, Text.find_append h]
  dsimp only
  rw [hsub, pure_bind, ensure_of (by omega), pure_bind, Text.sliceTo_append, slice_some, pure_bind,
    hfrom, slice_some, pure_bind]
  dsimp only
  rcases escapeSequence_cases next with hsize | hbail
  · have hrest : Text.sliceFrom (before ++ '\\' :: next :: rest) (Text.byteLen before + 2) =
        some rest := by
      have hslice := Text.sliceFrom_append (before ++ ['\\', next]) rest
      rw [List.append_assoc, Text.byteLen_append, Text.byteLen_cons, Text.byteLen_cons,
        hsize] at hslice
      exact hslice
    congr 1
    funext piece
    split
    · next hnone => simp [hrest] at hnone
    · next rest' hsome => rw [Option.some.inj (hrest.symm.trans hsome)]
  · rw [hbail]
    rfl

theorem unescapeLoop_plain {path : Str} (h : '\\' ∉ path) (unescaped : Str) :
    unescapeLoop path unescaped = pure (unescaped ++ path) := by
  rw [unescapeLoop, Text.find_of_not_mem h]

/-- Unescaping an escaped path, of which a piece without backslashes has been
passed. -/
theorem unescapeLoop_escape (path : Str) :
    ∀ before unescaped : Str, '\\' ∉ before →
      unescapeLoop (before ++ escape path) unescaped = pure (unescaped ++ before ++ path) := by
  induction path with
  | nil =>
      intro before unescaped h
      rw [escape_nil, List.append_nil, List.append_nil, unescapeLoop_plain h]
  | cons c path ih =>
      intro before unescaped h
      have hspecial : ∀ e, escapeChar c = ['\\', e] → escapeSequence e = pure [c] →
          unescapeLoop (before ++ escape (c :: path)) unescaped =
            pure (unescaped ++ before ++ c :: path) := by
        intro e hchar hsequence
        rw [escape_cons, hchar, List.cons_append, List.cons_append, List.nil_append,
          unescapeLoop_step h, hsequence, pure_bind]
        have hrest := ih [] (unescaped ++ before ++ [c]) (by simp)
        rwa [List.nil_append, List.append_nil, List.append_assoc _ [c]] at hrest
      by_cases hplain : c = '\\' ∨ c = '\n' ∨ c = '\r'
      · rcases hplain with rfl | rfl | rfl
        · exact hspecial '\\' rfl rfl
        · exact hspecial 'n' rfl rfl
        · exact hspecial 'r' rfl rfl
      · have hrest := ih (before ++ [c]) unescaped (by
          rw [List.mem_append, List.mem_singleton, not_or]
          exact ⟨h, fun heq => hplain (.inl heq.symm)⟩)
        rw [escape_cons, escapeChar_of_ne hplain, ← List.append_assoc, hrest]
        simp

/-- An escaped path is unescaped to itself. -/
theorem unescape_escape (path : Str) : unescape (escape path) = pure path :=
  unescapeLoop_escape path [] [] (by simp)

/-! ### The two forms of a line -/

/-- The bytes of the default output. -/
def hashOf (output : ℕ → Byte) : CVBytes := Vector.ofFn fun i => output i

def isSpecial (path : Str) : Bool := path.any fun c => c = '\\' ∨ c = '\n' ∨ c = '\r'

/-- The part of a line behind the backslash, without the newline. -/
def lineBody (tag : Bool) (path : Str) (output : ℕ → Byte) : Str :=
  if tag then
    "BLAKE3 (".toList ++ escape path ++ ") = ".toList ++ hexEncode (hashOf output).toList
  else hexEncode (hashOf output).toList ++ ("  ".toList ++ escape path)

/-- A line without its newline. -/
def checkLine (tag : Bool) (path : Str) (output : ℕ → Byte) : Str :=
  (if isSpecial path then ['\\'] else []) ++ lineBody tag path output

theorem writeHexOutput_hashOf (output : ℕ → Byte) :
    writeHexOutput output 32 = hexEncode (hashOf output).toList := by
  have hlist : (hashOf output).toList = (List.range 32).map output := by
    apply List.ext_getElem
    · simp
    · intro i hi hi'
      simp [hashOf]
  rw [writeHexOutput_eq, hlist]

theorem hashOneInput_eq (tag : Bool) (path : Str) (output : ℕ → Byte) :
    hashOneInput false { tag := tag } path output =
      .text (checkLine tag path output ++ ['\n']) := by
  cases tag <;>
    simp [hashOneInput, filepathToString_eq, writeHexOutput_hashOf, checkLine, lineBody, isSpecial]

theorem mem_escape {c : Char} {path : Str} (h : c ∈ escape path) : c ≠ '\n' ∧ c ≠ '\r' := by
  obtain ⟨d, -, hc⟩ := List.mem_flatMap.mp h
  rw [escapeChar] at hc
  split_ifs at hc with h1 h2 h3
  · simp at hc
    simp [hc]
  · simp at hc
    rcases hc with rfl | rfl <;> simp
  · simp at hc
    rcases hc with rfl | rfl <;> simp
  · obtain rfl := List.mem_singleton.mp hc
    exact ⟨h2, h3⟩

/-- There is no newline inside a line. -/
theorem mem_checkLine {tag : Bool} {path : Str} {output : ℕ → Byte} {c : Char}
    (h : c ∈ checkLine tag path output) : c ≠ '\n' ∧ c ≠ '\r' := by
  have hhex : ∀ bytes, c ∈ hexEncode bytes → c ≠ '\n' ∧ c ≠ '\r' := by
    intro bytes hc
    obtain ⟨i, rfl⟩ := mem_hexEncode hc
    exact ⟨(hexDigit_plain i).2.2.2.1, (hexDigit_plain i).2.2.2.2.1⟩
  rcases List.mem_append.mp h with h | h
  · split at h
    · obtain rfl := List.mem_singleton.mp h
      decide
    · cases h
  · cases tag with
    | false =>
        simp only [lineBody, Bool.false_eq_true, if_false, List.mem_append] at h
        rcases h with h | h | h
        · exact hhex _ h
        · exact (show ∀ c ∈ "  ".toList, c ≠ '\n' ∧ c ≠ '\r' by simp) c h
        · exact mem_escape h
    | true =>
        simp only [lineBody, if_true, List.mem_append] at h
        rcases h with ((h | h) | h) | h
        · exact (show ∀ c ∈ "BLAKE3 (".toList, c ≠ '\n' ∧ c ≠ '\r' by simp) c h
        · exact mem_escape h
        · exact (show ∀ c ∈ ") = ".toList, c ≠ '\n' ∧ c ≠ '\r' by simp) c h
        · exact hhex _ h

theorem trimNewlines_append {body newline : Str} (hbody : ∀ c ∈ body, c ≠ '\n' ∧ c ≠ '\r')
    (hnewline : ∀ c ∈ newline, c = '\r' ∨ c = '\n') : trimNewlines (body ++ newline) = body := by
  rw [trimNewlines, List.rdropWhile, List.reverse_append,
    List.dropWhile_append_of_pos (by simpa using hnewline)]
  refine List.rdropWhile_eq_self_iff.mpr fun hne => ?_
  have hlast := hbody _ (List.getLast_mem hne)
  simp [hlast]

theorem lineAfterSlash_backslash (rest : Str) :
    lineAfterSlash ('\\' :: rest) = pure (true, rest) := by
  have hslice : Text.sliceFrom ('\\' :: rest) 1 = some rest := Text.sliceFrom_append ['\\'] rest
  rw [lineAfterSlash, if_pos rfl, hslice]
  rfl

theorem lineAfterSlash_of_ne {c : Char} (hc : c ≠ '\\') (rest : Str) :
    lineAfterSlash (c :: rest) = pure (false, c :: rest) := if_neg hc

/-- The first character says whether the path is escaped. -/
theorem lineAfterSlash_append (isEscaped : Bool) {c : Char} (hc : c ≠ '\\') (rest : Str) :
    lineAfterSlash ((if isEscaped then ['\\'] else []) ++ c :: rest) =
      pure (isEscaped, c :: rest) := by
  cases isEscaped with
  | false => exact lineAfterSlash_of_ne hc rest
  | true => exact lineAfterSlash_backslash (c :: rest)

theorem lineAfterSlash_checkLine (tag : Bool) (path : Str) (output : ℕ → Byte) :
    lineAfterSlash (checkLine tag path output) =
      pure (isSpecial path, lineBody tag path output) := by
  have hhead : ∃ c rest, lineBody tag path output = c :: rest ∧ c ≠ '\\' := by
    cases tag with
    | true => exact ⟨'B', _, rfl, by decide⟩
    | false =>
        obtain ⟨b, bytes, hbytes⟩ := List.exists_cons_of_ne_nil
          (show (hashOf output).toList ≠ [] from List.ne_nil_of_length_pos (by simp))
        rw [lineBody, hbytes, hexEncode_cons]
        exact ⟨_, _, rfl, (hexDigit_plain _).2.1⟩
  obtain ⟨c, rest, hbody, hc⟩ := hhead
  rw [checkLine, hbody, lineAfterSlash_append _ hc]

/-! ### Reading a printed line -/

/-- Two spaces in a row. -/
def HasDoubleSpace (path : Str) : Prop := "  ".toList <:+: path

theorem doubleSpace_cons {c : Char} {path : Str} :
    HasDoubleSpace (c :: path) ↔ (c = ' ' ∧ path.head? = some ' ') ∨ HasDoubleSpace path := by
  rw [HasDoubleSpace, List.infix_cons_iff, HasDoubleSpace]
  apply or_congr_left
  cases path with
  | nil => simp
  | cons d path =>
      simp only [List.head?_cons, Option.some.injEq]
      constructor
      · rintro ⟨rest, hrest⟩
        injection hrest with h1 h2
        injection h2 with h2 h3
        exact ⟨h1.symm, h2.symm⟩
      · rintro ⟨rfl, rfl⟩
        exact ⟨path, rfl⟩

theorem head?_escape (path : Str) : (escape path).head? = some ' ' ↔ path.head? = some ' ' := by
  cases path with
  | nil => rfl
  | cons c path =>
      rw [escape_cons, escapeChar]
      split_ifs with h1 h2 h3 <;> simp [*]

/-- Escaping neither makes nor breaks two spaces in a row. -/
theorem doubleSpace_escape (path : Str) : HasDoubleSpace (escape path) ↔ HasDoubleSpace path := by
  induction path with
  | nil => rfl
  | cons c path ih =>
      have hspecial : ∀ e, e ≠ ' ' → c ≠ ' ' → escapeChar c = ['\\', e] →
          (HasDoubleSpace (escape (c :: path)) ↔ HasDoubleSpace (c :: path)) := by
        intro e he hc hchar
        rw [escape_cons, hchar, List.cons_append, List.cons_append, List.nil_append,
          doubleSpace_cons, doubleSpace_cons, doubleSpace_cons, ih]
        simp [he, hc]
      by_cases hplain : c = '\\' ∨ c = '\n' ∨ c = '\r'
      · rcases hplain with rfl | rfl | rfl
        · exact hspecial '\\' (by decide) (by decide) rfl
        · exact hspecial 'n' (by decide) (by decide) rfl
        · exact hspecial 'r' (by decide) (by decide) rfl
      · rw [escape_cons, escapeChar_of_ne hplain, List.singleton_append, doubleSpace_cons,
          doubleSpace_cons, head?_escape, ih]

theorem doubleSpace_append {a b : Str} {c : Char} (hc : c ≠ ' ') :
    HasDoubleSpace (a ++ c :: b) ↔ HasDoubleSpace a ∨ HasDoubleSpace b := by
  induction a with
  | nil =>
      rw [List.nil_append, doubleSpace_cons]
      have hnil : ¬HasDoubleSpace [] := by simp [HasDoubleSpace]
      simp [hc, hnil]
  | cons d a ih =>
      rw [List.cons_append, doubleSpace_cons, ih, doubleSpace_cons, or_assoc]
      cases a with
      | nil => simp [hc]
      | cons e a => simp

theorem not_doubleSpace_of_not_mem {text : Str} (h : ' ' ∉ text) : ¬HasDoubleSpace text := by
  rintro ⟨a, b, rfl⟩
  simp at h

theorem space_not_mem_hexEncode (bytes : List Byte) : ' ' ∉ hexEncode bytes := by
  intro hmem
  obtain ⟨i, hi⟩ := mem_hexEncode hmem
  exact (hexDigit_plain i).1 hi.symm

/-- A tagged line has two spaces in a row only inside its path. -/
theorem doubleSpace_lineBody (path : Str) (output : ℕ → Byte) :
    HasDoubleSpace (lineBody true path output) ↔ HasDoubleSpace path := by
  have hspace := space_not_mem_hexEncode (hashOf output).toList
  have hhead : ¬(hexEncode (hashOf output).toList).head? = some ' ' :=
    fun h => hspace (List.mem_of_head? h)
  have hbody : lineBody true path output = "BLAKE3 ".toList ++ '(' :: (escape path ++
      ')' :: (" ".toList ++ '=' :: ' ' :: hexEncode (hashOf output).toList)) := by
    simp [lineBody]
  have hstart : ¬HasDoubleSpace "BLAKE3 ".toList := by
    unfold HasDoubleSpace
    decide
  have hend : ¬HasDoubleSpace " ".toList := by
    unfold HasDoubleSpace
    decide
  rw [hbody, doubleSpace_append (by decide), doubleSpace_append (by decide),
    doubleSpace_append (by decide), doubleSpace_cons, doubleSpace_escape]
  simp only [hstart, hend, hhead, not_doubleSpace_of_not_mem hspace, and_false, or_false, false_or]

theorem splitCheckLine_untagged (path : Str) (output : ℕ → Byte) :
    splitCheckLine (lineBody false path output) =
      pure (hexEncode (hashOf output).toList, escape path) := by
  have hsplit : splitUntaggedCheckLine (lineBody false path output) =
      some (hexEncode (hashOf output).toList, escape path) :=
    Text.splitOnce_append (space_not_mem_hexEncode _) _
  rw [splitCheckLine, hsplit]

theorem splitTaggedCheckLine_append (rest : Str) :
    splitTaggedCheckLine ("BLAKE3 (".toList ++ rest) =
      pure (Text.rsplitOnce ") = ".toList rest) := by
  rw [splitTaggedCheckLine]
  simp only [List.prefix_append, not_true_eq_false, if_false]
  rw [Text.sliceFrom_append]
  rfl

theorem splitCheckLine_tagged {path : Str} (h : ¬HasDoubleSpace path) (output : ℕ → Byte) :
    splitCheckLine (lineBody true path output) =
      pure (hexEncode (hashOf output).toList, escape path) := by
  have huntagged : splitUntaggedCheckLine (lineBody true path output) = none :=
    Text.splitOnce_eq_none (mt (doubleSpace_lineBody path output).mp h)
  have hclose : ')' ∉ hexEncode (hashOf output).toList := by
    intro hmem
    obtain ⟨i, hi⟩ := mem_hexEncode hmem
    exact (hexDigit_plain i).2.2.1 hi.symm
  have htagged : splitTaggedCheckLine (lineBody true path output) =
      pure (some (escape path, hexEncode (hashOf output).toList)) := by
    rw [lineBody, if_pos rfl, List.append_assoc, List.append_assoc, splitTaggedCheckLine_append]
    exact congrArg pure (Text.rsplitOnce_append (by decide) hclose _)
  rw [splitCheckLine, huntagged]
  dsimp only
  rw [htagged]
  rfl

/-- What is in front of two spaces in a tagged line is not a hash. -/
theorem splitCheckLine_tagged_of_doubleSpace {path : Str} (h : HasDoubleSpace path)
    (output : ℕ → Byte) :
    ∃ hashHex fileStr,
      splitCheckLine (lineBody true path output) = pure ('B' :: hashHex, fileStr) := by
  obtain ⟨parts, hparts⟩ := Option.isSome_iff_exists.mp
    (Text.splitOnce_isSome ((doubleSpace_lineBody path output).mpr h))
  have hsplit := Text.splitOnce_some hparts
  have hsome : splitUntaggedCheckLine (lineBody true path output) = some parts := hparts
  obtain ⟨left, right⟩ := parts
  cases left with
  | nil => cases hsplit
  | cons c left =>
      obtain rfl : 'B' = c := (List.cons.inj hsplit).1
      refine ⟨left, right, ?_⟩
      rw [splitCheckLine, hsome]

theorem decodeHash_B (hashHex : Str) : ∃ message, decodeHash ('B' :: hashHex) = bail message := by
  by_cases hlen : Text.byteLen ('B' :: hashHex) = 2 * 32
  · cases hashHex with
    | nil => exact absurd hlen (by decide)
    | cons c hashHex =>
        refine ⟨"Invalid hex", ?_⟩
        rw [decodeHash, ensure_of hlen, pure_bind]
        rfl
  · exact ⟨"Invalid hash length", by rw [decodeHash, ensure_of_not hlen]; rfl⟩

/-! ### Paths -/

/-- What is read back from a printed path. -/
def parsedLine (path : Str) (output : ℕ → Byte) : ParsedCheckLine :=
  { fileString := escape path, isEscaped := isSpecial path, filePath := Utf8.encode path,
    expectedHash := hashOf output }

theorem unescape_printed (path : Str) :
    (if isSpecial path then unescape (escape path) else (pure (escape path) : Fallible Str)) =
      pure path := by
  split
  · exact unescape_escape path
  · next h =>
      rw [escape_of_no_special]
      simpa [isSpecial] using h

theorem checkedFilePath_escape (windows : Bool) (path : Str) :
    checkedFilePath windows (isSpecial path) (escape path) =
      (do
        ensure (path ≠ []) "empty file path"
        checkForInvalidCharacters windows path
        return path) := by
  rw [checkedFilePath, unescape_printed, pure_bind]

/-- A printed line is read back as far as its path is allowed. -/
theorem parseCheckLine_checkLine (tag : Bool) (path : Str) (output : ℕ → Byte) {newline : Str}
    (hnewline : ∀ c ∈ newline, c = '\r' ∨ c = '\n')
    (hspace : tag = true → ¬HasDoubleSpace path) :
    parseCheckLine false (checkLine tag path output ++ newline) =
      (do
        ensure (path ≠ []) "empty file path"
        checkForInvalidCharacters false path
        return parsedLine path output) := by
  have hsplit : splitCheckLine (lineBody tag path output) =
      pure (hexEncode (hashOf output).toList, escape path) := by
    cases tag with
    | false => exact splitCheckLine_untagged path output
    | true => exact splitCheckLine_tagged (hspace rfl) output
  rw [parseCheckLine, trimNewlines_append (fun c hc => mem_checkLine hc) hnewline,
    lineAfterSlash_checkLine, pure_bind]
  dsimp only
  rw [hsplit, pure_bind]
  dsimp only
  rw [decodeHash_hexEncode, pure_bind, checkedFilePath_escape]
  simp only [bind_assoc, pure_bind]
  rfl

theorem parseCheckLine_tagged_of_doubleSpace {path : Str} (h : HasDoubleSpace path)
    (output : ℕ → Byte) {newline : Str} (hnewline : ∀ c ∈ newline, c = '\r' ∨ c = '\n') :
    ∃ message, parseCheckLine false (checkLine true path output ++ newline) = bail message := by
  obtain ⟨hashHex, fileStr, hsplit⟩ := splitCheckLine_tagged_of_doubleSpace h output
  obtain ⟨message, hbail⟩ := decodeHash_B hashHex
  refine ⟨message, ?_⟩
  rw [parseCheckLine, trimNewlines_append (fun c hc => mem_checkLine hc) hnewline,
    lineAfterSlash_checkLine, pure_bind]
  dsimp only
  rw [hsplit, pure_bind]
  dsimp only
  rw [hbail, bail_bind]

theorem checkForInvalidCharacters_of {path : Str} (hnull : '\x00' ∉ path)
    (hreplacement : '\uFFFD' ∉ path) : checkForInvalidCharacters false path = pure () := by
  rw [checkForInvalidCharacters]
  simp only [hnull, hreplacement, Bool.false_eq_true, false_and, if_false]

theorem checkForInvalidCharacters_of_mem {path : Str}
    (h : '\x00' ∈ path ∨ '\uFFFD' ∈ path) :
    ∃ message, checkForInvalidCharacters false path = bail message := by
  rw [checkForInvalidCharacters]
  by_cases hnull : '\x00' ∈ path
  · exact ⟨"Null character in path", by rw [if_pos hnull]; rfl⟩
  · refine ⟨"Unicode replacement character in path", ?_⟩
    rw [if_neg hnull, if_pos (h.resolve_left hnull)]
    rfl

/-- A printed line without two spaces in a tagged path gives its path and hash. -/
theorem parseCheckLine_of_valid {tag : Bool} {path : Str} (hne : path ≠ []) (hnull : '\x00' ∉ path)
    (hreplacement : '\uFFFD' ∉ path) (hspace : tag = true → ¬HasDoubleSpace path)
    (output : ℕ → Byte) {newline : Str} (hnewline : ∀ c ∈ newline, c = '\r' ∨ c = '\n') :
    parseCheckLine false (checkLine tag path output ++ newline) =
      pure (parsedLine path output) := by
  rw [parseCheckLine_checkLine tag path output hnewline hspace, ensure_of hne, pure_bind,
    checkForInvalidCharacters_of hnull hreplacement, pure_bind]

theorem newline_only : ∀ c ∈ ['\n'], c = '\r' ∨ c = '\n' := by simp

/-- The line printed for the bytes of a path is an error or it gives back these
bytes and the hash. -/
theorem parseCheckLine_printed (tag : Bool) (path : List Byte) (output : ℕ → Byte) :
    ∃ line, hashOneInput false { tag := tag } (Utf8.decodeLossy path) output = .text line ∧
      ((∃ message, (parseCheckLine false line).run = .ok (.error message)) ∨
        ∃ parsed, (parseCheckLine false line).run = .ok (.ok parsed) ∧ parsed.filePath = path ∧
          parsed.expectedHash = hashOf output) := by
  refine ⟨_, hashOneInput_eq tag _ output, ?_⟩
  by_cases hspace : tag = true ∧ HasDoubleSpace (Utf8.decodeLossy path)
  · obtain ⟨rfl, hspace⟩ := hspace
    obtain ⟨message, hbail⟩ := parseCheckLine_tagged_of_doubleSpace hspace output newline_only
    exact .inl ⟨message, by rw [hbail]; rfl⟩
  · have hparse := parseCheckLine_checkLine tag (Utf8.decodeLossy path) output newline_only
      fun htag hdouble => hspace ⟨htag, hdouble⟩
    by_cases hne : Utf8.decodeLossy path ≠ []
    · by_cases hinvalid : '\x00' ∈ Utf8.decodeLossy path ∨ '\uFFFD' ∈ Utf8.decodeLossy path
      · obtain ⟨message, hbail⟩ := checkForInvalidCharacters_of_mem hinvalid
        exact .inl ⟨message, by rw [hparse, ensure_of hne, pure_bind, hbail]; rfl⟩
      · rw [not_or] at hinvalid
        refine .inr ⟨parsedLine (Utf8.decodeLossy path) output, ?_, ?_, rfl⟩
        · rw [hparse, ensure_of hne, pure_bind, checkForInvalidCharacters_of hinvalid.1 hinvalid.2]
          rfl
        · -- without a replacement character the path was UTF-8
          exact Utf8.encode_decodeLossy path hinvalid.2
    · exact .inl ⟨"empty file path", by rw [hparse, ensure_of_not hne]; rfl⟩

/-- An untagged line is one line, and it gives back its path and hash. -/
theorem parseCheckLine_untagged (path : Str) (hne : path ≠ []) (hnull : '\x00' ∉ path)
    (hreplacement : '\uFFFD' ∉ path) (output : ℕ → Byte) :
    (∃ line, hashOneInput false {} (Utf8.decodeLossy (Utf8.encode path)) output =
        .text (line ++ ['\n']) ∧ (∀ c ∈ line, c ≠ '\n' ∧ c ≠ '\r') ∧
      ∃ parsed, (parseCheckLine false (line ++ ['\n'])).run = .ok (.ok parsed) ∧
        parsed.filePath = Utf8.encode path ∧ parsed.expectedHash = hashOf output) ∧
      unescape (filepathToString false path).filepathString = pure path := by
  rw [Utf8.decodeLossy_encode, filepathToString_eq]
  refine ⟨⟨checkLine false path output, hashOneInput_eq false path output,
    fun c hc => mem_checkLine hc, parsedLine path output, ?_, rfl, rfl⟩, unescape_escape path⟩
  rw [parseCheckLine_of_valid hne hnull hreplacement (by simp) output newline_only]
  rfl

/-- A path with everything in it that has a meaning in a line. -/
theorem parseCheckLine_untagged_of_special :
    ∃ line, hashOneInput false {} (Utf8.decodeLossy (Utf8.encode " \\n\n  BLAKE3 () = \r ".toList))
        (fun _ => 0) = .text (line ++ ['\n']) ∧
      ∃ parsed, (parseCheckLine false (line ++ ['\n'])).run = .ok (.ok parsed) ∧
        parsed.filePath = Utf8.encode " \\n\n  BLAKE3 () = \r ".toList := by
  obtain ⟨⟨line, hline, -, parsed, hparsed, hpath, -⟩, -⟩ := parseCheckLine_untagged
    " \\n\n  BLAKE3 () = \r ".toList (by decide) (by decide) (by decide) fun _ => 0
  exact ⟨line, hline, parsed, hparsed, hpath⟩

/-- A tagged line gives back its path and hash if and only if the path does not
have two spaces in a row. -/
theorem parseCheckLine_tagged_iff (path : Str) (hne : path ≠ []) (hnull : '\x00' ∉ path)
    (hreplacement : '\uFFFD' ∉ path) (output : ℕ → Byte) :
    ∃ line, hashOneInput false { tag := true } (Utf8.decodeLossy (Utf8.encode path)) output =
        .text line ∧
      ((∃ parsed, (parseCheckLine false line).run = .ok (.ok parsed) ∧
        parsed.filePath = Utf8.encode path ∧ parsed.expectedHash = hashOf output) ↔
          ¬"  ".toList <:+: path) := by
  rw [Utf8.decodeLossy_encode]
  refine ⟨_, hashOneInput_eq true path output, ?_⟩
  constructor
  · rintro ⟨parsed, hparsed, -⟩ hspace
    obtain ⟨message, hbail⟩ := parseCheckLine_tagged_of_doubleSpace hspace output newline_only
    rw [hbail] at hparsed
    cases hparsed
  · intro hspace
    refine ⟨parsedLine path output, ?_, rfl, rfl⟩
    rw [parseCheckLine_of_valid hne hnull hreplacement (fun _ => hspace) output newline_only]
    rfl

theorem parseCheckLine_tagged_of_parentheses :
    ∃ line parsed, hashOneInput false { tag := true }
        (Utf8.decodeLossy (Utf8.encode "foo) = \\bar".toList)) (fun _ => 0) = .text line ∧
      (parseCheckLine false line).run = .ok (.ok parsed) := by
  obtain ⟨line, hline, hiff⟩ := parseCheckLine_tagged_iff "foo) = \\bar".toList (by decide)
    (by decide) (by decide) fun _ => 0
  obtain ⟨parsed, hparsed, -⟩ := hiff.mpr (by decide)
  exact ⟨line, parsed, hline, hparsed⟩

/-- The tagged line of the path `a  b` is split at its spaces. -/
theorem parseCheckLine_tagged_double_space :
    ∃ line message, hashOneInput false { tag := true }
        (Utf8.decodeLossy (Utf8.encode "a  b".toList)) (fun _ => 0) = .text line ∧
      (parseCheckLine false line).run = .ok (.error message) := by
  obtain ⟨message, hbail⟩ := parseCheckLine_tagged_of_doubleSpace
    (show HasDoubleSpace "a  b".toList from ⟨['a'], ['b'], rfl⟩) (fun _ => 0) newline_only
  refine ⟨_, message, ?_, by rw [hbail]; rfl⟩
  rw [Utf8.decodeLossy_encode, hashOneInput_eq]

end Blake3.B3sum
