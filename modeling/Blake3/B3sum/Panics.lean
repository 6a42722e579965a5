import Blake3.B3sum.RoundTrip

/-!
When `parse_check_line` panics. The length of the hash is checked in bytes and
its characters are taken in pairs, so a hash of digits with a last character of
two or four bytes leaves the last pair without its second character. Nothing
else panics, whatever the line.
-/

namespace Blake3.B3sum

/-- The computation ends with a value or an error. -/
def Returns {α : Type} (x : Fallible α) : Prop := ∃ r, x.run = .ok r

theorem returns_pure {α : Type} (a : α) : Returns (pure a : Fallible α) := ⟨.ok a, rfl⟩

theorem returns_bail {α : Type} (message : String) : Returns (bail message : Fallible α) :=
  ⟨.error message, rfl⟩

theorem not_returns_panicking {α : Type} (fault : Fault) :
    ¬Returns (panicking fault : Fallible α) := by
  rintro ⟨r, hr⟩
  cases hr

/-- What returns is a value or an error. -/
theorem Returns.cases {α : Type} {x : Fallible α} (h : Returns x) :
    (∃ a, x = pure a) ∨ ∃ message, x = bail message := by
  obtain ⟨r, hr⟩ := h
  cases r with
  | ok a => exact .inl ⟨a, hr⟩
  | error message => exact .inr ⟨message, hr⟩

theorem Returns.bind {α β : Type} {x : Fallible α} {k : α → Fallible β} (hx : Returns x)
    (hk : ∀ a, x = pure a → Returns (k a)) : Returns (x >>= k) := by
  rcases hx.cases with ⟨a, rfl⟩ | ⟨message, rfl⟩
  · rw [pure_bind]
    exact hk a rfl
  · exact returns_bail message

theorem Returns.of_bind {α β : Type} {x : Fallible α} {k : α → Fallible β} (h : Returns (x >>= k)) :
    Returns x := by
  rcases hx : x.run with fault | r
  · obtain rfl : x = panicking fault := hx
    exact absurd h (not_returns_panicking fault)
  · exact ⟨r, hx⟩

theorem returns_ensure (p : Prop) [Decidable p] (message : String) :
    Returns (ensure p message) := by
  rw [ensure]
  split
  · exact returns_pure ()
  · exact returns_bail message

/-! ### Hex -/

/-- The lowercase hex digits. -/
def IsHex (c : Char) : Prop := ('0' ≤ c ∧ c ≤ '9') ∨ ('a' ≤ c ∧ c ≤ 'f')

theorem isHex_iff {c : Char} :
    IsHex c ↔ (48 ≤ c.toNat ∧ c.toNat ≤ 57) ∨ (97 ≤ c.toNat ∧ c.toNat ≤ 102) := Iff.rfl

theorem subU8_ofNat {m n : ℕ} (hle : n ≤ m) (hm : m < 256) :
    subU8 (UInt8.ofNat m) (UInt8.ofNat n) = pure (UInt8.ofNat (m - n)) := by
  have hsub : UInt8.ofNat m - UInt8.ofNat n = UInt8.ofNat (m - n) := (UInt8.ofNat_sub hle).symm
  rw [subU8, if_pos, hsub]
  rw [UInt8.le_iff_toNat_le, Utf8.toNat_ofNat_of_lt hm, Utf8.toNat_ofNat_of_lt (by omega)]
  exact hle

theorem hexHalfByte_of_isHex {c : Char} (h : IsHex c) :
    ∃ v : Byte, v.toNat < 16 ∧ hexHalfByte c = pure v := by
  by_cases hdigit : '0' ≤ c ∧ c ≤ '9'
  · have hrange : 48 ≤ c.toNat ∧ c.toNat ≤ 57 := hdigit
    refine ⟨UInt8.ofNat (c.toNat - 48), ?_, ?_⟩
    · rw [Utf8.toNat_ofNat_of_lt (by omega)]
      omega
    · rw [hexHalfByte]
      simp only [hdigit, and_self, if_true]
      rw [show '0'.toNat = 48 from rfl, subU8_ofNat hrange.1 (by omega)]
  · have hletter := h.resolve_left hdigit
    have hrange : 97 ≤ c.toNat ∧ c.toNat ≤ 102 := hletter
    have hten : addU8 (UInt8.ofNat (c.toNat - 97)) 10 = pure (UInt8.ofNat (c.toNat - 97) + 10) := by
      apply if_pos
      rw [Utf8.toNat_ofNat_of_lt (by omega), show (10 : UInt8).toNat = 10 from rfl]
      omega
    refine ⟨UInt8.ofNat (c.toNat - 97) + 10, ?_, ?_⟩
    · rw [UInt8.toNat_add, Utf8.toNat_ofNat_of_lt (by omega), show (10 : UInt8).toNat = 10 from rfl]
      omega
    · rw [hexHalfByte]
      simp only [hdigit, hletter, and_self, if_true, if_false]
      rw [show 'a'.toNat = 97 from rfl, subU8_ofNat hrange.1 (by omega), pure_bind, hten]

theorem hexHalfByte_of_not_isHex {c : Char} (h : ¬IsHex c) :
    hexHalfByte c = bail "Invalid hex" := by
  rw [IsHex, not_or] at h
  rw [hexHalfByte]
  simp only [h.1, h.2, if_false]

theorem utf8Size_of_isHex {c : Char} (h : IsHex c) : c.utf8Size = 1 := by
  rw [Char.utf8Size_eq_one_iff, UInt32.le_iff_toNat_le]
  rw [isHex_iff] at h
  change c.toNat ≤ 127
  omega

/-- Digits, and behind them one character that takes the place of the last two
or four. -/
def EndsInPair (hashHex : Str) : Prop :=
  ∃ digits c, hashHex = digits ++ [c] ∧ (∀ d ∈ digits, IsHex d) ∧
    (c.utf8Size = 2 ∨ c.utf8Size = 4)

/-- A pair of digits is decoded without a panic. -/
theorem decodeHexPairs_digits {high low : Char} (hhigh : IsHex high) (hlow : IsHex low) (n : ℕ)
    (rest : Str) :
    ∃ byte, decodeHexPairs (n + 1) (high :: low :: rest) =
      (decodeHexPairs n rest >>= fun bytes => pure (byte :: bytes)) := by
  obtain ⟨v, hv, hvhigh⟩ := hexHalfByte_of_isHex hhigh
  obtain ⟨w, hw, hwlow⟩ := hexHalfByte_of_isHex hlow
  have hmul : mulU8 16 v = pure (16 * v) := if_pos (by simp; omega)
  have hadd : addU8 (16 * v) w = pure (16 * v + w) := if_pos (by simp; omega)
  refine ⟨16 * v + w, ?_⟩
  rw [decodeHexPairs, hvhigh, pure_bind, hmul, pure_bind, hwlow, pure_bind, hadd, pure_bind]

theorem decodeHexPairs_not_digits {high low : Char} (h : ¬(IsHex high ∧ IsHex low)) (n : ℕ)
    (rest : Str) : decodeHexPairs (n + 1) (high :: low :: rest) = bail "Invalid hex" := by
  by_cases hhigh : IsHex high
  · obtain ⟨v, hv, hvhigh⟩ := hexHalfByte_of_isHex hhigh
    have hmul : mulU8 16 v = pure (16 * v) := if_pos (by simp; omega)
    rw [decodeHexPairs, hvhigh, pure_bind, hmul, pure_bind,
      hexHalfByte_of_not_isHex fun hlow => h ⟨hhigh, hlow⟩, bail_bind]
  · rw [decodeHexPairs, hexHalfByte_of_not_isHex hhigh, bail_bind]

theorem not_endsInPair_nil : ¬EndsInPair [] := by
  rintro ⟨digits, c, h, -⟩
  exact absurd h (by simp)

theorem endsInPair_cons_cons {high low : Char} {rest : Str}
    (heven : Text.byteLen (high :: low :: rest) % 2 = 0) :
    EndsInPair (high :: low :: rest) ↔ (IsHex high ∧ IsHex low) ∧ EndsInPair rest := by
  constructor
  · rintro ⟨digits, c, h, hdigits, hsize⟩
    cases digits with
    | nil => cases h
    | cons d digits =>
        obtain ⟨rfl, hrest⟩ := List.cons.inj h
        have hhigh := hdigits high List.mem_cons_self
        cases digits with
        | nil =>
            -- the last character would be at the second place of a pair
            obtain ⟨rfl, rfl⟩ := List.cons.inj hrest
            rw [Text.byteLen_cons, Text.byteLen_cons, Text.byteLen_nil,
              utf8Size_of_isHex hhigh] at heven
            omega
        | cons d digits =>
            obtain ⟨rfl, hend⟩ := List.cons.inj hrest
            exact ⟨⟨hhigh, hdigits low (by simp)⟩, digits, c, hend,
              fun d hd => hdigits d (by simp [hd]), hsize⟩
  · rintro ⟨⟨hhigh, hlow⟩, digits, c, rfl, hdigits, hsize⟩
    refine ⟨high :: low :: digits, c, rfl, ?_, hsize⟩
    intro d hd
    rcases List.mem_cons.mp hd with rfl | hd
    · exact hhigh
    · rcases List.mem_cons.mp hd with rfl | hd
      · exact hlow
      · exact hdigits d hd

theorem returns_bind_pure {α β : Type} {x : Fallible α} (g : α → β) :
    Returns (x >>= fun a => pure (g a)) ↔ Returns x :=
  ⟨Returns.of_bind, fun h => h.bind fun a _ => returns_pure (g a)⟩

/-- Pairs of a text of the right length in bytes panic if the text ends in the
middle of a pair, and return otherwise. -/
theorem decodeHexPairs_cases (n : ℕ) (hashHex : Str) (hlen : Text.byteLen hashHex = 2 * n) :
    (EndsInPair hashHex ∧ decodeHexPairs n hashHex = panicking .unwrapNone) ∨
      (¬EndsInPair hashHex ∧ Returns (decodeHexPairs n hashHex)) := by
  induction n generalizing hashHex with
  | zero =>
      cases hashHex with
      | nil => exact .inr ⟨not_endsInPair_nil, returns_pure []⟩
      | cons c rest =>
          have := c.utf8Size_pos
          rw [Text.byteLen_cons] at hlen
          omega
  | succ n ih =>
      match hashHex with
      | [] => exact absurd hlen (by rw [Text.byteLen_nil]; omega)
      | [c] =>
          have hsize := c.utf8Size_le_four
          rw [Text.byteLen_cons, Text.byteLen_nil] at hlen
          exact .inl ⟨⟨[], c, rfl, by simp, by omega⟩, rfl⟩
      | high :: low :: rest =>
          rw [endsInPair_cons_cons (by omega)]
          by_cases hdigits : IsHex high ∧ IsHex low
          · obtain ⟨byte, hstep⟩ := decodeHexPairs_digits hdigits.1 hdigits.2 n rest
            rw [Text.byteLen_cons, Text.byteLen_cons, utf8Size_of_isHex hdigits.1,
              utf8Size_of_isHex hdigits.2] at hlen
            rw [hstep, returns_bind_pure]
            rcases ih rest (by omega) with ⟨hends, hpanics⟩ | ⟨hends, hreturns⟩
            · exact .inl ⟨⟨hdigits, hends⟩, by rw [hpanics, panicking_bind]⟩
            · exact .inr ⟨fun h => hends h.2, hreturns⟩
          · rw [decodeHexPairs_not_digits hdigits]
            exact .inr ⟨fun h => hdigits h.1, returns_bail _⟩

/-- A hash of 64 bytes that ends in the middle of a pair: 62 digits and a
character of two bytes, or 60 digits and a character of four bytes. -/
def CutHash (hashHex : Str) : Prop :=
  ∃ digits c, hashHex = digits ++ [c] ∧ (∀ d ∈ digits, IsHex d) ∧
    (digits.length = 62 ∧ c.utf8Size = 2 ∨ digits.length = 60 ∧ c.utf8Size = 4)

theorem byteLen_digits {digits : Str} (h : ∀ d ∈ digits, IsHex d) :
    Text.byteLen digits = digits.length := by
  induction digits with
  | nil => rfl
  | cons d digits ih =>
      rw [Text.byteLen_cons, utf8Size_of_isHex (h d List.mem_cons_self),
        ih fun d hd => h d (List.mem_cons_of_mem _ hd), List.length_cons, Nat.add_comm]

theorem cutHash_iff {hashHex : Str} :
    CutHash hashHex ↔ Text.byteLen hashHex = 64 ∧ EndsInPair hashHex := by
  constructor
  · rintro ⟨digits, c, rfl, hdigits, hsize⟩
    rw [Text.byteLen_append, byteLen_digits hdigits, Text.byteLen_cons, Text.byteLen_nil]
    exact ⟨by omega, digits, c, rfl, hdigits, by omega⟩
  · rintro ⟨hlen, digits, c, rfl, hdigits, hsize⟩
    rw [Text.byteLen_append, byteLen_digits hdigits, Text.byteLen_cons, Text.byteLen_nil] at hlen
    exact ⟨digits, c, rfl, hdigits, by omega⟩

theorem decodeHash_cases (hashHex : Str) :
    (CutHash hashHex ∧ decodeHash hashHex = panicking .unwrapNone) ∨
      (¬CutHash hashHex ∧ Returns (decodeHash hashHex)) := by
  rw [decodeHash, cutHash_iff]
  by_cases hlen : Text.byteLen hashHex = 2 * 32
  · rw [ensure_of hlen, pure_bind, returns_bind_pure]
    rcases decodeHexPairs_cases 32 hashHex hlen with ⟨hends, hpanics⟩ | ⟨hends, hreturns⟩
    · exact .inl ⟨⟨hlen, hends⟩, by rw [hpanics, panicking_bind]⟩
    · exact .inr ⟨fun h => hends h.2, hreturns⟩
  · rw [ensure_of_not hlen, bail_bind]
    exact .inr ⟨fun h => hlen h.1, returns_bail _⟩

/-! ### The other steps -/

theorem returns_escapeSequence (c : Char) : Returns (escapeSequence c) := by
  unfold escapeSequence
  split
  · exact returns_pure _
  · exact returns_pure _
  · exact returns_pure _
  · exact returns_bail _

/-- A backslash at the end is an error. -/
theorem unescapeLoop_last {before : Str} (h : '\\' ∉ before) (unescaped : Str) :
    unescapeLoop (before ++ ['\\']) unescaped = bail "Invalid backslash escape" := by
  have hlen : Text.byteLen (before ++ ['\\']) = Text.byteLen before + 1 := by
    rw [Text.byteLen_append]
    rfl
  have hsub : subUsize (Text.byteLen (before ++ ['\\'])) 1 = pure (Text.byteLen before) := by
    rw [subUsize, if_pos (by omega), hlen, Nat.add_sub_cancel]
  rw [unescapeLoop, Text.find_append h]
  dsimp only
  rw [hsub, pure_bind, ensure_of_not (Nat.lt_irrefl _), bail_bind]

theorem returns_unescapeLoop (path unescaped : Str) : Returns (unescapeLoop path unescaped) := by
  induction hn : path.length using Nat.strong_induction_on generalizing path unescaped with
  | _ n ih =>
    by_cases hmem : '\\' ∈ path
    · obtain ⟨before, rest, rfl, hbefore⟩ := List.eq_append_cons_of_mem hmem
      cases rest with
      | nil =>
          rw [unescapeLoop_last hbefore]
          exact returns_bail _
      | cons next rest =>
          rw [unescapeLoop_step hbefore]
          refine (returns_escapeSequence next).bind fun piece _ => ih rest.length ?_ rest _ rfl
          rw [← hn, List.length_append, List.length_cons, List.length_cons]
          omega
    · rw [unescapeLoop_plain hmem]
      exact returns_pure _

theorem returns_checkForInvalidCharacters (windows : Bool) (path : Str) :
    Returns (checkForInvalidCharacters windows path) := by
  unfold checkForInvalidCharacters
  split_ifs
  all_goals first | exact returns_bail _ | exact returns_pure _

theorem returns_checkedFilePath (windows isEscaped : Bool) (fileStr : Str) :
    Returns (checkedFilePath windows isEscaped fileStr) := by
  rw [checkedFilePath]
  apply Returns.bind
  · split
    · exact returns_unescapeLoop fileStr []
    · exact returns_pure _
  · intro path _
    refine (returns_ensure _ _).bind fun _ _ => ?_
    exact (returns_checkForInvalidCharacters windows path).bind fun _ _ => returns_pure _

/-- A line without the backslash at its front, if there is one. -/
def withoutSlash : Str → Str
  | [] => []
  | first :: rest => if first = '\\' then rest else first :: rest

theorem lineAfterSlash_eq {line : Str} (h : line ≠ []) :
    ∃ isEscaped, lineAfterSlash line = pure (isEscaped, withoutSlash line) := by
  cases line with
  | nil => exact absurd rfl h
  | cons first rest =>
      rw [withoutSlash]
      split
      · next hfirst =>
          subst hfirst
          exact ⟨true, lineAfterSlash_backslash rest⟩
      · next hfirst => exact ⟨false, lineAfterSlash_of_ne hfirst rest⟩

/-! ### The whole line -/

/-- A cut hash has no character of a separator in it. -/
theorem CutHash.not_mem {hashHex : Str} (h : CutHash hashHex) : ' ' ∉ hashHex ∧ ')' ∉ hashHex := by
  obtain ⟨digits, c, rfl, hdigits, hsize⟩ := h
  have hplain : ∀ d, d.utf8Size = 1 → ¬IsHex d → d ∉ digits ++ [c] := by
    intro d hone hhex hmem
    rcases List.mem_append.mp hmem with hmem | hmem
    · exact hhex (hdigits d hmem)
    · obtain rfl := List.mem_singleton.mp hmem
      omega
  exact ⟨hplain ' ' rfl (by unfold IsHex; decide), hplain ')' rfl (by unfold IsHex; decide)⟩

/-- The hash of a line, which is given without its backslash and its newline, is a
cut hash. -/
def CutIn (body : Str) : Prop :=
  ∃ hashHex file, CutHash hashHex ∧
    (body = hashHex ++ ("  ".toList ++ file) ∨
      body = "BLAKE3 (".toList ++ (file ++ (") = ".toList ++ hashHex)) ∧ ¬"  ".toList <:+: body)

theorem doubleSpace_of_untagged {body hashHex file : Str}
    (h : body = hashHex ++ ("  ".toList ++ file)) : "  ".toList <:+: body :=
  ⟨hashHex, file, by rw [h, List.append_assoc]⟩

/-- The split of an untagged line, and whether it gives a cut hash. -/
theorem splitCheckLine_of_untagged {body hashHex file : Str}
    (h : splitUntaggedCheckLine body = some (hashHex, file)) :
    splitCheckLine body = pure (hashHex, file) ∧ (CutIn body ↔ CutHash hashHex) := by
  have hbody : body = hashHex ++ ("  ".toList ++ file) := by
    rw [Text.splitOnce_some h, List.append_assoc]
  refine ⟨by rw [splitCheckLine, h], ?_, fun hcut => ⟨hashHex, file, hcut, .inl hbody⟩⟩
  rintro ⟨hashHex', file', hcut, huntagged | ⟨-, hspace⟩⟩
  · have hsplit : splitUntaggedCheckLine body = some (hashHex', file') := by
      rw [huntagged]
      exact Text.splitOnce_append hcut.not_mem.1 file'
    obtain ⟨rfl, rfl⟩ := Prod.mk.inj (Option.some.inj (h.symm.trans hsplit))
    exact hcut
  · exact absurd (doubleSpace_of_untagged hbody) hspace

/-- The split of a line that is not untagged, and whether it gives a cut hash. -/
theorem splitCheckLine_of_tagged {body : Str} (h : splitUntaggedCheckLine body = none) :
    (∃ message, splitCheckLine body = bail message ∧ ¬CutIn body) ∨
      ∃ hashHex file, splitCheckLine body = pure (hashHex, file) ∧
        (CutIn body ↔ CutHash hashHex) := by
  have hspace : ¬"  ".toList <:+: body := by
    intro hinfix
    have hsome : (splitUntaggedCheckLine body).isSome := Text.splitOnce_isSome hinfix
    rw [h] at hsome
    cases hsome
  -- only the tagged form is left for a cut hash
  have hcutIn : CutIn body ↔ ∃ hashHex file, CutHash hashHex ∧
      body = "BLAKE3 (".toList ++ (file ++ (") = ".toList ++ hashHex)) := by
    constructor
    · rintro ⟨hashHex, file, hcut, huntagged | ⟨htagged, -⟩⟩
      · exact absurd (doubleSpace_of_untagged huntagged) hspace
      · exact ⟨hashHex, file, hcut, htagged⟩
    · rintro ⟨hashHex, file, hcut, htagged⟩
      exact ⟨hashHex, file, hcut, .inr ⟨htagged, hspace⟩⟩
  have hbail : splitTaggedCheckLine body = pure none →
      splitCheckLine body = bail "Invalid check line format" := by
    intro htagged
    rw [splitCheckLine, h]
    dsimp only
    rw [htagged, pure_bind]
  have hpure : ∀ file hashHex, splitTaggedCheckLine body = pure (some (file, hashHex)) →
      splitCheckLine body = pure (hashHex, file) := by
    intro file hashHex htagged
    rw [splitCheckLine, h]
    dsimp only
    rw [htagged, pure_bind]
  by_cases htag : "BLAKE3 (".toList <+: body
  · obtain ⟨rest, rfl⟩ := htag
    have htagged := splitTaggedCheckLine_append rest
    have hof : ∀ hashHex file, CutHash hashHex → rest = file ++ (") = ".toList ++ hashHex) →
        Text.rsplitOnce ") = ".toList rest = some (file, hashHex) := by
      rintro hashHex file hcut rfl
      exact Text.rsplitOnce_append (by decide) hcut.not_mem.2 file
    rcases hparts : Text.rsplitOnce ") = ".toList rest with _ | ⟨file, hashHex⟩
    · rw [hparts] at htagged
      refine .inl ⟨_, hbail htagged, ?_⟩
      rw [hcutIn]
      rintro ⟨hashHex, file, hcut, hrest⟩
      have hsome := hof hashHex file hcut (List.append_cancel_left hrest)
      rw [hparts] at hsome
      cases hsome
    · rw [hparts] at htagged
      refine .inr ⟨hashHex, file, hpure file hashHex htagged, ?_⟩
      rw [hcutIn]
      constructor
      · rintro ⟨hashHex', file', hcut, hrest⟩
        have hsome := hof hashHex' file' hcut (List.append_cancel_left hrest)
        obtain ⟨rfl, rfl⟩ := Prod.mk.inj (Option.some.inj (hparts.symm.trans hsome))
        exact hcut
      · intro hcut
        refine ⟨hashHex, file, hcut, ?_⟩
        rw [Text.rsplitOnce_some hparts, List.append_assoc]
  · have hnone : splitTaggedCheckLine body = pure none := by
      rw [splitTaggedCheckLine]
      simp only [htag, not_false_eq_true, if_true]
    refine .inl ⟨_, hbail hnone, ?_⟩
    rw [hcutIn]
    rintro ⟨hashHex, file, -, rfl⟩
    exact htag (List.prefix_append _ _)

theorem splitCheckLine_cases (body : Str) :
    (∃ message, splitCheckLine body = bail message ∧ ¬CutIn body) ∨
      ∃ hashHex file, splitCheckLine body = pure (hashHex, file) ∧
        (CutIn body ↔ CutHash hashHex) := by
  rcases h : splitUntaggedCheckLine body with _ | ⟨hashHex, file⟩
  · exact splitCheckLine_of_tagged h
  · exact .inr ⟨hashHex, file, splitCheckLine_of_untagged h⟩

theorem not_cutIn_nil : ¬CutIn [] := by
  rintro ⟨hashHex, file, -, h | ⟨h, -⟩⟩
  · have hlen := congrArg List.length h
    simp at hlen
  · cases h

/-- What a line comes to: it panics for want of a second hex character, or it
returns. -/
theorem parseCheckLine_cases (windows : Bool) (line : Str) :
    (CutIn (withoutSlash (trimNewlines line)) ∧
        parseCheckLine windows line = panicking .unwrapNone) ∨
      (¬CutIn (withoutSlash (trimNewlines line)) ∧ Returns (parseCheckLine windows line)) := by
  rw [parseCheckLine]
  by_cases hempty : trimNewlines line = []
  · rw [hempty]
    exact .inr ⟨not_cutIn_nil, returns_bail "Empty line"⟩
  · obtain ⟨isEscaped, hslash⟩ := lineAfterSlash_eq hempty
    rw [hslash, pure_bind]
    dsimp only
    rcases splitCheckLine_cases (withoutSlash (trimNewlines line)) with
      ⟨message, hbail, hcut⟩ | ⟨hashHex, file, hsplit, hcut⟩
    · rw [hbail, bail_bind]
      exact .inr ⟨hcut, returns_bail message⟩
    · rw [hsplit, pure_bind, hcut]
      dsimp only
      rcases decodeHash_cases hashHex with ⟨hhash, hpanics⟩ | ⟨hhash, hreturns⟩
      · exact .inl ⟨hhash, by rw [hpanics, panicking_bind]⟩
      · refine .inr ⟨hhash, hreturns.bind fun hash _ => ?_⟩
        exact (returns_checkedFilePath windows isEscaped file).bind fun path _ => returns_pure _

/-- `parse_check_line` returns a value or an error, and does not panic, if and
only if the hash of the line is not 62 digits and a character of two bytes or 60
digits and a character of four bytes. -/
theorem parseCheckLine_returns_iff (windows : Bool) (line : Str) :
    (∃ r, (parseCheckLine windows line).run = .ok r) ↔
      ¬CutIn (withoutSlash (trimNewlines line)) := by
  rcases parseCheckLine_cases windows line with ⟨hcut, hpanics⟩ | ⟨hcut, hreturns⟩
  · rw [hpanics]
    exact iff_of_false (not_returns_panicking _) (not_not_intro hcut)
  · exact iff_of_true hreturns hcut

/-- The line of 62 zeros and a character of two bytes. -/
theorem parseCheckLine_panics :
    (parseCheckLine false (List.replicate 62 '0' ++ "\u00e9  foo".toList)).run =
      .error .unwrapNone := by
  have hcut :
      CutIn (withoutSlash (trimNewlines (List.replicate 62 '0' ++ "\u00e9  foo".toList))) := by
    refine ⟨List.replicate 62 '0' ++ ['\u00e9'], "foo".toList,
      ⟨List.replicate 62 '0', '\u00e9', rfl, ?_, .inl ⟨rfl, rfl⟩⟩, .inl rfl⟩
    intro d hd
    obtain rfl := List.eq_of_mem_replicate hd
    exact .inl ⟨by decide, by decide⟩
  rcases parseCheckLine_cases false (List.replicate 62 '0' ++ "\u00e9  foo".toList) with
    ⟨-, hpanics⟩ | ⟨hno, -⟩
  · rw [hpanics]
    rfl
  · exact absurd hcut hno

end Blake3.B3sum
