import Blake3.Lib.Utf8
import Mathlib.Algebra.Order.Ring.Nat
import Mathlib.Data.List.DropRight
import Mathlib.Data.List.Infix

/-!
Searching, splitting and slicing text. Offsets count UTF-8 bytes, and a slice at
an offset inside a character does not exist.
-/

namespace Text

/-! ### Byte offsets -/

/-- The number of UTF-8 bytes of a text. -/
def byteLen (text : List Char) : ℕ := (text.map Char.utf8Size).sum

@[simp] theorem byteLen_nil : byteLen [] = 0 := rfl

@[simp] theorem byteLen_cons (c : Char) (text : List Char) :
    byteLen (c :: text) = c.utf8Size + byteLen text := by simp [byteLen]

@[simp] theorem byteLen_append (a b : List Char) : byteLen (a ++ b) = byteLen a + byteLen b := by
  simp [byteLen]

/-- The byte offset of the first `c`. -/
def find (c : Char) : List Char → Option ℕ
  | [] => none
  | x :: text => if x = c then some 0 else (find c text).map (x.utf8Size + ·)

/-- The two parts of a text on the sides of a byte offset. -/
def splitAt : List Char → ℕ → Option (List Char × List Char)
  | text, 0 => some ([], text)
  | [], _ + 1 => none
  | c :: text, i + 1 =>
      if c.utf8Size ≤ i + 1 then
        (splitAt text (i + 1 - c.utf8Size)).map fun parts => (c :: parts.1, parts.2)
      else none

def sliceTo (text : List Char) (i : ℕ) : Option (List Char) := (splitAt text i).map Prod.fst

def sliceFrom (text : List Char) (i : ℕ) : Option (List Char) := (splitAt text i).map Prod.snd

theorem find_of_not_mem {c : Char} {text : List Char} (h : c ∉ text) : find c text = none := by
  induction text with
  | nil => rfl
  | cons x text ih =>
      rw [List.mem_cons, not_or] at h
      rw [find, if_neg (Ne.symm h.1), ih h.2]
      rfl

theorem find_append {c : Char} {a : List Char} (h : c ∉ a) (b : List Char) :
    find c (a ++ c :: b) = some (byteLen a) := by
  induction a with
  | nil => simp [find]
  | cons x a ih =>
      rw [List.mem_cons, not_or] at h
      rw [List.cons_append, find, if_neg (Ne.symm h.1), ih h.2, byteLen_cons]
      rfl

theorem splitAt_append (a b : List Char) : splitAt (a ++ b) (byteLen a) = some (a, b) := by
  induction a with
  | nil => cases b <;> rfl
  | cons c a ih =>
      have hpos := c.utf8Size_pos
      obtain ⟨i, hi⟩ : ∃ i, byteLen (c :: a) = i + 1 := ⟨byteLen (c :: a) - 1, by simp; omega⟩
      rw [byteLen_cons] at hi
      have hrest : i + 1 - c.utf8Size = byteLen a := by omega
      rw [byteLen_cons, hi, List.cons_append, splitAt, if_pos (by omega), hrest, ih]
      rfl

theorem sliceTo_append (a b : List Char) : sliceTo (a ++ b) (byteLen a) = some a := by
  rw [sliceTo, splitAt_append]
  rfl

theorem sliceFrom_append (a b : List Char) : sliceFrom (a ++ b) (byteLen a) = some b := by
  rw [sliceFrom, splitAt_append]
  rfl

theorem splitAt_some {text : List Char} {i : ℕ} {parts : List Char × List Char}
    (h : splitAt text i = some parts) : text = parts.1 ++ parts.2 ∧ byteLen parts.1 = i := by
  induction text generalizing i parts with
  | nil =>
      cases i with
      | zero =>
          obtain rfl := Option.some.inj h
          exact ⟨rfl, rfl⟩
      | succ i => cases h
  | cons c text ih =>
      cases i with
      | zero =>
          obtain rfl := Option.some.inj h
          exact ⟨rfl, rfl⟩
      | succ i =>
          rw [splitAt] at h
          split at h
          · obtain ⟨rest, hrest, rfl⟩ := Option.map_eq_some_iff.mp h
            obtain ⟨htext, hlen⟩ := ih hrest
            refine ⟨?_, ?_⟩
            · rw [List.cons_append, ← htext]
            · rw [byteLen_cons, hlen]
              omega
          · cases h

/-- What is cut off at the front is not empty when the offset is not zero. -/
theorem length_sliceFrom {text rest : List Char} {i : ℕ} (h : sliceFrom text i = some rest)
    (hi : 0 < i) : rest.length < text.length := by
  obtain ⟨parts, hparts, rfl⟩ := Option.map_eq_some_iff.mp h
  obtain ⟨htext, hlen⟩ := splitAt_some hparts
  have hne : parts.1 ≠ [] := by
    intro hnil
    rw [hnil, byteLen_nil] at hlen
    omega
  rw [htext, List.length_append]
  have := List.length_pos_iff.mpr hne
  omega

/-! ### Replacing and trimming -/

/-- Every `c` replaced by `new`. -/
def replace (c : Char) (new text : List Char) : List Char :=
  text.flatMap fun x => if x = c then new else [x]

/-! ### Splitting at a separator -/

section Split

variable {α : Type*} [DecidableEq α] (sep : List α)

/-- The parts on the sides of the first occurrence of a separator. -/
def splitOnce : List α → Option (List α × List α)
  | [] => if sep = [] then some ([], []) else none
  | x :: text =>
      if sep <+: x :: text then some ([], (x :: text).drop sep.length)
      else (splitOnce text).map fun parts => (x :: parts.1, parts.2)

/-- The parts on the sides of the last occurrence of a separator. -/
def rsplitOnce : List α → Option (List α × List α)
  | [] => if sep = [] then some ([], []) else none
  | x :: text =>
      match rsplitOnce text with
      | some parts => some (x :: parts.1, parts.2)
      | none => if sep <+: x :: text then some ([], (x :: text).drop sep.length) else none

variable {sep}

theorem splitOnce_some {text : List α} {parts : List α × List α}
    (h : splitOnce sep text = some parts) : text = parts.1 ++ sep ++ parts.2 := by
  induction text generalizing parts with
  | nil =>
      rw [splitOnce] at h
      split at h
      · next hsep =>
          obtain rfl := Option.some.inj h
          simp [hsep]
      · cases h
  | cons x text ih =>
      rw [splitOnce] at h
      split at h
      · next hpre =>
          obtain rfl := Option.some.inj h
          exact (List.prefix_iff_eq_append.mp hpre).symm
      · obtain ⟨rest, hrest, rfl⟩ := Option.map_eq_some_iff.mp h
        conv_lhs => rw [ih hrest]
        rfl

theorem rsplitOnce_some {text : List α} {parts : List α × List α}
    (h : rsplitOnce sep text = some parts) : text = parts.1 ++ sep ++ parts.2 := by
  induction text generalizing parts with
  | nil =>
      rw [rsplitOnce] at h
      split at h
      · next hsep =>
          obtain rfl := Option.some.inj h
          simp [hsep]
      · cases h
  | cons x text ih =>
      rw [rsplitOnce] at h
      split at h
      · next rest hrest =>
          obtain rfl := Option.some.inj h
          conv_lhs => rw [ih hrest]
          rfl
      · split at h
        · next hpre =>
            obtain rfl := Option.some.inj h
            exact (List.prefix_iff_eq_append.mp hpre).symm
        · cases h

/-- There is no place to split where the separator does not occur. -/
theorem splitOnce_eq_none {text : List α} (h : ¬sep <:+: text) : splitOnce sep text = none := by
  rcases hparts : splitOnce sep text with _ | parts
  · rfl
  · exact absurd ⟨parts.1, parts.2, (splitOnce_some hparts).symm⟩ h

theorem splitOnce_isSome {text : List α} (h : sep <:+: text) : (splitOnce sep text).isSome := by
  induction text with
  | nil => rw [splitOnce, if_pos (List.infix_nil.mp h)]; rfl
  | cons x text ih =>
      rw [splitOnce]
      split
      · rfl
      · next hpre =>
          rw [Option.isSome_map]
          exact ih ((List.infix_cons_iff.mp h).resolve_left hpre)

/-- The first occurrence is at the first place where the separator can start. -/
theorem splitOnce_append {c : α} {sep a : List α} (h : c ∉ a) (b : List α) :
    splitOnce (c :: sep) (a ++ (c :: sep ++ b)) = some (a, b) := by
  induction a with
  | nil =>
      rw [List.nil_append, List.cons_append, splitOnce, if_pos ⟨b, rfl⟩, ← List.cons_append,
        List.drop_left]
  | cons x a ih =>
      rw [List.mem_cons, not_or] at h
      have hne : ¬c :: sep <+: x :: (a ++ (c :: sep ++ b)) := by
        rintro ⟨rest, hrest⟩
        exact h.1 (List.cons.inj hrest).1
      rw [List.cons_append, splitOnce, if_neg hne, ih h.2]
      rfl

theorem rsplitOnce_eq_none {c : α} {sep text : List α} (h : c ∉ text) :
    rsplitOnce (c :: sep) text = none := by
  rcases hparts : rsplitOnce (c :: sep) text with _ | parts
  · rfl
  · refine absurd ?_ h
    rw [rsplitOnce_some hparts]
    simp

/-- The last occurrence is at the last place where the separator can start. -/
theorem rsplitOnce_append {c : α} {sep b : List α} (hsep : c ∉ sep) (h : c ∉ b) (a : List α) :
    rsplitOnce (c :: sep) (a ++ (c :: sep ++ b)) = some (a, b) := by
  induction a with
  | nil =>
      have hnone : rsplitOnce (c :: sep) (sep ++ b) = none := by
        apply rsplitOnce_eq_none
        simp [hsep, h]
      rw [List.nil_append, List.cons_append, rsplitOnce, hnone, ← List.cons_append]
      dsimp only
      rw [if_pos ⟨b, rfl⟩, List.drop_left]
  | cons x a ih => rw [List.cons_append, rsplitOnce, ih]

/-- A text is told apart from what follows the first separator. -/
theorem append_cons_inj_left {c : α} {a a' b b' : List α} (ha : c ∉ a) (ha' : c ∉ a')
    (h : a ++ c :: b = a' ++ c :: b') : a = a' ∧ b = b' := by
  have hsplit := @splitOnce_append _ _ c [] a ha b
  have hsplit' := @splitOnce_append _ _ c [] a' ha' b'
  simp only [List.cons_append, List.nil_append] at hsplit hsplit'
  rw [h, hsplit'] at hsplit
  obtain ⟨rfl, rfl⟩ := Prod.mk.inj (Option.some.inj hsplit)
  exact ⟨rfl, rfl⟩

theorem append_cons_inj_right {c : α} {a a' b b' : List α} (hb : c ∉ b) (hb' : c ∉ b')
    (h : a ++ c :: b = a' ++ c :: b') : a = a' ∧ b = b' := by
  have hsplit := @rsplitOnce_append _ _ c [] b List.not_mem_nil hb a
  have hsplit' := @rsplitOnce_append _ _ c [] b' List.not_mem_nil hb' a'
  simp only [List.cons_append, List.nil_append] at hsplit hsplit'
  rw [h, hsplit'] at hsplit
  obtain ⟨rfl, rfl⟩ := Prod.mk.inj (Option.some.inj hsplit)
  exact ⟨rfl, rfl⟩

/-- Records that a byte ends which none of them has inside. -/
theorem flatMap_terminated_inj {β : Type*} {put : β → List α} {c : α} {as bs : List β}
    (ha : ∀ a ∈ as, c ∉ put a) (hb : ∀ b ∈ bs, c ∉ put b)
    (hinj : ∀ a ∈ as, ∀ b ∈ bs, put a = put b → a = b)
    (h : (as.flatMap fun a => put a ++ [c]) = bs.flatMap fun b => put b ++ [c]) : as = bs := by
  induction as generalizing bs with
  | nil =>
      cases bs with
      | nil => rfl
      | cons b bs => simp at h
  | cons a as ih =>
      cases bs with
      | nil => simp at h
      | cons b bs =>
          simp only [List.flatMap_cons, List.append_assoc, List.singleton_append] at h
          obtain ⟨hput, hrest⟩ := append_cons_inj_left (ha a List.mem_cons_self)
            (hb b List.mem_cons_self) h
          obtain rfl := hinj a List.mem_cons_self b List.mem_cons_self hput
          rw [ih (fun x hx => ha x (List.mem_cons_of_mem _ hx))
            (fun x hx => hb x (List.mem_cons_of_mem _ hx))
            (fun x hx y hy => hinj x (List.mem_cons_of_mem _ hx) y (List.mem_cons_of_mem _ hy))
            hrest]

end Split

/-! ### Lines -/

/-- What a call of `read_line` takes of a text, and what it leaves. -/
def readLine : List Char → List Char × List Char
  | [] => ([], [])
  | c :: text =>
      if c = '\n' then ([c], text) else (c :: (readLine text).1, (readLine text).2)

/-- What the call behind `k` others takes: a line, or nothing at the end. -/
def lineOf : ℕ → List Char → List Char
  | 0, text => (readLine text).1
  | k + 1, text => lineOf k (readLine text).2

theorem readLine_append {line : List Char} (h : '\n' ∉ line) (text : List Char) :
    readLine (line ++ '\n' :: text) = (line ++ ['\n'], text) := by
  induction line with
  | nil => rfl
  | cons c line ih =>
      rw [List.mem_cons, not_or] at h
      rw [List.cons_append, readLine, if_neg (Ne.symm h.1), ih h.2]
      rfl

/-- A text that is lines one after the other is read line by line. -/
theorem lineOf_flatMap {β : Type*} {put : β → List Char} {as : List β}
    (h : ∀ a ∈ as, '\n' ∉ put a) (k : ℕ) :
    lineOf k (as.flatMap fun a => put a ++ ['\n']) =
      (as[k]?.map fun a => put a ++ ['\n']).getD [] := by
  induction as generalizing k with
  | nil =>
      induction k with
      | zero => rfl
      | succ k ih => exact ih
  | cons a as ih =>
      rw [List.flatMap_cons, List.append_assoc, List.singleton_append]
      cases k with
      | zero =>
          rw [lineOf, readLine_append (h a List.mem_cons_self)]
          rfl
      | succ k =>
          rw [lineOf, readLine_append (h a List.mem_cons_self),
            ih fun a' ha' => h a' (List.mem_cons_of_mem _ ha')]
          rfl

end Text
