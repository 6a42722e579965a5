import Blake3.Compress
import Blake3.Lib.LeftTree

/-!
What BLAKE3 computes. A message is cut into chunks of 1024 bytes, a chunk into
blocks of 64; the blocks of a chunk are compressed in a chain that starts from
the key, and the chaining values of the chunks are the leaves of a
left-complete tree of parent nodes. A node is the input of a compression that
has not been made yet: with the `ROOT` flag it gives the output stream,
without it a chaining value.
-/

namespace Blake3

open LeftTree

/-- The chaining value of a node. -/
def cvOf (f : Compress) (node : CompressInput) : CVWords := first8Words (f node)

/-! ### Inside a chunk -/

/-- A chunk as far as it has been read: the chaining value after the blocks
compressed so far, their number, and the bytes that wait for a block. -/
structure Pending where
  cv : CVWords
  blocks : ℕ
  rest : List Byte

def startFlag (blocks : ℕ) : Word := if blocks = 0 then Flag.chunkStart else 0

namespace Pending

/-- Nothing read yet. -/
def empty (key : CVWords) : Pending := { cv := key, blocks := 0, rest := [] }

def extend (p : Pending) (input : List Byte) : Pending := { p with rest := p.rest ++ input }

variable (f : Compress) (ctr : UInt64) (flags : Word)

/-- The compression of the next block when it is not the last of its chunk. -/
def blockInput (p : Pending) : CompressInput :=
  { chainingValue := p.cv, blockWords := wordsFromLeBytes64 (blockOfBytes p.rest),
    counter := ctr, blockLen := 64, flags := flags ||| startFlag p.blocks }

def step (p : Pending) : Pending :=
  { cv := cvOf f (p.blockInput ctr flags), blocks := p.blocks + 1, rest := p.rest.drop 64 }

/-- Compress every block that is known not to be the last. -/
def absorb (p : Pending) : Pending :=
  if 64 < p.rest.length then absorb (p.step f ctr flags) else p
termination_by p.rest.length
decreasing_by simp only [step, List.length_drop]; omega

/-- The compressions `absorb` makes, in order. -/
def absorbInputs (p : Pending) : List CompressInput :=
  if 64 < p.rest.length then p.blockInput ctr flags :: absorbInputs (p.step f ctr flags) else []
termination_by p.rest.length
decreasing_by simp only [step, List.length_drop]; omega

/-- The last block of the chunk as a node. -/
def node (p : Pending) : CompressInput :=
  { chainingValue := p.cv, blockWords := wordsFromLeBytes64 (blockOfBytes p.rest),
    counter := ctr, blockLen := UInt32.ofNat p.rest.length,
    flags := flags ||| startFlag p.blocks ||| Flag.chunkEnd }

variable {f ctr flags}

@[simp] theorem extend_cv (p : Pending) (input : List Byte) : (p.extend input).cv = p.cv := rfl

@[simp] theorem extend_blocks (p : Pending) (input : List Byte) :
    (p.extend input).blocks = p.blocks := rfl

@[simp] theorem extend_rest (p : Pending) (input : List Byte) :
    (p.extend input).rest = p.rest ++ input := rfl

@[simp] theorem extend_nil (p : Pending) : p.extend [] = p := by simp [extend]

theorem extend_append (p : Pending) (a b : List Byte) :
    p.extend (a ++ b) = (p.extend a).extend b := by
  simp [extend]

theorem absorb_of_le {p : Pending} (h : p.rest.length ≤ 64) : p.absorb f ctr flags = p := by
  rw [absorb, if_neg (by omega)]

theorem absorb_of_lt {p : Pending} (h : 64 < p.rest.length) :
    p.absorb f ctr flags = (p.step f ctr flags).absorb f ctr flags := by
  rw [absorb, if_pos h]

theorem absorbInputs_of_le {p : Pending} (h : p.rest.length ≤ 64) :
    p.absorbInputs f ctr flags = [] := by
  rw [absorbInputs, if_neg (by omega)]

theorem absorbInputs_of_lt {p : Pending} (h : 64 < p.rest.length) :
    p.absorbInputs f ctr flags =
      p.blockInput ctr flags :: (p.step f ctr flags).absorbInputs f ctr flags := by
  rw [absorbInputs, if_pos h]

end Pending

/-- A block is not changed by bytes after it. -/
theorem blockOfBytes_append {a : List Byte} (h : 64 ≤ a.length) (b : List Byte) :
    blockOfBytes (a ++ b) = blockOfBytes a := by
  apply Vector.ext
  intro i hi
  simp [blockOfBytes, List.getElem?_append_left (show i < a.length by omega)]

namespace Pending

variable {f : Compress} {ctr : UInt64} {flags : Word}

theorem step_extend {p : Pending} (h : 64 ≤ p.rest.length) (input : List Byte) :
    (p.extend input).step f ctr flags = (p.step f ctr flags).extend input := by
  simp [step, extend, blockInput, blockOfBytes_append h, List.drop_append_of_le_length h]

variable (f ctr flags) in
theorem length_absorb (p : Pending) : (p.absorb f ctr flags).rest.length ≤ 64 := by
  induction p using absorb.induct f ctr flags with
  | case1 p h ih => rwa [absorb_of_lt h]
  | case2 p h => rw [absorb_of_le (by omega)]; omega

/-- Reading on after having compressed is reading everything first. -/
theorem absorb_extend (p : Pending) (input : List Byte) :
    ((p.absorb f ctr flags).extend input).absorb f ctr flags =
      (p.extend input).absorb f ctr flags := by
  induction p using absorb.induct f ctr flags with
  | case1 p h ih =>
      rw [absorb_of_lt h, ih, absorb_of_lt (p := p.extend input) (by simp; omega),
        step_extend (by omega)]
  | case2 p h => rw [absorb_of_le (p := p) (by omega)]

theorem absorbInputs_extend (p : Pending) (input : List Byte) :
    (p.extend input).absorbInputs f ctr flags =
      p.absorbInputs f ctr flags ++
        ((p.absorb f ctr flags).extend input).absorbInputs f ctr flags := by
  induction p using absorb.induct f ctr flags with
  | case1 p h ih =>
      rw [absorbInputs_of_lt (p := p.extend input) (by simp; omega), absorbInputs_of_lt h,
        absorb_of_lt h, step_extend (by omega), ih]
      simp [blockInput, blockOfBytes_append (show 64 ≤ p.rest.length by omega)]
  | case2 p h => simp [absorbInputs_of_le (p := p) (by omega), absorb_of_le (p := p) (by omega)]

variable (f ctr flags) in
/-- The number of bytes read is not changed by compressing. -/
theorem absorb_count (p : Pending) :
    64 * (p.absorb f ctr flags).blocks + (p.absorb f ctr flags).rest.length =
      64 * p.blocks + p.rest.length := by
  induction p using absorb.induct f ctr flags with
  | case1 p h ih =>
      rw [absorb_of_lt h, ih]
      simp only [step, List.length_drop]
      omega
  | case2 p h => rw [absorb_of_le (by omega)]

end Pending

/-! ### Chunks and subtrees -/

section Mode

variable (f : Compress) (key : CVWords) (flags : Word)

/-- The pending state of a chunk of which `bytes` have been read. -/
def pendingOf (ctr : UInt64) (bytes : List Byte) : Pending :=
  ((Pending.empty key).extend bytes).absorb f ctr flags

@[simp] theorem pendingOf_nil (ctr : UInt64) :
    pendingOf f key flags ctr [] = Pending.empty key := by
  rw [pendingOf, Pending.extend_nil, Pending.absorb_of_le (by simp [Pending.empty])]

/-- The number of bytes of a pending chunk. -/
theorem length_pendingOf (ctr : UInt64) (bytes : List Byte) :
    64 * (pendingOf f key flags ctr bytes).blocks + (pendingOf f key flags ctr bytes).rest.length =
      bytes.length := by
  rw [pendingOf, Pending.absorb_count]
  simp [Pending.empty]

theorem length_rest_pendingOf (ctr : UInt64) (bytes : List Byte) :
    (pendingOf f key flags ctr bytes).rest.length ≤ 64 := Pending.length_absorb _ _ _ _

/-- Reading more of a pending chunk. -/
theorem pendingOf_append (ctr : UInt64) (a b : List Byte) :
    ((pendingOf f key flags ctr a).extend b).absorb f ctr flags =
      pendingOf f key flags ctr (a ++ b) := by
  rw [pendingOf, Pending.absorb_extend, ← Pending.extend_append, pendingOf]

def chunkNode (ctr : UInt64) (bytes : List Byte) : CompressInput :=
  (pendingOf f key flags ctr bytes).node ctr flags

def chunkCv (ctr : UInt64) (bytes : List Byte) : CVWords :=
  cvOf f (chunkNode f key flags ctr bytes)

def parentNode (left right : CVWords) : CompressInput :=
  { chainingValue := key, blockWords := parentWords left right, counter := 0, blockLen := 64,
    flags := flags ||| Flag.parent }

def parentCv (left right : CVWords) : CVWords := cvOf f (parentNode key flags left right)

end Mode

/-- What `g` gives for each chunk of a byte string, the first one being number
`ctr`. -/
def chunkMap {γ : Type*} (g : UInt64 → List Byte → γ) (ctr : UInt64) (bytes : List Byte) :
    List γ :=
  if bytes.length = 0 then []
  else g ctr (bytes.take 1024) :: chunkMap g (ctr + 1) (bytes.drop 1024)
termination_by bytes.length
decreasing_by simp only [List.length_drop]; omega

section ChunkMap

variable {γ δ : Type*} (g : UInt64 → List Byte → γ)

@[simp] theorem chunkMap_nil (ctr : UInt64) : chunkMap g ctr [] = [] := by
  rw [chunkMap]
  rfl

theorem chunkMap_cons (ctr : UInt64) {bytes : List Byte} (h : ¬bytes.length = 0) :
    chunkMap g ctr bytes = g ctr (bytes.take 1024) :: chunkMap g (ctr + 1) (bytes.drop 1024) := by
  rw [chunkMap, if_neg h]

theorem chunkMap_of_le {ctr : UInt64} {bytes : List Byte} (hpos : 0 < bytes.length)
    (hle : bytes.length ≤ 1024) : chunkMap g ctr bytes = [g ctr bytes] := by
  rw [chunkMap, if_neg (by omega), List.take_of_length_le hle, List.drop_eq_nil_of_le hle,
    chunkMap_nil]

@[simp] theorem length_chunkMap (ctr : UInt64) (bytes : List Byte) :
    (chunkMap g ctr bytes).length = (bytes.length + 1023) / 1024 := by
  induction ctr, bytes using chunkMap.induct with
  | case1 ctr bytes h => rw [chunkMap, if_pos h, h]; rfl
  | case2 ctr bytes h ih =>
      rw [chunkMap, if_neg h, List.length_cons, ih, List.length_drop]
      omega

theorem map_chunkMap (h : γ → δ) (ctr : UInt64) (bytes : List Byte) :
    (chunkMap g ctr bytes).map h = chunkMap (fun c b => h (g c b)) ctr bytes := by
  induction ctr, bytes using chunkMap.induct with
  | case1 ctr bytes hb => rw [chunkMap, if_pos hb, chunkMap, if_pos hb]; rfl
  | case2 ctr bytes hb ih =>
      rw [chunkMap_cons g ctr hb, List.map_cons, ih, chunkMap_cons (fun c b => h (g c b)) ctr hb]

/-- Whole chunks in front are numbered first. -/
theorem chunkMap_append {k : ℕ} (ctr : UInt64) {a : List Byte} (ha : a.length = 1024 * k)
    (b : List Byte) :
    chunkMap g ctr (a ++ b) = chunkMap g ctr a ++ chunkMap g (ctr + UInt64.ofNat k) b := by
  induction k generalizing ctr a with
  | zero =>
      have : a = [] := List.length_eq_zero_iff.mp (by omega)
      subst this
      simp
  | succ k ih =>
      rw [chunkMap, if_neg (by rw [List.length_append]; omega), chunkMap.eq_def g ctr a,
        if_neg (by omega), List.take_append_of_le_length (by omega),
        List.drop_append_of_le_length (by omega),
        ih (ctr + 1) (by rw [List.length_drop]; omega), List.cons_append]
      congr 3
      rw [UInt64.add_assoc, ← UInt64.ofNat_one, ← UInt64.ofNat_add, Nat.add_comm 1 k]

theorem take_chunkMap {k : ℕ} (ctr : UInt64) {bytes : List Byte} (hk : 1024 * k ≤ bytes.length) :
    (chunkMap g ctr bytes).take k = chunkMap g ctr (bytes.take (1024 * k)) := by
  have hlen : (bytes.take (1024 * k)).length = 1024 * k := by rw [List.length_take]; omega
  conv_lhs => rw [← List.take_append_drop (1024 * k) bytes, chunkMap_append g ctr hlen]
  rw [List.take_left' (by rw [length_chunkMap, hlen]; omega)]

theorem drop_chunkMap {k : ℕ} (ctr : UInt64) {bytes : List Byte} (hk : 1024 * k ≤ bytes.length) :
    (chunkMap g ctr bytes).drop k =
      chunkMap g (ctr + UInt64.ofNat k) (bytes.drop (1024 * k)) := by
  have hlen : (bytes.take (1024 * k)).length = 1024 * k := by rw [List.length_take]; omega
  conv_lhs => rw [← List.take_append_drop (1024 * k) bytes, chunkMap_append g ctr hlen]
  rw [List.drop_left' (by rw [length_chunkMap, hlen]; omega)]

end ChunkMap

/-! ### Trees over chunks -/

section TreeNode

variable {ν α : Type*} [Inhabited α] (leaf : UInt64 → List Byte → ν) (join : α → α → ν)
  (cv : ν → α)

/-- The node at the top of the tree over the chunks numbered from `ctr`. -/
def treeNode (ctr : UInt64) (bytes : List Byte) : ν :=
  if bytes.length ≤ 1024 then leaf ctr bytes
  else
    let children := top (fun a b => cv (join a b)) (chunkMap (fun c b => cv (leaf c b)) ctr bytes)
    join children.1 children.2

theorem treeNode_of_le (ctr : UInt64) {bytes : List Byte} (h : bytes.length ≤ 1024) :
    treeNode leaf join cv ctr bytes = leaf ctr bytes := if_pos h

theorem treeNode_of_lt (ctr : UInt64) {bytes : List Byte} (h : 1024 < bytes.length) :
    treeNode leaf join cv ctr bytes =
      join (top (fun a b => cv (join a b)) (chunkMap (fun c b => cv (leaf c b)) ctr bytes)).1
        (top (fun a b => cv (join a b)) (chunkMap (fun c b => cv (leaf c b)) ctr bytes)).2 :=
  if_neg (by omega)

/-- The value of the top node is the fold of the leaves. -/
theorem cv_treeNode (ctr : UInt64) {bytes : List Byte} (hpos : 0 < bytes.length) :
    cv (treeNode leaf join cv ctr bytes) =
      fold (fun a b => cv (join a b)) (chunkMap (fun c b => cv (leaf c b)) ctr bytes) := by
  rcases Nat.lt_or_ge 1024 bytes.length with hlong | hshort
  · rw [treeNode_of_lt _ _ _ ctr hlong, fold_eq_top _ (by rw [length_chunkMap]; omega)]
  · rw [treeNode_of_le _ _ _ ctr hshort, chunkMap_of_le _ hpos hshort, fold_singleton]

/-- The top node joins the trees over the two sides of the split. -/
theorem treeNode_split (ctr : UInt64) (bytes : List Byte) {k : ℕ} (hlong : 1024 < bytes.length)
    (hk : k = leftLen ((bytes.length + 1023) / 1024)) :
    treeNode leaf join cv ctr bytes =
      join (cv (treeNode leaf join cv ctr (bytes.take (1024 * k))))
        (cv (treeNode leaf join cv (ctr + UInt64.ofNat k) (bytes.drop (1024 * k)))) := by
  have hpos := leftLen_pos ((bytes.length + 1023) / 1024)
  have hlt := leftLen_lt (n := (bytes.length + 1023) / 1024) (by omega)
  have hcount := length_chunkMap (fun c b => cv (leaf c b)) ctr bytes
  have hleft : 0 < (bytes.take (1024 * k)).length := by
    rw [List.length_take]
    omega
  have hright : 0 < (bytes.drop (1024 * k)).length := by
    rw [List.length_drop]
    omega
  rw [treeNode_of_lt _ _ _ ctr hlong, top_eq_of_length _ hcount, ← hk,
    take_chunkMap _ ctr (by omega), drop_chunkMap _ ctr (by omega),
    cv_treeNode leaf join cv ctr hleft, cv_treeNode leaf join cv _ hright]

end TreeNode

/-! ### Compressions without the root flag -/

/-- `f` and `g` agree on every compression that is not a root. -/
def AgreeBelowRoot (f g : Compress) : Prop := ∀ x, x.flags &&& Flag.root = 0 → f x = g x

theorem or_and_distrib (a b c : Word) : (a ||| b) &&& c = (a &&& c) ||| (b &&& c) := by
  rw [← UInt32.toNat_inj]
  simp only [UInt32.toNat_and, UInt32.toNat_or, Nat.and_or_distrib_right]

theorem or_and_root {a b : Word} (ha : a &&& Flag.root = 0) (hb : b &&& Flag.root = 0) :
    (a ||| b) &&& Flag.root = 0 := by
  rw [or_and_distrib, ha, hb]
  rfl

theorem startFlag_and_root (blocks : ℕ) : startFlag blocks &&& Flag.root = 0 := by
  unfold startFlag
  split <;> rfl

section Agree

variable {f g : Compress} {flags : Word} (h : AgreeBelowRoot f g)
  (hflags : flags &&& Flag.root = 0)

include h

theorem AgreeBelowRoot.cvOf {node : CompressInput} (hnode : node.flags &&& Flag.root = 0) :
    cvOf f node = Blake3.cvOf g node := congrArg first8Words (h node hnode)

include hflags

theorem AgreeBelowRoot.absorb (ctr : UInt64) (p : Pending) :
    p.absorb f ctr flags = p.absorb g ctr flags := by
  induction p using Pending.absorb.induct f ctr flags with
  | case1 p hlt ih =>
      have hstep : p.step f ctr flags = p.step g ctr flags := by
        rw [Pending.step, h.cvOf (or_and_root hflags (startFlag_and_root _)), Pending.step]
      rw [Pending.absorb_of_lt hlt, ih, Pending.absorb_of_lt hlt, hstep]
  | case2 p hle => rw [Pending.absorb_of_le (by omega), Pending.absorb_of_le (by omega)]

theorem AgreeBelowRoot.chunkCv (key : CVWords) (ctr : UInt64) (bytes : List Byte) :
    chunkCv f key flags ctr bytes = Blake3.chunkCv g key flags ctr bytes := by
  have hnode : chunkNode f key flags ctr bytes = chunkNode g key flags ctr bytes := by
    rw [chunkNode, pendingOf, h.absorb hflags, chunkNode, pendingOf]
  rw [Blake3.chunkCv, hnode, h.cvOf, Blake3.chunkCv]
  exact or_and_root (or_and_root hflags (startFlag_and_root _)) rfl

theorem AgreeBelowRoot.parentCv (key : CVWords) (left right : CVWords) :
    parentCv f key flags left right = Blake3.parentCv g key flags left right :=
  h.cvOf (or_and_root hflags rfl)

end Agree

/-! ### The tree and its root -/

section Root

variable (f : Compress) (key : CVWords) (flags : Word)

/-- The chaining values of the chunks, the leaves of the tree. -/
def chunkCvs (ctr : UInt64) (bytes : List Byte) : List CVWords :=
  chunkMap (chunkCv f key flags) ctr bytes

/-- The chaining value of the subtree over the chunks numbered from `ctr`. -/
def subtreeCv (ctr : UInt64) (bytes : List Byte) : CVWords :=
  fold (parentCv f key flags) (chunkCvs f key flags ctr bytes)

/-- The node at the top of the tree over a message. -/
def rootNode (bytes : List Byte) : CompressInput :=
  if bytes.length ≤ 1024 then chunkNode f key flags 0 bytes
  else
    let children := top (parentCv f key flags) (chunkCvs f key flags 0 bytes)
    parentNode key flags children.1 children.2

/-- Block `i` of the output of a root node. -/
def outputBlock (node : CompressInput) (i : UInt64) : Block :=
  leBytesFromWords64 (f { node with counter := i, flags := node.flags ||| Flag.root })

/-- The output stream of a root node. -/
def stream (node : CompressInput) (pos : ℕ) : Byte :=
  (outputBlock f node (UInt64.ofNat (pos / 64)))[pos % 64]

/-- `len` bytes of the output stream from position `pos`. -/
def streamBytes (node : CompressInput) (pos len : ℕ) : List Byte :=
  (List.range' pos len).map (stream f node)

@[simp] theorem length_streamBytes (node : CompressInput) (pos len : ℕ) :
    (streamBytes f node pos len).length = len := by simp [streamBytes]

theorem streamBytes_add (node : CompressInput) (pos m n : ℕ) :
    streamBytes f node pos (m + n) =
      streamBytes f node pos m ++ streamBytes f node (pos + m) n := by
  rw [streamBytes, streamBytes, streamBytes, ← List.map_append, List.range'_append_1]

/-- A piece of one block of the stream. -/
theorem streamBytes_block (node : CompressInput) {pos len : ℕ} (h : pos % 64 + len ≤ 64) :
    streamBytes f node pos len =
      ((outputBlock f node (UInt64.ofNat (pos / 64))).toList.drop (pos % 64)).take len := by
  refine List.ext_getElem ?_ fun i hi hi' => ?_
  · simp
    omega
  · simp only [length_streamBytes] at hi
    have hdiv : (pos + i) / 64 = pos / 64 := by omega
    have hmod : (pos + i) % 64 = pos % 64 + i := by omega
    simp [streamBytes, stream, hdiv, hmod]

/-- The default hash is made of the first eight words of the root compression. -/
theorem streamBytes_hash (node : CompressInput) :
    streamBytes f node 0 32 = (leBytesFromWords32 (first8Words (f { node with
      counter := 0, flags := node.flags ||| Flag.root }))).toList := by
  rw [streamBytes_block f node (by omega), ← take_leBytesFromWords64]
  rfl

end Root

end Blake3
