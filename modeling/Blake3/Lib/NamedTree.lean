import Mathlib.Data.List.Basic
import Mathlib.Data.List.Nodup

/-!
The depth-first walk of a tree whose nodes are named by the paths to them. A node
holds a list of named items, each a subtree or a leaf with a value.
-/

namespace NamedTree

variable {K E : Type*}

/-- The leaves of the items of `p`, in their order, where `below` walks the subtrees. -/
def gather (below : List K → Option (List (List K × E))) (p : List K) :
    List (K × Option E) → Option (List (List K × E))
  | [] => some []
  | (k, none) :: rest => do
      let here ← below (p ++ [k])
      let leaves ← gather below p rest
      return here ++ leaves
  | (k, some e) :: rest => do
      let leaves ← gather below p rest
      return (p ++ [k], e) :: leaves

variable (items : List K → List (K × Option E))

/-- The leaves below a node with their paths; `none` if that takes more than
`fuel` levels. -/
def walk : ℕ → List K → Option (List (List K × E))
  | 0, _ => none
  | fuel + 1, p => gather (walk fuel) p (items p)

/-- The nodes below `p` that are walked. -/
inductive Branch (p : List K) : List K → Prop where
  | root : Branch p p
  | step {q : List K} {k : K} (h : Branch p q) (hk : (k, none) ∈ items q) : Branch p (q ++ [k])

/-! ### Gathering -/

section

variable {below below' : List K → Option (List (List K × E))} {p : List K}

theorem mem_gather {is : List (K × Option E)} {leaves : List (List K × E)}
    (h : gather below p is = some leaves) {q : List K} {e : E} :
    (q, e) ∈ leaves ↔ (∃ k, (k, some e) ∈ is ∧ q = p ++ [k]) ∨
      ∃ k here, (k, none) ∈ is ∧ below (p ++ [k]) = some here ∧ (q, e) ∈ here := by
  induction is generalizing leaves with
  | nil =>
      cases h
      simp
  | cons i is ih =>
      obtain ⟨k, _ | e'⟩ := i
      · obtain ⟨here, hhere, h⟩ := Option.bind_eq_some_iff.mp h
        obtain ⟨rest, hrest, h⟩ := Option.bind_eq_some_iff.mp h
        cases h
        rw [List.mem_append, ih hrest]
        constructor
        · rintro (hmem | ⟨k', hk', hq⟩ | ⟨k', here', hk', hhere', hmem⟩)
          · exact .inr ⟨k, here, List.mem_cons_self, hhere, hmem⟩
          · exact .inl ⟨k', List.mem_cons_of_mem _ hk', hq⟩
          · exact .inr ⟨k', here', List.mem_cons_of_mem _ hk', hhere', hmem⟩
        · rintro (⟨k', hk', hq⟩ | ⟨k', here', hk', hhere', hmem⟩)
          · rcases List.mem_cons.mp hk' with heq | hk'
            · cases heq
            · exact .inr (.inl ⟨k', hk', hq⟩)
          · rcases List.mem_cons.mp hk' with heq | hk'
            · cases heq
              cases hhere.symm.trans hhere'
              exact .inl hmem
            · exact .inr (.inr ⟨k', here', hk', hhere', hmem⟩)
      · obtain ⟨rest, hrest, h⟩ := Option.bind_eq_some_iff.mp h
        cases h
        rw [List.mem_cons, ih hrest]
        constructor
        · rintro (heq | ⟨k', hk', hq⟩ | ⟨k', here', hk', hhere', hmem⟩)
          · cases heq
            exact .inl ⟨k, List.mem_cons_self, rfl⟩
          · exact .inl ⟨k', List.mem_cons_of_mem _ hk', hq⟩
          · exact .inr ⟨k', here', List.mem_cons_of_mem _ hk', hhere', hmem⟩
        · rintro (⟨k', hk', hq⟩ | ⟨k', here', hk', hhere', hmem⟩)
          · rcases List.mem_cons.mp hk' with heq | hk'
            · cases heq
              exact .inl (by rw [hq])
            · exact .inr (.inl ⟨k', hk', hq⟩)
          · rcases List.mem_cons.mp hk' with heq | hk'
            · cases heq
            · exact .inr (.inr ⟨k', here', hk', hhere', hmem⟩)

theorem exists_of_gather {is : List (K × Option E)} {leaves : List (List K × E)}
    (h : gather below p is = some leaves) {k : K} (hk : (k, none) ∈ is) :
    ∃ here, below (p ++ [k]) = some here := by
  induction is generalizing leaves with
  | nil => cases hk
  | cons i is ih =>
      obtain ⟨k', _ | e⟩ := i
      · obtain ⟨here, hhere, h⟩ := Option.bind_eq_some_iff.mp h
        obtain ⟨rest, hrest, -⟩ := Option.bind_eq_some_iff.mp h
        rcases List.mem_cons.mp hk with heq | hk
        · cases heq
          exact ⟨here, hhere⟩
        · exact ih hrest hk
      · obtain ⟨rest, hrest, -⟩ := Option.bind_eq_some_iff.mp h
        rcases List.mem_cons.mp hk with heq | hk
        · cases heq
        · exact ih hrest hk

theorem gather_congr {is : List (K × Option E)}
    (h : ∀ k, (k, none) ∈ is → below' (p ++ [k]) = below (p ++ [k])) :
    gather below' p is = gather below p is := by
  induction is with
  | nil => rfl
  | cons i is ih =>
      have hrest := ih fun k hk => h k (List.mem_cons_of_mem _ hk)
      obtain ⟨k, _ | e⟩ := i
      · rw [gather, gather, h k List.mem_cons_self, hrest]
      · rw [gather, gather, hrest]

theorem gather_total {is : List (K × Option E)}
    (h : ∀ k, (k, none) ∈ is → ∃ here, below (p ++ [k]) = some here) :
    ∃ leaves, gather below p is = some leaves := by
  induction is with
  | nil => exact ⟨[], rfl⟩
  | cons i is ih =>
      obtain ⟨rest, hrest⟩ := ih fun k hk => h k (List.mem_cons_of_mem _ hk)
      obtain ⟨k, _ | e⟩ := i
      · obtain ⟨here, hhere⟩ := h k List.mem_cons_self
        exact ⟨here ++ rest, by rw [gather, hhere, hrest]; rfl⟩
      · exact ⟨_, by rw [gather, hrest]; rfl⟩

/-- The paths are all different, if the names are and the subtrees keep below theirs. -/
theorem nodup_gather {is : List (K × Option E)} {leaves : List (List K × E)}
    (h : gather below p is = some leaves) (hkeys : (is.map Prod.fst).Nodup)
    (hbelow : ∀ k here, below (p ++ [k]) = some here →
      (here.map Prod.fst).Nodup ∧ ∀ q ∈ here.map Prod.fst, p ++ [k] <+: q) :
    (leaves.map Prod.fst).Nodup ∧
      ∀ q ∈ leaves.map Prod.fst, ∃ k ∈ is.map Prod.fst, p ++ [k] <+: q := by
  induction is generalizing leaves with
  | nil =>
      cases h
      simp
  | cons i is ih =>
      rw [List.map_cons, List.nodup_cons] at hkeys
      -- a path below another name is another path
      have hother {k : K} {q : List K} (hk : k ∉ is.map Prod.fst) (hq : p ++ [k] <+: q)
          (hrest : ∃ k ∈ is.map Prod.fst, p ++ [k] <+: q) : False := by
        obtain ⟨k', hk', hq'⟩ := hrest
        have heq := (List.prefix_of_prefix_length_le hq hq' (by simp)).eq_of_length (by simp)
        exact hk (List.singleton_inj.mp (List.append_cancel_left heq) ▸ hk')
      obtain ⟨k, _ | e⟩ := i
      · obtain ⟨here, hhere, h⟩ := Option.bind_eq_some_iff.mp h
        obtain ⟨rest, hrest, h⟩ := Option.bind_eq_some_iff.mp h
        cases h
        obtain ⟨hnodup, hunder⟩ := ih hrest hkeys.2
        obtain ⟨hnodup', hunder'⟩ := hbelow k here hhere
        rw [List.map_append]
        refine ⟨List.Nodup.append hnodup' hnodup fun q hq hq' =>
          hother hkeys.1 (hunder' q hq) (hunder q hq'), fun q hq => ?_⟩
        rcases List.mem_append.mp hq with hq | hq
        · exact ⟨k, List.mem_cons_self, hunder' q hq⟩
        · obtain ⟨k', hk', hpre⟩ := hunder q hq
          exact ⟨k', List.mem_cons_of_mem _ hk', hpre⟩
      · obtain ⟨rest, hrest, h⟩ := Option.bind_eq_some_iff.mp h
        cases h
        obtain ⟨hnodup, hunder⟩ := ih hrest hkeys.2
        rw [List.map_cons, List.nodup_cons]
        refine ⟨⟨fun hq => hother hkeys.1 (List.prefix_refl _) (hunder _ hq), hnodup⟩,
          fun q hq => ?_⟩
        rcases List.mem_cons.mp hq with rfl | hq
        · exact ⟨k, List.mem_cons_self, List.prefix_refl _⟩
        · obtain ⟨k', hk', hpre⟩ := hunder q hq
          exact ⟨k', List.mem_cons_of_mem _ hk', hpre⟩

end

/-! ### Branches -/

section

variable {items} {p q : List K}

theorem Branch.trans {r : List K} (h : Branch items p q) (h' : Branch items q r) :
    Branch items p r := by
  induction h' with
  | root => exact h
  | step _ hk ih => exact ih.step hk

theorem Branch.cons {k : K} (hk : (k, none) ∈ items p) (h : Branch items (p ++ [k]) q) :
    Branch items p q :=
  (Branch.root.step hk).trans h

/-- The last step of a branch. -/
theorem branch_concat {k : K} :
    Branch items [] (q ++ [k]) ↔ Branch items [] q ∧ (k, none) ∈ items q := by
  constructor
  · intro h
    generalize hr : q ++ [k] = r at h
    cases h with
    | root => simp at hr
    | step h hk =>
        obtain ⟨rfl, hname⟩ := List.append_inj' hr rfl
        cases hname
        exact ⟨h, hk⟩
  · rintro ⟨h, hk⟩
    exact h.step hk

/-- The first step of a branch. -/
theorem branch_iff :
    Branch items p q ↔ q = p ∨ ∃ k, (k, none) ∈ items p ∧ Branch items (p ++ [k]) q := by
  constructor
  · intro h
    induction h with
    | root => exact .inl rfl
    | step h hk ih =>
        rcases ih with rfl | ⟨k', hk', h'⟩
        · exact .inr ⟨_, hk, .root⟩
        · exact .inr ⟨k', hk', h'.step hk⟩
  · rintro (rfl | ⟨k, hk, h⟩)
    · exact .root
    · exact h.cons hk

end

/-! ### The walk -/

section

variable {items} {fuel : ℕ} {p : List K} {leaves : List (List K × E)}

/-- A leaf is found if and only if it is an item of a node that is walked. -/
theorem mem_walk (h : walk items fuel p = some leaves) {q : List K} {e : E} :
    (q, e) ∈ leaves ↔ ∃ r k, Branch items p r ∧ (k, some e) ∈ items r ∧ q = r ++ [k] := by
  induction fuel generalizing p leaves with
  | zero => cases h
  | succ fuel ih =>
      rw [walk] at h
      rw [mem_gather h]
      constructor
      · rintro (⟨k, hk, hq⟩ | ⟨k, here, hk, hhere, hmem⟩)
        · exact ⟨p, k, .root, hk, hq⟩
        · obtain ⟨r, k', hr, hk', hq⟩ := (ih hhere).mp hmem
          exact ⟨r, k', hr.cons hk, hk', hq⟩
      · rintro ⟨r, k, hr, hk, hq⟩
        rcases branch_iff.mp hr with rfl | ⟨k', hk', hr'⟩
        · exact .inl ⟨k, hk, hq⟩
        · obtain ⟨here, hhere⟩ := exists_of_gather h hk'
          exact .inr ⟨k', here, hk', hhere, (ih hhere).mpr ⟨r, k, hr', hk, hq⟩⟩

theorem nodup_walk (hkeys : ∀ q, ((items q).map Prod.fst).Nodup)
    (h : walk items fuel p = some leaves) :
    (leaves.map Prod.fst).Nodup ∧ ∀ q ∈ leaves.map Prod.fst, p <+: q := by
  induction fuel generalizing p leaves with
  | zero => cases h
  | succ fuel ih =>
      obtain ⟨hnodup, hunder⟩ := nodup_gather h (hkeys p) fun k here hhere => ih hhere
      refine ⟨hnodup, fun q hq => ?_⟩
      obtain ⟨k, -, hpre⟩ := hunder q hq
      exact (List.prefix_append _ _).trans hpre

/-- The walk ends if no branch is longer than the fuel. -/
theorem walk_total (h : ∀ q, Branch items p q → q.length < p.length + fuel) :
    ∃ leaves, walk items fuel p = some leaves := by
  induction fuel generalizing p with
  | zero => exact absurd (h p .root) (Nat.lt_irrefl _)
  | succ fuel ih =>
      refine gather_total fun k hk => ih fun q hq => ?_
      have hlt := h q (hq.cons hk)
      rw [List.length_append, List.length_singleton]
      omega

/-- More fuel makes no difference to a walk that ends. -/
theorem walk_succ (h : walk items fuel p = some leaves) :
    walk items (fuel + 1) p = some leaves := by
  induction fuel generalizing p leaves with
  | zero => cases h
  | succ fuel ih =>
      rw [walk] at h ⊢
      rw [← h]
      refine gather_congr fun k hk => ?_
      obtain ⟨here, hhere⟩ := exists_of_gather h hk
      rw [hhere, ih hhere]

theorem walk_of_le {fuel' : ℕ} (h : walk items fuel p = some leaves) (hle : fuel ≤ fuel') :
    walk items fuel' p = some leaves := by
  induction hle with
  | refl => exact h
  | step _ ih => exact walk_succ ih

/-- Two walks that end find the same. -/
theorem walk_unique {fuel' : ℕ} {leaves' : List (List K × E)}
    (h : walk items fuel p = some leaves) (h' : walk items fuel' p = some leaves') :
    leaves' = leaves := by
  have hmax := walk_of_le h (Nat.le_max_left fuel fuel')
  rw [walk_of_le h' (Nat.le_max_right fuel fuel')] at hmax
  exact Option.some.inj hmax

/-- A tree of one branch with a leaf at its end. -/
theorem walk_chain {chain : List K} {k : K} {e : E}
    (hchain : ∀ above n below, chain = above ++ n :: below → items (p ++ above) = [(n, none)])
    (hleaf : items (p ++ chain) = [(k, some e)]) :
    walk items (chain.length + 1) p = some [(p ++ chain ++ [k], e)] := by
  induction chain generalizing p with
  | nil =>
      rw [List.append_nil] at hleaf
      rw [walk, hleaf, List.append_nil]
      rfl
  | cons n chain ih =>
      have hfirst := hchain [] n chain rfl
      rw [List.append_nil] at hfirst
      have hbelow := ih (p := p ++ [n])
        (fun above m below h => by
          rw [List.append_assoc]
          exact hchain (n :: above) m below (by rw [h, List.cons_append]))
        (by rwa [List.append_assoc])
      rw [walk, hfirst, gather, List.length_cons, hbelow]
      simp [gather]

/-- Trees with the same items on what is walked are walked alike. -/
theorem walk_congr {items' : List K → List (K × Option E)}
    (h : ∀ q, Branch items p q → items' q = items q) :
    walk items' fuel p = walk items fuel p := by
  induction fuel generalizing p with
  | zero => rfl
  | succ fuel ih =>
      rw [walk, walk, h p .root]
      exact gather_congr fun k hk => ih fun q hq => h q (hq.cons hk)

end

end NamedTree
