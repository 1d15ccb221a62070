import Collabswarm.Document.Sync

/-!
# Change trees

`CRDTChangeNode` with the payloads of its nodes, as any peer may send it: a CID
may occur several times, with and without payload and children, and its
occurrences may contradict each other.  A position in a list of entries is a
path of indices; `keyID` is left out, since nothing here reads it.
-/

namespace Collabswarm.Merkle

open Document (NodeKind)

/-- The fields of a node besides its children. -/
structure NodeData (P : Type) where
  kind : NodeKind
  change : Option P
deriving DecidableEq

mutual

/-- A change node with the fields `data`. -/
inductive ChangeTree (C L : Type) where
  | node (data : L) (children : ChildMap C L)

/-- The `children` field: `undefined`, deferred, or a map from CIDs. -/
inductive ChildMap (C L : Type) where
  | absent
  | deferred
  | present (entries : ChildEntries C L)

/-- The entries of a map of children, in the order of the keys. -/
inductive ChildEntries (C L : Type) where
  | nil
  | cons (cid : C) (child : ChangeTree C L) (rest : ChildEntries C L)

end

variable {C L M : Type}

/-- `Object.entries` of a map of children. -/
def ChildEntries.toList : ChildEntries C L → List (C × ChangeTree C L)
  | .nil => []
  | .cons cid child rest => (cid, child) :: rest.toList

namespace ChangeTree

def data : ChangeTree C L → L
  | .node data _ => data

def children : ChangeTree C L → ChildMap C L
  | .node _ children => children

end ChangeTree

/-- The entries of the `children` field; none if there is no map. -/
def ChildMap.toEntries : ChildMap C L → ChildEntries C L
  | .absent => .nil
  | .deferred => .nil
  | .present entries => entries

/-- The children of a node. -/
def ChangeTree.entries (n : ChangeTree C L) : List (C × ChangeTree C L) :=
  n.children.toEntries.toList

@[simp] theorem ChangeTree.entries_node (data : L) (children : ChildMap C L) :
    (ChangeTree.node data children).entries = children.toEntries.toList :=
  rfl

mutual

/-- The number of nodes of a tree. -/
def ChangeTree.size : ChangeTree C L → ℕ
  | .node _ children => 1 + children.size

/-- The number of nodes below a node. -/
def ChildMap.size : ChildMap C L → ℕ
  | .absent => 0
  | .deferred => 0
  | .present entries => entries.size

/-- The number of nodes of a map. -/
def ChildEntries.size : ChildEntries C L → ℕ
  | .nil => 0
  | .cons _ child rest => child.size + rest.size

end

mutual

/-- The tree with other fields in its nodes. -/
def ChangeTree.mapData (f : L → M) : ChangeTree C L → ChangeTree C M
  | .node data children => .node (f data) (children.mapData f)

/-- The map with other fields in its nodes. -/
def ChildMap.mapData (f : L → M) : ChildMap C L → ChildMap C M
  | .absent => .absent
  | .deferred => .deferred
  | .present entries => .present (entries.mapData f)

/-- The entries with other fields in their nodes. -/
def ChildEntries.mapData (f : L → M) :
    ChildEntries C L → ChildEntries C M
  | .nil => .nil
  | .cons cid child rest => .cons cid (child.mapData f) (rest.mapData f)

end

/-- A tree as a list of entries: its root, or what is below a root that has no
CID. -/
def rootEntries (rootId : Option C) (root : ChangeTree C L) :
    ChildEntries C L :=
  match rootId with
  | some cid => .cons cid root .nil
  | none => root.children.toEntries

/-! ## Positions -/

/-- A CID with a node. -/
abbrev Entry (C L : Type) := C × ChangeTree C L

/-- The entry at a position. -/
def entryAt : List (Entry C L) → List ℕ → Option (Entry C L)
  | _, [] => none
  | forest, [i] => forest[i]?
  | forest, i :: j :: path =>
      forest[i]?.bind fun e => entryAt e.2.entries (j :: path)

@[simp] theorem entryAt_nil_path (forest : List (Entry C L)) :
    entryAt forest [] = none := by
  rw [entryAt]

@[simp] theorem entryAt_empty (path : List ℕ) :
    entryAt ([] : List (Entry C L)) path = none := by
  match path with
  | [] => rfl
  | [i] => rfl
  | i :: j :: path => rfl

theorem entryAt_cons_cons (forest : List (Entry C L)) (i : ℕ) {path : List ℕ}
    (h : path ≠ []) :
    entryAt forest (i :: path) =
      forest[i]?.bind fun e => entryAt e.2.entries path := by
  match path with
  | [] => exact absurd rfl h
  | j :: path => rfl

@[simp] theorem entryAt_zero (e : Entry C L) (rest : List (Entry C L)) :
    entryAt (e :: rest) [0] = some e :=
  rfl

theorem entryAt_zero_cons (e : Entry C L) (rest : List (Entry C L))
    {path : List ℕ} (h : path ≠ []) :
    entryAt (e :: rest) (0 :: path) = entryAt e.2.entries path := by
  rw [entryAt_cons_cons _ _ h]
  rfl

@[simp] theorem entryAt_succ (e : Entry C L) (rest : List (Entry C L)) (i : ℕ)
    (path : List ℕ) :
    entryAt (e :: rest) ((i + 1) :: path) = entryAt rest (i :: path) := by
  match path with
  | [] => rfl
  | j :: path => rfl

/-- The children of the entry at a position stand at the positions below it. -/
theorem entryAt_concat (forest : List (Entry C L)) {path : List ℕ}
    (h : path ≠ []) (i : ℕ) :
    entryAt forest (path ++ [i]) =
      (entryAt forest path).bind fun e => e.2.entries[i]? := by
  induction path generalizing forest with
  | nil => exact absurd rfl h
  | cons j path ih =>
      rw [List.cons_append, entryAt_cons_cons _ _ (by simp)]
      by_cases hpath : path = []
      · subst hpath
        rfl
      · rw [entryAt_cons_cons _ _ hpath, Option.bind_assoc]
        congr 1
        funext e
        exact ih e.2.entries hpath

/-! ## Occurrences -/

/-- An entry on a path that meets no known CID. -/
inductive Reached (known : C → Prop) (forest : List (Entry C L)) :
    C → ChangeTree C L → Prop
  | root {c : C} {n : ChangeTree C L} : (c, n) ∈ forest → ¬known c →
      Reached known forest c n
  | child {c c' : C} {n n' : ChangeTree C L} : Reached known forest c n →
      (c', n') ∈ n.entries → ¬known c' → Reached known forest c' n'

/-- An entry anywhere. -/
abbrev Occurs (forest : List (Entry C L)) : C → ChangeTree C L → Prop :=
  Reached (fun _ => False) forest

theorem Reached.occurs {known : C → Prop} {forest : List (Entry C L)} {c : C}
    {n : ChangeTree C L} (h : Reached known forest c n) :
    Occurs forest c n := by
  induction h with
  | root hmem _ => exact Reached.root hmem not_false
  | child _ hmem _ ih => exact Reached.child ih hmem not_false

theorem Reached.not_known {known : C → Prop} {forest : List (Entry C L)}
    {c : C} {n : ChangeTree C L} (h : Reached known forest c n) :
    ¬known c := by
  cases h with
  | root _ hknown => exact hknown
  | child _ _ hknown => exact hknown

/-- What occurs below an entry occurs with it. -/
theorem Occurs.below {forest : List (Entry C L)} {c c' : C}
    {n n' : ChangeTree C L} (h : Occurs forest c n)
    (h' : Occurs n.entries c' n') : Occurs forest c' n' := by
  induction h' with
  | root hmem _ => exact Reached.child h hmem not_false
  | child _ hmem _ ih => exact Reached.child ih hmem not_false

theorem Occurs.mono {forest forest' : List (Entry C L)} {c : C}
    {n : ChangeTree C L} (h : Occurs forest c n) (hsub : forest ⊆ forest') :
    Occurs forest' c n := by
  induction h with
  | root hmem _ => exact Reached.root (hsub hmem) not_false
  | child _ hmem _ ih => exact Reached.child ih hmem not_false

/-- The occurrences are the entries at the positions. -/
theorem occurs_iff_entryAt {forest : List (Entry C L)} {c : C}
    {n : ChangeTree C L} :
    Occurs forest c n ↔ ∃ path, entryAt forest path = some (c, n) := by
  constructor
  · intro h
    induction h with
    | root hmem _ =>
        obtain ⟨i, hi⟩ := List.getElem?_of_mem hmem
        exact ⟨[i], hi⟩
    | child _ hmem _ ih =>
        obtain ⟨path, hpath⟩ := ih
        obtain ⟨i, hi⟩ := List.getElem?_of_mem hmem
        have hne : path ≠ [] := by
          rintro rfl
          cases hpath
        refine ⟨path ++ [i], ?_⟩
        rw [entryAt_concat _ hne, hpath]
        exact hi
  · rintro ⟨path, hpath⟩
    induction path using List.reverseRecOn generalizing c n with
    | nil => cases hpath
    | append_singleton path i ih =>
        by_cases hne : path = []
        · subst hne
          exact Reached.root (List.mem_of_getElem? hpath) not_false
        · rw [entryAt_concat _ hne] at hpath
          obtain ⟨⟨a, m⟩, hparent, hchild⟩ := Option.bind_eq_some_iff.1 hpath
          exact Reached.child (ih hparent) (List.mem_of_getElem? hchild)
            not_false

/-- What occurs in a list is one of its entries or occurs below one. -/
theorem occurs_iff_mem_or_below {forest : List (Entry C L)} {c : C}
    {n : ChangeTree C L} :
    Occurs forest c n ↔
      (c, n) ∈ forest ∨ ∃ e ∈ forest, Occurs e.2.entries c n := by
  constructor
  · intro h
    induction h with
    | root hmem _ => exact Or.inl hmem
    | @child a c' m n' _ hmem _ ih =>
        rcases ih with hparent | ⟨e, he, hbelow⟩
        · exact Or.inr ⟨(a, m), hparent, Reached.root hmem not_false⟩
        · exact Or.inr ⟨e, he, Reached.child hbelow hmem not_false⟩
  · rintro (hmem | ⟨e, he, hbelow⟩)
    · exact Reached.root hmem not_false
    · exact Occurs.below (Reached.root he not_false) hbelow

mutual

/-- An entry and all entries below it, depth first. -/
def ChangeTree.occurrences (cid : C) : ChangeTree C L → List (Entry C L)
  | .node data children =>
      (cid, .node data children) :: children.occurrences

/-- All entries below a node. -/
def ChildMap.occurrences : ChildMap C L → List (Entry C L)
  | .absent => []
  | .deferred => []
  | .present entries => entries.occurrences

/-- All entries of a map and below them. -/
def ChildEntries.occurrences : ChildEntries C L → List (Entry C L)
  | .nil => []
  | .cons cid child rest => child.occurrences cid ++ rest.occurrences

end

theorem occurs_nil_iff {c : C} {n : ChangeTree C L} :
    Occurs [] c n ↔ False := by
  rw [occurs_iff_mem_or_below]
  simp

theorem occurs_cons_iff {e : Entry C L} {rest : List (Entry C L)} {c : C}
    {n : ChangeTree C L} :
    Occurs (e :: rest) c n ↔
      (c, n) = e ∨ Occurs e.2.entries c n ∨ Occurs rest c n := by
  have hrest : Occurs rest c n ↔
      (c, n) ∈ rest ∨ ∃ e ∈ rest, Occurs e.2.entries c n :=
    occurs_iff_mem_or_below
  rw [occurs_iff_mem_or_below, hrest]
  simp only [List.mem_cons, exists_eq_or_imp]
  tauto

mutual

theorem ChangeTree.mem_occurrences {cid : C} {e : Entry C L} :
    ∀ n : ChangeTree C L, e ∈ n.occurrences cid ↔
      e = (cid, n) ∨ Occurs n.entries e.1 e.2
  | .node data children => by
      rw [ChangeTree.occurrences, List.mem_cons, ChildMap.mem_occurrences]
      rfl

theorem ChildMap.mem_occurrences {e : Entry C L} :
    ∀ children : ChildMap C L, e ∈ children.occurrences ↔
      Occurs children.toEntries.toList e.1 e.2
  | .absent => by
      rw [ChildMap.occurrences]
      exact iff_of_false (by simp) occurs_nil_iff.1
  | .deferred => by
      rw [ChildMap.occurrences]
      exact iff_of_false (by simp) occurs_nil_iff.1
  | .present entries => by
      rw [ChildMap.occurrences, ChildEntries.mem_occurrences]
      rfl

/-- The list contains what occurs. -/
theorem ChildEntries.mem_occurrences {e : Entry C L} :
    ∀ entries : ChildEntries C L, e ∈ entries.occurrences ↔
      Occurs entries.toList e.1 e.2
  | .nil => by
      rw [ChildEntries.occurrences]
      exact iff_of_false (by simp) occurs_nil_iff.1
  | .cons cid child rest => by
      rw [ChildEntries.occurrences, List.mem_append,
        ChangeTree.mem_occurrences, ChildEntries.mem_occurrences,
        ChildEntries.toList, occurs_cons_iff, or_assoc]

end

/-! ## The order of keys -/

mutual

/-- Two trees that are equal up to the order of the keys of their maps. -/
inductive SameTree : ChangeTree C L → ChangeTree C L → Prop
  | node {data : L} {children children' : ChildMap C L} :
      SameChildren children children' →
      SameTree (.node data children) (.node data children')

/-- Two fields that are equal up to the order of keys. -/
inductive SameChildren : ChildMap C L → ChildMap C L → Prop
  | absent : SameChildren .absent .absent
  | deferred : SameChildren .deferred .deferred
  | present {entries entries' : ChildEntries C L} :
      SameEntries entries entries' →
      SameChildren (.present entries) (.present entries')

/-- Two maps that are equal up to the order of keys. -/
inductive SameEntries : ChildEntries C L → ChildEntries C L → Prop
  | nil : SameEntries .nil .nil
  | cons {cid : C} {n n' : ChangeTree C L} {rest rest' : ChildEntries C L} :
      SameTree n n' → SameEntries rest rest' →
      SameEntries (.cons cid n rest) (.cons cid n' rest')
  | swap {cid cid' : C} {n n' : ChangeTree C L} {rest : ChildEntries C L} :
      SameEntries (.cons cid n (.cons cid' n' rest))
        (.cons cid' n' (.cons cid n rest))
  | trans {entries entries' entries'' : ChildEntries C L} :
      SameEntries entries entries' → SameEntries entries' entries'' →
      SameEntries entries entries''

end

mutual

theorem SameTree.refl : ∀ n : ChangeTree C L, SameTree n n
  | .node _ children => .node (SameChildren.refl children)

theorem SameChildren.refl : ∀ children : ChildMap C L,
    SameChildren children children
  | .absent => .absent
  | .deferred => .deferred
  | .present entries => .present (SameEntries.refl entries)

theorem SameEntries.refl : ∀ entries : ChildEntries C L,
    SameEntries entries entries
  | .nil => .nil
  | .cons _ child rest => .cons (SameTree.refl child) (SameEntries.refl rest)

end

mutual

theorem SameTree.symm {n n' : ChangeTree C L} :
    SameTree n n' → SameTree n' n
  | .node h => .node h.symm

theorem SameChildren.symm {children children' : ChildMap C L} :
    SameChildren children children' → SameChildren children' children
  | .absent => .absent
  | .deferred => .deferred
  | .present h => .present h.symm

theorem SameEntries.symm {entries entries' : ChildEntries C L} :
    SameEntries entries entries' → SameEntries entries' entries
  | .nil => .nil
  | .cons h h' => .cons h.symm h'.symm
  | .swap => .swap
  | .trans h h' => .trans h'.symm h.symm

end

theorem SameTree.trans {n n' n'' : ChangeTree C L} (h : SameTree n n')
    (h' : SameTree n' n'') : SameTree n n'' := by
  obtain ⟨hchildren⟩ := h
  obtain ⟨hchildren'⟩ := h'
  apply SameTree.node
  cases hchildren with
  | absent => exact hchildren'
  | deferred => exact hchildren'
  | present hentries =>
      obtain ⟨⟩ | ⟨⟩ | ⟨hentries'⟩ := hchildren'
      exact .present (hentries.trans hentries')

theorem SameTree.data_eq {n n' : ChangeTree C L} (h : SameTree n n') :
    n.data = n'.data := by
  obtain ⟨-⟩ := h
  rfl

/-- An entry of one map is in the other one, up to the order of keys. -/
theorem SameEntries.exists_mem {entries entries' : ChildEntries C L} {c : C}
    {n : ChangeTree C L} :
    SameEntries entries entries' → (c, n) ∈ entries.toList →
      ∃ n', (c, n') ∈ entries'.toList ∧ SameTree n n'
  | .nil, hmem => by cases hmem
  | @SameEntries.cons _ _ _ _ m' _ _ hsame hrest, hmem => by
      rcases List.mem_cons.1 hmem with heq | hmem
      · cases heq
        exact ⟨m', List.mem_cons_self, hsame⟩
      · obtain ⟨n', hn', hsame'⟩ := hrest.exists_mem hmem
        exact ⟨n', List.mem_cons_of_mem _ hn', hsame'⟩
  | .swap, hmem => by
      refine ⟨n, ?_, SameTree.refl n⟩
      simp only [ChildEntries.toList, List.mem_cons] at hmem ⊢
      tauto
  | .trans h h', hmem => by
      obtain ⟨n', hn', hsame⟩ := h.exists_mem hmem
      obtain ⟨n'', hn'', hsame'⟩ := h'.exists_mem hn'
      exact ⟨n'', hn'', hsame.trans hsame'⟩

theorem SameTree.exists_mem {n n' m : ChangeTree C L} {c : C}
    (h : SameTree n n') (hmem : (c, m) ∈ n.entries) :
    ∃ m', (c, m') ∈ n'.entries ∧ SameTree m m' := by
  obtain ⟨hchildren⟩ := h
  cases hchildren with
  | absent => cases hmem
  | deferred => cases hmem
  | present hentries => exact hentries.exists_mem hmem

/-- What is reached in a tree is reached in the other one, up to the order of
keys. -/
theorem Reached.reorder {known : C → Prop}
    {entries entries' : ChildEntries C L} (hsame : SameEntries entries entries')
    {c : C} {n : ChangeTree C L} (h : Reached known entries.toList c n) :
    ∃ n', Reached known entries'.toList c n' ∧ SameTree n n' := by
  induction h with
  | root hmem hknown =>
      obtain ⟨n', hn', hn⟩ := hsame.exists_mem hmem
      exact ⟨n', Reached.root hn' hknown, hn⟩
  | child _ hmem hknown ih =>
      obtain ⟨m', hm', hm⟩ := ih
      obtain ⟨n', hn', hn⟩ := hm.exists_mem hmem
      exact ⟨n', Reached.child hm' hn' hknown, hn⟩

end Collabswarm.Merkle
