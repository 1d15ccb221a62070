import Collabswarm.Document.LocalChanges
import Collabswarm.Support.BreadthFirst

/-!
# Snapshots and pruning

`snapshot` and `_pruneChanges`.  The state of a snapshot is captured, then the
signature is awaited, and then the served tree is pruned in place.  A node of
the tree is named by its path from the root; the traversal decides which nodes
lose their children, and these keep only the ACL nodes below them, as leaves.
The blocks of pruned nodes, which are collected only on request, are left out.
-/

namespace Collabswarm.Document

variable {C : Type}

/-! ## Positions in a tree -/

/-- The entries of the children of a node. -/
def ChangeNode.entries (n : ChangeNode C) : List (C × ChangeNode C) :=
  match n.children with
  | .present nodes => nodes.toList
  | _ => []

/-- The node at a path, with its CID. -/
def entryAt : C × ChangeNode C → List ℕ → Option (C × ChangeNode C)
  | entry, [] => some entry
  | entry, i :: path =>
      entry.2.entries[i]?.bind fun child => entryAt child path

/-- The paths of the children of a node. -/
def childPaths (tree : C × ChangeNode C) (path : List ℕ) : List (List ℕ) :=
  match entryAt tree path with
  | some entry =>
      (List.range entry.2.entries.length).map fun i => path ++ [i]
  | none => []

/-- There is a document node at the path. -/
def isDocumentAt (tree : C × ChangeNode C) (path : List ℕ) : Bool :=
  match entryAt tree path with
  | some entry => entry.2.kind = .document
  | none => false

mutual

/-- The number of nodes of a tree. -/
def nodeCount : ChangeNode C → ℕ
  | .mk _ _ children => 1 + childrenCount children

/-- The number of nodes below a node. -/
def childrenCount : Children C → ℕ
  | .absent => 0
  | .deferred => 0
  | .present nodes => listCount nodes

/-- The number of nodes of a map of children. -/
def listCount : ChildList C → ℕ
  | .nil => 0
  | .cons _ node rest => nodeCount node + listCount rest

end

/-! ## Pruning -/

/-- The nodes at which the breadth-first loop of `_pruneChanges` cuts.  Where a
node has no children this changes nothing. -/
def boundary (keepCount : ℕ) (tree : C × ChangeNode C) : List (List ℕ) :=
  BreadthFirst.cuts (childPaths tree) (isDocumentAt tree) keepCount
    (nodeCount tree.2) [[]] 0

/-- Set a key of a record. -/
def ChildList.setKey [DecidableEq C] (cid : C) (node : ChangeNode C) :
    ChildList C → ChildList C
  | .nil => .cons cid node .nil
  | .cons cid' node' rest =>
      if cid' = cid then .cons cid' node rest
      else .cons cid' node' (rest.setKey cid node)

section Prune

variable [DecidableEq C]

mutual

/-- `collectACLNodes` at one child. -/
def collectACLNode (out : ChildList C) (cid : C) :
    ChangeNode C → ChildList C
  | .mk kind hasChange children =>
      collectACLChildren
        (if kind = .document then out
          else out.setKey cid (.mk kind hasChange .absent)) children

/-- `collectACLNodes` below a child. -/
def collectACLChildren (out : ChildList C) : Children C → ChildList C
  | .absent => out
  | .deferred => out
  | .present nodes => collectACLNodes out nodes

/-- `collectACLNodes`. -/
def collectACLNodes (out : ChildList C) : ChildList C → ChildList C
  | .nil => out
  | .cons cid node rest => collectACLNodes (collectACLNode out cid node) rest

end

/-- The children of a node at the boundary. -/
def preservedACL : Children C → Children C
  | .present nodes =>
      match collectACLNodes .nil nodes with
      | .nil => .absent
      | preserved => .present preserved
  | children => children

instance lawfulBEq_path : LawfulBEq (List ℕ) := inferInstance

mutual

/-- The tree after the nodes of `cut` lost their children. -/
def pruneNode (cut : List (List ℕ)) (path : List ℕ) :
    ChangeNode C → ChangeNode C
  | .mk kind hasChange children =>
      .mk kind hasChange
        (if path ∈ cut then preservedACL children
          else pruneChildren cut path children)

/-- The children of a node that keeps them. -/
def pruneChildren (cut : List (List ℕ)) (path : List ℕ) :
    Children C → Children C
  | .absent => .absent
  | .deferred => .deferred
  | .present nodes => .present (pruneList cut path 0 nodes)

/-- The children from the one with number `i` on. -/
def pruneList (cut : List (List ℕ)) (path : List ℕ) (i : ℕ) :
    ChildList C → ChildList C
  | .nil => .nil
  | .cons cid node rest =>
      .cons cid (pruneNode cut (path ++ [i]) node)
        (pruneList cut path (i + 1) rest)

end

/-- `_pruneChanges`. -/
def pruneChanges (keepCount : ℕ) (tree : C × ChangeNode C) :
    C × ChangeNode C :=
  if keepCount = 0 then tree
  else (tree.1, pruneNode (boundary keepCount tree) [] tree.2)

end Prune

/-! ## The nodes of a tree as a forest of paths -/

theorem entryAt_append (r : List ℕ) :
    ∀ (path : List ℕ) (tree : C × ChangeNode C),
      entryAt tree (path ++ r) =
        (entryAt tree path).bind fun entry => entryAt entry r := by
  intro path
  induction path with
  | nil =>
      intro tree
      rfl
  | cons j path ih =>
      intro tree
      rw [List.cons_append, entryAt, entryAt, Option.bind_assoc]
      congr 1
      funext child
      exact ih child

theorem entryAt_concat (i : ℕ) (path : List ℕ) (tree : C × ChangeNode C) :
    entryAt tree (path ++ [i]) =
      (entryAt tree path).bind fun entry => entry.2.entries[i]? := by
  rw [entryAt_append]
  congr 1
  funext entry
  simp [entryAt]

/-- The occurrences of a tree are its positions. -/
theorem occurs_iff_entryAt {tree : C × ChangeNode C} {c : C}
    {n : ChangeNode C} :
    Occurs tree.1 tree.2 c n ↔ ∃ path, entryAt tree path = some (c, n) := by
  constructor
  · intro h
    induction h with
    | root _ => exact ⟨[], rfl⟩
    | @child a c' na n' nodes _ hchildren hmem _ ih =>
        obtain ⟨path, hpath⟩ := ih
        obtain ⟨i, hi⟩ := List.getElem?_of_mem hmem
        refine ⟨path ++ [i], ?_⟩
        rw [entryAt_concat, hpath, Option.bind_some, ChangeNode.entries,
          hchildren]
        exact hi
  · rintro ⟨path, hpath⟩
    induction path using List.reverseRecOn generalizing c n with
    | nil =>
        cases hpath
        exact Reached.root rfl
    | append_singleton path i ih =>
        rw [entryAt_concat] at hpath
        obtain ⟨⟨a, na⟩, hparent, hchild⟩ := Option.bind_eq_some_iff.1 hpath
        rw [ChangeNode.entries] at hchild
        split at hchild
        · rename_i nodes hnodes
          exact Reached.child (ih hparent) hnodes
            (List.mem_of_getElem? hchild) rfl
        · cases hchild

theorem listCount_eq (nodes : ChildList C) :
    listCount nodes =
      (nodes.toList.map fun entry => nodeCount entry.2).sum := by
  cases nodes with
  | nil => rfl
  | cons _ node rest =>
      rw [listCount, listCount_eq rest, ChildList.toList, List.map_cons,
        List.sum_cons]

theorem nodeCount_eq (n : ChangeNode C) :
    nodeCount n = 1 + (n.entries.map fun entry => nodeCount entry.2).sum := by
  obtain ⟨kind, hasChange, children⟩ := n
  rw [nodeCount]
  cases children with
  | absent => rfl
  | deferred => rfl
  | present nodes => rw [childrenCount, listCount_eq]; rfl

/-- The size of the tree at a path. -/
def sizeAt (tree : C × ChangeNode C) (path : List ℕ) : ℕ :=
  match entryAt tree path with
  | some entry => nodeCount entry.2
  | none => 1

theorem isPrefix_of_descends {tree : C × ChangeNode C} {p q : List ℕ}
    (h : BreadthFirst.Descends (childPaths tree) p q) : p <+: q := by
  induction h with
  | refl => exact List.prefix_refl p
  | @tail b c _ hc ih =>
      rw [childPaths] at hc
      split at hc
      · obtain ⟨i, -, rfl⟩ := List.mem_map.1 hc
        exact ih.trans (List.prefix_append b [i])
      · cases hc

/-- All prefixes of a position are above it. -/
theorem descends_of_isPrefix {tree : C × ChangeNode C} {p : List ℕ} :
    ∀ {r : List ℕ}, (entryAt tree (p ++ r)).isSome →
      BreadthFirst.Descends (childPaths tree) p (p ++ r) := by
  intro r
  induction r using List.reverseRecOn with
  | nil =>
      intro _
      rw [List.append_nil]
      exact Relation.ReflTransGen.refl
  | append_singleton r i ih =>
      intro h
      rw [← List.append_assoc, entryAt_concat] at h
      obtain ⟨entry, hentry⟩ := Option.isSome_iff_exists.1 h
      obtain ⟨parent, hparent, hchild⟩ := Option.bind_eq_some_iff.1 hentry
      rw [← List.append_assoc]
      refine Relation.ReflTransGen.tail (ih (by rw [hparent]; rfl)) ?_
      rw [childPaths, hparent]
      have hlt := (List.getElem?_eq_some_iff.1 hchild).1
      exact List.mem_map.2 ⟨i, List.mem_range.2 hlt, rfl⟩

theorem sum_sizeAt (tree : C × ChangeNode C) (path : List ℕ) :
    ((childPaths tree path).map (sizeAt tree)).sum < sizeAt tree path := by
  rw [childPaths]
  rcases hpath : entryAt tree path with _ | entry
  · simp [sizeAt, hpath]
  · have hchild : ∀ i ∈ List.range entry.2.entries.length,
        sizeAt tree (path ++ [i]) =
          ((entry.2.entries.map fun entry => nodeCount entry.2)[i]?).getD 0 := by
      intro i hi
      rw [sizeAt, entryAt_concat, hpath, Option.bind_some, List.getElem?_map,
        List.getElem?_eq_getElem (List.mem_range.1 hi)]
      rfl
    have hsum : ((List.range entry.2.entries.length).map fun i =>
        sizeAt tree (path ++ [i])) =
          entry.2.entries.map fun entry => nodeCount entry.2 := by
      apply List.ext_getElem
      · simp
      · intro i h₁ h₂
        have hi : i < entry.2.entries.length := by simpa using h₂
        rw [List.getElem_map, List.getElem_range,
          hchild i (List.mem_range.2 hi), List.getElem?_eq_getElem h₂]
        rfl
    rw [List.map_map]
    change ((List.range entry.2.entries.length).map fun i =>
      sizeAt tree (path ++ [i])).sum < _
    rw [hsum, sizeAt, hpath]
    dsimp only
    rw [nodeCount_eq]
    omega

theorem childPaths_forest (tree : C × ChangeNode C) :
    BreadthFirst.Forest (childPaths tree) (sizeAt tree) where
  apart := by
    intro path
    rw [BreadthFirst.Apart, childPaths]
    split
    · rw [List.pairwise_map]
      refine List.pairwise_lt_range.imp ?_
      intro i j hij x hi hj
      have hsame := List.prefix_of_prefix_length_le (isPrefix_of_descends hi)
        (isPrefix_of_descends hj) (by simp)
      have heq := hsame.eq_of_length (by simp)
      rw [List.append_cancel_left_eq, List.singleton_inj] at heq
      omega
    · exact List.Pairwise.nil
  acyclic := by
    intro path b hb hdescends
    have hprefix := (isPrefix_of_descends hdescends).length_le
    rw [childPaths] at hb
    split at hb
    · obtain ⟨i, -, rfl⟩ := List.mem_map.1 hb
      rw [List.length_append, List.length_singleton] at hprefix
      omega
    · cases hb
  size_children := sum_sizeAt tree

/-! ## What remains after pruning -/

/-- All nodes of a record are ACL nodes without children. -/
def ACLLeaves (nodes : ChildList C) : Prop :=
  ∀ entry ∈ nodes.toList,
    entry.2.kind ≠ .document ∧ entry.2.children = .absent

section Pruned

variable [DecidableEq C]

theorem ACLLeaves.setKey {cid : C} {node : ChangeNode C}
    (hnode : node.kind ≠ .document ∧ node.children = .absent) :
    ∀ {out : ChildList C}, ACLLeaves out → ACLLeaves (out.setKey cid node)
  | .nil, _ => by
      intro entry hentry
      rw [ChildList.setKey, ChildList.toList, ChildList.toList,
        List.mem_singleton] at hentry
      rw [hentry]
      exact hnode
  | .cons cid' node' rest, h => by
      have hrest : ACLLeaves rest := fun entry hentry =>
        h entry (List.mem_cons_of_mem _ hentry)
      rw [ChildList.setKey]
      split
      · intro entry hentry
        rcases List.mem_cons.1 hentry with rfl | hentry
        · exact hnode
        · exact hrest entry hentry
      · intro entry hentry
        rcases List.mem_cons.1 hentry with rfl | hentry
        · exact h _ List.mem_cons_self
        · exact ACLLeaves.setKey hnode hrest entry hentry

mutual

theorem collectACLNode_leaves {cid : C} {out : ChildList C}
    (h : ACLLeaves out) :
    ∀ n : ChangeNode C, ACLLeaves (collectACLNode out cid n)
  | .mk kind hasChange children => by
      rw [collectACLNode]
      refine collectACLChildren_leaves ?_ children
      split
      · exact h
      · rename_i hkind
        refine ACLLeaves.setKey ?_ h
        exact ⟨hkind, rfl⟩

theorem collectACLChildren_leaves {out : ChildList C} (h : ACLLeaves out) :
    ∀ children : Children C, ACLLeaves (collectACLChildren out children)
  | .absent => by
      rw [collectACLChildren]
      exact h
  | .deferred => by
      rw [collectACLChildren]
      exact h
  | .present nodes => by
      rw [collectACLChildren]
      exact collectACLNodes_leaves h nodes

theorem collectACLNodes_leaves {out : ChildList C} (h : ACLLeaves out) :
    ∀ nodes : ChildList C, ACLLeaves (collectACLNodes out nodes)
  | .nil => by
      rw [collectACLNodes]
      exact h
  | .cons cid node rest => by
      rw [collectACLNodes]
      exact collectACLNodes_leaves (collectACLNode_leaves h node) rest

end

theorem kind_pruneNode (cut : List (List ℕ)) (path : List ℕ)
    (n : ChangeNode C) : (pruneNode cut path n).kind = n.kind := by
  obtain ⟨kind, hasChange, children⟩ := n
  rw [pruneNode]
  rfl

/-- A node that is cut keeps ACL leaves only. -/
theorem entries_pruneNode_cut {cut : List (List ℕ)} {path : List ℕ}
    (hcut : path ∈ cut) (n : ChangeNode C) :
    ∀ entry ∈ (pruneNode cut path n).entries,
      entry.2.kind ≠ .document ∧ entry.2.children = .absent := by
  obtain ⟨kind, hasChange, children⟩ := n
  rw [pruneNode, if_pos hcut]
  intro entry hentry
  rw [ChangeNode.entries, ChangeNode.children] at hentry
  cases children with
  | absent => cases hentry
  | deferred => cases hentry
  | present nodes =>
      have hleaves : ACLLeaves (collectACLNodes .nil nodes) :=
        collectACLNodes_leaves (fun entry h => by cases h) nodes
      rw [preservedACL] at hentry
      split at hentry
      · rename_i nodes' hnodes'
        split at hnodes'
        · cases hnodes'
        · cases hnodes'
          exact hleaves entry hentry
      · cases hentry

theorem getElem?_pruneList (cut : List (List ℕ)) (path : List ℕ) :
    ∀ (nodes : ChildList C) (i j : ℕ),
      (pruneList cut path i nodes).toList[j]? =
        nodes.toList[j]?.map fun entry =>
          (entry.1, pruneNode cut (path ++ [i + j]) entry.2)
  | .nil, i, j => by
      rw [pruneList, ChildList.toList]
      rfl
  | .cons cid node rest, i, j => by
      rw [pruneList, ChildList.toList, ChildList.toList]
      cases j with
      | zero => rfl
      | succ j =>
          rw [List.getElem?_cons_succ, List.getElem?_cons_succ,
            getElem?_pruneList cut path rest (i + 1) j, Nat.add_assoc,
            Nat.add_comm 1 j]

/-- A node that is not cut keeps its children. -/
theorem entries_pruneNode {cut : List (List ℕ)} {path : List ℕ}
    (hcut : path ∉ cut) (n : ChangeNode C) (j : ℕ) :
    (pruneNode cut path n).entries[j]? = n.entries[j]?.map fun entry =>
      (entry.1, pruneNode cut (path ++ [j]) entry.2) := by
  obtain ⟨kind, hasChange, children⟩ := n
  rw [pruneNode, if_neg hcut, ChangeNode.entries, ChangeNode.entries,
    ChangeNode.children, ChangeNode.children]
  cases children with
  | absent =>
      rw [pruneChildren]
      rfl
  | deferred =>
      rw [pruneChildren]
      rfl
  | present nodes =>
      rw [pruneChildren]
      dsimp only
      rw [getElem?_pruneList, Nat.zero_add]

/-- Below nodes that are not cut, every position is kept. -/
theorem entryAt_pruneNode {cut : List (List ℕ)} :
    ∀ (path base : List ℕ) (c : C) (n : ChangeNode C),
      (∀ q, q <+: path → q ≠ path → base ++ q ∉ cut) →
      entryAt (c, pruneNode cut base n) path =
        (entryAt (c, n) path).map fun entry =>
          (entry.1, pruneNode cut (base ++ path) entry.2) := by
  intro path
  induction path with
  | nil =>
      intro base c n _
      rw [entryAt, entryAt, List.append_nil]
      rfl
  | cons i path ih =>
      intro base c n hcut
      have hbase : base ∉ cut := by
        have hnil := hcut [] List.nil_prefix (by simp)
        rwa [List.append_nil] at hnil
      rw [entryAt, entryAt, entries_pruneNode hbase, Option.bind_map,
        Option.map_bind]
      congr 1
      funext child
      refine (ih (base ++ [i]) child.1 child.2 ?_).trans ?_
      · intro q hq hne
        rw [List.append_assoc]
        refine hcut (i :: q) ((List.prefix_cons_inj i).2 hq) ?_
        intro heq
        exact hne (List.cons.inj heq).2
      · rw [List.append_assoc]
        rfl

/-- A document node of the pruned tree is below nodes that are not cut. -/
theorem not_cut_of_entryAt {cut : List (List ℕ)} :
    ∀ (path base : List ℕ) (c : C) (n : ChangeNode C)
      (entry : C × ChangeNode C),
      entryAt (c, pruneNode cut base n) path = some entry →
      entry.2.kind = .document →
      ∀ q, q <+: path → q ≠ path → base ++ q ∉ cut := by
  intro path
  induction path with
  | nil =>
      intro base c n entry _ _ q hq hne
      exact absurd (List.prefix_nil.1 hq) hne
  | cons i path ih =>
      intro base c n entry hentry hkind q hq hne
      rw [entryAt] at hentry
      obtain ⟨child, hchild, hbelow⟩ := Option.bind_eq_some_iff.1 hentry
      by_cases hcut : base ∈ cut
      · obtain ⟨hacl, habsent⟩ := entries_pruneNode_cut hcut n child
          (List.mem_of_getElem? hchild)
        cases path with
        | nil =>
            cases hbelow
            exact absurd hkind hacl
        | cons j path =>
            rw [entryAt, ChangeNode.entries, habsent] at hbelow
            cases hbelow
      · rw [entries_pruneNode hcut] at hchild
        obtain ⟨⟨c', n'⟩, -, rfl⟩ := Option.map_eq_some_iff.1 hchild
        rcases q with _ | ⟨j, q⟩
        · rwa [List.append_nil]
        · obtain ⟨rfl, hq'⟩ := List.cons_prefix_cons.1 hq
          have hbelow' := ih (base ++ [j]) c' n' entry hbelow hkind q hq'
            (fun heq => hne (by rw [heq]))
          rwa [List.append_assoc] at hbelow'

end Pruned

/-! ## Interleavings with a snapshot -/

/-- A document change of the tree. -/
def DocumentIn (message : Option (C × ChangeNode C)) (c : C) : Prop :=
  ∃ m ∈ message, ∃ n, Occurs m.1 m.2 c n ∧ n.kind = .document

/-- The number of document nodes up to a path, in breadth-first order. -/
def documentRank (tree : C × ChangeNode C) (path : List ℕ) : ℕ :=
  BreadthFirst.rank (isDocumentAt tree)
    (BreadthFirst.order (childPaths tree) (nodeCount tree.2) [[]]) path

/-- The change has a document node in the tree such that all document nodes
above it come before the one with number `keepCount` in breadth-first order. -/
def Recent (keepCount : ℕ) (message : Option (C × ChangeNode C)) (c : C) :
    Prop :=
  ∃ m ∈ message, ∃ path n, entryAt m path = some (c, n) ∧
    n.kind = .document ∧
    ∀ q, q <+: path → q ≠ path → isDocumentAt m q = true →
      documentRank m q < keepCount

/-- Nothing above a position is cut if and only if the document nodes above it
come early in breadth-first order. -/
theorem not_mem_boundary_iff {keepCount : ℕ} {m : C × ChangeNode C}
    {path : List ℕ} (hpath : (entryAt m path).isSome) :
    (∀ q, q <+: path → q ≠ path → q ∉ boundary keepCount m) ↔
      ∀ q, q <+: path → q ≠ path → isDocumentAt m q = true →
        documentRank m q < keepCount := by
  have habove : ∀ q, q <+: path ↔
      BreadthFirst.Descends (childPaths m) [] q ∧
        BreadthFirst.Descends (childPaths m) q path := by
    intro q
    constructor
    · rintro ⟨r, rfl⟩
      have hq : (entryAt m ([] ++ q)).isSome := by
        rw [entryAt_append] at hpath
        exact Option.isSome_of_isSome_bind hpath
      exact ⟨descends_of_isPrefix hq, descends_of_isPrefix hpath⟩
    · intro h
      exact isPrefix_of_descends h.2
  have hiff : _ ↔ ∀ q, _ → _ → _ → _ → documentRank m q < keepCount :=
    BreadthFirst.not_mem_cuts_iff_rank (childPaths_forest m)
      (x := path) (le_refl (sizeAt m []))
  constructor
  · intro h q hq hne hdocument
    obtain ⟨hroot, hbelow⟩ := (habove q).1 hq
    refine hiff.1 ?_ q hroot hbelow hne hdocument
    intro y hy hyx hne'
    exact h y ((habove y).2 ⟨hy, hyx⟩) hne'
  · intro h q hq hne
    obtain ⟨hroot, hbelow⟩ := (habove q).1 hq
    refine hiff.2 ?_ q hroot hbelow hne
    intro y hy hyx hne' hdocument
    exact h y ((habove y).2 ⟨hy, hyx⟩) hne' hdocument

/-- Below nodes that are not cut, a position is cut if and only if it is that
of a document node which comes late. -/
theorem mem_boundary_iff {keepCount : ℕ} {m : C × ChangeNode C}
    {path : List ℕ} (hpath : (entryAt m path).isSome)
    (habove : ∀ q, q <+: path → q ≠ path → q ∉ boundary keepCount m) :
    path ∈ boundary keepCount m ↔
      isDocumentAt m path = true ∧ keepCount ≤ documentRank m path := by
  constructor
  · intro h
    obtain ⟨hdocument, -, hrank⟩ := BreadthFirst.rank_of_mem_cuts
      (childPaths_forest m) _ _ 0 (List.pairwise_singleton _ _) h
    rw [Nat.zero_add] at hrank
    exact ⟨hdocument, hrank⟩
  · rintro ⟨hdocument, hrank⟩
    have hroot : BreadthFirst.Descends (childPaths m) [] ([] ++ path) :=
      descends_of_isPrefix hpath
    apply BreadthFirst.mem_cuts_of_rank (childPaths_forest m) hdocument
    · simp [sizeAt, entryAt]
    · exact ⟨[], List.mem_singleton.2 rfl, hroot⟩
    · intro y hy hdescends
      by_contra hne
      exact habove y (isPrefix_of_descends hdescends) hne hy
    · rw [Nat.zero_add]
      exact hrank

section Snapshot

variable [DecidableEq C]

/-- The document changes that remain are the recent ones. -/
theorem documentIn_pruneChanges_iff {keepCount : ℕ} (hkeep : 1 ≤ keepCount)
    (message : Option (C × ChangeNode C)) (c : C) :
    DocumentIn (message.map (pruneChanges keepCount)) c ↔
      Recent keepCount message c := by
  rcases message with _ | m
  · constructor
    · rintro ⟨m, hm, -⟩
      cases hm
    · rintro ⟨m, hm, -⟩
      cases hm
  have hprune : pruneChanges keepCount m =
      (m.1, pruneNode (boundary keepCount m) [] m.2) :=
    if_neg (by omega)
  constructor
  · rintro ⟨m', hm', n, hoccurs, hkind⟩
    obtain rfl : pruneChanges keepCount m = m' := Option.some.inj hm'
    rw [hprune] at hoccurs
    obtain ⟨path, hpath⟩ := occurs_iff_entryAt.1 hoccurs
    have hcut := not_cut_of_entryAt path [] m.1 m.2 (c, n) hpath hkind
    rw [entryAt_pruneNode path [] m.1 m.2 hcut] at hpath
    obtain ⟨⟨c', n'⟩, hentry, heq⟩ := Option.map_eq_some_iff.1 hpath
    obtain ⟨rfl, rfl⟩ := Prod.mk.inj heq
    refine ⟨m, rfl, path, n', hentry, ?_, ?_⟩
    · rwa [kind_pruneNode] at hkind
    · exact (not_mem_boundary_iff (by rw [hentry]; rfl)).1 hcut
  · rintro ⟨m', hm', path, n, hentry, hkind, hranks⟩
    obtain rfl : m = m' := Option.some.inj hm'
    have hcut := (not_mem_boundary_iff (by rw [hentry]; rfl)).2 hranks
    refine ⟨_, rfl, pruneNode (boundary keepCount m) path n, ?_, ?_⟩
    · rw [hprune]
      refine occurs_iff_entryAt.2 ⟨path, ?_⟩
      rw [entryAt_pruneNode path [] m.1 m.2 hcut, hentry]
      rfl
    · rw [kind_pruneNode]
      exact hkind

/-- The part of a document that a snapshot concerns.  The state of a snapshot
is the set of document changes it compacts. -/
structure Compacting (C : Type) where
  document : Finset C
  localChanges : LocalChanges C
  latestSnapshot : Option (Finset C)

/-- What can land while a snapshot awaits its signature: a local change is
applied and its `_makeChange` starts, a local change of the ACLs starts, a call
of `_makeChange` goes on, a remote change is applied, or the served tree is
refreshed from a remote one. -/
inductive LandingEvent (C : Type) where
  | localChange (hash : C)
  | aclChange (hash : C) (kind : NodeKind)
  | resume (call : ℕ)
  | remoteChange (cid : C) (kind : NodeKind)
  | refresh (receivedChangeId : C) (receivedChanges : ChangeNode C)

namespace Compacting

/-- `_refreshLastSyncMessageFromSync` on the message with its tree. -/
def refresh (received : C × ChangeNode C) :
    Option (C × ChangeNode C) → Option (C × ChangeNode C)
  | none => some received
  | some prior =>
      if prior.1 = received.1 then some prior
      else if treeContainsCid received.1 received.2 prior.1 then some received
      else some prior

/-- One event. -/
def step (s : Compacting C) : LandingEvent C → Compacting C
  | .localChange hash =>
      { s with
        document := insert hash s.document
        localChanges := s.localChanges.step (.start hash .document) }
  | .aclChange hash kind =>
      { s with localChanges := s.localChanges.step (.start hash kind) }
  | .resume i => { s with localChanges := s.localChanges.step (.resume i) }
  | .remoteChange cid kind =>
      { s with
        document := if kind = .document then insert cid s.document
          else s.document
        localChanges := { s.localChanges with
          recentTips := trackTipInList s.localChanges.recentTips (cid, kind)
            maxRecentTips } }
  | .refresh receivedChangeId receivedChanges =>
      { s with localChanges := { s.localChanges with
          lastSyncMessage := refresh (receivedChangeId, receivedChanges)
            s.localChanges.lastSyncMessage } }

/-- `snapshot` after its signature, with the state that it captured. -/
def finishSnapshot (keepRecentNodes : ℕ) (state : Finset C)
    (s : Compacting C) : Compacting C :=
  { s with
    latestSnapshot := some state
    localChanges := { s.localChanges with
      lastSyncMessage := s.localChanges.lastSyncMessage.map
        (pruneChanges keepRecentNodes) } }

/-- The document when `snapshot` prunes: its state was captured in `s`, and
these events landed since. -/
def beforePruning (s : Compacting C) (events : List (LandingEvent C)) :
    Compacting C :=
  exec step s events

/-- The document when `snapshot` returns. -/
def afterPruning (keepRecentNodes : ℕ) (s : Compacting C)
    (events : List (LandingEvent C)) : Compacting C :=
  (beforePruning s events).finishSnapshot keepRecentNodes s.document

/-- Whatever lands while `snapshot` awaits its signature: every document change
of the served tree is still in the tree or in the snapshot, if and only if
those that the captured state does not have are recent when the tree is
pruned. -/
theorem compaction_complete_iff {keepRecentNodes : ℕ}
    (hkeep : 1 ≤ keepRecentNodes) (s : Compacting C)
    (events : List (LandingEvent C)) :
    (∀ c, DocumentIn (beforePruning s events).localChanges.lastSyncMessage c →
      DocumentIn (afterPruning keepRecentNodes s
          events).localChanges.lastSyncMessage c ∨
        ∃ state ∈ (afterPruning keepRecentNodes s events).latestSnapshot,
          c ∈ state) ↔
      ∀ c, DocumentIn (beforePruning s events).localChanges.lastSyncMessage c →
        c ∉ s.document →
        Recent keepRecentNodes
          (beforePruning s events).localChanges.lastSyncMessage c := by
  have hstate : ∀ c, (∃ state ∈ (afterPruning keepRecentNodes s
      events).latestSnapshot, c ∈ state) ↔ c ∈ s.document := by
    intro c
    simp [afterPruning, finishSnapshot]
  refine forall_congr' fun c => imp_congr_right fun _ => ?_
  rw [hstate, or_iff_not_imp_right]
  exact imp_congr_right fun _ => documentIn_pruneChanges_iff hkeep _ c

/-- A document without changes. -/
def empty : Compacting ℕ := ⟨∅, LocalChanges.new none [], none⟩

/-- Two local changes, one after the other. -/
def twoChanges : List (LandingEvent ℕ) :=
  [.localChange 1, .resume 0, .resume 0, .localChange 2, .resume 1, .resume 1]

/-- With two nodes kept, both changes are still served. -/
theorem compaction_complete_two :
    1 ≤ 2 ∧ ∀ c, DocumentIn
        (beforePruning empty twoChanges).localChanges.lastSyncMessage c →
      DocumentIn (afterPruning 2 empty
          twoChanges).localChanges.lastSyncMessage c ∨
        ∃ state ∈ (afterPruning 2 empty twoChanges).latestSnapshot,
          c ∈ state := by
  refine ⟨by decide, ?_⟩
  refine (compaction_complete_iff (by decide) empty twoChanges).2 ?_
  rintro c ⟨m, hm, n, hoccurs, hkind⟩ -
  cases hm
  obtain ⟨path, hpath⟩ := occurs_iff_entryAt.1 hoccurs
  refine ⟨_, rfl, path, n, hpath, hkind, ?_⟩
  intro q hq hne _
  -- the only node with a child is the root
  have hroot : q = [] := by
    rcases path with _ | ⟨_ | i, _ | ⟨j, path⟩⟩
    · exact List.prefix_nil.1 hq
    · rcases q with _ | ⟨k, q⟩
      · rfl
      · obtain ⟨rfl, hq'⟩ := List.cons_prefix_cons.1 hq
        rw [List.prefix_nil.1 hq'] at hne
        exact absurd rfl hne
    · cases hpath
    · cases hpath
    · cases hpath
  rw [hroot]
  decide

/-- With one node kept, the first of two changes that land while the signature
is awaited is in neither. -/
theorem compaction_loses_change :
    ¬ ∀ (keepRecentNodes : ℕ) (s : Compacting ℕ)
      (events : List (LandingEvent ℕ)), 1 ≤ keepRecentNodes →
      ∀ c, DocumentIn
          (beforePruning s events).localChanges.lastSyncMessage c →
        DocumentIn (afterPruning keepRecentNodes s
            events).localChanges.lastSyncMessage c ∨
          ∃ state ∈ (afterPruning keepRecentNodes s events).latestSnapshot,
            c ∈ state := by
  intro h
  have hbefore : DocumentIn
      (beforePruning empty twoChanges).localChanges.lastSyncMessage 1 :=
    ⟨_, rfl, .mk .document true .absent, Reached.child (Reached.root rfl) rfl
      (List.mem_singleton.2 rfl) rfl, rfl⟩
  rcases h 1 empty twoChanges le_rfl 1 hbefore with ⟨m, hm, n, hoccurs, -⟩ |
    ⟨state, hstate, hmem⟩
  · have hafter : (afterPruning 1 empty
        twoChanges).localChanges.lastSyncMessage =
          some (2, .mk .document true .absent) := rfl
    rw [hafter] at hm
    cases hm
    exact absurd (SyncState.occurs_single hoccurs).1 (by decide)
  · cases hstate
    cases hmem

end Compacting

end Snapshot

end Collabswarm.Document
