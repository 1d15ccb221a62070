import Collabswarm.Merkle.Pruning

/-!
# Change trees that share their nodes

A message is a shallow copy of the cached one, and a new change node holds the
cached tree as a child, so several trees of a document contain the same node
objects, and `_pruneChanges` rewrites these in place.  Here the payload of a
node is the number of its object, and pruning one tree rewrites all of them.
A cross-link has no children that could be rewritten and needs no number; the
copy that `collectACLNodes` makes of an ACL node keeps the number of its
original, since no ACL node loses its children.
-/

namespace Collabswarm.Merkle

open Document (NodeKind RecentTip maxCrossLinks)

variable {C : Type}

/-- A tree whose payloads are the numbers of its node objects. -/
abbrev SharedTree (C : Type) := ChangeTree C (NodeData ℕ)

/-! ## New change nodes -/

/-- Append an entry to a map of children. -/
def ChildEntries.concat {L : Type} (cid : C) (child : ChangeTree C L) :
    ChildEntries C L → ChildEntries C L
  | .nil => .cons cid child .nil
  | .cons cid' child' rest => .cons cid' child' (rest.concat cid child)

section MakeChange

variable [DecidableEq C]

/-- Add a cross-link as a deferred leaf, unless the CID is a child already. -/
def ChildEntries.link (entries : ChildEntries C (NodeData ℕ))
    (tip : RecentTip C) : ChildEntries C (NodeData ℕ) :=
  if tip.1 ∈ entries.toList.map Prod.fst then entries
  else entries.concat tip.1 (.node ⟨tip.2, none⟩ .absent)

/-- The change node that `_makeChange` builds over the last sync message, as a
new object. -/
def makeChangeNode (lastSyncMessage : Option (Entry C (NodeData ℕ)))
    (recentTips : List (RecentTip C)) (hash : C) (kind : NodeKind)
    (object : ℕ) : SharedTree C :=
  match lastSyncMessage with
  | none => .node ⟨kind, some object⟩ .absent
  | some (primaryParentId, changes) =>
      .node ⟨kind, some object⟩ (.present
        ((Document.selectCrossLinks recentTips primaryParentId hash
          maxCrossLinks).foldl ChildEntries.link
            (.cons primaryParentId changes .nil)))

/-! ## Pruning in place -/

mutual

/-- A tree after its objects with these numbers lost their children. -/
def cutNode (objects : List ℕ) : SharedTree C → SharedTree C
  | .node data children =>
      .node data
        (if data.change.any (· ∈ objects) then preservedACL children
          else cutChildren objects children)

/-- The children of an object that keeps them. -/
def cutChildren (objects : List ℕ) :
    ChildMap C (NodeData ℕ) → ChildMap C (NodeData ℕ)
  | .absent => .absent
  | .deferred => .deferred
  | .present entries => .present (cutEntries objects entries)

/-- The entries of such children. -/
def cutEntries (objects : List ℕ) :
    ChildEntries C (NodeData ℕ) → ChildEntries C (NodeData ℕ)
  | .nil => .nil
  | .cons cid child rest =>
      .cons cid (cutNode objects child) (cutEntries objects rest)

end

/-- A tree with its CID after the cut. -/
def cutEntry (objects : List ℕ) (e : Entry C (NodeData ℕ)) :
    Entry C (NodeData ℕ) :=
  (e.1, cutNode objects e.2)

/-- The objects at which `_pruneChanges` cuts the cached tree. -/
def cutObjects [Bot C] (keepCount : ℕ) (tree : Entry C (NodeData ℕ)) :
    List ℕ :=
  if keepCount = 0 ∨ tree.1 = ⊥ then []
  else (Document.boundary keepCount (outlineEntry tree)).filterMap fun path =>
    (nodeAt tree path).bind fun e => e.2.data.change

end MakeChange

/-! ## A tree by itself -/

theorem outline_concat (cid : C) (child : SharedTree C) :
    ∀ entries : ChildEntries C (NodeData ℕ),
      (entries.concat cid child).outline =
        entries.outline.concat cid child.outline
  | .nil => rfl
  | .cons cid' child' rest => by
      rw [ChildEntries.concat, ChildEntries.outline,
        outline_concat cid child rest]
      rfl

section

variable [DecidableEq C]

theorem outline_link (entries : ChildEntries C (NodeData ℕ))
    (tip : RecentTip C) :
    (entries.link tip).outline = entries.outline.link tip := by
  have hkeys : entries.outline.toList.map Prod.fst =
      entries.toList.map Prod.fst := by
    rw [toList_outline, List.map_map]
    rfl
  rw [ChildEntries.link, Document.ChildList.link, hkeys]
  split
  · rfl
  · exact outline_concat tip.1 _ entries

theorem outline_foldl_link (tips : List (RecentTip C)) :
    ∀ entries : ChildEntries C (NodeData ℕ),
      (tips.foldl ChildEntries.link entries).outline =
        tips.foldl Document.ChildList.link entries.outline := by
  induction tips with
  | nil =>
      intro entries
      rfl
  | cons tip tips ih =>
      intro entries
      rw [List.foldl_cons, List.foldl_cons, ih, outline_link]

/-- Without the numbers, a new node is the one of a single call. -/
theorem outline_makeChangeNode
    (lastSyncMessage : Option (Entry C (NodeData ℕ)))
    (recentTips : List (RecentTip C)) (hash : C) (kind : NodeKind)
    (object : ℕ) :
    (makeChangeNode lastSyncMessage recentTips hash kind object).outline =
      Document.makeChangeNode (lastSyncMessage.map outlineEntry) recentTips
        hash kind := by
  cases lastSyncMessage with
  | none => rfl
  | some parent =>
      rw [makeChangeNode, ChangeTree.outline, ChildMap.outline,
        outline_foldl_link]
      rfl

/-- Every node with children is an object of its own. -/
structure Unshared (tree : Entry C (NodeData ℕ)) : Prop where
  numbered : ∀ path e entries, nodeAt tree path = some e →
    e.2.children = .present entries → ∃ object, e.2.data.change = some object
  once : ∀ path path' e e' object, nodeAt tree path = some e →
    nodeAt tree path' = some e' → e.2.data.change = some object →
      e'.2.data.change = some object → path = path'

mutual

theorem cutNode_eq_pruneNode {objects : List ℕ} {cut : List (List ℕ)}
    (path : List ℕ) (cid : C) :
    ∀ n : SharedTree C,
      (∀ r e entries, nodeAt (cid, n) r = some e →
        e.2.children = .present entries →
          (e.2.data.change.any (· ∈ objects) = true ↔ path ++ r ∈ cut)) →
      cutNode objects n = pruneNode cut path n
  | .node data .absent, _ => by
      rw [cutNode, pruneNode, preservedACL, cutChildren, pruneChildren,
        ite_self, ite_self]
  | .node data .deferred, _ => by
      rw [cutNode, pruneNode, preservedACL, cutChildren, pruneChildren,
        ite_self, ite_self]
  | .node data (.present entries), hcut => by
      have hroot : data.change.any (· ∈ objects) = true ↔ path ∈ cut := by
        have hhere := hcut [] _ entries rfl rfl
        rwa [List.append_nil] at hhere
      rw [cutNode, pruneNode, cutChildren, pruneChildren,
        if_congr hroot rfl rfl]
      split
      · rfl
      · rw [cutEntries_eq_pruneEntries path 0 entries]
        intro j child hchild r e below hentry hbelow
        rw [Nat.zero_add]
        apply hcut (j :: r) e below _ hbelow
        rw [nodeAt_cons, ChangeTree.entries_node, ChildMap.toEntries, hchild]
        exact hentry

/-- Cutting objects is cutting positions, where the objects with children at
these positions are the ones with these numbers. -/
theorem cutEntries_eq_pruneEntries {objects : List ℕ} {cut : List (List ℕ)}
    (path : List ℕ) (i : ℕ) :
    ∀ entries : ChildEntries C (NodeData ℕ),
      (∀ (j : ℕ) child, entries.toList[j]? = some child → ∀ r e below,
        nodeAt child r = some e → e.2.children = .present below →
          (e.2.data.change.any (· ∈ objects) = true ↔
            path ++ (i + j) :: r ∈ cut)) →
      cutEntries objects entries = pruneEntries cut path i entries
  | .nil, _ => rfl
  | .cons cid child rest, hcut => by
      rw [cutEntries, pruneEntries,
        cutNode_eq_pruneNode (path ++ [i]) cid child,
        cutEntries_eq_pruneEntries path (i + 1) rest]
      · intro j child' hchild' r e below hentry hbelow
        have hhere := hcut (j + 1) child' hchild' r e below hentry hbelow
        rwa [Nat.add_comm j 1, ← Nat.add_assoc] at hhere
      · intro r e below hentry hbelow
        have hhere := hcut 0 (cid, child) rfl r e below hentry hbelow
        rwa [Nat.add_zero, List.append_cons] at hhere

end

mutual

theorem cutNode_nil : ∀ n : SharedTree C, cutNode [] n = n
  | .node data children => by
      rw [cutNode, cutChildren_nil children, if_neg]
      simp

theorem cutChildren_nil :
    ∀ children : ChildMap C (NodeData ℕ), cutChildren [] children = children
  | .absent => rfl
  | .deferred => rfl
  | .present entries => by
      rw [cutChildren, cutEntries_nil entries]

theorem cutEntries_nil :
    ∀ entries : ChildEntries C (NodeData ℕ), cutEntries [] entries = entries
  | .nil => rfl
  | .cons cid child rest => by
      rw [cutEntries, cutNode_nil child, cutEntries_nil rest]

end

/-- In a tree whose nodes are objects of their own, cutting the objects is what
`_pruneChanges` does with the tree. -/
theorem Unshared.cutNode_cutObjects [Bot C] {tree : Entry C (NodeData ℕ)}
    (htree : Unshared tree) (keepCount : ℕ) :
    cutNode (cutObjects keepCount tree) tree.2 =
      (pruneChanges keepCount (some tree.1) tree.2).1 := by
  rw [cutObjects, pruneChanges]
  split
  · exact cutNode_nil tree.2
  · apply cutNode_eq_pruneNode [] tree.1 tree.2
    intro path e entries hentry hentries
    obtain ⟨object, hobject⟩ := htree.numbered path e entries hentry hentries
    rw [hobject, Option.any_some, decide_eq_true_iff, List.mem_filterMap,
      List.nil_append]
    constructor
    · rintro ⟨path', hcut, hsame⟩
      obtain ⟨e', hentry', hobject'⟩ := Option.bind_eq_some_iff.1 hsame
      rwa [htree.once path path' e e' object hentry hentry' hobject hobject']
    · intro hcut
      refine ⟨path, hcut, ?_⟩
      rw [hentry]
      exact hobject

end

end Collabswarm.Merkle
