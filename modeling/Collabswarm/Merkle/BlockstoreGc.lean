import Collabswarm.Merkle.Pruning

/-!
# Collecting the blocks of pruned nodes

`snapshot` prunes the served tree and deletes the blocks of the CIDs that
`filterDeletableCIDs` lets through.  A CID may vanish in one place and stay in
another; the filter looks at the whole tree after pruning.
-/

namespace Collabswarm.Merkle

open FieldOrder (touch)

variable {C P : Type}

/-- A CID has one kind throughout the tree. -/
def OneKind (rootId : Option C) (root : ChangeTree C (NodeData P)) : Prop :=
  ∀ c d d', OccursIn rootId root c d → OccursIn rootId root c d' →
    d.kind = d'.kind

theorem occurs_iff_exists_occursWith {forest : List (Entry C (NodeData P))}
    {c : C} : (∃ n, Occurs forest c n) ↔
      ∃ d, ∃ child ∈ forest, OccursWith child c d := by
  constructor
  · rintro ⟨n, h⟩
    rcases occurs_iff_mem_or_below.1 h with hmem | ⟨child, hmem, hbelow⟩
    · exact ⟨n.data, (c, n), hmem, n,
        Reached.root (List.mem_singleton.2 rfl) not_false, rfl⟩
    · exact ⟨n.data, child, hmem, n,
        occurs_cons_iff.2 (Or.inr (Or.inl hbelow)), rfl⟩
  · rintro ⟨d, child, hmem, n, h, -⟩
    exact ⟨n, h.mono (by simpa using hmem)⟩

/-- A CID is in a tree if it occurs there with some fields. -/
theorem inTree_iff_occursIn {rootId : Option C}
    {root : ChangeTree C (NodeData P)} {c : C} :
    InTree rootId root c ↔ ∃ d, OccursIn rootId root c d := by
  rw [InTree, occurs_iff_exists_occursWith]
  constructor
  · rintro (hroot | ⟨d, h⟩)
    · exact ⟨root.data, Or.inl ⟨hroot, rfl⟩⟩
    · exact ⟨d, Or.inr h⟩
  · rintro ⟨d, ⟨hroot, -⟩ | h⟩
    · exact Or.inl hroot
    · exact Or.inr ⟨d, h⟩

section Gc

variable [DecidableEq C]

/-- The CIDs that pruning returns are those of the document nodes below nodes
that are cut. -/
theorem mem_prunedBelow {tree : Entry C (NodeData P)} {c : C}
    (cut : List (List ℕ)) :
    c ∈ prunedBelow tree cut ↔ ∃ path ∈ cut, ∃ m, nodeAt tree path = some m ∧
      ∃ n, (c, n) ∈ m.2.children.occurrences ∧ n.data.kind = .document := by
  have hfold : ∀ (paths : List (List ℕ)) (prunedCIDs : List C),
      c ∈ paths.foldl (collectPruned tree) prunedCIDs ↔
      c ∈ prunedCIDs ∨ ∃ path ∈ paths, ∃ m, nodeAt tree path = some m ∧
        ∃ n, (c, n) ∈ m.2.children.occurrences ∧
          n.data.kind = .document := by
    intro paths
    induction paths with
    | nil =>
        intro prunedCIDs
        simp
    | cons path paths ih =>
        intro prunedCIDs
        rw [List.foldl_cons, ih, collectPruned]
        simp only [List.mem_cons, exists_eq_or_imp]
        rw [← or_assoc]
        apply or_congr_left
        cases hpath : nodeAt tree path with
        | none => simp
        | some m =>
            dsimp only
            rw [collectACLChildren_eq, mem_prunedCIDs_foldl]
            simp
  rw [prunedBelow, hfold]
  simp

theorem mem_foldl_filterStep {reachable protectedCIDs candidates : List C}
    {c : C} : ∀ out : List C,
      c ∈ candidates.foldl (filterStep reachable protectedCIDs) out ↔
        c ∈ out ∨ c ∈ candidates ∧ c ∉ reachable ∧ c ∉ protectedCIDs := by
  induction candidates with
  | nil =>
      intro out
      simp
  | cons cid candidates ih =>
      intro out
      have hstep : c ∈ filterStep reachable protectedCIDs out cid ↔
          c ∈ out ∨ c = cid ∧ c ∉ reachable ∧ c ∉ protectedCIDs := by
        rw [filterStep]
        split_ifs with hreachable hprotected
        · refine ⟨Or.inl, fun h => h.resolve_right ?_⟩
          rintro ⟨rfl, hnot, -⟩
          exact hnot hreachable
        · refine ⟨Or.inl, fun h => h.resolve_right ?_⟩
          rintro ⟨rfl, -, hnot⟩
          exact hnot hprotected
        · rw [FieldOrder.mem_touch]
          apply or_congr_right
          constructor
          · rintro rfl
            exact ⟨rfl, hreachable, hprotected⟩
          · exact And.left
      rw [List.foldl_cons, ih, hstep, List.mem_cons, or_assoc]
      apply or_congr_right
      rw [or_and_right]

/-- A deletable CID is a candidate that is neither reachable nor protected. -/
theorem mem_filterDeletableCIDs [Bot C] {candidates protectedCIDs : List C}
    {cid c : C} {root : ChangeTree C (NodeData P)} (hcid : cid ≠ ⊥) :
    c ∈ filterDeletableCIDs candidates (some cid) (some root) protectedCIDs ↔
      c ∈ candidates ∧ ¬InTree (some cid) root c ∧ c ∉ protectedCIDs := by
  rw [filterDeletableCIDs, retainedCIDs, if_neg hcid, mem_foldl_filterStep,
    mem_collectTreeCIDs]
  simp

/-- The CIDs of a tree are those that pruning leaves and those it returns. -/
theorem inTree_pruneNode_or_pruned {cid c : C}
    {changes : ChangeTree C (NodeData P)} (cut : List (List ℕ)) :
    InTree (some cid) changes c ↔
      InTree (some cid) (pruneNode cut [] changes) c ∨
        ∃ path ∈ cut, ∃ m, nodeAt (cid, changes) path = some m ∧
          ∃ n, (c, n) ∈ m.2.children.occurrences ∧
            n.data.kind = .document := by
  have hafter : ∀ d, OccursIn (some cid) (pruneNode cut [] changes) c d ↔
      Remains cut [] (cid, changes) c d := fun d => by
    rw [occursIn_some, occursWith_pruneNode]
  simp only [inTree_iff_occursIn, hafter, occursIn_some]
  constructor
  · rintro ⟨d, hd⟩
    by_cases hkind : d.kind = .document
    · rcases remains_or_below cut hd with hremains | ⟨q, m, n, hm, hq, -, hmem,
        rfl⟩
      · exact Or.inl ⟨d, hremains⟩
      · exact Or.inr ⟨q, hq, m, hm, n, hmem, hkind⟩
    · obtain ⟨d', hd', -⟩ := exists_remains cut hd hkind
      exact Or.inl ⟨d', hd'⟩
  · rintro (⟨d, hd⟩ | ⟨q, -, m, hm, n, hmem, -⟩)
    · exact ⟨d, hd.occursWith⟩
    · have hbelow := (ChildMap.mem_occurrences m.2.children).1 hmem
      exact ⟨n.data, n,
        Occurs.below (occurs_iff_entryAt.2 ⟨0 :: q, hm⟩) hbelow, rfl⟩

/-- Whatever is pruned and protected: the CIDs of the tree are those that are
left and those that are returned, no CID that is left, is protected or is a
reader or writer CID gets deleted, and every other document CID does. -/
theorem pruneChanges_gc [Bot C] (keepCount : ℕ) (changeId : Option C)
    (changes : ChangeTree C (NodeData P)) (protectedCIDs : List C)
    (hkinds : OneKind changeId changes) :
    (∀ c, InTree changeId changes c ↔
      InTree changeId (pruneChanges keepCount changeId changes).1 c ∨
        c ∈ (pruneChanges keepCount changeId changes).2) ∧
    (∀ c ∈ filterDeletableCIDs (pruneChanges keepCount changeId changes).2
        changeId (some (pruneChanges keepCount changeId changes).1)
        protectedCIDs,
      ¬InTree changeId (pruneChanges keepCount changeId changes).1 c ∧
        c ∉ protectedCIDs ∧
        ∀ d, OccursIn changeId changes c d → d.kind = .document) ∧
    ∀ c d, OccursIn changeId changes c d → d.kind = .document →
      ¬InTree changeId (pruneChanges keepCount changeId changes).1 c →
      c ∉ protectedCIDs →
      c ∈ filterDeletableCIDs (pruneChanges keepCount changeId changes).2
        changeId (some (pruneChanges keepCount changeId changes).1)
        protectedCIDs := by
  by_cases hpruned : keepCount ≠ 0 ∧ ∃ cid, changeId = some cid ∧ cid ≠ ⊥
  · obtain ⟨hkeep, cid, rfl, hcid⟩ := hpruned
    rw [pruneChanges_of_root changes hkeep hcid]
    have hcids : ∀ c, InTree (some cid) changes c ↔
        InTree (some cid) (pruneNode (Document.boundary keepCount
          (outlineEntry (cid, changes))) [] changes) c ∨
        c ∈ prunedBelow (cid, changes) (Document.boundary keepCount
          (outlineEntry (cid, changes))) := by
      intro c
      rw [mem_prunedBelow]
      exact inTree_pruneNode_or_pruned _
    refine ⟨hcids, ?_, ?_⟩
    · intro c hc
      obtain ⟨hcandidate, hunreachable, hfree⟩ :=
        (mem_filterDeletableCIDs hcid).1 hc
      refine ⟨hunreachable, hfree, fun d hd => ?_⟩
      obtain ⟨path, -, m, hm, n, hmem, hkind⟩ :=
        (mem_prunedBelow _).1 hcandidate
      have hbelow := (ChildMap.mem_occurrences m.2.children).1 hmem
      have hdocument : OccursIn (some cid) changes c n.data :=
        occursIn_some.2 ⟨n,
          Occurs.below (occurs_iff_entryAt.2 ⟨0 :: path, hm⟩) hbelow, rfl⟩
      rw [hkinds c d n.data hd hdocument, hkind]
    · intro c d hd _ hvanished hfree
      have hcandidate := ((hcids c).1
        (inTree_iff_occursIn.2 ⟨d, hd⟩)).resolve_left hvanished
      exact (mem_filterDeletableCIDs hcid).2 ⟨hcandidate, hvanished, hfree⟩
  · rw [pruneChanges_of_skip changes hpruned]
    have hnone : filterDeletableCIDs [] changeId (some changes) protectedCIDs =
        [] := by
      rfl
    rw [hnone]
    refine ⟨by simp, by simp, ?_⟩
    intro c d hd _ hvanished
    exact absurd (inTree_iff_occursIn.2 ⟨d, hd⟩) hvanished

end Gc

/-- Change `3` over change `2` over change `1`, with a cross-link to `1`. -/
def threeChanges : ChangeTree ℕ (NodeData ℕ) :=
  .node ⟨.document, some 30⟩ (.present
    (.cons 2 (.node ⟨.document, some 20⟩ (.present
      (.cons 1 (.node ⟨.document, some 10⟩ .absent) .nil)))
    (.cons 1 (.node ⟨.document, none⟩ .absent) .nil)))

theorem threeChanges_documents {c : ℕ} {d : NodeData ℕ}
    (h : OccursIn (some 3) threeChanges c d) : d.kind = .document := by
  obtain ⟨n, hn, rfl⟩ := occursIn_some.1 h
  have hmem := (ChildEntries.mem_occurrences (e := (c, n))
    (.cons 3 threeChanges .nil)).2 hn
  simp only [threeChanges, ChildEntries.occurrences, ChangeTree.occurrences,
    ChildMap.occurrences, List.mem_append, List.mem_cons, List.not_mem_nil,
    Prod.mk.injEq, or_false] at hmem
  rcases hmem with ⟨-, rfl⟩ | (⟨-, rfl⟩ | ⟨-, rfl⟩) | ⟨-, rfl⟩ <;> rfl

/-- Both older changes are deleted, except for the protected one. -/
theorem threeChanges_gc :
    filterDeletableCIDs (pruneChanges 1 (some 3) threeChanges).2 (some 3)
      (some (pruneChanges 1 (some 3) threeChanges).1) [2] = [1] ∧
    ∀ c, InTree (some 3) threeChanges c ↔
      InTree (some 3) (pruneChanges 1 (some 3) threeChanges).1 c ∨
        c ∈ (pruneChanges 1 (some 3) threeChanges).2 := by
  refine ⟨rfl, (pruneChanges_gc 1 (some 3) threeChanges [2] ?_).1⟩
  intro c d d' h h'
  rw [threeChanges_documents h, threeChanges_documents h']

end Collabswarm.Merkle
