import Collabswarm.Document.Compaction
import Collabswarm.Merkle.CidWalkers

/-!
# Pruning a change tree

`_pruneChanges` with payloads and the set of CIDs it returns, and what
`filterDeletableCIDs` makes of them.  Which nodes lose their children depends on
kinds and children only, so the traversal is that of the tree without payloads.
A node that loses its children keeps the ACL nodes below it as leaves, under
each CID the last one.
-/

namespace Collabswarm.Merkle

open Document (NodeKind)
open FieldOrder (touch)

variable {C P : Type}

/-! ## The tree without payloads -/

mutual

/-- The tree that only tells where there are payloads. -/
def ChangeTree.outline : ChangeTree C (NodeData P) → Document.ChangeNode C
  | .node data children =>
      .mk data.kind data.change.isSome children.outline

/-- The map that only tells where there are payloads. -/
def ChildMap.outline : ChildMap C (NodeData P) → Document.Children C
  | .absent => .absent
  | .deferred => .deferred
  | .present entries => .present entries.outline

/-- The entries that only tell where there are payloads. -/
def ChildEntries.outline : ChildEntries C (NodeData P) → Document.ChildList C
  | .nil => .nil
  | .cons cid child rest => .cons cid child.outline rest.outline

end

/-- The entry at a path from the root. -/
def nodeAt (tree : Entry C (NodeData P)) (path : List ℕ) :
    Option (Entry C (NodeData P)) :=
  entryAt [tree] (0 :: path)

/-- A tree without payloads, with its CID. -/
abbrev outlineEntry (tree : Entry C (NodeData P)) :
    C × Document.ChangeNode C :=
  (tree.1, tree.2.outline)

/-! ## Pruning -/

/-- What `collectACLNodes` has collected: the preserved ACL nodes, which are
leaves, and the CIDs of document nodes. -/
structure Collected (C P : Type) where
  out : InsertionMap C (NodeData P)
  prunedCIDs : List C

section Prune

variable [DecidableEq C]

mutual

/-- `collectACLNodes` at one child. -/
def collectACLNode (s : Collected C P) (childHash : C) :
    ChangeTree C (NodeData P) → Collected C P
  | .node data children =>
      collectACLChildren
        (if data.kind = .document then
          { s with prunedCIDs := touch s.prunedCIDs childHash }
        else { s with out := s.out.set childHash data }) children

/-- `collectACLNodes` below a child. -/
def collectACLChildren (s : Collected C P) :
    ChildMap C (NodeData P) → Collected C P
  | .absent => s
  | .deferred => s
  | .present entries => collectACLNodes s entries

/-- `collectACLNodes`. -/
def collectACLNodes (s : Collected C P) :
    ChildEntries C (NodeData P) → Collected C P
  | .nil => s
  | .cons cid child rest => collectACLNodes (collectACLNode s cid child) rest

end

/-- A map of leaves. -/
def leaves : List (C × NodeData P) → ChildEntries C (NodeData P)
  | [] => .nil
  | (cid, data) :: rest => .cons cid (.node data .absent) (leaves rest)

/-- The children of a node at the boundary. -/
def preservedACL : ChildMap C (NodeData P) → ChildMap C (NodeData P)
  | .absent => .absent
  | .deferred => .deferred
  | .present entries =>
      let preserved := (collectACLNodes ⟨.empty, []⟩ entries).out
      if preserved.size > 0 then .present (leaves preserved.entries)
      else .absent

mutual

/-- The tree after the nodes of `cut` lost their children. -/
def pruneNode (cut : List (List ℕ)) (path : List ℕ) :
    ChangeTree C (NodeData P) → ChangeTree C (NodeData P)
  | .node data children =>
      .node data
        (if path ∈ cut then preservedACL children
          else pruneChildren cut path children)

/-- The children of a node that keeps them. -/
def pruneChildren (cut : List (List ℕ)) (path : List ℕ) :
    ChildMap C (NodeData P) → ChildMap C (NodeData P)
  | .absent => .absent
  | .deferred => .deferred
  | .present entries => .present (pruneEntries cut path 0 entries)

/-- The children from the one with number `i` on. -/
def pruneEntries (cut : List (List ℕ)) (path : List ℕ) (i : ℕ) :
    ChildEntries C (NodeData P) → ChildEntries C (NodeData P)
  | .nil => .nil
  | .cons cid child rest =>
      .cons cid (pruneNode cut (path ++ [i]) child)
        (pruneEntries cut path (i + 1) rest)

end

/-- The CIDs collected so far and those of document nodes below a node. -/
def collectPruned (tree : Entry C (NodeData P)) (prunedCIDs : List C)
    (path : List ℕ) : List C :=
  match nodeAt tree path with
  | some e => (collectACLChildren ⟨.empty, prunedCIDs⟩ e.2.children).prunedCIDs
  | none => prunedCIDs

/-- The CIDs of document nodes below the nodes of `cut`. -/
def prunedBelow (tree : Entry C (NodeData P)) (cut : List (List ℕ)) : List C :=
  cut.foldl (collectPruned tree) []

/-- `_pruneChanges`: the tree it leaves and the CIDs it returns. -/
def pruneChanges [Bot C] (keepCount : ℕ) (changeId : Option C)
    (changes : ChangeTree C (NodeData P)) :
    ChangeTree C (NodeData P) × List C :=
  match changeId with
  | none => (changes, [])
  | some cid =>
      if keepCount = 0 ∨ cid = ⊥ then (changes, [])
      else
        let cut := Document.boundary keepCount (cid, changes.outline)
        (pruneNode cut [] changes, prunedBelow (cid, changes) cut)

/-! ## What is collected -/

/-- What `collectACLNodes` does with a node. -/
def collectStep (s : Collected C P) (e : Entry C (NodeData P)) :
    Collected C P :=
  if e.2.data.kind = .document then
    { s with prunedCIDs := touch s.prunedCIDs e.1 }
  else { s with out := s.out.set e.1 e.2.data }

mutual

theorem collectACLNode_eq (s : Collected C P) (cid : C) :
    ∀ n : ChangeTree C (NodeData P), collectACLNode s cid n =
      (n.occurrences cid).foldl collectStep s
  | .node data children => by
      rw [collectACLNode, ChangeTree.occurrences, List.foldl_cons,
        collectACLChildren_eq]
      rfl

theorem collectACLChildren_eq (s : Collected C P) :
    ∀ children : ChildMap C (NodeData P), collectACLChildren s children =
      children.occurrences.foldl collectStep s
  | .absent => rfl
  | .deferred => rfl
  | .present entries => by
      rw [collectACLChildren, ChildMap.occurrences, collectACLNodes_eq]

/-- `collectACLNodes` meets all nodes depth first. -/
theorem collectACLNodes_eq (s : Collected C P) :
    ∀ entries : ChildEntries C (NodeData P), collectACLNodes s entries =
      entries.occurrences.foldl collectStep s
  | .nil => rfl
  | .cons cid child rest => by
      rw [collectACLNodes, ChildEntries.occurrences, List.foldl_append,
        collectACLNode_eq, collectACLNodes_eq]

end

theorem mem_prunedCIDs_foldl {c : C} (es : List (Entry C (NodeData P))) :
    ∀ s : Collected C P, c ∈ (es.foldl collectStep s).prunedCIDs ↔
      c ∈ s.prunedCIDs ∨
        ∃ n, (c, n) ∈ es ∧ n.data.kind = .document := by
  induction es with
  | nil =>
      intro s
      simp
  | cons e es ih =>
      intro s
      obtain ⟨cid, n⟩ := e
      rw [List.foldl_cons, ih, collectStep]
      split
      · rename_i hkind
        rw [FieldOrder.mem_touch, or_assoc]
        apply or_congr_right
        constructor
        · rintro (rfl | ⟨m, hm, hdocument⟩)
          · exact ⟨n, List.mem_cons_self, hkind⟩
          · exact ⟨m, List.mem_cons_of_mem _ hm, hdocument⟩
        · rintro ⟨m, hm, hdocument⟩
          rcases List.mem_cons.1 hm with heq | hm
          · cases heq
            exact Or.inl rfl
          · exact Or.inr ⟨m, hm, hdocument⟩
      · rename_i hkind
        apply or_congr_right
        constructor
        · rintro ⟨m, hm, hdocument⟩
          exact ⟨m, List.mem_cons_of_mem _ hm, hdocument⟩
        · rintro ⟨m, hm, hdocument⟩
          rcases List.mem_cons.1 hm with heq | hm
          · cases heq
            exact absurd hdocument hkind
          · exact ⟨m, hm, hdocument⟩

/-- Of the ACL nodes of a CID in a list, the last one. -/
def lastACL (es : List (Entry C (NodeData P))) (c : C) : Option (NodeData P) :=
  (es.filter fun e => e.1 = c ∧ e.2.data.kind ≠ .document).getLast?.map
    fun e => e.2.data

theorem get?_out_foldl (es : List (Entry C (NodeData P))) (prunedCIDs : List C)
    (c : C) :
    (es.foldl collectStep ⟨.empty, prunedCIDs⟩).out.get? c = lastACL es c := by
  induction es using List.reverseRecOn with
  | nil => rfl
  | append_singleton es e ih =>
      rw [List.foldl_append, List.foldl_cons, List.foldl_nil, collectStep,
        lastACL, List.filter_append, List.filter_singleton]
      by_cases hkind : e.2.data.kind = .document
      · rw [if_pos hkind]
        simpa [hkind, lastACL] using ih
      · rw [if_neg hkind]
        dsimp only
        rw [InsertionMap.get?_set]
        by_cases hcid : e.1 = c
        · simp [hkind, hcid]
        · rw [if_neg (Ne.symm hcid), ih]
          simp [hcid, lastACL]

omit [DecidableEq C] in
theorem mem_leaves {c : C} {n : ChangeTree C (NodeData P)} :
    ∀ preserved : List (C × NodeData P),
      (c, n) ∈ (leaves preserved).toList ↔
        ∃ d, n = .node d .absent ∧ (c, d) ∈ preserved
  | [] => by simp [leaves, ChildEntries.toList]
  | (cid, data) :: rest => by
      rw [leaves, ChildEntries.toList, List.mem_cons, mem_leaves rest]
      constructor
      · rintro (heq | ⟨d, rfl, hd⟩)
        · cases heq
          exact ⟨data, rfl, List.mem_cons_self⟩
        · exact ⟨d, rfl, List.mem_cons_of_mem _ hd⟩
      · rintro ⟨d, rfl, hd⟩
        rcases List.mem_cons.1 hd with heq | hd
        · cases heq
          exact Or.inl rfl
        · exact Or.inr ⟨d, rfl, hd⟩

/-- What is left below a node at the boundary. -/
theorem mem_preservedACL {c : C} {n : ChangeTree C (NodeData P)}
    (children : ChildMap C (NodeData P)) :
    (c, n) ∈ (preservedACL children).toEntries.toList ↔
      ∃ d, n = .node d .absent ∧ lastACL children.occurrences c = some d := by
  cases children with
  | absent => simp [preservedACL, ChildMap.toEntries, ChildEntries.toList,
      ChildMap.occurrences, lastACL]
  | deferred => simp [preservedACL, ChildMap.toEntries, ChildEntries.toList,
      ChildMap.occurrences, lastACL]
  | present entries =>
      have hget : ∀ d, (c, d) ∈ (collectACLNodes ⟨.empty, []⟩ entries).out.entries
          ↔ lastACL entries.occurrences c = some d := by
        intro d
        rw [InsertionMap.mem_entries_iff, collectACLNodes_eq, get?_out_foldl]
      rw [preservedACL]
      split
      · rw [ChildMap.toEntries, mem_leaves]
        simp only [hget, ChildMap.occurrences]
      · rename_i hsize
        have hempty : (collectACLNodes ⟨.empty, []⟩ entries).out.entries = [] :=
          List.eq_nil_of_length_eq_zero (by
            simpa [InsertionMap.size] using hsize)
        refine iff_of_false (by simp [ChildMap.toEntries, ChildEntries.toList])
          ?_
        rintro ⟨d, -, hd⟩
        rw [ChildMap.occurrences, ← hget, hempty] at hd
        cases hd

/-! ## What remains -/

/-- No node above the path `r` below `path` is cut. -/
def Uncut (cut : List (List ℕ)) (path r : List ℕ) : Prop :=
  ∀ q, q <+: r → q ≠ r → path ++ q ∉ cut

/-- The fields `d` remain under a CID: they stand at a path above which nothing
is cut, or in the last ACL node of the CID below a node that is cut. -/
def Remains (cut : List (List ℕ)) (path : List ℕ) (e : Entry C (NodeData P))
    (c : C) (d : NodeData P) : Prop :=
  (∃ r n, nodeAt e r = some (c, n) ∧ n.data = d ∧ Uncut cut path r) ∨
    ∃ r m, nodeAt e r = some m ∧ path ++ r ∈ cut ∧ Uncut cut path r ∧
      lastACL m.2.children.occurrences c = some d

omit [DecidableEq C] in
@[simp] theorem nodeAt_nil (e : Entry C (NodeData P)) :
    nodeAt e [] = some e :=
  rfl

omit [DecidableEq C] in
theorem nodeAt_cons (e : Entry C (NodeData P)) (i : ℕ) (r : List ℕ) :
    nodeAt e (i :: r) = e.2.entries[i]?.bind fun child => nodeAt child r := by
  rw [nodeAt, entryAt_zero_cons _ _ (by simp)]
  match r with
  | [] =>
      rw [entryAt]
      cases e.2.entries[i]? <;> rfl
  | j :: r => exact entryAt_cons_cons _ _ (by simp)

omit [DecidableEq C] in
theorem uncut_nil (cut : List (List ℕ)) (path : List ℕ) : Uncut cut path [] :=
  fun _ hq hne => absurd (List.prefix_nil.1 hq) hne

omit [DecidableEq C] in
theorem uncut_cons {cut : List (List ℕ)} {path : List ℕ} {i : ℕ}
    {r : List ℕ} :
    Uncut cut path (i :: r) ↔ path ∉ cut ∧ Uncut cut (path ++ [i]) r := by
  constructor
  · intro h
    constructor
    · have hnil := h [] List.nil_prefix (by simp)
      rwa [List.append_nil] at hnil
    · intro q hq hne
      rw [List.append_assoc]
      apply h (i :: q) ((List.prefix_cons_inj i).2 hq)
      intro heq
      exact hne (List.cons.inj heq).2
  · rintro ⟨hpath, h⟩ q hq hne
    match q with
    | [] => rwa [List.append_nil]
    | j :: q =>
        obtain ⟨rfl, hq'⟩ := List.cons_prefix_cons.1 hq
        have hbelow := h q hq' fun heq => hne (by rw [heq])
        rwa [List.append_assoc] at hbelow

theorem remains_of_mem {cut : List (List ℕ)} {path : List ℕ}
    (hcut : path ∈ cut) {e : Entry C (NodeData P)} {c : C} {d : NodeData P} :
    Remains cut path e c d ↔ e.1 = c ∧ e.2.data = d ∨
      lastACL e.2.children.occurrences c = some d := by
  constructor
  · rintro (⟨r, n, hentry, hdata, huncut⟩ | ⟨r, m, hentry, -, huncut, hlast⟩)
    · match r with
      | [] =>
          cases hentry
          exact Or.inl ⟨rfl, hdata⟩
      | i :: r => exact absurd hcut (uncut_cons.1 huncut).1
    · match r with
      | [] =>
          cases hentry
          exact Or.inr hlast
      | i :: r => exact absurd hcut (uncut_cons.1 huncut).1
  · rintro (⟨rfl, hdata⟩ | hlast)
    · exact Or.inl ⟨[], e.2, rfl, hdata, uncut_nil cut path⟩
    · exact Or.inr ⟨[], e, rfl, by rwa [List.append_nil], uncut_nil cut path,
        hlast⟩

theorem remains_of_not_mem {cut : List (List ℕ)} {path : List ℕ}
    (hcut : path ∉ cut) {e : Entry C (NodeData P)} {c : C} {d : NodeData P} :
    Remains cut path e c d ↔ e.1 = c ∧ e.2.data = d ∨
      ∃ i child, e.2.entries[i]? = some child ∧
        Remains cut (path ++ [i]) child c d := by
  constructor
  · rintro (⟨r, n, hentry, hdata, huncut⟩ | ⟨r, m, hentry, hmem, huncut, hlast⟩)
    · match r with
      | [] =>
          cases hentry
          exact Or.inl ⟨rfl, hdata⟩
      | i :: r =>
          rw [nodeAt_cons] at hentry
          obtain ⟨child, hchild, hentry⟩ := Option.bind_eq_some_iff.1 hentry
          exact Or.inr ⟨i, child, hchild, Or.inl ⟨r, n, hentry, hdata,
            (uncut_cons.1 huncut).2⟩⟩
    · match r with
      | [] => exact absurd hmem (by rwa [List.append_nil])
      | i :: r =>
          rw [nodeAt_cons] at hentry
          obtain ⟨child, hchild, hentry⟩ := Option.bind_eq_some_iff.1 hentry
          exact Or.inr ⟨i, child, hchild, Or.inr ⟨r, m, hentry,
            by rwa [List.append_assoc], (uncut_cons.1 huncut).2, hlast⟩⟩
  · rintro (⟨rfl, hdata⟩ | ⟨i, child, hchild, hremains⟩)
    · exact Or.inl ⟨[], e.2, rfl, hdata, uncut_nil cut path⟩
    · rcases hremains with ⟨r, n, hentry, hdata, huncut⟩ |
        ⟨r, m, hentry, hmem, huncut, hlast⟩
      · refine Or.inl ⟨i :: r, n, ?_, hdata, uncut_cons.2 ⟨hcut, huncut⟩⟩
        rw [nodeAt_cons, hchild]
        exact hentry
      · refine Or.inr ⟨i :: r, m, ?_, ?_, uncut_cons.2 ⟨hcut, huncut⟩, hlast⟩
        · rw [nodeAt_cons, hchild]
          exact hentry
        · rwa [List.append_assoc] at hmem

/-- Some occurrence of the CID has the fields `d`. -/
def OccursWith (e : Entry C (NodeData P)) (c : C) (d : NodeData P) : Prop :=
  ∃ n, Occurs [e] c n ∧ n.data = d

omit [DecidableEq C] in
theorem occursWith_iff {e : Entry C (NodeData P)} {c : C} {d : NodeData P} :
    OccursWith e c d ↔ e.1 = c ∧ e.2.data = d ∨
      ∃ child ∈ e.2.entries, OccursWith child c d := by
  constructor
  · rintro ⟨n, hoccurs, hdata⟩
    rcases occurs_cons_iff.1 hoccurs with rfl | hbelow | hnone
    · exact Or.inl ⟨rfl, hdata⟩
    · rcases occurs_iff_mem_or_below.1 hbelow with hmem | ⟨child, hmem, hchild⟩
      · exact Or.inr ⟨(c, n), hmem, n,
          Reached.root (List.mem_singleton.2 rfl) not_false, hdata⟩
      · exact Or.inr ⟨child, hmem, n,
          occurs_cons_iff.2 (Or.inr (Or.inl hchild)), hdata⟩
    · exact absurd hnone occurs_nil_iff.1
  · rintro (⟨rfl, hdata⟩ | ⟨child, hmem, n, hoccurs, hdata⟩)
    · exact ⟨e.2, Reached.root (List.mem_singleton.2 rfl) not_false, hdata⟩
    · refine ⟨n, occurs_cons_iff.2 (Or.inr (Or.inl ?_)), hdata⟩
      exact hoccurs.mono (by simpa using hmem)

omit [DecidableEq C] in
theorem occursWith_leaf {e : Entry C (NodeData P)} {c : C} {d d' : NodeData P}
    (he : e.2 = .node d' .absent) :
    OccursWith e c d ↔ e.1 = c ∧ d' = d := by
  rw [occursWith_iff, he]
  simp [ChildMap.toEntries, ChildEntries.toList, ChangeTree.data]

omit [DecidableEq C] in
theorem size_lt_of_mem {e : Entry C (NodeData P)}
    {n : ChangeTree C (NodeData P)} (h : e ∈ n.entries) :
    e.2.size < n.size := by
  have hle : e.2.size ≤ (n.entries.map fun e => e.2.size).sum :=
    List.single_le_sum (fun _ _ => Nat.zero_le _) _ (List.mem_map_of_mem h)
  rw [ChangeTree.entries, sum_size_toList] at hle
  rw [size_toEntries n]
  omega

theorem getElem?_pruneEntries (cut : List (List ℕ)) (path : List ℕ) :
    ∀ (entries : ChildEntries C (NodeData P)) (i j : ℕ),
      (pruneEntries cut path i entries).toList[j]? =
        entries.toList[j]?.map fun e =>
          (e.1, pruneNode cut (path ++ [i + j]) e.2)
  | .nil, i, j => by
      rw [pruneEntries, ChildEntries.toList]
      rfl
  | .cons cid child rest, i, j => by
      rw [pruneEntries, ChildEntries.toList, ChildEntries.toList]
      cases j with
      | zero => rfl
      | succ j =>
          rw [List.getElem?_cons_succ, List.getElem?_cons_succ,
            getElem?_pruneEntries cut path rest (i + 1) j, Nat.add_assoc,
            Nat.add_comm 1 j]

theorem data_pruneNode (cut : List (List ℕ)) (path : List ℕ)
    (n : ChangeTree C (NodeData P)) :
    (pruneNode cut path n).data = n.data := by
  obtain ⟨data, children⟩ := n
  rw [pruneNode]
  rfl

/-- A node that is not cut keeps its children. -/
theorem entries_pruneNode {cut : List (List ℕ)} {path : List ℕ}
    (hcut : path ∉ cut) (n : ChangeTree C (NodeData P)) (i : ℕ) :
    (pruneNode cut path n).entries[i]? = n.entries[i]?.map fun e =>
      (e.1, pruneNode cut (path ++ [i]) e.2) := by
  obtain ⟨data, children⟩ := n
  rw [pruneNode, if_neg hcut, ChangeTree.entries_node, ChangeTree.entries_node]
  cases children with
  | absent =>
      rw [pruneChildren]
      rfl
  | deferred =>
      rw [pruneChildren]
      rfl
  | present entries =>
      rw [pruneChildren, ChildMap.toEntries, getElem?_pruneEntries,
        Nat.zero_add, ChildMap.toEntries]

/-- What occurs in the tree after pruning is what remains. -/
theorem occursWith_pruneNode (cut : List (List ℕ)) {c : C} {d : NodeData P} :
    ∀ (path : List ℕ) (cid : C) (n : ChangeTree C (NodeData P)),
      OccursWith (cid, pruneNode cut path n) c d ↔
        Remains cut path (cid, n) c d
  | path, cid, n => by
      rw [occursWith_iff, data_pruneNode]
      by_cases hcut : path ∈ cut
      · rw [remains_of_mem hcut]
        apply or_congr_right
        obtain ⟨data, children⟩ := n
        rw [pruneNode, if_pos hcut, ChangeTree.entries_node]
        constructor
        · rintro ⟨⟨a, m⟩, hmem, hoccurs⟩
          obtain ⟨d', rfl, hlast⟩ := (mem_preservedACL children).1 hmem
          obtain ⟨rfl, rfl⟩ := (occursWith_leaf rfl).1 hoccurs
          exact hlast
        · intro hlast
          exact ⟨(c, .node d .absent), (mem_preservedACL children).2
            ⟨d, rfl, hlast⟩, (occursWith_leaf rfl).2 ⟨rfl, rfl⟩⟩
      · rw [remains_of_not_mem hcut]
        apply or_congr_right
        constructor
        · rintro ⟨child, hmem, hoccurs⟩
          obtain ⟨i, hi⟩ := List.getElem?_of_mem hmem
          rw [entries_pruneNode hcut] at hi
          obtain ⟨⟨a, m⟩, hchild, rfl⟩ := Option.map_eq_some_iff.1 hi
          have hlt := size_lt_of_mem (List.mem_of_getElem? hchild)
          exact ⟨i, (a, m), hchild, (occursWith_pruneNode cut _ a m).1 hoccurs⟩
        · rintro ⟨i, ⟨a, m⟩, hchild, hremains⟩
          have hlt := size_lt_of_mem (List.mem_of_getElem? hchild)
          refine ⟨(a, pruneNode cut (path ++ [i]) m), ?_,
            (occursWith_pruneNode cut _ a m).2 hremains⟩
          apply List.mem_of_getElem? (i := i)
          rw [entries_pruneNode hcut, hchild]
          rfl
termination_by _ _ n => n.size

end Prune

/-! ## The boundary -/

theorem toList_outline : ∀ entries : ChildEntries C (NodeData P),
    entries.outline.toList = entries.toList.map outlineEntry
  | .nil => rfl
  | .cons cid child rest => by
      rw [ChildEntries.outline, Document.ChildList.toList,
        toList_outline rest]
      rfl

theorem entries_outline (n : ChangeTree C (NodeData P)) :
    n.outline.entries = n.entries.map outlineEntry := by
  obtain ⟨data, children⟩ := n
  cases children with
  | absent => rfl
  | deferred => rfl
  | present entries => exact toList_outline entries

theorem entryAt_outline : ∀ (path : List ℕ) (e : Entry C (NodeData P)),
    Document.entryAt (outlineEntry e) path = (nodeAt e path).map outlineEntry
  | [], e => rfl
  | i :: path, e => by
      rw [nodeAt_cons, Document.entryAt, entries_outline, List.getElem?_map,
        Option.bind_map, Option.map_bind]
      congr 1
      funext child
      exact entryAt_outline path child

/-- The document nodes above the path come before the one with number
`keepCount` in breadth-first order. -/
def AboveBoundary (keepCount : ℕ) (e : Entry C (NodeData P))
    (path : List ℕ) : Prop :=
  ∀ q, q <+: path → q ≠ path →
    Document.isDocumentAt (outlineEntry e) q = true →
    Document.documentRank (outlineEntry e) q < keepCount

/-- The node at the path is the first document node from number `keepCount` on
on its path from the root. -/
def AtBoundary (keepCount : ℕ) (e : Entry C (NodeData P)) (path : List ℕ) :
    Prop :=
  AboveBoundary keepCount e path ∧
    Document.isDocumentAt (outlineEntry e) path = true ∧
    keepCount ≤ Document.documentRank (outlineEntry e) path

section Boundary

variable {keepCount : ℕ} {e : Entry C (NodeData P)} {path : List ℕ}

theorem isSome_entryAt_outline (h : (nodeAt e path).isSome) :
    (Document.entryAt (outlineEntry e) path).isSome := by
  rw [entryAt_outline, Option.isSome_map]
  exact h

theorem uncut_boundary_iff (h : (nodeAt e path).isSome) :
    Uncut (Document.boundary keepCount (outlineEntry e)) [] path ↔
      AboveBoundary keepCount e path :=
  Document.not_mem_boundary_iff (isSome_entryAt_outline h)

theorem atBoundary_iff (h : (nodeAt e path).isSome) :
    [] ++ path ∈ Document.boundary keepCount (outlineEntry e) ∧
      Uncut (Document.boundary keepCount (outlineEntry e)) [] path ↔
        AtBoundary keepCount e path := by
  rw [AtBoundary, ← uncut_boundary_iff h, and_comm]
  apply and_congr_right
  intro huncut
  exact Document.mem_boundary_iff (isSome_entryAt_outline h) huncut

end Boundary

/-! ## Access control nodes -/

/-- Some occurrence of the CID in the tree has the fields `d`. -/
def OccursIn (rootId : Option C) (root : ChangeTree C (NodeData P)) (c : C)
    (d : NodeData P) : Prop :=
  rootId = some c ∧ root.data = d ∨ ∃ child ∈ root.entries, OccursWith child c d

theorem occursIn_some {cid c : C} {root : ChangeTree C (NodeData P)}
    {d : NodeData P} :
    OccursIn (some cid) root c d ↔ OccursWith (cid, root) c d := by
  rw [occursWith_iff, OccursIn, Option.some.injEq]

/-- Pruning a tree has kept its access control: the same reader and writer CIDs
occur, and the payloads of reader and writer nodes are still there. -/
structure KeepsACL (rootId : Option C)
    (before after : ChangeTree C (NodeData P)) : Prop where
  cids : ∀ c, (∃ d, OccursIn rootId after c d ∧ d.kind ≠ .document) ↔
    ∃ d, OccursIn rootId before c d ∧ d.kind ≠ .document
  payloads : ∀ c d p, OccursIn rootId before c d → d.kind ≠ .document →
    d.change = some p →
    ∃ d', OccursIn rootId after c d' ∧ d'.kind ≠ .document ∧
      d'.change = some p

section ACL

variable [DecidableEq C]

/-- Every payload of a reader or writer CID stands in a node above which
nothing is cut, or in the last reader or writer node of its CID, depth first,
below some node at the boundary. -/
def PayloadsKept (keepCount : ℕ) (e : Entry C (NodeData P)) : Prop :=
  ∀ c d p, OccursWith e c d → d.kind ≠ .document → d.change = some p →
    (∃ path n, nodeAt e path = some (c, n) ∧ n.data.kind ≠ .document ∧
      n.data.change = some p ∧ AboveBoundary keepCount e path) ∨
    ∃ path m d', nodeAt e path = some m ∧ AtBoundary keepCount e path ∧
      lastACL m.2.children.occurrences c = some d' ∧ d'.change = some p

theorem exists_lastACL {es : List (Entry C (NodeData P))} {c : C}
    {n : ChangeTree C (NodeData P)} (hmem : (c, n) ∈ es)
    (hkind : n.data.kind ≠ .document) : ∃ d, lastACL es c = some d := by
  have hfilter : (c, n) ∈
      es.filter fun e => e.1 = c ∧ e.2.data.kind ≠ .document := by
    simpa using ⟨hmem, hkind⟩
  obtain ⟨e, he⟩ := Option.isSome_iff_exists.1
    (List.getLast?_isSome.2 (List.ne_nil_of_mem hfilter))
  exact ⟨e.2.data, by rw [lastACL, he]; rfl⟩

theorem lastACL_spec {es : List (Entry C (NodeData P))} {c : C}
    {d : NodeData P} (h : lastACL es c = some d) :
    d.kind ≠ .document ∧ ∃ n, (c, n) ∈ es ∧ n.data = d := by
  rw [lastACL] at h
  obtain ⟨⟨a, n⟩, hlast, rfl⟩ := Option.map_eq_some_iff.1 h
  have hmem := List.mem_of_getLast? hlast
  simp only [List.mem_filter, decide_eq_true_eq] at hmem
  obtain ⟨hes, rfl, hkind⟩ := hmem
  exact ⟨hkind, n, hes, rfl⟩

/-- What remains is in the tree. -/
theorem Remains.occursWith {cut : List (List ℕ)} {path : List ℕ}
    {e : Entry C (NodeData P)} {c : C} {d : NodeData P}
    (h : Remains cut path e c d) : OccursWith e c d := by
  rcases h with ⟨r, n, hentry, hdata, -⟩ | ⟨r, m, hentry, -, -, hlast⟩
  · exact ⟨n, occurs_iff_entryAt.2 ⟨0 :: r, hentry⟩, hdata⟩
  · obtain ⟨-, n, hmem, hdata⟩ := lastACL_spec hlast
    have hbelow := (ChildMap.mem_occurrences m.2.children).1 hmem
    exact ⟨n, Occurs.below (occurs_iff_entryAt.2 ⟨0 :: r, hentry⟩) hbelow,
      hdata⟩

/-- A node at a path is below a node that is cut and above which nothing is
cut, or nothing above it is cut. -/
theorem uncut_or_below (cut : List (List ℕ)) (r : List ℕ) :
    Uncut cut [] r ∨
      ∃ q s, r = q ++ s ∧ s ≠ [] ∧ q ∈ cut ∧ Uncut cut [] q := by
  induction r using List.reverseRecOn with
  | nil => exact Or.inl (uncut_nil cut [])
  | append_singleton r i ih =>
      rcases ih with huncut | ⟨q, s, rfl, hs, hq, huncut⟩
      · by_cases hcut : r ∈ cut
        · exact Or.inr ⟨r, [i], rfl, by simp, hcut, huncut⟩
        · apply Or.inl
          intro q hq hne
          rcases List.prefix_concat_iff.1 hq with heq | hfront
          · exact absurd heq hne
          · by_cases heq : q = r
            · rw [heq]
              exact hcut
            · exact huncut q hfront heq
      · exact Or.inr ⟨q, s ++ [i], by simp, by simp, hq, huncut⟩

omit [DecidableEq C] in
theorem nodeAt_append (e : Entry C (NodeData P)) (q : List ℕ) {s : List ℕ}
    (hs : s ≠ []) : nodeAt e (q ++ s) =
      (nodeAt e q).bind fun m => entryAt m.2.entries s := by
  induction q generalizing e with
  | nil => exact entryAt_zero_cons e [] hs
  | cons i q ih =>
      rw [List.cons_append, nodeAt_cons, nodeAt_cons, Option.bind_assoc]
      congr 1
      funext child
      exact ih child

/-- A node of the tree remains, or is below a node that is cut. -/
theorem remains_or_below (cut : List (List ℕ)) {e : Entry C (NodeData P)}
    {c : C} {d : NodeData P} (h : OccursWith e c d) :
    Remains cut [] e c d ∨ ∃ q m n, nodeAt e q = some m ∧ q ∈ cut ∧
      Uncut cut [] q ∧ (c, n) ∈ m.2.children.occurrences ∧ n.data = d := by
  obtain ⟨n, hoccurs, hdata⟩ := h
  obtain ⟨path, hpath⟩ := occurs_iff_entryAt.1 hoccurs
  match path with
  | [] => cases hpath
  | (i + 1) :: r => simp at hpath
  | 0 :: r =>
      rcases uncut_or_below cut r with huncut | ⟨q, s, rfl, hs, hq, huncut⟩
      · exact Or.inl (Or.inl ⟨r, n, hpath, hdata, huncut⟩)
      · have hbelow : nodeAt e (q ++ s) = some (c, n) := hpath
        rw [nodeAt_append e q hs] at hbelow
        obtain ⟨m, hm, hentry⟩ := Option.bind_eq_some_iff.1 hbelow
        exact Or.inr ⟨q, m, n, hm, hq, huncut, (ChildMap.mem_occurrences _).2
          (occurs_iff_entryAt.2 ⟨s, hentry⟩), hdata⟩

/-- A reader or writer CID remains. -/
theorem exists_remains (cut : List (List ℕ)) {e : Entry C (NodeData P)}
    {c : C} {d : NodeData P} (h : OccursWith e c d)
    (hkind : d.kind ≠ .document) :
    ∃ d', Remains cut [] e c d' ∧ d'.kind ≠ .document := by
  rcases remains_or_below cut h with hremains | ⟨q, m, n, hm, hq, huncut, hmem,
    rfl⟩
  · exact ⟨d, hremains, hkind⟩
  · obtain ⟨d', hlast⟩ := exists_lastACL hmem hkind
    exact ⟨d', Or.inr ⟨q, m, hm, hq, huncut, hlast⟩, (lastACL_spec hlast).1⟩

theorem pruneChanges_of_skip [Bot C] {keepCount : ℕ} {changeId : Option C}
    (changes : ChangeTree C (NodeData P))
    (h : ¬(keepCount ≠ 0 ∧ ∃ cid, changeId = some cid ∧ cid ≠ ⊥)) :
    pruneChanges keepCount changeId changes = (changes, []) := by
  cases changeId with
  | none => rfl
  | some cid =>
      rw [pruneChanges, if_pos]
      by_contra hpruned
      rw [not_or] at hpruned
      exact h ⟨hpruned.1, cid, rfl, hpruned.2⟩

theorem pruneChanges_of_root [Bot C] {keepCount : ℕ} {cid : C}
    (changes : ChangeTree C (NodeData P)) (hkeep : keepCount ≠ 0)
    (hcid : cid ≠ ⊥) :
    pruneChanges keepCount (some cid) changes =
      (pruneNode (Document.boundary keepCount (outlineEntry (cid, changes))) []
        changes,
      prunedBelow (cid, changes)
        (Document.boundary keepCount (outlineEntry (cid, changes)))) := by
  rw [pruneChanges, if_neg (by simp [hkeep, hcid])]

/-- What remains of a reader or writer payload after pruning. -/
theorem remains_boundary_iff {keepCount : ℕ} {e : Entry C (NodeData P)}
    {c : C} {p : P} :
    (∃ d', Remains (Document.boundary keepCount (outlineEntry e)) [] e c d' ∧
      d'.kind ≠ .document ∧ d'.change = some p) ↔
    (∃ path n, nodeAt e path = some (c, n) ∧ n.data.kind ≠ .document ∧
      n.data.change = some p ∧ AboveBoundary keepCount e path) ∨
    ∃ path m d', nodeAt e path = some m ∧ AtBoundary keepCount e path ∧
      lastACL m.2.children.occurrences c = some d' ∧ d'.change = some p := by
  constructor
  · rintro ⟨d', ⟨r, n, hentry, rfl, huncut⟩ | ⟨r, m, hentry, hcut, huncut,
      hlast⟩, hkind, hchange⟩
    · exact Or.inl ⟨r, n, hentry, hkind, hchange,
        (uncut_boundary_iff (by rw [hentry]; rfl)).1 huncut⟩
    · exact Or.inr ⟨r, m, d', hentry,
        (atBoundary_iff (by rw [hentry]; rfl)).1 ⟨hcut, huncut⟩, hlast,
        hchange⟩
  · rintro (⟨r, n, hentry, hkind, hchange, habove⟩ | ⟨r, m, d', hentry, hat,
      hlast, hchange⟩)
    · exact ⟨n.data, Or.inl ⟨r, n, hentry, rfl,
        (uncut_boundary_iff (by rw [hentry]; rfl)).2 habove⟩, hkind, hchange⟩
    · obtain ⟨hcut, huncut⟩ := (atBoundary_iff (by rw [hentry]; rfl)).2 hat
      exact ⟨d', Or.inr ⟨r, m, hentry, hcut, huncut, hlast⟩,
        (lastACL_spec hlast).1, hchange⟩

/-- Pruning keeps the reader and writer CIDs.  It keeps their payloads if and
only if none is overwritten: it does nothing, or each payload stands above the
boundary or in a last reader or writer node below it. -/
theorem keepsACL_iff [Bot C] (keepCount : ℕ) (changeId : Option C)
    (changes : ChangeTree C (NodeData P)) :
    KeepsACL changeId changes (pruneChanges keepCount changeId changes).1 ↔
      keepCount = 0 ∨ ∀ cid, changeId = some cid → cid ≠ ⊥ →
        PayloadsKept keepCount (cid, changes) := by
  by_cases hpruned : keepCount ≠ 0 ∧ ∃ cid, changeId = some cid ∧ cid ≠ ⊥
  · obtain ⟨hkeep, cid, rfl, hcid⟩ := hpruned
    rw [pruneChanges_of_root changes hkeep hcid]
    have hafter : ∀ c d, OccursIn (some cid) (pruneNode (Document.boundary
        keepCount (outlineEntry (cid, changes))) [] changes) c d ↔
        Remains (Document.boundary keepCount (outlineEntry (cid, changes))) []
          (cid, changes) c d := by
      intro c d
      rw [occursIn_some, occursWith_pruneNode]
    constructor
    · intro h
      refine Or.inr fun cid' hcid' _ => ?_
      obtain rfl := Option.some.inj hcid'
      intro c d p hoccurs hkind hchange
      obtain ⟨d', hd', hkind', hchange'⟩ :=
        h.payloads c d p (occursIn_some.2 hoccurs) hkind hchange
      exact remains_boundary_iff.1
        ⟨d', (hafter c d').1 hd', hkind', hchange'⟩
    · intro h
      have hpayloads := (h.resolve_left hkeep) cid rfl hcid
      constructor
      · intro c
        constructor
        · rintro ⟨d, hd, hkind⟩
          exact ⟨d, occursIn_some.2 ((hafter c d).1 hd).occursWith, hkind⟩
        · rintro ⟨d, hd, hkind⟩
          obtain ⟨d', hd', hkind'⟩ :=
            exists_remains _ (occursIn_some.1 hd) hkind
          exact ⟨d', (hafter c d').2 hd', hkind'⟩
      · intro c d p hd hkind hchange
        obtain ⟨d', hd', hkind', hchange'⟩ := remains_boundary_iff.2
          (hpayloads c d p (occursIn_some.1 hd) hkind hchange)
        exact ⟨d', (hafter c d').2 hd', hkind', hchange'⟩
  · rw [pruneChanges_of_skip changes hpruned]
    refine iff_of_true ⟨fun c => Iff.rfl, ?_⟩ ?_
    · intro c d p hd hkind hchange
      exact ⟨d, hd, hkind, hchange⟩
    · by_contra hkeep
      rw [not_or] at hkeep
      obtain ⟨hkeep, hroot⟩ := hkeep
      apply hroot
      intro cid hchangeId hcid
      exact absurd ⟨hkeep, cid, hchangeId, hcid⟩ hpruned

end ACL

/-- Change `9` over change `2` and a cross-link to the reader change `5`, which
is inline below change `2`. -/
def readerLinked : ChangeTree ℕ (NodeData ℕ) :=
  .node ⟨.document, some 90⟩ (.present
    (.cons 2 (.node ⟨.document, some 20⟩ (.present
      (.cons 5 (.node ⟨.reader, some 50⟩ .absent) .nil)))
    (.cons 5 (.node ⟨.reader, none⟩ .absent) .nil)))

/-- Pruning to one node keeps the cross-link and drops the payload. -/
theorem pruneChanges_drops_payload :
    (pruneChanges 1 (some 9) readerLinked).1 =
      .node ⟨.document, some 90⟩ (.present
        (.cons 5 (.node ⟨.reader, none⟩ .absent) .nil)) ∧
    ¬KeepsACL (some 9) readerLinked
      (pruneChanges 1 (some 9) readerLinked).1 := by
  have hpruned : (pruneChanges 1 (some 9) readerLinked).1 =
      .node ⟨.document, some 90⟩ (.present
        (.cons 5 (.node ⟨.reader, none⟩ .absent) .nil)) := by
    rfl
  refine ⟨hpruned, fun h => ?_⟩
  obtain ⟨d, hd, -, hchange⟩ := h.payloads 5 ⟨.reader, some 50⟩ 50
    (Or.inr ⟨_, List.mem_cons_self, .node ⟨.reader, some 50⟩ .absent,
      occurs_cons_iff.2 (Or.inr (Or.inl (Reached.root List.mem_cons_self
        not_false))), rfl⟩)
    (by simp) rfl
  rw [hpruned] at hd
  rcases hd with ⟨heq, -⟩ | ⟨child, hmem, hoccurs⟩
  · cases heq
  · obtain rfl := List.mem_singleton.1 hmem
    obtain ⟨-, rfl⟩ := (occursWith_leaf rfl).1 hoccurs
    cases hchange

end Collabswarm.Merkle
