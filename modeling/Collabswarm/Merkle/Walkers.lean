import Collabswarm.Merkle.Traversal
import Collabswarm.Support.FieldOrder
import Collabswarm.Support.InsertionMap

/-!
# The walkers over change trees

The helpers of `merkle-cross-links` and `blockstore-gc`.  A set is the list of
its elements in the order in which they were added, and the visited CIDs of a
walk are a finite set.  `⊥` is the empty string.
-/

namespace Collabswarm.Merkle

open Document (NodeKind)
open FieldOrder (touch)

variable {C L P σ : Type}

/-- `stripInlineChanges`. -/
def stripInlineChanges (node : ChangeTree C (NodeData P)) :
    ChangeTree C (NodeData P) :=
  node.mapData fun data => { data with change := none }

variable [DecidableEq C]

/-! ## Scans -/

section Scan

variable (enter edge : C → σ → σ)

mutual

/-- The walk that the scans have in common: `enter` is what they do at a node
they have not visited, `edge` at a key of a map. -/
def scanNode (cid : C) (s : Finset C × σ) : ChangeTree C L → Finset C × σ
  | .node _ children =>
      if cid ∈ s.1 then s
      else scanChildren (insert cid s.1, enter cid s.2) children

/-- The part of the walk below a node. -/
def scanChildren (s : Finset C × σ) : ChildMap C L → Finset C × σ
  | .absent => s
  | .deferred => s
  | .present entries => scanEntries s entries

/-- The loop of the walk over a map. -/
def scanEntries (s : Finset C × σ) : ChildEntries C L → Finset C × σ
  | .nil => s
  | .cons cid child rest =>
      scanEntries (scanNode cid (s.1, edge cid s.2) child) rest

end

/-- The walk from the root, which may have no CID. -/
def scan (rootId : Option C) (root : ChangeTree C L) (init : σ) : σ :=
  match rootId with
  | some cid => (scanNode enter edge cid (∅, init) root).2
  | none => (scanChildren enter edge (∅, init) root.children).2

end Scan

/-- `collectReferencedAncestors`. -/
def collectReferencedAncestors (rootId : Option C) (root : ChangeTree C L)
    (out : List C) : List C :=
  scan (fun _ out => out) (fun childId out => touch out childId) rootId root
    out

/-- What `computeServedFrontier` collects. -/
structure FrontierScan (C : Type) where
  cids : List C
  referenced : List C

section Frontier

variable [Bot C]

/-- `computeServedFrontier`. -/
def computeServedFrontier (changeId : Option C)
    (changes : Option (ChangeTree C L)) (snapshotBoundaryCid : Option C) :
    List C :=
  let scanned : FrontierScan C := match changes with
    | none => ⟨[], []⟩
    | some changes =>
        scan (fun nodeId s => { s with cids := touch s.cids nodeId })
          (fun childId s => ⟨touch s.cids childId, touch s.referenced childId⟩)
          changeId changes ⟨[], []⟩
  let cids := match snapshotBoundaryCid with
    | none => scanned.cids
    | some cid => if cid = ⊥ then scanned.cids else touch scanned.cids cid
  cids.filter (· ∉ scanned.referenced)

/-- `collectAllCidsInTree`. -/
def collectAllCidsInTree (rootId : Option C)
    (root : Option (ChangeTree C L)) : List C :=
  match root with
  | none => rootId.toList.filter (· ≠ ⊥)
  | some root =>
      scan (fun nodeId cids => touch cids nodeId)
        (fun childId cids => touch cids childId) rootId root []

end Frontier

section Contains

variable (targetCid : C)

mutual

/-- The walk of `treeContainsCid`, with the CIDs visited so far. -/
def containsNode (cid : C) (visited : Finset C) :
    ChangeTree C L → Bool × Finset C
  | .node _ children =>
      if cid ∈ visited then (false, visited)
      else containsChildren (insert cid visited) children

/-- The part of the walk below a node. -/
def containsChildren (visited : Finset C) : ChildMap C L → Bool × Finset C
  | .absent => (false, visited)
  | .deferred => (false, visited)
  | .present entries => containsEntries visited entries

/-- The loop of the walk over a map. -/
def containsEntries (visited : Finset C) : ChildEntries C L → Bool × Finset C
  | .nil => (false, visited)
  | .cons cid child rest =>
      if cid = targetCid then (true, visited)
      else
        match containsNode cid visited child with
        | (true, visited) => (true, visited)
        | (false, visited) => containsEntries visited rest

end

/-- The walk from the root, which may have no CID. -/
def containsWalk (rootId : Option C) (root : ChangeTree C L) : Bool :=
  match rootId with
  | some cid => (containsNode targetCid cid ∅ root).1
  | none => (containsChildren targetCid ∅ root.children).1

end Contains

/-- `treeContainsCid`. -/
def treeContainsCid [Bot C] (rootId : Option C)
    (root : Option (ChangeTree C L)) (targetCid : Option C) : Bool :=
  match targetCid, root with
  | none, _ => false
  | some _, none => false
  | some target, some root =>
      if target = ⊥ then false
      else if rootId = some target then true
      else containsWalk target rootId root

/-! ## Breadth first -/

/-- The loop of `collectTreeCIDs` over its queue. -/
def collectLoop : ℕ → List C → List (ChangeTree C L) → List C
  | 0, cids, _ => cids
  | _, cids, [] => cids
  | fuel + 1, cids, current :: queue =>
      collectLoop fuel
        (current.entries.foldl (fun cids e => touch cids e.1) cids)
        (queue ++ current.entries.map Prod.snd)

/-- `collectTreeCIDs`: the queue takes every node once. -/
def collectTreeCIDs (rootCID : C) (root : ChangeTree C L) : List C :=
  collectLoop root.size [rootCID] [root]

/-- The CIDs of the retained tree; none without a root or a root CID. -/
def retainedCIDs [Bot C] (retainedRootCID : Option C)
    (retainedRoot : Option (ChangeTree C L)) : List C :=
  match retainedRootCID, retainedRoot with
  | some cid, some root => if cid = ⊥ then [] else collectTreeCIDs cid root
  | _, _ => []

/-- The loop of `filterDeletableCIDs` at one candidate. -/
def filterStep (reachable protectedCIDs out : List C) (cid : C) : List C :=
  if cid ∈ reachable then out
  else if cid ∈ protectedCIDs then out
  else touch out cid

/-- `filterDeletableCIDs`. -/
def filterDeletableCIDs [Bot C] (candidates : List C)
    (retainedRootCID : Option C) (retainedRoot : Option (ChangeTree C L))
    (protectedCIDs : List C) : List C :=
  candidates.foldl
    (filterStep (retainedCIDs retainedRootCID retainedRoot) protectedCIDs) []

/-! ## Merging a remote tree -/

/-- The walk's `byCid`, with kind and payload, and `walked`. -/
structure MergeWalk (C P : Type) where
  byCid : InsertionMap C (NodeData P)
  walked : Finset C

/-- Keep the first entry of a CID, unless a later one has the payload. -/
def record (byCid : InsertionMap C (NodeData P)) (cid : C)
    (data : NodeData P) : InsertionMap C (NodeData P) :=
  match byCid.get? cid with
  | none => byCid.set cid data
  | some existing =>
      if existing.change.isNone && data.change.isSome then byCid.set cid data
      else byCid

section Merge

variable (localRootId : Option C) (localHashes : Finset C)

mutual

/-- `walk`; `none` where the source throws because children are deferred. -/
def mergeNode (cid : C) (w : MergeWalk C P) :
    ChangeTree C (NodeData P) → Option (MergeWalk C P)
  | .node data children =>
      if some cid = localRootId then some w
      else if cid ∈ localHashes then some w
      else
        let w := { w with byCid := record w.byCid cid data }
        if cid ∈ w.walked then some w
        else mergeChildren cid w children

/-- The part of `walk` below a node. -/
def mergeChildren (cid : C) (w : MergeWalk C P) :
    ChildMap C (NodeData P) → Option (MergeWalk C P)
  | .absent => some w
  | .deferred => none
  | .present entries =>
      mergeEntries { w with walked := insert cid w.walked } entries

/-- The loop of `walk` over a map. -/
def mergeEntries (w : MergeWalk C P) :
    ChildEntries C (NodeData P) → Option (MergeWalk C P)
  | .nil => some w
  | .cons cid child rest =>
      match mergeNode cid w child with
      | none => none
      | some w => mergeEntries w rest

end

/-- `mergeRemoteSyncTree`: the entries that are new to us. -/
def mergeRemoteSyncTree (remoteRootId : Option C)
    (remoteRoot : ChangeTree C (NodeData P)) :
    Option (List (C × NodeData P)) :=
  match remoteRootId with
  | none => some []
  | some rootId =>
      (mergeNode localRootId localHashes rootId ⟨.empty, ∅⟩ remoteRoot).map
        fun w => w.byCid.entries

end Merge

/-! ## What the walkers visit -/

section ScanSpec

variable {enter edge : C → σ → σ}

mutual

theorem scanNode_eq (henter : ∀ c s, enter c (edge c s) = edge c s) (cid : C)
    (marked : Finset C) (s : σ) :
    ∀ n : ChangeTree C L, scanNode enter edge cid (marked, edge cid s) n =
      ((visitNode (fun _ => true) cid marked n).1,
        (visitNode (fun _ => true) cid marked n).2.foldl
          (fun s e => edge e.1 s) s)
  | .node data children => by
      rw [scanNode, visitNode]
      by_cases hcid : cid ∈ marked
      · rw [if_pos hcid, if_neg (by simp [hcid])]
        rfl
      · rw [if_neg hcid, if_pos ⟨rfl, hcid⟩]
        dsimp only
        rw [henter, scanChildren_eq henter]
        rfl

theorem scanChildren_eq (henter : ∀ c s, enter c (edge c s) = edge c s)
    (marked : Finset C) (s : σ) :
    ∀ children : ChildMap C L, scanChildren enter edge (marked, s) children =
      ((visitChildren (fun _ => true) marked children).1,
        (visitChildren (fun _ => true) marked children).2.foldl
          (fun s e => edge e.1 s) s)
  | .absent => rfl
  | .deferred => rfl
  | .present entries => by
      rw [scanChildren, visitChildren, scanEntries_eq henter]

/-- A scan does its part at every entry it visits. -/
theorem scanEntries_eq (henter : ∀ c s, enter c (edge c s) = edge c s)
    (marked : Finset C) (s : σ) :
    ∀ entries : ChildEntries C L, scanEntries enter edge (marked, s) entries =
      ((visitEntries (fun _ => true) marked entries).1,
        (visitEntries (fun _ => true) marked entries).2.foldl
          (fun s e => edge e.1 s) s)
  | .nil => rfl
  | .cons cid child rest => by
      rw [scanEntries, visitEntries]
      dsimp only
      rw [scanNode_eq henter, scanEntries_eq henter, List.foldl_append]

end

/-- What a scan visits below the root. -/
def scanVisits (rootId : Option C) (root : ChangeTree C L) :
    List (Entry C L) :=
  (visitEntries (fun _ => true) rootId.toFinset root.children.toEntries).2

theorem visitChildren_eq (opens : ChangeTree C L → Bool) (marked : Finset C)
    (children : ChildMap C L) :
    visitChildren opens marked children =
      visitEntries opens marked children.toEntries := by
  cases children <;> rfl

/-- A scan does its part at the root and at every entry it visits. -/
theorem scan_eq (henter : ∀ c s, enter c (edge c s) = edge c s)
    (rootId : Option C) (root : ChangeTree C L) (init : σ) :
    scan enter edge rootId root init =
      (scanVisits rootId root).foldl (fun s e => edge e.1 s)
        (rootId.elim init fun c => enter c init) := by
  obtain ⟨data, children⟩ := root
  rw [scanVisits, ← visitChildren_eq]
  cases rootId with
  | none =>
      rw [scan, scanChildren_eq henter]
      rfl
  | some cid =>
      rw [scan, scanNode, if_neg (Finset.notMem_empty cid),
        scanChildren_eq henter]
      rfl

end ScanSpec

section ContainsSpec

variable {targetCid : C}

mutual

theorem containsNode_eq {cid : C} (hcid : cid ≠ targetCid)
    (visited : Finset C) : ∀ n : ChangeTree C L,
      ((containsNode targetCid cid visited n).1 = true ↔
        ∃ e ∈ (visitNode (fun _ => true) cid visited n).2, e.1 = targetCid) ∧
      ((containsNode targetCid cid visited n).1 = false →
        (containsNode targetCid cid visited n).2 =
          (visitNode (fun _ => true) cid visited n).1)
  | .node data children => by
      rw [containsNode, visitNode]
      by_cases hvisited : cid ∈ visited
      · rw [if_pos hvisited, if_neg (by simp [hvisited])]
        simp [hcid]
      · rw [if_neg hvisited, if_pos ⟨rfl, hvisited⟩]
        obtain ⟨hfound, hmarked⟩ :=
          containsChildren_eq (insert cid visited) children
        refine ⟨?_, hmarked⟩
        rw [hfound]
        simp [hcid]

theorem containsChildren_eq (visited : Finset C) :
    ∀ children : ChildMap C L,
      ((containsChildren targetCid visited children).1 = true ↔
        ∃ e ∈ (visitChildren (fun _ => true) visited children).2,
          e.1 = targetCid) ∧
      ((containsChildren targetCid visited children).1 = false →
        (containsChildren targetCid visited children).2 =
          (visitChildren (fun _ => true) visited children).1)
  | .absent => by simp [containsChildren, visitChildren]
  | .deferred => by simp [containsChildren, visitChildren]
  | .present entries => by
      rw [containsChildren, visitChildren]
      exact containsEntries_eq visited entries

/-- The walk finds the target if it is one of the CIDs that a scan visits. -/
theorem containsEntries_eq (visited : Finset C) :
    ∀ entries : ChildEntries C L,
      ((containsEntries targetCid visited entries).1 = true ↔
        ∃ e ∈ (visitEntries (fun _ => true) visited entries).2,
          e.1 = targetCid) ∧
      ((containsEntries targetCid visited entries).1 = false →
        (containsEntries targetCid visited entries).2 =
          (visitEntries (fun _ => true) visited entries).1)
  | .nil => by simp [containsEntries, visitEntries]
  | .cons cid child rest => by
      rw [containsEntries, visitEntries]
      dsimp only
      by_cases hcid : cid = targetCid
      · rw [if_pos hcid]
        refine ⟨iff_of_true rfl ?_, by simp⟩
        refine ⟨(cid, child), List.mem_append_left _ ?_, hcid⟩
        rw [visitNode_eq]
        split <;> simp
      · rw [if_neg hcid]
        obtain ⟨hfound, hmarked⟩ := containsNode_eq hcid visited child
        split
        · rename_i visited' heq
          rw [heq] at hfound
          obtain ⟨e, he, htarget⟩ := hfound.1 rfl
          refine ⟨iff_of_true rfl ?_, by simp⟩
          exact ⟨e, List.mem_append_left _ he, htarget⟩
        · rename_i visited' heq
          rw [heq] at hfound hmarked
          have hnone : ¬∃ e ∈ (visitNode (fun _ => true) cid visited child).2,
              e.1 = targetCid := fun h => Bool.noConfusion (hfound.2 h)
          have hvisited : visited' =
              (visitNode (fun _ => true) cid visited child).1 := hmarked rfl
          rw [← hvisited]
          obtain ⟨hrest, hmarked'⟩ := containsEntries_eq visited' rest
          refine ⟨?_, hmarked'⟩
          rw [hrest]
          constructor
          · rintro ⟨e, he, htarget⟩
            exact ⟨e, List.mem_append_right _ he, htarget⟩
          · rintro ⟨e, he, htarget⟩
            rcases List.mem_append.1 he with he | he
            · exact absurd ⟨e, he, htarget⟩ hnone
            · exact ⟨e, he, htarget⟩

end

theorem containsWalk_iff {rootId : Option C} {root : ChangeTree C L} :
    containsWalk targetCid rootId root = true ↔
      ∃ e ∈ scanVisits rootId root, e.1 = targetCid := by
  obtain ⟨data, children⟩ := root
  rw [scanVisits, ← visitChildren_eq]
  cases rootId with
  | none => exact (containsChildren_eq _ children).1
  | some cid =>
      rw [containsWalk, containsNode, if_neg (Finset.notMem_empty cid)]
      exact (containsChildren_eq _ children).1

end ContainsSpec

section MergeSpec

/-- The node has a map of children. -/
def hasMap (n : ChangeTree C L) : Bool :=
  match n.children with
  | .present _ => true
  | _ => false

variable (localRootId : Option C) (localHashes : Finset C)

/-- The CIDs at which a merge stops. -/
def knownCids : Finset C := localRootId.toFinset ∪ localHashes

variable {localRootId localHashes}

theorem mem_knownCids {c : C} : c ∈ knownCids localRootId localHashes ↔
    some c = localRootId ∨ c ∈ localHashes := by
  simp [knownCids, eq_comm]

/-- Record an entry unless its CID is known. -/
def recordNew (known : Finset C) (byCid : InsertionMap C (NodeData P))
    (e : Entry C (NodeData P)) : InsertionMap C (NodeData P) :=
  if e.1 ∈ known then byCid else record byCid e.1 e.2.data

mutual

theorem mergeNode_eq (localRootId : Option C) (localHashes : Finset C)
    (cid : C) (w : MergeWalk C P) :
    ∀ n : ChangeTree C (NodeData P),
      (∀ e ∈ (visitNode hasMap cid
          (knownCids localRootId localHashes ∪ w.walked) n).2,
        e.2.children ≠ .deferred) →
      ∃ w', mergeNode localRootId localHashes cid w n = some w' ∧
        knownCids localRootId localHashes ∪ w'.walked =
          (visitNode hasMap cid
            (knownCids localRootId localHashes ∪ w.walked) n).1 ∧
        w'.byCid = (visitNode hasMap cid
          (knownCids localRootId localHashes ∪ w.walked) n).2.foldl
            (recordNew (knownCids localRootId localHashes)) w.byCid
  | .node data children => by
      intro hinline
      rw [mergeNode]
      rw [visitNode] at hinline ⊢
      by_cases hknown : cid ∈ knownCids localRootId localHashes
      · have hskip : ¬(hasMap (.node data children : ChangeTree C (NodeData P))
            = true ∧ cid ∉ knownCids localRootId localHashes ∪ w.walked) := by
          simp [hknown]
        rw [if_neg hskip]
        refine ⟨w, ?_, rfl, ?_⟩
        · rcases mem_knownCids.1 hknown with hroot | hhash
          · rw [if_pos hroot]
          · rw [if_pos hhash, ite_self]
        · simp [recordNew, hknown]
      · have hrecord : ∀ byCid : InsertionMap C (NodeData P),
            recordNew (knownCids localRootId localHashes) byCid
              (cid, .node data children) = record byCid cid data :=
          fun byCid => if_neg hknown
        rw [if_neg fun h => hknown (mem_knownCids.2 (Or.inl h)),
          if_neg fun h => hknown (mem_knownCids.2 (Or.inr h))]
        by_cases hwalked : cid ∈ w.walked
        · have hskip : ¬(hasMap (.node data children : ChangeTree C (NodeData P))
              = true ∧ cid ∉ knownCids localRootId localHashes ∪ w.walked) := by
            simp [hwalked]
          rw [if_neg hskip]
          refine ⟨_, if_pos hwalked, rfl, ?_⟩
          simp [hrecord]
        · have hnew : cid ∉ knownCids localRootId localHashes ∪ w.walked := by
            simp [hknown, hwalked]
          dsimp only
          rw [if_neg hwalked]
          match children with
          | .absent =>
              rw [if_neg (by simp [hasMap, ChangeTree.children])]
              exact ⟨_, rfl, rfl, by simp [hrecord]⟩
          | .deferred =>
              rw [if_neg (by simp [hasMap, ChangeTree.children])] at hinline
              exact absurd rfl (hinline _ (List.mem_singleton.2 rfl))
          | .present entries =>
              rw [if_pos ⟨rfl, hnew⟩] at hinline ⊢
              have hmarks : insert cid
                  (knownCids localRootId localHashes ∪ w.walked) =
                  knownCids localRootId localHashes ∪ insert cid w.walked :=
                (Finset.union_insert _ _ _).symm
              rw [hmarks] at hinline ⊢
              obtain ⟨w', hw', hmarked, hbyCid⟩ := mergeEntries_eq
                localRootId localHashes
                { byCid := record w.byCid cid data
                  walked := insert cid w.walked } entries
                fun e he => hinline e (List.mem_cons_of_mem _ he)
              refine ⟨w', hw', hmarked, ?_⟩
              rw [hbyCid, List.foldl_cons, hrecord]
              rfl

/-- A merge that meets no deferred children records the entries it visits. -/
theorem mergeEntries_eq (localRootId : Option C) (localHashes : Finset C)
    (w : MergeWalk C P) :
    ∀ entries : ChildEntries C (NodeData P),
      (∀ e ∈ (visitEntries hasMap
          (knownCids localRootId localHashes ∪ w.walked) entries).2,
        e.2.children ≠ .deferred) →
      ∃ w', mergeEntries localRootId localHashes w entries = some w' ∧
        knownCids localRootId localHashes ∪ w'.walked =
          (visitEntries hasMap
            (knownCids localRootId localHashes ∪ w.walked) entries).1 ∧
        w'.byCid = (visitEntries hasMap
          (knownCids localRootId localHashes ∪ w.walked) entries).2.foldl
            (recordNew (knownCids localRootId localHashes)) w.byCid
  | .nil => fun _ => ⟨w, rfl, rfl, rfl⟩
  | .cons cid child rest => by
      intro hinline
      rw [visitEntries] at hinline ⊢
      dsimp only at hinline ⊢
      obtain ⟨w', hw', hmarked, hbyCid⟩ := mergeNode_eq localRootId
        localHashes cid w child
        fun e he => hinline e (List.mem_append_left _ he)
      rw [← hmarked] at hinline ⊢
      obtain ⟨w'', hw'', hmarked', hbyCid'⟩ := mergeEntries_eq localRootId
        localHashes w' rest fun e he => hinline e (List.mem_append_right _ he)
      refine ⟨w'', ?_, hmarked', ?_⟩
      · rw [mergeEntries, hw']
        exact hw''
      · rw [hbyCid', hbyCid, List.foldl_append]

end

end MergeSpec

end Collabswarm.Merkle
