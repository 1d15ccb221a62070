import Collabswarm.Load.QuorumBound

/-!
# Forged payloads in quorum-bound loads

Two responses that are equal except for the payloads in their trees.  What is
computed from a tree before it is stripped reads the CIDs only, and the
stripped trees are equal, so the two runs are the same.
-/

namespace Collabswarm.Merkle

variable {C L M N P σ : Type}

mutual

theorem ChangeTree.mapData_mapData (f : L → M) (g : M → N) :
    ∀ n : ChangeTree C L, (n.mapData f).mapData g = n.mapData (g ∘ f)
  | .node data children => by
      rw [ChangeTree.mapData, ChangeTree.mapData, ChangeTree.mapData,
        ChildMap.mapData_mapData]
      rfl

theorem ChildMap.mapData_mapData (f : L → M) (g : M → N) :
    ∀ children : ChildMap C L,
      (children.mapData f).mapData g = children.mapData (g ∘ f)
  | .absent => rfl
  | .deferred => rfl
  | .present entries => by
      rw [ChildMap.mapData, ChildMap.mapData, ChildMap.mapData,
        ChildEntries.mapData_mapData]

theorem ChildEntries.mapData_mapData (f : L → M) (g : M → N) :
    ∀ entries : ChildEntries C L,
      (entries.mapData f).mapData g = entries.mapData (g ∘ f)
  | .nil => rfl
  | .cons cid child rest => by
      rw [ChildEntries.mapData, ChildEntries.mapData, ChildEntries.mapData,
        ChangeTree.mapData_mapData, ChildEntries.mapData_mapData]

end

/-- The stripped tree is determined by the kinds. -/
theorem stripInlineChanges_eq (n : ChangeTree C (NodeData P)) :
    stripInlineChanges n =
      (n.mapData NodeData.kind).mapData fun kind => ⟨kind, none⟩ := by
  rw [ChangeTree.mapData_mapData]
  rfl

section Scans

variable [DecidableEq C] {enter edge : C → σ → σ} {f : L → M}

mutual

theorem scanNode_mapData (cid : C) :
    ∀ (n : ChangeTree C L) (s : Finset C × σ),
      scanNode enter edge cid s (n.mapData f) = scanNode enter edge cid s n
  | .node data children, s => by
      rw [ChangeTree.mapData, scanNode, scanNode, scanChildren_mapData children]

theorem scanChildren_mapData :
    ∀ (children : ChildMap C L) (s : Finset C × σ),
      scanChildren enter edge s (children.mapData f) =
        scanChildren enter edge s children
  | .absent, _ => rfl
  | .deferred, _ => rfl
  | .present entries, s => by
      rw [ChildMap.mapData, scanChildren, scanChildren,
        scanEntries_mapData entries]

/-- A scan reads the CIDs only. -/
theorem scanEntries_mapData :
    ∀ (entries : ChildEntries C L) (s : Finset C × σ),
      scanEntries enter edge s (entries.mapData f) =
        scanEntries enter edge s entries
  | .nil, _ => rfl
  | .cons cid child rest, s => by
      rw [ChildEntries.mapData, scanEntries, scanEntries,
        scanNode_mapData cid child, scanEntries_mapData rest]

end

omit [DecidableEq C] in
theorem children_mapData (f : L → M) (n : ChangeTree C L) :
    (n.mapData f).children = n.children.mapData f := by
  obtain ⟨data, children⟩ := n
  rfl

theorem scan_mapData (f : L → M) (rootId : Option C) (root : ChangeTree C L)
    (init : σ) :
    scan enter edge rootId (root.mapData f) init =
      scan enter edge rootId root init := by
  cases rootId with
  | none =>
      rw [scan, scan, children_mapData, scanChildren_mapData]
  | some cid => rw [scan, scan, scanNode_mapData]

variable [Bot C]

theorem computeServedFrontier_mapData (f : L → M) (changeId : Option C)
    (changes : Option (ChangeTree C L)) (snapshotBoundaryCid : Option C) :
    computeServedFrontier changeId (changes.map (ChangeTree.mapData f))
        snapshotBoundaryCid =
      computeServedFrontier changeId changes snapshotBoundaryCid := by
  cases changes with
  | none => rfl
  | some changes =>
      unfold computeServedFrontier
      dsimp only [Option.map_some]
      rw [scan_mapData]

theorem collectAllCidsInTree_mapData (f : L → M) (rootId : Option C)
    (root : Option (ChangeTree C L)) :
    collectAllCidsInTree rootId (root.map (ChangeTree.mapData f)) =
      collectAllCidsInTree rootId root := by
  cases root with
  | none => rfl
  | some root =>
      unfold collectAllCidsInTree
      dsimp only [Option.map_some]
      rw [scan_mapData]

end Scans

end Collabswarm.Merkle

namespace Collabswarm.Load

open Merkle

variable {C P D A Q U K H : Type}

/-- Two messages that are equal except for the payloads in their trees; their
signatures, if they have one, may differ as well. -/
structure EqualUpToPayloads (message message' : SyncMessage C P) : Prop where
  documentId : message.documentId = message'.documentId
  changeId : message.changeId = message'.changeId
  changes : message.changes.map (ChangeTree.mapData NodeData.kind) =
    message'.changes.map (ChangeTree.mapData NodeData.kind)
  snapshot : message.snapshot = message'.snapshot
  keychainChanges : message.keychainChanges = message'.keychainChanges
  tips : message.tips = message'.tips
  signature : Loader.unsigned message = Loader.unsigned message'

namespace EqualUpToPayloads

variable {message message' : SyncMessage C P}

theorem stripped (h : EqualUpToPayloads message message') :
    message.changes.map stripInlineChanges =
      message'.changes.map stripInlineChanges := by
  have hstrip : ∀ changes : Option (ChangeTree C (NodeData P)),
      changes.map stripInlineChanges =
        (changes.map (ChangeTree.mapData NodeData.kind)).map
          (ChangeTree.mapData fun kind => ⟨kind, none⟩) := by
    intro changes
    rw [Option.map_map]
    congr 1
    funext n
    exact stripInlineChanges_eq n
  rw [hstrip, hstrip, h.changes]

variable [LinearOrder C] [Bot C]

theorem servedFrontier (h : EqualUpToPayloads message message') :
    Loader.servedFrontier message = Loader.servedFrontier message' := by
  unfold Loader.servedFrontier
  rw [← computeServedFrontier_mapData NodeData.kind, h.changes,
    computeServedFrontier_mapData, h.changeId, h.snapshot]

theorem collectAllCidsInTree (h : EqualUpToPayloads message message') :
    Merkle.collectAllCidsInTree message.changeId message.changes =
      Merkle.collectAllCidsInTree message'.changeId message'.changes := by
  rw [← collectAllCidsInTree_mapData NodeData.kind, h.changes,
    collectAllCidsInTree_mapData, h.changeId]

end EqualUpToPayloads

namespace Loader

variable [LinearOrder C] [Bot C] [DecidableEq H]
  (p : Providers C P D A Q U K H) (store : Blockstore C)
  (s : Loader C P D A Q) {message message' : SyncMessage C P}

omit [LinearOrder C] [Bot C] [DecidableEq H] in
/-- Stripped, the messages differ in their signatures only. -/
theorem stripResponse_eq (h : EqualUpToPayloads message message') :
    s.stripResponse p message' =
      { s.stripResponse p message with signature := message'.signature } := by
  unfold stripResponse
  rw [h.documentId, h.changeId, h.stripped, h.snapshot, h.keychainChanges,
    h.tips]

omit [DecidableEq H] in
/-- `sync` does not read a signature that it need not verify. -/
theorem sync_signature {signature : Option String}
    (h : unsigned { message with signature := signature } =
      unsigned message) :
    s.sync p store { message with signature := signature } false =
      s.sync p store message false := by
  unfold sync
  rw [h]
  simp only [Bool.and_false, Bool.false_and]

/-- The two responses pass the same checks. -/
theorem bindResponse_eq (h : EqualUpToPayloads message message')
    (expectedTipsHash : H) :
    s.bindResponse p store message' expectedTipsHash =
      (s.bindResponse p store message expectedTipsHash).map fun bound =>
        ({ bound.1 with signature := message'.signature }, bound.2) := by
  unfold bindResponse
  dsimp only
  rw [← h.servedFrontier, ← h.tips, ← h.collectAllCidsInTree,
    stripResponse_eq p s h]
  dsimp only
  split
  · rfl
  · split
    · rfl
    · split
      · rfl
      · split
        · rfl
        · split
          · rfl
          · rfl

theorem unsigned_of_bindResponse {expectedTipsHash : H}
    {bound : SyncMessage C P × List C}
    (h : s.bindResponse p store message expectedTipsHash = .ok bound) :
    unsigned bound.1 = unsigned message := by
  obtain ⟨-, rfl⟩ := (bindResponse_iff p).1 h
  rfl

theorem quorumBoundLoad_eq (h : EqualUpToPayloads message message')
    (expectedTipsHash : H) :
    s.quorumBoundLoad p store message' expectedTipsHash =
      s.quorumBoundLoad p store message expectedTipsHash := by
  unfold quorumBoundLoad
  rw [bindResponse_eq p store s h]
  cases hbound : s.bindResponse p store message expectedTipsHash with
  | error failure => rfl
  | ok bound =>
      have hsigned : unsigned
          { bound.1 with signature := message'.signature } =
          unsigned bound.1 := by
        rw [unsigned_of_bindResponse p store s hbound, h.signature]
        rfl
      change syncExpected p store s
        { bound.1 with signature := message'.signature } bound.2 = _
      unfold syncExpected
      rw [sync_signature p store s hsigned]

/-- Payloads have no influence on a quorum-bound load: of two responses that
differ in nothing else and of which both or none have an acceptable signature,
the outcome is the same, and so is the document it leaves. -/
theorem sendLoadRequestAndSync_payloads
    {assembled assembled' : Bytes} (expectedTipsHash : H)
    (hread : readResponse (H := H) p s.keychain assembled = .ok message)
    (hread' : readResponse (H := H) p s.keychain assembled' = .ok message')
    (hequal : EqualUpToPayloads message message')
    (haccepts : s.acceptsSignature p message =
      s.acceptsSignature p message') :
    s.sendLoadRequestAndSync p store assembled (some expectedTipsHash) =
      s.sendLoadRequestAndSync p store assembled' (some expectedTipsHash) := by
  unfold sendLoadRequestAndSync
  rw [hread, hread']
  dsimp only
  unfold handleResponse
  rw [hequal.documentId, haccepts]
  dsimp only
  rw [quorumBoundLoad_eq p store s hequal]

theorem sendLoadRequestAndSync_forged :
    (emptyLoader.sendLoadRequestAndSync (setProviders true honestAndForged)
        (setStore fun _ => 7) [7, 0, 1] (some {2})).1.document = {2, 1} ∧
    emptyLoader.sendLoadRequestAndSync (setProviders true honestAndForged)
        (setStore fun _ => 7) [7, 0, 1] (some {2}) =
      emptyLoader.sendLoadRequestAndSync (setProviders true honestAndForged)
        (setStore fun _ => 7) [7, 0, 2] (some {2}) :=
  ⟨by decide, sendLoadRequestAndSync_payloads _ _ _ {2} rfl rfl
    ⟨rfl, rfl, rfl, rfl, rfl, rfl, rfl⟩ rfl⟩

end Loader

end Collabswarm.Load
