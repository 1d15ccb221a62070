import Collabswarm.Document.ServedTrees
import Collabswarm.Support.FieldOrder

/-!
# Loads bound to a quorum

The load handlers and the quorum-bound branch of `_sendLoadRequestAndSync`.
The loader checks that the served tree has the frontier the quorum agreed on,
strips its payloads, fetches all its blocks, lets `sync` merge it and then
demands every CID of the tree in `_hashes`.  The merge skips what is below a
known CID, and the boundary of a snapshot that was adopted counts as known.

Signatures and keys are those of honest peers; a snapshot may be signed by a
writer the loader does not know.
-/

namespace Collabswarm.Document

variable {C : Type}

/-! ## Scanning a tree -/

/-- What the scans of a served tree collect: the nodes that were visited, the
CIDs in the tree and those that are referenced as parents. -/
structure TreeScan (C : Type) where
  visited : List C
  cids : List C
  referenced : List C

section Scan

variable [DecidableEq C]

open FieldOrder (touch)

mutual

/-- The walk of `computeServedFrontier` and `collectAllCidsInTree`. -/
def scanNode (cid : C) (s : TreeScan C) : ChangeNode C → TreeScan C
  | .mk _ _ children =>
      if cid ∈ s.visited then s
      else
        scanChildren
          { s with
            visited := cid :: s.visited
            cids := touch s.cids cid } children

/-- The part of the walk below a node. -/
def scanChildren (s : TreeScan C) : Children C → TreeScan C
  | .absent => s
  | .deferred => s
  | .present nodes => scanList s nodes

/-- The loop of the walk over the children. -/
def scanList (s : TreeScan C) : ChildList C → TreeScan C
  | .nil => s
  | .cons cid node rest =>
      scanList
        (scanNode cid
          { s with
            cids := touch s.cids cid
            referenced := touch s.referenced cid } node) rest

end

/-- The scan of a tree whose root may have no CID. -/
def scanTree (changeId : Option C) (changes : ChangeNode C) : TreeScan C :=
  match changeId with
  | some cid => scanNode cid ⟨[], [], []⟩ changes
  | none => scanChildren ⟨[], [], []⟩ changes.children

/-- `computeServedFrontier`; the boundary is `⊥` where there is none. -/
def computeServedFrontier (changeId : Option C)
    (changes : Option (ChangeNode C)) (snapshotBoundaryCid : WithBot C) :
    List C :=
  let scan := match changes with
    | some changes => scanTree changeId changes
    | none => ⟨[], [], []⟩
  let cids := match snapshotBoundaryCid with
    | ⊥ => scan.cids
    | (cid : C) => touch scan.cids cid
  cids.filter (· ∉ scan.referenced)

/-- `collectAllCidsInTree`. -/
def collectAllCidsInTree (rootId : Option C) (root : Option (ChangeNode C)) :
    List C :=
  match root with
  | none => rootId.toList
  | some root => (scanTree rootId root).cids

mutual

/-- The walk collects CIDs of the tree only. -/
theorem occurs_of_mem_scanNode {cid c : C} {s : TreeScan C} :
    ∀ {n : ChangeNode C}, c ∈ (scanNode cid s n).cids →
      c ∈ s.cids ∨ ∃ n', Occurs cid n c n'
  | .mk kind hasChange children, h => by
      rw [scanNode] at h
      split at h
      · exact Or.inl h
      · rcases occurs_of_mem_scanChildren h with h | ⟨nodes, hnodes, e, he, hc⟩
        · rcases FieldOrder.mem_touch.1 h with h | rfl
          · exact Or.inl h
          · exact Or.inr ⟨_, Reached.root rfl⟩
        · obtain ⟨n', hn'⟩ := hc
          exact Or.inr ⟨n', Reached.of_child rfl hnodes he hn'⟩

theorem occurs_of_mem_scanChildren {c : C} {s : TreeScan C} :
    ∀ {children : Children C}, c ∈ (scanChildren s children).cids →
      c ∈ s.cids ∨ ∃ nodes, children = .present nodes ∧ ∃ e ∈ nodes.toList,
        ∃ n', Occurs e.1 e.2 c n'
  | .absent, h => by
      rw [scanChildren] at h
      exact Or.inl h
  | .deferred, h => by
      rw [scanChildren] at h
      exact Or.inl h
  | .present nodes, h => by
      rw [scanChildren] at h
      exact (occurs_of_mem_scanList h).imp_right fun hc => ⟨nodes, rfl, hc⟩

theorem occurs_of_mem_scanList {c : C} {s : TreeScan C} :
    ∀ {nodes : ChildList C}, c ∈ (scanList s nodes).cids →
      c ∈ s.cids ∨ ∃ e ∈ nodes.toList, ∃ n', Occurs e.1 e.2 c n'
  | .nil, h => by
      rw [scanList] at h
      exact Or.inl h
  | .cons cid node rest, h => by
      rw [scanList] at h
      rcases occurs_of_mem_scanList h with h | ⟨e, he, hc⟩
      · rcases occurs_of_mem_scanNode h with h | hc
        · rcases FieldOrder.mem_touch.1 h with h | rfl
          · exact Or.inl h
          · exact Or.inr ⟨(c, node), List.mem_cons_self, node,
              Reached.root rfl⟩
        · exact Or.inr ⟨(cid, node), List.mem_cons_self, hc⟩
      · exact Or.inr ⟨e, List.mem_cons_of_mem _ he, hc⟩

end

theorem occurs_of_mem_collectAllCids {rootId c : C} {root : ChangeNode C}
    (h : c ∈ collectAllCidsInTree (some rootId) (some root)) :
    ∃ n, Occurs rootId root c n := by
  rcases occurs_of_mem_scanNode h with hnil | hoccurs
  · cases hnil
  · exact hoccurs

end Scan

/-! ## The responder -/

section Responder

variable [LinearOrder C]

/-- What a responder serves: the tree of `_lastSyncMessage` and its latest
snapshot. -/
structure Responder (kindOf : C → NodeKind) where
  lastSyncMessage : Option (C × ChangeNode C)
  latestSnapshot : Option (Snapshot C)
  served : ∀ m ∈ lastSyncMessage, ServedTree kindOf m.1 m.2

/-- The boundary of a snapshot. -/
def snapshotBoundary : Option (Snapshot C) → WithBot C
  | some snapshot => snapshot.lastChangeNodeCID
  | none => ⊥

/-- A load response. -/
structure LoadResponse (C : Type) where
  message : SyncMessage C
  tips : Option (List C)

namespace Responder

variable {kindOf : C → NodeKind} (r : Responder kindOf)

/-- `_servedFrontier`. -/
def servedFrontier : List C :=
  computeServedFrontier (r.lastSyncMessage.map Prod.fst)
    (r.lastSyncMessage.map Prod.snd) (snapshotBoundary r.latestSnapshot)

/-- The message of `handleLoadRequestData`. -/
def handleLoadRequestData : LoadResponse C where
  message :=
    ⟨r.lastSyncMessage.map Prod.fst, r.lastSyncMessage.map Prod.snd,
      r.latestSnapshot⟩
  tips := some r.servedFrontier

/-- The message of `handleSnapshotLoadRequestData`; without a snapshot the
response is empty. -/
def handleSnapshotLoadRequestData : Option (LoadResponse C) :=
  match r.latestSnapshot with
  | none => none
  | some snapshot => some
      ⟨⟨r.lastSyncMessage.map Prod.fst, r.lastSyncMessage.map Prod.snd,
        some snapshot⟩, some r.servedFrontier⟩

end Responder

end Responder

/-! ## The loader -/

/-- Why a peer is recorded as having failed the binding. -/
inductive BindFailure (H : Type) where
  | servedHash (got : H)
  | missingTips
  | advertisedHash (got : H)
  | snapshotOnlyFirstLoad
  | prefetchMissingBlocks
  | missingBlocks

/-- What the quorum-bound branch does, with the state it leaves. -/
inductive LoadOutcome (C H : Type) where
  | accepted (s : SyncState C)
  | bindFailed (failure : BindFailure H) (s : SyncState C)
  | threw (s : SyncState C)

/-- What the loader's checks depend on besides its state: the number of writers
in its ACL, the snapshots with a signature of one of them, and the blocks that
can be fetched. -/
structure LoadContext (C : Type) where
  writerCount : ℕ
  verifies : Snapshot C → Bool
  fetchable : C → Bool

section Loader

variable [LinearOrder C] {H : Type} [DecidableEq H]

open SyncState (newer known adoptSnapshot)

/-- The snapshot that is left for `sync`: on a first load it is dropped. -/
def keptSnapshot (context : LoadContext C) (snapshot : Option (Snapshot C)) :
    Option (Snapshot C) :=
  if context.writerCount = 0 then none else snapshot

/-- The snapshots whose signature `sync` accepts. -/
def verifiedSnapshot (context : LoadContext C) :
    Option (Snapshot C) → Option (Snapshot C)
  | some snapshot => if context.verifies snapshot then some snapshot else none
  | none => none

/-- The call of `sync` and the check that every CID of the tree arrived. -/
def syncServed (context : LoadContext C) (s : SyncState C)
    (changeId : Option C) (changes : Option (ChangeNode C))
    (snapshot : Option (Snapshot C)) (expectedCids : List C) :
    LoadOutcome C H :=
  let s := s.adoptSnapshot (verifiedSnapshot context snapshot)
  match changes with
  | none =>
      if expectedCids.all (· ∈ s.hashes) then .accepted s
      else .bindFailed .missingBlocks s
  | some changes =>
      match mergeRemoteSyncTree changeId changes s.lastChangeId s.hashes with
      | none => .threw s
      | some _ =>
          let s := s.syncFetching ⟨changeId, changes, context.fetchable⟩
          if expectedCids.all (· ∈ s.hashes) then .accepted s
          else .bindFailed .missingBlocks s

/-- The quorum-bound branch of `_sendLoadRequestAndSync`, on a response with a
valid signature. -/
def quorumBoundLoad (tipsHash : List C → H) (expectedTipsHash : H)
    (context : LoadContext C) (s : SyncState C) (response : LoadResponse C) :
    LoadOutcome C H :=
  let message := response.message
  let served := tipsHash (computeServedFrontier message.changeId
    message.changes (snapshotBoundary message.snapshot))
  if served ≠ expectedTipsHash then .bindFailed (.servedHash served) s
  else
    match response.tips with
    | none => .bindFailed .missingTips s
    | some tips =>
        if tipsHash tips ≠ served then
          .bindFailed (.advertisedHash (tipsHash tips)) s
        else
          let expectedCids :=
            collectAllCidsInTree message.changeId message.changes
          let changes := message.changes.map stripInlineChanges
          let snapshot := keptSnapshot context message.snapshot
          if changes.isNone ∧ snapshot.isNone then
            .bindFailed .snapshotOnlyFirstLoad s
          else if expectedCids.all context.fetchable then
            syncServed context s message.changeId changes snapshot expectedCids
          else .bindFailed .prefetchMissingBlocks s

/-! ## When an honest response is accepted -/

/-- The boundary of the snapshot that the loader adopts; `⊥` where it adopts
none. -/
def adoptedBoundary (context : LoadContext C) (s : SyncState C)
    (snapshot : Option (Snapshot C)) : WithBot C :=
  match verifiedSnapshot context (keptSnapshot context snapshot) with
  | some snapshot =>
      if newer snapshot s.latestSnapshot then snapshot.lastChangeNodeCID
      else ⊥
  | none => ⊥

/-- The CIDs at which the merge of a load stops. -/
def knownOnLoad (context : LoadContext C) (s : SyncState C)
    (snapshot : Option (Snapshot C)) (c : C) : Bool :=
  s.known c || adoptedBoundary context s snapshot = c

/-- Every CID of the served tree is known, is the boundary of the snapshot that
is adopted, or the tree leads to it on a path that meets none of these and not
the root of the loader's last message. -/
def Responder.ExposedTo {kindOf : C → NodeKind} (r : Responder kindOf)
    (context : LoadContext C) (s : SyncState C) : Prop :=
  ∀ m ∈ r.lastSyncMessage,
    ∀ c ∈ collectAllCidsInTree (some m.1) (some m.2),
      c ∈ s.hashes ∨ adoptedBoundary context s r.latestSnapshot = c ∨
        ∃ n, Reached (knownOnLoad context s r.latestSnapshot) m.1 m.2 c n

/-- The responder serves a tree, or a snapshot that the loader keeps. -/
def Responder.ServesSomething {kindOf : C → NodeKind} (r : Responder kindOf)
    (context : LoadContext C) : Prop :=
  r.lastSyncMessage.isSome ∨ (keptSnapshot context r.latestSnapshot).isSome

theorem mem_hashes_adoptSnapshot (context : LoadContext C) (s : SyncState C)
    (snapshot : Option (Snapshot C)) (c : C) :
    c ∈ (s.adoptSnapshot
        (verifiedSnapshot context (keptSnapshot context snapshot))).hashes ↔
      c ∈ s.hashes ∨ adoptedBoundary context s snapshot = c := by
  rw [adoptedBoundary]
  cases verifiedSnapshot context (keptSnapshot context snapshot) with
  | none => simp [adoptSnapshot]
  | some incoming =>
      rw [adoptSnapshot]
      dsimp only
      split
      · obtain ⟨state, lastChangeNodeCID, compactedCount⟩ := incoming
        cases lastChangeNodeCID with
        | bot => simp
        | coe cid => simp [or_comm, eq_comm]
      · simp

theorem lastChangeId_adoptSnapshot (s : SyncState C)
    (snapshot : Option (Snapshot C)) :
    (s.adoptSnapshot snapshot).lastChangeId = s.lastChangeId := by
  cases snapshot with
  | none => rfl
  | some incoming =>
      rw [adoptSnapshot]
      split <;> rfl

theorem known_adoptSnapshot (context : LoadContext C) (s : SyncState C)
    (snapshot : Option (Snapshot C)) :
    (s.adoptSnapshot
      (verifiedSnapshot context (keptSnapshot context snapshot))).known =
        knownOnLoad context s snapshot := by
  funext c
  rw [Bool.eq_iff_iff, known, knownOnLoad, known, lastChangeId_adoptSnapshot]
  simp only [Bool.or_eq_true, decide_eq_true_eq]
  rw [mem_hashes_adoptSnapshot, or_assoc]

omit [DecidableEq H] in
/-- A response with a tree: `sync` fetches the blocks that the merge leads to,
and the check afterwards passes exactly if these are all that are missing. -/
theorem syncServed_accepted_iff {context : LoadContext C} {s : SyncState C}
    {rootId : C} {root : ChangeNode C} {snapshot : Option (Snapshot C)}
    (haddressed : Addressed rootId (stripInlineChanges root))
    (hfetchable : ∀ c n, Occurs rootId root c n → context.fetchable c = true)
    (expectedCids : List C) :
    (∃ s', syncServed (H := H) context s (some rootId)
        (some (stripInlineChanges root)) (keptSnapshot context snapshot)
        expectedCids = .accepted s') ↔
      ∀ c ∈ expectedCids, c ∈ s.hashes ∨
        adoptedBoundary context s snapshot = c ∨
        ∃ n, Reached (knownOnLoad context s snapshot) rootId root c n := by
  set adopted := s.adoptSnapshot
    (verifiedSnapshot context (keptSnapshot context snapshot)) with hadopted
  obtain ⟨entries, hmerge, hreached⟩ :=
    adopted.mergeRemoteSyncTree_reached haddressed
  have hfetched : ∀ c ∈ adopted.missingHashes
      ⟨some rootId, stripInlineChanges root, context.fetchable⟩,
      context.fetchable c = true := by
    intro c hc
    rw [SyncState.missingHashes, hmerge] at hc
    obtain ⟨e, he, rfl⟩ := List.mem_map.1 hc
    have hstripped := (hreached e.1).1 ⟨e, (List.mem_filter.1 he).1, rfl⟩
    obtain ⟨n, hn⟩ := reached_stripInlineChanges.1 hstripped
    exact hfetchable e.1 n hn.occurs
  have hhashes : ∀ c, c ∈ (adopted.syncFetching
      ⟨some rootId, stripInlineChanges root, context.fetchable⟩).hashes ↔
      c ∈ s.hashes ∨ adoptedBoundary context s snapshot = c ∨
        ∃ n, Reached (knownOnLoad context s snapshot) rootId root c n := by
    intro c
    rw [SyncState.mem_hashes_syncFetching adopted haddressed hfetched,
      reached_stripInlineChanges, hadopted, known_adoptSnapshot,
      mem_hashes_adoptSnapshot, or_assoc]
  rw [syncServed]
  dsimp only
  rw [← hadopted, hmerge]
  dsimp only
  rw [← forall₂_congr fun c _ => hhashes c]
  split
  · rename_i hall
    refine ⟨fun _ c hc => ?_, fun _ => ⟨_, rfl⟩⟩
    exact of_decide_eq_true (List.all_eq_true.1 hall c hc)
  · rename_i hall
    constructor
    · rintro ⟨s', hs'⟩
      cases hs'
    · intro hmem
      refine absurd (List.all_eq_true.2 ?_) hall
      intro c hc
      exact decide_eq_true (hmem c hc)

theorem handleSnapshotLoadRequestData_eq {kindOf : C → NodeKind}
    {r : Responder kindOf} {response : LoadResponse C}
    (h : r.handleSnapshotLoadRequestData = some response) :
    response = r.handleLoadRequestData := by
  rw [Responder.handleSnapshotLoadRequestData] at h
  split at h
  · cases h
  · rename_i snapshot hsnapshot
    rw [Responder.handleLoadRequestData, hsnapshot]
    exact (Option.some.inj h).symm

/-- The binding of an honest response holds: what is left are the checks on
what was served. -/
theorem quorumBoundLoad_honest {kindOf : C → NodeKind}
    (tipsHash : List C → H) (r : Responder kindOf) (context : LoadContext C)
    (s : SyncState C) :
    quorumBoundLoad tipsHash (tipsHash r.servedFrontier) context s
        r.handleLoadRequestData =
      if (r.lastSyncMessage.map Prod.snd).isNone ∧
          (keptSnapshot context r.latestSnapshot).isNone then
        .bindFailed .snapshotOnlyFirstLoad s
      else if (collectAllCidsInTree (r.lastSyncMessage.map Prod.fst)
          (r.lastSyncMessage.map Prod.snd)).all context.fetchable then
        syncServed context s (r.lastSyncMessage.map Prod.fst)
          ((r.lastSyncMessage.map Prod.snd).map stripInlineChanges)
          (keptSnapshot context r.latestSnapshot)
          (collectAllCidsInTree (r.lastSyncMessage.map Prod.fst)
            (r.lastSyncMessage.map Prod.snd))
      else .bindFailed .prefetchMissingBlocks s := by
  have hserved : tipsHash (computeServedFrontier
      (r.lastSyncMessage.map Prod.fst) (r.lastSyncMessage.map Prod.snd)
      (snapshotBoundary r.latestSnapshot)) = tipsHash r.servedFrontier := rfl
  rw [quorumBoundLoad, Responder.handleLoadRequestData]
  dsimp only
  rw [hserved, if_neg (not_not_intro rfl), if_neg (not_not_intro rfl),
    Option.isNone_map]

/-- Whatever the responder holds and the loader knows: an honest response whose
blocks can all be fetched is accepted exactly if it serves something and the
tree exposes what the loader is missing. -/
theorem honest_load_accepted_iff {kindOf : C → NodeKind}
    (tipsHash : List C → H) (r : Responder kindOf) (context : LoadContext C)
    (s : SyncState C) {response : LoadResponse C}
    (hresponse : response = r.handleLoadRequestData ∨
      r.handleSnapshotLoadRequestData = some response)
    (hfetchable : ∀ m ∈ r.lastSyncMessage, ∀ c n, Occurs m.1 m.2 c n →
      context.fetchable c = true) :
    (∃ s', quorumBoundLoad tipsHash (tipsHash r.servedFrontier) context s
        response = .accepted s') ↔
      r.ServesSomething context ∧ r.ExposedTo context s := by
  obtain rfl : response = r.handleLoadRequestData :=
    hresponse.elim id handleSnapshotLoadRequestData_eq
  rw [quorumBoundLoad_honest]
  obtain ⟨message, latestSnapshot, served⟩ := r
  cases message with
  | none =>
      have hexposed : (Responder.mk none latestSnapshot served).ExposedTo
          context s := by
        intro m hm
        cases hm
      cases hkept : keptSnapshot context latestSnapshot with
      | none => simp [Responder.ServesSomething, hkept]
      | some snapshot =>
          simp [Responder.ServesSomething, hkept, hexposed,
            collectAllCidsInTree, syncServed]
  | some m =>
      have haddressed : Addressed m.1 (stripInlineChanges m.2) :=
        (served m rfl).wholesome.stripped.addressed
      have hall : (collectAllCidsInTree (some m.1) (some m.2)).all
          context.fetchable = true := by
        refine List.all_eq_true.2 fun c hc => ?_
        obtain ⟨n, hn⟩ := occurs_of_mem_collectAllCids hc
        exact hfetchable m rfl c n hn
      have hserves : (Responder.mk (some m) latestSnapshot
          served).ServesSomething context := Or.inl rfl
      have hexposed : (Responder.mk (some m) latestSnapshot served).ExposedTo
          context s ↔ ∀ c ∈ collectAllCidsInTree (some m.1) (some m.2),
            c ∈ s.hashes ∨ adoptedBoundary context s latestSnapshot = c ∨
              ∃ n, Reached (knownOnLoad context s latestSnapshot) m.1 m.2 c
                n := by
        rw [Responder.ExposedTo]
        simp only [Option.mem_def, Option.some.injEq, forall_eq']
      rw [if_neg (by simp), Option.map_some, Option.map_some, Option.map_some,
        if_pos hall, syncServed_accepted_iff haddressed (hfetchable m rfl),
        hexposed]
      exact (and_iff_right hserves).symm

/-- All blocks can be fetched, and the loader knows the one writer. -/
def knownWriter : LoadContext ℕ := ⟨1, fun _ => true, fun _ => true⟩

/-- Change `2` over change `1`. -/
theorem twoChanges_served : ServedTree (fun _ : ℕ => .document) 2
    (makeChangeNode (some (1, .mk .document true .absent)) [] 2
      .document) := by
  refine ServedTree.next (ServedTree.first 1) (fun tip htip => ?_) ?_
  · cases htip
  · intro n hoccurs
    exact absurd (SyncState.occurs_single hoccurs).1 (by decide)

/-- A responder with two changes and no snapshot. -/
def uncompacted : Responder (fun _ : ℕ => .document) where
  lastSyncMessage := some (2,
    makeChangeNode (some (1, .mk .document true .absent)) [] 2 .document)
  latestSnapshot := none
  served := by
    intro m hm
    cases hm
    exact twoChanges_served

/-- The same responder after `snapshot` with the default of 50 nodes kept. -/
def compacted : Responder (fun _ : ℕ => .document) where
  lastSyncMessage := some (2, (pruneChanges 50 (2,
    makeChangeNode (some (1, .mk .document true .absent)) [] 2
      .document)).2)
  latestSnapshot := some ⟨{1, 2}, (2 : ℕ), 2⟩
  served := by
    intro m hm
    cases hm
    exact twoChanges_served.pruned 50

/-- Before the snapshot a fresh loader accepts the two changes. -/
theorem uncompacted_load_accepted :
    ∃ s', quorumBoundLoad List.toFinset
      (List.toFinset uncompacted.servedFrontier) knownWriter SyncState.fresh
      uncompacted.handleLoadRequestData = .accepted s' := by
  refine (honest_load_accepted_iff List.toFinset uncompacted knownWriter
    SyncState.fresh (Or.inl rfl) (fun _ _ _ _ _ => rfl)).2 ⟨Or.inl rfl, ?_⟩
  intro m hm c hc
  cases hm
  have hroot : Reached (knownOnLoad knownWriter SyncState.fresh none) 2
      (makeChangeNode (some (1, .mk .document true .absent)) [] 2 .document) 2
      (makeChangeNode (some (1, .mk .document true .absent)) [] 2
        .document) := Reached.root (by decide)
  have hcids : collectAllCidsInTree (some 2) (some (makeChangeNode
      (some (1, .mk .document true .absent)) [] 2 .document)) = [2, 1] := by
    decide
  rw [hcids] at hc
  refine Or.inr (Or.inr ?_)
  rcases List.mem_cons.1 hc with rfl | hc
  · exact ⟨_, hroot⟩
  · rw [List.mem_singleton.1 hc]
    exact ⟨_, Reached.child hroot rfl List.mem_cons_self (by decide)⟩

/-- After the snapshot a fresh loader adopts it, skips change `1`, and records
the responder as having failed the binding. -/
theorem compacted_load_rejected :
    ¬ ∀ (kindOf : ℕ → NodeKind) (tipsHash : List ℕ → Finset ℕ)
      (r : Responder kindOf) (context : LoadContext ℕ) (s : SyncState ℕ)
      (response : LoadResponse ℕ),
      (response = r.handleLoadRequestData ∨
        r.handleSnapshotLoadRequestData = some response) →
      (∀ m ∈ r.lastSyncMessage, ∀ c n, Occurs m.1 m.2 c n →
        context.fetchable c = true) →
      ∃ s', quorumBoundLoad tipsHash (tipsHash r.servedFrontier) context s
        response = .accepted s' := by
  intro h
  obtain ⟨s', hs'⟩ := h (fun _ => .document) List.toFinset compacted
    knownWriter SyncState.fresh compacted.handleLoadRequestData (Or.inl rfl)
    (fun _ _ _ _ _ => rfl)
  have hfailed : (match quorumBoundLoad List.toFinset
      (List.toFinset compacted.servedFrontier) knownWriter SyncState.fresh
      compacted.handleLoadRequestData with
    | .bindFailed .missingBlocks _ => true
    | _ => false) = true := by
    decide +kernel
  rw [hs'] at hfailed
  cases hfailed

end Loader

end Collabswarm.Document
