import Collabswarm.Load.Landing
import Collabswarm.Load.QuorumBound

/-!
# Merging a stripped tree

Without payloads in the tree nothing is applied before the fetches: the ACL
pre-pass does nothing, and every entry that the merge returns is fetched.
-/

namespace Collabswarm.Merkle

variable {C L M P : Type}

mutual

theorem ChangeTree.occurrences_mapData (f : L → M) (cid : C) :
    ∀ n : ChangeTree C L, (n.mapData f).occurrences cid =
      (n.occurrences cid).map fun e => (e.1, e.2.mapData f)
  | .node data children => by
      rw [ChangeTree.mapData, ChangeTree.occurrences, ChangeTree.occurrences,
        ChildMap.occurrences_mapData, List.map_cons, ChangeTree.mapData]

theorem ChildMap.occurrences_mapData (f : L → M) :
    ∀ children : ChildMap C L, (children.mapData f).occurrences =
      children.occurrences.map fun e => (e.1, e.2.mapData f)
  | .absent => rfl
  | .deferred => rfl
  | .present entries => by
      rw [ChildMap.mapData, ChildMap.occurrences, ChildMap.occurrences,
        ChildEntries.occurrences_mapData]

/-- The entries of a tree with other fields. -/
theorem ChildEntries.occurrences_mapData (f : L → M) :
    ∀ entries : ChildEntries C L, (entries.mapData f).occurrences =
      entries.occurrences.map fun e => (e.1, e.2.mapData f)
  | .nil => rfl
  | .cons cid child rest => by
      rw [ChildEntries.mapData, ChildEntries.occurrences,
        ChildEntries.occurrences, ChangeTree.occurrences_mapData,
        ChildEntries.occurrences_mapData, List.map_append]

end

section Merge

variable [DecidableEq C] {localRootId : Option C} {localHashes : Finset C}
  {I : C → NodeData P → Prop}

theorem record_forall {byCid : InsertionMap C (NodeData P)} {cid : C}
    {data : NodeData P} (hcid : I cid data)
    (hbyCid : ∀ c d, byCid.get? c = some d → I c d) :
    ∀ c d, (record byCid cid data).get? c = some d → I c d := by
  have hset : ∀ c d, (byCid.set cid data).get? c = some d → I c d := by
    intro c d hd
    rw [InsertionMap.get?_set] at hd
    split at hd
    · rename_i heq
      cases hd
      exact heq ▸ hcid
    · exact hbyCid c d hd
  unfold record
  split
  · exact hset
  · split
    · exact hset
    · exact hbyCid

mutual

theorem mergeNode_forall {cid : C} :
    ∀ (n : ChangeTree C (NodeData P)) {w w' : MergeWalk C P},
      mergeNode localRootId localHashes cid w n = some w' →
      (∀ e ∈ n.occurrences cid, e.1 ∉ localHashes → I e.1 e.2.data) →
      (∀ c d, w.byCid.get? c = some d → I c d) →
      ∀ c d, w'.byCid.get? c = some d → I c d
  | .node data children, w, w' => by
      intro hmerge hnode hw
      rw [ChangeTree.occurrences] at hnode
      rw [mergeNode] at hmerge
      split at hmerge
      · cases hmerge
        exact hw
      · split at hmerge
        · cases hmerge
          exact hw
        · rename_i hnew
          have hrecord := record_forall (hnode _ List.mem_cons_self hnew) hw
          dsimp only at hmerge
          split at hmerge
          · cases hmerge
            exact hrecord
          · exact mergeChildren_forall children hmerge
              (fun e he => hnode e (List.mem_cons_of_mem _ he)) hrecord

theorem mergeChildren_forall {cid : C} :
    ∀ (children : ChildMap C (NodeData P)) {w w' : MergeWalk C P},
      mergeChildren localRootId localHashes cid w children = some w' →
      (∀ e ∈ children.occurrences, e.1 ∉ localHashes → I e.1 e.2.data) →
      (∀ c d, w.byCid.get? c = some d → I c d) →
      ∀ c d, w'.byCid.get? c = some d → I c d
  | .absent, w, w' => by
      intro hmerge _ hw
      rw [mergeChildren] at hmerge
      cases hmerge
      exact hw
  | .deferred, w, w' => by
      intro hmerge
      rw [mergeChildren] at hmerge
      cases hmerge
  | .present entries, w, w' => by
      intro hmerge hchildren hw
      rw [ChildMap.occurrences] at hchildren
      rw [mergeChildren] at hmerge
      exact mergeEntries_forall entries hmerge hchildren hw

/-- What holds of all entries with a new CID holds of what is recorded. -/
theorem mergeEntries_forall :
    ∀ (entries : ChildEntries C (NodeData P)) {w w' : MergeWalk C P},
      mergeEntries localRootId localHashes w entries = some w' →
      (∀ e ∈ entries.occurrences, e.1 ∉ localHashes → I e.1 e.2.data) →
      (∀ c d, w.byCid.get? c = some d → I c d) →
      ∀ c d, w'.byCid.get? c = some d → I c d
  | .nil, w, w' => by
      intro hmerge _ hw
      rw [mergeEntries] at hmerge
      cases hmerge
      exact hw
  | .cons cid child rest, w, w' => by
      intro hmerge hentries hw
      rw [ChildEntries.occurrences] at hentries
      rw [mergeEntries] at hmerge
      split at hmerge
      · cases hmerge
      · rename_i w₁ hchild
        have hw₁ := mergeNode_forall child hchild
          (fun e he => hentries e (List.mem_append_left _ he)) hw
        exact mergeEntries_forall rest hmerge
          (fun e he => hentries e (List.mem_append_right _ he)) hw₁

end

theorem mergeRemoteSyncTree_forall {rootId : Option C}
    {root : ChangeTree C (NodeData P)} {entries : List (C × NodeData P)}
    (hmerge : mergeRemoteSyncTree localRootId localHashes rootId root =
      some entries)
    (hroot : ∀ cid, rootId = some cid → ∀ e ∈ root.occurrences cid,
      e.1 ∉ localHashes → I e.1 e.2.data) :
    ∀ e ∈ entries, I e.1 e.2 := by
  cases rootId with
  | none =>
      cases hmerge
      simp
  | some cid =>
      obtain ⟨w, hw, rfl⟩ := Option.map_eq_some_iff.1 hmerge
      intro e he
      exact mergeNode_forall root hw (hroot cid rfl) (by simp) e.1 e.2
        (w.byCid.mem_entries_iff.1 he)

/-- A merge returns no CID that is known. -/
theorem mergeRemoteSyncTree_new {rootId : Option C}
    {root : ChangeTree C (NodeData P)} {entries : List (C × NodeData P)}
    (hmerge : mergeRemoteSyncTree localRootId localHashes rootId root =
      some entries) : ∀ e ∈ entries, e.1 ∉ localHashes :=
  mergeRemoteSyncTree_forall (I := fun c _ => c ∉ localHashes) hmerge
    fun _ _ _ _ hnew => hnew

/-- The merge of a stripped tree returns no payloads. -/
theorem mergeRemoteSyncTree_stripped {rootId : Option C}
    {root : ChangeTree C (NodeData P)} {entries : List (C × NodeData P)}
    (hmerge : mergeRemoteSyncTree localRootId localHashes rootId
      (stripInlineChanges root) = some entries) :
    ∀ e ∈ entries, e.2.change = none := by
  refine mergeRemoteSyncTree_forall (I := fun _ data => data.change = none)
    hmerge ?_
  intro cid _ e he _
  rw [stripInlineChanges, ChangeTree.occurrences_mapData] at he
  obtain ⟨⟨c, data, children⟩, -, rfl⟩ := List.mem_map.1 he
  rfl

end Merge

end Collabswarm.Merkle

namespace Collabswarm.Load.Loader

open Merkle

variable {C P D A Q U K H : Type} (p : Providers C P D A Q U K H)

mutual

theorem applyACLFromTree_stripped (s : Loader C P D A Q) :
    ∀ n : ChangeTree C (NodeData P),
      s.applyACLFromTree p (stripInlineChanges n) = .ok s
  | .node data children => by
      rw [stripInlineChanges, ChangeTree.mapData, applyACLFromTree]
      exact applyACLFromChildren_stripped s children

theorem applyACLFromChildren_stripped (s : Loader C P D A Q) :
    ∀ children : ChildMap C (NodeData P),
      s.applyACLFromChildren p
        (children.mapData fun data => { data with change := none }) = .ok s
  | .absent => rfl
  | .deferred => rfl
  | .present entries => by
      rw [ChildMap.mapData, applyACLFromChildren]
      exact applyACLFromEntries_stripped s entries

/-- A stripped tree leaves the ACLs as they are. -/
theorem applyACLFromEntries_stripped (s : Loader C P D A Q) :
    ∀ entries : ChildEntries C (NodeData P),
      s.applyACLFromEntries p
        (entries.mapData fun data => { data with change := none }) = .ok s
  | .nil => rfl
  | .cons cid child rest => by
      have hchild := applyACLFromTree_stripped s child
      rw [stripInlineChanges] at hchild
      rw [ChildEntries.mapData, applyACLFromEntries, hchild]
      exact applyACLFromEntries_stripped s rest

end

/-- Entries without payload are all missing. -/
theorem foldlM_applySent_of_bare {entries : List (C × NodeData P)}
    (hbare : ∀ e ∈ entries, e.2.change = none) (s : Loader C P D A Q) :
    ∀ sent : SentChanges C D, entries.foldlM (applySent p) (s, sent) =
      .ok (s, { sent with
        missingDocumentHashes :=
          sent.missingDocumentHashes ++ entries.map entryTip }) := by
  induction entries with
  | nil =>
      intro sent
      rw [List.map_nil, List.append_nil]
      rfl
  | cons entry entries ih =>
      intro sent
      obtain ⟨cid, kind, change⟩ := entry
      cases hbare _ List.mem_cons_self
      rw [List.foldlM_cons]
      refine (ih (fun e he => hbare e (List.mem_cons_of_mem _ he)) _).trans ?_
      simp [entryTip]

variable [LinearOrder C] [Bot C] (store : Blockstore C)

/-- The CIDs that a tree references are recorded. -/
def noteReferenced (s : Loader C P D A Q) (changeId : Option C)
    (changes : ChangeTree C (NodeData P)) : Loader C P D A Q :=
  { s with
    referencedAncestors := collectReferencedAncestors changeId changes
      s.referencedAncestors }

/-- What a merge of a tree into a document returns. -/
def newEntries (s : Loader C P D A Q) (changeId : Option C)
    (changes : ChangeTree C (NodeData P)) : Option (List (C × NodeData P)) :=
  mergeRemoteSyncTree (s.lastSyncMessage.bind SyncMessage.changeId) s.hashes
    changeId changes

/-- `_syncDocumentChanges` on a stripped tree fetches what is new. -/
theorem syncDocumentChanges_stripped (s : Loader C P D A Q)
    (changeId : Option C) (root : ChangeTree C (NodeData P)) :
    s.syncDocumentChanges p store changeId (stripInlineChanges root) =
      match s.newEntries changeId (stripInlineChanges root) with
      | none => .error (s.noteReferenced changeId (stripInlineChanges root))
      | some entries =>
          ((s.noteReferenced changeId (stripInlineChanges root)).fetchMissing
            p store (entries.map entryTip)).map fun s =>
              s.refreshLastSyncMessageFromSync p changeId
                (stripInlineChanges root) := by
  unfold syncDocumentChanges
  dsimp only
  cases hentries : s.newEntries changeId (stripInlineChanges root) with
  | none =>
      unfold newEntries at hentries
      rw [hentries]
      rfl
  | some entries =>
      have hbare := mergeRemoteSyncTree_stripped hentries
      unfold newEntries at hentries
      rw [hentries]
      dsimp only
      rw [foldlM_applySent_of_bare p hbare]
      rfl

/-- What `sync` does with the snapshot and the tree of a stripped message. -/
def adoptAndMerge (s : Loader C P D A Q) (message : SyncMessage C P) :
    Except (Loader C P D A Q) (Loader C P D A Q) :=
  (message.snapshot.elim (.ok s) (s.adoptSnapshot p)).bind fun s =>
    message.changes.elim (.ok s)
      (s.syncDocumentChanges p store message.changeId)

/-- `sync` on a stripped message: the keys, the snapshot, then the tree. -/
theorem sync_stripped (s : Loader C P D A Q) {message : SyncMessage C P}
    {changes : Option (ChangeTree C (NodeData P))}
    (hstripped : message.changes = changes.map stripInlineChanges)
    (hsigned : (p.signingEnabled && unsigned message) = false) :
    s.sync p store message false =
      ((s.mergeKeychainChanges p message.keychainChanges).bind
        fun s => s.adoptAndMerge p store message).map fun s => (s, true) := by
  have hacl : ∀ s : Loader C P D A Q,
      message.changes.elim (.ok s) (s.applyACLFromTree p) = .ok s := by
    intro s
    rw [hstripped]
    cases changes with
    | none => rfl
    | some root => exact applyACLFromTree_stripped p s root
  unfold sync
  rw [hsigned, Bool.and_false, Bool.false_and]
  simp only [hacl]
  cases s.mergeKeychainChanges p message.keychainChanges with
  | error s₁ => rfl
  | ok s₁ =>
      dsimp only [Except.bind]
      unfold adoptAndMerge
      cases message.snapshot.elim (.ok s₁) (s₁.adoptSnapshot p) with
      | error s₂ => rfl
      | ok s₂ => rfl

end Collabswarm.Load.Loader
