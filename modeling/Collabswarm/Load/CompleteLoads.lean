import Collabswarm.Load.FailedLoads
import Collabswarm.Load.ServedFrontier

/-!
# Quorum-bound loads that succeed

Here documents are sets of changes, a change is named by the CID of its block,
and the state of a snapshot is a set of changes.  A load that is accepted knows
every CID of the tree; the document has a change of it if it had it before, if
the snapshot that was adopted has it, or if its block was fetched as a change
of the document.  A snapshot that is dropped or not adopted takes the changes
with it that are pruned from the tree.
-/

namespace Collabswarm.Load.Loader

open Document (NodeKind RecentTip)
open Merkle

variable {C P A Q U K H : Type} [LinearOrder C]

/-- Documents are sets of changes. -/
structure SetDocuments (p : Providers C P (Finset C) A Q U K H)
    (changesOf : P → Finset C) : Prop where
  remoteChange : ∀ document changes,
    p.remoteChange document changes = some (document ∪ changesOf changes)
  applySnapshot : ∀ document state,
    p.applySnapshot document state = some (document ∪ changesOf state)

/-- A block holds the change that its CID names. -/
def BlocksNamed (p : Providers C P (Finset C) A Q U K H)
    (store : Blockstore C) (changesOf : P → Finset C) : Prop :=
  ∀ keychain cid changes, getBlock p store keychain cid = some changes →
    changesOf changes = {cid}

variable [Bot C]

/-- The CID names a change of the document somewhere in the tree. -/
def DocumentCid (changeId : Option C) (changes : ChangeTree C (NodeData P))
    (cid : C) : Prop :=
  ∃ n, Occurs (rootEntries changeId changes).toList cid n ∧
    n.data.kind = .document

/-- The document has the change of every document CID of the tree, and those
that the snapshot compacts and that are no longer in the tree. -/
structure Complete (changesOf : P → Finset C) (message : SyncMessage C P)
    (s : Loader C P (Finset C) A Q) : Prop where
  tree : ∀ changes, message.changes = some changes →
    ∀ c, DocumentCid message.changeId changes c → c ∈ s.document
  snapshot : ∀ incoming, message.snapshot = some incoming →
    ∀ c ∈ changesOf incoming.state,
      (∀ changes, message.changes = some changes →
        ¬∃ n, Occurs (rootEntries message.changeId changes).toList c n) →
      c ∈ s.document

section Condition

variable (changesOf : P → Finset C) (p : Providers C P (Finset C) A Q U K H)
  (store : Blockstore C) (s : Loader C P (Finset C) A Q)
  (message : SyncMessage C P)

/-- The snapshot that the load adopts: if a writer is known, one that is newer
than ours and signed by a writer. -/
def adoptedSnapshot : Option (SnapshotNode C P) :=
  if (p.users s.writers).length = 0 then none
  else message.snapshot.filter (s.adoptable p)

/-- `_hashes` with the boundary of the snapshot that is adopted. -/
def hashesBehindSnapshot : Finset C :=
  s.hashes ∪ boundaryCids
    ((s.adoptedSnapshot p message).map SnapshotNode.lastChangeNodeCID)

/-- The merge of the tree returns the CID as a change of the document, and its
block can be read. -/
def FetchedAsDocument (c : C) : Prop :=
  ∃ changes entries data keychain,
    message.changes = some changes ∧
    mergeRemoteSyncTree (s.lastSyncMessage.bind SyncMessage.changeId)
      (s.hashesBehindSnapshot p message) message.changeId
      (stripInlineChanges changes) = some entries ∧
    (c, data) ∈ entries ∧ data.kind = .document ∧
    s.keychainAfter p message = some keychain ∧
    (getBlock p store keychain c).isSome

/-- The document CIDs of the tree are there before, in the adopted snapshot, or
fetched as changes of the document; the snapshot is adopted, or what it
compacts outside the tree is there before. -/
structure Covers : Prop where
  tree : ∀ changes, message.changes = some changes →
    ∀ c, DocumentCid message.changeId changes c →
      c ∈ s.document ∨
      (∃ incoming, s.adoptedSnapshot p message = some incoming ∧
        c ∈ changesOf incoming.state) ∨
      s.FetchedAsDocument p store message c
  snapshot : ∀ incoming, message.snapshot = some incoming →
    s.adoptedSnapshot p message = some incoming ∨
    ∀ c ∈ changesOf incoming.state,
      (∀ changes, message.changes = some changes →
        ¬∃ n, Occurs (rootEntries message.changeId changes).toList c n) →
      c ∈ s.document

end Condition

section Landing

variable {changesOf : P → Finset C} {p : Providers C P (Finset C) A Q U K H}
  {store : Blockstore C} {s : Loader C P (Finset C) A Q}

omit [Bot C] in
/-- The document after blocks have arrived. -/
theorem mem_document_foldl_landBlock (hsets : SetDocuments p changesOf)
    (hblocks : BlocksNamed p store changesOf) (c : C)
    (arrived : List (RecentTip C)) :
    ∀ s : Loader C P (Finset C) A Q,
      c ∈ (arrived.foldl (landBlock p store) s).document ↔
        c ∈ s.document ∨ (c, .document) ∈ arrived ∧
          (getBlock p store s.keychain c).isSome := by
  induction arrived with
  | nil =>
      intro s
      simp
  | cons missing arrived ih =>
      intro s
      obtain ⟨cid, kind⟩ := missing
      have hkeychain : (s.landBlock p store (cid, kind)).keychain =
          s.keychain := (landBlock_kept s (cid, kind)).keychain
      have hfirst : c ∈ (s.landBlock p store (cid, kind)).document ↔
          c ∈ s.document ∨ (c, .document) = (cid, kind) ∧
            (getBlock p store s.keychain c).isSome := by
        unfold landBlock
        dsimp only
        cases hblock : getBlock p store s.keychain cid with
        | none =>
            rw [or_iff_left]
            rintro ⟨⟨⟩, hsome⟩
            rw [hblock] at hsome
            cases hsome
        | some changes =>
            have hnamed := hblocks _ _ _ hblock
            cases kind with
            | document =>
                unfold applyMissing
                dsimp only
                rw [hsets.remoteChange]
                dsimp only [trackTip]
                rw [Finset.mem_union, hnamed, Finset.mem_singleton]
                apply or_congr_right
                constructor
                · rintro rfl
                  exact ⟨rfl, by rw [hblock]; rfl⟩
                · rintro ⟨⟨⟩, -⟩
                  rfl
            | reader =>
                unfold applyMissing
                dsimp only
                split <;> simp [trackTip]
            | writer =>
                unfold applyMissing
                dsimp only
                split <;> simp [trackTip]
      rw [List.foldl_cons, ih, hfirst, hkeychain, List.mem_cons, or_assoc,
        ← or_and_right]

/-- The document after the merge of a stripped tree that does not throw: the
changes of the document among its entries whose blocks can be read are new. -/
theorem mem_document_syncDocumentChanges (hsets : SetDocuments p changesOf)
    (hblocks : BlocksNamed p store changesOf) {changeId : Option C}
    {root : ChangeTree C (NodeData P)} {s' : Loader C P (Finset C) A Q}
    (hs' : s.syncDocumentChanges p store changeId (stripInlineChanges root) =
      .ok s') :
    ∃ entries, s.newEntries changeId (stripInlineChanges root) = some entries ∧
      ∀ c, c ∈ s'.document ↔ c ∈ s.document ∨
        (∃ data, (c, data) ∈ entries ∧ data.kind = .document) ∧
          (getBlock p store s.keychain c).isSome := by
  cases hentries : s.newEntries changeId (stripInlineChanges root) with
  | none =>
      rw [syncDocumentChanges_stripped, hentries] at hs'
      cases hs'
  | some entries =>
      refine ⟨entries, rfl, fun c => ?_⟩
      have htip : (c, NodeKind.document) ∈ entries.map entryTip ↔
          ∃ data, (c, data) ∈ entries ∧ data.kind = .document := by
        rw [List.mem_map]
        constructor
        · rintro ⟨⟨c', data⟩, hentry, htip⟩
          obtain ⟨rfl, hkind⟩ := Prod.mk.inj htip
          exact ⟨data, hentry, hkind⟩
        · rintro ⟨data, hentry, hkind⟩
          refine ⟨(c, data), hentry, ?_⟩
          rw [entryTip, hkind]
      rw [syncDocumentChanges_of_entries hentries] at hs'
      split at hs'
      · rename_i hparse
        obtain ⟨cached, hcached⟩ := refreshLastSyncMessageFromSync_eq p
          (afterFetches p store s changeId (stripInlineChanges root) entries)
          changeId (stripInlineChanges root)
        rw [hcached] at hs'
        cases hs'
        change c ∈ (afterFetches p store s changeId (stripInlineChanges root)
          entries).document ↔ _
        rw [afterFetches_of_parse hparse,
          mem_document_foldl_landBlock hsets hblocks,
          (store.arrival_perm _).mem_iff, htip]
        rfl
      · cases hs'

end Landing

/-! ## The document after an accepted load -/

section Accepted

variable {changesOf : P → Finset C} {p : Providers C P (Finset C) A Q U K H}
  {store : Blockstore C} {s : Loader C P (Finset C) A Q}
  {message : SyncMessage C P}

variable (s) in
/-- The document behind a snapshot that may be adopted. -/
theorem adoptSnapshot_filter (hsets : SetDocuments p changesOf)
    (snapshot : Option (SnapshotNode C P)) :
    ∃ s₁ : Loader C P (Finset C) A Q,
      snapshot.elim (.ok s) (s.adoptSnapshot p) = .ok s₁ ∧
        s₁.keychain = s.keychain ∧ s₁.lastSyncMessage = s.lastSyncMessage ∧
        s₁.hashes = s.hashes ∪ boundaryCids
          ((snapshot.filter (s.adoptable p)).map
            SnapshotNode.lastChangeNodeCID) ∧
        ∀ c, c ∈ s₁.document ↔ c ∈ s.document ∨
          ∃ incoming, snapshot.filter (s.adoptable p) = some incoming ∧
            c ∈ changesOf incoming.state := by
  cases snapshot with
  | none => exact ⟨s, rfl, rfl, rfl, by simp [boundaryCids], by simp⟩
  | some incoming =>
      rw [Option.elim_some]
      unfold adoptSnapshot
      by_cases hadopts : s.adoptable p incoming = true
      · have hboth : (newer s.latestSnapshot incoming &&
            s.snapshotSignatureValid p incoming) = true := hadopts
        rw [if_pos hboth, hsets.applySnapshot,
          Option.filter_some_pos hadopts]
        refine ⟨_, rfl, rfl, rfl, ?_, by simp⟩
        unfold boundaryCids
        by_cases hempty : incoming.lastChangeNodeCID = ⊥
        · simp [hempty, Finset.filter_singleton]
        · simp [hempty, Finset.filter_singleton]
      · have hboth : ¬(newer s.latestSnapshot incoming &&
            s.snapshotSignatureValid p incoming) = true := hadopts
        rw [if_neg hboth,
          Option.filter_some_neg (Bool.eq_false_of_not_eq_true hadopts)]
        exact ⟨s, rfl, rfl, rfl, by simp [boundaryCids], by simp⟩

variable (s message) in
/-- The document behind the snapshot of a stripped response. -/
theorem adoptSnapshot_document (hsets : SetDocuments p changesOf)
    (keychain : Q) :
    ∃ s₁ : Loader C P (Finset C) A Q,
      (s.stripResponse p message).snapshot.elim
          (.ok { s with keychain := keychain })
          (adoptSnapshot p { s with keychain := keychain }) = .ok s₁ ∧
        s₁.keychain = keychain ∧ s₁.lastSyncMessage = s.lastSyncMessage ∧
        s₁.hashes = s.hashesBehindSnapshot p message ∧
        ∀ c, c ∈ s₁.document ↔ c ∈ s.document ∨
          ∃ incoming, s.adoptedSnapshot p message = some incoming ∧
            c ∈ changesOf incoming.state := by
  have hadopted : (s.stripResponse p message).snapshot.filter
      (adoptable p { s with keychain := keychain }) =
        s.adoptedSnapshot p message := by
    unfold stripResponse adoptedSnapshot
    dsimp only
    split
    · rfl
    · rfl
  unfold hashesBehindSnapshot
  rw [← hadopted]
  exact adoptSnapshot_filter { s with keychain := keychain } hsets _

/-- An accepted response passed the checks, and `sync` did not throw. -/
theorem exists_of_accepted [DecidableEq H] {expectedTipsHash : H}
    (haccepted : (s.handleResponse p store message
      (some expectedTipsHash)).2 = .accepted) :
    ∃ keychain s', s.keychainAfter p message = some keychain ∧
      adoptAndMerge p store { s with keychain := keychain }
        (s.stripResponse p message) = .ok s' ∧
      (s.handleResponse p store message (some expectedTipsHash)).1 = s' := by
  by_cases hchecked : message.documentId = p.documentPath ∧
      s.acceptsSignature p message = true ∧
      s.Bound p store message expectedTipsHash ∧
      (p.signingEnabled && unsigned message) = false
  · obtain ⟨hdocument, haccepts, hbound, hsigned⟩ := hchecked
    have hsigned' : (p.signingEnabled &&
        unsigned (s.stripResponse p message)) = false := hsigned
    obtain ⟨hstate, hiff⟩ := syncExpected_eq (H := H) store s
      (s.stripResponse p message) rfl hsigned'
      (collectAllCidsInTree message.changeId message.changes)
    rw [handleResponse_of_bound hdocument haccepts hbound] at haccepted ⊢
    obtain ⟨s', hs', -⟩ := hiff.1 haccepted
    rw [hstate, hs']
    rw [mergeKeychainChanges_eq] at hs'
    cases hkeychain : s.keychainAfter p (s.stripResponse p message) with
    | none =>
        rw [hkeychain] at hs'
        cases hs'
    | some keychain =>
        rw [hkeychain] at hs'
        exact ⟨keychain, s', hkeychain, hs', rfl⟩
  · exact absurd haccepted (handleResponse_of_not_checked hchecked).2

/-- What the document has after an accepted load. -/
theorem mem_document_of_accepted [DecidableEq H] {expectedTipsHash : H}
    (hsets : SetDocuments p changesOf)
    (hblocks : BlocksNamed p store changesOf)
    (haccepted : (s.handleResponse p store message
      (some expectedTipsHash)).2 = .accepted) (c : C) :
    c ∈ (s.handleResponse p store message (some expectedTipsHash)).1.document ↔
      c ∈ s.document ∨
      (∃ incoming, s.adoptedSnapshot p message = some incoming ∧
        c ∈ changesOf incoming.state) ∨
      s.FetchedAsDocument p store message c := by
  obtain ⟨keychain, s', hkeychain, hs', hstate⟩ := exists_of_accepted haccepted
  obtain ⟨s₁, hs₁, hkeychain₁, hcached₁, hhashes₁, hdocument₁⟩ :=
    adoptSnapshot_document s message hsets keychain
  rw [hstate, ← or_assoc, ← hdocument₁]
  unfold adoptAndMerge at hs'
  rw [hs₁] at hs'
  change (message.changes.map stripInlineChanges).elim (.ok s₁)
    (s₁.syncDocumentChanges p store message.changeId) = .ok s' at hs'
  cases hchanges : message.changes with
  | none =>
      rw [hchanges] at hs'
      cases hs'
      rw [or_iff_left]
      rintro ⟨changes, -, -, -, hsome, -⟩
      cases hchanges.symm.trans hsome
  | some root =>
      rw [hchanges, Option.map_some, Option.elim_some] at hs'
      have hnew : s₁.newEntries message.changeId (stripInlineChanges root) =
          mergeRemoteSyncTree (s.lastSyncMessage.bind SyncMessage.changeId)
            (s.hashesBehindSnapshot p message) message.changeId
            (stripInlineChanges root) := by
        unfold newEntries
        rw [hcached₁, hhashes₁]
      obtain ⟨entries, hentries, hdocument⟩ :=
        mem_document_syncDocumentChanges hsets hblocks hs'
      rw [hnew] at hentries
      rw [hdocument, hkeychain₁]
      apply or_congr_right
      constructor
      · rintro ⟨⟨data, hentry, hkind⟩, hread⟩
        exact ⟨root, entries, data, keychain, hchanges, hentries, hentry,
          hkind, hkeychain, hread⟩
      · rintro ⟨root', entries', data, keychain', hroot', hentries', hentry,
          hkind, hkeychain', hread⟩
        cases hchanges.symm.trans hroot'
        cases hentries.symm.trans hentries'
        cases hkeychain.symm.trans hkeychain'
        exact ⟨⟨data, hentry, hkind⟩, hread⟩

/-- What is fetched occurs in the tree. -/
theorem FetchedAsDocument.occurs {c : C}
    (h : s.FetchedAsDocument p store message c) :
    ∃ changes, message.changes = some changes ∧
      ∃ n, Occurs (rootEntries message.changeId changes).toList c n := by
  obtain ⟨root, entries, data, -, hroot, hentries, hentry, -⟩ := h
  refine ⟨root, hroot, ?_⟩
  refine mergeRemoteSyncTree_forall (I := fun c _ =>
    ∃ n, Occurs (rootEntries message.changeId root).toList c n)
    hentries ?_ (c, data) hentry
  intro cid hcid e he _
  rw [stripInlineChanges, ChangeTree.occurrences_mapData] at he
  obtain ⟨e', he', rfl⟩ := List.mem_map.1 he
  refine ⟨e'.2, ?_⟩
  rw [hcid]
  exact occurs_cons_iff.2
    (((ChangeTree.mem_occurrences root).1 he').imp_right Or.inl)

end Accepted

/-- A response that is accepted leaves a complete document if and only if its
tree and its snapshot are covered. -/
theorem accepted_complete_iff [DecidableEq H] {changesOf : P → Finset C}
    (p : Providers C P (Finset C) A Q U K H) (store : Blockstore C)
    (s : Loader C P (Finset C) A Q) (message : SyncMessage C P)
    (expectedTipsHash : H) (hsets : SetDocuments p changesOf)
    (hblocks : BlocksNamed p store changesOf)
    (haccepted : (s.handleResponse p store message
      (some expectedTipsHash)).2 = .accepted) :
    Complete changesOf message
        (s.handleResponse p store message (some expectedTipsHash)).1 ↔
      s.Covers changesOf p store message := by
  have hdocument := mem_document_of_accepted hsets hblocks haccepted
  constructor
  · intro h
    constructor
    · intro changes hchanges c hc
      exact (hdocument c).1 (h.tree changes hchanges c hc)
    · intro incoming hsnapshot
      by_cases hadopted : s.adoptedSnapshot p message = some incoming
      · exact Or.inl hadopted
      · refine Or.inr fun c hc hpruned => ?_
        rcases (hdocument c).1 (h.snapshot incoming hsnapshot c hc hpruned)
          with hbefore | ⟨incoming', hincoming', -⟩ | hfetched
        · exact hbefore
        · have hsame : message.snapshot = some incoming' := by
            unfold adoptedSnapshot at hincoming'
            split at hincoming'
            · cases hincoming'
            · exact (Option.filter_eq_some_iff.1 hincoming').1
          cases hsnapshot.symm.trans hsame
          exact absurd hincoming' hadopted
        · obtain ⟨changes, hchanges, hoccurs⟩ := hfetched.occurs
          exact absurd hoccurs (hpruned changes hchanges)
  · intro h
    constructor
    · intro changes hchanges c hc
      exact (hdocument c).2 (h.tree changes hchanges c hc)
    · intro incoming hsnapshot c hc hpruned
      rcases h.snapshot incoming hsnapshot with hadopted | hbefore
      · exact (hdocument c).2 (Or.inr (Or.inl ⟨incoming, hadopted, hc⟩))
      · exact (hdocument c).2 (Or.inl (hbefore c hc hpruned))

theorem setProviders_sets : SetDocuments (setProviders true fun _ => none)
    List.toFinset :=
  ⟨fun _ _ => rfl, fun _ _ => rfl⟩

theorem setStore_named : BlocksNamed (setProviders true fun _ => none)
    (setStore fun _ => 7) List.toFinset := by
  intro keychain cid changes hblock
  have hread : getBlock (setProviders true fun _ => none)
      (setStore fun _ => 7) keychain cid =
        some [(List.replicate cid (0 : UInt8)).length] := rfl
  rw [hread] at hblock
  cases hblock
  simp

theorem accepted_complete_two :
    Complete List.toFinset (twoWithPayloads 2 1)
        (emptyLoader.handleResponse (setProviders true fun _ => none)
          (setStore fun _ => 7) (twoWithPayloads 2 1) (some {2})).1 ↔
      emptyLoader.Covers List.toFinset (setProviders true fun _ => none)
        (setStore fun _ => 7) (twoWithPayloads 2 1) :=
  accepted_complete_iff _ _ emptyLoader (twoWithPayloads 2 1) {2}
    setProviders_sets setStore_named rfl

/-- A peer that has compacted: change `2` without its parent, and a snapshot of
both. -/
def compactedResponse : SyncMessage ℕ (List ℕ) where
  documentId := "document"
  changeId := some 2
  changes := some (.node ⟨.document, some [2]⟩ .absent)
  snapshot := some ⟨[1, 2], 2, 2, [0], 0⟩
  keychainChanges := none
  tips := some [2]
  signature := some "a"

/-- A new document drops the snapshot, accepts the rest and misses change
`1`. -/
theorem accepted_incomplete :
    let result := emptyLoader.handleResponse (setProviders true fun _ => none)
      (setStore fun _ => 7) compactedResponse (some {2})
    result.2 = .accepted ∧ result.1.document = {2} ∧
      ¬Complete List.toFinset compactedResponse result.1 := by
  intro result
  have hdocument : result.1.document = {2} := by decide
  refine ⟨rfl, hdocument, fun h => ?_⟩
  have hone : 1 ∈ result.1.document := by
    apply h.snapshot _ rfl 1 (by decide)
    rintro _ ⟨⟩ ⟨n, hoccurs⟩
    rcases occurs_cons_iff.1 hoccurs with heq | hbelow | hrest
    · cases heq
    · exact occurs_nil_iff.1 hbelow
    · exact occurs_nil_iff.1 hrest
  rw [hdocument] at hone
  exact absurd hone (by decide)

end Collabswarm.Load.Loader
