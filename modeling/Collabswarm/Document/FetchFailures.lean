import Collabswarm.Document.SyncOrder

/-!
# Sync messages whose blocks cannot always be fetched

`_syncDocumentChanges` fetches the blocks of the changes that a message does
not carry.  A fetch that fails is logged and dropped, while the changes above
it count as known from then on; a later message helps only if its tree leads to
the missing change on a path without known CIDs.
-/

namespace Collabswarm.Document

variable {C : Type}

/-- A sync tree with the outcome of every fetch: the block is returned, or the
fetch fails or returns nothing. -/
structure FetchedMessage (C : Type) where
  changeId : Option C
  changes : ChangeNode C
  fetched : C → Bool

/-- A tree without deferred children in which a CID has one kind and one map of
children. -/
structure Addressed (rootId : C) (root : ChangeNode C) : Prop where
  inline : ∀ c n, Occurs rootId root c n → n.children ≠ .deferred
  same : ∀ c n n', Occurs rootId root c n → Occurs rootId root c n' →
    n.kind = n'.kind ∧ ∀ nodes nodes', n.children = .present nodes →
      n'.children = .present nodes' → nodes = nodes'

namespace SyncState

variable [LinearOrder C]

/-- The blocks that `_syncDocumentChanges` starts to fetch. -/
def missingHashes (s : SyncState C) (m : FetchedMessage C) : List C :=
  match mergeRemoteSyncTree m.changeId m.changes s.lastChangeId s.hashes with
  | none => []
  | some entries => (entries.filter fun entry => !entry.2.2).map Prod.fst

/-- `_syncDocumentChanges` with fetches that may fail. -/
def syncFetching (s : SyncState C) (m : FetchedMessage C) : SyncState C :=
  match mergeRemoteSyncTree m.changeId m.changes s.lastChangeId s.hashes with
  | none => s
  | some entries =>
      let sent := entries.filter fun entry => entry.2.2
      let missing := entries.filter fun entry => !entry.2.2
      let arrived := missing.filter fun entry => m.fetched entry.1
      ((arrived.foldl applyEntry (sent.foldl applyEntry s))
        ).refreshLastSyncMessageFromSync m.changeId m.changes

/-- When every fetch succeeds, nothing differs from `syncDocumentChanges`. -/
theorem syncFetching_eq (s : SyncState C) (changeId : Option C)
    (changes : ChangeNode C) :
    s.syncFetching ⟨changeId, changes, fun _ => true⟩ =
      (s.syncDocumentChanges changeId changes).1 := by
  rw [syncFetching, syncDocumentChanges]
  rcases mergeRemoteSyncTree changeId changes s.lastChangeId s.hashes with
    _ | entries
  · rfl
  · simp

/-- The entries that are new to us are those that the tree leads to. -/
theorem mergeRemoteSyncTree_reached (s : SyncState C) {rootId : C}
    {root : ChangeNode C} (haddressed : Addressed rootId root) :
    ∃ entries, mergeRemoteSyncTree (some rootId) root s.lastChangeId
        s.hashes = some entries ∧
      ∀ c, (∃ e ∈ entries, e.1 = c) ↔
        ∃ n, Reached s.known rootId root c n := by
  obtain ⟨w, hw, hcomplete, hsound⟩ :=
    walkNode_root s.known haddressed.inline haddressed.same
  refine ⟨w.byCid.entries, ?_, ?_⟩
  · rw [mergeRemoteSyncTree]
    exact congrArg (Option.map fun w => w.byCid.entries) hw
  · intro c
    constructor
    · rintro ⟨e, he, rfl⟩
      obtain ⟨n, hn, -⟩ := hsound e.1 e.2 (w.byCid.mem_entries_iff.1 he)
      exact ⟨n, hn⟩
    · rintro ⟨n, hn⟩
      obtain ⟨e, he, -⟩ := hcomplete c n hn
      exact ⟨(c, e), w.byCid.mem_entries_iff.2 he, rfl⟩

/-- Without a failed fetch, a message adds exactly the CIDs that its tree leads
to on paths without known CIDs. -/
theorem mem_hashes_syncFetching (s : SyncState C) {rootId : C}
    {root : ChangeNode C} {fetched : C → Bool}
    (haddressed : Addressed rootId root)
    (hfetched : ∀ c ∈ s.missingHashes ⟨some rootId, root, fetched⟩,
      fetched c = true) (c : C) :
    c ∈ (s.syncFetching ⟨some rootId, root, fetched⟩).hashes ↔
      c ∈ s.hashes ∨ ∃ n, Reached s.known rootId root c n := by
  obtain ⟨entries, hmerge, hreached⟩ :=
    s.mergeRemoteSyncTree_reached haddressed
  rw [missingHashes, hmerge] at hfetched
  rw [syncFetching, hmerge]
  dsimp only
  rw [refresh_hashes, mem_hashes_foldl, mem_hashes_foldl, or_assoc, ← hreached c]
  refine or_congr Iff.rfl ?_
  constructor
  · rintro (⟨e, he, rfl⟩ | ⟨e, he, rfl⟩)
    · exact ⟨e, (List.mem_filter.1 he).1, rfl⟩
    · exact ⟨e, (List.mem_filter.1 (List.mem_filter.1 he).1).1, rfl⟩
  · rintro ⟨e, he, rfl⟩
    cases hinline : e.2.2 with
    | true => exact Or.inl ⟨e, List.mem_filter.2 ⟨he, hinline⟩, rfl⟩
    | false =>
        have hmissing : e ∈ entries.filter fun entry => !entry.2.2 :=
          List.mem_filter.2 ⟨he, by simp [hinline]⟩
        have harrived := hfetched e.1 (List.mem_map_of_mem hmissing)
        exact Or.inr ⟨e, List.mem_filter.2 ⟨hmissing, harrived⟩, rfl⟩

/-- Every CID of the tree is in `_hashes` already, or the tree leads to it on a
path that meets no CID in `_hashes` and not the root of our last message. -/
def Exposes (s : SyncState C) (rootId : C) (root : ChangeNode C) : Prop :=
  ∀ c n, Occurs rootId root c n →
    c ∈ s.hashes ∨ ∃ n', Reached s.known rootId root c n'

/-- Whatever messages came before and whichever of their fetches failed: if all
fetches for the last message succeed, all CIDs of its tree are known afterwards
exactly if its tree exposes those that were missing. -/
theorem syncFetching_complete_iff (s : SyncState C)
    (messages : List (FetchedMessage C)) {rootId : C} {root : ChangeNode C}
    {fetched : C → Bool} (haddressed : Addressed rootId root)
    (hfetched : ∀ c ∈ (exec syncFetching s messages).missingHashes
      ⟨some rootId, root, fetched⟩, fetched c = true) :
    (∀ c n, Occurs rootId root c n →
      c ∈ (exec syncFetching s
        (messages ++ [⟨some rootId, root, fetched⟩])).hashes) ↔
      (exec syncFetching s messages).Exposes rootId root := by
  have hlast : exec syncFetching s
      (messages ++ [⟨some rootId, root, fetched⟩]) =
        (exec syncFetching s messages).syncFetching
          ⟨some rootId, root, fetched⟩ := by
    rw [exec_append]
    rfl
  rw [hlast]
  refine forall_congr' fun c => forall_congr' fun n => imp_congr_right ?_
  intro _
  exact mem_hashes_syncFetching _ haddressed hfetched c

/-- A document change with one parent, whose payload is not sent. -/
def linkedChange (parent : ℕ) : ChangeNode ℕ :=
  .mk .document true
    (.present (.cons parent (.mk .document false .absent) .nil))

theorem occurs_linkedChange {cid parent c : ℕ} {n : ChangeNode ℕ}
    (h : Occurs cid (linkedChange parent) c n) :
    (c = cid ∧ n = linkedChange parent) ∨
      c = parent ∧ n = .mk .document false .absent := by
  induction h with
  | root _ => exact Or.inl ⟨rfl, rfl⟩
  | child _ hchildren hmem _ ih =>
      rcases ih with ⟨-, rfl⟩ | ⟨-, rfl⟩
      · cases hchildren
        rw [ChildList.toList, ChildList.toList, List.mem_singleton] at hmem
        exact Or.inr (Prod.mk.inj hmem)
      · cases hchildren

theorem linkedChange_addressed {cid parent : ℕ} (hne : cid ≠ parent) :
    Addressed cid (linkedChange parent) where
  inline := by
    intro c n h
    rcases occurs_linkedChange h with ⟨-, rfl⟩ | ⟨-, rfl⟩
    · simp [linkedChange, ChangeNode.children]
    · simp [ChangeNode.children]
  same := by
    intro c n n' h h'
    rcases occurs_linkedChange h with ⟨rfl, rfl⟩ | ⟨rfl, rfl⟩
    · rcases occurs_linkedChange h' with ⟨-, rfl⟩ | ⟨heq, -⟩
      · refine ⟨rfl, ?_⟩
        intro nodes nodes' hnodes hnodes'
        rw [hnodes] at hnodes'
        exact Children.present.inj hnodes'
      · exact absurd heq hne
    · rcases occurs_linkedChange h' with ⟨heq, -⟩ | ⟨-, rfl⟩
      · exact absurd heq.symm hne
      · refine ⟨rfl, ?_⟩
        intro nodes nodes' hnodes _
        cases hnodes

/-- The block of change `0` could not be fetched when change `1` came; a change
`2` that links to it directly brings it. -/
theorem syncFetching_complete_relinked :
    0 ∉ (exec syncFetching fresh
        [⟨some 1, linkedChange 0, fun _ => false⟩]).hashes ∧
      ∀ c n, Occurs 2 (linkedChange 0) c n →
        c ∈ (exec syncFetching fresh
          ([⟨some 1, linkedChange 0, fun _ => false⟩] ++
            [⟨some 2, linkedChange 0, fun _ => true⟩])).hashes := by
  refine ⟨by decide +kernel, ?_⟩
  refine (syncFetching_complete_iff fresh _
    (linkedChange_addressed (by decide)) (fun _ _ => rfl)).2 ?_
  intro c n h
  have hroot : Reached (exec syncFetching fresh
      [⟨some 1, linkedChange 0, fun _ => false⟩]).known 2 (linkedChange 0) 2
      (linkedChange 0) := Reached.root (by decide +kernel)
  rcases occurs_linkedChange h with ⟨rfl, -⟩ | ⟨rfl, -⟩
  · exact Or.inr ⟨_, hroot⟩
  · exact Or.inr ⟨_, Reached.child hroot rfl (List.mem_singleton.2 rfl)
      (by decide +kernel)⟩

/-- The block of change `0` cannot be fetched when change `1` comes.  When the
same tree comes again nothing is fetched, and change `0` stays unknown. -/
theorem failedFetch_not_retried :
    ¬ ∀ (messages : List (FetchedMessage ℕ)) (rootId : ℕ)
      (root : ChangeNode ℕ) (fetched : ℕ → Bool),
      (∀ c n, Occurs rootId root c n → n.children ≠ .deferred) →
      (∀ c ∈ (exec syncFetching fresh messages).missingHashes
        ⟨some rootId, root, fetched⟩, fetched c = true) →
      ∀ c n, Occurs rootId root c n →
        c ∈ (exec syncFetching fresh
          (messages ++ [⟨some rootId, root, fetched⟩])).hashes := by
  intro h
  have hzero := h [⟨some 1, linkedChange 0, fun _ => false⟩] 1
    (linkedChange 0) (fun _ => true)
    (linkedChange_addressed (by decide)).inline (fun _ _ => rfl) 0 _
    (Reached.child (Reached.root rfl) rfl (List.mem_singleton.2 rfl) rfl)
  exact absurd hzero (by decide +kernel)

end SyncState

end Collabswarm.Document
