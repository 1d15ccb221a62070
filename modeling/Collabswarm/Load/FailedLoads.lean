import Collabswarm.Load.StrippedSync

/-!
# Quorum-bound loads that fail

The checks before `sync` write nothing.  What `sync` writes is not undone, so
an attempt that fails behind them leaves the document as it was only if the
response is inert: its keys are known, its snapshot is not adopted, the CIDs
its tree references are recorded, no block lands, and the cached message
stays.
-/

namespace Collabswarm.Load.Loader

open Document (RecentTip)
open Merkle

variable {C P D A Q U K H : Type}

/-- The fields that a failed attempt should leave as they are. -/
structure Unchanged (s s' : Loader C P D A Q) : Prop where
  document : s'.document = s.document
  hashes : s'.hashes = s.hashes
  referencedAncestors : s'.referencedAncestors = s.referencedAncestors
  readers : s'.readers = s.readers
  writers : s'.writers = s.writers
  keychain : s'.keychain = s.keychain
  latestSnapshot : s'.latestSnapshot = s.latestSnapshot
  documentChangeCount : s'.documentChangeCount = s.documentChangeCount
  changesSinceSnapshot : s'.changesSinceSnapshot = s.changesSinceSnapshot
  lastSyncMessage : s'.lastSyncMessage = s.lastSyncMessage

theorem Unchanged.refl (s : Loader C P D A Q) : Unchanged s s :=
  ⟨rfl, rfl, rfl, rfl, rfl, rfl, rfl, rfl, rfl, rfl⟩

/-- The state that a step leaves, whether it throws or not. -/
def exitState : Except (Loader C P D A Q) (Loader C P D A Q) →
    Loader C P D A Q
  | .error s => s
  | .ok s => s

variable [LinearOrder C] [Bot C] (p : Providers C P D A Q U K H)
  (store : Blockstore C)

/-! ## What a response would write -/

/-- The keychain with the keys of a message; `none` if they cannot be
merged. -/
def keychainAfter (s : Loader C P D A Q) (message : SyncMessage C P) :
    Option Q :=
  message.keychainChanges.elim (some s.keychain) (p.mergeKeychain s.keychain)

/-- The snapshot is more recent than ours, and a writer signed it. -/
def adoptable (s : Loader C P D A Q) (incoming : SnapshotNode C P) : Bool :=
  newer s.latestSnapshot incoming && s.snapshotSignatureValid p incoming

/-- The tree would write nothing. -/
structure InertTree (s : Loader C P D A Q) (changeId : Option C)
    (changes : ChangeTree C (NodeData P)) : Prop where
  referenced : collectReferencedAncestors changeId changes
    s.referencedAncestors = s.referencedAncestors
  blocks : ∀ entries, s.newEntries changeId changes = some entries →
    ∀ tip ∈ (entries.map entryTip).takeWhile (fun tip => p.parse tip.1),
      s.lands p store tip = false
  cached : ∀ entries, s.newEntries changeId changes = some entries →
    (∀ e ∈ entries, p.parse e.1 = true) →
    s.refreshLastSyncMessageFromSync p changeId changes = s

/-- Snapshot and tree would write nothing. -/
structure Inert (s : Loader C P D A Q) (message : SyncMessage C P) :
    Prop where
  snapshot : ∀ incoming, message.snapshot = some incoming →
    s.adoptable p incoming = true →
    p.applySnapshot s.document incoming.state = none
  tree : (∀ incoming, message.snapshot = some incoming →
      s.adoptable p incoming = false) →
    ∀ changes, message.changes = some changes →
      s.InertTree p store message.changeId changes

/-- All new CIDs of the tree can be fetched for, and those expected are known or
land. -/
def CompletesTree (s : Loader C P D A Q) (changeId : Option C)
    (changes : ChangeTree C (NodeData P)) (expectedCids : List C) : Prop :=
  ∃ entries, s.newEntries changeId changes = some entries ∧
    (∀ e ∈ entries, p.parse e.1 = true) ∧
    ∀ c ∈ expectedCids, c ∈ s.hashes ∨
      LandsAmong p store (s.noteReferenced changeId changes)
        (store.arrival (entries.map entryTip)) c

/-- A snapshot to adopt applies, and behind it the tree completes. -/
def Completes (s : Loader C P D A Q) (message : SyncMessage C P)
    (expectedCids : List C) : Prop :=
  ∃ s₁, message.snapshot.elim (.ok s) (s.adoptSnapshot p) = .ok s₁ ∧
    (message.changes = none → ∀ c ∈ expectedCids, c ∈ s₁.hashes) ∧
    ∀ changes, message.changes = some changes →
      s₁.CompletesTree p store message.changeId changes expectedCids

/-- If the keys of the message can be merged, the rest completes, or nothing
would be written. -/
def CompletesOrInert (s : Loader C P D A Q) (message : SyncMessage C P)
    (expectedCids : List C) : Prop :=
  ∀ keychain, s.keychainAfter p message = some keychain →
    Completes p store { s with keychain := keychain } message expectedCids ∨
      keychain = s.keychain ∧ s.Inert p store message

/-! ## The tree -/

section Tree

variable {p store} {s : Loader C P D A Q} {changeId : Option C}
  {root : ChangeTree C (NodeData P)}

omit [LinearOrder C] [Bot C] in
theorem all_parse_iff {entries : List (C × NodeData P)} :
    ((entries.map entryTip).all fun tip => p.parse tip.1) = true ↔
      ∀ e ∈ entries, p.parse e.1 = true := by
  rw [List.all_map, List.all_eq_true]
  rfl

variable (p store s changeId root) in
/-- The document once the blocks have arrived that were fetched for the
entries. -/
def afterFetches (entries : List (C × NodeData P)) : Loader C P D A Q :=
  (store.arrival ((entries.map entryTip).takeWhile fun tip =>
    p.parse tip.1)).foldl (landBlock p store) (s.noteReferenced changeId root)

omit [Bot C] in
/-- Where all CIDs parse, the blocks of all entries are fetched. -/
theorem afterFetches_of_parse {entries : List (C × NodeData P)}
    (hparse : ∀ e ∈ entries, p.parse e.1 = true) :
    afterFetches p store s changeId root entries =
      (store.arrival (entries.map entryTip)).foldl (landBlock p store)
        (s.noteReferenced changeId root) := by
  have hstarted : (entries.map entryTip).takeWhile (fun tip =>
      p.parse tip.1) = entries.map entryTip :=
    List.takeWhile_eq_self_iff.2 (List.all_eq_true.1 (all_parse_iff.2 hparse))
  rw [afterFetches, hstarted]

/-- The merge of a stripped tree, once its entries are known. -/
theorem syncDocumentChanges_of_entries {entries : List (C × NodeData P)}
    (hentries : s.newEntries changeId (stripInlineChanges root) =
      some entries) :
    s.syncDocumentChanges p store changeId (stripInlineChanges root) =
      if ∀ e ∈ entries, p.parse e.1 = true then
        .ok ((afterFetches p store s changeId (stripInlineChanges root)
          entries).refreshLastSyncMessageFromSync p changeId
            (stripInlineChanges root))
      else
        .error (afterFetches p store s changeId (stripInlineChanges root)
          entries) := by
  rw [syncDocumentChanges_stripped, hentries]
  dsimp only
  unfold fetchMissing
  dsimp only
  by_cases hall : ∀ e ∈ entries, p.parse e.1 = true
  · rw [if_pos hall, if_pos (all_parse_iff.2 hall)]
    rfl
  · rw [if_neg hall, if_neg fun h => hall (all_parse_iff.1 h)]
    rfl

omit [Bot C] in
theorem afterFetches_kept (entries : List (C × NodeData P)) :
    Kept (s.noteReferenced changeId root)
      (afterFetches p store s changeId root entries) :=
  foldl_landBlock_kept _ _

variable (p store) in
/-- The state that the merge leaves, up to the cached message. -/
theorem exitState_of_entries {entries : List (C × NodeData P)}
    (hentries : s.newEntries changeId (stripInlineChanges root) =
      some entries) :
    ∃ message, exitState (s.syncDocumentChanges p store changeId
        (stripInlineChanges root)) =
      { afterFetches p store s changeId (stripInlineChanges root) entries with
        lastSyncMessage := message } := by
  rw [syncDocumentChanges_of_entries hentries]
  split
  · exact refreshLastSyncMessageFromSync_eq p _ _ _
  · exact ⟨_, rfl⟩

/-- The merge leaves keychain and snapshot as they are. -/
theorem exitState_syncDocumentChanges_kept :
    (exitState (s.syncDocumentChanges p store changeId
        (stripInlineChanges root))).keychain = s.keychain ∧
      (exitState (s.syncDocumentChanges p store changeId
        (stripInlineChanges root))).latestSnapshot = s.latestSnapshot := by
  cases hentries : s.newEntries changeId (stripInlineChanges root) with
  | none =>
      rw [syncDocumentChanges_stripped, hentries]
      exact ⟨rfl, rfl⟩
  | some entries =>
      obtain ⟨message, hexit⟩ :=
        exitState_of_entries p store hentries
      have hkept : Kept _ (afterFetches p store s changeId
        (stripInlineChanges root) entries) := afterFetches_kept entries
      rw [hexit]
      exact ⟨hkept.keychain, hkept.latestSnapshot⟩

/-- When the merge ends with all expected CIDs. -/
theorem completesTree_iff {expectedCids : List C} :
    (∃ s₁, s.syncDocumentChanges p store changeId (stripInlineChanges root) =
        .ok s₁ ∧ ∀ c ∈ expectedCids, c ∈ s₁.hashes) ↔
      s.CompletesTree p store changeId (stripInlineChanges root)
        expectedCids := by
  cases hentries : s.newEntries changeId (stripInlineChanges root) with
  | none =>
      rw [syncDocumentChanges_stripped, hentries]
      apply iff_of_false
      · rintro ⟨s₁, hs₁, -⟩
        cases hs₁
      · rintro ⟨entries, hsome, -⟩
        cases hentries.symm.trans hsome
  | some entries =>
      rw [syncDocumentChanges_of_entries hentries]
      split
      · rename_i hparse
        have hhashes : ∀ c, c ∈ (afterFetches p store s changeId
            (stripInlineChanges root) entries).hashes ↔ c ∈ s.hashes ∨
              LandsAmong p store
                (s.noteReferenced changeId (stripInlineChanges root))
                (store.arrival (entries.map entryTip)) c := by
          intro c
          rw [afterFetches_of_parse hparse, mem_hashes_foldl_landBlock]
          rfl
        obtain ⟨message, hmessage⟩ := refreshLastSyncMessageFromSync_eq p
          (afterFetches p store s changeId (stripInlineChanges root) entries)
          changeId (stripInlineChanges root)
        rw [hmessage]
        constructor
        · rintro ⟨s₁, hs₁, hexpected⟩
          cases hs₁
          exact ⟨entries, hentries, hparse,
            fun c hc => (hhashes c).1 (hexpected c hc)⟩
        · rintro ⟨entries', hentries', -, hexpected⟩
          cases hentries.symm.trans hentries'
          exact ⟨_, rfl, fun c hc => (hhashes c).2 (hexpected c hc)⟩
      · rename_i hparse
        apply iff_of_false
        · rintro ⟨s₁, hs₁, -⟩
          cases hs₁
        · rintro ⟨entries', hentries', hall, -⟩
          cases hentries.symm.trans hentries'
          exact hparse hall

omit [Bot C] in
theorem noteReferenced_eq (h : collectReferencedAncestors changeId root
    s.referencedAncestors = s.referencedAncestors) :
    s.noteReferenced changeId root = s := by
  unfold noteReferenced
  rw [h]

omit [Bot C] in
/-- When no block lands, nothing but the referenced CIDs is written before the
cached message. -/
theorem afterFetches_of_not_lands {entries : List (C × NodeData P)}
    (hreferenced : collectReferencedAncestors changeId root
      s.referencedAncestors = s.referencedAncestors)
    (hblocks : ∀ tip ∈ (entries.map entryTip).takeWhile
      (fun tip => p.parse tip.1), s.lands p store tip = false) :
    afterFetches p store s changeId root entries = s := by
  unfold afterFetches
  rw [noteReferenced_eq hreferenced]
  apply foldl_landBlock_of_not_lands
  intro tip htip
  exact hblocks tip ((store.arrival_perm _).mem_iff.1 htip)

omit [Bot C] in
/-- A merge that adds no CID lands no block. -/
theorem not_lands_of_hashes {entries : List (C × NodeData P)}
    (hentries : s.newEntries changeId root = some entries)
    (hreferenced : collectReferencedAncestors changeId root
      s.referencedAncestors = s.referencedAncestors)
    (hhashes : (afterFetches p store s changeId root entries).hashes =
      s.hashes) :
    ∀ tip ∈ (entries.map entryTip).takeWhile (fun tip => p.parse tip.1),
      s.lands p store tip = false := by
  intro tip htip
  by_contra hlands
  obtain ⟨c, hc⟩ := exists_landsAmong_iff.2
    ⟨tip, (store.arrival_perm _).mem_iff.2 htip,
      Bool.eq_true_of_not_eq_false hlands⟩
  have hnew : c ∈ s.hashes := by
    rw [← hhashes, afterFetches, noteReferenced_eq hreferenced,
      mem_hashes_foldl_landBlock]
    exact Or.inr hc
  -- but the CIDs that are fetched for are new
  have hmem : c ∈ ((entries.map entryTip).takeWhile
      fun tip => p.parse tip.1).map Prod.fst :=
    ((store.arrival_perm _).map Prod.fst).mem_iff.1 hc.mem
  obtain ⟨tip', htip', rfl⟩ := List.mem_map.1 hmem
  obtain ⟨e, he, rfl⟩ :=
    List.mem_map.1 (List.takeWhile_subset _ htip')
  exact mergeRemoteSyncTree_new hentries e he hnew

/-- When the merge writes nothing. -/
theorem unchanged_syncDocumentChanges_iff :
    Unchanged s (exitState (s.syncDocumentChanges p store changeId
        (stripInlineChanges root))) ↔
      s.InertTree p store changeId (stripInlineChanges root) := by
  cases hentries : s.newEntries changeId (stripInlineChanges root) with
  | none =>
      rw [syncDocumentChanges_stripped, hentries]
      constructor
      · intro h
        refine ⟨h.referencedAncestors, ?_, ?_⟩
        · intro entries hsome
          cases hentries.symm.trans hsome
        · intro entries hsome
          cases hentries.symm.trans hsome
      · intro h
        change Unchanged s (s.noteReferenced _ _)
        rw [noteReferenced_eq h.referenced]
        exact Unchanged.refl s
  | some entries =>
      constructor
      · intro h
        obtain ⟨message, hexit⟩ :=
          exitState_of_entries p store hentries
        have hkept : Kept _ (afterFetches p store s changeId
          (stripInlineChanges root) entries) := afterFetches_kept entries
        have hreferenced : collectReferencedAncestors changeId
            (stripInlineChanges root) s.referencedAncestors =
            s.referencedAncestors := by
          have hsame := h.referencedAncestors
          rw [hexit] at hsame
          exact hkept.referencedAncestors.symm.trans hsame
        have hhashes : (afterFetches p store s changeId
            (stripInlineChanges root) entries).hashes = s.hashes := by
          have hsame := h.hashes
          rwa [hexit] at hsame
        have hblocks := not_lands_of_hashes hentries hreferenced hhashes
        refine ⟨hreferenced, ?_, ?_⟩
        · intro entries' hsome
          cases hentries.symm.trans hsome
          exact hblocks
        · intro entries' hsome hparse
          cases hentries.symm.trans hsome
          rw [syncDocumentChanges_of_entries hentries, if_pos hparse,
            afterFetches_of_not_lands hreferenced hblocks] at h
          have hcached := h.lastSyncMessage
          obtain ⟨message', hrefresh⟩ := refreshLastSyncMessageFromSync_eq p s
            changeId (stripInlineChanges root)
          change (s.refreshLastSyncMessageFromSync p changeId
            (stripInlineChanges root)).lastSyncMessage = _ at hcached
          rw [hrefresh] at hcached ⊢
          obtain rfl : message' = s.lastSyncMessage := hcached
          rfl
      · rintro ⟨hreferenced, hblocks, hcached⟩
        rw [syncDocumentChanges_of_entries hentries,
          afterFetches_of_not_lands hreferenced (hblocks entries hentries)]
        split
        · rename_i hparse
          rw [hcached entries hentries hparse]
          exact Unchanged.refl s
        · exact Unchanged.refl s

end Tree

/-! ## The snapshot -/

section Snapshot

variable (s : Loader C P D A Q) (message : SyncMessage C P)

omit [Bot C] in
theorem newer_irrefl (incoming : SnapshotNode C P) :
    newer (some incoming) incoming = false := by
  simp [newer]

/-- A snapshot is not adopted, or applying it throws, or it becomes ours. -/
theorem adopts_cases :
    (message.snapshot.elim (.ok s) (s.adoptSnapshot p) = .ok s ∧
      ∀ incoming, message.snapshot = some incoming →
        s.adoptable p incoming = false) ∨
    (∃ incoming, message.snapshot = some incoming ∧
      s.adoptable p incoming = true ∧
      p.applySnapshot s.document incoming.state = none ∧
      message.snapshot.elim (.ok s) (s.adoptSnapshot p) = .error s) ∨
    ∃ incoming s₁, message.snapshot = some incoming ∧
      s.adoptable p incoming = true ∧
      (p.applySnapshot s.document incoming.state).isSome ∧
      message.snapshot.elim (.ok s) (s.adoptSnapshot p) = .ok s₁ ∧
      s₁.latestSnapshot ≠ s.latestSnapshot ∧ s₁.keychain = s.keychain := by
  cases hsnapshot : message.snapshot with
  | none => exact Or.inl ⟨rfl, nofun⟩
  | some incoming =>
      rw [Option.elim_some]
      cases hadopts : s.adoptable p incoming with
      | false =>
          refine Or.inl ⟨?_, ?_⟩
          · unfold adoptable at hadopts
            unfold adoptSnapshot
            rw [hadopts]
            rfl
          · rintro _ ⟨⟩
            exact hadopts
      | true =>
          refine Or.inr ?_
          have hboth := hadopts
          unfold adoptable at hboth
          unfold adoptSnapshot
          rw [hboth, if_pos rfl]
          cases happly : p.applySnapshot s.document incoming.state with
          | none => exact Or.inl ⟨incoming, rfl, hadopts, happly, rfl⟩
          | some document =>
              refine Or.inr ⟨incoming, _, rfl, hadopts, by rw [happly]; rfl,
                rfl, ?_, rfl⟩
              intro hsame
              have hnewer := (Bool.and_eq_true_iff.1 hboth).1
              rw [← hsame, newer_irrefl] at hnewer
              cases hnewer

end Snapshot

/-! ## Behind the keys -/

section Behind

variable {p store} {s : Loader C P D A Q} {message : SyncMessage C P}
  {changes : Option (ChangeTree C (NodeData P))}
  (hstripped : message.changes = changes.map stripInlineChanges)

include hstripped

/-- The tree part, for a message with or without a tree. -/
theorem merge_kept (s : Loader C P D A Q) :
    (exitState (message.changes.elim (.ok s)
        (s.syncDocumentChanges p store message.changeId))).keychain =
      s.keychain ∧
    (exitState (message.changes.elim (.ok s)
        (s.syncDocumentChanges p store message.changeId))).latestSnapshot =
      s.latestSnapshot := by
  rw [hstripped]
  cases changes with
  | none => exact ⟨rfl, rfl⟩
  | some root => exact exitState_syncDocumentChanges_kept

theorem keychain_adoptAndMerge :
    (exitState (s.adoptAndMerge p store message)).keychain = s.keychain := by
  unfold adoptAndMerge
  rcases adopts_cases p s message with
    ⟨hsame, -⟩ | ⟨incoming, -, -, -, herror⟩ |
    ⟨incoming, s₁, -, -, -, hok, -, hkeychain⟩
  · rw [hsame]
    exact (merge_kept hstripped s).1
  · rw [herror]
    rfl
  · rw [hok]
    exact (merge_kept hstripped s₁).1.trans hkeychain

/-- When snapshot and tree complete. -/
theorem completes_iff {expectedCids : List C} :
    (∃ s', s.adoptAndMerge p store message = .ok s' ∧
        ∀ c ∈ expectedCids, c ∈ s'.hashes) ↔
      s.Completes p store message expectedCids := by
  have htree : ∀ s₁ : Loader C P D A Q,
      (∃ s', message.changes.elim (.ok s₁)
          (s₁.syncDocumentChanges p store message.changeId) = .ok s' ∧
        ∀ c ∈ expectedCids, c ∈ s'.hashes) ↔
      (message.changes = none → ∀ c ∈ expectedCids, c ∈ s₁.hashes) ∧
        ∀ changes, message.changes = some changes →
          s₁.CompletesTree p store message.changeId changes expectedCids := by
    intro s₁
    rw [hstripped]
    cases changes with
    | none =>
        constructor
        · rintro ⟨s', hs', hexpected⟩
          cases hs'
          exact ⟨fun _ => hexpected, nofun⟩
        · rintro ⟨hexpected, -⟩
          exact ⟨s₁, rfl, hexpected rfl⟩
    | some root =>
        refine completesTree_iff.trans ?_
        constructor
        · intro h
          refine ⟨nofun, ?_⟩
          rintro _ ⟨⟩
          exact h
        · rintro ⟨-, h⟩
          exact h _ rfl
  unfold adoptAndMerge Completes
  constructor
  · rintro ⟨s', hs', hexpected⟩
    cases hadopt : message.snapshot.elim (.ok s) (s.adoptSnapshot p) with
    | error s₁ =>
        rw [hadopt] at hs'
        cases hs'
    | ok s₁ =>
        rw [hadopt] at hs'
        exact ⟨s₁, rfl, (htree s₁).1 ⟨s', hs', hexpected⟩⟩
  · rintro ⟨s₁, hadopt, hcompletes⟩
    rw [hadopt]
    exact (htree s₁).2 hcompletes

/-- When snapshot and tree write nothing. -/
theorem unchanged_adoptAndMerge_iff :
    Unchanged s (exitState (s.adoptAndMerge p store message)) ↔
      s.Inert p store message := by
  unfold adoptAndMerge
  rcases adopts_cases p s message with
    ⟨hsame, hnone⟩ | ⟨incoming, hsnapshot, hadopts, happly, herror⟩ |
    ⟨incoming, s₁, hsnapshot, hadopts, happly, hok, hlatest, -⟩
  · rw [hsame]
    have htree : Unchanged s (exitState (message.changes.elim (.ok s)
          (s.syncDocumentChanges p store message.changeId))) ↔
        ∀ changes, message.changes = some changes →
          s.InertTree p store message.changeId changes := by
      rw [hstripped]
      cases changes with
      | none => exact iff_of_true (Unchanged.refl s) nofun
      | some root =>
          refine unchanged_syncDocumentChanges_iff.trans ?_
          constructor
          · rintro h _ ⟨⟩
            exact h
          · exact fun h => h _ rfl
    refine htree.trans ?_
    constructor
    · intro h
      refine ⟨?_, fun _ => h⟩
      intro incoming hsnapshot hadopts
      rw [hnone incoming hsnapshot] at hadopts
      cases hadopts
    · exact fun h => h.tree hnone
  · rw [herror]
    apply iff_of_true (Unchanged.refl s)
    constructor
    · intro incoming' hsnapshot' _
      cases hsnapshot.symm.trans hsnapshot'
      exact happly
    · intro hnone
      rw [hnone incoming hsnapshot] at hadopts
      cases hadopts
  · rw [hok]
    apply iff_of_false
    · intro h
      exact hlatest ((merge_kept hstripped s₁).2.symm.trans h.latestSnapshot)
    · intro h
      rw [h.snapshot incoming hsnapshot hadopts] at happly
      cases happly

end Behind

/-! ## The whole attempt -/

section Attempt

variable {p store} {s : Loader C P D A Q} {message : SyncMessage C P}

omit [LinearOrder C] [Bot C] in
theorem mergeKeychainChanges_eq :
    s.mergeKeychainChanges p message.keychainChanges =
      match s.keychainAfter p message with
      | none => .error s
      | some keychain => .ok { s with keychain := keychain } := by
  unfold mergeKeychainChanges keychainAfter
  cases message.keychainChanges with
  | none => rfl
  | some changes =>
      rcases hmerge : p.mergeKeychain s.keychain changes with _ | keychain
      · simp only [Option.elim_some, hmerge]
      · simp only [Option.elim_some, hmerge]

variable (store s message) in
/-- The end of an attempt that `sync` did not reject. -/
theorem syncExpected_eq {changes : Option (ChangeTree C (NodeData P))}
    (hstripped : message.changes = changes.map stripInlineChanges)
    (hsigned : (p.signingEnabled && unsigned message) = false)
    (expectedCids : List C) :
    (s.syncExpected (H := H) p store message expectedCids).1 =
      exitState ((s.mergeKeychainChanges p message.keychainChanges).bind
        fun s => s.adoptAndMerge p store message) ∧
    ((s.syncExpected (H := H) p store message expectedCids).2 = .accepted ↔
      ∃ s', ((s.mergeKeychainChanges p message.keychainChanges).bind
          fun s => s.adoptAndMerge p store message) = .ok s' ∧
        ∀ c ∈ expectedCids, c ∈ s'.hashes) := by
  unfold syncExpected
  rw [sync_stripped p store s hstripped hsigned]
  cases (s.mergeKeychainChanges p message.keychainChanges).bind
      fun s => s.adoptAndMerge p store message with
  | error s₁ =>
      refine ⟨rfl, iff_of_false nofun ?_⟩
      rintro ⟨s', hs', -⟩
      cases hs'
  | ok s₁ =>
      by_cases hall : ∀ c ∈ expectedCids, c ∈ s₁.hashes
      · have hif : expectedCids.all (· ∈ s₁.hashes) = true := by
          simpa using hall
        dsimp only [Except.map]
        rw [if_pos hif]
        exact ⟨rfl, iff_of_true rfl ⟨s₁, rfl, hall⟩⟩
      · have hif : ¬expectedCids.all (· ∈ s₁.hashes) = true := by
          simpa using hall
        dsimp only [Except.map]
        rw [if_neg hif]
        refine ⟨rfl, iff_of_false nofun ?_⟩
        rintro ⟨s', hs', hexpected⟩
        cases hs'
        exact hall hexpected

/-- When the call of `sync` and the last check leave no trace of a failure. -/
theorem syncExpected_unchanged_iff
    {changes : Option (ChangeTree C (NodeData P))}
    (hstripped : message.changes = changes.map stripInlineChanges)
    (hsigned : (p.signingEnabled && unsigned message) = false)
    (expectedCids : List C) :
    ((s.syncExpected (H := H) p store message expectedCids).2 ≠ .accepted →
      Unchanged s
        (s.syncExpected (H := H) p store message expectedCids).1) ↔
      s.CompletesOrInert p store message expectedCids := by
  obtain ⟨hstate, haccepted⟩ := syncExpected_eq (H := H) store s
    message hstripped hsigned expectedCids
  rw [hstate, ne_eq, haccepted, mergeKeychainChanges_eq, ← or_iff_not_imp_left]
  unfold CompletesOrInert
  cases hkeychain : s.keychainAfter p message with
  | none =>
      refine iff_of_true (Or.inr (Unchanged.refl s)) ?_
      rintro keychain ⟨⟩
  | some keychain =>
      change ((∃ s', adoptAndMerge p store { s with keychain := keychain }
          message = .ok s' ∧ _) ∨
        Unchanged s (exitState (adoptAndMerge p store
          { s with keychain := keychain } message))) ↔ _
      have hkept : (exitState (adoptAndMerge p store
          { s with keychain := keychain } message)).keychain = keychain :=
        keychain_adoptAndMerge hstripped
      rw [completes_iff hstripped]
      constructor
      · rintro h _ ⟨⟩
        refine h.imp_right fun hunchanged => ?_
        obtain rfl : keychain = s.keychain :=
          hkept.symm.trans hunchanged.keychain
        exact ⟨rfl, (unchanged_adoptAndMerge_iff hstripped).1 hunchanged⟩
      · intro h
        refine (h keychain rfl).imp_right ?_
        rintro ⟨rfl, hinert⟩
        exact (unchanged_adoptAndMerge_iff hstripped).2 hinert

end Attempt

variable [DecidableEq H]

section Checks

variable {p store} {s : Loader C P D A Q} {message : SyncMessage C P}
  {expectedTipsHash : H}

/-- A response that passes the checks reaches `sync`. -/
theorem handleResponse_of_bound
    (hdocument : message.documentId = p.documentPath)
    (haccepts : s.acceptsSignature p message = true)
    (hbound : s.Bound p store message expectedTipsHash) :
    s.handleResponse p store message (some expectedTipsHash) =
      s.syncExpected p store (s.stripResponse p message)
        (collectAllCidsInTree message.changeId message.changes) := by
  have hbind := (bindResponse_iff p).2 ⟨hbound, rfl⟩
  unfold handleResponse quorumBoundLoad
  dsimp only
  rw [if_neg (not_not.2 hdocument), if_neg (by simp [haccepts]), hbind]

/-- A response that does not pass them, or has no signature where one is
needed, is not applied. -/
theorem handleResponse_of_not_checked
    (h : ¬(message.documentId = p.documentPath ∧
      s.acceptsSignature p message = true ∧
      s.Bound p store message expectedTipsHash ∧
      (p.signingEnabled && unsigned message) = false)) :
    (s.handleResponse p store message (some expectedTipsHash)).1 = s ∧
      (s.handleResponse p store message (some expectedTipsHash)).2 ≠
        .accepted := by
  by_cases hbound : message.documentId = p.documentPath ∧
      s.acceptsSignature p message = true ∧
      s.Bound p store message expectedTipsHash
  · obtain ⟨hdocument, haccepts, hbound⟩ := hbound
    have hunsigned : (p.signingEnabled &&
        unsigned (s.stripResponse p message)) = true := by
      by_contra hsigned
      exact h ⟨hdocument, haccepts, hbound, Bool.eq_false_of_not_eq_true
        hsigned⟩
    rw [handleResponse_of_bound hdocument haccepts hbound]
    unfold syncExpected sync
    rw [if_pos hunsigned]
    exact ⟨rfl, nofun⟩
  · unfold handleResponse quorumBoundLoad
    dsimp only
    split
    · exact ⟨rfl, nofun⟩
    · rename_i hdocument
      split
      · exact ⟨rfl, nofun⟩
      · rename_i haccepts
        split
        · exact ⟨rfl, nofun⟩
        · rename_i hbind
          obtain ⟨hpasses, -⟩ := (bindResponse_iff p).1 hbind
          exact absurd ⟨not_not.1 hdocument,
            Bool.eq_true_of_not_eq_false haccepts, hpasses⟩ hbound

end Checks

end Collabswarm.Load.Loader
