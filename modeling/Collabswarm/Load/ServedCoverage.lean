import Collabswarm.Load.FailedLoads
import Collabswarm.Load.ServedFrontier

/-!
# What a document serves after a sync

A received tree replaces the cached one as soon as the cached root occurs in
it, and nothing compares the rest of the two trees.  So the served tree loses no
CID exactly if a tree that replaces it contains all its CIDs.
-/

namespace Collabswarm.Load.Loader

open Document (RecentTip)
open Merkle

variable {C P D A Q U K H : Type}

/-- The CID occurs in the tree of the cached message. -/
def Serves (s : Loader C P D A Q) (c : C) : Prop :=
  ∃ message changes, s.lastSyncMessage = some message ∧
    message.changes = some changes ∧ InTree message.changeId changes c

theorem Kept.serves_iff {s s' : Loader C P D A Q} (h : Kept s s') {c : C} :
    s'.Serves c ↔ s.Serves c := by
  unfold Serves
  rw [h.lastSyncMessage]

/-! ## Entries with payload -/

section Sent

variable {p : Providers C P D A Q U K H}

theorem mergeReaders_kept (s : Loader C P D A Q) (changes : P) :
    Kept s (exitState (s.mergeReaders p changes)) := by
  unfold mergeReaders
  split
  · exact Kept.refl s
  · exact ⟨rfl, rfl, rfl, rfl⟩

theorem mergeWriters_kept (s : Loader C P D A Q) (changes : P) :
    Kept s (exitState (s.mergeWriters p changes)) := by
  unfold mergeWriters
  split
  · exact Kept.refl s
  · exact ⟨rfl, rfl, rfl, rfl⟩

/-- The state that a loop over the entries leaves. -/
def exitSent :
    Except (Loader C P D A Q) (Loader C P D A Q × SentChanges C D) →
      Loader C P D A Q
  | .error s => s
  | .ok (s, _) => s

theorem exitSent_map (result : Except (Loader C P D A Q) (Loader C P D A Q))
    (sent : SentChanges C D) :
    exitSent (result.map fun s => (s, sent)) = exitState result := by
  cases result <;> rfl

theorem applySent_kept (s : Loader C P D A Q) (sent : SentChanges C D)
    (entry : C × NodeData P) :
    Kept s (exitSent (applySent p (s, sent) entry)) := by
  obtain ⟨cid, kind, change⟩ := entry
  cases change with
  | none => exact Kept.refl s
  | some change =>
      cases kind with
      | document =>
          unfold applySent
          dsimp only
          split
          · exact Kept.refl s
          · exact ⟨rfl, rfl, rfl, rfl⟩
      | reader =>
          have hexit := exitSent_map (s.mergeReaders p change)
            { sent with
              newDocumentTips := sent.newDocumentTips ++ [(cid, .reader)] }
          exact hexit ▸ mergeReaders_kept s change
      | writer =>
          have hexit := exitSent_map (s.mergeWriters p change)
            { sent with
              newDocumentTips := sent.newDocumentTips ++ [(cid, .writer)] }
          exact hexit ▸ mergeWriters_kept s change

theorem foldlM_applySent_kept (entries : List (C × NodeData P)) :
    ∀ (s : Loader C P D A Q) (sent : SentChanges C D),
      Kept s (exitSent (entries.foldlM (applySent p) (s, sent))) := by
  induction entries with
  | nil => exact fun s _ => Kept.refl s
  | cons entry entries ih =>
      intro s sent
      have hstep := applySent_kept (p := p) s sent entry
      rw [List.foldlM_cons]
      cases happly : applySent p (s, sent) entry with
      | error s' =>
          rw [happly] at hstep
          exact hstep
      | ok result =>
          rw [happly] at hstep
          exact hstep.trans (ih result.1 result.2)

theorem applySent_missing {s s' : Loader C P D A Q}
    {sent sent' : SentChanges C D} {entry : C × NodeData P}
    (h : applySent p (s, sent) entry = .ok (s', sent')) :
    sent'.missingDocumentHashes = sent.missingDocumentHashes ++
      (if entry.2.change.isSome then [] else [entryTip entry]) := by
  obtain ⟨cid, kind, change⟩ := entry
  unfold applySent at h
  dsimp only at h
  split at h
  · cases h
    rfl
  · split at h
    · cases h
    · cases h
      exact (List.append_nil _).symm
  · cases hmerge : s.mergeReaders p _ with
    | error s₁ =>
        rw [hmerge] at h
        cases h
    | ok s₁ =>
        rw [hmerge] at h
        cases h
        exact (List.append_nil _).symm
  · cases hmerge : s.mergeWriters p _ with
    | error s₁ =>
        rw [hmerge] at h
        cases h
    | ok s₁ =>
        rw [hmerge] at h
        cases h
        exact (List.append_nil _).symm

/-- The entries without payload are fetched, in the order of the merge. -/
theorem foldlM_applySent_missing (entries : List (C × NodeData P)) :
    ∀ {s s' : Loader C P D A Q} {sent sent' : SentChanges C D},
      entries.foldlM (applySent p) (s, sent) = .ok (s', sent') →
      sent'.missingDocumentHashes = sent.missingDocumentHashes ++
        (entries.filter fun e => !e.2.change.isSome).map entryTip := by
  induction entries with
  | nil =>
      intro s s' sent sent' h
      cases h
      exact (List.append_nil _).symm
  | cons entry entries ih =>
      intro s s' sent sent' h
      rw [List.foldlM_cons] at h
      cases happly : applySent p (s, sent) entry with
      | error s₁ =>
          rw [happly] at h
          cases h
      | ok result =>
          obtain ⟨s₁, sent₁⟩ := result
          rw [happly] at h
          rw [ih h, applySent_missing happly, List.append_assoc]
          cases hchange : entry.2.change <;> simp [hchange]

end Sent

/-! ## What is served -/

variable [LinearOrder C] [Bot C] (p : Providers C P D A Q U K H)
  (store : Blockstore C)

/-- The tree can be merged: none of its new parts is deferred, the inline
changes apply, and the CIDs of the others parse. -/
def MergesTree (s : Loader C P D A Q) (changeId : Option C)
    (changes : ChangeTree C (NodeData P)) : Prop :=
  ∃ entries, s.newEntries changeId changes = some entries ∧
    (∃ result, entries.foldlM (applySent p)
      (s.noteReferenced changeId changes, ⟨s.document, [], []⟩) =
        .ok result) ∧
    ∀ e ∈ entries, e.2.change = none → p.parse e.1 = true

/-- There is no cached root yet, or it is another CID than the received root and
the walk finds it in the received tree. -/
def Subsumed (s : Loader C P D A Q) (received : C)
    (changes : ChangeTree C (NodeData P)) : Prop :=
  ∀ prior, s.lastSyncMessage.bind SyncMessage.changeId = some prior →
    prior ≠ ⊥ → prior ≠ received ∧
      Merkle.treeContainsCid (some received) (some changes) (some prior) = true

/-- The tree replaces the cached one. -/
def Replaces (s : Loader C P D A Q) (changeId : Option C)
    (changes : ChangeTree C (NodeData P)) : Prop :=
  s.MergesTree p changeId changes ∧
    ∃ received, changeId = some received ∧ received ≠ ⊥ ∧
      s.Subsumed received changes

section Refresh

variable {p} {s : Loader C P D A Q} {received : C}
  {changes : ChangeTree C (NodeData P)}

omit [LinearOrder C] [Bot C] in
theorem adoptReceived_serves {c : C} :
    (s.adoptReceived p received changes).Serves c ↔
      InTree (some received) changes c := by
  constructor
  · rintro ⟨message, tree, heq, htree, hc⟩
    cases heq
    cases htree
    exact hc
  · intro hc
    exact ⟨_, _, rfl, rfl, hc⟩

theorem refreshLastSyncMessageFromSync_of_subsumed (hreceived : received ≠ ⊥)
    (h : s.Subsumed received changes) :
    s.refreshLastSyncMessageFromSync p (some received) changes =
      s.adoptReceived p received changes := by
  unfold refreshLastSyncMessageFromSync
  dsimp only
  rw [if_neg hreceived]
  cases hprior : s.lastSyncMessage.bind SyncMessage.changeId with
  | none => rfl
  | some prior =>
      dsimp only
      by_cases hempty : prior = ⊥
      · rw [if_pos hempty]
      · obtain ⟨hne, hcontains⟩ := h prior hprior hempty
        rw [if_neg hempty, if_neg hne, if_pos hcontains]

theorem refreshLastSyncMessageFromSync_of_not_subsumed {changeId : Option C}
    (h : ∀ received, changeId = some received → received ≠ ⊥ →
      ¬s.Subsumed received changes) :
    s.refreshLastSyncMessageFromSync p changeId changes = s := by
  unfold refreshLastSyncMessageFromSync
  cases changeId with
  | none => rfl
  | some received =>
      dsimp only
      by_cases hreceived : received = ⊥
      · rw [if_pos hreceived]
      · have hnot := h received rfl hreceived
        rw [if_neg hreceived]
        cases hprior : s.lastSyncMessage.bind SyncMessage.changeId with
        | none =>
            refine absurd ?_ hnot
            intro prior heq
            cases hprior.symm.trans heq
        | some prior =>
            dsimp only
            have hdecide : ¬(prior ≠ ⊥ → prior ≠ received ∧
                Merkle.treeContainsCid (some received) (some changes)
                  (some prior) = true) := by
              intro hsub
              apply hnot
              intro prior' heq
              cases hprior.symm.trans heq
              exact hsub
            by_cases hempty : prior = ⊥
            · exact absurd (absurd hempty) hdecide
            · rw [if_neg hempty]
              by_cases hne : prior = received
              · rw [if_pos hne]
              · rw [if_neg hne, if_neg fun hc => hdecide fun _ => ⟨hne, hc⟩]

end Refresh

omit [Bot C] in
theorem fetchMissing_kept (s : Loader C P D A Q)
    (missing : List (RecentTip C)) :
    Kept s (exitState (s.fetchMissing p store missing)) := by
  unfold fetchMissing
  dsimp only
  split
  · exact foldl_landBlock_kept _ s
  · exact foldl_landBlock_kept _ s

variable {p}

/-- `_syncDocumentChanges` in terms of the entries to merge. -/
theorem syncDocumentChanges_eq (s : Loader C P D A Q) (changeId : Option C)
    (changes : ChangeTree C (NodeData P)) :
    s.syncDocumentChanges p store changeId changes =
      match s.newEntries changeId changes with
      | none => .error (s.noteReferenced changeId changes)
      | some entries =>
          (entries.foldlM (applySent p)
            (s.noteReferenced changeId changes, ⟨s.document, [], []⟩)).bind
            fun result =>
              ((result.1.finishSent result.2).fetchMissing p store
                result.2.missingDocumentHashes).map
                fun s => s.refreshLastSyncMessageFromSync p changeId changes :=
  rfl

section Steps

variable {s : Loader C P D A Q} {changeId : Option C}
  {changes : ChangeTree C (NodeData P)}

omit [LinearOrder C] [Bot C] in
/-- Whether the fetches for the entries without payload are all started. -/
theorem all_missing_parse_iff {s s₁ : Loader C P D A Q}
    {sent : SentChanges C D} {entries : List (C × NodeData P)}
    (happlied : entries.foldlM (applySent p) (s, ⟨s.document, [], []⟩) =
      .ok (s₁, sent)) :
    (sent.missingDocumentHashes.all fun e => p.parse e.1) = true ↔
      ∀ e ∈ entries, e.2.change = none → p.parse e.1 = true := by
  rw [foldlM_applySent_missing entries happlied, List.nil_append, all_parse_iff]
  constructor
  · intro h e he hbare
    exact h e (List.mem_filter.2 ⟨he, by rw [hbare]; rfl⟩)
  · intro h e he
    obtain ⟨hmem, hbare⟩ := List.mem_filter.1 he
    exact h e hmem (by simpa using hbare)

/-- A tree that can be merged is offered to the cached message. -/
theorem syncDocumentChanges_of_merges (h : s.MergesTree p changeId changes) :
    ∃ s₁, Kept (s.noteReferenced changeId changes) s₁ ∧
      s.syncDocumentChanges p store changeId changes =
        .ok (s₁.refreshLastSyncMessageFromSync p changeId changes) := by
  obtain ⟨entries, hentries, ⟨⟨s₁, sent⟩, happlied⟩, hparse⟩ := h
  have hkept := foldlM_applySent_kept (p := p) entries
    (s.noteReferenced changeId changes) ⟨s.document, [], []⟩
  have hall := (all_missing_parse_iff happlied).2 hparse
  have hfetched := fetchMissing_kept p store
    (s₁.finishSent sent) sent.missingDocumentHashes
  rw [happlied] at hkept
  refine ⟨_, hkept.trans ((finishSent_kept s₁ sent).trans hfetched), ?_⟩
  rw [syncDocumentChanges_eq store, hentries]
  dsimp only
  rw [happlied]
  unfold fetchMissing
  dsimp only [Except.bind]
  rw [if_pos hall]
  rfl

/-- A tree that cannot be merged leaves the cached message as it is. -/
theorem syncDocumentChanges_of_not_merges
    (h : ¬s.MergesTree p changeId changes) :
    Kept (s.noteReferenced changeId changes)
      (exitState (s.syncDocumentChanges p store changeId changes)) := by
  rw [syncDocumentChanges_eq store]
  cases hentries : s.newEntries changeId changes with
  | none => exact Kept.refl _
  | some entries =>
      have hkept := foldlM_applySent_kept (p := p) entries
        (s.noteReferenced changeId changes) ⟨s.document, [], []⟩
      dsimp only
      cases happlied : entries.foldlM (applySent p)
          (s.noteReferenced changeId changes, ⟨s.document, [], []⟩) with
      | error s₁ =>
          rw [happlied] at hkept
          exact hkept
      | ok result =>
          obtain ⟨s₁, sent⟩ := result
          rw [happlied] at hkept
          have hthrows : ¬(sent.missingDocumentHashes.all fun e =>
              p.parse e.1) = true := fun hall =>
            h ⟨entries, hentries, ⟨_, happlied⟩,
              (all_missing_parse_iff happlied).1 hall⟩
          have hfetched := fetchMissing_kept p store
            (s₁.finishSent sent) sent.missingDocumentHashes
          refine hkept.trans ((finishSent_kept s₁ sent).trans ?_)
          unfold fetchMissing at hfetched ⊢
          dsimp only [Except.bind] at hfetched ⊢
          rw [if_neg hthrows] at hfetched ⊢
          exact hfetched

end Steps

/-- What is served after a tree was received. -/
theorem syncDocumentChanges_serves_iff (s : Loader C P D A Q)
    (changeId : Option C) (changes : ChangeTree C (NodeData P)) (c : C) :
    (exitState (s.syncDocumentChanges p store changeId changes)).Serves c ↔
      s.Replaces p changeId changes ∧ InTree changeId changes c ∨
        ¬s.Replaces p changeId changes ∧ s.Serves c := by
  have hnoted : (s.noteReferenced changeId changes).Serves c ↔ s.Serves c :=
    Iff.rfl
  by_cases hmerges : s.MergesTree p changeId changes
  · obtain ⟨s₁, hkept, hsync⟩ :=
      syncDocumentChanges_of_merges store hmerges
    have hsame : ∀ received, s₁.Subsumed received changes ↔
        s.Subsumed received changes := by
      intro received
      unfold Subsumed
      rw [hkept.lastSyncMessage]
      rfl
    rw [hsync, exitState]
    by_cases hsubsumed : ∃ received, changeId = some received ∧
        received ≠ ⊥ ∧ s.Subsumed received changes
    · have hreplaces : s.Replaces p changeId changes := ⟨hmerges, hsubsumed⟩
      obtain ⟨received, rfl, hreceived, hsub⟩ := hsubsumed
      rw [refreshLastSyncMessageFromSync_of_subsumed hreceived
        ((hsame received).2 hsub), adoptReceived_serves,
        or_iff_left fun h => h.1 hreplaces, and_iff_right hreplaces]
    · have hnot : ¬s.Replaces p changeId changes := fun h => hsubsumed h.2
      have hrefresh : s₁.refreshLastSyncMessageFromSync p changeId changes =
          s₁ := by
        apply refreshLastSyncMessageFromSync_of_not_subsumed
        intro received heq hreceived hsub
        exact hsubsumed ⟨received, heq, hreceived, (hsame received).1 hsub⟩
      rw [hrefresh, hkept.serves_iff, or_iff_right fun h => hnot h.1,
        and_iff_right hnot]
      exact hnoted
  · have hnot : ¬s.Replaces p changeId changes := fun h => hmerges h.1
    rw [(syncDocumentChanges_of_not_merges store hmerges).serves_iff,
      or_iff_right fun h => hnot h.1, and_iff_right hnot]
    exact hnoted

/-- The served tree keeps all its CIDs if and only if a tree that replaces it
contains them. -/
theorem served_coverage_kept_iff (s : Loader C P D A Q) (changeId : Option C)
    (changes : ChangeTree C (NodeData P)) :
    (∀ c, s.Serves c → (exitState
      (s.syncDocumentChanges p store changeId changes)).Serves c) ↔
    (s.Replaces p changeId changes →
      ∀ c, s.Serves c → InTree changeId changes c) := by
  simp only [syncDocumentChanges_serves_iff store]
  constructor
  · intro h hreplaces c hc
    exact ((h c hc).resolve_right fun hnot => hnot.1 hreplaces).2
  · intro h c hc
    by_cases hreplaces : s.Replaces p changeId changes
    · exact Or.inl ⟨hreplaces, h hreplaces c hc⟩
    · exact Or.inr ⟨hreplaces, hc⟩

omit [LinearOrder C] [Bot C] in
/-- A tree that contains the served tree under its root CID contains all that
is served. -/
theorem serves_inTree_of_embedded {s : Loader C P D A Q} {received : C}
    {changes : ChangeTree C (NodeData P)}
    (h : ∀ message served, s.lastSyncMessage = some message →
      message.changes = some served →
      ∃ cid n, message.changeId = some cid ∧
        Occurs changes.entries cid n ∧ n.entries = served.entries) :
    ∀ c, s.Serves c → InTree (some received) changes c := by
  rintro c ⟨message, served, hmessage, hserved, hc⟩
  obtain ⟨cid, n, hcid, hoccurs, hentries⟩ :=
    h message served hmessage hserved
  rcases hc with hroot | ⟨m, hm⟩
  · cases hcid.symm.trans hroot
    exact Or.inr ⟨n, hoccurs⟩
  · rw [← hentries] at hm
    exact Or.inr ⟨m, hoccurs.below hm⟩

/-- Change `4` over change `3` of the same writer, with a cross-link to
change `2`. -/
def crossLinked : ChangeTree ℕ (NodeData (List ℕ)) :=
  .node ⟨.document, some [4]⟩ (.present
    (.cons 3 (.node ⟨.document, some [3]⟩ .absent)
    (.cons 2 (.node ⟨.document, none⟩ .absent) .nil)))

/-- A document that serves change `2` over change `1` replaces the tree by one
that links to change `2` only, and no longer serves change `1`. -/
theorem served_coverage_shrinks :
    let p := setProviders true fun _ => none
    let store := setStore fun _ => 7
    let s := exitState
      (emptyLoader.syncDocumentChanges p store (some 2) twoInline)
    let s' := exitState
      (s.syncDocumentChanges p store (some 4) crossLinked)
    (∀ e ∈ crossLinked.occurrences 4, e.2.children ≠ .deferred) ∧
      s.Serves 1 ∧ ¬s'.Serves 1 ∧ ¬∀ c, s.Serves c → s'.Serves c := by
  intro p store s s'
  have hserved : s.Serves 1 :=
    ⟨_, _, rfl, rfl, mem_collectTreeCIDs.1 (by decide)⟩
  have hlost : ¬s'.Serves 1 := by
    rintro ⟨message, changes, hmessage, hchanges, hc⟩
    cases hmessage
    cases hchanges
    exact absurd (mem_collectTreeCIDs.2 hc) (by decide)
  refine ⟨?_, hserved, hlost, fun h => hlost (h 1 hserved)⟩
  simp [crossLinked, ChildEntries.occurrences, ChangeTree.occurrences,
    ChildMap.occurrences, ChangeTree.children]

end Collabswarm.Load.Loader
