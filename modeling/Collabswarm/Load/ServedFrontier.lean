import Collabswarm.Load.Landing
import Collabswarm.Merkle.CidWalkers
import Collabswarm.Merkle.MergeExact

/-!
# The served frontier and the frontier of an empty loader

`computeServedFrontier` scans a tree with a set of visited CIDs, and the loader
merges it with another rule: a CID that was met without children is walked when
it comes with children.  The frontier that is computed is the one the loader
ends with exactly if the scan exposes what the merge exposes, besides the root
and the boundary of the snapshot.
-/

namespace Collabswarm.Merkle

open FieldOrder (touch)

variable {C L P : Type}

/-- A walk with these marks visits an entry of the CID. -/
def Exposes (opens : ChangeTree C L → Bool) (marked : Finset C)
    (forest : List (Entry C L)) (c : C) : Prop :=
  ∃ E, Leading opens marked forest E ∧
    ∃ q n, Exposed E q ∧ entryAt forest q = some (c, n)

/-- Nothing is deferred, from the list of all entries. -/
theorem inline_of_occurrences {rootId : C} {root : ChangeTree C L}
    (h : ∀ e ∈ root.occurrences rootId, e.2.children ≠ .deferred) :
    ∀ c n, Occurs (rootEntry rootId root) c n → n.children ≠ .deferred := by
  intro c n hoccurs
  apply h (c, n)
  rw [ChangeTree.mem_occurrences]
  exact (occurs_cons_iff.1 hoccurs).imp_right fun h =>
    h.resolve_right occurs_nil_iff.1

variable [DecidableEq C]

theorem exposes_iff {opens : ChangeTree C L → Bool} {marked : Finset C}
    {entries : ChildEntries C L} {c : C} :
    Exposes opens marked entries.toList c ↔
      ∃ e ∈ (visitEntries opens marked entries).2, e.1 = c := by
  constructor
  · rintro ⟨E, hE, q, n, hexposed, hentry⟩
    have hvisited := (walked_visitEntries entries marked E hE).visited
    exact ⟨(c, n), (hvisited _).2 ⟨q, hexposed, hentry⟩, rfl⟩
  · rintro ⟨e, he, rfl⟩
    obtain ⟨E, hE⟩ := exists_leading opens entries marked
    have hvisited := (walked_visitEntries entries marked E hE).visited
    obtain ⟨q, hexposed, hentry⟩ := (hvisited e).1 he
    exact ⟨E, hE, q, e.2, hexposed, hentry⟩

/-- The CID is the key of an entry that the scan of a tree visits. -/
abbrev ScanExposes (rootId : C) (root : ChangeTree C L) (c : C) : Prop :=
  Exposes (fun _ => true) {rootId} root.entries c

theorem scanExposes_iff {rootId : C} {root : ChangeTree C L} {c : C} :
    ScanExposes rootId root c ↔
      ∃ e ∈ scanVisits (some rootId) root, e.1 = c :=
  exposes_iff

/-- The CID is the root or the key of an entry that the merge of a tree
visits. -/
abbrev MergeExposes (known : Finset C) (rootId : C) (root : ChangeTree C L)
    (c : C) : Prop :=
  Exposes hasMap known (rootEntry rootId root) c

theorem mem_collectReferencedAncestors {rootId c : C} {root : ChangeTree C L}
    {out : List C} :
    c ∈ collectReferencedAncestors (some rootId) root out ↔
      c ∈ out ∨ ScanExposes rootId root c := by
  have hscan : collectReferencedAncestors (some rootId) root out =
      (scanVisits (some rootId) root).foldl (fun out e => touch out e.1)
        out := by
    rw [collectReferencedAncestors, scan_eq]
    · rfl
    · exact fun _ _ => rfl
  rw [hscan, mem_foldl_touch, scanExposes_iff]

/-- The boundary of a snapshot, unless it is empty. -/
def boundaryCids [Bot C] (boundary : Option C) : Finset C :=
  boundary.toFinset.filter (· ≠ ⊥)

theorem foldl_frontierScan (visits : List (Entry C L)) :
    ∀ s : FrontierScan C,
      visits.foldl (fun s e => (⟨touch s.cids e.1, touch s.referenced e.1⟩ :
          FrontierScan C)) s =
        ⟨visits.foldl (fun cids e => touch cids e.1) s.cids,
          visits.foldl (fun cids e => touch cids e.1) s.referenced⟩ := by
  induction visits with
  | nil => exact fun _ => rfl
  | cons e visits ih =>
      intro s
      rw [List.foldl_cons, ih]
      rfl

/-- Only the root and the boundary can be in the served frontier. -/
theorem mem_computeServedFrontier [Bot C] {rootId c : C}
    {root : ChangeTree C L} {boundary : Option C} :
    c ∈ computeServedFrontier (some rootId) (some root) boundary ↔
      (c = rootId ∨ c ∈ boundaryCids boundary) ∧
        ¬ScanExposes rootId root c := by
  have hscan : scan
      (fun nodeId (s : FrontierScan C) =>
        { s with cids := touch s.cids nodeId })
      (fun childId s =>
        (⟨touch s.cids childId, touch s.referenced childId⟩ : FrontierScan C))
      (some rootId) root ⟨[], []⟩ =
      ⟨(scanVisits (some rootId) root).foldl (fun cids e => touch cids e.1)
          (touch [] rootId),
        (scanVisits (some rootId) root).foldl (fun cids e => touch cids e.1)
          []⟩ := by
    rw [scan_eq]
    · exact foldl_frontierScan _ _
    · intro cid s
      dsimp only
      rw [touch_touch]
  have hroot : c ∈ touch ([] : List C) rootId ↔ c = rootId := by
    rw [FieldOrder.mem_touch]
    simp
  have hfront : (c = rootId ∨ c ∈ boundaryCids boundary) ∧
        ¬ScanExposes rootId root c ↔
      ((c ∈ (scanVisits (some rootId) root).foldl
          (fun cids e => touch cids e.1) (touch [] rootId)) ∨
        c ∈ boundaryCids boundary) ∧
      c ∉ (scanVisits (some rootId) root).foldl
        (fun cids e => touch cids e.1) [] := by
    rw [mem_foldl_touch, mem_foldl_touch, ← scanExposes_iff]
    constructor
    · rintro ⟨hc, hnot⟩
      refine ⟨hc.imp_left fun h => Or.inl (hroot.2 h), ?_⟩
      rintro (hmem | hexposed)
      · cases hmem
      · exact hnot hexposed
    · rintro ⟨(hc | hexposed) | hboundary, hnot⟩
      · exact ⟨Or.inl (hroot.1 hc), fun h => hnot (Or.inr h)⟩
      · exact absurd (Or.inr hexposed) hnot
      · exact ⟨Or.inr hboundary, fun h => hnot (Or.inr h)⟩
  unfold computeServedFrontier
  dsimp only
  rw [List.mem_filter, decide_eq_true_iff, hscan, hfront]
  refine and_congr_left fun _ => ?_
  cases boundary with
  | none => simp [boundaryCids]
  | some cid =>
      by_cases hempty : cid = ⊥
      · simp [boundaryCids, hempty, Finset.filter_singleton]
      · simp [boundaryCids, hempty, Finset.filter_singleton,
          FieldOrder.mem_touch]

omit [DecidableEq C] in
theorem Exposes.occurs {opens : ChangeTree C L → Bool} {marked : Finset C}
    {forest : List (Entry C L)} {c : C} (h : Exposes opens marked forest c) :
    ∃ n, Occurs forest c n := by
  obtain ⟨E, -, q, n, -, hentry⟩ := h
  exact ⟨n, occurs_iff_entryAt.2 ⟨q, hentry⟩⟩

/-- A merge returns the CIDs that it exposes and does not know. -/
theorem mem_mergeRemoteSyncTree (localRootId : Option C)
    (localHashes : Finset C) {rootId : C} {root : ChangeTree C (NodeData P)}
    (hinline : ∀ c n, Occurs (rootEntry rootId root) c n →
      n.children ≠ .deferred) :
    ∃ entries, mergeRemoteSyncTree localRootId localHashes (some rootId) root =
        some entries ∧
      ∀ c, c ∈ entries.map Prod.fst ↔
        c ∉ knownCids localRootId localHashes ∧
          MergeExposes (knownCids localRootId localHashes) rootId root c := by
  obtain ⟨entries, byCid, visits, E, hentries, hget, -, hrecorded, hE,
    hvisits⟩ := mergeRemoteSyncTree_visits localRootId localHashes hinline
  refine ⟨entries, hentries, fun c => ?_⟩
  constructor
  · intro hc
    obtain ⟨⟨c, d⟩, hd, rfl⟩ := List.mem_map.1 hc
    obtain ⟨hnew, ⟨n, hn, -⟩, -⟩ := (hrecorded c).1 d ((hget c d).1 hd)
    obtain ⟨q, hexposed, hentry⟩ := (hvisits _).1 hn
    exact ⟨hnew, E, hE, q, n, hexposed, hentry⟩
  · rintro ⟨hnew, hexposes⟩
    -- any set of leading positions has the same exposed entries
    obtain ⟨e, he, rfl⟩ := (@exposes_iff _ _ _ _ _
      (.cons rootId root .nil) c).1 hexposes
    have hwalked := walked_visitEntries (.cons rootId root .nil) _ E hE
    have hmem : (e.1, e.2) ∈ visits :=
      (hvisits e).2 ((hwalked.visited e).1 he)
    cases hd : byCid.get? e.1 with
    | none => exact absurd hmem ((hrecorded e.1).2 hd hnew e.2)
    | some d => exact List.mem_map_of_mem ((hget e.1 d).2 hd)

end Collabswarm.Merkle

namespace Collabswarm.Load.Loader

open Merkle

variable {C P D A Q U K H : Type} [LinearOrder C] [Bot C]
  {p : Providers C P D A Q U K H} {store : Blockstore C}

/-- `_currentFrontier`. -/
def currentFrontier (s : Loader C P D A Q) : Finset C :=
  s.hashes.filter (· ∉ s.referencedAncestors)

/-- A document that has seen nothing. -/
structure IsEmpty (s : Loader C P D A Q) : Prop where
  hashes : s.hashes = ∅
  referencedAncestors : s.referencedAncestors = []
  lastSyncMessage : s.lastSyncMessage = none

/-- The blocks of a tree can be fetched and read with a keychain, and what is
read can be applied. -/
structure FetchesSucceed (p : Providers C P D A Q U K H)
    (store : Blockstore C) (keychain : Q) (rootId : C)
    (root : ChangeTree C (NodeData P)) : Prop extends AppliesAll p where
  parse : ∀ c n, Occurs (rootEntry rootId root) c n → p.parse c = true
  block : ∀ c n, Occurs (rootEntry rootId root) c n →
    (getBlock p store keychain c).isSome

/-- The boundary of a snapshot is seen. -/
def seeBoundary (s : Loader C P D A Q) (boundary : Option C) :
    Loader C P D A Q :=
  { s with hashes := s.hashes ∪ boundaryCids boundary }

/-- `computeServedFrontier` returns what a document ends with that processes
the tree behind the boundary, for any order of keys. -/
structure FrontierAgrees (p : Providers C P D A Q U K H)
    (store : Blockstore C) (s : Loader C P D A Q) (rootId : C)
    (root : ChangeTree C (NodeData P)) (boundary : Option C) : Prop where
  applied : ∃ s', (s.seeBoundary boundary).syncDocumentChanges p store
      (some rootId) root = .ok s' ∧
    ∀ c, c ∈ computeServedFrontier (some rootId) (some root) boundary ↔
      c ∈ s'.currentFrontier
  reordered : ∀ root', SameTree root root' → ∀ c,
    c ∈ computeServedFrontier (some rootId) (some root') boundary ↔
      c ∈ computeServedFrontier (some rootId) (some root) boundary

/-- The scan of a tree exposes what its merge exposes, besides the root and the
boundary, and whether it exposes these two does not depend on the order of
keys. -/
structure ScanExposesMerge (rootId : C) (root : ChangeTree C (NodeData P))
    (boundary : Option C) : Prop where
  exposed : ∀ c, MergeExposes (boundaryCids boundary) rootId root c →
    c = rootId ∨ c ∈ boundaryCids boundary ∨ ScanExposes rootId root c
  reordered : ∀ root', SameTree root root' →
    ∀ c, c = rootId ∨ c ∈ boundaryCids boundary →
      (ScanExposes rootId root' c ↔ ScanExposes rootId root c)

omit [LinearOrder C] [Bot C] in
/-- The CIDs that were applied or are missing are those of the entries. -/
theorem mem_cids_of_tips {sent : SentChanges C D}
    {entries : List (C × NodeData P)}
    (htips : ∀ tip, (tip ∈ sent.newDocumentTips ∨
        tip ∈ sent.missingDocumentHashes) ↔ tip ∈ entries.map entryTip)
    (c : C) :
    (c ∈ sent.newDocumentTips.map Prod.fst ∨
        c ∈ sent.missingDocumentHashes.map Prod.fst) ↔
      c ∈ entries.map Prod.fst := by
  rw [← List.mem_append, ← List.map_append]
  constructor
  · intro hc
    obtain ⟨tip, htip, rfl⟩ := List.mem_map.1 hc
    obtain ⟨entry, hentry, rfl⟩ := List.mem_map.1
      ((htips tip).1 (List.mem_append.1 htip))
    exact List.mem_map_of_mem hentry
  · intro hc
    obtain ⟨entry, hentry, rfl⟩ := List.mem_map.1 hc
    have htip := (htips (entryTip entry)).2 (List.mem_map_of_mem hentry)
    exact List.mem_map_of_mem (List.mem_append.2 htip)

/-- A merge whose entries all land adds their CIDs. -/
theorem syncDocumentChanges_of_succeed {s : Loader C P D A Q} {rootId : C}
    {root : ChangeTree C (NodeData P)}
    (hfetches : FetchesSucceed p store s.keychain rootId root)
    (hinline : ∀ c n, Occurs (rootEntry rootId root) c n →
      n.children ≠ .deferred) :
    ∃ s', s.syncDocumentChanges p store (some rootId) root = .ok s' ∧
      s'.referencedAncestors =
        collectReferencedAncestors (some rootId) root s.referencedAncestors ∧
      ∀ c, c ∈ s'.hashes ↔ c ∈ s.hashes ∨
        c ∉ knownCids (s.lastSyncMessage.bind SyncMessage.changeId) s.hashes ∧
          MergeExposes (knownCids (s.lastSyncMessage.bind
            SyncMessage.changeId) s.hashes) rootId root c := by
  obtain ⟨entries, hentries, hcids⟩ := mem_mergeRemoteSyncTree
    (s.lastSyncMessage.bind SyncMessage.changeId) s.hashes hinline
  have hoccurs : ∀ c, c ∈ entries.map Prod.fst →
      ∃ n, Occurs (rootEntry rootId root) c n :=
    fun c hc => ((hcids c).1 hc).2.occurs
  let start := { s with
    referencedAncestors := collectReferencedAncestors (some rootId) root
      s.referencedAncestors }
  obtain ⟨s₁, sent, hsent, hkept₁, hhashes₁, hmem⟩ :=
    foldlM_applySent_of_applies hfetches.toAppliesAll entries start
      ⟨s.document, [], []⟩
  have htips : ∀ tip, (tip ∈ sent.newDocumentTips ∨
      tip ∈ sent.missingDocumentHashes) ↔ tip ∈ entries.map entryTip := by
    simpa using hmem
  have hkept₂ := hkept₁.trans (finishSent_kept s₁ sent)
  have hmissing : ∀ tip ∈ sent.missingDocumentHashes,
      ∃ n, Occurs (rootEntry rootId root) tip.1 n := by
    intro tip htip
    obtain ⟨entry, hentry, rfl⟩ := List.mem_map.1
      ((htips tip).1 (Or.inr htip))
    exact hoccurs _ (List.mem_map_of_mem hentry)
  obtain ⟨s₂, hs₂, hkept₃, hhashes₂⟩ := fetchMissing_of_succeed p store
    (s₁.finishSent sent) (fun tip htip => (hmissing tip htip).elim (hfetches.parse _))
    (by
      intro s' hs' tip htip
      obtain ⟨n, hn⟩ := hmissing tip htip
      obtain ⟨changes, hchanges⟩ := Option.isSome_iff_exists.1
        (hfetches.block _ n hn)
      have hkeychain : s'.keychain = s.keychain :=
        hs'.trans hkept₂.keychain
      rw [lands, hkeychain, hchanges, Option.any_some]
      exact hfetches.applies s' _ _)
  obtain ⟨message, hmessage⟩ :=
    refreshLastSyncMessageFromSync_eq p s₂ (some rootId) root
  refine ⟨s₂.refreshLastSyncMessageFromSync p (some rootId) root, ?_, ?_, ?_⟩
  · unfold syncDocumentChanges
    dsimp only
    rw [hentries]
    dsimp only
    rw [hsent]
    change Except.map _ _ = _
    rw [hs₂]
    rfl
  · rw [hmessage]
    exact (hkept₂.trans hkept₃).referencedAncestors
  · intro c
    rw [hmessage, ← hcids]
    dsimp only
    rw [hhashes₂, hashes_finishSent, hhashes₁, Finset.mem_union,
      List.mem_toFinset, or_assoc]
    exact or_congr_right (mem_cids_of_tips htips c)

/-- The frontier of an empty document after a tree behind a boundary. -/
theorem mem_currentFrontier_of_succeed {s : Loader C P D A Q}
    (hempty : s.IsEmpty) {rootId : C} {root : ChangeTree C (NodeData P)}
    (boundary : Option C)
    (hfetches : FetchesSucceed p store s.keychain rootId root)
    (hinline : ∀ c n, Occurs (rootEntry rootId root) c n →
      n.children ≠ .deferred) :
    ∃ s', (s.seeBoundary boundary).syncDocumentChanges p store (some rootId)
        root = .ok s' ∧
      ∀ c, c ∈ s'.currentFrontier ↔
        (c ∈ boundaryCids boundary ∨
          MergeExposes (boundaryCids boundary) rootId root c) ∧
          ¬ScanExposes rootId root c := by
  obtain ⟨s', hs', hreferenced, hhashes⟩ := syncDocumentChanges_of_succeed
    (s := s.seeBoundary boundary) hfetches hinline
  have hknown : knownCids
      ((s.seeBoundary boundary).lastSyncMessage.bind SyncMessage.changeId)
      (s.seeBoundary boundary).hashes = boundaryCids boundary := by
    simp [seeBoundary, hempty.lastSyncMessage, hempty.hashes, knownCids]
  refine ⟨s', hs', fun c => ?_⟩
  rw [currentFrontier, Finset.mem_filter, hhashes, hknown, hreferenced]
  simp only [seeBoundary, hempty.hashes, hempty.referencedAncestors,
    Finset.empty_union, mem_collectReferencedAncestors, List.not_mem_nil,
    false_or]
  apply and_congr_left
  intro _
  by_cases hc : c ∈ boundaryCids boundary
  · exact iff_of_true (Or.inl hc) (Or.inl hc)
  · rw [and_iff_right hc]

omit [Bot C] in
theorem mergeExposes_root {known : Finset C} {rootId : C}
    {root : ChangeTree C (NodeData P)} :
    MergeExposes known rootId root rootId := by
  obtain ⟨E, hE⟩ := exists_leading hasMap
    (.cons rootId root .nil : ChildEntries C (NodeData P)) known
  exact ⟨E, hE, [0], root, exposed_singleton 0, rfl⟩

/-- The served frontier is the one an empty document ends with, for any order
of keys, if and only if the scan exposes what the merge exposes. -/
theorem frontierAgrees_iff (s : Loader C P D A Q) (hempty : s.IsEmpty)
    (rootId : C) (root : ChangeTree C (NodeData P)) (boundary : Option C)
    (hinline : ∀ c n, Occurs (rootEntry rootId root) c n →
      n.children ≠ .deferred)
    (hfetches : FetchesSucceed p store s.keychain rootId root) :
    FrontierAgrees p store s rootId root boundary ↔
      ScanExposesMerge rootId root boundary := by
  obtain ⟨s', hs', hfrontier⟩ :=
    mem_currentFrontier_of_succeed hempty boundary hfetches hinline
  constructor
  · rintro ⟨⟨s'', hs'', hagrees⟩, hreordered⟩
    cases hs'.symm.trans hs''
    constructor
    · intro c hmerge
      by_cases hscan : ScanExposes rootId root c
      · exact Or.inr (Or.inr hscan)
      · have hserved := (hagrees c).2 ((hfrontier c).2 ⟨Or.inr hmerge, hscan⟩)
        have hends := (mem_computeServedFrontier.1 hserved).1
        exact hends.imp_right Or.inl
    · intro root' hsame c hends
      have hserved := hreordered root' hsame c
      rw [mem_computeServedFrontier, mem_computeServedFrontier,
        and_iff_right hends, and_iff_right hends] at hserved
      exact not_iff_not.1 hserved
  · rintro ⟨hexposed, hreordered⟩
    constructor
    · refine ⟨s', hs', fun c => ?_⟩
      rw [mem_computeServedFrontier, hfrontier]
      apply and_congr_left
      intro hscan
      constructor
      · rintro (rfl | hboundary)
        · exact Or.inr mergeExposes_root
        · exact Or.inl hboundary
      · rintro (hboundary | hmerge)
        · exact Or.inr hboundary
        · exact (hexposed c hmerge).imp_right fun h => h.resolve_right hscan
    · intro root' hsame c
      rw [mem_computeServedFrontier, mem_computeServedFrontier]
      apply and_congr_right
      intro hends
      exact not_congr (hreordered root' hsame c hends)

/-- Change `2` over change `1`. -/
def twoInline : ChangeTree ℕ (NodeData (List ℕ)) :=
  .node ⟨.document, some [2]⟩ (.present
    (.cons 1 (.node ⟨.document, some [1]⟩ .absent) .nil))

theorem setProviders_fetchesSucceed {rootId : ℕ}
    {root : ChangeTree ℕ (NodeData (List ℕ))} :
    FetchesSucceed (setProviders true fun _ => none) (setStore fun _ => 7) ()
      rootId root :=
  { remoteChange := fun _ _ => rfl
    mergeACL := fun _ _ => rfl
    parse := fun _ _ _ => rfl
    block := fun _ _ _ => rfl }

theorem emptyLoader_isEmpty : emptyLoader.IsEmpty := ⟨rfl, rfl, rfl⟩

theorem frontierAgrees_twoInline :
    FrontierAgrees (setProviders true fun _ => none) (setStore fun _ => 7)
        emptyLoader 2 twoInline (some 1) ↔
      ScanExposesMerge 2 twoInline (some 1) := by
  refine frontierAgrees_iff emptyLoader emptyLoader_isEmpty 2 twoInline
    (some 1) (inline_of_occurrences ?_) setProviders_fetchesSucceed
  simp [twoInline, ChildEntries.occurrences, ChangeTree.occurrences,
    ChildMap.occurrences, ChangeTree.children]

/-- Change `5` over a cross-link to change `1`, and over change `2`, below
which change `1` comes with its parent `3`. -/
def relinkedInline : ChangeTree ℕ (NodeData (List ℕ)) :=
  .node ⟨.document, some [5]⟩ (.present
    (.cons 1 (.node ⟨.document, none⟩ .absent)
    (.cons 2 (.node ⟨.document, some [2]⟩ (.present
      (.cons 1 (.node ⟨.document, some [1]⟩ (.present
        (.cons 3 (.node ⟨.document, some [3]⟩ .absent) .nil))) .nil))) .nil)))

/-- An empty document ends with the frontier `5` and `3`, and the scan returns
`5` alone. -/
theorem relinkedInline_disagrees :
    computeServedFrontier (some 5) (some relinkedInline) none = [5] ∧
    (∃ s', (emptyLoader.seeBoundary none).syncDocumentChanges
        (setProviders true fun _ => none) (setStore fun _ => 7) (some 5)
        relinkedInline = .ok s' ∧ s'.currentFrontier = {5, 3}) ∧
    ¬FrontierAgrees (setProviders true fun _ => none) (setStore fun _ => 7)
      emptyLoader 5 relinkedInline none := by
  have hserved : computeServedFrontier (some 5) (some relinkedInline) none =
      [5] := by decide
  have hends : ∃ s', (emptyLoader.seeBoundary none).syncDocumentChanges
      (setProviders true fun _ => none) (setStore fun _ => 7) (some 5)
      relinkedInline = .ok s' ∧ s'.currentFrontier = {5, 3} :=
    ⟨_, rfl, by decide⟩
  refine ⟨hserved, hends, ?_⟩
  rintro ⟨⟨s', hs', hagrees⟩, -⟩
  obtain ⟨s'', hs'', hfrontier⟩ := hends
  cases hs''.symm.trans hs'
  have hthree := (hagrees 3).2 (by rw [hfrontier]; decide)
  rw [hserved] at hthree
  exact absurd hthree (by decide)

end Collabswarm.Load.Loader
