import Collabswarm.Load.ChangeCounter

/-!
# Every document change is counted once

A step of a document records changes: it adds their CIDs and counts them.  It
keeps the counter equal to the number of CIDs exactly if it adds as many new
CIDs as it counts, and no later step makes up for one that does not.
-/

namespace Collabswarm.Load

open Document (RecentTip)
open Merkle (ChangeTree NodeData)

/-! ## What a step records -/

/-- The call has added its CID to `_hashes` and not counted it yet. -/
def SyncCall.isAnnounced {C P : Type} : SyncCall C P → Bool
  | .signing _ => true
  | .publishing => true
  | _ => false

/-- The entries to merge have different CIDs. -/
def SyncCall.Distinct {C P : Type} : SyncCall C P → Prop
  | .merging _ _ newChangeEntries => (newChangeEntries.map Prod.fst).Nodup
  | _ => True

namespace ConcurrentDocument

open Loader (applySent countedCids SameChanges)

variable {C P D A Q U K H : Type}

/-- The local changes that are in `_hashes` and not counted yet. -/
def announced (d : ConcurrentDocument C P D A Q) : ℕ :=
  d.calls.countP SyncCall.isAnnounced

variable [LinearOrder C]

/-- A step that counts `counted` changes, or has them counted later, and adds
the CIDs `added`. -/
structure Records (d d' : ConcurrentDocument C P D A Q) (counted : ℕ)
    (added : List C) : Prop where
  applied : d'.applied = d.applied ∪ added.toFinset
  hashes : ∀ c, c ∈ d.loader.hashes ∨ c ∈ added → c ∈ d'.loader.hashes
  count : d'.loader.documentChangeCount + d'.announced =
    d.loader.documentChangeCount + d.announced + counted
  distinct : ∀ call ∈ d'.calls, call ∈ d.calls ∨ call.Distinct
  nodup : added.Nodup
  length : added.length ≤ counted

section Shapes

variable {d d' : ConcurrentDocument C P D A Q}

theorem records_of_same (hloader : SameChanges d.loader d'.loader)
    (happlied : d'.applied = d.applied) (hcalls : d'.calls = d.calls) :
    Records d d' 0 [] where
  applied := by rw [happlied, List.toFinset_nil, Finset.union_empty]
  hashes := by
    intro c hc
    rw [hloader.hashes]
    exact hc.resolve_right (List.not_mem_nil)
  count := by
    rw [hloader.documentChangeCount, announced, hcalls]
    rfl
  distinct := by
    intro call hcall
    exact Or.inl (hcalls ▸ hcall)
  nodup := List.nodup_nil
  length := le_rfl

/-- A call that has added no CID yet comes. -/
theorem records_append {call : SyncCall C P}
    (hloader : SameChanges d.loader d'.loader)
    (happlied : d'.applied = d.applied) (hcalls : d'.calls = d.calls ++ [call])
    (hannounced : call.isAnnounced = false) (hdistinct : call.Distinct) :
    Records d d' 0 [] where
  applied := by rw [happlied, List.toFinset_nil, Finset.union_empty]
  hashes := by
    intro c hc
    rw [hloader.hashes]
    exact hc.resolve_right (List.not_mem_nil)
  count := by
    rw [hloader.documentChangeCount, announced, announced, hcalls,
      List.countP_append, List.countP_singleton, hannounced]
    rfl
  distinct := by
    intro call' hcall'
    rw [hcalls] at hcall'
    rcases List.mem_append.1 hcall' with hold | hnew
    · exact Or.inl hold
    · rw [List.mem_singleton] at hnew
      exact Or.inr (hnew ▸ hdistinct)
  nodup := List.nodup_nil
  length := le_rfl

/-- A call goes on. -/
theorem records_set {i counted : ℕ} {call call' : SyncCall C P}
    {added : List C} (hcall : d.calls[i]? = some call)
    (hcalls : d'.calls = d.calls.set i call') (hdistinct : call'.Distinct)
    (happlied : d'.applied = d.applied ∪ added.toFinset)
    (hhashes : ∀ c, c ∈ d.loader.hashes ∨ c ∈ added → c ∈ d'.loader.hashes)
    (hcount : d'.loader.documentChangeCount +
        (if call'.isAnnounced then 1 else 0) =
      d.loader.documentChangeCount + (if call.isAnnounced then 1 else 0) +
        counted)
    (hnodup : added.Nodup) (hlength : added.length ≤ counted) :
    Records d d' counted added where
  applied := happlied
  hashes := hhashes
  count := by
    have hset := @countP_set_add _ _ call' _ _ SyncCall.isAnnounced hcall
    rw [announced, announced, hcalls]
    omega
  distinct := by
    intro call'' hcall''
    rw [hcalls] at hcall''
    rcases List.mem_or_eq_of_mem_set hcall'' with hold | hnew
    · exact Or.inl hold
    · exact Or.inr (hnew ▸ hdistinct)
  nodup := hnodup
  length := hlength

/-- A call goes on without a document change. -/
theorem records_set_same {i : ℕ} {call call' : SyncCall C P}
    (hcall : d.calls[i]? = some call)
    (hcalls : d'.calls = d.calls.set i call') (hdistinct : call'.Distinct)
    (happlied : d'.applied = d.applied)
    (hloader : SameChanges d.loader d'.loader)
    (hannounced : call'.isAnnounced = call.isAnnounced) :
    Records d d' 0 [] := by
  refine records_set hcall hcalls hdistinct ?_ ?_ ?_ List.nodup_nil le_rfl
  · rw [happlied, List.toFinset_nil, Finset.union_empty]
  · intro c hc
    rw [hloader.hashes]
    exact hc.resolve_right (List.not_mem_nil)
  · rw [hannounced, hloader.documentChangeCount]
    rfl

end Shapes

variable [Bot C] (p : Providers C P D A Q U K H)

/-! ## Which steps count once -/

/-- Of the entries that the call is about to apply, no document change was
applied before, and none stands before an entry that throws. -/
def EntriesCountOnce (d : ConcurrentDocument C P D A Q)
    (newChangeEntries : List (C × NodeData P)) : Prop :=
  (∀ result, newChangeEntries.foldlM (applySent p)
      (d.loader, ⟨d.loader.document, [], []⟩) = .ok result →
    ∀ c ∈ countedCids newChangeEntries, c ∉ d.applied) ∧
  ∀ before entry rest result failed,
    newChangeEntries = before ++ entry :: rest →
    before.foldlM (applySent p) (d.loader, ⟨d.loader.document, [], []⟩) =
      .ok result →
    applySent p result entry = .error failed → countedCids before = []

/-- The step applies no document change a second time, and it does not throw
behind one. -/
def CountsOnce (d : ConcurrentDocument C P D A Q) :
    ConcurrentEvent C P D → Prop
  | .resume i =>
      (∀ changeId changes newChangeEntries,
        d.calls[i]? = some (.merging changeId changes newChangeEntries) →
        d.EntriesCountOnce p newChangeEntries) ∧
      ∀ hash changes signature,
        d.calls[i]? = some (.storing hash changes signature) →
        hash ∉ d.applied
  | .arrive i k missingChanges =>
      ∀ changeId changes pending parses cid content,
        d.calls[i]? = some (.fetching changeId changes pending parses) →
        pending[k]? = some (cid, .document) → missingChanges = some content →
        (p.remoteChange d.loader.document content).isSome → cid ∉ d.applied
  | _ => True

/-- What a step records, and when it counts every change once. -/
def StepRecords (d d' : ConcurrentDocument C P D A Q) (once : Prop) : Prop :=
  ∃ counted added, Records d d' counted added ∧
    (once ↔ counted = added.length ∧ ∀ c ∈ added, c ∉ d.applied)

omit [Bot C] in
theorem StepRecords.of_none {d d' : ConcurrentDocument C P D A Q}
    {once : Prop} (h : Records d d' 0 []) (honce : once) :
    StepRecords d d' once :=
  ⟨0, [], h, iff_of_true honce ⟨rfl, by simp⟩⟩

omit [Bot C] in
theorem newEntries_nodup {s : Loader C P D A Q} {changeId : Option C}
    {changes : ChangeTree C (NodeData P)} {entries : List (C × NodeData P)}
    (h : s.newEntries changeId changes = some entries) :
    (entries.map Prod.fst).Nodup := by
  unfold Loader.newEntries Merkle.mergeRemoteSyncTree at h
  split at h
  · cases h
    exact List.nodup_nil
  · obtain ⟨w, -, rfl⟩ := Option.map_eq_some_iff.1 h
    exact w.byCid.nodup

omit [Bot C] in
theorem records_receive (d : ConcurrentDocument C P D A Q)
    (message : SyncMessage C P) : Records d (d.receive p message) 0 [] := by
  have hbefore : SameChanges d.loader (Loader.exitState
      ((d.loader.mergeKeychainChanges p message.keychainChanges).bind fun s =>
        message.changes.elim (.ok s) (s.applyACLFromTree p))) := by
    refine (Loader.mergeKeychainChanges_same _ _).bind fun s => ?_
    cases message.changes with
    | none => exact SameChanges.refl s
    | some changes => exact Loader.applyACLFromTree_same s changes
  unfold receive
  split
  · rename_i loader hloader
    rw [hloader] at hbefore
    exact records_of_same hbefore rfl rfl
  · rename_i loader hloader
    rw [hloader] at hbefore
    split
    · exact records_of_same hbefore rfl rfl
    · rename_i changes _
      have hnoted : SameChanges d.loader
          (loader.noteReferenced message.changeId changes) :=
        ⟨hbefore.hashes, hbefore.documentChangeCount⟩
      dsimp only
      split
      · exact records_of_same hnoted rfl rfl
      · rename_i entries hentries
        exact records_append hnoted rfl rfl rfl (newEntries_nodup hentries)

theorem refresh_same (s : Loader C P D A Q) (changeId : Option C)
    (changes : ChangeTree C (NodeData P)) :
    SameChanges s (s.refreshLastSyncMessageFromSync p changeId changes) := by
  obtain ⟨message, hmessage⟩ :=
    Loader.refreshLastSyncMessageFromSync_eq p s changeId changes
  rw [hmessage]
  exact ⟨rfl, rfl⟩

/-- A call that starts its fetches becomes one that has announced nothing. -/
theorem startFetches_cases (d : ConcurrentDocument C P D A Q) (i : ℕ)
    (changeId : Option C) (changes : ChangeTree C (NodeData P))
    (missing : List (RecentTip C)) :
    ∃ call', (d.startFetches p i changeId changes missing).calls =
        d.calls.set i call' ∧ call'.Distinct ∧ call'.isAnnounced = false ∧
      (d.startFetches p i changeId changes missing).applied = d.applied ∧
      SameChanges d.loader
        (d.startFetches p i changeId changes missing).loader := by
  unfold startFetches
  split
  · exact ⟨_, rfl, trivial, rfl, rfl, refresh_same p d.loader _ _⟩
  · exact ⟨_, rfl, trivial, rfl, rfl, SameChanges.refl _⟩

section Entries

variable {p} {d : ConcurrentDocument C P D A Q} {i : ℕ} {changeId : Option C}
  {changes : ChangeTree C (NodeData P)} {entries : List (C × NodeData P)}

omit [LinearOrder C] [Bot C] in
/-- Where the loop throws, no document change may stand before the entry. -/
theorem entriesCountOnce_of_throws {before rest : List (C × NodeData P)}
    {entry : C × NodeData P} {result : Loader C P D A Q × SentChanges C D}
    {failed : Loader C P D A Q}
    (hentries : entries = before ++ entry :: rest)
    (hbefore : before.foldlM (applySent p)
      (d.loader, ⟨d.loader.document, [], []⟩) = .ok result)
    (hthrows : applySent p result entry = .error failed) :
    d.EntriesCountOnce p entries ↔ countedCids before = [] := by
  obtain ⟨hfailed, hcount⟩ :=
    Loader.foldlM_applySent_of_throws rest hbefore hthrows
  rw [← hentries] at hfailed
  constructor
  · exact fun honce => honce.2 before entry rest result failed hentries hbefore
      hthrows
  · intro hnone
    refine ⟨?_, ?_⟩
    · intro result' hok
      cases hfailed.symm.trans hok
    · intro before' entry' rest' result' failed' hentries' hbefore' hthrows'
      obtain ⟨hfailed', hcount'⟩ :=
        Loader.foldlM_applySent_of_throws rest' hbefore' hthrows'
      rw [← hentries'] at hfailed'
      cases hfailed.symm.trans hfailed'
      rw [hnone, List.length_nil] at hcount
      exact List.eq_nil_of_length_eq_zero (by omega)

omit [LinearOrder C] [Bot C] in
/-- Where the loop applies all entries, all document changes must be new. -/
theorem entriesCountOnce_of_applied
    {result : Loader C P D A Q × SentChanges C D}
    (happlied : entries.foldlM (applySent p)
      (d.loader, ⟨d.loader.document, [], []⟩) = .ok result) :
    d.EntriesCountOnce p entries ↔ ∀ c ∈ countedCids entries, c ∉ d.applied := by
  constructor
  · exact fun h => h.1 _ happlied
  · intro hfresh
    refine ⟨fun _ _ => hfresh, ?_⟩
    intro before entry rest result failed hentries hbefore hthrows
    rw [hentries] at happlied
    cases happlied.symm.trans
      (Loader.foldlM_applySent_of_throws rest hbefore hthrows).1

/-- A loop that throws has counted the document changes before the entry and
records none. -/
theorem stepRecords_of_throws
    (hcall : d.calls[i]? = some (.merging changeId changes entries))
    {failed : Loader C P D A Q}
    (happlied : entries.foldlM (applySent p)
      (d.loader, ⟨d.loader.document, [], []⟩) = .error failed) :
    StepRecords d (d.applyEntries p i changeId changes entries)
      (d.EntriesCountOnce p entries) := by
  obtain ⟨before, entry, rest, result, hentries, hbefore, hthrows, hhashes,
    hcount⟩ := Loader.foldlM_applySent_error_count entries happlied
  unfold applyEntries
  rw [happlied]
  dsimp only
  refine ⟨(countedCids before).length, [], ?_, ?_⟩
  · refine records_set hcall rfl trivial ?_ ?_ ?_ List.nodup_nil
      (Nat.zero_le _)
    · simp
    · intro c hc
      rw [hhashes]
      exact hc.resolve_right List.not_mem_nil
    · rw [hcount]
      rfl
  · rw [entriesCountOnce_of_throws hentries hbefore hthrows]
    simp

omit [Bot C] in
/-- A loop that applies all entries records their document changes. -/
theorem records_of_applied
    (hcall : d.calls[i]? = some (.merging changeId changes entries))
    (hdistinct : (entries.map Prod.fst).Nodup) {loader : Loader C P D A Q}
    {sent : SentChanges C D}
    (happlied : entries.foldlM (applySent p)
      (d.loader, ⟨d.loader.document, [], []⟩) = .ok (loader, sent))
    {d' : ConcurrentDocument C P D A Q} {call' : SyncCall C P}
    (hcalls : d'.calls = d.calls.set i call') (hdistinct' : call'.Distinct)
    (hannounced : call'.isAnnounced = false)
    (happlied' : d'.applied = d.applied ∪ (countedCids entries).toFinset)
    (hsame : SameChanges (loader.finishSent sent) d'.loader) :
    Records d d' (countedCids entries).length (countedCids entries) := by
  obtain ⟨hhashes, hcount, htips⟩ :=
    Loader.foldlM_applySent_count entries happlied
  have hcids : documentCids sent.newDocumentTips = countedCids entries := htips
  refine records_set hcall hcalls hdistinct' happlied' ?_ ?_
    (Loader.nodup_countedCids hdistinct) le_rfl
  · intro c hc
    rw [hsame.hashes, Loader.hashes_finishSent, hhashes, Finset.mem_union,
      List.mem_toFinset]
    refine hc.imp_right fun hmem => ?_
    rw [← hcids] at hmem
    exact (List.filter_sublist.map Prod.fst).subset hmem
  · rw [hannounced, hsame.documentChangeCount, Loader.finishSent_count, hcount]
    rfl

/-- The loop over the entries either throws at one of them or applies all. -/
theorem stepRecords_applyEntries
    (hcall : d.calls[i]? = some (.merging changeId changes entries))
    (hdistinct : (entries.map Prod.fst).Nodup) :
    StepRecords d (d.applyEntries p i changeId changes entries)
      (d.EntriesCountOnce p entries) := by
  cases happlied : entries.foldlM (applySent p)
      (d.loader, ⟨d.loader.document, [], []⟩) with
  | error failed => exact stepRecords_of_throws hcall happlied
  | ok result =>
      obtain ⟨loader, sent⟩ := result
      have hcids : documentCids sent.newDocumentTips = countedCids entries :=
        (Loader.foldlM_applySent_count entries happlied).2.2
      have honce : d.EntriesCountOnce p entries ↔
          (countedCids entries).length = (countedCids entries).length ∧
            ∀ c ∈ countedCids entries, c ∉ d.applied := by
        rw [entriesCountOnce_of_applied happlied]
        exact (and_iff_right rfl).symm
      unfold applyEntries
      rw [happlied]
      refine ⟨_, _, ?_, honce⟩
      dsimp only
      rw [hcids]
      split
      · obtain ⟨call', hcalls, hdistinct', hannounced, happlied', hsame⟩ :=
          startFetches_cases p { d with
            loader := loader.finishSent sent
            applied := d.applied ∪ (countedCids entries).toFinset } i changeId
            changes sent.missingDocumentHashes
        exact records_of_applied hcall hdistinct happlied hcalls hdistinct'
          hannounced happlied' hsame
      · exact records_of_applied hcall hdistinct happlied rfl trivial rfl rfl
          (SameChanges.refl _)

end Entries

section Arrival

variable {p} {d : ConcurrentDocument C P D A Q} {i k : ℕ}
  {changeId : Option C} {changes : ChangeTree C (NodeData P)}
  {pending : List (RecentTip C)} {parses : Bool} {cid : C}
  {kind : Document.NodeKind} {content : P}

omit [LinearOrder C] [Bot C] in
/-- A block that arrives counts once if it is no document change that was
applied before. -/
theorem countsOnce_arrive_iff
    (hcall : d.calls[i]? = some (.fetching changeId changes pending parses))
    (hpending : pending[k]? = some (cid, kind)) :
    d.CountsOnce p (.arrive i k (some content)) ↔
      (kind = .document ∧ d.loader.applies p kind content = true →
        cid ∉ d.applied) := by
  constructor
  · rintro honce ⟨rfl, happlies⟩
    exact honce changeId changes pending parses cid content hcall hpending rfl
      happlies
  · intro hfresh changeId' changes' pending' parses' cid' content' hcall'
      hpending' hcontent' happlies
    cases hcall.symm.trans hcall'
    cases hpending.symm.trans hpending'
    cases hcontent'
    exact hfresh ⟨rfl, happlies⟩

omit [Bot C] in
/-- A block that arrives records its CID if it is a document change that
applies. -/
theorem records_applyMissing {d' : ConcurrentDocument C P D A Q}
    (hcall : d.calls[i]? = some (.fetching changeId changes pending parses))
    (hcalls : d'.calls = d.calls.set i
      (.fetching changeId changes (pending.eraseIdx k) parses))
    (hloader : d'.loader = d.loader.applyMissing p (cid, kind) content)
    {added : List C} (hadded : added =
      if kind = .document ∧ d.loader.applies p kind content = true then [cid]
      else [])
    (happlied : d'.applied = d.applied ∪ added.toFinset) :
    Records d d' added.length added := by
  refine records_set hcall hcalls trivial happlied ?_ ?_ ?_ le_rfl
  · intro c hc
    rw [hloader]
    refine (Loader.mem_hashes_applyMissing _ _ _ c).2 (hc.imp_right ?_)
    intro hmem
    rw [hadded] at hmem
    split at hmem
    · rename_i hcounts
      exact ⟨List.mem_singleton.1 hmem, hcounts.2⟩
    · cases hmem
  · rw [hloader, Loader.applyMissing_count, hadded]
    split
    · rfl
    · rfl
  · rw [hadded]
    split
    · exact List.nodup_singleton cid
    · exact List.nodup_nil

end Arrival

omit [Bot C] in
theorem stepRecords_arrive (d : ConcurrentDocument C P D A Q) (i k : ℕ)
    (missingChanges : Option P) :
    StepRecords d (d.arrive p i k missingChanges)
      (d.CountsOnce p (.arrive i k missingChanges)) := by
  unfold arrive
  split
  · rename_i changeId changes pending parses hcall
    cases hmissing : pending[k]? with
    | none =>
        refine StepRecords.of_none
          (records_of_same (SameChanges.refl _) rfl rfl) ?_
        intro changeId' changes' pending' parses' cid content hcall' hmissing'
        cases hcall.symm.trans hcall'
        cases hmissing.symm.trans hmissing'
    | some missing =>
        obtain ⟨cid, kind⟩ := missing
        dsimp only
        cases missingChanges with
        | none =>
            refine StepRecords.of_none (records_set_same hcall rfl trivial rfl
              (SameChanges.refl _) rfl) ?_
            intro changeId' changes' pending' parses' cid' content _ _ hnone
            cases hnone
        | some content =>
            dsimp only
            refine ⟨_, _, records_applyMissing hcall rfl rfl rfl ?_, ?_⟩
            · split
              · ext c
                simp
              · rw [List.toFinset_nil, Finset.union_empty]
            · rw [countsOnce_arrive_iff hcall hmissing]
              split
              · rename_i hcounts
                rw [List.forall_mem_singleton, and_iff_right rfl]
                exact ⟨fun hfresh => hfresh hcounts, fun hfresh _ => hfresh⟩
              · rename_i hcounts
                exact iff_of_true (fun h => absurd h hcounts)
                  ⟨rfl, fun c hc => (nomatch hc)⟩
  · rename_i hnot
    refine StepRecords.of_none
      (records_of_same (SameChanges.refl _) rfl rfl) ?_
    intro changeId changes pending parses cid content hcall
    exact absurd hcall (hnot changeId changes pending parses)

omit [LinearOrder C] [Bot C] in
/-- A call that applies no document change meets the condition. -/
theorem countsOnce_resume {d : ConcurrentDocument C P D A Q} {i : ℕ}
    {call : SyncCall C P} (hcall : d.calls[i]? = some call)
    (hmerging : ∀ changeId changes entries,
      call ≠ .merging changeId changes entries)
    (hstoring : ∀ hash changes signature,
      call ≠ .storing hash changes signature) :
    d.CountsOnce p (.resume i) := by
  refine ⟨?_, ?_⟩
  · intro changeId changes entries heq
    exact absurd (Option.some.inj (hcall.symm.trans heq))
      (hmerging changeId changes entries)
  · intro hash changes signature heq
    exact absurd (Option.some.inj (hcall.symm.trans heq))
      (hstoring hash changes signature)

theorem stepRecords_buildChange {d : ConcurrentDocument C P D A Q} {i : ℕ}
    {hash : C} {changes : P} {signature : String}
    (hcall : d.calls[i]? = some (.storing hash changes signature)) :
    StepRecords d (d.buildChange p i hash changes signature)
      (hash ∉ d.applied) := by
  refine ⟨1, [hash], ?_, by simp⟩
  refine records_set hcall rfl trivial ?_ ?_ rfl (List.nodup_singleton hash)
    le_rfl
  · rw [List.toFinset_cons, List.toFinset_nil, insert_empty_eq,
      Finset.union_comm, ← Finset.insert_eq]
    rfl
  · rintro c (hc | hc)
    · exact Finset.mem_insert_of_mem hc
    · exact List.mem_singleton.1 hc ▸ Finset.mem_insert_self _ _

theorem stepRecords_resume {d : ConcurrentDocument C P D A Q} {i : ℕ}
    {call : SyncCall C P} (hcall : d.calls[i]? = some call)
    (hdistinct : call.Distinct) :
    StepRecords d (d.resume p i call) (d.CountsOnce p (.resume i)) := by
  have hother := countsOnce_resume (d := d) p hcall
  cases call with
  | merging changeId changes entries =>
      have honce : d.CountsOnce p (.resume i) ↔
          d.EntriesCountOnce p entries := by
        constructor
        · exact fun h => h.1 changeId changes entries hcall
        · intro h
          refine ⟨?_, ?_⟩
          · intro changeId' changes' entries' heq
            cases hcall.symm.trans heq
            exact h
          · intro hash changes' signature heq
            cases hcall.symm.trans heq
      rw [honce]
      exact stepRecords_applyEntries hcall hdistinct
  | notifying changeId changes missing =>
      obtain ⟨call', hcalls, hdistinct', hannounced, happlied, hloader⟩ :=
        startFetches_cases p d i changeId changes missing
      exact StepRecords.of_none (records_set_same hcall hcalls hdistinct'
        happlied hloader hannounced) (hother nofun nofun)
  | fetching changeId changes pending parses =>
      have hsame : Records d d 0 [] :=
        records_of_same (SameChanges.refl _) rfl rfl
      refine StepRecords.of_none ?_ (hother nofun nofun)
      cases pending with
      | nil =>
          cases parses with
          | false => exact hsame
          | true =>
              exact records_set_same hcall rfl trivial rfl
                (refresh_same p d.loader _ _) rfl
      | cons tip pending => exact hsame
  | storing hash changes signature =>
      have honce : d.CountsOnce p (.resume i) ↔ hash ∉ d.applied := by
        constructor
        · exact fun h => h.2 hash changes signature hcall
        · intro h
          refine ⟨?_, ?_⟩
          · intro changeId changes' entries heq
            cases hcall.symm.trans heq
          · intro hash' changes' signature' heq
            cases hcall.symm.trans heq
            exact h
      rw [honce]
      exact stepRecords_buildChange p hcall
  | signing updateMessage =>
      exact StepRecords.of_none (records_set_same hcall rfl trivial rfl
        ⟨rfl, rfl⟩ rfl) (hother nofun nofun)
  | publishing =>
      refine StepRecords.of_none ?_ (hother nofun nofun)
      refine records_set hcall rfl trivial ?_ ?_ rfl List.nodup_nil le_rfl
      · rw [List.toFinset_nil, Finset.union_empty]
        rfl
      · exact fun c hc => hc.resolve_right List.not_mem_nil
  | returned =>
      exact StepRecords.of_none
        (records_of_same (SameChanges.refl _) rfl rfl) (hother nofun nofun)

/-- Every step. -/
theorem stepRecords_step {d : ConcurrentDocument C P D A Q}
    (hdistinct : ∀ call ∈ d.calls, call.Distinct)
    (e : ConcurrentEvent C P D) :
    StepRecords d (d.step p e) (d.CountsOnce p e) := by
  have hsame : Records d d 0 [] := records_of_same (SameChanges.refl _) rfl rfl
  cases e with
  | receive message =>
      exact StepRecords.of_none (records_receive p d message) trivial
  | change newDocument hash changes signature =>
      have hstored : Records d
          (d.step p (.change newDocument hash changes signature)) 0 [] :=
        records_append ⟨rfl, rfl⟩ rfl rfl rfl trivial
      exact StepRecords.of_none hstored trivial
  | resume i =>
      cases hcall : d.calls[i]? with
      | none =>
          rw [step, hcall]
          refine StepRecords.of_none hsame ⟨?_, ?_⟩
          · intro changeId changes entries heq
            cases hcall.symm.trans heq
          · intro hash changes signature heq
            cases hcall.symm.trans heq
      | some call =>
          rw [step, hcall]
          exact stepRecords_resume p hcall
            (hdistinct call (List.mem_of_getElem? hcall))
  | handlerThrows i =>
      refine StepRecords.of_none ?_ trivial
      rw [step]
      split
      · rename_i hcall
        exact records_set_same hcall rfl trivial rfl (SameChanges.refl _) rfl
      · exact hsame
  | arrive i k missingChanges => exact stepRecords_arrive p d i k missingChanges

/-! ## Runs -/

/-- The entries to merge have different CIDs, what was applied is in `_hashes`,
and at least so many changes were counted. -/
structure WellFormed (d : ConcurrentDocument C P D A Q) : Prop where
  distinct : ∀ call ∈ d.calls, call.Distinct
  hashes : d.applied ⊆ d.loader.hashes
  counted : d.applied.card ≤ d.loader.documentChangeCount + d.announced

/-- Every change was counted once, up to the local changes in progress. -/
def Balanced (d : ConcurrentDocument C P D A Q) : Prop :=
  d.applied.card = d.loader.documentChangeCount + d.announced

omit [Bot C] in
theorem card_union_toFinset_le (applied : Finset C) (added : List C) :
    (applied ∪ added.toFinset).card ≤ applied.card + added.length :=
  (Finset.card_union_le _ _).trans
    (Nat.add_le_add_left (List.toFinset_card_le added) _)

omit [Bot C] in
theorem card_union_toFinset_eq_iff {added : List C} (h : added.Nodup)
    (applied : Finset C) :
    (applied ∪ added.toFinset).card = applied.card + added.length ↔
      ∀ c ∈ added, c ∉ applied := by
  rw [← List.toFinset_card_of_nodup h, Finset.card_union_eq_card_add_card,
    Finset.disjoint_right]
  simp

theorem WellFormed.step {d : ConcurrentDocument C P D A Q} (h : d.WellFormed)
    (e : ConcurrentEvent C P D) : (d.step p e).WellFormed := by
  obtain ⟨counted, added, hrecords, -⟩ := stepRecords_step p h.distinct e
  refine ⟨?_, ?_, ?_⟩
  · intro call hcall
    exact (hrecords.distinct call hcall).elim (h.distinct call) id
  · intro c hc
    rw [hrecords.applied, Finset.mem_union, List.mem_toFinset] at hc
    exact hrecords.hashes c (hc.imp_left fun hold => h.hashes hold)
  · have hcard := card_union_toFinset_le d.applied added
    have hlength := hrecords.length
    have hcounted := h.counted
    rw [hrecords.applied, hrecords.count]
    omega

/-- A step keeps the balance exactly if it counts once. -/
theorem balanced_step_iff {d : ConcurrentDocument C P D A Q}
    (h : d.WellFormed) (e : ConcurrentEvent C P D) :
    (d.step p e).Balanced ↔ d.Balanced ∧ d.CountsOnce p e := by
  obtain ⟨counted, added, hrecords, honce⟩ := stepRecords_step p h.distinct e
  have hcard := card_union_toFinset_le d.applied added
  have hlength := hrecords.length
  have hcounted := h.counted
  rw [honce, ← card_union_toFinset_eq_iff hrecords.nodup, Balanced, Balanced,
    hrecords.applied, hrecords.count]
  omega

/-- The document changes in `_hashes`. -/
def documentHashes (d : ConcurrentDocument C P D A Q) : Finset C :=
  d.loader.hashes ∩ d.applied

/-- There are no calls yet, and every document change was counted once. -/
structure Settled (d : ConcurrentDocument C P D A Q) : Prop where
  calls : d.calls = []
  hashes : d.applied ⊆ d.loader.hashes
  counted : d.loader.documentChangeCount = d.applied.card

omit [LinearOrder C] [Bot C] in
theorem Quiescent.announced {d : ConcurrentDocument C P D A Q}
    (h : d.Quiescent) : d.announced = 0 := by
  refine List.countP_eq_zero.2 ?_
  intro call hcall
  have hdone := h call hcall
  cases call <;> simp_all [SyncCall.isAnnounced, SyncCall.InProgress]

omit [LinearOrder C] [Bot C] in
theorem Settled.wellFormed {d : ConcurrentDocument C P D A Q}
    (h : d.Settled) : d.WellFormed ∧ d.Balanced := by
  have hannounced : d.announced = 0 := by
    rw [ConcurrentDocument.announced, h.calls]
    rfl
  refine ⟨⟨?_, h.hashes, ?_⟩, ?_⟩
  · rw [h.calls]
    exact fun call hcall => absurd hcall List.not_mem_nil
  · rw [hannounced, h.counted]
    exact le_rfl
  · rw [Balanced, hannounced, h.counted]
    rfl

/-- Whenever no call is in progress, the counter is the number of document
changes in `_hashes` if and only if every step up to then counted once. -/
theorem counted_once_iff (d : ConcurrentDocument C P D A Q)
    (hsettled : d.Settled) (events : List (ConcurrentEvent C P D))
    (hquiescent : (exec (step p) d events).Quiescent) :
    (exec (step p) d events).loader.documentChangeCount =
        (exec (step p) d events).documentHashes.card ↔
      Guarded (step p) (CountsOnce p) d events := by
  obtain ⟨hwf, hbalanced⟩ := hsettled.wellFormed
  have hkeep : ∀ (d : ConcurrentDocument C P D A Q) e, d.WellFormed →
      (d.step p e).WellFormed := fun d e h => h.step p e
  have hend : (exec (step p) d events).WellFormed :=
    exec_invariant_of_forall (fun d e h => hkeep d e h) events hwf
  have hrun : (exec (step p) d events).Balanced ↔
      d.Balanced ∧ Guarded (step p) (CountsOnce p) d events :=
    exec_iff_and_guarded hkeep (fun d e h => balanced_step_iff p h e) events d
      hwf
  have hcard : (exec (step p) d events).documentHashes =
      (exec (step p) d events).applied :=
    Finset.inter_eq_right.2 hend.hashes
  rw [Balanced, hquiescent.announced, Nat.add_zero, and_iff_right hbalanced]
    at hrun
  rw [hcard, ← hrun, eq_comm]

end ConcurrentDocument

/-! ## The same message twice -/

/-- Change `1`, sent inline. -/
def oneChange : SyncMessage ℕ (List ℕ) :=
  ⟨"document", some 1, some (.node ⟨.document, some [1]⟩ .absent), none, none,
    none, none⟩

/-- A new document. -/
def newDocument : ConcurrentDocument ℕ (List ℕ) (Finset ℕ) (List ℕ) Unit :=
  ⟨emptyLoader, ∅, []⟩

theorem newDocument_settled : newDocument.Settled :=
  ⟨rfl, Finset.Subset.refl _, rfl⟩

/-- One call behind the other counts the change once. -/
theorem counted_once_serial :
    let p := setProviders false fun _ => none
    Guarded (ConcurrentDocument.step p) (ConcurrentDocument.CountsOnce p)
      newDocument [.receive oneChange, .resume 0, .resume 0,
        .receive oneChange, .resume 1] := by
  intro p
  refine (ConcurrentDocument.counted_once_iff p newDocument
    newDocument_settled _ ?_).1 ?_
  · intro call hcall
    have hcalls : call ∈ [SyncCall.returned, .returned] := hcall
    rcases List.mem_pair.1 hcalls with rfl | rfl
    · exact id
    · exact id
  · decide

/-- Two overlapping calls both hold the change as new, and it is counted
twice. -/
theorem counted_twice :
    let p := setProviders false fun _ => none
    let d := exec (ConcurrentDocument.step p) newDocument
      [.receive oneChange, .receive oneChange, .resume 0, .resume 0, .resume 1,
        .resume 1]
    newDocument.Settled ∧ d.Quiescent ∧
      d.loader.documentChangeCount = 2 ∧ d.documentHashes = {1} ∧
      ¬∀ events, (exec (ConcurrentDocument.step p) newDocument
          events).Quiescent →
        (exec (ConcurrentDocument.step p) newDocument
            events).loader.documentChangeCount =
          (exec (ConcurrentDocument.step p) newDocument
            events).documentHashes.card := by
  intro p d
  have hcalls : d.calls = [.returned, .returned] := rfl
  have hcount : d.loader.documentChangeCount = 2 := rfl
  have hhashes : d.documentHashes = {1} := by decide
  have hquiescent : d.Quiescent := by
    intro call hcall
    rw [hcalls] at hcall
    rcases List.mem_pair.1 hcall with rfl | rfl
    · exact id
    · exact id
  refine ⟨newDocument_settled, hquiescent, hcount, hhashes, fun h => ?_⟩
  have hequal : d.loader.documentChangeCount = d.documentHashes.card :=
    h _ hquiescent
  rw [hcount, hhashes] at hequal
  exact absurd hequal (by decide)

end Collabswarm.Load
