import Collabswarm.Load.ConcurrentSyncs

/-!
# What `_documentChangeCount` counts

The counter and `_hashes` through the steps of `_syncDocumentChanges`: every
document change that is applied is counted, also where an entry behind it
throws and `_hashes` stays as it is.
-/

namespace Collabswarm.Load.Loader

open Document (RecentTip)
open Merkle (ChangeTree NodeData)

variable {C P D A Q U K H : Type} {p : Providers C P D A Q U K H}

/-- The entry is a document change that was sent directly. -/
def countsDocument (entry : C × NodeData P) : Bool :=
  entry.2.kind = .document && entry.2.change.isSome

/-- Neither `_hashes` nor the counter has changed. -/
structure SameChanges (s s' : Loader C P D A Q) : Prop where
  hashes : s'.hashes = s.hashes
  documentChangeCount : s'.documentChangeCount = s.documentChangeCount

theorem SameChanges.refl (s : Loader C P D A Q) : SameChanges s s :=
  ⟨rfl, rfl⟩

theorem SameChanges.trans {s s' s'' : Loader C P D A Q}
    (h : SameChanges s s') (h' : SameChanges s' s'') : SameChanges s s'' :=
  ⟨h'.hashes.trans h.hashes,
    h'.documentChangeCount.trans h.documentChangeCount⟩

theorem SameChanges.bind {s : Loader C P D A Q}
    {result : Except (Loader C P D A Q) (Loader C P D A Q)}
    {next : Loader C P D A Q → Except (Loader C P D A Q) (Loader C P D A Q)}
    (h : SameChanges s (exitState result))
    (hnext : ∀ s, SameChanges s (exitState (next s))) :
    SameChanges s (exitState (result.bind next)) := by
  cases result with
  | error s₁ => exact h
  | ok s₁ => exact h.trans (hnext s₁)

theorem mergeReaders_same (s : Loader C P D A Q) (changes : P) :
    SameChanges s (exitState (s.mergeReaders p changes)) := by
  unfold mergeReaders
  split
  · exact SameChanges.refl s
  · exact ⟨rfl, rfl⟩

theorem mergeWriters_same (s : Loader C P D A Q) (changes : P) :
    SameChanges s (exitState (s.mergeWriters p changes)) := by
  unfold mergeWriters
  split
  · exact SameChanges.refl s
  · exact ⟨rfl, rfl⟩

theorem mergeKeychainChanges_same (s : Loader C P D A Q)
    (keychainChanges : Option P) :
    SameChanges s (exitState (s.mergeKeychainChanges p keychainChanges)) := by
  unfold mergeKeychainChanges
  split
  · exact SameChanges.refl s
  · split
    · exact SameChanges.refl s
    · exact ⟨rfl, rfl⟩

theorem applyACLFromNode_same (s : Loader C P D A Q) (data : NodeData P) :
    SameChanges s (exitState (s.applyACLFromNode p data)) := by
  unfold applyACLFromNode
  split
  · exact mergeWriters_same s _
  · exact mergeReaders_same s _
  · exact SameChanges.refl s

mutual

theorem applyACLFromTree_same (s : Loader C P D A Q) :
    ∀ n : ChangeTree C (NodeData P),
      SameChanges s (exitState (s.applyACLFromTree p n))
  | .node data children => by
      rw [applyACLFromTree]
      exact (applyACLFromNode_same s data).bind fun s =>
        applyACLFromChildren_same s children

theorem applyACLFromChildren_same (s : Loader C P D A Q) :
    ∀ children : Merkle.ChildMap C (NodeData P),
      SameChanges s (exitState (s.applyACLFromChildren p children))
  | .absent => SameChanges.refl s
  | .deferred => SameChanges.refl s
  | .present entries => by
      rw [applyACLFromChildren]
      exact applyACLFromEntries_same s entries

/-- The ACL pre-pass applies no document change. -/
theorem applyACLFromEntries_same (s : Loader C P D A Q) :
    ∀ entries : Merkle.ChildEntries C (NodeData P),
      SameChanges s (exitState (s.applyACLFromEntries p entries))
  | .nil => SameChanges.refl s
  | .cons cid child rest => by
      rw [applyACLFromEntries]
      exact (applyACLFromTree_same s child).bind fun s =>
        applyACLFromEntries_same s rest

end

open ConcurrentDocument (documentCids)

theorem documentCids_append (tips tips' : List (RecentTip C)) :
    documentCids (tips ++ tips') = documentCids tips ++ documentCids tips' := by
  unfold documentCids
  rw [List.filter_append, List.map_append]

/-- An entry that is applied is counted if it is a document change. -/
theorem applySent_count {s s' : Loader C P D A Q} {sent sent' : SentChanges C D}
    {entry : C × NodeData P}
    (h : applySent p (s, sent) entry = .ok (s', sent')) :
    s'.hashes = s.hashes ∧
      s'.documentChangeCount =
        s.documentChangeCount + (if countsDocument entry then 1 else 0) ∧
      documentCids sent'.newDocumentTips =
        documentCids sent.newDocumentTips ++
          (if countsDocument entry then [entry.1] else []) := by
  obtain ⟨cid, kind, change⟩ := entry
  cases change with
  | none =>
      cases h
      exact ⟨rfl, by simp [countsDocument], by simp [countsDocument]⟩
  | some change =>
      cases kind with
      | document =>
          unfold applySent at h
          dsimp only at h
          split at h
          · cases h
          · cases h
            exact ⟨rfl, rfl, documentCids_append _ _⟩
      | reader =>
          have hsame := mergeReaders_same (p := p) s change
          unfold applySent at h
          dsimp only at h
          cases hmerge : s.mergeReaders p change with
          | error s₁ =>
              rw [hmerge] at h
              cases h
          | ok s₁ =>
              rw [hmerge] at h hsame
              cases h
              exact ⟨hsame.hashes, hsame.documentChangeCount,
                documentCids_append _ _⟩
      | writer =>
          have hsame := mergeWriters_same (p := p) s change
          unfold applySent at h
          dsimp only at h
          cases hmerge : s.mergeWriters p change with
          | error s₁ =>
              rw [hmerge] at h
              cases h
          | ok s₁ =>
              rw [hmerge] at h hsame
              cases h
              exact ⟨hsame.hashes, hsame.documentChangeCount,
                documentCids_append _ _⟩

theorem applySent_error_same {s s' : Loader C P D A Q}
    {sent : SentChanges C D} {entry : C × NodeData P}
    (h : applySent p (s, sent) entry = .error s') : SameChanges s s' := by
  obtain ⟨cid, kind, change⟩ := entry
  unfold applySent at h
  dsimp only at h
  split at h
  · cases h
  · split at h
    · cases h
      exact SameChanges.refl s
    · cases h
  · have hsame := mergeReaders_same (p := p) s ‹P›
    cases hmerge : s.mergeReaders p ‹P› with
    | error s₁ =>
        rw [hmerge] at h hsame
        cases h
        exact hsame
    | ok s₁ =>
        rw [hmerge] at h
        cases h
  · have hsame := mergeWriters_same (p := p) s ‹P›
    cases hmerge : s.mergeWriters p ‹P› with
    | error s₁ =>
        rw [hmerge] at h hsame
        cases h
        exact hsame
    | ok s₁ =>
        rw [hmerge] at h
        cases h

/-- The CIDs of the document changes among the entries that were sent
directly. -/
def countedCids (entries : List (C × NodeData P)) : List C :=
  (entries.filter countsDocument).map Prod.fst

theorem countedCids_cons (entry : C × NodeData P)
    (entries : List (C × NodeData P)) :
    countedCids (entry :: entries) =
      (if countsDocument entry then [entry.1] else []) ++
        countedCids entries := by
  unfold countedCids
  rw [List.filter_cons]
  split <;> rfl

theorem length_countedCids_cons (entry : C × NodeData P)
    (entries : List (C × NodeData P)) :
    (countedCids (entry :: entries)).length =
      (if countsDocument entry then 1 else 0) +
        (countedCids entries).length := by
  rw [countedCids_cons, List.length_append]
  split <;> rfl

/-- All entries are applied. -/
theorem foldlM_applySent_count (entries : List (C × NodeData P)) :
    ∀ {s s' : Loader C P D A Q} {sent sent' : SentChanges C D},
      entries.foldlM (applySent p) (s, sent) = .ok (s', sent') →
      s'.hashes = s.hashes ∧
        s'.documentChangeCount =
          s.documentChangeCount + (countedCids entries).length ∧
        documentCids sent'.newDocumentTips =
          documentCids sent.newDocumentTips ++ countedCids entries := by
  induction entries with
  | nil =>
      intro s s' sent sent' h
      cases h
      exact ⟨rfl, rfl, (List.append_nil _).symm⟩
  | cons entry entries ih =>
      intro s s' sent sent' h
      rw [List.foldlM_cons] at h
      cases happly : applySent p (s, sent) entry with
      | error s₁ =>
          rw [happly] at h
          cases h
      | ok result =>
          obtain ⟨s₁, sent₁⟩ := result
          rw [happly] at h
          obtain ⟨hhashes, hcount, hcids⟩ := applySent_count happly
          obtain ⟨hhashes', hcount', hcids'⟩ := ih h
          refine ⟨hhashes'.trans hhashes, ?_, ?_⟩
          · rw [hcount', hcount, length_countedCids_cons, Nat.add_assoc]
          · rw [hcids', hcids, countedCids_cons, List.append_assoc]

/-- The entry at which the loop throws, behind those that it applied. -/
theorem foldlM_applySent_error_count (entries : List (C × NodeData P)) :
    ∀ {s s' : Loader C P D A Q} {sent : SentChanges C D},
      entries.foldlM (applySent p) (s, sent) = .error s' →
      ∃ before entry rest result, entries = before ++ entry :: rest ∧
        before.foldlM (applySent p) (s, sent) = .ok result ∧
        applySent p result entry = .error s' ∧ s'.hashes = s.hashes ∧
        s'.documentChangeCount =
          s.documentChangeCount + (countedCids before).length := by
  induction entries with
  | nil =>
      intro s s' sent h
      cases h
  | cons entry entries ih =>
      intro s s' sent h
      rw [List.foldlM_cons] at h
      cases happly : applySent p (s, sent) entry with
      | error s₁ =>
          rw [happly] at h
          cases h
          have hsame := applySent_error_same happly
          exact ⟨[], entry, entries, _, rfl, rfl, happly, hsame.hashes,
            hsame.documentChangeCount⟩
      | ok result =>
          obtain ⟨s₁, sent₁⟩ := result
          rw [happly] at h
          obtain ⟨hhashes, hcount, -⟩ := applySent_count happly
          obtain ⟨before, thrown, rest, result', rfl, hbefore, hthrows,
            hhashes', hcount'⟩ := ih h
          refine ⟨entry :: before, thrown, rest, result', rfl, ?_, hthrows,
            hhashes'.trans hhashes, ?_⟩
          · rw [List.foldlM_cons, happly]
            exact hbefore
          · rw [hcount', hcount, length_countedCids_cons, Nat.add_assoc]

/-- A loop that throws has counted the document changes before the entry. -/
theorem foldlM_applySent_of_throws {s failed : Loader C P D A Q}
    {sent : SentChanges C D} {result : Loader C P D A Q × SentChanges C D}
    {before : List (C × NodeData P)} {entry : C × NodeData P}
    (rest : List (C × NodeData P))
    (hbefore : before.foldlM (applySent p) (s, sent) = .ok result)
    (hthrows : applySent p result entry = .error failed) :
    (before ++ entry :: rest).foldlM (applySent p) (s, sent) = .error failed ∧
      failed.documentChangeCount =
        s.documentChangeCount + (countedCids before).length := by
  obtain ⟨s₁, sent₁⟩ := result
  obtain ⟨-, hcount, -⟩ := foldlM_applySent_count before hbefore
  constructor
  · rw [List.foldlM_append, hbefore]
    change (entry :: rest).foldlM (applySent p) (s₁, sent₁) = _
    rw [List.foldlM_cons, hthrows]
    rfl
  · rw [(applySent_error_same hthrows).documentChangeCount, hcount]

theorem nodup_countedCids {entries : List (C × NodeData P)}
    (h : (entries.map Prod.fst).Nodup) : (countedCids entries).Nodup :=
  h.sublist (List.filter_sublist.map Prod.fst)

variable [LinearOrder C]

theorem foldl_trackTip_count (tips : List (RecentTip C)) :
    ∀ s : Loader C P D A Q,
      (tips.foldl trackTip s).documentChangeCount = s.documentChangeCount := by
  induction tips with
  | nil => exact fun _ => rfl
  | cons tip tips ih =>
      intro s
      exact ih _

theorem finishSent_count (s : Loader C P D A Q) (sent : SentChanges C D) :
    (s.finishSent sent).documentChangeCount = s.documentChangeCount := by
  unfold finishSent
  split
  · rfl
  · exact foldl_trackTip_count _ _

theorem applyMissing_count (s : Loader C P D A Q) (missing : RecentTip C)
    (changes : P) :
    (s.applyMissing p missing changes).documentChangeCount =
      s.documentChangeCount +
        (if missing.2 = .document ∧ s.applies p missing.2 changes = true then 1
          else 0) := by
  obtain ⟨cid, kind⟩ := missing
  cases kind <;> unfold applyMissing applies <;> dsimp only <;> split
  all_goals rename_i heq
  all_goals simp [heq, trackTip]

end Collabswarm.Load.Loader
