import Collabswarm.Document.Transactions
import Collabswarm.Load.ServedCoverage
import Collabswarm.Support.Transition

/-!
# Overlapping calls of `sync` and `change`

Calls of `sync` and of `change`, interrupted at their awaits, and the arrivals
of the blocks that they fetch.  What a message brings is compared with `_hashes`
before an await, so a change may be applied that another call has applied
meanwhile.

A call of `sync` is modelled from the verified signature on, since it writes
nothing before; messages have no snapshots.  What a fetch returns, decrypted
and decoded, comes with its arrival.
-/

namespace Collabswarm.Load

open Document (NodeKind RecentTip newChildren)
open Merkle (ChangeTree NodeData)

/-- A call in progress, by what it awaits: `_mergeSyncTree` with the entries
that it returns, the handlers, the blocks that are still to arrive, where
`parses` tells that no CID made the call throw, `_putBlock` of a local change,
its signature, or its publication and the handlers. -/
inductive SyncCall (C P : Type) where
  | merging (changeId : Option C) (changes : ChangeTree C (NodeData P))
      (newChangeEntries : List (C × NodeData P))
  | notifying (changeId : Option C) (changes : ChangeTree C (NodeData P))
      (missingDocumentHashes : List (RecentTip C))
  | fetching (changeId : Option C) (changes : ChangeTree C (NodeData P))
      (pending : List (RecentTip C)) (parses : Bool)
  | storing (hash : C) (changes : P) (signature : String)
  | signing (updateMessage : SyncMessage C P)
  | publishing
  | returned

/-- The call still awaits something. -/
def SyncCall.InProgress {C P : Type} : SyncCall C P → Prop
  | .fetching _ _ pending parses => pending ≠ [] ∨ parses = true
  | .returned => False
  | _ => True

/-- A document with all calls.  `applied` holds the CIDs that were applied as
document changes. -/
structure ConcurrentDocument (C P D A Q : Type) where
  loader : Loader C P D A Q
  applied : Finset C
  calls : List (SyncCall C P)

/-- A message whose signature is verified is processed, a local change was
applied to the document and is stored, a call goes on, a handler that it awaits
throws, or a block of a call arrives, with `none` if it cannot be read. -/
inductive ConcurrentEvent (C P D : Type) where
  | receive (message : SyncMessage C P)
  | change (newDocument : D) (hash : C) (changes : P) (signature : String)
  | resume (call : ℕ)
  | handlerThrows (call : ℕ)
  | arrive (call index : ℕ) (missingChanges : Option P)

namespace ConcurrentDocument

variable {C P D A Q U K H : Type} [LinearOrder C] [Bot C]
  (p : Providers C P D A Q U K H)

/-- `sync` up to the await of `_mergeSyncTree`. -/
def receive (d : ConcurrentDocument C P D A Q) (message : SyncMessage C P) :
    ConcurrentDocument C P D A Q :=
  match (d.loader.mergeKeychainChanges p message.keychainChanges).bind fun s =>
      message.changes.elim (.ok s) (s.applyACLFromTree p) with
  | .error loader => { d with loader := loader }
  | .ok loader =>
      match message.changes with
      | none => { d with loader := loader }
      | some changes =>
          let loader := loader.noteReferenced message.changeId changes
          match loader.newEntries message.changeId changes with
          | none => { d with loader := loader }
          | some newChangeEntries =>
              { d with
                loader := loader
                calls := d.calls ++
                  [.merging message.changeId changes newChangeEntries] }

/-- `_syncDocumentChanges` starts its fetches. -/
def startFetches (d : ConcurrentDocument C P D A Q) (i : ℕ)
    (changeId : Option C) (changes : ChangeTree C (NodeData P))
    (missing : List (RecentTip C)) : ConcurrentDocument C P D A Q :=
  if missing.isEmpty then
    { d with
      loader := d.loader.refreshLastSyncMessageFromSync p changeId changes
      calls := d.calls.set i .returned }
  else
    { d with
      calls := d.calls.set i (.fetching changeId changes
        (missing.takeWhile fun tip => p.parse tip.1)
        (missing.all fun tip => p.parse tip.1)) }

omit [Bot C] in
/-- The CIDs of the document changes among tips. -/
def documentCids (tips : List (RecentTip C)) : List C :=
  (tips.filter fun tip => tip.2 = .document).map Prod.fst

/-- `_syncDocumentChanges` applies the changes that were sent directly. -/
def applyEntries (d : ConcurrentDocument C P D A Q) (i : ℕ)
    (changeId : Option C) (changes : ChangeTree C (NodeData P))
    (newChangeEntries : List (C × NodeData P)) :
    ConcurrentDocument C P D A Q :=
  match newChangeEntries.foldlM (Loader.applySent p)
      (d.loader, ⟨d.loader.document, [], []⟩) with
  | .error loader =>
      { d with
        loader := loader
        calls := d.calls.set i .returned }
  | .ok (loader, sent) =>
      let d := { d with
        loader := loader.finishSent sent
        applied := d.applied ∪ (documentCids sent.newDocumentTips).toFinset }
      if sent.newDocumentTips.isEmpty then
        d.startFetches p i changeId changes sent.missingDocumentHashes
      else
        { d with
          calls := d.calls.set i
            (.notifying changeId changes sent.missingDocumentHashes) }

/-- `_makeChange` from the stored block to the signature. -/
def buildChange (d : ConcurrentDocument C P D A Q) (i : ℕ) (hash : C)
    (changes : P) (signature : String) : ConcurrentDocument C P D A Q :=
  let s := d.loader
  let updateMessage := s.lastSyncMessage.getD
    ⟨p.documentPath, none, none, none, none, none, none⟩
  let children := newChildren updateMessage s.recentTips hash
  { d with
    loader := Loader.trackTip { s with
      hashes := insert hash s.hashes
      referencedAncestors :=
        (children.toEntries.toList.map Prod.fst).foldl FieldOrder.touch
          s.referencedAncestors } (hash, .document)
    applied := insert hash d.applied
    calls := d.calls.set i (.signing { updateMessage with
      changeId := some hash
      changes := some (.node ⟨.document, some changes⟩ children)
      signature := some signature }) }

/-- A call goes on. -/
def resume (d : ConcurrentDocument C P D A Q) (i : ℕ) :
    SyncCall C P → ConcurrentDocument C P D A Q
  | .merging changeId changes newChangeEntries =>
      d.applyEntries p i changeId changes newChangeEntries
  | .notifying changeId changes missing =>
      d.startFetches p i changeId changes missing
  | .fetching changeId changes [] true =>
      { d with
        loader := d.loader.refreshLastSyncMessageFromSync p changeId changes
        calls := d.calls.set i .returned }
  | .fetching _ _ _ _ => d
  | .storing hash changes signature => d.buildChange p i hash changes signature
  | .signing updateMessage =>
      { d with
        loader := { d.loader with lastSyncMessage := some updateMessage }
        calls := d.calls.set i .publishing }
  | .publishing =>
      { d with
        loader := { d.loader with
          documentChangeCount := d.loader.documentChangeCount + 1
          changesSinceSnapshot := d.loader.changesSinceSnapshot + 1 }
        calls := d.calls.set i .returned }
  | .returned => d

/-- A block arrives for a call. -/
def arrive (d : ConcurrentDocument C P D A Q) (i k : ℕ)
    (missingChanges : Option P) : ConcurrentDocument C P D A Q :=
  match d.calls[i]? with
  | some (.fetching changeId changes pending parses) =>
      match pending[k]? with
      | none => d
      | some missing =>
          let d := { d with
            calls := d.calls.set i
              (.fetching changeId changes (pending.eraseIdx k) parses) }
          match missingChanges with
          | none => d
          | some missingChanges =>
              { d with
                loader := d.loader.applyMissing p missing missingChanges
                applied :=
                  if missing.2 = .document ∧
                      d.loader.applies p missing.2 missingChanges = true then
                    insert missing.1 d.applied
                  else d.applied }
  | _ => d

/-- One event. -/
def step (d : ConcurrentDocument C P D A Q) :
    ConcurrentEvent C P D → ConcurrentDocument C P D A Q
  | .receive message => d.receive p message
  | .change newDocument hash changes signature =>
      { d with
        loader := { d.loader with document := newDocument }
        calls := d.calls ++ [.storing hash changes signature] }
  | .resume i =>
      match d.calls[i]? with
      | none => d
      | some call => d.resume p i call
  | .handlerThrows i =>
      match d.calls[i]? with
      | some (.notifying _ _ _) => { d with calls := d.calls.set i .returned }
      | _ => d
  | .arrive i k missingChanges => d.arrive p i k missingChanges

/-- No call is in progress. -/
def Quiescent (d : ConcurrentDocument C P D A Q) : Prop :=
  ∀ call ∈ d.calls, ¬call.InProgress

/-! ## A call alone -/

open Loader (applySent)

section Alone

variable (store : Blockstore C)

/-- The state that `sync` leaves. -/
def leftBySync :
    Except (Loader C P D A Q) (Loader C P D A Q × Bool) → Loader C P D A Q
  | .error s => s
  | .ok (s, _) => s

omit [LinearOrder C] [Bot C] in
theorem leftBySync_map
    (result : Except (Loader C P D A Q) (Loader C P D A Q)) :
    leftBySync (result.map fun s => (s, true)) = Loader.exitState result := by
  cases result <;> rfl

omit [LinearOrder C] [Bot C] in
theorem quiescent_of_calls {d : ConcurrentDocument C P D A Q}
    {call : SyncCall C P} (hcalls : d.calls = [call])
    (hdone : ¬call.InProgress) : d.Quiescent := by
  intro call' hcall'
  rw [hcalls, List.mem_singleton] at hcall'
  exact hcall' ▸ hdone

/-- Blocks arrive in any order. -/
theorem arrivals_alone {changeId : Option C}
    {changes : ChangeTree C (NodeData P)} {parses : Bool}
    (arrived : List (RecentTip C)) :
    ∀ {pending : List (RecentTip C)} {d : ConcurrentDocument C P D A Q},
      arrived.Perm pending →
      d.calls = [.fetching changeId changes pending parses] →
      ∃ events, (exec (step p) d events).loader =
          arrived.foldl (Loader.landBlock p store) d.loader ∧
        (exec (step p) d events).calls =
          [.fetching changeId changes [] parses] := by
  induction arrived with
  | nil =>
      intro pending d hperm hcalls
      rw [← hperm.nil_eq] at hcalls
      exact ⟨[], rfl, hcalls⟩
  | cons tip arrived ih =>
      intro pending d hperm hcalls
      obtain ⟨k, hk⟩ := List.getElem?_of_mem
        (hperm.mem_iff.1 List.mem_cons_self)
      obtain ⟨hlt, heq⟩ := List.getElem?_eq_some_iff.1 hk
      have hrest : arrived.Perm (pending.eraseIdx k) := by
        have hsplit := List.getElem_cons_eraseIdx_perm hlt
        rw [heq] at hsplit
        exact (hperm.trans hsplit.symm).cons_inv
      let event : ConcurrentEvent C P D :=
        .arrive 0 k (Loader.getBlock p store d.loader.keychain tip.1)
      have hlanded : (d.step p event).loader =
          d.loader.landBlock p store tip ∧
          (d.step p event).calls =
            [.fetching changeId changes (pending.eraseIdx k) parses] := by
        change (d.arrive p 0 k _).loader = _ ∧ (d.arrive p 0 k _).calls = _
        unfold arrive Loader.landBlock
        rw [hcalls, List.getElem?_cons_zero]
        dsimp only
        rw [hk]
        dsimp only
        cases Loader.getBlock p store d.loader.keychain tip.1 with
        | none => exact ⟨rfl, rfl⟩
        | some content => exact ⟨rfl, rfl⟩
      obtain ⟨events, hloader, hend⟩ := ih hrest hlanded.2
      refine ⟨event :: events, ?_, hend⟩
      rw [exec_cons, hloader, hlanded.1]
      rfl

/-- The fetches of a call, and the cached message behind them. -/
theorem startFetches_alone {changeId : Option C}
    {changes : ChangeTree C (NodeData P)} {missing : List (RecentTip C)}
    {d : ConcurrentDocument C P D A Q} {call : SyncCall C P}
    (hcalls : d.calls = [call]) :
    ∃ events,
      (exec (step p) (d.startFetches p 0 changeId changes missing)
          events).loader =
        Loader.exitState ((d.loader.fetchMissing p store missing).map fun s =>
          s.refreshLastSyncMessageFromSync p changeId changes) ∧
      (exec (step p) (d.startFetches p 0 changeId changes missing)
        events).Quiescent := by
  unfold startFetches Loader.fetchMissing
  split
  · rename_i hempty
    rw [List.isEmpty_iff.1 hempty]
    have hnone : store.arrival [] = [] := (store.arrival_perm []).eq_nil
    have hdone : d.calls.set 0 .returned = [.returned] := by
      rw [hcalls]
      rfl
    refine ⟨[], ?_, ?_⟩
    · simp only [List.takeWhile_nil, hnone, List.all_nil]
      rfl
    · exact quiescent_of_calls hdone id
  · obtain ⟨events, hloader, hend⟩ := arrivals_alone p store
      (store.arrival (missing.takeWhile fun tip => p.parse tip.1))
      (d := { d with
        calls := d.calls.set 0 (.fetching changeId changes
          (missing.takeWhile fun tip => p.parse tip.1)
          (missing.all fun tip => p.parse tip.1)) })
      (store.arrival_perm _) (by rw [hcalls]; rfl)
    dsimp only at hloader hend ⊢
    cases hparse : missing.all fun tip => p.parse tip.1 with
    | false =>
        rw [hparse] at hloader hend
        refine ⟨events, hloader, quiescent_of_calls hend ?_⟩
        simp [SyncCall.InProgress]
    | true =>
        rw [hparse] at hloader hend
        refine ⟨events ++ [.resume 0], ?_, ?_⟩
        · rw [exec_append, exec_cons, exec_nil, step, hend]
          dsimp only [List.getElem?_cons_zero, resume]
          rw [hloader]
          rfl
        · rw [exec_append, exec_cons, exec_nil, step, hend]
          dsimp only [List.getElem?_cons_zero, resume]
          refine quiescent_of_calls (?_ : _ = [SyncCall.returned]) id
          rw [hend]
          rfl

/-- `_syncDocumentChanges` from the merge on. -/
theorem applyEntries_alone {changeId : Option C}
    {changes : ChangeTree C (NodeData P)} {entries : List (C × NodeData P)}
    {d : ConcurrentDocument C P D A Q} {call : SyncCall C P}
    (hcalls : d.calls = [call]) :
    ∃ events,
      (exec (step p) (d.applyEntries p 0 changeId changes entries)
          events).loader =
        Loader.exitState ((entries.foldlM (applySent p)
          (d.loader, ⟨d.loader.document, [], []⟩)).bind fun result =>
            ((result.1.finishSent result.2).fetchMissing p store
              result.2.missingDocumentHashes).map fun s =>
                s.refreshLastSyncMessageFromSync p changeId changes) ∧
      (exec (step p) (d.applyEntries p 0 changeId changes entries)
        events).Quiescent := by
  unfold applyEntries
  cases entries.foldlM (applySent p)
      (d.loader, ⟨d.loader.document, [], []⟩) with
  | error failed =>
      have hdone : d.calls.set 0 .returned = [.returned] := by
        rw [hcalls]
        rfl
      exact ⟨[], rfl, quiescent_of_calls hdone id⟩
  | ok result =>
      obtain ⟨loader, sent⟩ := result
      dsimp only [Except.bind]
      split
      · exact startFetches_alone p store hcalls
      · have hnotifying : d.calls.set 0 (.notifying changeId changes
            sent.missingDocumentHashes) = [.notifying changeId changes
              sent.missingDocumentHashes] := by
          rw [hcalls]
          rfl
        rw [hnotifying]
        obtain ⟨events, hloader, hquiescent⟩ := startFetches_alone p store
          (d := ⟨loader.finishSent sent,
            d.applied ∪ (documentCids sent.newDocumentTips).toFinset,
            [.notifying changeId changes sent.missingDocumentHashes]⟩) rfl
        exact ⟨.resume 0 :: events, hloader, hquiescent⟩

/-- A message that starts no call. -/
theorem receive_alone {d d' : ConcurrentDocument C P D A Q}
    {message : SyncMessage C P} (hreceive : d.receive p message = d')
    (hcalls : d'.calls = []) :
    ∃ events,
      (exec (step p) d (.receive message :: events)).loader = d'.loader ∧
      (exec (step p) d (.receive message :: events)).Quiescent := by
  refine ⟨[], ?_, ?_⟩
  · rw [exec_cons, exec_nil, step, hreceive]
  · intro call hcall
    rw [exec_cons, exec_nil, step, hreceive, hcalls] at hcall
    exact absurd hcall List.not_mem_nil

/-- `sync` of a signed message without a snapshot. -/
theorem sync_of_signed (s : Loader C P D A Q) {message : SyncMessage C P}
    (hsnapshot : message.snapshot = none)
    (hsigned : (p.signingEnabled && Loader.unsigned message) = false) :
    s.sync p store message false =
      ((s.mergeKeychainChanges p message.keychainChanges).bind fun s =>
        message.changes.elim (.ok s) (s.applyACLFromTree p)).bind fun s =>
          (message.changes.elim (.ok s) (s.syncDocumentChanges p store
            message.changeId)).map fun s => (s, true) := by
  unfold Loader.sync
  rw [hsigned, if_neg Bool.false_ne_true, Bool.and_false, Bool.false_and,
    if_neg Bool.false_ne_true, hsnapshot]
  cases s.mergeKeychainChanges p message.keychainChanges with
  | error s₁ => rfl
  | ok s₁ =>
      dsimp only [Except.bind]
      cases message.changes.elim (.ok s₁) (s₁.applyACLFromTree p) with
      | error s₂ => rfl
      | ok s₂ => rfl

omit [Bot C] in
/-- A message whose tree brings entries starts a call that merges them. -/
theorem receive_of_entries {s loader : Loader C P D A Q} (applied : Finset C)
    {message : SyncMessage C P} {changes : ChangeTree C (NodeData P)}
    {entries : List (C × NodeData P)}
    (hbefore : ((s.mergeKeychainChanges p message.keychainChanges).bind fun s =>
      message.changes.elim (.ok s) (s.applyACLFromTree p)) = .ok loader)
    (hchanges : message.changes = some changes)
    (hentries : loader.newEntries message.changeId changes = some entries) :
    ConcurrentDocument.receive p ⟨s, applied, []⟩ message =
      ⟨loader.noteReferenced message.changeId changes, applied,
        [.merging message.changeId changes entries]⟩ := by
  have hnoted : (loader.noteReferenced message.changeId changes).newEntries
      message.changeId changes = some entries := hentries
  unfold receive
  rw [hbefore, hchanges]
  dsimp only
  rw [hnoted]
  rfl

omit [Bot C] in
/-- A message whose tree is not merged starts no call. -/
theorem receive_of_no_entries {s loader : Loader C P D A Q}
    (applied : Finset C) {message : SyncMessage C P}
    {changes : ChangeTree C (NodeData P)}
    (hbefore : ((s.mergeKeychainChanges p message.keychainChanges).bind fun s =>
      message.changes.elim (.ok s) (s.applyACLFromTree p)) = .ok loader)
    (hchanges : message.changes = some changes)
    (hentries : loader.newEntries message.changeId changes = none) :
    ConcurrentDocument.receive p ⟨s, applied, []⟩ message =
      ⟨loader.noteReferenced message.changeId changes, applied, []⟩ := by
  have hnoted : (loader.noteReferenced message.changeId changes).newEntries
      message.changeId changes = none := hentries
  unfold receive
  rw [hbefore, hchanges]
  dsimp only
  rw [hnoted]

/-- A message without a snapshot, processed without interruption, leaves what
`sync` leaves. -/
theorem sync_alone (s : Loader C P D A Q) (applied : Finset C)
    {message : SyncMessage C P} (hsnapshot : message.snapshot = none)
    (hsigned : (p.signingEnabled && Loader.unsigned message) = false) :
    ∃ events,
      (exec (step p) ⟨s, applied, []⟩ (.receive message :: events)).loader =
        leftBySync (s.sync p store message false) ∧
      (exec (step p) ⟨s, applied, []⟩
        (.receive message :: events)).Quiescent := by
  rw [sync_of_signed p store s hsnapshot hsigned]
  cases hbefore : (s.mergeKeychainChanges p message.keychainChanges).bind
      fun s => message.changes.elim (.ok s) (s.applyACLFromTree p) with
  | error loader =>
      have hreceive : ConcurrentDocument.receive p ⟨s, applied, []⟩ message =
          ⟨loader, applied, []⟩ := by
        unfold receive
        rw [hbefore]
      exact receive_alone p hreceive rfl
  | ok loader =>
      cases hchanges : message.changes with
      | none =>
          have hreceive : ConcurrentDocument.receive p ⟨s, applied, []⟩
              message = ⟨loader, applied, []⟩ := by
            unfold receive
            rw [hbefore, hchanges]
          exact receive_alone p hreceive rfl
      | some changes =>
          dsimp only [Except.bind, Option.elim_some]
          rw [Loader.syncDocumentChanges_eq]
          cases hentries : loader.newEntries message.changeId changes with
          | none =>
              exact receive_alone p
                (receive_of_no_entries p applied hbefore hchanges hentries) rfl
          | some entries =>
              have hreceive := receive_of_entries p applied hbefore hchanges
                hentries
              obtain ⟨events, hloader, hquiescent⟩ :=
                @applyEntries_alone C P D A Q U K H _ _ p store
                  message.changeId changes entries
                  ⟨loader.noteReferenced message.changeId changes, applied,
                    [.merging message.changeId changes entries]⟩ _ rfl
              refine ⟨.resume 0 :: events, ?_, ?_⟩
              · rw [exec_cons, step, hreceive]
                exact hloader.trans (leftBySync_map _).symm
              · rw [exec_cons, step, hreceive]
                exact hquiescent

end Alone

end ConcurrentDocument

end Collabswarm.Load
