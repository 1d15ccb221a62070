import Collabswarm.Load.Loader

/-!
# Loading from one peer

`_sendLoadRequestAndSync`, from the bytes of the response.  In the quorum-bound
branch the response must have the frontier that the quorum agreed on, its
payloads are stripped, its blocks are retrieved ahead, and `sync` merges it.
At the end every CID of its tree must be known.
-/

namespace Collabswarm.Load

open Document (BindFailure)

/-- What the caller learns: the response was applied, `false` was returned, the
peer is recorded as having failed the binding, or another error was thrown. -/
inductive LoadOutcome (H : Type) where
  | accepted
  | rejected
  | bindFailed (failure : BindFailure H)
  | threw

namespace Loader

variable {C P D A Q U K H : Type} (p : Providers C P D A Q U K H)

/-- Decrypt and deserialize a response. -/
def readResponse (keychain : Q) (assembled : Bytes) :
    Except (LoadOutcome H) (SyncMessage C P) :=
  let headerLength := p.keyIDLength + p.nonceBits
  if assembled.length = 0 then .error .rejected
  else if assembled.length ≤ headerLength then .error .rejected
  else
    match p.getKey keychain (assembled.take p.keyIDLength) with
    | none => .error .rejected
    | some key =>
        let blockNonce := (assembled.drop p.keyIDLength).take p.nonceBits
        match p.decrypt (assembled.drop headerLength) key blockNonce with
        | none => .error .threw
        | some rawContent =>
            match p.deserializeSyncMessage rawContent with
            | none => .error .threw
            | some message => .ok message

/-- The check of the outer signature, which is skipped while no writer is
known. -/
def acceptsSignature (s : Loader C P D A Q) (message : SyncMessage C P) :
    Bool :=
  if p.signingEnabled then
    if (p.users s.writers).length = 0 then true
    else if unsigned message then false
    else s.signedByWriter p message
  else true

variable [LinearOrder C] [Bot C] [DecidableEq H]

/-- What a response ships, by the tips it serves. -/
def servedFrontier (message : SyncMessage C P) : List C :=
  Merkle.computeServedFrontier message.changeId message.changes
    (message.snapshot.map SnapshotNode.lastChangeNodeCID)

/-- The response without payloads, and without its snapshot if no writer is
known. -/
def stripResponse (s : Loader C P D A Q) (message : SyncMessage C P) :
    SyncMessage C P :=
  { message with
    changes := message.changes.map Merkle.stripInlineChanges
    snapshot :=
      if (p.users s.writers).length = 0 then none else message.snapshot }

/-- The checks of the quorum-bound branch before `sync`: the stripped response
and the CIDs expected of it. -/
def bindResponse (store : Blockstore C) (s : Loader C P D A Q)
    (message : SyncMessage C P) (expectedTipsHash : H) :
    Except (BindFailure H) (SyncMessage C P × List C) :=
  let served := p.tipsHash (servedFrontier message)
  if expectedTipsHash ≠ served then .error (.servedHash served)
  else
    match message.tips with
    | none => .error .missingTips
    | some tips =>
        let advertised := p.tipsHash tips
        if served ≠ advertised then .error (.advertisedHash advertised)
        else
          let expectedCids :=
            Merkle.collectAllCidsInTree message.changeId message.changes
          let message := s.stripResponse p message
          if message.changes.isNone ∧ message.snapshot.isNone then
            .error .snapshotOnlyFirstLoad
          else if expectedCids.all fun cid =>
              p.parse cid && store.prefetch cid then
            .ok (message, expectedCids)
          else .error .prefetchMissingBlocks

/-- A response that passes the checks of the quorum-bound branch. -/
structure Bound (store : Blockstore C) (s : Loader C P D A Q)
    (message : SyncMessage C P) (expectedTipsHash : H) : Prop where
  served : p.tipsHash (servedFrontier message) = expectedTipsHash
  advertised : ∃ tips, message.tips = some tips ∧
    p.tipsHash tips = expectedTipsHash
  usable : message.changes ≠ none ∨ (s.stripResponse p message).snapshot ≠ none
  retrieved : ∀ cid ∈ Merkle.collectAllCidsInTree message.changeId
    message.changes, p.parse cid = true ∧ store.prefetch cid = true

/-- The checks let a response through if and only if it is bound. -/
theorem bindResponse_iff {store : Blockstore C} {s : Loader C P D A Q}
    {message : SyncMessage C P} {expectedTipsHash : H}
    {bound : SyncMessage C P × List C} :
    s.bindResponse p store message expectedTipsHash = .ok bound ↔
      s.Bound p store message expectedTipsHash ∧
        bound = (s.stripResponse p message,
          Merkle.collectAllCidsInTree message.changeId message.changes) := by
  unfold bindResponse
  dsimp only
  by_cases hserved : expectedTipsHash = p.tipsHash (servedFrontier message)
  · rw [if_neg (not_not.2 hserved)]
    cases htips : message.tips with
    | none =>
        apply iff_of_false (by simp)
        rintro ⟨⟨-, ⟨tips, hsome, -⟩, -, -⟩, -⟩
        cases htips.symm.trans hsome
    | some tips =>
        dsimp only
        by_cases hadvertised :
            p.tipsHash (servedFrontier message) = p.tipsHash tips
        · rw [if_neg (not_not.2 hadvertised)]
          have husable : ¬((s.stripResponse p message).changes.isNone = true ∧
              (s.stripResponse p message).snapshot.isNone = true) ↔
              message.changes ≠ none ∨
                (s.stripResponse p message).snapshot ≠ none := by
            rw [not_and_or, Option.isNone_iff_eq_none,
              Option.isNone_iff_eq_none]
            simp [stripResponse]
          have hretrieved : (Merkle.collectAllCidsInTree message.changeId
              message.changes).all
                (fun cid => p.parse cid && store.prefetch cid) = true ↔
              ∀ cid ∈ Merkle.collectAllCidsInTree message.changeId
                message.changes, p.parse cid = true ∧
                  store.prefetch cid = true := by
            simp
          split
          · rename_i hnothing
            apply iff_of_false (by simp)
            rintro ⟨hbound, -⟩
            exact husable.2 hbound.usable hnothing
          · rename_i hsomething
            split
            · rename_i hall
              constructor
              · intro h
                cases h
                exact ⟨⟨hserved.symm,
                  ⟨tips, htips, (hserved.trans hadvertised).symm⟩,
                  husable.1 hsomething, hretrieved.1 hall⟩, rfl⟩
              · rintro ⟨-, rfl⟩
                rfl
            · rename_i hmissing
              apply iff_of_false (by simp)
              rintro ⟨hbound, -⟩
              exact hmissing (hretrieved.2 hbound.retrieved)
        · rw [if_pos hadvertised]
          apply iff_of_false (by simp)
          rintro ⟨⟨hexpected, ⟨tips', hsome, hhash⟩, -, -⟩, -⟩
          cases htips.symm.trans hsome
          exact hadvertised (hexpected.trans hhash.symm)
  · rw [if_pos hserved]
    apply iff_of_false (by simp)
    rintro ⟨hbound, -⟩
    exact hserved hbound.served.symm

/-- The call of `sync` and the check that every expected CID is known. -/
def syncExpected (store : Blockstore C) (s : Loader C P D A Q)
    (message : SyncMessage C P) (expectedCids : List C) :
    Loader C P D A Q × LoadOutcome H :=
  match s.sync p store message false with
  | .error s => (s, .threw)
  | .ok (s, false) => (s, .rejected)
  | .ok (s, true) =>
      if expectedCids.all (· ∈ s.hashes) then (s, .accepted)
      else (s, .bindFailed .missingBlocks)

/-- The quorum-bound branch. -/
def quorumBoundLoad (store : Blockstore C) (s : Loader C P D A Q)
    (message : SyncMessage C P) (expectedTipsHash : H) :
    Loader C P D A Q × LoadOutcome H :=
  match s.bindResponse p store message expectedTipsHash with
  | .error failure => (s, .bindFailed failure)
  | .ok (message, expectedCids) => s.syncExpected p store message expectedCids

/-- `_sendLoadRequestAndSync`, once the response is read. -/
def handleResponse (store : Blockstore C) (s : Loader C P D A Q)
    (message : SyncMessage C P) (expectedTipsHash : Option H) :
    Loader C P D A Q × LoadOutcome H :=
  if message.documentId ≠ p.documentPath then (s, .rejected)
  else if s.acceptsSignature p message = false then (s, .rejected)
  else
    match expectedTipsHash with
    | none => s.syncExpected p store message []
    | some expectedTipsHash =>
        s.quorumBoundLoad p store message expectedTipsHash

/-- `_sendLoadRequestAndSync`. -/
def sendLoadRequestAndSync (store : Blockstore C) (s : Loader C P D A Q)
    (assembled : Bytes) (expectedTipsHash : Option H) :
    Loader C P D A Q × LoadOutcome H :=
  match readResponse p s.keychain assembled with
  | .error outcome => (s, outcome)
  | .ok message => s.handleResponse p store message expectedTipsHash

end Loader

/-- Change `2` over change `1`, with payloads. -/
def twoWithPayloads (change change' : ℕ) : SyncMessage ℕ (List ℕ) where
  documentId := "document"
  changeId := some 2
  changes := some (.node ⟨.document, some [change]⟩ (.present
    (.cons 1 (.node ⟨.document, some [change']⟩ .absent) .nil)))
  snapshot := none
  keychainChanges := none
  tips := some [2]
  signature := some "a"

/-- Two responses, of which the second has forged payloads. -/
def honestAndForged : Bytes → Option (SyncMessage ℕ (List ℕ))
  | [1] => some (twoWithPayloads 2 1)
  | [2] => some (twoWithPayloads 9 8)
  | _ => none

end Collabswarm.Load
