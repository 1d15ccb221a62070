import Collabswarm.Document.AutomaticCompaction
import Collabswarm.Load.Loader
import Collabswarm.Support.InsertionSet

/-!
# Transactions that fail

`endChange` with `_makeChange` and `_maybeCompact`, while nothing else happens
to the document.  The ACL, the CRDT provider, the blockstore, the cryptography,
the network and the handlers of the application are parameters; a step that
throws is an `error` with the state it leaves.  A local change returns a new
document, as with an immutable provider, and `snapshot` changes nothing if it
throws.
-/

namespace Collabswarm.Document

open Merkle (ChangeTree ChildMap ChildEntries NodeData)

/-- The fields of a document that a transaction reads or writes.  A queued
function rewrites a draft of type `T` or throws. -/
structure TransactionDocument (C P D T : Type) where
  document : D
  hashes : InsertionSet C
  referencedAncestors : InsertionSet C
  lastSyncMessage : Option (Load.SyncMessage C P)
  documentChangeCount : ℕ
  changesSinceSnapshot : ℕ
  recentTips : List (RecentTip C)
  snapshotUnsupported : Bool
  compactionInProgress : Bool
  inTransaction : Bool
  committing : Bool
  pendingChangeFns : List (T → Option T)

/-- What an attempt meets.  `none` and a publication or handlers that are
`false` are what throws; the keychain and the writers are asked twice. -/
structure CommitOutcomes (C P D T K : Type) where
  documentPath : String
  settings : CompactionSettings
  isWriter : Option Bool
  localChange : D → String → (T → Option T) → Option (D × P)
  storingKey : Option (Bytes × Option K)
  serializeChanges : P → Option Bytes
  encrypt : Bytes → K → Option (Option Bytes × Bytes)
  addBytes : Bytes → Option C
  sign : Load.SyncMessage C P → Option String
  serializeSyncMessage : Load.SyncMessage C P → Option Bytes
  publishingKey : Option (Bytes × Option K)
  publish : Bytes → Bool
  localHandlers : D → List C → Bool
  isCompactingWriter : Option Bool
  snapshot : TransactionDocument C P D T →
    Option (TransactionDocument C P D T)

section Commit

variable {C P D T K : Type} (env : CommitOutcomes C P D T K)

/-- Encrypt a text with the current key, behind the number of the key and the
nonce. -/
def CommitOutcomes.seal (current : Option (Bytes × Option K))
    (content : Bytes) : Option Bytes :=
  match current with
  | none => none
  | some (_, none) => none
  | some (documentKeyID, some documentKey) =>
      match env.encrypt content documentKey with
      | none => none
      | some (none, _) => none
      | some (some nonce, data) => some (documentKeyID ++ nonce ++ data)

/-- `_putBlock`. -/
def CommitOutcomes.putBlock (block : P) : Option C :=
  match env.serializeChanges block with
  | none => none
  | some content => (env.seal env.storingKey content).bind env.addBytes

/-- The composition of the queued functions. -/
def composedFn (pendingFns : List (T → Option T)) (doc : T) : Option T :=
  pendingFns.foldlM (fun doc fn => fn doc) doc

namespace TransactionDocument

/-- `_createSyncMessage`. -/
def createSyncMessage (s : TransactionDocument C P D T) :
    Load.SyncMessage C P :=
  s.lastSyncMessage.getD
    ⟨env.documentPath, none, none, none, none, none, none⟩

/-- `_signAsWriter`. -/
def signAsWriter (message : Load.SyncMessage C P) : Option String :=
  if env.settings.signingEnabled then
    env.sign { message with signature := none }
  else some ""

/-- `_maybeCompact`. -/
def maybeCompact (s : TransactionDocument C P D T) :
    Except (TransactionDocument C P D T) (TransactionDocument C P D T) :=
  if !env.settings.enabled || s.snapshotUnsupported then .ok s
  else if s.compactionInProgress then .ok s
  else if s.documentChangeCount < env.settings.minChangesBeforeSnapshot then
    .ok s
  else if s.changesSinceSnapshot < env.settings.snapshotInterval then .ok s
  else
    match env.isCompactingWriter with
    | none => .error s
    | some false => .ok s
    | some true =>
        match env.snapshot { s with compactionInProgress := true } with
        | none => .error { s with compactionInProgress := false }
        | some s => .ok { s with compactionInProgress := false }

end TransactionDocument

/-- Append an entry to a map of children. -/
def concatChild {L : Type} (cid : C) (child : ChangeTree C L) :
    ChildEntries C L → ChildEntries C L
  | .nil => .cons cid child .nil
  | .cons cid' child' rest => .cons cid' child' (concatChild cid child rest)

variable [DecidableEq C]

/-- Add a cross-link as a deferred leaf, unless the CID is a child already. -/
def linkChild (entries : ChildEntries C (NodeData P)) (tip : RecentTip C) :
    ChildEntries C (NodeData P) :=
  if tip.1 ∈ entries.toList.map Prod.fst then entries
  else concatChild tip.1 (.node ⟨tip.2, none⟩ .absent) entries

/-- The children of the node that `_makeChange` builds over a message. -/
def newChildren [Bot C] (message : Load.SyncMessage C P)
    (recentTips : List (RecentTip C)) (hash : C) : ChildMap C (NodeData P) :=
  match message.changeId, message.changes with
  | some primaryParentId, some changes =>
      if primaryParentId = ⊥ then .absent
      else .present
        ((selectCrossLinks recentTips primaryParentId hash maxCrossLinks).foldl
          linkChild (.cons primaryParentId changes .nil))
  | _, _ => .absent

namespace TransactionDocument

variable [Bot C]

/-- The part of `_makeChange` before the signature, with the message it
builds. -/
def buildChange (s : TransactionDocument C P D T) (changes : P)
    (kind : NodeKind) (hash : C) :
    TransactionDocument C P D T × Load.SyncMessage C P :=
  let updateMessage := s.createSyncMessage env
  let children := newChildren updateMessage s.recentTips hash
  ({ s with
      hashes := s.hashes.add hash
      referencedAncestors :=
        (children.toEntries.toList.map Prod.fst).foldl InsertionSet.add
          s.referencedAncestors
      recentTips := trackTipInList s.recentTips (hash, kind) maxRecentTips },
    { updateMessage with
      changeId := some hash
      changes := some (.node ⟨kind, some changes⟩ children) })

/-- The part of `_makeChange` from the signature on. -/
def announceChange (s : TransactionDocument C P D T) (kind : NodeKind)
    (hash : C) (updateMessage : Load.SyncMessage C P) :
    Except (TransactionDocument C P D T) (TransactionDocument C P D T) :=
  match signAsWriter env updateMessage with
  | none => .error s
  | some signature =>
      let updateMessage := { updateMessage with signature := some signature }
      let s := { s with lastSyncMessage := some updateMessage }
      match (env.serializeSyncMessage updateMessage).bind
          (env.seal env.publishingKey) with
      | none => .error s
      | some message =>
          if !env.publish message then .error s
          else if !env.localHandlers s.document [hash] then .error s
          else if kind = .document then
            { s with
              documentChangeCount := s.documentChangeCount + 1
              changesSinceSnapshot :=
                s.changesSinceSnapshot + 1 }.maybeCompact env
          else .ok s

/-- `_makeChange`. -/
def makeChange (s : TransactionDocument C P D T) (changes : P)
    (kind : NodeKind) :
    Except (TransactionDocument C P D T) (TransactionDocument C P D T) :=
  match env.putBlock changes with
  | none => .error s
  | some hash =>
      let (s, updateMessage) := s.buildChange env changes kind hash
      s.announceChange env kind hash updateMessage

/-- What `endChange` tries. -/
def commit (s : TransactionDocument C P D T) (message : String)
    (pendingFns : List (T → Option T)) :
    Except (TransactionDocument C P D T) (TransactionDocument C P D T) :=
  if env.isWriter = some true then
    match env.localChange s.document message (composedFn pendingFns) with
    | none => .error s
    | some (newDocument, changes) =>
        { s with document := newDocument }.makeChange env changes .document
  else .error s

/-- What `endChange` does when the attempt threw, with what it noted before. -/
def rollBack (before s : TransactionDocument C P D T) :
    TransactionDocument C P D T :=
  { s with
    document := before.document
    hashes := s.hashes.deletePast before.hashes.size
    referencedAncestors :=
      s.referencedAncestors.deletePast before.referencedAncestors.size
    lastSyncMessage := before.lastSyncMessage
    documentChangeCount := before.documentChangeCount
    changesSinceSnapshot := before.changesSinceSnapshot
    recentTips := before.recentTips
    inTransaction := false
    pendingChangeFns := [] }

/-- `endChange`. -/
def endChange (s : TransactionDocument C P D T) (message : String) :
    Except (TransactionDocument C P D T) (TransactionDocument C P D T) :=
  if !s.inTransaction then .error s
  else if s.committing then .error s
  else if s.pendingChangeFns.isEmpty then
    .ok { s with
      inTransaction := false
      pendingChangeFns := [] }
  else
    match { s with committing := true }.commit env message
        s.pendingChangeFns with
    | .error failed => .error { s.rollBack failed with committing := false }
    | .ok s =>
        .ok { s with
          inTransaction := false
          pendingChangeFns := []
          committing := false }

/-! ## What an attempt leaves -/

/-- Both sets have grown at their ends only. -/
structure Extended (s s' : TransactionDocument C P D T) : Prop where
  hashes : s.hashes.Extends s'.hashes
  referencedAncestors : s.referencedAncestors.Extends s'.referencedAncestors

omit [DecidableEq C] [Bot C] in
theorem Extended.of_eq {s s' : TransactionDocument C P D T}
    (hhashes : s'.hashes = s.hashes)
    (hreferenced : s'.referencedAncestors = s.referencedAncestors) :
    Extended s s' := by
  constructor
  · rw [hhashes]
    exact InsertionSet.Extends.refl _
  · rw [hreferenced]
    exact InsertionSet.Extends.refl _

theorem buildChange_extended (s : TransactionDocument C P D T) (changes : P)
    (kind : NodeKind) (hash : C) :
    Extended s (s.buildChange env changes kind hash).1 :=
  ⟨InsertionSet.extends_add _ _, InsertionSet.extends_foldl_add _ _⟩

variable {env}

omit [DecidableEq C] [Bot C] in
theorem maybeCompact_extended {s failed : TransactionDocument C P D T}
    (h : s.maybeCompact env = .error failed) : Extended s failed := by
  unfold maybeCompact at h
  split at h
  · cases h
  split at h
  · cases h
  split at h
  · cases h
  split at h
  · cases h
  split at h
  · cases h
    exact Extended.of_eq rfl rfl
  · cases h
  · split at h
    · cases h
      exact Extended.of_eq rfl rfl
    · cases h

omit [DecidableEq C] [Bot C] in
theorem announceChange_extended {s failed : TransactionDocument C P D T}
    {kind : NodeKind} {hash : C} {updateMessage : Load.SyncMessage C P}
    (h : s.announceChange env kind hash updateMessage = .error failed) :
    Extended s failed := by
  unfold announceChange at h
  split at h
  · cases h
    exact Extended.of_eq rfl rfl
  · dsimp only at h
    split at h
    · cases h
      exact Extended.of_eq rfl rfl
    · split at h
      · cases h
        exact Extended.of_eq rfl rfl
      split at h
      · cases h
        exact Extended.of_eq rfl rfl
      split at h
      · have hcompacted := maybeCompact_extended h
        exact ⟨hcompacted.hashes, hcompacted.referencedAncestors⟩
      · cases h

/-- Wherever `_makeChange` throws, the sets have grown at their ends only. -/
theorem makeChange_extended {s failed : TransactionDocument C P D T}
    {changes : P} {kind : NodeKind}
    (h : s.makeChange env changes kind = .error failed) :
    Extended s failed := by
  unfold makeChange at h
  split at h
  · cases h
    exact Extended.of_eq rfl rfl
  · rename_i hash _
    have hbuilt := buildChange_extended env s changes kind hash
    have hannounced := announceChange_extended h
    exact ⟨hbuilt.hashes.trans hannounced.hashes,
      hbuilt.referencedAncestors.trans hannounced.referencedAncestors⟩

theorem commit_extended {s failed : TransactionDocument C P D T}
    {message : String} {pendingFns : List (T → Option T)}
    (h : s.commit env message pendingFns = .error failed) :
    Extended s failed := by
  unfold commit at h
  split at h
  · split at h
    · cases h
      exact Extended.of_eq rfl rfl
    · have hmade := makeChange_extended h
      exact ⟨hmade.hashes, hmade.referencedAncestors⟩
  · cases h
    exact Extended.of_eq rfl rfl

/-! ## What the rollback restores -/

/-- The document is as before, and no transaction is open. -/
structure Restored (s s' : TransactionDocument C P D T) : Prop where
  document : s'.document = s.document
  hashes : s'.hashes = s.hashes
  referencedAncestors : s'.referencedAncestors = s.referencedAncestors
  lastSyncMessage : s'.lastSyncMessage = s.lastSyncMessage
  documentChangeCount : s'.documentChangeCount = s.documentChangeCount
  changesSinceSnapshot : s'.changesSinceSnapshot = s.changesSinceSnapshot
  recentTips : s'.recentTips = s.recentTips
  inTransaction : s'.inTransaction = false

omit [Bot C] in
theorem rollBack_restored {s failed : TransactionDocument C P D T}
    (h : Extended s failed) : Restored s (s.rollBack failed) where
  document := rfl
  hashes := InsertionSet.deletePast_of_extends h.hashes
  referencedAncestors :=
    InsertionSet.deletePast_of_extends h.referencedAncestors
  lastSyncMessage := rfl
  documentChangeCount := rfl
  changesSinceSnapshot := rfl
  recentTips := rfl
  inTransaction := rfl

/-- A transaction that fails, at whatever step, leaves the document as it
was. -/
theorem endChange_restored (env : CommitOutcomes C P D T K)
    (s : TransactionDocument C P D T) (message : String)
    (hopen : s.inTransaction = true) (hidle : s.committing = false)
    {failed : TransactionDocument C P D T}
    (h : s.endChange env message = .error failed) : Restored s failed := by
  unfold endChange at h
  rw [hopen, hidle, Bool.not_true, if_neg Bool.false_ne_true,
    if_neg Bool.false_ne_true] at h
  split at h
  · cases h
  · split at h
    · rename_i hcommit
      cases h
      have hextended := commit_extended hcommit
      have hrestored : Restored s (s.rollBack _) :=
        rollBack_restored ⟨hextended.hashes, hextended.referencedAncestors⟩
      exact ⟨hrestored.document, hrestored.hashes,
        hrestored.referencedAncestors, hrestored.lastSyncMessage,
        hrestored.documentChangeCount, hrestored.changesSinceSnapshot,
        hrestored.recentTips, hrestored.inTransaction⟩
    · cases h

end TransactionDocument

end Commit

/-! ## A publication that fails -/

/-- Documents that are lists of numbers, and a network that is down. -/
def offlineOutcomes :
    CommitOutcomes ℕ (List ℕ) (List ℕ) (List ℕ) Unit where
  documentPath := "document"
  settings := ⟨true, 1, 1, true, true⟩
  isWriter := some true
  localChange document _ fn :=
    (fn []).map fun changes => (document ++ changes, changes)
  storingKey := some ([7], some ())
  serializeChanges changes := some (changes.map UInt8.ofNat)
  encrypt content _ := some (some [0], content)
  addBytes block := some block.length
  sign _ := some "signature"
  serializeSyncMessage _ := some []
  publishingKey := some ([7], some ())
  publish _ := false
  localHandlers _ _ := true
  isCompactingWriter := some true
  snapshot := some

/-- A document with change `1` and a transaction that appends `5`. -/
def openTransaction :
    TransactionDocument ℕ (List ℕ) (List ℕ) (List ℕ) where
  document := [4]
  hashes := InsertionSet.empty.add 1
  referencedAncestors := InsertionSet.empty
  lastSyncMessage := some ⟨"document", some 1,
    some (.node ⟨.document, some [4]⟩ .absent), none, none, none, some ""⟩
  documentChangeCount := 1
  changesSinceSnapshot := 1
  recentTips := [(1, .document)]
  snapshotUnsupported := false
  compactionInProgress := false
  inTransaction := true
  committing := false
  pendingChangeFns := [fun draft => some (draft ++ [5])]

theorem endChange_restored_offline :
    ∃ failed,
      openTransaction.endChange offlineOutcomes "" = .error failed ∧
        openTransaction.Restored failed :=
  ⟨_, rfl, TransactionDocument.endChange_restored offlineOutcomes
    openTransaction "" rfl rfl rfl⟩

end Collabswarm.Document
