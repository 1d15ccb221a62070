import Collabswarm.Document.QuorumLoad
import Collabswarm.Merkle.Walkers
import Collabswarm.Support.Bytes

/-!
# A document that loads

`sync` and `_syncDocumentChanges` with payloads, ACLs, keychain and encrypted
blocks.  The CRDT, the ACLs, the keychain and the cryptography are parameters;
what throws there has changed nothing.  A step that throws is an `error` with
the state it leaves.  Fetches that were started land in the order in which
their blocks arrive, and nothing else happens to the document meanwhile.
Handlers of the application, Welcomes that wait for a reader and automatic
compaction, which is off by default, are left out.
-/

namespace Collabswarm.Load

open Document (NodeKind RecentTip trackTipInList maxRecentTips)
open Merkle (ChangeTree ChildMap ChildEntries NodeData)

/-- A snapshot; `⊥` is the empty string.  Nothing reads its public key. -/
structure SnapshotNode (C P : Type) where
  state : P
  lastChangeNodeCID : C
  compactedCount : ℕ
  signature : Bytes
  timestamp : ℕ

/-- A sync message, as far as a load reads it. -/
structure SyncMessage (C P : Type) where
  documentId : String
  changeId : Option C
  changes : Option (ChangeTree C (NodeData P))
  snapshot : Option (SnapshotNode C P)
  keychainChanges : Option P
  tips : Option (List C)
  signature : Option String

/-- What the document is given: its path, the configuration of the swarm, and
the providers.  `none` is what throws. -/
structure Providers (C P D A Q U K H : Type) where
  documentPath : String
  signingEnabled : Bool
  keyIDLength : ℕ
  nonceBits : ℕ
  getKey : Q → Bytes → Option K
  mergeKeychain : Q → P → Option Q
  decrypt : Bytes → K → Bytes → Option Bytes
  verify : Bytes → U → Bytes → Bool
  deserializeSignature : String → Option Bytes
  deserializeSyncMessage : Bytes → Option (SyncMessage C P)
  serializeSyncMessage : SyncMessage C P → Bytes
  deserializeChanges : Bytes → Option P
  snapshotSignPayload : SnapshotNode C P → Option Bytes
  users : A → List U
  mergeACL : A → P → Option A
  remoteChange : D → P → Option D
  applySnapshot : D → P → Option D
  tipsHash : List C → H
  parse : C → Bool

/-- What the blockstore does during an attempt: whether it can retrieve a block
ahead, what it returns for it later, and in which order blocks arrive. -/
structure Blockstore (C : Type) where
  prefetch : C → Bool
  get : C → Option Bytes
  arrival : List (RecentTip C) → List (RecentTip C)
  arrival_perm : ∀ missing, (arrival missing).Perm missing

/-- The fields of a document that a load reads or writes. -/
structure Loader (C P D A Q : Type) where
  document : D
  hashes : Finset C
  referencedAncestors : List C
  readers : A
  writers : A
  keychain : Q
  latestSnapshot : Option (SnapshotNode C P)
  documentChangeCount : ℕ
  changesSinceSnapshot : ℕ
  lastSyncMessage : Option (SyncMessage C P)
  recentTips : List (RecentTip C)

section Sync

variable {C P D A Q U K H : Type} (p : Providers C P D A Q U K H)

namespace Loader

/-! ## The ACLs -/

/-- `_mergeWriters`. -/
def mergeWriters (s : Loader C P D A Q) (changes : P) :
    Except (Loader C P D A Q) (Loader C P D A Q) :=
  match p.mergeACL s.writers changes with
  | none => .error s
  | some writers => .ok { s with writers := writers }

/-- `_mergeReaders`. -/
def mergeReaders (s : Loader C P D A Q) (changes : P) :
    Except (Loader C P D A Q) (Loader C P D A Q) :=
  match p.mergeACL s.readers changes with
  | none => .error s
  | some readers => .ok { s with readers := readers }

/-- The part of `_applyACLFromTree` at one node. -/
def applyACLFromNode (s : Loader C P D A Q) (data : NodeData P) :
    Except (Loader C P D A Q) (Loader C P D A Q) :=
  match data.change, data.kind with
  | some change, .writer => s.mergeWriters p change
  | some change, .reader => s.mergeReaders p change
  | _, _ => .ok s

mutual

/-- `_applyACLFromTree`. -/
def applyACLFromTree (s : Loader C P D A Q) :
    ChangeTree C (NodeData P) → Except (Loader C P D A Q) (Loader C P D A Q)
  | .node data children =>
      (s.applyACLFromNode p data).bind fun s => s.applyACLFromChildren children

/-- The part of `_applyACLFromTree` below a node. -/
def applyACLFromChildren (s : Loader C P D A Q) :
    ChildMap C (NodeData P) → Except (Loader C P D A Q) (Loader C P D A Q)
  | .absent => .ok s
  | .deferred => .ok s
  | .present entries => s.applyACLFromEntries entries

/-- The loop of `_applyACLFromTree` over a map. -/
def applyACLFromEntries (s : Loader C P D A Q) :
    ChildEntries C (NodeData P) → Except (Loader C P D A Q) (Loader C P D A Q)
  | .nil => .ok s
  | .cons _ child rest =>
      (s.applyACLFromTree child).bind fun s => s.applyACLFromEntries rest

end

/-! ## Changes sent inline -/

end Loader

/-- The locals of `_syncDocumentChanges` after some of the entries: the new
document, the entries that were applied, and those without payload. -/
structure SentChanges (C D : Type) where
  newDocument : D
  newDocumentTips : List (RecentTip C)
  missingDocumentHashes : List (RecentTip C)

namespace Loader

/-- Apply an entry that has its payload. -/
def applySent (state : Loader C P D A Q × SentChanges C D)
    (entry : C × NodeData P) :
    Except (Loader C P D A Q) (Loader C P D A Q × SentChanges C D) :=
  let (s, sent) := state
  let tip := (entry.1, entry.2.kind)
  let applied :=
    { sent with newDocumentTips := sent.newDocumentTips ++ [tip] }
  match entry.2.change, entry.2.kind with
  | none, _ =>
      .ok (s, { sent with
        missingDocumentHashes := sent.missingDocumentHashes ++ [tip] })
  | some change, .document =>
      match p.remoteChange sent.newDocument change with
      | none => .error s
      | some newDocument =>
          .ok ({ s with
            documentChangeCount := s.documentChangeCount + 1
            changesSinceSnapshot := s.changesSinceSnapshot + 1 },
            { applied with newDocument := newDocument })
  | some change, .reader =>
      (s.mergeReaders p change).map fun s => (s, applied)
  | some change, .writer =>
      (s.mergeWriters p change).map fun s => (s, applied)

/-- `_trackTip`. -/
def trackTip [DecidableEq C] (s : Loader C P D A Q) (tip : RecentTip C) :
    Loader C P D A Q :=
  { s with recentTips := trackTipInList s.recentTips tip maxRecentTips }

variable [LinearOrder C] [Bot C]

/-- What `_syncDocumentChanges` writes once all entries with payload are
applied. -/
def finishSent (s : Loader C P D A Q) (sent : SentChanges C D) :
    Loader C P D A Q :=
  if sent.newDocumentTips.isEmpty then s
  else
    sent.newDocumentTips.reverse.foldl trackTip
      { s with
        document := sent.newDocument
        hashes := s.hashes ∪ (sent.newDocumentTips.map Prod.fst).toFinset }

/-! ## Changes fetched from the blockstore -/

/-- `_getBlock`; `none` where it throws or returns nothing. -/
def getBlock (store : Blockstore C) (keychain : Q) (hash : C) : Option P :=
  (store.get hash).bind fun block =>
    (p.getKey keychain (block.take p.keyIDLength)).bind fun key =>
      (p.decrypt (block.drop (p.keyIDLength + p.nonceBits)) key
        ((block.drop p.keyIDLength).take p.nonceBits)).bind
        p.deserializeChanges

/-- Apply a fetched block; what throws here is caught. -/
def applyMissing (s : Loader C P D A Q) (missing : RecentTip C)
    (missingChanges : P) : Loader C P D A Q :=
  match missing.2 with
  | .document =>
      match p.remoteChange s.document missingChanges with
      | none => s
      | some document =>
          trackTip { s with
            document := document
            hashes := insert missing.1 s.hashes
            documentChangeCount := s.documentChangeCount + 1
            changesSinceSnapshot := s.changesSinceSnapshot + 1 } missing
  | .reader =>
      match p.mergeACL s.readers missingChanges with
      | none => s
      | some readers =>
          trackTip { s with
            readers := readers
            hashes := insert missing.1 s.hashes } missing
  | .writer =>
      match p.mergeACL s.writers missingChanges with
      | none => s
      | some writers =>
          trackTip { s with
            writers := writers
            hashes := insert missing.1 s.hashes } missing

/-- The arrival of a block, if it can be read. -/
def landBlock (store : Blockstore C) (s : Loader C P D A Q)
    (missing : RecentTip C) : Loader C P D A Q :=
  match getBlock p store s.keychain missing.1 with
  | none => s
  | some missingChanges => s.applyMissing p missing missingChanges

/-- The fetches of `_syncDocumentChanges`.  A CID that does not parse throws;
the fetches started before land all the same. -/
def fetchMissing (store : Blockstore C) (s : Loader C P D A Q)
    (missingDocumentHashes : List (RecentTip C)) :
    Except (Loader C P D A Q) (Loader C P D A Q) :=
  let started := missingDocumentHashes.takeWhile fun e => p.parse e.1
  let s := (store.arrival started).foldl (landBlock p store) s
  if missingDocumentHashes.all fun e => p.parse e.1 then .ok s else .error s

/-! ## The cached message -/

/-- The cached message over a received tree. -/
def adoptReceived (s : Loader C P D A Q) (receivedChangeId : C)
    (receivedChanges : ChangeTree C (NodeData P)) : Loader C P D A Q :=
  let message := s.lastSyncMessage.getD
    ⟨p.documentPath, none, none, none, none, none, none⟩
  { s with
    lastSyncMessage := some
      { message with
        changeId := some receivedChangeId
        changes := some receivedChanges
        signature := none
        tips := none } }

/-- `_refreshLastSyncMessageFromSync`. -/
def refreshLastSyncMessageFromSync (s : Loader C P D A Q)
    (receivedChangeId : Option C)
    (receivedChanges : ChangeTree C (NodeData P)) : Loader C P D A Q :=
  match receivedChangeId with
  | none => s
  | some received =>
      if received = ⊥ then s
      else
        match s.lastSyncMessage.bind SyncMessage.changeId with
        | none => s.adoptReceived p received receivedChanges
        | some prior =>
            if prior = ⊥ then s.adoptReceived p received receivedChanges
            else if prior = received then s
            else if Merkle.treeContainsCid (some received)
                (some receivedChanges) (some prior) then
              s.adoptReceived p received receivedChanges
            else s

/-- `_syncDocumentChanges`. -/
def syncDocumentChanges (store : Blockstore C) (s : Loader C P D A Q)
    (changeId : Option C) (changes : ChangeTree C (NodeData P)) :
    Except (Loader C P D A Q) (Loader C P D A Q) :=
  let s := { s with
    referencedAncestors := Merkle.collectReferencedAncestors changeId changes
      s.referencedAncestors }
  match Merkle.mergeRemoteSyncTree
      (s.lastSyncMessage.bind SyncMessage.changeId) s.hashes changeId
      changes with
  | none => .error s
  | some newChangeEntries =>
      (newChangeEntries.foldlM (applySent p) (s, ⟨s.document, [], []⟩)).bind
        fun (s, sent) =>
          ((s.finishSent sent).fetchMissing p store
            sent.missingDocumentHashes).map
            fun s => s.refreshLastSyncMessageFromSync p changeId changes

/-! ## Snapshots -/

/-- Whether a snapshot is more recent than ours. -/
def newer (latestSnapshot : Option (SnapshotNode C P))
    (incoming : SnapshotNode C P) : Bool :=
  match latestSnapshot with
  | none => true
  | some latest =>
      latest.compactedCount < incoming.compactedCount ||
        (incoming.compactedCount = latest.compactedCount &&
          latest.lastChangeNodeCID < incoming.lastChangeNodeCID)

omit [LinearOrder C] [Bot C] in
/-- Whether one of the writers signed the snapshot. -/
def snapshotSignatureValid (s : Loader C P D A Q)
    (incoming : SnapshotNode C P) : Bool :=
  if p.signingEnabled then
    match p.snapshotSignPayload incoming with
    | none => false
    | some signPayload =>
        (p.users s.writers).any fun writerKey =>
          p.verify signPayload writerKey incoming.signature
  else true

/-- The step of `sync` that adopts a snapshot. -/
def adoptSnapshot (s : Loader C P D A Q) (incoming : SnapshotNode C P) :
    Except (Loader C P D A Q) (Loader C P D A Q) :=
  if newer s.latestSnapshot incoming && s.snapshotSignatureValid p incoming then
    match p.applySnapshot s.document incoming.state with
    | none => .error s
    | some document =>
        .ok { s with
          document := document
          latestSnapshot := some incoming
          documentChangeCount :=
            max s.documentChangeCount incoming.compactedCount
          changesSinceSnapshot := 0
          hashes :=
            if incoming.lastChangeNodeCID = ⊥ then s.hashes
            else insert incoming.lastChangeNodeCID s.hashes }
  else .ok s

/-! ## Messages -/

omit [LinearOrder C] [Bot C] in
/-- A signature that is absent or empty. -/
def unsigned (message : SyncMessage C P) : Bool :=
  message.signature = none || message.signature = some ""

omit [LinearOrder C] [Bot C] in
/-- Whether one of the writers signed the message. -/
def signedByWriter (s : Loader C P D A Q) (message : SyncMessage C P) : Bool :=
  match message.signature with
  | none => false
  | some signature =>
      match p.deserializeSignature signature with
      | none => false
      | some signatureBytes =>
          (p.users s.writers).any fun writerKey =>
            p.verify
              (p.serializeSyncMessage { message with signature := none })
              writerKey signatureBytes

omit [LinearOrder C] [Bot C] in
/-- The step of `sync` that merges keys. -/
def mergeKeychainChanges (s : Loader C P D A Q) (keychainChanges : Option P) :
    Except (Loader C P D A Q) (Loader C P D A Q) :=
  match keychainChanges with
  | none => .ok s
  | some changes =>
      match p.mergeKeychain s.keychain changes with
      | none => .error s
      | some keychain => .ok { s with keychain := keychain }

/-- `sync`; the result says whether the message was accepted. -/
def sync (store : Blockstore C) (s : Loader C P D A Q)
    (message : SyncMessage C P) (verifySignature : Bool) :
    Except (Loader C P D A Q) (Loader C P D A Q × Bool) :=
  if p.signingEnabled && unsigned message then .ok (s, false)
  else if p.signingEnabled && verifySignature &&
      !s.signedByWriter p message then
    .ok (s, false)
  else
    (s.mergeKeychainChanges p message.keychainChanges).bind fun s =>
      (message.changes.elim (.ok s) (s.applyACLFromTree p)).bind fun s =>
        (message.snapshot.elim (.ok s) (s.adoptSnapshot p)).bind fun s =>
          (message.changes.elim (.ok s)
            (s.syncDocumentChanges p store message.changeId)).map
            fun s => (s, true)

end Loader

end Sync

/-! ## Documents that are sets of changes -/

/-- Providers for documents that are sets of numbered changes: a block holds
the number of its key, a nonce and as many bytes as the number of its
change. -/
def setProviders (signingEnabled : Bool)
    (deserializeSyncMessage : Bytes → Option (SyncMessage ℕ (List ℕ))) :
    Providers ℕ (List ℕ) (Finset ℕ) (List ℕ) Unit ℕ Unit (Finset ℕ) where
  documentPath := "document"
  signingEnabled := signingEnabled
  keyIDLength := 1
  nonceBits := 1
  getKey _ keyID := if keyID = [7] then some () else none
  mergeKeychain keychain _ := some keychain
  decrypt data _ _ := some data
  verify _ writerKey signature := signature = [UInt8.ofNat writerKey]
  deserializeSignature signature :=
    some (signature.toList.map fun c => UInt8.ofNat c.toNat)
  deserializeSyncMessage := deserializeSyncMessage
  serializeSyncMessage _ := []
  deserializeChanges content := some [content.length]
  snapshotSignPayload _ := some []
  users := id
  mergeACL users changes := some (users ++ changes)
  remoteChange document changes := some (document ∪ changes.toFinset)
  applySnapshot document state := some (document ∪ state.toFinset)
  tipsHash := List.toFinset
  parse _ := true

/-- A blockstore with the blocks of all changes, encrypted with key `keyOf`. -/
def setStore (keyOf : ℕ → UInt8) : Blockstore ℕ where
  prefetch _ := true
  get cid := some ([keyOf cid, 0] ++ List.replicate cid 0)
  arrival := id
  arrival_perm := List.Perm.refl

/-- A new document. -/
def emptyLoader : Loader ℕ (List ℕ) (Finset ℕ) (List ℕ) Unit where
  document := ∅
  hashes := ∅
  referencedAncestors := []
  readers := []
  writers := []
  keychain := ()
  latestSnapshot := none
  documentChangeCount := 0
  changesSinceSnapshot := 0
  lastSyncMessage := none
  recentTips := []

end Collabswarm.Load
