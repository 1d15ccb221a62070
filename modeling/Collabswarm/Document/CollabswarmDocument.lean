import Collabswarm.BeeKEM.Tree
import Collabswarm.Document.Sync
import Collabswarm.Keychain.Numbered

/-!
# Documents and their key messages

The methods of `CollabswarmDocument` that change access: opening a document,
local changes, adding and removing writers and readers, and the two handlers
for BeeKEM messages.  The ACLs are the sets that their CRDTs show; the change
of a sync message to them is supplied with the message.  Signatures are valid
and publishing succeeds.  CIDs, key ids, key pairs and the numbers of keychain
operations that the libraries choose are supplied by the caller.
-/

namespace Collabswarm.Document

open BeeKEM

/-! ## Configuration and messages -/

/-- How much of the keychain others are shown. -/
inductive HistoryVisibility where
  | fullHistory
  | sinceInvited
  | currentOnly
deriving DecidableEq, Repr

/-- The keychain implementation, the visibility and the HKDF derivations of
a document. -/
structure Providers (E K : Type) where
  keychain : Flavour
  historyVisibility : HistoryVisibility
  deriveEpochIdFromRootSecret : RootSecret → E
  deriveDocumentKeyFromRootSecret : RootSecret → K

/-- The bytes of a KEM public key: their length, and the key that
`importKey` makes of them, if it does. -/
structure RawKey where
  byteLength : ℕ
  imported : Option PublicKey
deriving DecidableEq, Repr

/-- `ECIES_P256_PUBLIC_KEY_LENGTH`. -/
def eciesP256PublicKeyLength : ℕ := 65

/-- The raw bytes of an ECDH public key. -/
def rawKey (pk : PublicKey) : RawKey := ⟨eciesP256PublicKeyLength, some pk⟩

/-- A Welcome of a document.  The keychain delta and the Welcome of the tree
are sealed to the recipient's KEM key. -/
structure WelcomeMessage (U E K : Type) where
  welcomeEpochId : E
  welcomeRecipient : U
  welcomeRecipientKemPublicKey : PublicKey
  keychainChanges : List (PushOp (E × K))
  beekemWelcome : Option Welcome
deriving DecidableEq

/-- A path update of a document. -/
structure PathUpdateMessage (E : Type) where
  pathUpdate : PathUpdate
  pathUpdateEpochId : E
deriving DecidableEq

/-- What the methods throw. -/
inductive DocumentError where
  -- "Current user does not have write permissions for: ${documentPath}"
  | cannotWrite
  -- "addReader: cannot seed the BeeKEM ratchet tree because the local user has
  -- not installed a KEM key pair via setKemKeyPair. ..."
  | addReaderNoKemKeyPair
  -- "addReader: readerKemPublicKey must be 65 bytes ..., got ${byteLength}"
  | addReaderKeyLength (byteLength : ℕ)
  -- "addReader: cannot register a reader -- this writer has document state but
  -- no BeeKEM tree bootstrapped from a Welcome. ..."
  | addReaderNoTree
  -- "_registerBeeKEMReader: readerKemPublicKey must be 65 bytes ..., got ..."
  | registerKeyLength (byteLength : ℕ)
  -- "_registerBeeKEMReader: cannot initialize a fresh founder BeeKEM tree
  -- because the local replica already has ${_hashes.size} merged changes. ..."
  | registerMergedChanges (size : ℕ)
  -- "BeeKEM founder initialization requires a KEM key pair installed via
  -- setKemKeyPair."
  | founderNoKemKeyPair
  -- the `DataError` of `importKey`
  | importKey
  -- "Cannot remove reader from ...: BeeKEM tree has not been initialized. ..."
  | removeReaderNoTree
  -- "Cannot remove reader from ...: the reader's KEM public key is recorded
  -- locally but the BeeKEM tree has no matching non-blanked leaf. ..."
  | removeReaderNoMatchingLeaf
  -- "Cannot remove reader from ...: no BeeKEM leaf recorded for this reader,
  -- and the local replica has no KEM public key recorded ..."
  | removeReaderNoLeafRecorded
  -- "Document path ... is not allowed for the current user"
  | pathNotAllowed
  | beekem (e : BeeKEM.Error)
  | keychain (e : KeychainError)
deriving DecidableEq, Repr

/-! ## The document -/

/-- A document instance.  `_beekem` and `_beekemInitialized` are set together,
and the cached bytes of the KEM public key with the pair. -/
structure CollabswarmDocument (U C E K : Type) where
  user : U
  writers : Finset U
  readers : Finset U
  state : SyncState C
  keychain : Keychain E K
  kemKeyPair : Option PrivateKey
  beekem : Option Tree
  invitationEpoch : Option E
  readerLeafIndices : InsertionMap U ℕ
  readerKemPublicKeys : InsertionMap U RawKey
  beekemWelcomeByLeaf : InsertionMap ℕ Welcome

/-- The result of a method that may generate key pairs: the document it
leaves, the next unused key number, and what it returns or throws. -/
structure Outcome (U C E K α : Type) where
  document : CollabswarmDocument U C E K
  fresh : ℕ
  result : Except DocumentError α

namespace CollabswarmDocument

variable {U C E K : Type} [DecidableEq U] [LinearOrder C] [DecidableEq E]
  [DecidableEq K]

/-- A new instance. -/
def new (user : U) : CollabswarmDocument U C E K where
  user := user
  writers := ∅
  readers := ∅
  state := .fresh
  keychain := .new
  kemKeyPair := none
  beekem := none
  invitationEpoch := none
  readerLeafIndices := .empty
  readerKemPublicKeys := .empty
  beekemWelcomeByLeaf := .empty

/-- `setKemKeyPair`. -/
def setKemKeyPair (d : CollabswarmDocument U C E K)
    (keyPair : Option PrivateKey) : CollabswarmDocument U C E K :=
  { d with kemKeyPair := keyPair }

/-- `_makeChange`: the block is stored under the current key, so an empty
keychain throws. -/
def makeChange (d : CollabswarmDocument U C E K) (kind : NodeKind) (cid : C) :
    CollabswarmDocument U C E K × Except DocumentError Unit :=
  match d.keychain.current with
  | (.error e, keychain) => ({ d with keychain }, .error (.keychain e))
  | (.ok _, keychain) =>
      ({ d with
        keychain := keychain.current.2
        state := { d.state.applyEntry (cid, kind, true) with
          lastChangeId := some cid } }, .ok ())

/-- `change`. -/
def change (d : CollabswarmDocument U C E K) (cid : C) :
    CollabswarmDocument U C E K × Except DocumentError Unit :=
  if d.user ∉ d.writers then (d, .error .cannotWrite)
  else d.makeChange .document cid

/-- `addWriter`. -/
def addWriter (d : CollabswarmDocument U C E K) (writer : U) (cid : C) :
    CollabswarmDocument U C E K × Except DocumentError Unit :=
  if d.user ∉ d.writers then (d, .error .cannotWrite)
  else if writer ∈ d.writers then (d, .ok ())
  else { d with writers := insert writer d.writers }.makeChange .writer cid

/-- `removeWriter`, which also rotates the document key. -/
def removeWriter (p : Providers E K) (d : CollabswarmDocument U C E K)
    (writer : U) (cid : C) (opId : ℕ) (keyId : E) (key : K) :
    CollabswarmDocument U C E K × Except DocumentError Unit :=
  if d.user ∉ d.writers then (d, .error .cannotWrite)
  else if writer ∉ d.writers then (d, .ok ())
  else
    match { d with writers := d.writers.erase writer }.makeChange .writer
        cid with
    | (d, .error e) => (d, .error e)
    | (d, .ok ()) =>
        ({ d with keychain :=
            (d.keychain.current.2.add p.keychain opId keyId key).1 }, .ok ())

/-- A sync message as a document receives it, with the ACLs that its ACL nodes
leave. -/
structure Received (U C E K : Type) where
  message : SyncMessage C
  keychainChanges : List (PushOp (E × K))
  writers : Finset U
  readers : Finset U

/-- `sync`.  ACL nodes stand in the change tree only. -/
def sync (d : CollabswarmDocument U C E K) (r : Received U C E K) :
    CollabswarmDocument U C E K :=
  { d with
    state := (d.state.sync r.message).1
    keychain := d.keychain.merge r.keychainChanges
    writers := if r.message.changes.isSome then r.writers else d.writers
    readers := if r.message.changes.isSome then r.readers else d.readers }

/-- `open`, after `load` has applied the responses it accepted.  `allowed` is
the verdict of `validateDocumentPath`. -/
def openDocument (p : Providers E K) (d : CollabswarmDocument U C E K)
    (loadedFromPeer allowed : Bool) (opId : ℕ) (keyId : E) (key : K)
    (cid : C) : CollabswarmDocument U C E K × Except DocumentError Bool :=
  let isExisting := loadedFromPeer || decide (0 < d.state.hashes.card)
  if isExisting then (d, .ok true)
  else if allowed = false then (d, .error .pathNotAllowed)
  else
    match { d with
        writers := insert d.user d.writers
        keychain := (d.keychain.add p.keychain opId keyId key).1
        }.makeChange .writer cid with
    | (d, .error e) => (d, .error e)
    | (d, .ok ()) => (d, .ok false)

/-! ## Adding readers -/

/-- `_initializeBeeKEMAsFounder`. -/
def initializeBeeKEMAsFounder (d : CollabswarmDocument U C E K) :
    CollabswarmDocument U C E K × Except DocumentError Tree :=
  match d.beekem, d.kemKeyPair with
  | some beekem, _ => (d, .ok beekem)
  | none, none => (d, .error .founderNoKemKeyPair)
  | none, some sk =>
      ({ d with beekem := some (.initializeTree sk) },
        .ok (.initializeTree sk))

/-- The gate of `_registerBeeKEMReader` and the tree behind it. -/
def founderGate (d : CollabswarmDocument U C E K) :
    CollabswarmDocument U C E K × Except DocumentError Tree :=
  match d.beekem with
  | some beekem => (d, .ok beekem)
  | none =>
      if 1 < d.state.hashes.card then
        (d, .error (.registerMergedChanges d.state.hashes.card))
      else d.initializeBeeKEMAsFounder

/-- `_registerBeeKEMReader`. -/
def registerBeeKEMReader (d : CollabswarmDocument U C E K) (reader : U)
    (readerKemPublicKey : RawKey) (fresh : ℕ) :
    Outcome U C E K (Option Welcome) :=
  if readerKemPublicKey.byteLength ≠ eciesP256PublicKeyLength then
    ⟨d, fresh, .error (.registerKeyLength readerKemPublicKey.byteLength)⟩
  else
    let d := { d with readerKemPublicKeys :=
      d.readerKemPublicKeys.set reader readerKemPublicKey }
    match d.readerLeafIndices.get? reader with
    | some existingLeaf =>
        ⟨d, fresh, .ok (d.beekemWelcomeByLeaf.get? existingLeaf)⟩
    | none =>
        match d.founderGate with
        | (d, .error e) => ⟨d, fresh, .error e⟩
        | (d, .ok beekem) =>
            match readerKemPublicKey.imported with
            | none => ⟨d, fresh, .error .importKey⟩
            | some memberPublicKey =>
                let out := beekem.addMember memberPublicKey fresh
                let d := { d with beekem := some out.tree }
                match out.result with
                | .error e => ⟨d, out.fresh, .error (.beekem e)⟩
                | .ok (_, welcome, _) =>
                    ⟨{ d with
                      readerLeafIndices :=
                        d.readerLeafIndices.set reader welcome.leafIndex
                      beekemWelcomeByLeaf :=
                        d.beekemWelcomeByLeaf.set welcome.leafIndex
                          welcome }, out.fresh, .ok (some welcome)⟩

/-- `_keychainChangesForWelcome`. -/
def keychainChangesForWelcome (p : Providers E K)
    (d : CollabswarmDocument U C E K) (opIds : ℕ → ℕ) :
    Except KeychainError (List (PushOp (E × K))) :=
  match p.historyVisibility with
  | .fullHistory => .ok (d.keychain.history p.keychain)
  | .sinceInvited => d.keychain.currentKeyChange p.keychain opIds
  | .currentOnly => d.keychain.currentKeyChange p.keychain opIds

/-- `_sendBeeKEMWelcome`: the message that is sent; where the source throws,
`addReader` logs and none is. -/
def sendBeeKEMWelcome (p : Providers E K) (d : CollabswarmDocument U C E K)
    (reader : U) (readerKemPublicKey : RawKey)
    (beekemWelcome : Option Welcome) (opIds : ℕ → ℕ) :
    CollabswarmDocument U C E K × Option (WelcomeMessage U E K) :=
  match d.keychain.current with
  | (.error _, keychain) => ({ d with keychain }, none)
  | (.ok (currentKeyID, _), keychain) =>
      let d := { d with keychain }
      match d.keychainChangesForWelcome p opIds,
          readerKemPublicKey.imported with
      | .ok keychainChanges, some recipientKemKey =>
          (d, some ⟨currentKeyID, reader, recipientKemKey, keychainChanges,
            beekemWelcome⟩)
      | _, _ => (d, none)

/-- Whether the length check of `addReader` rejects a key. -/
def wrongLength : Option RawKey → Option ℕ
  | none => none
  | some key =>
      if key.byteLength ≠ eciesP256PublicKeyLength then some key.byteLength
      else none

/-- The ACL step of `addReader`. -/
def addToReaders (d : CollabswarmDocument U C E K) (reader : U) (cid : C) :
    CollabswarmDocument U C E K × Except DocumentError Unit :=
  if reader ∈ d.readers then (d, .ok ())
  else { d with readers := insert reader d.readers }.makeChange .reader cid

/-- The registration of `addReader` and the Welcome after it. -/
def welcomeReader (p : Providers E K) (d : CollabswarmDocument U C E K)
    (reader : U) (readerKemPublicKey : RawKey) (opIds : ℕ → ℕ) (fresh : ℕ) :
    Outcome U C E K (Option (WelcomeMessage U E K)) :=
  let out := d.registerBeeKEMReader reader readerKemPublicKey fresh
  match out.result with
  | .error e => ⟨out.document, out.fresh, .error e⟩
  | .ok beekemWelcome =>
      let sent := out.document.sendBeeKEMWelcome p reader readerKemPublicKey
        beekemWelcome opIds
      ⟨sent.1, out.fresh, .ok sent.2⟩

/-- `addReader`, with the Welcome that is sent. -/
def addReader (p : Providers E K) (d : CollabswarmDocument U C E K)
    (reader : U) (readerKemPublicKey : Option RawKey) (cid : C)
    (opIds : ℕ → ℕ) (fresh : ℕ) :
    Outcome U C E K (Option (WelcomeMessage U E K)) :=
  if d.user ∉ d.writers then ⟨d, fresh, .error .cannotWrite⟩
  else if d.beekem.isNone ∧ d.kemKeyPair.isNone then
    ⟨d, fresh, .error .addReaderNoKemKeyPair⟩
  else
    match wrongLength readerKemPublicKey with
    | some byteLength => ⟨d, fresh, .error (.addReaderKeyLength byteLength)⟩
    | none =>
        if d.beekem.isNone ∧ 0 < d.state.hashes.card then
          ⟨d, fresh, .error .addReaderNoTree⟩
        else
          match d.addToReaders reader cid with
          | (d, .error e) => ⟨d, fresh, .error e⟩
          | (d, .ok ()) =>
              match readerKemPublicKey with
              | none => ⟨d, fresh, .ok none⟩
              | some key => d.welcomeReader p reader key opIds fresh

/-! ## Removing readers -/

/-- The leaf of a reader: the recorded one, else the leaf that holds the
recorded KEM key. -/
def readerLeaf (d : CollabswarmDocument U C E K) (beekem : Tree) (reader : U) :
    Except DocumentError ℕ :=
  match d.readerLeafIndices.get? reader, d.readerKemPublicKeys.get? reader with
  | some leafIndex, _ => .ok leafIndex
  | none, none => .error .removeReaderNoLeafRecorded
  | none, some kemPub =>
      match kemPub.imported.bind beekem.findLeafByPublicKey with
      | some leafIndex => .ok leafIndex
      | none => .error .removeReaderNoMatchingLeaf

/-- Forget what is recorded about a reader. -/
def forgetReader (d : CollabswarmDocument U C E K) (reader : U)
    (leafIndex : ℕ) : CollabswarmDocument U C E K :=
  { d with
    readerLeafIndices := d.readerLeafIndices.erase reader
    readerKemPublicKeys := d.readerKemPublicKeys.erase reader
    beekemWelcomeByLeaf := d.beekemWelcomeByLeaf.erase leafIndex }

/-- Install the key of a root secret. -/
def installEpochKey (p : Providers E K) (d : CollabswarmDocument U C E K)
    (opId : ℕ) (rootSecret : RootSecret) : CollabswarmDocument U C E K :=
  { d with keychain := (d.keychain.addEpochKey p.keychain opId
      (p.deriveEpochIdFromRootSecret rootSecret)
      (p.deriveDocumentKeyFromRootSecret rootSecret)).1 }

/-- `removeReader`, with the path update that is broadcast.  An error of the
ACL change is logged only. -/
def removeReader (p : Providers E K) (d : CollabswarmDocument U C E K)
    (reader : U) (cid : C) (opId fresh : ℕ) :
    Outcome U C E K (Option (PathUpdateMessage E)) :=
  if d.user ∉ d.writers then ⟨d, fresh, .error .cannotWrite⟩
  else if reader ∉ d.readers then ⟨d, fresh, .ok none⟩
  else
    match d.beekem with
    | none => ⟨d, fresh, .error .removeReaderNoTree⟩
    | some beekem =>
        match d.readerLeaf beekem reader with
        | .error e => ⟨d, fresh, .error e⟩
        | .ok leafIndex =>
            let out := beekem.removeMember leafIndex fresh
            let d := { d with
              beekem := some out.tree
              readerLeafIndices := d.readerLeafIndices.set reader leafIndex }
            match out.result with
            | .error e => ⟨d, out.fresh, .error (.beekem e)⟩
            | .ok (pathUpdate, rootSecret) =>
                let d := ({ d with readers := d.readers.erase reader
                  }.makeChange .reader cid).1
                ⟨(d.forgetReader reader leafIndex).installEpochKey p opId
                  rootSecret, out.fresh, .ok (some ⟨pathUpdate,
                    p.deriveEpochIdFromRootSecret rootSecret⟩)⟩

/-! ## Handling key messages -/

/-- `handleBeeKEMPathUpdateRequestData` after the checks of form and
signature, with whether a key was installed. -/
def handleBeeKEMPathUpdate (p : Providers E K)
    (d : CollabswarmDocument U C E K) (message : PathUpdateMessage E)
    (opId : ℕ) : CollabswarmDocument U C E K × Bool :=
  match d.beekem with
  | none => (d, false)
  | some beekem =>
      match beekem.processPathUpdate message.pathUpdate with
      | (tree, .error _) => ({ d with beekem := some tree }, false)
      | (tree, .ok rootSecret) =>
          let d := { d with beekem := some tree }
          if p.deriveEpochIdFromRootSecret rootSecret =
              message.pathUpdateEpochId then
            (d.installEpochKey p opId rootSecret, true)
          else (d, false)

/-- `_shouldAdvanceInvitationEpoch`, with the keychain after it. -/
def shouldAdvanceInvitationEpoch (keychain : Keychain E K)
    (existing incoming : E) : Bool × Keychain E K :=
  if existing = incoming then (false, keychain)
  else
    let (allKeys, keychain) := keychain.keys
    match allKeys.findIdx? (fun entry => entry.1 = existing),
        allKeys.findIdx? (fun entry => entry.1 = incoming) with
    | some existingIdx, some incomingIdx =>
        (decide (existingIdx < incomingIdx), keychain)
    | _, _ => (false, keychain)

/-- The end of `_evaluateAndApplyBeeKEMWelcome`: the invitation epoch. -/
def recordInvitationEpoch (d : CollabswarmDocument U C E K)
    (newEpochId : E) : CollabswarmDocument U C E K :=
  match d.invitationEpoch with
  | none => { d with invitationEpoch := some newEpochId }
  | some existing =>
      let (advanced, keychain) :=
        shouldAdvanceInvitationEpoch d.keychain existing newEpochId
      { d with
        keychain
        invitationEpoch := if advanced then some newEpochId
          else some existing }

/-- Start the own tree from a Welcome; a failure is logged only. -/
def bootstrap (d : CollabswarmDocument U C E K) (sk : PrivateKey) :
    Option Welcome → CollabswarmDocument U C E K
  | none => d
  | some welcome =>
      match Tree.new.processWelcome welcome sk with
      | (_, .error _) => d
      | (beekem, .ok _) => { d with beekem := some beekem }

/-- `_evaluateAndApplyBeeKEMWelcome` of a Welcome that its checks accept, with
whether it was applied. -/
def applyBeeKEMWelcome (d : CollabswarmDocument U C E K)
    (message : WelcomeMessage U E K) : CollabswarmDocument U C E K × Bool :=
  match d.kemKeyPair with
  | none => (d, false)
  | some sk =>
      if sk.publicKey ≠ message.welcomeRecipientKemPublicKey then (d, false)
      else
        let d := { d with
          keychain := d.keychain.merge message.keychainChanges }
        ((d.bootstrap sk message.beekemWelcome).recordInvitationEpoch
          message.welcomeEpochId, true)

/-! ## Local changes -/

omit [DecidableEq U] [DecidableEq K] in
/-- What a local change does: with an empty keychain it throws, otherwise its
CID is in the hashes. -/
theorem makeChange_cases (d : CollabswarmDocument U C E K) (kind : NodeKind)
    (cid : C) :
    ∃ cache, (d.keychain.doc.contents = [] ∧
        ∃ e, d.makeChange kind cid =
          ({ d with keychain := { d.keychain with cache } }, .error e)) ∨
      d.makeChange kind cid = ({ d with
        keychain := { d.keychain with cache }
        state := { d.state.applyEntry (cid, kind, true) with
          lastChangeId := some cid } }, .ok ()) := by
  rw [makeChange]
  obtain ⟨cache, hcache⟩ := d.keychain.current_snd
  obtain ⟨cache', hcache'⟩ := d.keychain.current.2.current_snd
  rcases hcurrent : d.keychain.current with ⟨e | entry, keychain⟩
  · rw [hcurrent] at hcache
    refine ⟨cache, Or.inl ⟨?_, .keychain e, by rw [← hcache]⟩⟩
    rw [Keychain.current] at hcurrent
    split at hcurrent
    · rename_i hlast
      exact List.getLast?_eq_none_iff.1 hlast
    · split at hcurrent <;> cases hcurrent
  · rw [hcurrent] at hcache hcache'
    dsimp only at hcache hcache' ⊢
    exact ⟨cache', Or.inr (by rw [hcache', hcache])⟩

/-! ## The invitation epoch -/

omit [DecidableEq U] [LinearOrder C] [DecidableEq K] in
/-- Recording the invitation epoch changes besides it the keychain's cache
only. -/
theorem recordInvitationEpoch_eq (d : CollabswarmDocument U C E K)
    (epochId : E) :
    ∃ cache invitationEpoch, d.recordInvitationEpoch epochId =
      { d with keychain := { d.keychain with cache }, invitationEpoch } := by
  rw [recordInvitationEpoch]
  split
  · exact ⟨d.keychain.cache, _, rfl⟩
  · rename_i existing _
    obtain ⟨cache, hcache⟩ : ∃ cache,
        (shouldAdvanceInvitationEpoch d.keychain existing epochId).2 =
          { d.keychain with cache } := by
      rw [shouldAdvanceInvitationEpoch]
      split
      · exact ⟨d.keychain.cache, rfl⟩
      · dsimp only
        split <;> exact ⟨_, rfl⟩
    refine ⟨cache, if (shouldAdvanceInvitationEpoch d.keychain existing
      epochId).1 then some epochId else some existing, ?_⟩
    rw [← hcache]

end CollabswarmDocument

/-- Providers for concrete runs, with the number of the root key for both
derivations. -/
def numberedProviders : Providers ℕ ℕ where
  keychain := .yjs
  historyVisibility := .currentOnly
  deriveEpochIdFromRootSecret := fun secret => secret.key.id
  deriveDocumentKeyFromRootSecret := fun secret => secret.key.id

end Collabswarm.Document
