import Collabswarm.BeeKEM.RawUpdate
import Collabswarm.Document.CollabswarmDocument
import Collabswarm.Wire.SignatureSurvival

/-!
# Path updates that are dropped

`handleBeeKEMPathUpdateRequestData` from the payload on: the sync message and
the path update in it are read, the writer's signature is checked, and the
update is processed.  Processing writes to the tree before and between the
steps that can throw, and the epoch id is compared after all of it.
-/

namespace Collabswarm.Document

open BeeKEM Wire

open JsString (ofString)

/-! ## Reading a path update -/

/-- `describe`, of a value that may be `undefined`. -/
def describeWire : Option Json → String
  | some (.arr elements) => "array(length=" ++ toString elements.length ++ ")"
  | value => describeValue value

/-- A member of an object. -/
def wireMember (members : List (JsString × Json)) (name : String) :
    Option Json :=
  members.lookup (ofString name)

/-- A member that must be a non-negative integer. -/
def wireIndex (label : String) : Option Json → Except WireError ℕ
  | some (.num n) => .ok n
  | value => .error (.invalid ("Invalid PathUpdate: " ++ label ++
      " must be a non-negative integer (got " ++ describeWire value ++ ")"))

/-- A member that must be a string. -/
def wireString (label : String) : Option Json → Except WireError JsString
  | some (.str s) => .ok s
  | value => .error (.invalid ("Invalid PathUpdate: " ++ label ++
      " must be a base64 string (got " ++ describeWire value ++ ")"))

/-- `decodeBase64`; the text goes on with the one of the package. -/
def wireBytes (base64 : Base64) (fieldName : String) (s : JsString) :
    Except WireError Bytes :=
  match base64.toUint8Array s with
  | some bytes => .ok bytes
  | none => .error (.invalid (
      "path-update wire: invalid base64 for field " ++ fieldName ++ ": "))

/-- The node with number `i`. -/
def wireNode (base64 : Base64) (i : ℕ) : Json → Except WireError RawPathNode
  | .obj members => do
      let label := "node[" ++ toString i ++ "]"
      let nodeIndex ← wireIndex (label ++ ".nodeIndex")
        (wireMember members "nodeIndex")
      let publicKey ← wireString (label ++ ".publicKey")
        (wireMember members "publicKey")
      let encryptedPrivateKey ← wireString (label ++ ".encryptedPrivateKey")
        (wireMember members "encryptedPrivateKey")
      let publicKey ← wireBytes base64 (label ++ ".publicKey") publicKey
      let encryptedPrivateKey ← wireBytes base64
        (label ++ ".encryptedPrivateKey") encryptedPrivateKey
      .ok ⟨nodeIndex, publicKey, encryptedPrivateKey⟩
  | value => .error (.invalid ("Invalid PathUpdate: node[" ++ toString i ++
      "] must be a plain object, got " ++ describeWire (some value)))

/-- The nodes from number `i` on. -/
def wireNodes (base64 : Base64) :
    ℕ → List Json → Except WireError (List RawPathNode)
  | _, [] => .ok []
  | i, value :: values => do
      let node ← wireNode base64 i value
      let nodes ← wireNodes base64 (i + 1) values
      .ok (node :: nodes)

/-- `deserializePathUpdateFromWire`. -/
def deserializePathUpdateFromWire (base64 : Base64) :
    Json → Except WireError RawPathUpdate
  | .obj members => do
      let senderLeafIndex ← wireIndex "'senderLeafIndex'"
        (wireMember members "senderLeafIndex")
      let senderLeafPublicKey ← wireString "'senderLeafPublicKey'"
        (wireMember members "senderLeafPublicKey")
      match wireMember members "nodes" with
      | some (.arr values) => do
          let nodes ← wireNodes base64 0 values
          let senderLeafPublicKey ← wireBytes base64 "senderLeafPublicKey"
            senderLeafPublicKey
          .ok ⟨senderLeafIndex, senderLeafPublicKey, nodes⟩
      | value => .error (.invalid (
          "Invalid PathUpdate: 'nodes' must be an array (got " ++
          describeWire value ++ ")"))
  | value => .error (.invalid (
      "Invalid PathUpdate: expected a plain object, got " ++
      describeWire (some value)))

/-! ## The handler -/

/-- Why a payload is dropped before the tree is touched. -/
inductive PathUpdateDrop where
  | malformedMessage (e : WireError)
  | wrongDocument
  | missingSignature
  | invalidSignature
  | missingPathUpdate
  | missingPathUpdateEpochId
  | malformedPathUpdate (e : WireError)
deriving DecidableEq, Repr

/-- What the handler is configured with. -/
structure PathUpdateConfig where
  documentPath : JsString
  base64 : Base64
  verifyWriterSignature : Bytes → JsString → Bool
  crypto : ByteCrypto

/-- The checks of form and signature. -/
def readPathUpdate (config : PathUpdateConfig) (payload : Bytes) :
    Except PathUpdateDrop (RawPathUpdate × Bytes) :=
  match deserializeSyncMessage config.base64 payload with
  | .error e => .error (.malformedMessage e)
  | .ok message =>
      if message.documentId ≠ [] ∧ message.documentId ≠ config.documentPath then
        .error .wrongDocument
      else
        match message.signature with
        | none | some [] => .error .missingSignature
        | some signature =>
            if config.verifyWriterSignature (serializeSyncMessage config.base64
                message.withoutSignature) signature = false then
              .error .invalidSignature
            else
              match message.pathUpdate, message.pathUpdateEpochId with
              | none, _ => .error .missingPathUpdate
              | some _, none => .error .missingPathUpdateEpochId
              | some pathUpdate, some epochId =>
                  match deserializePathUpdateFromWire config.base64
                      (.obj pathUpdate) with
                  | .error e => .error (.malformedPathUpdate e)
                  | .ok update => .ok (update, epochId)

namespace CollabswarmDocument

variable {U C K : Type}

/-- `handleBeeKEMPathUpdateRequestData`, with whether an epoch key was
installed. -/
def handleBeeKEMPathUpdateRequestData (config : PathUpdateConfig)
    (p : Providers Bytes K) (d : CollabswarmDocument U C Bytes K)
    (payload : Bytes) (opId : ℕ) : CollabswarmDocument U C Bytes K × Bool :=
  match readPathUpdate config payload with
  | .error _ => (d, false)
  | .ok (update, pathUpdateEpochId) =>
      match d.beekem with
      | none => (d, false)
      | some beekem =>
          match beekem.processRawPathUpdate config.crypto update with
          | (tree, .error _) => ({ d with beekem := some tree }, false)
          | (tree, .ok rootSecret) =>
              let d := { d with beekem := some tree }
              if p.deriveEpochIdFromRootSecret rootSecret =
                  pathUpdateEpochId then
                (d.installEpochKey p opId rootSecret, true)
              else (d, false)

/-- Where every public key is accepted, the update is handled as the path
update it stands for. -/
theorem handleBeeKEMPathUpdateRequestData_typed (config : PathUpdateConfig)
    (p : Providers Bytes K) (d : CollabswarmDocument U C Bytes K)
    {payload : Bytes} (opId : ℕ) {update : RawPathUpdate} {epochId : Bytes}
    {key : Bytes → PublicKey}
    (hread : readPathUpdate config payload = .ok (update, epochId))
    (hsender : config.crypto.importKey update.senderLeafPublicKey =
      some (key update.senderLeafPublicKey))
    (hkeys : ∀ n ∈ update.nodes, config.crypto.importKey n.publicKey =
      some (key n.publicKey)) :
    d.handleBeeKEMPathUpdateRequestData config p payload opId =
      d.handleBeeKEMPathUpdate p
        ⟨Tree.typed config.crypto key update, epochId⟩ opId := by
  rw [handleBeeKEMPathUpdateRequestData, handleBeeKEMPathUpdate, hread]
  rcases d.beekem with _ | t
  · rfl
  dsimp only
  rw [t.processRawPathUpdate_typed update hsender hkeys]
  rcases t.processPathUpdate (Tree.typed config.crypto key update) with
    ⟨tree, e | rootSecret⟩
  · rfl
  · rfl

/-- What the handler leaves as the tree. -/
theorem beekem_handleBeeKEMPathUpdateRequestData (config : PathUpdateConfig)
    (p : Providers Bytes K) (d : CollabswarmDocument U C Bytes K)
    (opId : ℕ) {payload : Bytes} {update : RawPathUpdate} {epochId : Bytes}
    {t : Tree} (hread : readPathUpdate config payload = .ok (update, epochId))
    (hbeekem : d.beekem = some t) :
    (d.handleBeeKEMPathUpdateRequestData config p payload opId).1.beekem =
      some ((t.written config.crypto update).foldl Tree.setNode t) := by
  rw [← t.processRawPathUpdate_eq update, handleBeeKEMPathUpdateRequestData,
    hread]
  dsimp only
  rw [hbeekem]
  dsimp only
  rcases t.processRawPathUpdate config.crypto update with
    ⟨tree, e | rootSecret⟩
  · rfl
  · dsimp only
    split
    · rfl
    · rfl

/-- The tree is exactly as it was if and only if the payload is dropped ahead of
it, or there is no tree, or every node that the update sets already stands in
the tree as it is set. -/
theorem beekem_handleBeeKEMPathUpdateRequestData_eq_iff
    (config : PathUpdateConfig) (p : Providers Bytes K)
    (d : CollabswarmDocument U C Bytes K) (payload : Bytes) (opId : ℕ) :
    (d.handleBeeKEMPathUpdateRequestData config p payload opId).1.beekem =
        d.beekem ↔
      ∀ update epochId t,
        readPathUpdate config payload = .ok (update, epochId) →
        d.beekem = some t →
        t.restated (t.written config.crypto update) = true := by
  constructor
  · intro hsame update epochId t hread hbeekem
    rw [d.beekem_handleBeeKEMPathUpdateRequestData config p opId hread hbeekem,
      hbeekem, Option.some_inj] at hsame
    exact (t.foldl_setNode_eq_iff _).1 hsame
  · intro hrestated
    rcases hread : readPathUpdate config payload with e | ⟨update, epochId⟩
    · simp only [handleBeeKEMPathUpdateRequestData, hread]
    · rcases hbeekem : d.beekem with _ | t
      · simp only [handleBeeKEMPathUpdateRequestData, hread, hbeekem]
      · rw [d.beekem_handleBeeKEMPathUpdateRequestData config p opId hread
          hbeekem, (t.foldl_setNode_eq_iff _).2
            (hrestated update epochId t hread hbeekem)]

/-- Keys and sealed boxes of one byte a key, and a fixed valid signature. -/
def oneByteConfig : PathUpdateConfig where
  documentPath := ofString "/doc"
  base64 := unitPerByte
  verifyWriterSignature := fun _ signature => signature = [9]
  crypto := {
    importKey := fun bytes => match bytes with
      | [byte] => some ⟨byte.toNat⟩
      | _ => none
    sealedBox := fun bytes => match bytes with
      | [recipient, key] => .box ⟨recipient.toNat⟩ ⟨key.toNat⟩
      | _ => .empty }

/-- A signed path update of the member at leaf 2 with a new leaf key and no
path node. -/
def emptyPathUpdate : Wire.SyncMessage where
  documentId := ofString "/doc"
  changeId := none
  signature := some [9]
  changes := none
  keychainChanges := none
  welcomeEpochId := none
  welcomeRecipient := none
  welcomeRecipientKemPublicKey := none
  eciesSealed := none
  pathUpdate := some [(ofString "senderLeafIndex", .num 2),
    (ofString "senderLeafPublicKey", .str [7]), (ofString "nodes", .arr [])]
  pathUpdateEpochId := some [5]
  tipsHash := none
  tips := none
  snapshot := none
  order := SyncField.received
  nodup := nodup_received
  listed := by
    intro f _
    cases f <;> decide

/-- A founder who has added the member with key 1 at leaf 2. -/
def founderOfTwo : CollabswarmDocument ℕ ℕ Bytes ℕ :=
  { CollabswarmDocument.new 0 with
    beekem := some ((Tree.initializeTree ⟨0⟩).addMember ⟨1⟩ 10).tree }

/-- Providers with the byte of the root key for both derivations. -/
def oneByteProviders : Providers Bytes ℕ where
  keychain := .yjs
  historyVisibility := .currentOnly
  deriveEpochIdFromRootSecret := fun secret => [UInt8.ofNat secret.key.id]
  deriveDocumentKeyFromRootSecret := fun secret => secret.key.id

end CollabswarmDocument

end Collabswarm.Document
