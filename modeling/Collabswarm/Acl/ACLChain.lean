import Collabswarm.Support.Async
import Collabswarm.Support.Bytes

/-!
# The ACL chain of trust

`acl-chain.ts`: an append-only, hash-linked log of signed ACL changes.  The
auth provider, the key and change serialisers and the adapter to the ACL are
supplied by the configuration and may throw.  Entries arrive as unchecked
objects; the shape check turns them into entries whose fields have the types
and bounds it demands.  The three mutating methods run in a serial queue and
are cut at their awaits.
-/

namespace Collabswarm

open Bytes

/-! ## Entries -/

/-- A JavaScript number; zero has one sign. -/
inductive JsNumber where
  | finite (value : ℚ)
  | notFinite
deriving DecidableEq

namespace JsNumber

/-- The number as an integer of `0, ..., bound`, if it is one. -/
def asUnsigned (bound : ℕ) : JsNumber → Option ℕ
  | .finite q =>
      if q.den = 1 ∧ 0 ≤ q.num ∧ q.num ≤ bound then some q.num.toNat
      else none
  | .notFinite => none

/-- `Math.floor`, and what `setUint32` then stores. -/
def floorUint32 : JsNumber → ℕ
  | .finite q => (⌊q⌋ % 2 ^ 32).toNat
  | .notFinite => 0

/-- `>>> 0`, which truncates towards zero. -/
def toUint32 : JsNumber → ℕ
  | .finite q => ((if 0 ≤ q then ⌊q⌋ else ⌈q⌉) % 2 ^ 32).toNat
  | .notFinite => 0

/-- Division by `0x100000000`. -/
def high : JsNumber → JsNumber
  | .finite q => .finite (q / 2 ^ 32)
  | .notFinite => .notFinite

end JsNumber

/-- An entry as it is passed in.  A field that has another type is `none`; a
`parentHash` is `none` where it is undefined, and `some none` where it has
another type. -/
structure RawEntry (Δ : Type) where
  sequenceNumber : Option JsNumber
  timestamp : Option JsNumber
  parentHash : Option (Option Bytes)
  change : Δ
  signerKeyId : Option Bytes
  signature : Option Bytes

/-- `MAX_PARENT_HASH_BYTES`. -/
def maxParentHashBytes : ℕ := 64

/-- `MAX_SIGNER_KEY_BYTES`. -/
def maxSignerKeyBytes : ℕ := 256

/-- `MAX_CHANGE_BYTES`. -/
def maxChangeBytes : ℕ := 1 <<< 20

/-- The longest signature that is accepted. -/
def maxSignatureBytes : ℕ := 1024

/-- `Number.MAX_SAFE_INTEGER`. -/
def maxSafeInteger : ℕ := 2 ^ 53 - 1

/-- An entry of the right shape. -/
structure ACLEntry (Δ : Type) where
  sequenceNumber : ℕ
  timestamp : ℕ
  parentHash : Option Bytes
  change : Δ
  signerKeyId : Bytes
  signature : Bytes
  sequenceNumber_le : sequenceNumber ≤ 0xffffffff
  timestamp_le : timestamp ≤ maxSafeInteger
  parentHash_length : ∀ h ∈ parentHash,
    0 < h.length ∧ h.length ≤ maxParentHashBytes
  signerKeyId_length : 0 < signerKeyId.length ∧
    signerKeyId.length ≤ maxSignerKeyBytes
  signature_length : 0 < signature.length ∧
    signature.length ≤ maxSignatureBytes

/-- Check the length of a byte string. -/
def checkLength (bound : ℕ) (message : String) (bytes : Bytes) :
    Except String { b : Bytes // 0 < b.length ∧ b.length ≤ bound } :=
  if h : 0 < bytes.length ∧ bytes.length ≤ bound then .ok ⟨bytes, h⟩
  else .error message

/-- Check an integer field. -/
def checkUnsigned (bound : ℕ) (message : String) (field : Option JsNumber) :
    Except String { n : ℕ // n ≤ bound } :=
  match field.bind (·.asUnsigned bound) with
  | some n => if h : n ≤ bound then .ok ⟨n, h⟩ else .error message
  | none => .error message

/-- Check that a field is a byte string. -/
def checkBytes (message : String) : Option Bytes → Except String Bytes
  | some bytes => .ok bytes
  | none => .error message

/-- `validateEntryShape`; `none` is an entry that is not an object. -/
def validateEntryShape {Δ : Type} :
    Option (RawEntry Δ) → Except String (ACLEntry Δ)
  | none => .error "entry is not an object"
  | some entry => do
      let sequenceNumber ← checkUnsigned 0xffffffff
        "sequenceNumber is not an unsigned 32-bit integer"
        entry.sequenceNumber
      let timestamp ← checkUnsigned maxSafeInteger
        "timestamp is not a non-negative safe integer" entry.timestamp
      let signerKeyId ← checkBytes "signerKeyId is not a Uint8Array"
        entry.signerKeyId
      let signerKeyId ← checkLength maxSignerKeyBytes
        "signerKeyId has an implausible length" signerKeyId
      let signature ← checkBytes "signature is not a Uint8Array"
        entry.signature
      let signature ← checkLength maxSignatureBytes
        "signature has an implausible length" signature
      match entry.parentHash with
      | none => .ok {
          sequenceNumber := sequenceNumber
          timestamp := timestamp
          parentHash := none
          change := entry.change
          signerKeyId := signerKeyId
          signature := signature
          sequenceNumber_le := sequenceNumber.2
          timestamp_le := timestamp.2
          parentHash_length := by simp
          signerKeyId_length := signerKeyId.2
          signature_length := signature.2 }
      | some parentHash => do
          let parentHash ← checkBytes "parentHash is not a Uint8Array"
            parentHash
          let parentHash ← checkLength maxParentHashBytes
            "parentHash has an implausible length" parentHash
          .ok {
            sequenceNumber := sequenceNumber
            timestamp := timestamp
            parentHash := some parentHash
            change := entry.change
            signerKeyId := signerKeyId
            signature := signature
            sequenceNumber_le := sequenceNumber.2
            timestamp_le := timestamp.2
            parentHash_length := by simpa using parentHash.2
            signerKeyId_length := signerKeyId.2
            signature_length := signature.2 }

/-- `canonicalEntryPayloadFromBytes`, with the two halves of the timestamp. -/
def canonicalEntryPayloadFromBytes (sequenceNumber tsHi tsLo : ℕ)
    (parentHash : Option Bytes) (signerKeyId changeBytes : Bytes) : Bytes :=
  bigEndian 4 sequenceNumber ++ (bigEndian 4 tsHi ++ (bigEndian 4 tsLo ++
    (lengthPrefixed (parentHash.getD []) ++ (lengthPrefixed signerKeyId ++
      lengthPrefixed changeBytes))))

/-- The canonical payload of an entry with these change bytes. -/
def ACLEntry.payloadFromBytes {Δ : Type} (entry : ACLEntry Δ)
    (changeBytes : Bytes) : Bytes :=
  canonicalEntryPayloadFromBytes entry.sequenceNumber (entry.timestamp / 2 ^ 32)
    entry.timestamp entry.parentHash entry.signerKeyId changeBytes

/-! ## Configuration and results -/

/-- `ACLChainVerifyError`. -/
inductive ACLChainVerifyError where
  | badSignature
  | unauthorizedSigner
  | parentHashMismatch
  | sequenceOutOfOrder
  | unknownSignerKey
  | malformedEntry
deriving DecidableEq, Repr

/-- The string of an error. -/
def ACLChainVerifyError.toString : ACLChainVerifyError → String
  | .badSignature => "bad-signature"
  | .unauthorizedSigner => "unauthorized-signer"
  | .parentHashMismatch => "parent-hash-mismatch"
  | .sequenceOutOfOrder => "sequence-out-of-order"
  | .unknownSignerKey => "unknown-signer-key"
  | .malformedEntry => "malformed-entry"

/-- A result with `ok: false`. -/
structure Rejection where
  reason : ACLChainVerifyError
  message : String
  index : ℕ
deriving DecidableEq, Repr

/-- The configuration of a chain: changes `Δ`, public keys `P`, ACL states `S`.
A callback that throws gives the message of its error. -/
structure ACLChainConfig (Δ P S : Type) where
  verify : Bytes → P → Bytes → Except String Bool
  serializeKey : P → Except String Bytes
  emptyState : Except String S
  applyChange : S → Δ → Except String S
  isWriter : S → P → Except String Bool
  genesisAuthorizedKeys : List P
  -- the length of a change that is itself a `Uint8Array`
  byteLength : Δ → Option ℕ
  -- `none` where the serializer returns something else
  serializeChange : Δ → Except String (Option Bytes)
  -- SHA-256
  digest : Bytes → Except String Bytes

/-- A chain. -/
structure ACLChain (Δ S : Type) where
  entries : List (ACLEntry Δ)
  entryHashes : List Bytes
  state : Option S

namespace ACLChain

variable {Δ P S : Type}

/-- A new chain. -/
def new : ACLChain Δ S := ⟨[], [], none⟩

/-- `headHash`. -/
def headHash (chain : ACLChain Δ S) : Option Bytes :=
  chain.entryHashes.getLast?

/-- Append an entry. -/
def push (newState : S) (entry : ACLEntry Δ) (entryHash : Bytes)
    (chain : ACLChain Δ S) : ACLChain Δ S :=
  ⟨chain.entries ++ [entry], chain.entryHashes ++ [entryHash], some newState⟩

end ACLChain

namespace ACLChainConfig

variable {Δ P S : Type} (cfg : ACLChainConfig Δ P S)

/-- The checks of key, sequence number and parent hash. -/
def checkLinks (index : ℕ) (entry : ACLEntry Δ) (actual : Bytes)
    (headHash : Option Bytes) : Except Rejection Unit :=
  if entry.signerKeyId ≠ actual then
    .error ⟨.unknownSignerKey,
      "supplied public key does not match the entry.signerKeyId field", index⟩
  else if entry.sequenceNumber ≠ index then
    let got := entry.sequenceNumber
    .error ⟨.sequenceOutOfOrder,
      s!"expected sequenceNumber={index}, got {got}", index⟩
  else
    match headHash, entry.parentHash with
    | none, none => .ok ()
    | none, some _ => .error ⟨.parentHashMismatch,
        "genesis entry must not declare a parentHash", index⟩
    | some _, none => .error ⟨.parentHashMismatch,
        "non-genesis entry is missing a parentHash", index⟩
    | some head, some parentHash =>
        if head = parentHash then .ok ()
        else .error ⟨.parentHashMismatch,
          "parentHash does not match the current chain head", index⟩

/-- The message about something that is too large. -/
def tooLarge (what : String) (size limit : ℕ) : String :=
  what ++ s!" exceeds maximum size ({size} > {limit} bytes)"

/-- Serialise the change and encode the entry, with all size limits. -/
def encodeEntry (entry : ACLEntry Δ) : Except String Bytes := do
  let size := (cfg.byteLength entry.change).getD 0
  if maxChangeBytes < size then .error (tooLarge "change" size maxChangeBytes)
  else
    match cfg.serializeChange entry.change with
    | .error message => .error ("failed to serialize change: " ++ message)
    | .ok none => .error "serializeChange did not return a Uint8Array"
    | .ok (some changeBytes) =>
        let payload := entry.payloadFromBytes changeBytes
        if maxChangeBytes < changeBytes.length then
          .error (tooLarge "serialized change" changeBytes.length
            maxChangeBytes)
        else if maxChangeBytes + 1024 < payload.length then
          .error (tooLarge "encoded entry payload" payload.length
            (maxChangeBytes + 1024))
        else .ok payload

/-- The loop of `_isInBootstrapSet`. -/
def bootstrapLoop (candidateBytes : Bytes) : List P → Except String Bool
  | [] => .ok false
  | allowed :: rest => do
      let allowedBytes ← cfg.serializeKey allowed
      if candidateBytes = allowedBytes then .ok true
      else bootstrapLoop candidateBytes rest

/-- `_isInBootstrapSet`. -/
def isInBootstrapSet (candidate : P) : Except String Bool := do
  let candidateBytes ← cfg.serializeKey candidate
  cfg.bootstrapLoop candidateBytes cfg.genesisAuthorizedKeys

/-- Who may author the next entry. -/
def isAuthorized (empty : Bool) (priorState : S) (signerPublicKey : P) :
    Except String Bool :=
  if empty then cfg.isInBootstrapSet signerPublicKey
  else cfg.isWriter priorState signerPublicKey

/-! ## The methods -/

/-- A method of a chain, cut at its awaits. -/
abbrev Method (Δ S α : Type) := Async (ACLChain Δ S) α

/-- `_ingestEntryInternal`. -/
def ingestEntryInternal (raw : Option (RawEntry Δ)) (signerPublicKey : P) :
    Method Δ S (Except Rejection Unit) := do
  let index := (← Async.read).entries.length
  match validateEntryShape raw with
  | .error message => return .error ⟨.malformedEntry, message, index⟩
  | .ok entry =>
  match ← Async.awaiting (cfg.serializeKey signerPublicKey) with
  | .error message => return .error ⟨.malformedEntry,
      "serializeKey threw on supplied public key: " ++ message, index⟩
  | .ok actual =>
  match checkLinks index entry actual (← Async.read).headHash with
  | .error rejection => return .error rejection
  | .ok () =>
  match cfg.encodeEntry entry with
  | .error message => return .error ⟨.malformedEntry, message, index⟩
  | .ok payload =>
  match ← Async.awaiting (cfg.digest payload) with
  | .error message => return .error ⟨.malformedEntry,
      "failed to hash entry payload: " ++ message, index⟩
  | .ok entryHash =>
  match ← Async.awaiting (cfg.verify payload signerPublicKey
      entry.signature) with
  | .error message => return .error ⟨.badSignature,
      "signature verification threw: " ++ message, index⟩
  | .ok false => return .error ⟨.badSignature,
      "signature does not verify against the declared signer", index⟩
  | .ok true =>
  let chain ← Async.read
  match chain.state.elim cfg.emptyState .ok with
  | .error message => return .error ⟨.malformedEntry,
      "ops.emptyState threw: " ++ message, index⟩
  | .ok priorState =>
  match ← Async.awaiting (cfg.isAuthorized chain.entries.isEmpty priorState
      signerPublicKey) with
  | .error message => return .error ⟨.malformedEntry,
      "authorization check threw: " ++ message, index⟩
  | .ok false =>
      return .error ⟨.unauthorizedSigner,
        if (← Async.read).entries.isEmpty then
          "genesis signer is not in genesisAuthorizedKeys"
        else "signer was not a writer at the time this entry was authored",
        index⟩
  | .ok true =>
  match ← Async.awaiting (cfg.applyChange priorState entry.change) with
  | .error message => return .error ⟨.malformedEntry,
      "ops.applyChange threw: " ++ message, index⟩
  | .ok newState =>
      Async.write (ACLChain.push newState entry entryHash)
      return .ok ()

/-- What a call returns or rejects with. -/
inductive Settled where
  | result (result : Except Rejection Unit)
  | thrown (message : String)

/-- The payload that `authorAndAppend` signs. -/
def authoredPayload (sequenceNumber : ℕ) (timestamp : JsNumber)
    (parentHash : Option Bytes) (signerKeyId changeBytes : Bytes) : Bytes :=
  canonicalEntryPayloadFromBytes sequenceNumber timestamp.high.floorUint32
    timestamp.toUint32 parentHash signerKeyId changeBytes

/-- `authorAndAppend`; `sign` is `auth.sign` with the private key of the
call. -/
def authorAndAppend (change : Δ) (signerPublicKey : P)
    (sign : Bytes → Except String Bytes) (timestamp : JsNumber) :
    Method Δ S Settled := do
  match ← Async.awaiting (cfg.serializeKey signerPublicKey) with
  | .error message => return .thrown message
  | .ok signerKeyId =>
  let chain ← Async.read
  match cfg.serializeChange change with
  | .error message => return .thrown message
  -- the length of the buffer is then `NaN`
  | .ok none => return .thrown "Offset is outside the bounds of the DataView"
  | .ok (some changeBytes) =>
  let encoded := authoredPayload chain.entries.length timestamp chain.headHash
    signerKeyId changeBytes
  match ← Async.awaiting (sign encoded) with
  | .error message => return .thrown message
  | .ok signature =>
  let entry : RawEntry Δ := {
    sequenceNumber := some (.finite chain.entries.length)
    timestamp := some timestamp
    parentHash := chain.headHash.map some
    change := change
    signerKeyId := some signerKeyId
    signature := some signature }
  match ← cfg.ingestEntryInternal (some entry) signerPublicKey with
  | .ok () => return .result (.ok ())
  | .error rejection =>
      return .thrown ("ACLChain.authorAndAppend: refusing to append entry: " ++
        rejection.reason.toString ++ ": " ++ rejection.message)

/-- The loop of `replay`, from the entry with number `i` on. -/
def replayLoop (resolveKey : Bytes → Except String (Option P)) :
    ℕ → List (Option (RawEntry Δ)) → Method Δ S (Except Rejection Unit)
  | _, [] => return .ok ()
  | i, raw :: rest => do
      match validateEntryShape raw with
      | .error message => return .error ⟨.malformedEntry, message, i⟩
      | .ok entry =>
      match ← Async.awaiting (resolveKey entry.signerKeyId) with
      | .error message => return .error ⟨.unknownSignerKey,
          s!"resolveKey threw at entry {i}: " ++ message, i⟩
      | .ok none => return .error ⟨.unknownSignerKey,
          s!"no public key available for signerKeyId at entry {i}", i⟩
      | .ok (some signerKey) =>
      match ← cfg.ingestEntryInternal raw signerKey with
      | .error rejection => return .error rejection
      | .ok () => replayLoop resolveKey (i + 1) rest

/-- `replay`. -/
def replay (entries : List (Option (RawEntry Δ)))
    (resolveKey : Bytes → Except String (Option P)) :
    Method Δ S (Except Rejection Unit) := do
  Async.write fun _ => ACLChain.new
  cfg.replayLoop resolveKey 0 entries

/-- A call of one of the three mutating methods. -/
inductive Call (Δ P : Type) where
  | ingestEntry (entry : Option (RawEntry Δ)) (signerPublicKey : P)
  | authorAndAppend (change : Δ) (signerPublicKey : P)
      (sign : Bytes → Except String Bytes) (timestamp : JsNumber)
  | replay (entries : List (Option (RawEntry Δ)))
      (resolveKey : Bytes → Except String (Option P))

/-- The task that a call puts into the queue. -/
def task : Call Δ P → Method Δ S Settled
  | .ingestEntry entry signerPublicKey => do
      return .result (← cfg.ingestEntryInternal entry signerPublicKey)
  | .authorAndAppend change signerPublicKey sign timestamp =>
      cfg.authorAndAppend change signerPublicKey sign timestamp
  | .replay entries resolveKey => do
      return .result (← cfg.replay entries resolveKey)

end ACLChainConfig

end Collabswarm
