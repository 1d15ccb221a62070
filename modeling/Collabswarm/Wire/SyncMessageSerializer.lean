import Mathlib.Tactic
import Collabswarm.Wire.MerkleDagSerialization

/-!
# Sync messages on the wire

`serializeSyncMessage` and `deserializeSyncMessage` of `YjsJSONSerializer`.  A
message remembers the order in which its fields were set; the receiver builds
its message in an order of its own.  The Base64 package is a parameter.
-/

namespace Collabswarm.Wire

open JsString (ofString)

/-- The Base64 package: `fromUint8Array`, and `toUint8Array`, which may
throw. -/
structure Base64 where
  fromUint8Array : Bytes → JsString
  toUint8Array : JsString → Option Bytes

/-- Decoding inverts encoding. -/
def Base64.Inverts (base64 : Base64) : Prop :=
  ∀ b, base64.toUint8Array (base64.fromUint8Array b) = some b

/-- The fields of a sync message. -/
inductive SyncField where
  | documentId
  | changeId
  | signature
  | changes
  | keychainChanges
  | welcomeEpochId
  | welcomeRecipient
  | welcomeRecipientKemPublicKey
  | eciesSealed
  | pathUpdate
  | pathUpdateEpochId
  | tipsHash
  | tips
  | snapshot
deriving DecidableEq, Repr

/-- The text of a field's name. -/
def SyncField.text : SyncField → String
  | .documentId => "documentId"
  | .changeId => "changeId"
  | .signature => "signature"
  | .changes => "changes"
  | .keychainChanges => "keychainChanges"
  | .welcomeEpochId => "welcomeEpochId"
  | .welcomeRecipient => "welcomeRecipient"
  | .welcomeRecipientKemPublicKey => "welcomeRecipientKemPublicKey"
  | .eciesSealed => "eciesSealed"
  | .pathUpdate => "pathUpdate"
  | .pathUpdateEpochId => "pathUpdateEpochId"
  | .tipsHash => "tipsHash"
  | .tips => "tips"
  | .snapshot => "snapshot"

/-- The name of a field. -/
def SyncField.name (f : SyncField) : JsString := ofString f.text

/-- The fields in the order in which `deserializeSyncMessage` sets them. -/
def SyncField.received : List SyncField :=
  [.documentId, .changeId, .signature, .changes, .keychainChanges,
    .welcomeEpochId, .welcomeRecipient, .welcomeRecipientKemPublicKey,
    .eciesSealed, .pathUpdate, .pathUpdateEpochId, .tipsHash, .tips, .snapshot]

/-- The fields `serializeSyncMessage` sets after it has spread the message. -/
def SyncField.encoded : List SyncField :=
  [.changes, .keychainChanges, .welcomeEpochId, .welcomeRecipient,
    .welcomeRecipientKemPublicKey, .eciesSealed, .pathUpdate,
    .pathUpdateEpochId, .tipsHash, .tips, .snapshot]

/-- A property of a snapshot: bytes, a JSON value, or a `CryptoKey`. -/
inductive SnapshotValue where
  | bytes (b : Bytes)
  | json (j : Json)
  | cryptoKey

/-- A snapshot: its properties in the order in which they were set. -/
abbrev SnapshotObject := List (JsString × SnapshotValue)

/-- The values of the fields of a sync message. -/
structure SyncFields where
  documentId : JsString
  changeId : Option JsString
  signature : Option JsString
  changes : Option (NodeObject Bytes)
  keychainChanges : Option Bytes
  welcomeEpochId : Option Bytes
  welcomeRecipient : Option JsString
  welcomeRecipientKemPublicKey : Option Bytes
  eciesSealed : Option Bytes
  pathUpdate : Option (List (JsString × Json))
  pathUpdateEpochId : Option Bytes
  tipsHash : Option Bytes
  tips : Option (List JsString)
  snapshot : Option SnapshotObject

/-- A field holds a value. -/
def SyncFields.holds (m : SyncFields) : SyncField → Bool
  | .documentId => true
  | .changeId => m.changeId.isSome
  | .signature => m.signature.isSome
  | .changes => m.changes.isSome
  | .keychainChanges => m.keychainChanges.isSome
  | .welcomeEpochId => m.welcomeEpochId.isSome
  | .welcomeRecipient => m.welcomeRecipient.isSome
  | .welcomeRecipientKemPublicKey => m.welcomeRecipientKemPublicKey.isSome
  | .eciesSealed => m.eciesSealed.isSome
  | .pathUpdate => m.pathUpdate.isSome
  | .pathUpdateEpochId => m.pathUpdateEpochId.isSome
  | .tipsHash => m.tipsHash.isSome
  | .tips => m.tips.isSome
  | .snapshot => m.snapshot.isSome

/-- A sync message: its fields and the order in which they were set. -/
@[ext]
structure SyncMessage extends SyncFields where
  order : List SyncField
  nodup : order.Nodup
  listed : ∀ f, toSyncFields.holds f = true → f ∈ order

/-- The message without its signature. -/
def SyncMessage.withoutSignature (m : SyncMessage) : SyncMessage where
  toSyncFields := { m.toSyncFields with signature := none }
  order := m.order.filter (· ≠ .signature)
  nodup := m.nodup.filter _
  listed := by
    intro f hf
    cases f with
    | signature => simp [SyncFields.holds] at hf
    | _ => exact List.mem_filter.2 ⟨m.listed _ hf, by decide⟩

/-! ## Writing -/

/-- The name of a snapshot's `state`. -/
def stateName : JsString := ofString "state"

/-- The name of a snapshot's `signature`. -/
def signatureName : JsString := ofString "signature"

/-- The name of a snapshot's `publicKey`. -/
def publicKeyName : JsString := ofString "publicKey"

/-- The JSON value of a property of a snapshot.  `state` and `signature` are
written in Base64, another byte string as an object keyed by its indices. -/
def snapshotValueJson (base64 : Base64) (name : JsString) :
    SnapshotValue → Json
  | .bytes b =>
      if name = stateName ∨ name = signatureName then
        .str (base64.fromUint8Array b)
      else
        .obj (b.zipIdx.map fun e =>
          (JsString.ofChars (Nat.toDigits 10 e.2), .num e.1.toNat))
  | .json j => j
  | .cryptoKey => .obj []

/-- The snapshot on the wire: `publicKey` is dropped. -/
def snapshotJson (base64 : Base64) (snapshot : SnapshotObject) :
    List (JsString × Json) :=
  (snapshot.filter fun p => p.1 ≠ publicKeyName).map fun p =>
    (p.1, snapshotValueJson base64 p.1 p.2)

/-- The JSON value of a byte string. -/
def bytesJson (base64 : Base64) (b : Bytes) : Json :=
  .str (base64.fromUint8Array b)

/-- The JSON value of a field; `none` where it is `undefined`. -/
def SyncFields.wireValue (base64 : Base64) (m : SyncFields) :
    SyncField → Option Json
  | .documentId => some (.str m.documentId)
  | .changeId => m.changeId.map .str
  | .signature => m.signature.map .str
  | .changes => m.changes.map fun node =>
      (serializeChangeNodeForJSON (bytesJson base64) node).toJson
  | .keychainChanges => m.keychainChanges.map (bytesJson base64)
  | .welcomeEpochId => m.welcomeEpochId.map (bytesJson base64)
  | .welcomeRecipient => m.welcomeRecipient.map .str
  | .welcomeRecipientKemPublicKey =>
      m.welcomeRecipientKemPublicKey.map (bytesJson base64)
  | .eciesSealed => m.eciesSealed.map (bytesJson base64)
  | .pathUpdate => m.pathUpdate.map .obj
  | .pathUpdateEpochId => m.pathUpdateEpochId.map (bytesJson base64)
  | .tipsHash => m.tipsHash.map (bytesJson base64)
  | .tips => m.tips.map fun tips => .arr (tips.map .str)
  | .snapshot => m.snapshot.map fun s => .obj (snapshotJson base64 s)

/-- The object `serializeSyncMessage` hands to `JSON.stringify`. -/
def SyncMessage.wireMembers (base64 : Base64) (m : SyncMessage) :
    List (JsString × Json) :=
  FieldOrder.entries SyncField.name (m.wireValue base64)
    (SyncField.encoded.foldl FieldOrder.touch m.order)

/-- `serializeSyncMessage`.  The text has no lone surrogate, so that its UTF-8
is that of its characters. -/
def serializeSyncMessage (base64 : Base64) (m : SyncMessage) : Bytes :=
  JsString.utf8 (Json.stringify (.obj (m.wireMembers base64)))

/-! ## Reading -/

/-- A field that must be a string when present. -/
def optionalString (field : SyncField) (members : List (JsString × Json)) :
    Except WireError (Option JsString) :=
  match members.lookup field.name with
  | none => .ok none
  | some (.str s) => .ok (some s)
  | some j => .error (.invalid ("Invalid sync message: '" ++ field.text ++
      "' must be a string when present (got " ++ describeValue (some j) ++ ")"))

/-- Decode Base64. -/
def decodeBase64 (base64 : Base64) (s : JsString) : Except WireError Bytes :=
  match base64.toUint8Array s with
  | some b => .ok b
  | none => .error .base64Error

/-- A field that must be a byte string in Base64 when present. -/
def optionalBytes (base64 : Base64) (field : SyncField)
    (members : List (JsString × Json)) : Except WireError (Option Bytes) :=
  match optionalString field members with
  | .error e => .error e
  | .ok none => .ok none
  | .ok (some s) => (decodeBase64 base64 s).map some

/-- The required `documentId`. -/
def requiredDocumentId (members : List (JsString × Json)) :
    Except WireError JsString :=
  match members.lookup SyncField.documentId.name with
  | some (.str s) => .ok s
  | j => .error (.invalid (
      "Invalid sync message: 'documentId' must be a string (got " ++
      describeValue j ++ ")"))

/-- A field that must be an object when present. -/
def optionalObject (field : SyncField) (members : List (JsString × Json)) :
    Except WireError (Option (List (JsString × Json))) :=
  match members.lookup field.name with
  | none => .ok none
  | some (.obj ms) => .ok (some ms)
  | some j => .error (.invalid ("Invalid sync message: '" ++ field.text ++
      "' must be an object when present (got " ++ describeValue (some j) ++
      ")"))

/-- A property of a received snapshot. -/
def readSnapshotValue (base64 : Base64) (name : JsString) :
    Json → Except WireError SnapshotValue
  | .str s =>
      if name = stateName ∨ name = signatureName then
        (decodeBase64 base64 s).map .bytes
      else .ok (.json (.str s))
  | j => .ok (.json j)

/-- The properties of a received snapshot. -/
def readSnapshot (base64 : Base64) :
    List (JsString × Json) → Except WireError SnapshotObject
  | [] => .ok []
  | (name, j) :: members =>
      match readSnapshotValue base64 name j with
      | .error e => .error e
      | .ok value =>
          match readSnapshot base64 members with
          | .error e => .error e
          | .ok snapshot => .ok ((name, value) :: snapshot)

/-- The received `snapshot`. -/
def optionalSnapshot (base64 : Base64) (members : List (JsString × Json)) :
    Except WireError (Option SnapshotObject) :=
  match optionalObject .snapshot members with
  | .error e => .error e
  | .ok none => .ok none
  | .ok (some ms) => (readSnapshot base64 ms).map some

/-- The length of a tip-set hash. -/
def tipsHashLength : ℕ := 32

/-- The received `tipsHash`, which must have the length of a digest. -/
def optionalTipsHash (base64 : Base64) (members : List (JsString × Json)) :
    Except WireError (Option Bytes) :=
  match optionalBytes base64 .tipsHash members with
  | .ok (some b) =>
      if b.length = tipsHashLength then .ok (some b)
      else .error (.invalid (
        "Invalid sync message: 'tipsHash' must decode to exactly 32 bytes " ++
        "(SHA-256 digest); got " ++ toString b.length ++ " bytes"))
  | result => result

/-- The entries of the received `tips`. -/
def readTips : List Json → Except WireError (List JsString)
  | [] => .ok []
  | .str s :: entries => (readTips entries).map (s :: ·)
  | j :: _ => .error (.invalid (
      "Invalid sync message: 'tips' entries must be strings (got " ++
      describeValue (some j) ++ ")"))

/-- The received `tips`. -/
def optionalTips (members : List (JsString × Json)) :
    Except WireError (Option (List JsString)) :=
  match members.lookup SyncField.tips.name with
  | none => .ok none
  | some (.arr entries) => (readTips entries).map some
  | some j => .error (.invalid (
      "Invalid sync message: 'tips' must be an array when present (got " ++
      describeValue (some j) ++ ")"))

/-- `Base64.toUint8Array` of an unchecked value. -/
def decodeLeaf (base64 : Base64) : Json → Except WireError Bytes
  | .str s => decodeBase64 base64 s
  | _ => .error .typeError

/-- The received `changes`. -/
def optionalChanges (base64 : Base64) (members : List (JsString × Json)) :
    Except WireError (Option (NodeObject Bytes)) :=
  match members.lookup SyncField.changes.name with
  | none => .ok none
  | some j =>
      (deserializeChangeNodeFromJSON (decodeLeaf base64) j).map some

/-- The fields of a received message, in the order in which they are
checked. -/
def readFields (base64 : Base64) (members : List (JsString × Json)) :
    Except WireError SyncFields := do
  let documentId ← requiredDocumentId members
  let changeId ← optionalString .changeId members
  let signature ← optionalString .signature members
  let snapshot ← optionalSnapshot base64 members
  let keychainChanges ← optionalBytes base64 .keychainChanges members
  let welcomeEpochId ← optionalBytes base64 .welcomeEpochId members
  let welcomeRecipientKemPublicKey ←
    optionalBytes base64 .welcomeRecipientKemPublicKey members
  let eciesSealed ← optionalBytes base64 .eciesSealed members
  let welcomeRecipient ← optionalString .welcomeRecipient members
  let pathUpdate ← optionalObject .pathUpdate members
  let pathUpdateEpochId ← optionalBytes base64 .pathUpdateEpochId members
  let tipsHash ← optionalTipsHash base64 members
  let tips ← optionalTips members
  let changes ← optionalChanges base64 members
  return ⟨documentId, changeId, signature, changes, keychainChanges,
    welcomeEpochId, welcomeRecipient, welcomeRecipientKemPublicKey,
    eciesSealed, pathUpdate, pathUpdateEpochId, tipsHash, tips, snapshot⟩

theorem mem_received (f : SyncField) : f ∈ SyncField.received := by
  cases f <;> decide

theorem nodup_received : SyncField.received.Nodup := by
  decide

/-- The message the receiver builds: it sets the fields that it has read. -/
def SyncFields.build (m : SyncFields) : SyncMessage where
  toSyncFields := m
  order := SyncField.received.filter m.holds
  nodup := List.Nodup.filter _ (by decide)
  listed := fun f hf => List.mem_filter.2 ⟨mem_received f, hf⟩

/-- `deserializeSyncMessage`. -/
def deserializeSyncMessage (base64 : Base64) (bytes : Bytes) :
    Except WireError SyncMessage :=
  match Json.parse (JsString.textDecode bytes) with
  | none => .error .syntaxError
  | some (.obj members) => (readFields base64 members).map SyncFields.build
  | some j => .error (.invalid (
      "Invalid sync message: expected a plain object (got " ++
      describeValue (some j) ++ ")"))

/-! ## What the receiver gets -/

/-- A property of a snapshot as the receiver gets it. -/
def SnapshotValue.received (base64 : Base64) (name : JsString)
    (value : SnapshotValue) : SnapshotValue :=
  match value with
  | .bytes b =>
      if name = stateName ∨ name = signatureName then .bytes b
      else .json (snapshotValueJson base64 name (.bytes b))
  | .json j => .json j
  | .cryptoKey => .json (.obj [])

/-- A snapshot as the receiver gets it: without `publicKey`. -/
def receivedSnapshot (base64 : Base64) (snapshot : SnapshotObject) :
    SnapshotObject :=
  (snapshot.filter fun p => p.1 ≠ publicKeyName).map fun p =>
    (p.1, p.2.received base64 p.1)

/-- The fields of a message as the receiver gets them. -/
def SyncFields.received (base64 : Base64) (m : SyncFields) : SyncFields :=
  { m with
    changes := m.changes.map NodeObject.rebuilt
    snapshot := m.snapshot.map (receivedSnapshot base64) }

/-- A snapshot whose names are distinct, with byte strings in `state` and
`signature` only and a `CryptoKey` in `publicKey` only. -/
structure SnapshotWellFormed (snapshot : SnapshotObject) : Prop where
  nodup : (snapshot.map Prod.fst).Nodup
  typed : ∀ p ∈ snapshot, ∀ j, p.2 = .json j →
    p.1 ≠ stateName ∧ p.1 ≠ signatureName ∧ j.Distinct
  keyed : ∀ p ∈ snapshot, ∀ b, p.2 = .bytes b →
    p.1 = stateName ∨ p.1 = signatureName
  cryptoKey : ∀ p ∈ snapshot, p.2 = .cryptoKey → p.1 = publicKeyName

/-- The values of a message have their declared types. -/
structure SyncFields.WellFormed (m : SyncFields) : Prop where
  changes : ∀ node, m.changes = some node → node.WellFormed
  pathUpdate : ∀ members, m.pathUpdate = some members →
    (Json.obj members).Distinct
  tipsHash : ∀ b, m.tipsHash = some b → b.length = tipsHashLength
  snapshot : ∀ s, m.snapshot = some s → SnapshotWellFormed s

theorem syncField_name_injective : Function.Injective SyncField.name := by
  intro f g h
  have hnodup : (SyncField.received.map SyncField.name).Nodup := by
    decide +kernel
  exact List.inj_on_of_nodup_map hnodup (mem_received f) (mem_received g) h

section Members

variable (base64 : Base64)

theorem holds_eq_isSome_wireValue (m : SyncFields) (f : SyncField) :
    m.holds f = (m.wireValue base64 f).isSome := by
  cases f <;> simp [SyncFields.holds, SyncFields.wireValue]

theorem mem_order_of_wireValue (m : SyncMessage) {f : SyncField}
    (h : m.wireValue base64 f ≠ none) : f ∈ m.order := by
  apply m.listed
  rw [holds_eq_isSome_wireValue base64, Option.isSome_iff_ne_none]
  exact h

/-- The object on the wire has the fields of the message in their order. -/
theorem wireMembers_eq (m : SyncMessage) :
    m.wireMembers base64 =
      FieldOrder.entries SyncField.name (m.wireValue base64) m.order :=
  FieldOrder.entries_foldl_touch SyncField.name _ fun _ =>
    mem_order_of_wireValue base64 m

theorem lookup_wireMembers (m : SyncMessage) (f : SyncField) :
    (m.wireMembers base64).lookup f.name = m.wireValue base64 f := by
  rw [wireMembers_eq, FieldOrder.lookup_entries syncField_name_injective]
  split_ifs with hf
  · rfl
  · by_contra hne
    exact hf (mem_order_of_wireValue base64 m (Ne.symm hne))

theorem distinct_snapshotJson {snapshot : SnapshotObject}
    (h : SnapshotWellFormed snapshot) :
    (Json.obj (snapshotJson base64 snapshot)).Distinct := by
  constructor
  · rw [snapshotJson, List.map_map]
    exact h.nodup.sublist (List.filter_sublist.map _)
  · rw [Json.distinctMembers_iff]
    intro p hp
    obtain ⟨⟨name, value⟩, hmem, rfl⟩ := List.mem_map.1 hp
    have hmem := (List.mem_filter.1 hmem).1
    cases value with
    | bytes b =>
        rw [snapshotValueJson, if_pos (h.keyed _ hmem b rfl)]
        trivial
    | json j => exact (h.typed _ hmem j rfl).2.2
    | cryptoKey => exact ⟨List.nodup_nil, trivial⟩

theorem distinct_tips (tips : List JsString) :
    Json.DistinctElements (tips.map .str) := by
  induction tips with
  | nil => trivial
  | cons tip tips ih => exact ⟨trivial, ih⟩

/-- The object on the wire repeats no name. -/
theorem distinct_wireMembers {m : SyncMessage} (hm : m.WellFormed) :
    (Json.obj (m.wireMembers base64)).Distinct := by
  rw [wireMembers_eq]
  refine ⟨FieldOrder.nodup_entries syncField_name_injective _ m.nodup, ?_⟩
  rw [Json.distinctMembers_iff]
  intro p hp
  obtain ⟨f, -, hf⟩ := List.mem_filterMap.1 hp
  obtain ⟨v, hv, rfl⟩ := Option.map_eq_some_iff.1 hf
  cases f with
  | documentId =>
      obtain rfl := Option.some.inj hv
      trivial
  | changes =>
      obtain ⟨node, hnode, rfl⟩ := Option.map_eq_some_iff.1 hv
      have hleaf : ∀ b, (bytesJson base64 b).Distinct := fun _ => trivial
      exact distinct_toJson hleaf node (hm.changes node hnode)
  | pathUpdate =>
      obtain ⟨members, hmembers, rfl⟩ := Option.map_eq_some_iff.1 hv
      exact hm.pathUpdate members hmembers
  | tips =>
      obtain ⟨tips, -, rfl⟩ := Option.map_eq_some_iff.1 hv
      exact distinct_tips tips
  | snapshot =>
      obtain ⟨s, hs, rfl⟩ := Option.map_eq_some_iff.1 hv
      exact distinct_snapshotJson base64 (hm.snapshot s hs)
  | _ =>
      obtain ⟨b, -, rfl⟩ := Option.map_eq_some_iff.1 hv
      trivial

end Members

section RoundTrip

variable {base64 : Base64} {members : List (JsString × Json)}

theorem optionalString_of_lookup {field : SyncField} {o : Option JsString}
    (h : members.lookup field.name = o.map .str) :
    optionalString field members = .ok o := by
  rw [optionalString, h]
  cases o <;> rfl

theorem decodeBase64_fromUint8Array (hbase64 : base64.Inverts) (b : Bytes) :
    decodeBase64 base64 (base64.fromUint8Array b) = .ok b := by
  rw [decodeBase64, hbase64 b]

theorem optionalBytes_of_lookup (hbase64 : base64.Inverts) {field : SyncField}
    {o : Option Bytes}
    (h : members.lookup field.name = o.map (bytesJson base64)) :
    optionalBytes base64 field members = .ok o := by
  have hstring : members.lookup field.name =
      (o.map base64.fromUint8Array).map .str := by
    rw [h, Option.map_map]
    rfl
  rw [optionalBytes, optionalString_of_lookup hstring]
  cases o with
  | none => rfl
  | some b =>
      dsimp only [Option.map_some]
      rw [decodeBase64_fromUint8Array hbase64]
      rfl

theorem optionalObject_of_lookup {field : SyncField}
    {o : Option (List (JsString × Json))}
    (h : members.lookup field.name = o.map .obj) :
    optionalObject field members = .ok o := by
  rw [optionalObject, h]
  cases o <;> rfl

theorem readSnapshotValue_json (hbase64 : base64.Inverts) {name : JsString}
    {value : SnapshotValue}
    (htyped : ∀ j, value = .json j → name ≠ stateName ∧ name ≠ signatureName)
    (hkeyed : ∀ b, value = .bytes b → name = stateName ∨ name = signatureName) :
    readSnapshotValue base64 name (snapshotValueJson base64 name value) =
      .ok (value.received base64 name) := by
  cases value with
  | bytes b =>
      have hname := hkeyed b rfl
      rw [snapshotValueJson, if_pos hname, readSnapshotValue, if_pos hname,
        decodeBase64_fromUint8Array hbase64, SnapshotValue.received,
        if_pos hname]
      rfl
  | json j =>
      obtain ⟨hstate, hsignature⟩ := htyped j rfl
      cases j with
      | str s =>
          rw [snapshotValueJson, readSnapshotValue, if_neg]
          · rfl
          · rintro (h | h)
            · exact hstate h
            · exact hsignature h
      | _ => rfl
  | cryptoKey => rfl

theorem readSnapshot_snapshotJson (hbase64 : base64.Inverts)
    {snapshot : SnapshotObject}
    (htyped : ∀ p ∈ snapshot, ∀ j, p.2 = .json j →
      p.1 ≠ stateName ∧ p.1 ≠ signatureName)
    (hkeyed : ∀ p ∈ snapshot, ∀ b, p.2 = .bytes b →
      p.1 = stateName ∨ p.1 = signatureName) :
    readSnapshot base64 (snapshot.map fun p =>
      (p.1, snapshotValueJson base64 p.1 p.2)) =
      .ok (snapshot.map fun p => (p.1, p.2.received base64 p.1)) := by
  induction snapshot with
  | nil => rfl
  | cons p snapshot ih =>
      rw [List.map_cons, readSnapshot, readSnapshotValue_json hbase64
        (htyped p List.mem_cons_self) (hkeyed p List.mem_cons_self),
        ih (fun q hq => htyped q (List.mem_cons_of_mem p hq))
          (fun q hq => hkeyed q (List.mem_cons_of_mem p hq))]
      rfl

theorem optionalSnapshot_of_lookup (hbase64 : base64.Inverts)
    {o : Option SnapshotObject}
    (hwf : ∀ s, o = some s → SnapshotWellFormed s)
    (h : members.lookup SyncField.snapshot.name =
      o.map fun s => .obj (snapshotJson base64 s)) :
    optionalSnapshot base64 members =
      .ok (o.map (receivedSnapshot base64)) := by
  have hobject : members.lookup SyncField.snapshot.name =
      (o.map (snapshotJson base64)).map .obj := by
    rw [h, Option.map_map]
    rfl
  rw [optionalSnapshot, optionalObject_of_lookup hobject]
  cases o with
  | none => rfl
  | some s =>
      have hs := hwf s rfl
      have htyped : ∀ p ∈ s.filter fun p => p.1 ≠ publicKeyName,
          ∀ j, p.2 = .json j → p.1 ≠ stateName ∧ p.1 ≠ signatureName := by
        intro p hp j hj
        obtain ⟨hstate, hsignature, -⟩ :=
          hs.typed p (List.mem_filter.1 hp).1 j hj
        exact ⟨hstate, hsignature⟩
      have hkeyed : ∀ p ∈ s.filter fun p => p.1 ≠ publicKeyName,
          ∀ b, p.2 = .bytes b → p.1 = stateName ∨ p.1 = signatureName :=
        fun p hp => hs.keyed p (List.mem_filter.1 hp).1
      dsimp only [Option.map_some]
      rw [snapshotJson, readSnapshot_snapshotJson hbase64 htyped hkeyed]
      rfl

theorem optionalTipsHash_of_lookup (hbase64 : base64.Inverts)
    {o : Option Bytes} (hlength : ∀ b, o = some b → b.length = tipsHashLength)
    (h : members.lookup SyncField.tipsHash.name =
      o.map (bytesJson base64)) :
    optionalTipsHash base64 members = .ok o := by
  rw [optionalTipsHash, optionalBytes_of_lookup hbase64 h]
  cases o with
  | none => rfl
  | some b =>
      dsimp only
      rw [if_pos (hlength b rfl)]

theorem readTips_map (tips : List JsString) :
    readTips (tips.map .str) = .ok tips := by
  induction tips with
  | nil => rfl
  | cons tip tips ih =>
      rw [List.map_cons, readTips, ih]
      rfl

theorem optionalTips_of_lookup {o : Option (List JsString)}
    (h : members.lookup SyncField.tips.name =
      o.map fun tips => .arr (tips.map .str)) :
    optionalTips members = .ok o := by
  rw [optionalTips, h]
  cases o with
  | none => rfl
  | some tips =>
      dsimp only [Option.map_some]
      rw [readTips_map]
      rfl

theorem optionalChanges_of_lookup (hbase64 : base64.Inverts)
    {o : Option (NodeObject Bytes)}
    (hwf : ∀ node, o = some node → node.WellFormed)
    (h : members.lookup SyncField.changes.name = o.map fun node =>
      (serializeChangeNodeForJSON (bytesJson base64) node).toJson) :
    optionalChanges base64 members = .ok (o.map NodeObject.rebuilt) := by
  rw [optionalChanges, h]
  cases o with
  | none => rfl
  | some node =>
      have hleaf : ∀ b, decodeLeaf base64 (bytesJson base64 b) = .ok b :=
        decodeBase64_fromUint8Array hbase64
      have hread := deserialize_serialize hleaf node (hwf node rfl)
      dsimp only [Option.map_some]
      rw [hread]
      rfl

/-- The fields of a message are read back. -/
theorem readFields_wireMembers (hbase64 : base64.Inverts) {m : SyncMessage}
    (hm : m.WellFormed) :
    readFields base64 (m.wireMembers base64) = .ok (m.received base64) := by
  have hlookup := lookup_wireMembers base64 m
  have hdocumentId : requiredDocumentId (m.wireMembers base64) =
      .ok m.documentId := by
    rw [requiredDocumentId, hlookup]
    rfl
  have hchangeId := optionalString_of_lookup (hlookup .changeId)
  have hsignature := optionalString_of_lookup (hlookup .signature)
  have hsnapshot := optionalSnapshot_of_lookup hbase64 hm.snapshot
    (hlookup .snapshot)
  have hkeychain := optionalBytes_of_lookup hbase64 (hlookup .keychainChanges)
  have hepoch := optionalBytes_of_lookup hbase64 (hlookup .welcomeEpochId)
  have hkem := optionalBytes_of_lookup hbase64
    (hlookup .welcomeRecipientKemPublicKey)
  have hsealed := optionalBytes_of_lookup hbase64 (hlookup .eciesSealed)
  have hrecipient := optionalString_of_lookup (hlookup .welcomeRecipient)
  have hpath := optionalObject_of_lookup (hlookup .pathUpdate)
  have hpathEpoch := optionalBytes_of_lookup hbase64
    (hlookup .pathUpdateEpochId)
  have htipsHash := optionalTipsHash_of_lookup hbase64 hm.tipsHash
    (hlookup .tipsHash)
  have htips := optionalTips_of_lookup (hlookup .tips)
  have hchanges := optionalChanges_of_lookup hbase64 hm.changes
    (hlookup .changes)
  simp only [readFields, hdocumentId, hchangeId, hsignature, hsnapshot,
    hkeychain, hepoch, hkem, hsealed, hrecipient, hpath, hpathEpoch, htipsHash,
    htips, hchanges, bind, Except.bind, pure, Except.pure]
  rfl

theorem head_stringify_obj (members : List (JsString × Json)) :
    ∃ text, Json.stringify (.obj members) = '{' :: text := by
  cases members with
  | nil => exact ⟨_, rfl⟩
  | cons m members => exact ⟨_, rfl⟩

/-- A message comes back with its fields in the receiver's order. -/
theorem deserializeSyncMessage_serialize (hbase64 : base64.Inverts)
    {m : SyncMessage} (hm : m.WellFormed) :
    deserializeSyncMessage base64 (serializeSyncMessage base64 m) =
      .ok (m.received base64).build := by
  obtain ⟨text, htext⟩ := head_stringify_obj (m.wireMembers base64)
  have hdecode : JsString.textDecode (serializeSyncMessage base64 m) =
      Json.stringify (.obj (m.wireMembers base64)) := by
    apply JsString.textDecode_utf8
    rw [htext]
    simp
  rw [deserializeSyncMessage, hdecode,
    Json.parse_stringify (distinct_wireMembers base64 hm)]
  dsimp only
  rw [readFields_wireMembers hbase64 hm]
  rfl

theorem snapshotValueJson_received (name : JsString) (value : SnapshotValue) :
    snapshotValueJson base64 name (value.received base64 name) =
      snapshotValueJson base64 name value := by
  cases value with
  | bytes b =>
      unfold SnapshotValue.received
      dsimp only
      split_ifs
      · rfl
      · rfl
  | json j => rfl
  | cryptoKey => rfl

/-- A snapshot that is sent on has the same text. -/
theorem snapshotJson_received (snapshot : SnapshotObject) :
    snapshotJson base64 (receivedSnapshot base64 snapshot) =
      snapshotJson base64 snapshot := by
  rw [snapshotJson, receivedSnapshot, List.filter_map, List.map_map]
  simp only [Function.comp_def, List.filter_filter, Bool.and_self,
    snapshotValueJson_received]
  rfl

/-- A snapshot that came over the wire can be sent on. -/
theorem SnapshotWellFormed.received {snapshot : SnapshotObject}
    (h : SnapshotWellFormed snapshot) :
    SnapshotWellFormed (receivedSnapshot base64 snapshot) := by
  have hmem : ∀ p ∈ receivedSnapshot base64 snapshot, ∃ q ∈ snapshot,
      q.1 ≠ publicKeyName ∧ p = (q.1, q.2.received base64 q.1) := by
    intro p hp
    obtain ⟨q, hq, rfl⟩ := List.mem_map.1 hp
    obtain ⟨hq, hname⟩ := List.mem_filter.1 hq
    exact ⟨q, hq, of_decide_eq_true hname, rfl⟩
  refine ⟨?_, ?_, ?_, ?_⟩
  · rw [receivedSnapshot, List.map_map]
    exact h.nodup.sublist (List.filter_sublist.map _)
  · intro p hp j hj
    obtain ⟨⟨name, value⟩, hq, hname, rfl⟩ := hmem p hp
    cases value with
    | bytes b =>
        rw [SnapshotValue.received, if_pos (h.keyed _ hq b rfl)] at hj
        cases hj
    | json j' =>
        obtain rfl := SnapshotValue.json.inj hj
        exact h.typed _ hq j' rfl
    | cryptoKey => exact absurd (h.cryptoKey _ hq rfl) hname
  · intro p hp b hb
    obtain ⟨⟨name, value⟩, hq, -, rfl⟩ := hmem p hp
    cases value with
    | bytes b' => exact h.keyed (name, .bytes b') hq b' rfl
    | json j => cases hb
    | cryptoKey => cases hb
  · intro p hp hkey
    obtain ⟨⟨name, value⟩, hq, hname, rfl⟩ := hmem p hp
    cases value with
    | bytes b =>
        rw [SnapshotValue.received, if_pos (h.keyed _ hq b rfl)] at hkey
        cases hkey
    | json j => cases hkey
    | cryptoKey => exact absurd (h.cryptoKey _ hq rfl) hname

/-- A message that came over the wire can be sent on. -/
theorem SyncFields.WellFormed.received {m : SyncFields} (h : m.WellFormed) :
    (m.received base64).WellFormed := by
  refine ⟨?_, h.pathUpdate, h.tipsHash, ?_⟩
  · intro node hnode
    obtain ⟨node', hnode', rfl⟩ := Option.map_eq_some_iff.1 hnode
    exact wellFormed_rebuilt node' (h.changes node' hnode')
  · intro s hs
    obtain ⟨s', hs', rfl⟩ := Option.map_eq_some_iff.1 hs
    exact (h.snapshot s' hs').received

/-- Messages with the same bytes have the same object on the wire. -/
theorem wireMembers_eq_of_serialize_eq {m m' : SyncMessage}
    (hm : m.WellFormed) (hm' : m'.WellFormed)
    (h : serializeSyncMessage base64 m = serializeSyncMessage base64 m') :
    m.wireMembers base64 = m'.wireMembers base64 := by
  have htext := JsString.utf8_injective h
  have hparse := congrArg Json.parse htext
  rw [Json.parse_stringify (distinct_wireMembers base64 hm),
    Json.parse_stringify (distinct_wireMembers base64 hm')] at hparse
  exact Json.obj.inj (Option.some.inj hparse)

end RoundTrip

end Collabswarm.Wire
