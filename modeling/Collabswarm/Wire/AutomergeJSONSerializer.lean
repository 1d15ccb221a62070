import Collabswarm.Wire.ReceivedFields

/-!
# Sync messages of `AutomergeJSONSerializer`

`serializeSyncMessage` and `deserializeSyncMessage` of the Automerge package,
where changes are lists of byte strings.  The tree of changes, the keychain
changes and the `state` of a snapshot are written as arrays; the other fields
are those of `YjsJSONSerializer`.
-/

namespace Collabswarm.Wire

namespace AutomergeJSONSerializer

open JsString (ofString)

/-- A property of a snapshot: changes, bytes, a JSON value, or a
`CryptoKey`. -/
inductive SnapshotValue where
  | changes (c : List Bytes)
  | bytes (b : Bytes)
  | json (j : Json)
  | cryptoKey

/-- A snapshot: its properties in the order in which they were set.  An array
in `state` is one of changes. -/
abbrev SnapshotObject := List (JsString × SnapshotValue)

/-- The values of the fields of a sync message. -/
structure SyncFields where
  documentId : JsString
  changeId : Option JsString
  signature : Option JsString
  changes : Option (NodeObject (List Bytes))
  keychainChanges : Option (List Bytes)
  welcomeEpochId : Option Bytes
  welcomeRecipient : Option JsString
  welcomeRecipientKemPublicKey : Option Bytes
  eciesSealed : Option Bytes
  pathUpdate : Option (List (JsString × Json))
  pathUpdateEpochId : Option Bytes
  tipsHash : Option Bytes
  tips : Option (List JsString)
  snapshot : Option SnapshotObject

/-- A field holds a value. -/
def SyncFields.holds (m : SyncFields) : SyncField → Bool
  | .documentId => true
  | .changeId => m.changeId.isSome
  | .signature => m.signature.isSome
  | .changes => m.changes.isSome
  | .keychainChanges => m.keychainChanges.isSome
  | .welcomeEpochId => m.welcomeEpochId.isSome
  | .welcomeRecipient => m.welcomeRecipient.isSome
  | .welcomeRecipientKemPublicKey => m.welcomeRecipientKemPublicKey.isSome
  | .eciesSealed => m.eciesSealed.isSome
  | .pathUpdate => m.pathUpdate.isSome
  | .pathUpdateEpochId => m.pathUpdateEpochId.isSome
  | .tipsHash => m.tipsHash.isSome
  | .tips => m.tips.isSome
  | .snapshot => m.snapshot.isSome

/-- A sync message: its fields and the order in which they were set. -/
structure SyncMessage extends SyncFields where
  order : List SyncField
  nodup : order.Nodup
  listed : ∀ f, toSyncFields.holds f = true → f ∈ order

/-! ## Writing -/

section Write

variable (base64 : Base64)

/-- `serializeBinaryChanges`. -/
def serializeBinaryChanges (changes : List Bytes) : Json :=
  .arr (changes.map (bytesJson base64))

/-- The JSON value of a byte string that is not encoded: an object keyed by
its indices. -/
def indexedJson (b : Bytes) : Json :=
  .obj (b.zipIdx.map fun e =>
    (JsString.ofChars (Nat.toDigits 10 e.2), .num e.1.toNat))

/-- The JSON value of a property of a snapshot.  Changes are encoded in `state`
and a byte string in `signature`. -/
def snapshotValueJson (name : JsString) : SnapshotValue → Json
  | .changes c =>
      if name = stateName then serializeBinaryChanges base64 c
      else .arr (c.map indexedJson)
  | .bytes b =>
      if name = signatureName then .str (base64.fromUint8Array b)
      else indexedJson b
  | .json j => j
  | .cryptoKey => .obj []

/-- The snapshot on the wire: `publicKey` is dropped. -/
def snapshotJson (snapshot : SnapshotObject) : List (JsString × Json) :=
  (snapshot.filter fun p => p.1 ≠ publicKeyName).map fun p =>
    (p.1, snapshotValueJson base64 p.1 p.2)

/-- The JSON value of a field; `none` where it is `undefined`.  Byte strings
and arrays are truthy, also empty ones. -/
def SyncFields.wireValue (m : SyncFields) : SyncField → Option Json
  | .documentId => some (.str m.documentId)
  | .changeId => m.changeId.map .str
  | .signature => m.signature.map .str
  | .changes => m.changes.map fun node =>
      (serializeChangeNodeForJSON (serializeBinaryChanges base64) node).toJson
  | .keychainChanges => m.keychainChanges.map (serializeBinaryChanges base64)
  | .welcomeEpochId => m.welcomeEpochId.map (bytesJson base64)
  | .welcomeRecipient => m.welcomeRecipient.map .str
  | .welcomeRecipientKemPublicKey =>
      m.welcomeRecipientKemPublicKey.map (bytesJson base64)
  | .eciesSealed => m.eciesSealed.map (bytesJson base64)
  | .pathUpdate => m.pathUpdate.map .obj
  | .pathUpdateEpochId => m.pathUpdateEpochId.map (bytesJson base64)
  | .tipsHash => m.tipsHash.map (bytesJson base64)
  | .tips => m.tips.map fun tips => .arr (tips.map .str)
  | .snapshot => m.snapshot.map fun s => .obj (snapshotJson base64 s)

/-- The object `serializeSyncMessage` hands to `JSON.stringify`: the message is
spread, and then the fields that are encoded are set. -/
def SyncMessage.wireMembers (m : SyncMessage) : List (JsString × Json) :=
  FieldOrder.entries SyncField.name (m.wireValue base64)
    (SyncField.encoded.foldl FieldOrder.touch m.order)

end Write

/-- `serializeSyncMessage`. -/
def serializeSyncMessage (codec : TextCodec) (base64 : Base64)
    (m : SyncMessage) : Bytes :=
  codec.encode (.obj (m.wireMembers base64))

/-! ## Reading -/

section Read

variable (base64 : Base64)

/-- `deserializeBinaryChanges` of the elements of an array. -/
def decodeElements : List Json → Except WireError (List Bytes)
  | [] => .ok []
  | j :: elements =>
      match decodeLeaf base64 j with
      | .error e => .error e
      | .ok b => (decodeElements elements).map (b :: ·)

/-- `deserializeBinaryChanges` of an unchecked value, which must have a method
`map`. -/
def deserializeBinaryChanges : Json → Except WireError (List Bytes)
  | .arr elements => decodeElements base64 elements
  | _ => .error .typeError

/-- A property of a received snapshot. -/
def readSnapshotValue (name : JsString) : Json → Except WireError SnapshotValue
  | .arr elements =>
      if name = stateName then (decodeElements base64 elements).map .changes
      else .ok (.json (.arr elements))
  | .str s =>
      if name = signatureName then (decodeBase64 base64 s).map .bytes
      else .ok (.json (.str s))
  | j => .ok (.json j)

/-- The properties of a received snapshot. -/
def readSnapshot :
    List (JsString × Json) → Except WireError SnapshotObject
  | [] => .ok []
  | (name, j) :: members =>
      match readSnapshotValue base64 name j with
      | .error e => .error e
      | .ok value => (readSnapshot members).map ((name, value) :: ·)

/-- The received `snapshot`. -/
def optionalSnapshot (members : List (JsString × Json)) :
    Except WireError (Option SnapshotObject) :=
  match optionalObject .snapshot members with
  | .error e => .error e
  | .ok none => .ok none
  | .ok (some ms) => (readSnapshot base64 ms).map some

/-- The received `keychainChanges`. -/
def optionalKeychainChanges (members : List (JsString × Json)) :
    Except WireError (Option (List Bytes)) :=
  match members.lookup SyncField.keychainChanges.name with
  | none => .ok none
  | some (.arr elements) => (decodeElements base64 elements).map some
  | some j => .error (.invalid ("Invalid sync message: 'keychainChanges' " ++
      "must be an array when present (got " ++ describeValue (some j) ++ ")"))

/-- The received `changes`. -/
def optionalChanges (members : List (JsString × Json)) :
    Except WireError (Option (NodeObject (List Bytes))) :=
  match members.lookup SyncField.changes.name with
  | none => .ok none
  | some j =>
      (deserializeChangeNodeFromJSON (deserializeBinaryChanges base64) j).map
        some

/-- The fields of a received message, in the order in which they are
checked. -/
def readFields (members : List (JsString × Json)) :
    Except WireError SyncFields := do
  let documentId ← requiredDocumentId members
  let changeId ← optionalString .changeId members
  let signature ← optionalString .signature members
  let snapshot ← optionalSnapshot base64 members
  let keychainChanges ← optionalKeychainChanges base64 members
  let welcomeEpochId ← optionalBytes base64 .welcomeEpochId members
  let welcomeRecipient ← optionalString .welcomeRecipient members
  let welcomeRecipientKemPublicKey ←
    optionalBytes base64 .welcomeRecipientKemPublicKey members
  let eciesSealed ← optionalBytes base64 .eciesSealed members
  let pathUpdate ← optionalObject .pathUpdate members
  let pathUpdateEpochId ← optionalBytes base64 .pathUpdateEpochId members
  let tipsHash ← optionalTipsHash base64 members
  let tips ← optionalTips members
  let changes ← optionalChanges base64 members
  return ⟨documentId, changeId, signature, changes, keychainChanges,
    welcomeEpochId, welcomeRecipient, welcomeRecipientKemPublicKey,
    eciesSealed, pathUpdate, pathUpdateEpochId, tipsHash, tips, snapshot⟩

/-- The message the receiver builds: it sets the fields that it has read. -/
def SyncFields.build (m : SyncFields) : SyncMessage where
  toSyncFields := m
  order := SyncField.received.filter m.holds
  nodup := List.Nodup.filter _ (by decide)
  listed := fun f hf => List.mem_filter.2 ⟨mem_received f, hf⟩

end Read

/-- `deserializeSyncMessage`. -/
def deserializeSyncMessage (codec : TextCodec) (base64 : Base64)
    (bytes : Bytes) : Except WireError SyncMessage :=
  match codec.decode bytes with
  | none => .error .syntaxError
  | some (.obj members) => (readFields base64 members).map SyncFields.build
  | some j => .error (.invalid (
      "Invalid sync message: expected a plain object (got " ++
      describeValue (some j) ++ ")"))

/-! ## What comes back -/

/-- A snapshot whose names are distinct, with changes in `state` only, a byte
string in `signature` only and a `CryptoKey` in `publicKey` only. -/
structure SnapshotWellFormed (snapshot : SnapshotObject) : Prop where
  nodup : (snapshot.map Prod.fst).Nodup
  typed : ∀ p ∈ snapshot, ∀ j, p.2 = .json j →
    p.1 ≠ stateName ∧ p.1 ≠ signatureName ∧ j.Distinct
  state : ∀ p ∈ snapshot, ∀ c, p.2 = .changes c → p.1 = stateName
  signature : ∀ p ∈ snapshot, ∀ b, p.2 = .bytes b → p.1 = signatureName
  cryptoKey : ∀ p ∈ snapshot, p.2 = .cryptoKey → p.1 = publicKeyName

/-- The values of a message have their declared types. -/
structure SyncFields.WellFormed (m : SyncFields) : Prop where
  changes : ∀ node, m.changes = some node → node.WellFormed
  pathUpdate : ∀ members, m.pathUpdate = some members →
    (Json.obj members).Distinct
  tipsHash : ∀ b, m.tipsHash = some b → b.length = tipsHashLength
  snapshot : ∀ s, m.snapshot = some s → SnapshotWellFormed s

/-- A snapshot without its `publicKey`. -/
def withoutPublicKey (snapshot : SnapshotObject) : SnapshotObject :=
  snapshot.filter fun p => p.1 ≠ publicKeyName

/-- The fields of a message on the other side: without the `publicKey` of the
snapshot, and with the properties of every change node that hold a value in the
receiver's order. -/
def SyncFields.delivered (m : SyncFields) : SyncFields :=
  { m with
    changes := m.changes.map NodeObject.rebuilt
    snapshot := m.snapshot.map withoutPublicKey }

section Members

variable (base64 : Base64)

theorem mem_order_of_wireValue (m : SyncMessage) {f : SyncField}
    (h : m.wireValue base64 f ≠ none) : f ∈ m.order := by
  apply m.listed
  have hholds : m.holds f = (m.wireValue base64 f).isSome := by
    cases f <;> simp [SyncFields.holds, SyncFields.wireValue]
  rw [hholds, Option.isSome_iff_ne_none]
  exact h

/-- The object on the wire has the fields of the message in their order. -/
theorem wireMembers_eq (m : SyncMessage) :
    m.wireMembers base64 =
      FieldOrder.entries SyncField.name (m.wireValue base64) m.order :=
  FieldOrder.entries_foldl_touch SyncField.name _ fun _ =>
    mem_order_of_wireValue base64 m

theorem lookup_wireMembers (m : SyncMessage) (f : SyncField) :
    (m.wireMembers base64).lookup f.name = m.wireValue base64 f := by
  rw [wireMembers_eq, FieldOrder.lookup_entries syncField_name_injective]
  split_ifs with hf
  · rfl
  · by_contra hne
    exact hf (mem_order_of_wireValue base64 m (Ne.symm hne))

theorem distinct_serializeBinaryChanges (changes : List Bytes) :
    (serializeBinaryChanges base64 changes).Distinct := by
  rw [serializeBinaryChanges]
  induction changes with
  | nil => trivial
  | cons b changes ih => exact ⟨trivial, ih⟩

theorem distinct_snapshotJson {snapshot : SnapshotObject}
    (h : SnapshotWellFormed snapshot) :
    (Json.obj (snapshotJson base64 snapshot)).Distinct := by
  constructor
  · rw [snapshotJson, List.map_map]
    exact h.nodup.sublist (List.filter_sublist.map _)
  · rw [Json.distinctMembers_iff]
    intro p hp
    obtain ⟨⟨name, value⟩, hmem, rfl⟩ := List.mem_map.1 hp
    have hmem := (List.mem_filter.1 hmem).1
    cases value with
    | changes c =>
        rw [snapshotValueJson, if_pos (h.state _ hmem c rfl)]
        exact distinct_serializeBinaryChanges base64 c
    | bytes b =>
        rw [snapshotValueJson, if_pos (h.signature _ hmem b rfl)]
        trivial
    | json j => exact (h.typed _ hmem j rfl).2.2
    | cryptoKey => exact ⟨List.nodup_nil, trivial⟩

/-- The object on the wire repeats no name. -/
theorem distinct_wireMembers {m : SyncMessage} (hm : m.WellFormed) :
    (Json.obj (m.wireMembers base64)).Distinct := by
  rw [wireMembers_eq]
  refine ⟨FieldOrder.nodup_entries syncField_name_injective _ m.nodup, ?_⟩
  rw [Json.distinctMembers_iff]
  intro p hp
  obtain ⟨f, -, hf⟩ := List.mem_filterMap.1 hp
  obtain ⟨v, hv, rfl⟩ := Option.map_eq_some_iff.1 hf
  cases f with
  | documentId =>
      obtain rfl := Option.some.inj hv
      trivial
  | changes =>
      obtain ⟨node, hnode, rfl⟩ := Option.map_eq_some_iff.1 hv
      exact distinct_toJson (distinct_serializeBinaryChanges base64) node
        (hm.changes node hnode)
  | keychainChanges =>
      obtain ⟨changes, -, rfl⟩ := Option.map_eq_some_iff.1 hv
      exact distinct_serializeBinaryChanges base64 changes
  | pathUpdate =>
      obtain ⟨members, hmembers, rfl⟩ := Option.map_eq_some_iff.1 hv
      exact hm.pathUpdate members hmembers
  | tips =>
      obtain ⟨tips, -, rfl⟩ := Option.map_eq_some_iff.1 hv
      exact distinct_tips tips
  | snapshot =>
      obtain ⟨s, hs, rfl⟩ := Option.map_eq_some_iff.1 hv
      exact distinct_snapshotJson base64 (hm.snapshot s hs)
  | _ =>
      obtain ⟨b, -, rfl⟩ := Option.map_eq_some_iff.1 hv
      trivial

end Members

section RoundTrip

variable {codec : TextCodec} {base64 : Base64}
  {members : List (JsString × Json)}

theorem decodeElements_map (hbase64 : base64.Inverts) (changes : List Bytes) :
    decodeElements base64 (changes.map (bytesJson base64)) = .ok changes := by
  induction changes with
  | nil => rfl
  | cons b changes ih =>
      have hleaf : decodeLeaf base64 (bytesJson base64 b) = .ok b :=
        decodeBase64_fromUint8Array hbase64 b
      rw [List.map_cons, decodeElements, hleaf, ih]
      rfl

theorem deserializeBinaryChanges_serialize (hbase64 : base64.Inverts)
    (changes : List Bytes) :
    deserializeBinaryChanges base64 (serializeBinaryChanges base64 changes) =
      .ok changes :=
  decodeElements_map hbase64 changes

theorem optionalKeychainChanges_of_lookup (hbase64 : base64.Inverts)
    {o : Option (List Bytes)}
    (h : members.lookup SyncField.keychainChanges.name =
      o.map (serializeBinaryChanges base64)) :
    optionalKeychainChanges base64 members = .ok o := by
  rw [optionalKeychainChanges, h]
  cases o with
  | none => rfl
  | some changes =>
      rw [Option.map_some, serializeBinaryChanges]
      dsimp only
      rw [decodeElements_map hbase64]
      rfl

theorem optionalChanges_of_lookup (hbase64 : base64.Inverts)
    {o : Option (NodeObject (List Bytes))}
    (hwf : ∀ node, o = some node → node.WellFormed)
    (h : members.lookup SyncField.changes.name = o.map fun node =>
      (serializeChangeNodeForJSON (serializeBinaryChanges base64)
        node).toJson) :
    optionalChanges base64 members = .ok (o.map NodeObject.rebuilt) := by
  rw [optionalChanges, h]
  cases o with
  | none => rfl
  | some node =>
      have hread := deserialize_serialize
        (deserializeBinaryChanges_serialize hbase64) node (hwf node rfl)
      dsimp only [Option.map_some]
      rw [hread]
      rfl

/-- A property of a snapshot comes back. -/
theorem readSnapshotValue_json (hbase64 : base64.Inverts)
    {snapshot : SnapshotObject} (h : SnapshotWellFormed snapshot)
    {p : JsString × SnapshotValue} (hp : p ∈ snapshot)
    (hname : p.1 ≠ publicKeyName) :
    readSnapshotValue base64 p.1 (snapshotValueJson base64 p.1 p.2) =
      .ok p.2 := by
  obtain ⟨name, value⟩ := p
  cases value with
  | changes c =>
      have hstate := h.state _ hp c rfl
      rw [snapshotValueJson, if_pos hstate, serializeBinaryChanges,
        readSnapshotValue, if_pos hstate, decodeElements_map hbase64]
      rfl
  | bytes b =>
      have hsignature := h.signature _ hp b rfl
      rw [snapshotValueJson, if_pos hsignature, readSnapshotValue,
        if_pos hsignature, decodeBase64_fromUint8Array hbase64]
      rfl
  | json j =>
      obtain ⟨hstate, hsignature, -⟩ := h.typed _ hp j rfl
      rw [snapshotValueJson]
      cases j with
      | arr elements => rw [readSnapshotValue, if_neg hstate]
      | str s => rw [readSnapshotValue, if_neg hsignature]
      | _ => rfl
  | cryptoKey => exact absurd (h.cryptoKey _ hp rfl) hname

theorem readSnapshot_map (hbase64 : base64.Inverts)
    {snapshot : SnapshotObject} (h : SnapshotWellFormed snapshot) :
    readSnapshot base64 (snapshotJson base64 snapshot) =
      .ok (withoutPublicKey snapshot) := by
  have hread : ∀ kept : SnapshotObject,
      (∀ p ∈ kept, p ∈ snapshot ∧ p.1 ≠ publicKeyName) →
      readSnapshot base64 (kept.map fun p =>
        (p.1, snapshotValueJson base64 p.1 p.2)) = .ok kept := by
    intro kept
    induction kept with
    | nil => exact fun _ => rfl
    | cons p kept ih =>
        intro hkept
        obtain ⟨hp, hname⟩ := hkept p List.mem_cons_self
        rw [List.map_cons, readSnapshot, readSnapshotValue_json hbase64 h hp
          hname]
        dsimp only
        rw [ih fun q hq => hkept q (List.mem_cons_of_mem p hq)]
        rfl
  apply hread
  intro p hp
  obtain ⟨hp, hname⟩ := List.mem_filter.1 hp
  exact ⟨hp, by simpa using hname⟩

theorem optionalSnapshot_of_lookup (hbase64 : base64.Inverts)
    {o : Option SnapshotObject}
    (hwf : ∀ s, o = some s → SnapshotWellFormed s)
    (h : members.lookup SyncField.snapshot.name =
      o.map fun s => .obj (snapshotJson base64 s)) :
    optionalSnapshot base64 members = .ok (o.map withoutPublicKey) := by
  have hobject : members.lookup SyncField.snapshot.name =
      (o.map (snapshotJson base64)).map .obj := by
    rw [h, Option.map_map]
    rfl
  rw [optionalSnapshot, optionalObject_of_lookup hobject]
  cases o with
  | none => rfl
  | some s =>
      dsimp only [Option.map_some]
      rw [readSnapshot_map hbase64 (hwf s rfl)]
      rfl

/-- The fields of a message are read back. -/
theorem readFields_wireMembers (hbase64 : base64.Inverts) {m : SyncMessage}
    (hm : m.WellFormed) :
    readFields base64 (m.wireMembers base64) = .ok m.delivered := by
  have hlookup := lookup_wireMembers base64 m
  have hdocumentId : requiredDocumentId (m.wireMembers base64) =
      .ok m.documentId := by
    rw [requiredDocumentId, hlookup]
    rfl
  have hchangeId := optionalString_of_lookup (hlookup .changeId)
  have hsignature := optionalString_of_lookup (hlookup .signature)
  have hsnapshot := optionalSnapshot_of_lookup hbase64 hm.snapshot
    (hlookup .snapshot)
  have hkeychain := optionalKeychainChanges_of_lookup hbase64
    (hlookup .keychainChanges)
  have hepoch := optionalBytes_of_lookup hbase64 (hlookup .welcomeEpochId)
  have hrecipient := optionalString_of_lookup (hlookup .welcomeRecipient)
  have hkem := optionalBytes_of_lookup hbase64
    (hlookup .welcomeRecipientKemPublicKey)
  have hsealed := optionalBytes_of_lookup hbase64 (hlookup .eciesSealed)
  have hpath := optionalObject_of_lookup (hlookup .pathUpdate)
  have hpathEpoch := optionalBytes_of_lookup hbase64
    (hlookup .pathUpdateEpochId)
  have htipsHash := optionalTipsHash_of_lookup hbase64 hm.tipsHash
    (hlookup .tipsHash)
  have htips := optionalTips_of_lookup (hlookup .tips)
  have hchanges := optionalChanges_of_lookup hbase64 hm.changes
    (hlookup .changes)
  simp only [readFields, hdocumentId, hchangeId, hsignature, hsnapshot,
    hkeychain, hepoch, hkem, hsealed, hrecipient, hpath, hpathEpoch, htipsHash,
    htips, hchanges, bind, Except.bind, pure, Except.pure]
  rfl

/-- A message comes back. -/
theorem deserializeSyncMessage_serialize (hcodec : codec.Inverts)
    (hbase64 : base64.Inverts) {m : SyncMessage} (hm : m.WellFormed) :
    deserializeSyncMessage codec base64 (serializeSyncMessage codec base64 m) =
      .ok m.delivered.build := by
  rw [deserializeSyncMessage, serializeSyncMessage,
    hcodec _ (distinct_wireMembers base64 hm)]
  dsimp only
  rw [readFields_wireMembers hbase64 hm]
  rfl

end RoundTrip

/-! ## What a receiver accepts -/

/-- The fields that do not depend on the type of the changes. -/
def SyncFields.plain (m : SyncFields) : PlainFields where
  documentId := m.documentId
  changeId := m.changeId
  signature := m.signature
  welcomeEpochId := m.welcomeEpochId
  welcomeRecipient := m.welcomeRecipient
  welcomeRecipientKemPublicKey := m.welcomeRecipientKemPublicKey
  eciesSealed := m.eciesSealed
  pathUpdate := m.pathUpdate
  pathUpdateEpochId := m.pathUpdateEpochId
  tipsHash := m.tipsHash
  tips := m.tips

theorem SyncFields.holds_eq_plain (m : SyncFields) (f : SyncField) :
    m.holds f = m.plain.holds m.changes.isSome m.keychainChanges.isSome
      m.snapshot.isSome f := by
  cases f <;> rfl

/-- Changes or nothing were read from an array of strings in Base64 or from
nothing. -/
def ReadChanges (base64 : Base64) (j : Option Json) (o : Option (List Bytes)) :
    Prop :=
  (j = none ∧ o = none) ∨
    ∃ (texts : List JsString) (changes : List Bytes),
      j = some (.arr (texts.map .str)) ∧ o = some changes ∧
        texts.map base64.toUint8Array = changes.map some

/-- A snapshot or nothing was read from an object, name by name, or from
nothing.  No array is left in `state` and no text in `signature`. -/
def ReadSnapshot (j : Option Json) (o : Option SnapshotObject) : Prop :=
  (j = none ∧ o = none) ∨
    ∃ members snapshot, j = some (.obj members) ∧ o = some snapshot ∧
      snapshot.map Prod.fst = members.map Prod.fst ∧
      (∀ p ∈ snapshot, ∀ elements, p.2 = .json (.arr elements) →
        p.1 ≠ stateName) ∧
      ∀ p ∈ snapshot, ∀ s, p.2 = .json (.str s) → p.1 ≠ signatureName

/-- The message was read from the members of an object. -/
structure SyncMessage.ReadFrom (base64 : Base64)
    (members : List (JsString × Json)) (m : SyncMessage) : Prop where
  plain : m.plain.ReadFrom base64 members
  changes : ReadTree (deserializeBinaryChanges base64)
    (members.lookup SyncField.changes.name) m.changes
  keychainChanges : ReadChanges base64
    (members.lookup SyncField.keychainChanges.name) m.keychainChanges
  snapshot : ReadSnapshot (members.lookup SyncField.snapshot.name) m.snapshot
  declared : m.order =
    SyncField.received.filter fun f => (members.lookup f.name).isSome

theorem ReadChanges.isSome_eq {base64 : Base64} {j : Option Json}
    {o : Option (List Bytes)} (h : ReadChanges base64 j o) :
    o.isSome = j.isSome := by
  rcases h with ⟨rfl, rfl⟩ | ⟨texts, changes, rfl, rfl, -⟩
  · rfl
  · rfl

theorem ReadSnapshot.isSome_eq {j : Option Json} {o : Option SnapshotObject}
    (h : ReadSnapshot j o) : o.isSome = j.isSome := by
  rcases h with ⟨rfl, rfl⟩ | ⟨members, snapshot, rfl, rfl, -⟩
  · rfl
  · rfl

section Accepted

variable {codec : TextCodec} {base64 : Base64}
  {members : List (JsString × Json)}

theorem decodeElements_ok {elements : List Json} {changes : List Bytes}
    (h : decodeElements base64 elements = .ok changes) :
    ∃ texts : List JsString, elements = texts.map .str ∧
      texts.map base64.toUint8Array = changes.map some := by
  induction elements generalizing changes with
  | nil =>
      cases h
      exact ⟨[], rfl, rfl⟩
  | cons j elements ih =>
      rw [decodeElements] at h
      split at h
      · cases h
      rename_i b hleaf
      obtain ⟨rest, hrest, rfl⟩ := exists_ok_of_map h
      obtain ⟨texts, rfl, htexts⟩ := ih hrest
      cases j with
      | str s =>
          refine ⟨s :: texts, rfl, ?_⟩
          rw [List.map_cons, List.map_cons, decodeBase64_ok hleaf, htexts]
      | _ => cases hleaf

theorem optionalKeychainChanges_ok {o : Option (List Bytes)}
    (h : optionalKeychainChanges base64 members = .ok o) :
    ReadChanges base64 (members.lookup SyncField.keychainChanges.name) o := by
  rw [optionalKeychainChanges] at h
  split at h
  · rename_i hlookup
    cases h
    exact .inl ⟨hlookup, rfl⟩
  · rename_i elements hlookup
    obtain ⟨changes, hchanges, rfl⟩ := exists_ok_of_map h
    obtain ⟨texts, rfl, htexts⟩ := decodeElements_ok hchanges
    exact .inr ⟨texts, changes, hlookup, rfl, htexts⟩
  · cases h

theorem optionalChanges_ok {o : Option (NodeObject (List Bytes))}
    (h : optionalChanges base64 members = .ok o) :
    ReadTree (deserializeBinaryChanges base64)
      (members.lookup SyncField.changes.name) o := by
  rw [optionalChanges] at h
  split at h
  · rename_i hlookup
    cases h
    exact .inl ⟨hlookup, rfl⟩
  · rename_i j hlookup
    obtain ⟨node, hnode, rfl⟩ := exists_ok_of_map h
    exact .inr ⟨j, node, hlookup, hnode, rfl⟩

theorem readSnapshotValue_ok {name : JsString} {j : Json}
    {value : SnapshotValue} (h : readSnapshotValue base64 name j = .ok value) :
    (∀ elements, value = .json (.arr elements) → name ≠ stateName) ∧
      ∀ s, value = .json (.str s) → name ≠ signatureName := by
  cases j with
  | arr elements =>
      rw [readSnapshotValue] at h
      split at h
      · obtain ⟨changes, -, rfl⟩ := exists_ok_of_map h
        exact ⟨fun _ heq => (nomatch heq), fun _ heq => (nomatch heq)⟩
      · rename_i hname
        cases h
        exact ⟨fun _ _ => hname, fun _ heq => (nomatch heq)⟩
  | str text =>
      rw [readSnapshotValue] at h
      split at h
      · obtain ⟨b, -, rfl⟩ := exists_ok_of_map h
        exact ⟨fun _ heq => (nomatch heq), fun _ heq => (nomatch heq)⟩
      · rename_i hname
        cases h
        exact ⟨fun _ heq => (nomatch heq), fun _ _ => hname⟩
  | _ =>
      cases h
      exact ⟨fun _ heq => (nomatch heq), fun _ heq => (nomatch heq)⟩

theorem readSnapshot_ok {snapshot : SnapshotObject}
    (h : readSnapshot base64 members = .ok snapshot) :
    snapshot.map Prod.fst = members.map Prod.fst ∧
      (∀ p ∈ snapshot, ∀ elements, p.2 = .json (.arr elements) →
        p.1 ≠ stateName) ∧
      ∀ p ∈ snapshot, ∀ s, p.2 = .json (.str s) → p.1 ≠ signatureName := by
  induction members generalizing snapshot with
  | nil =>
      cases h
      exact ⟨rfl, by simp, by simp⟩
  | cons m members ih =>
      obtain ⟨name, j⟩ := m
      rw [readSnapshot] at h
      split at h
      · cases h
      rename_i value hvalue
      obtain ⟨rest, hrest, rfl⟩ := exists_ok_of_map h
      obtain ⟨hnames, hstate, hsignature⟩ := ih hrest
      have hfirst := readSnapshotValue_ok hvalue
      refine ⟨by rw [List.map_cons, hnames, List.map_cons], ?_, ?_⟩
      · exact List.forall_mem_cons.2 ⟨hfirst.1, hstate⟩
      · exact List.forall_mem_cons.2 ⟨hfirst.2, hsignature⟩

theorem optionalSnapshot_ok {o : Option SnapshotObject}
    (h : optionalSnapshot base64 members = .ok o) :
    ReadSnapshot (members.lookup SyncField.snapshot.name) o := by
  rw [optionalSnapshot] at h
  split at h
  · cases h
  · rename_i hobject
    cases h
    exact .inl ⟨optionalObject_ok hobject, rfl⟩
  · rename_i ms hobject
    obtain ⟨snapshot, hsnapshot, rfl⟩ := exists_ok_of_map h
    exact .inr ⟨ms, snapshot, optionalObject_ok hobject, rfl,
      readSnapshot_ok hsnapshot⟩

/-- What was read was read from the members. -/
theorem readFields_ok {m : SyncFields} (h : readFields base64 members = .ok m) :
    m.build.ReadFrom base64 members := by
  obtain ⟨documentId, hdocumentId, h⟩ := exists_ok_of_bind h
  obtain ⟨changeId, hchangeId, h⟩ := exists_ok_of_bind h
  obtain ⟨signature, hsignature, h⟩ := exists_ok_of_bind h
  obtain ⟨snapshot, hsnapshot, h⟩ := exists_ok_of_bind h
  obtain ⟨keychainChanges, hkeychain, h⟩ := exists_ok_of_bind h
  obtain ⟨welcomeEpochId, hepoch, h⟩ := exists_ok_of_bind h
  obtain ⟨welcomeRecipient, hrecipient, h⟩ := exists_ok_of_bind h
  obtain ⟨welcomeRecipientKemPublicKey, hkem, h⟩ := exists_ok_of_bind h
  obtain ⟨eciesSealed, hsealed, h⟩ := exists_ok_of_bind h
  obtain ⟨pathUpdate, hpath, h⟩ := exists_ok_of_bind h
  obtain ⟨pathUpdateEpochId, hpathEpoch, h⟩ := exists_ok_of_bind h
  obtain ⟨tipsHash, htipsHash, h⟩ := exists_ok_of_bind h
  obtain ⟨tips, htips, h⟩ := exists_ok_of_bind h
  obtain ⟨changes, hchanges, h⟩ := exists_ok_of_bind h
  obtain rfl := Except.ok.inj h
  obtain ⟨htipsHash, hlength⟩ := optionalTipsHash_ok htipsHash
  have hdocumentId := requiredDocumentId_ok hdocumentId
  have hchangeId := optionalString_ok hchangeId
  have hsignature := optionalString_ok hsignature
  have hsnapshot := optionalSnapshot_ok hsnapshot
  have hkeychain := optionalKeychainChanges_ok hkeychain
  have hepoch := optionalBytes_ok hepoch
  have hrecipient := optionalString_ok hrecipient
  have hkem := optionalBytes_ok hkem
  have hsealed := optionalBytes_ok hsealed
  have hpath := optionalObject_ok hpath
  have hpathEpoch := optionalBytes_ok hpathEpoch
  have htips := optionalTips_ok htips
  have hchanges := optionalChanges_ok hchanges
  have hplain : PlainFields.ReadFrom base64 members
      ⟨documentId, changeId, signature, welcomeEpochId, welcomeRecipient,
        welcomeRecipientKemPublicKey, eciesSealed, pathUpdate,
        pathUpdateEpochId, tipsHash, tips⟩ :=
    ⟨hdocumentId, hchangeId, hsignature, hepoch, hrecipient, hkem, hsealed,
      hpath, hpathEpoch, htipsHash, htips, hlength⟩
  refine ⟨hplain, hchanges, hkeychain, hsnapshot,
    List.filter_congr fun f _ => ?_⟩
  rw [SyncFields.holds_eq_plain]
  exact hplain.holds_eq hchanges.isSome_eq hkeychain.isSome_eq
    hsnapshot.isSome_eq f

/-- A message that is accepted was read from an object. -/
theorem deserializeSyncMessage_ok {bytes : Bytes} {m : SyncMessage}
    (h : deserializeSyncMessage codec base64 bytes = .ok m) :
    ∃ members, codec.decode bytes = some (.obj members) ∧
      m.ReadFrom base64 members := by
  rw [deserializeSyncMessage] at h
  split at h
  · cases h
  · rename_i members hdecode
    obtain ⟨fields, hfields, rfl⟩ := exists_ok_of_map h
    exact ⟨members, hdecode, readFields_ok hfields⟩
  · cases h

end Accepted

end AutomergeJSONSerializer

end Collabswarm.Wire
