import Collabswarm.Support.Lists
import Collabswarm.Wire.SyncMessageSerializer

/-!
# What a receiver accepts

The text codec of a serializer is a parameter here: `JSON.stringify` and
`TextEncoder`, and back.  A message that a receiver accepts has the fields that
the text has, of their declared types, and no others.  Of a snapshot and of a
path update only the outer shape is checked.
-/

namespace Collabswarm.Wire

open JsString (ofString)

/-! ## Codecs -/

/-- The text codec: the bytes of the text of a JSON value, and the JSON value
of bytes, if their text has one. -/
structure TextCodec where
  encode : Json → Bytes
  decode : Bytes → Option Json

/-- An object is read back from its bytes. -/
def TextCodec.Inverts (codec : TextCodec) : Prop :=
  ∀ members : List (JsString × Json), (Json.obj members).Distinct →
    codec.decode (codec.encode (.obj members)) = some (.obj members)

/-- JSON texts in UTF-8. -/
def utf8Json : TextCodec where
  encode j := JsString.utf8 (Json.stringify j)
  decode bytes := Json.parse (JsString.textDecode bytes)

theorem utf8Json_inverts : utf8Json.Inverts := by
  intro members hdistinct
  obtain ⟨text, htext⟩ := head_stringify_obj members
  have hdecode : JsString.textDecode (utf8Json.encode (.obj members)) =
      Json.stringify (.obj members) := by
    apply JsString.textDecode_utf8
    rw [htext]
    simp
  rw [utf8Json]
  dsimp only
  rw [utf8Json] at hdecode
  rw [hdecode, Json.parse_stringify hdistinct]

/-! ## The fields that all serializers treat alike -/

/-- The values of the fields that do not depend on the type of the changes. -/
structure PlainFields where
  documentId : JsString
  changeId : Option JsString
  signature : Option JsString
  welcomeEpochId : Option Bytes
  welcomeRecipient : Option JsString
  welcomeRecipientKemPublicKey : Option Bytes
  eciesSealed : Option Bytes
  pathUpdate : Option (List (JsString × Json))
  pathUpdateEpochId : Option Bytes
  tipsHash : Option Bytes
  tips : Option (List JsString)

/-- A field of a message with these fields holds a value; three fields depend
on the type of the changes. -/
def PlainFields.holds (p : PlainFields)
    (changes keychainChanges snapshot : Bool) : SyncField → Bool
  | .documentId => true
  | .changeId => p.changeId.isSome
  | .signature => p.signature.isSome
  | .changes => changes
  | .keychainChanges => keychainChanges
  | .welcomeEpochId => p.welcomeEpochId.isSome
  | .welcomeRecipient => p.welcomeRecipient.isSome
  | .welcomeRecipientKemPublicKey => p.welcomeRecipientKemPublicKey.isSome
  | .eciesSealed => p.eciesSealed.isSome
  | .pathUpdate => p.pathUpdate.isSome
  | .pathUpdateEpochId => p.pathUpdateEpochId.isSome
  | .tipsHash => p.tipsHash.isSome
  | .tips => p.tips.isSome
  | .snapshot => snapshot

/-- A byte string or nothing was read from a member in Base64 or from
nothing. -/
def ReadBytes (base64 : Base64) (j : Option Json) (o : Option Bytes) : Prop :=
  (j = none ∧ o = none) ∨
    ∃ s b, j = some (.str s) ∧ base64.toUint8Array s = some b ∧ o = some b

/-- The fields were read from the members of an object. -/
structure PlainFields.ReadFrom (base64 : Base64)
    (members : List (JsString × Json)) (p : PlainFields) : Prop where
  documentId : members.lookup SyncField.documentId.name =
    some (.str p.documentId)
  changeId : members.lookup SyncField.changeId.name = p.changeId.map .str
  signature : members.lookup SyncField.signature.name = p.signature.map .str
  welcomeEpochId : ReadBytes base64
    (members.lookup SyncField.welcomeEpochId.name) p.welcomeEpochId
  welcomeRecipient : members.lookup SyncField.welcomeRecipient.name =
    p.welcomeRecipient.map .str
  welcomeRecipientKemPublicKey : ReadBytes base64
    (members.lookup SyncField.welcomeRecipientKemPublicKey.name)
    p.welcomeRecipientKemPublicKey
  eciesSealed : ReadBytes base64 (members.lookup SyncField.eciesSealed.name)
    p.eciesSealed
  pathUpdate : members.lookup SyncField.pathUpdate.name =
    p.pathUpdate.map .obj
  pathUpdateEpochId : ReadBytes base64
    (members.lookup SyncField.pathUpdateEpochId.name) p.pathUpdateEpochId
  tipsHash : ReadBytes base64 (members.lookup SyncField.tipsHash.name)
    p.tipsHash
  tips : members.lookup SyncField.tips.name =
    p.tips.map fun tips => .arr (tips.map .str)
  tipsHash_length : ∀ b, p.tipsHash = some b → b.length = tipsHashLength

theorem ReadBytes.isSome_eq {base64 : Base64} {j : Option Json}
    {o : Option Bytes} (h : ReadBytes base64 j o) : o.isSome = j.isSome := by
  rcases h with ⟨rfl, rfl⟩ | ⟨s, b, rfl, -, rfl⟩
  · rfl
  · rfl

/-- A message holds the fields that it was read from. -/
theorem PlainFields.ReadFrom.holds_eq {base64 : Base64}
    {members : List (JsString × Json)} {p : PlainFields}
    (h : p.ReadFrom base64 members) {changes keychainChanges snapshot : Bool}
    (hchanges : changes =
      (members.lookup SyncField.changes.name).isSome)
    (hkeychain : keychainChanges =
      (members.lookup SyncField.keychainChanges.name).isSome)
    (hsnapshot : snapshot =
      (members.lookup SyncField.snapshot.name).isSome) (f : SyncField) :
    p.holds changes keychainChanges snapshot f =
      (members.lookup f.name).isSome := by
  cases f with
  | documentId => simp [PlainFields.holds, h.documentId]
  | changeId => simp [PlainFields.holds, h.changeId]
  | signature => simp [PlainFields.holds, h.signature]
  | changes => exact hchanges
  | keychainChanges => exact hkeychain
  | welcomeEpochId => exact h.welcomeEpochId.isSome_eq
  | welcomeRecipient => simp [PlainFields.holds, h.welcomeRecipient]
  | welcomeRecipientKemPublicKey =>
      exact h.welcomeRecipientKemPublicKey.isSome_eq
  | eciesSealed => exact h.eciesSealed.isSome_eq
  | pathUpdate => simp [PlainFields.holds, h.pathUpdate]
  | pathUpdateEpochId => exact h.pathUpdateEpochId.isSome_eq
  | tipsHash => exact h.tipsHash.isSome_eq
  | tips => simp [PlainFields.holds, h.tips]
  | snapshot => exact hsnapshot

/-- A tree of changes or nothing was read from a member by the codec of change
nodes or from nothing. -/
def ReadTree {α : Type} (decodeLeaf : Json → Except WireError α)
    (j : Option Json) (o : Option (NodeObject α)) : Prop :=
  (j = none ∧ o = none) ∨
    ∃ j' node, j = some j' ∧
      deserializeChangeNodeFromJSON decodeLeaf j' = .ok node ∧ o = some node

theorem ReadTree.isSome_eq {α : Type} {decodeLeaf : Json → Except WireError α}
    {j : Option Json} {o : Option (NodeObject α)}
    (h : ReadTree decodeLeaf j o) : o.isSome = j.isSome := by
  rcases h with ⟨rfl, rfl⟩ | ⟨j', node, rfl, -, rfl⟩
  · rfl
  · rfl

section Readers

variable {base64 : Base64} {members : List (JsString × Json)}

theorem requiredDocumentId_ok {s : JsString}
    (h : requiredDocumentId members = .ok s) :
    members.lookup SyncField.documentId.name = some (.str s) := by
  rw [requiredDocumentId] at h
  split at h
  · rename_i hlookup
    cases h
    exact hlookup
  · cases h

theorem optionalString_ok {field : SyncField} {o : Option JsString}
    (h : optionalString field members = .ok o) :
    members.lookup field.name = o.map .str := by
  rw [optionalString] at h
  split at h
  · rename_i hlookup
    cases h
    exact hlookup
  · rename_i hlookup
    cases h
    exact hlookup
  · cases h

theorem decodeBase64_ok {s : JsString} {b : Bytes}
    (h : decodeBase64 base64 s = .ok b) : base64.toUint8Array s = some b := by
  rw [decodeBase64] at h
  split at h
  · rename_i hdecoded
    cases h
    exact hdecoded
  · cases h

theorem optionalBytes_ok {field : SyncField} {o : Option Bytes}
    (h : optionalBytes base64 field members = .ok o) :
    ReadBytes base64 (members.lookup field.name) o := by
  rw [optionalBytes] at h
  split at h
  · cases h
  · rename_i hstring
    cases h
    exact .inl ⟨optionalString_ok hstring, rfl⟩
  · rename_i s hstring
    obtain ⟨b, hdecoded, rfl⟩ := exists_ok_of_map h
    exact .inr ⟨s, b, optionalString_ok hstring, decodeBase64_ok hdecoded, rfl⟩

theorem optionalObject_ok {field : SyncField}
    {o : Option (List (JsString × Json))}
    (h : optionalObject field members = .ok o) :
    members.lookup field.name = o.map .obj := by
  rw [optionalObject] at h
  split at h
  · rename_i hlookup
    cases h
    exact hlookup
  · rename_i hlookup
    cases h
    exact hlookup
  · cases h

theorem optionalTipsHash_ok {o : Option Bytes}
    (h : optionalTipsHash base64 members = .ok o) :
    ReadBytes base64 (members.lookup SyncField.tipsHash.name) o ∧
      ∀ b, o = some b → b.length = tipsHashLength := by
  rw [optionalTipsHash] at h
  split at h
  · rename_i b hbytes
    split at h
    · rename_i hlength
      cases h
      refine ⟨optionalBytes_ok hbytes, ?_⟩
      intro b' hb'
      obtain rfl := Option.some.inj hb'
      exact hlength
    · cases h
  · rename_i hnone
    refine ⟨optionalBytes_ok h, ?_⟩
    rintro b rfl
    exact absurd h (hnone b)

theorem readTips_ok {entries : List Json} {tips : List JsString}
    (h : readTips entries = .ok tips) : entries = tips.map .str := by
  induction entries generalizing tips with
  | nil =>
      cases h
      rfl
  | cons j entries ih =>
      cases j with
      | str s =>
          obtain ⟨rest, hrest, rfl⟩ := exists_ok_of_map h
          rw [ih hrest, List.map_cons]
      | _ => cases h

theorem optionalTips_ok {o : Option (List JsString)}
    (h : optionalTips members = .ok o) :
    members.lookup SyncField.tips.name =
      o.map fun tips => .arr (tips.map .str) := by
  rw [optionalTips] at h
  split at h
  · rename_i hlookup
    cases h
    exact hlookup
  · rename_i entries hlookup
    obtain ⟨tips, htips, rfl⟩ := exists_ok_of_map h
    rw [hlookup, readTips_ok htips]
    rfl
  · cases h

theorem optionalChanges_ok {o : Option (NodeObject Bytes)}
    (h : optionalChanges base64 members = .ok o) :
    ReadTree (decodeLeaf base64) (members.lookup SyncField.changes.name) o := by
  rw [optionalChanges] at h
  split at h
  · rename_i hlookup
    cases h
    exact .inl ⟨hlookup, rfl⟩
  · rename_i j hlookup
    obtain ⟨node, hnode, rfl⟩ := exists_ok_of_map h
    exact .inr ⟨j, node, hlookup, hnode, rfl⟩

end Readers

/-! ## `YjsJSONSerializer` -/

namespace YjsJSONSerializer

variable (codec : TextCodec) (base64 : Base64)

/-- `serializeSyncMessage`. -/
def serializeSyncMessage (m : SyncMessage) : Bytes :=
  codec.encode (.obj (m.wireMembers base64))

/-- `deserializeSyncMessage`. -/
def deserializeSyncMessage (bytes : Bytes) : Except WireError SyncMessage :=
  match codec.decode bytes with
  | none => .error .syntaxError
  | some (.obj members) => (readFields base64 members).map SyncFields.build
  | some j => .error (.invalid (
      "Invalid sync message: expected a plain object (got " ++
      describeValue (some j) ++ ")"))

/-- With JSON texts in UTF-8 these are the functions on bytes. -/
theorem serializeSyncMessage_utf8Json (m : SyncMessage) :
    serializeSyncMessage utf8Json base64 m =
      Wire.serializeSyncMessage base64 m := by
  rw [serializeSyncMessage, Wire.serializeSyncMessage, utf8Json]

theorem deserializeSyncMessage_utf8Json (bytes : Bytes) :
    deserializeSyncMessage utf8Json base64 bytes =
      Wire.deserializeSyncMessage base64 bytes := by
  have hdecode : utf8Json.decode bytes =
      Json.parse (JsString.textDecode bytes) := by
    rw [utf8Json]
  rcases hparse : Json.parse (JsString.textDecode bytes) with _ | j
  · simp only [deserializeSyncMessage, Wire.deserializeSyncMessage, hdecode,
      hparse]
  · cases j <;>
      simp only [deserializeSyncMessage, Wire.deserializeSyncMessage, hdecode,
        hparse]

end YjsJSONSerializer

/-- The fields that do not depend on the type of the changes. -/
def SyncFields.plain (m : SyncFields) : PlainFields where
  documentId := m.documentId
  changeId := m.changeId
  signature := m.signature
  welcomeEpochId := m.welcomeEpochId
  welcomeRecipient := m.welcomeRecipient
  welcomeRecipientKemPublicKey := m.welcomeRecipientKemPublicKey
  eciesSealed := m.eciesSealed
  pathUpdate := m.pathUpdate
  pathUpdateEpochId := m.pathUpdateEpochId
  tipsHash := m.tipsHash
  tips := m.tips

theorem SyncFields.holds_eq_plain (m : SyncFields) (f : SyncField) :
    m.holds f = m.plain.holds m.changes.isSome m.keychainChanges.isSome
      m.snapshot.isSome f := by
  cases f <;> rfl

/-- A snapshot or nothing was read from an object, name by name, or from
nothing.  No text is left in `state` and `signature`. -/
def ReadSnapshot (j : Option Json) (o : Option SnapshotObject) : Prop :=
  (j = none ∧ o = none) ∨
    ∃ members snapshot, j = some (.obj members) ∧ o = some snapshot ∧
      snapshot.map Prod.fst = members.map Prod.fst ∧
      ∀ p ∈ snapshot, ∀ s, p.2 = .json (.str s) →
        p.1 ≠ stateName ∧ p.1 ≠ signatureName

theorem ReadSnapshot.isSome_eq {j : Option Json} {o : Option SnapshotObject}
    (h : ReadSnapshot j o) : o.isSome = j.isSome := by
  rcases h with ⟨rfl, rfl⟩ | ⟨members, snapshot, rfl, rfl, -⟩
  · rfl
  · rfl

/-- The message was read from the members of an object. -/
structure SyncMessage.ReadFrom (base64 : Base64)
    (members : List (JsString × Json)) (m : SyncMessage) : Prop where
  plain : m.plain.ReadFrom base64 members
  changes : ReadTree (decodeLeaf base64)
    (members.lookup SyncField.changes.name) m.changes
  keychainChanges : ReadBytes base64
    (members.lookup SyncField.keychainChanges.name) m.keychainChanges
  snapshot : ReadSnapshot (members.lookup SyncField.snapshot.name) m.snapshot
  declared : m.order =
    SyncField.received.filter fun f => (members.lookup f.name).isSome

section Yjs

variable {base64 : Base64} {members : List (JsString × Json)}

theorem readSnapshotValue_ok {name : JsString} {j : Json}
    {value : SnapshotValue} (h : readSnapshotValue base64 name j = .ok value)
    {s : JsString} (hvalue : value = .json (.str s)) :
    name ≠ stateName ∧ name ≠ signatureName := by
  subst hvalue
  cases j with
  | str text =>
      rw [readSnapshotValue] at h
      split at h
      · obtain ⟨b, -, hb⟩ := exists_ok_of_map h
        cases hb
      · rename_i hname
        exact not_or.1 hname
  | _ => cases h

theorem readSnapshot_ok {snapshot : SnapshotObject}
    (h : readSnapshot base64 members = .ok snapshot) :
    snapshot.map Prod.fst = members.map Prod.fst ∧
      ∀ p ∈ snapshot, ∀ s, p.2 = .json (.str s) →
        p.1 ≠ stateName ∧ p.1 ≠ signatureName := by
  induction members generalizing snapshot with
  | nil =>
      cases h
      exact ⟨rfl, by simp⟩
  | cons m members ih =>
      obtain ⟨name, j⟩ := m
      rw [readSnapshot] at h
      split at h
      · cases h
      rename_i value hvalue
      split at h
      · cases h
      rename_i rest hrest
      cases h
      obtain ⟨hnames, hread⟩ := ih hrest
      refine ⟨by rw [List.map_cons, hnames, List.map_cons], ?_⟩
      intro p hp s hs
      rcases List.mem_cons.1 hp with rfl | hp
      · exact readSnapshotValue_ok hvalue hs
      · exact hread p hp s hs

theorem optionalSnapshot_ok {o : Option SnapshotObject}
    (h : optionalSnapshot base64 members = .ok o) :
    ReadSnapshot (members.lookup SyncField.snapshot.name) o := by
  rw [optionalSnapshot] at h
  split at h
  · cases h
  · rename_i hobject
    cases h
    exact .inl ⟨optionalObject_ok hobject, rfl⟩
  · rename_i ms hobject
    obtain ⟨snapshot, hsnapshot, rfl⟩ := exists_ok_of_map h
    obtain ⟨hnames, hread⟩ := readSnapshot_ok hsnapshot
    exact .inr ⟨ms, snapshot, optionalObject_ok hobject, rfl, hnames, hread⟩

/-- What was read was read from the members. -/
theorem readFields_ok {m : SyncFields} (h : readFields base64 members = .ok m) :
    m.build.ReadFrom base64 members := by
  obtain ⟨documentId, hdocumentId, h⟩ := exists_ok_of_bind h
  obtain ⟨changeId, hchangeId, h⟩ := exists_ok_of_bind h
  obtain ⟨signature, hsignature, h⟩ := exists_ok_of_bind h
  obtain ⟨snapshot, hsnapshot, h⟩ := exists_ok_of_bind h
  obtain ⟨keychainChanges, hkeychain, h⟩ := exists_ok_of_bind h
  obtain ⟨welcomeEpochId, hepoch, h⟩ := exists_ok_of_bind h
  obtain ⟨welcomeRecipientKemPublicKey, hkem, h⟩ := exists_ok_of_bind h
  obtain ⟨eciesSealed, hsealed, h⟩ := exists_ok_of_bind h
  obtain ⟨welcomeRecipient, hrecipient, h⟩ := exists_ok_of_bind h
  obtain ⟨pathUpdate, hpath, h⟩ := exists_ok_of_bind h
  obtain ⟨pathUpdateEpochId, hpathEpoch, h⟩ := exists_ok_of_bind h
  obtain ⟨tipsHash, htipsHash, h⟩ := exists_ok_of_bind h
  obtain ⟨tips, htips, h⟩ := exists_ok_of_bind h
  obtain ⟨changes, hchanges, h⟩ := exists_ok_of_bind h
  obtain rfl := Except.ok.inj h
  obtain ⟨htipsHash, hlength⟩ := optionalTipsHash_ok htipsHash
  have hdocumentId := requiredDocumentId_ok hdocumentId
  have hchangeId := optionalString_ok hchangeId
  have hsignature := optionalString_ok hsignature
  have hsnapshot := optionalSnapshot_ok hsnapshot
  have hkeychain := optionalBytes_ok hkeychain
  have hepoch := optionalBytes_ok hepoch
  have hkem := optionalBytes_ok hkem
  have hsealed := optionalBytes_ok hsealed
  have hrecipient := optionalString_ok hrecipient
  have hpath := optionalObject_ok hpath
  have hpathEpoch := optionalBytes_ok hpathEpoch
  have htips := optionalTips_ok htips
  have hchanges := optionalChanges_ok hchanges
  have hplain : PlainFields.ReadFrom base64 members
      ⟨documentId, changeId, signature, welcomeEpochId, welcomeRecipient,
        welcomeRecipientKemPublicKey, eciesSealed, pathUpdate,
        pathUpdateEpochId, tipsHash, tips⟩ :=
    ⟨hdocumentId, hchangeId, hsignature, hepoch, hrecipient, hkem, hsealed,
      hpath, hpathEpoch, htipsHash, htips, hlength⟩
  refine ⟨hplain, hchanges, hkeychain, hsnapshot,
    List.filter_congr fun f _ => ?_⟩
  rw [SyncFields.holds_eq_plain]
  exact hplain.holds_eq hchanges.isSome_eq hkeychain.isSome_eq
    hsnapshot.isSome_eq f

/-- A snapshot without its `publicKey`. -/
def withoutPublicKey (snapshot : SnapshotObject) : SnapshotObject :=
  snapshot.filter fun p => p.1 ≠ publicKeyName

/-- The fields of a message on the other side: without the `publicKey` of the
snapshot, and with the properties of every change node that hold a value in the
receiver's order. -/
def SyncFields.delivered (m : SyncFields) : SyncFields :=
  { m with
    changes := m.changes.map NodeObject.rebuilt
    snapshot := m.snapshot.map withoutPublicKey }

theorem receivedSnapshot_eq {snapshot : SnapshotObject}
    (h : SnapshotWellFormed snapshot) :
    receivedSnapshot base64 snapshot = withoutPublicKey snapshot := by
  have hkept : ∀ p ∈ withoutPublicKey snapshot,
      (p.1, p.2.received base64 p.1) = p := by
    intro p hp
    obtain ⟨hp, hname⟩ := List.mem_filter.1 hp
    obtain ⟨name, value⟩ := p
    cases value with
    | bytes b => rw [SnapshotValue.received, if_pos (h.keyed _ hp b rfl)]
    | json j => rfl
    | cryptoKey => exact absurd (h.cryptoKey _ hp rfl) (by simpa using hname)
  calc receivedSnapshot base64 snapshot
      = (withoutPublicKey snapshot).map id := List.map_congr_left hkept
    _ = withoutPublicKey snapshot := List.map_id _

theorem received_eq_delivered {m : SyncFields} (h : m.WellFormed) :
    m.received base64 = m.delivered := by
  have hsnapshot : m.snapshot.map (receivedSnapshot base64) =
      m.snapshot.map withoutPublicKey := by
    rcases hs : m.snapshot with _ | s
    · rfl
    · rw [Option.map_some, Option.map_some,
        receivedSnapshot_eq (h.snapshot s hs)]
  rw [SyncFields.received, SyncFields.delivered, hsnapshot]

namespace YjsJSONSerializer

variable {codec : TextCodec}

/-- A message comes back. -/
theorem deserializeSyncMessage_serialize (hcodec : codec.Inverts)
    (hbase64 : base64.Inverts) {m : SyncMessage} (hm : m.WellFormed) :
    deserializeSyncMessage codec base64 (serializeSyncMessage codec base64 m) =
      .ok m.delivered.build := by
  rw [deserializeSyncMessage, serializeSyncMessage,
    hcodec _ (distinct_wireMembers base64 hm)]
  dsimp only
  rw [readFields_wireMembers hbase64 hm, received_eq_delivered hm]
  rfl

/-- A message that is accepted was read from an object. -/
theorem deserializeSyncMessage_ok {bytes : Bytes} {m : SyncMessage}
    (h : deserializeSyncMessage codec base64 bytes = .ok m) :
    ∃ members, codec.decode bytes = some (.obj members) ∧
      m.ReadFrom base64 members := by
  rw [deserializeSyncMessage] at h
  split at h
  · cases h
  · rename_i members hdecode
    obtain ⟨fields, hfields, rfl⟩ := exists_ok_of_map h
    exact ⟨members, hdecode, readFields_ok hfields⟩
  · cases h

end YjsJSONSerializer

end Yjs

end Collabswarm.Wire
