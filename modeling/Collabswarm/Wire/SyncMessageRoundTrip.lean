import Collabswarm.Wire.AutomergeJSONSerializer
import Collabswarm.Ucan.TokenText

/-!
# Sync messages through both serializers

What one side serializes the other side gets back, for the serializers of both
packages, and what a side accepts has the fields of a sync message.  The
properties of a snapshot are not checked.
-/

namespace Collabswarm.Wire

open JsString (ofString)

/-- Both serializers give back every message without the `publicKey` of its
snapshot, and a message that one of them accepts was read from an object, field
by field. -/
theorem sync_messages_round_trip (codec : TextCodec) (base64 : Base64)
    (hcodec : codec.Inverts) (hbase64 : base64.Inverts) :
    (∀ m : SyncMessage, m.WellFormed →
      YjsJSONSerializer.deserializeSyncMessage codec base64
          (YjsJSONSerializer.serializeSyncMessage codec base64 m) =
        .ok m.delivered.build) ∧
    (∀ m : AutomergeJSONSerializer.SyncMessage, m.WellFormed →
      AutomergeJSONSerializer.deserializeSyncMessage codec base64
          (AutomergeJSONSerializer.serializeSyncMessage codec base64 m) =
        .ok m.delivered.build) ∧
    (∀ bytes m,
      YjsJSONSerializer.deserializeSyncMessage codec base64 bytes = .ok m →
        ∃ members, codec.decode bytes = some (.obj members) ∧
          m.ReadFrom base64 members) ∧
    (∀ bytes m,
      AutomergeJSONSerializer.deserializeSyncMessage codec base64 bytes =
          .ok m →
        ∃ members, codec.decode bytes = some (.obj members) ∧
          m.ReadFrom base64 members) := by
  refine ⟨?_, ?_, ?_, ?_⟩
  · exact fun m hm =>
      YjsJSONSerializer.deserializeSyncMessage_serialize hcodec hbase64 hm
  · exact fun m hm =>
      AutomergeJSONSerializer.deserializeSyncMessage_serialize hcodec hbase64
        hm
  · exact fun bytes m h => YjsJSONSerializer.deserializeSyncMessage_ok h
  · exact fun bytes m h => AutomergeJSONSerializer.deserializeSyncMessage_ok h

/-- Base64 with padding. -/
def paddedBase64 : Base64 where
  fromUint8Array b := JsString.ofChars (Ucan.encodeBase64 b)
  toUint8Array s := Ucan.decodeBase64 (JsString.scalars s)

theorem paddedBase64_inverts : paddedBase64.Inverts := by
  intro b
  rw [paddedBase64]
  dsimp only
  rw [JsString.scalars_ofChars, Ucan.decodeBase64_encodeBase64]

/-- A snapshot of a document without changes. -/
def emptySnapshot : SnapshotObject :=
  [(stateName, .bytes []), (publicKeyName, .cryptoKey),
    (signatureName, .bytes [])]

/-- A message whose optional values are empty. -/
def emptyFields : SyncFields where
  documentId := ofString "/doc"
  changeId := some []
  signature := some []
  changes := some (.mk [.kind, .change] .document none (some []) .absent)
  keychainChanges := some []
  welcomeEpochId := some []
  welcomeRecipient := some []
  welcomeRecipientKemPublicKey := none
  eciesSealed := some []
  pathUpdate := some []
  pathUpdateEpochId := none
  tipsHash := some (List.replicate 32 0)
  tips := some []
  snapshot := some emptySnapshot

theorem emptyFields_wellFormed : emptyFields.build.WellFormed := by
  refine ⟨?_, ?_, ?_, ?_⟩
  · rintro _ ⟨⟩
    refine ⟨by decide, ?_, trivial⟩
    intro f hf
    cases f with
    | kind => decide
    | keyID => exact absurd rfl hf
    | change => decide
    | children => exact absurd rfl hf
  · rintro _ ⟨⟩
    exact ⟨List.nodup_nil, trivial⟩
  · rintro _ ⟨⟩
    rfl
  · rintro _ ⟨⟩
    refine ⟨by decide, ?_, ?_, ?_⟩
    · simp [emptySnapshot]
    · simp [emptySnapshot]
    · simp [emptySnapshot]

/-- The same for changes that are lists. -/
def emptyListFields : AutomergeJSONSerializer.SyncFields where
  documentId := ofString "/doc"
  changeId := some []
  signature := none
  changes := some
    (.mk [.kind, .change, .children] .document none (some []) .deferred)
  keychainChanges := some [[]]
  welcomeEpochId := some []
  welcomeRecipient := none
  welcomeRecipientKemPublicKey := some []
  eciesSealed := some []
  pathUpdate := some []
  pathUpdateEpochId := none
  tipsHash := none
  tips := some []
  snapshot := some [(stateName, .changes []), (publicKeyName, .cryptoKey)]

theorem emptyListFields_wellFormed : emptyListFields.build.WellFormed := by
  refine ⟨?_, ?_, ?_, ?_⟩
  · rintro _ ⟨⟩
    refine ⟨by decide, ?_, trivial⟩
    intro f hf
    cases f with
    | kind => decide
    | keyID => exact absurd rfl hf
    | change => decide
    | children => decide
  · rintro _ ⟨⟩
    exact ⟨List.nodup_nil, trivial⟩
  · rintro _ ⟨⟩
  · rintro _ ⟨⟩
    refine ⟨by decide, ?_, ?_, ?_, ?_⟩
    · simp
    · simp
    · simp
    · simp

/-- Empty values come back. -/
theorem sync_messages_round_trip_empty :
    YjsJSONSerializer.deserializeSyncMessage utf8Json paddedBase64
        (YjsJSONSerializer.serializeSyncMessage utf8Json paddedBase64
          emptyFields.build) = .ok emptyFields.delivered.build ∧
      AutomergeJSONSerializer.deserializeSyncMessage utf8Json paddedBase64
        (AutomergeJSONSerializer.serializeSyncMessage utf8Json paddedBase64
          emptyListFields.build) = .ok emptyListFields.delivered.build := by
  obtain ⟨hyjs, hautomerge, -, -⟩ := sync_messages_round_trip utf8Json
    paddedBase64 utf8Json_inverts paddedBase64_inverts
  exact ⟨hyjs _ emptyFields_wellFormed,
    hautomerge _ emptyListFields_wellFormed⟩

/-- The properties that the type of a snapshot declares. -/
structure DeclaredSnapshot (snapshot : SnapshotObject) : Prop where
  state : ∃ b, (stateName, .bytes b) ∈ snapshot
  lastChangeNodeCID : ∃ s,
    (ofString "lastChangeNodeCID", .json (.str s)) ∈ snapshot
  compactedCount : ∃ n, (ofString "compactedCount", .json (.num n)) ∈ snapshot
  signature : ∃ b, (signatureName, .bytes b) ∈ snapshot
  timestamp : ∃ n, (ofString "timestamp", .json (.num n)) ∈ snapshot

/-- A message with an empty object for its snapshot is accepted. -/
theorem snapshot_unchecked :
    ¬ ∀ (codec : TextCodec) (base64 : Base64), codec.Inverts →
      base64.Inverts → ∀ bytes m,
        YjsJSONSerializer.deserializeSyncMessage codec base64 bytes = .ok m →
          ∀ s, m.snapshot = some s → DeclaredSnapshot s := by
  intro h
  have hdistinct : (Json.obj [(SyncField.documentId.name, .str (ofString "d")),
      (SyncField.snapshot.name, .obj [])]).Distinct := by
    refine ⟨by decide, trivial, ⟨List.nodup_nil, trivial⟩, trivial⟩
  have haccepted : ∃ m, YjsJSONSerializer.deserializeSyncMessage utf8Json
      paddedBase64 (utf8Json.encode
        (.obj [(SyncField.documentId.name, .str (ofString "d")),
          (SyncField.snapshot.name, .obj [])])) = .ok m ∧
        m.snapshot = some [] := by
    rw [YjsJSONSerializer.deserializeSyncMessage, utf8Json_inverts _ hdistinct]
    exact ⟨_, rfl, rfl⟩
  obtain ⟨m, hm, hsnapshot⟩ := haccepted
  obtain ⟨⟨b, hb⟩, -⟩ := h utf8Json paddedBase64 utf8Json_inverts
    paddedBase64_inverts _ m hm [] hsnapshot
  cases hb

end Collabswarm.Wire
