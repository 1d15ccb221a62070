import Mathlib.Tactic
import Collabswarm.Wire.SignatureSurvival

/-!
# The byte strings that are signed

Three kinds of byte strings are signed with a writer's key: the path of a
document in a load request, a sync message without its signature, and the
payload of a snapshot.  None of them carries a tag for its role.
-/

namespace Collabswarm.Wire

open JsString (ofString textEncode unitsOfChar)

/-- What `_buildSnapshotSignPayload` is called with. -/
structure SnapshotTuple where
  stateBytes : Bytes
  lastChangeNodeCID : JsString
  timestamp : ℤ
  compactedCount : ℤ
deriving DecidableEq

/-- `Number.MAX_SAFE_INTEGER`. -/
def maxSafeInteger : ℤ := 2 ^ 53 - 1

/-- The largest number of 32 bits. -/
def maxUint32 : ℕ := 0xFFFFFFFF

/-- The layout of the payload: version, timestamp, count, and the CID and the
state behind their lengths. -/
def snapshotPayload (t : SnapshotTuple) : Bytes :=
  1 :: (Bytes.bigEndian 8 t.timestamp.toNat ++
    (Bytes.bigEndian 4 t.compactedCount.toNat ++
      (Bytes.lengthPrefixed (textEncode t.lastChangeNodeCID) ++
        Bytes.lengthPrefixed t.stateBytes)))

/-- `_buildSnapshotSignPayload`. -/
def buildSnapshotSignPayload (t : SnapshotTuple) : Except String Bytes :=
  if maxSafeInteger < t.timestamp.natAbs ∨ t.timestamp < 0 then
    .error ("Invalid snapshot timestamp: " ++ toString t.timestamp)
  else if t.compactedCount < 0 ∨ maxUint32 < t.compactedCount then
    .error ("Invalid snapshot compactedCount: " ++ toString t.compactedCount)
  else if maxUint32 < (textEncode t.lastChangeNodeCID).length then
    .error ("lastChangeNodeCID too large: " ++
      toString (textEncode t.lastChangeNodeCID).length ++ " bytes")
  else if maxUint32 < t.stateBytes.length then
    .error ("Snapshot state too large: " ++ toString t.stateBytes.length ++
      " bytes")
  else .ok (snapshotPayload t)

/-- The bytes `load` signs in a load request. -/
def loadRequestBytes (documentPath : JsString) : Bytes :=
  textEncode documentPath

/-- What an accepted tuple satisfies. -/
structure SnapshotTuple.Accepted (t : SnapshotTuple) : Prop where
  timestamp_nonneg : 0 ≤ t.timestamp
  timestamp_le : t.timestamp ≤ maxSafeInteger
  count_nonneg : 0 ≤ t.compactedCount
  count_le : t.compactedCount ≤ maxUint32
  cid_le : (textEncode t.lastChangeNodeCID).length ≤ maxUint32
  state_le : t.stateBytes.length ≤ maxUint32

theorem buildSnapshotSignPayload_ok {t : SnapshotTuple} {payload : Bytes}
    (h : buildSnapshotSignPayload t = .ok payload) :
    t.Accepted ∧ payload = snapshotPayload t := by
  unfold buildSnapshotSignPayload at h
  split_ifs at h with htimestamp hcount hcid hstate
  rw [not_or, not_lt, not_lt] at htimestamp hcount
  rw [not_lt] at hcid hstate
  refine ⟨⟨htimestamp.2, ?_, hcount.1, hcount.2, hcid, hstate⟩,
    (Except.ok.inj h).symm⟩
  have habs := htimestamp.1
  rw [Int.natCast_natAbs, abs_of_nonneg htimestamp.2] at habs
  exact habs

/-- An accepted tuple can be read back from its payload. -/
theorem snapshotPayload_inj {t t' : SnapshotTuple} (ht : t.Accepted)
    (ht' : t'.Accepted) (hcid : t.lastChangeNodeCID.WellFormed)
    (hcid' : t'.lastChangeNodeCID.WellFormed)
    (h : snapshotPayload t = snapshotPayload t') : t = t' := by
  have hsafe : ∀ t : SnapshotTuple, t.Accepted →
      t.timestamp.toNat < 256 ^ 8 := by
    intro t ht
    have hle := ht.timestamp_le
    unfold maxSafeInteger at hle
    omega
  have hcount : ∀ t : SnapshotTuple, t.Accepted →
      t.compactedCount.toNat < 256 ^ 4 := by
    intro t ht
    have hle := ht.count_le
    unfold maxUint32 at hle
    omega
  have hlength : ∀ n, n ≤ maxUint32 → n < 256 ^ 4 := by
    intro n hn
    unfold maxUint32 at hn
    omega
  obtain ⟨htimestamp, h⟩ := Bytes.bigEndian_append_inj (hsafe t ht)
    (hsafe t' ht') (List.cons.inj h).2
  obtain ⟨hcompacted, h⟩ := Bytes.bigEndian_append_inj (hcount t ht)
    (hcount t' ht') h
  obtain ⟨hencoded, h⟩ := Bytes.lengthPrefixed_append_inj
    (hlength _ ht.cid_le) (hlength _ ht'.cid_le) h
  have hstate := (Bytes.lengthPrefixed_append_inj (hlength _ ht.state_le)
    (hlength _ ht'.state_le) (congrArg (· ++ []) h)).1
  have hcids := JsString.textEncode_inj hcid hcid' hencoded
  have htime : t.timestamp = t'.timestamp := by
    rw [← Int.toNat_of_nonneg ht.timestamp_nonneg, htimestamp,
      Int.toNat_of_nonneg ht'.timestamp_nonneg]
  have hnumber : t.compactedCount = t'.compactedCount := by
    rw [← Int.toNat_of_nonneg ht.count_nonneg, hcompacted,
      Int.toNat_of_nonneg ht'.count_nonneg]
  obtain ⟨state, cid, timestamp, count⟩ := t
  simp_all

/-! ## The first byte tells the roles apart -/

/-- A signed message begins with a brace. -/
theorem signedBytes_eq (base64 : Base64) (m : SyncMessage) :
    ∃ rest, signedBytes base64 m = String.utf8EncodeChar '{' ++ rest := by
  obtain ⟨text, htext⟩ :=
    head_stringify_obj (m.withoutSignature.wireMembers base64)
  refine ⟨JsString.utf8 text, ?_⟩
  rw [signedBytes, serializeSyncMessage, htext, JsString.utf8_cons]

/-- A snapshot payload begins with the version. -/
theorem snapshotPayload_eq (t : SnapshotTuple) :
    ∃ rest, snapshotPayload t = String.utf8EncodeChar '\x01' ++ rest :=
  ⟨_, rfl⟩

/-- Sync messages and snapshots are signed as different byte strings, and so
are different snapshots whose CIDs have no lone surrogate.  The bytes of a
document path can be those of a sync message only if the path begins with a
brace, and those of a snapshot payload only if it begins with U+0001. -/
theorem signed_roles_separate (base64 : Base64) :
    (∀ m t payload, buildSnapshotSignPayload t = .ok payload →
      signedBytes base64 m ≠ payload) ∧
    (∀ t t' payload, t.lastChangeNodeCID.WellFormed →
      t'.lastChangeNodeCID.WellFormed →
      buildSnapshotSignPayload t = .ok payload →
      buildSnapshotSignPayload t' = .ok payload → t = t') ∧
    (∀ documentPath m, loadRequestBytes documentPath = signedBytes base64 m →
      ∃ rest, documentPath = ofString "\x7b" ++ rest) ∧
    ∀ documentPath t payload, buildSnapshotSignPayload t = .ok payload →
      loadRequestBytes documentPath = payload →
        ∃ rest, documentPath = ofString "\x01" ++ rest := by
  refine ⟨?_, ?_, ?_, ?_⟩
  · intro m t payload hpayload heq
    obtain ⟨-, rfl⟩ := buildSnapshotSignPayload_ok hpayload
    obtain ⟨rest, hrest⟩ := signedBytes_eq base64 m
    rw [hrest] at heq
    exact absurd (List.cons.inj heq).1 (by decide)
  · intro t t' payload hcid hcid' ht ht'
    obtain ⟨haccepted, rfl⟩ := buildSnapshotSignPayload_ok ht
    obtain ⟨haccepted', heq⟩ := buildSnapshotSignPayload_ok ht'
    exact snapshotPayload_inj haccepted haccepted' hcid hcid' heq
  · intro documentPath m heq
    obtain ⟨rest, hrest⟩ := signedBytes_eq base64 m
    rw [hrest] at heq
    exact JsString.exists_append_of_textEncode (by decide) heq
  · intro documentPath t payload hpayload heq
    obtain ⟨-, rfl⟩ := buildSnapshotSignPayload_ok hpayload
    obtain ⟨rest, hrest⟩ := snapshotPayload_eq t
    rw [hrest] at heq
    exact JsString.exists_append_of_textEncode (by decide) heq

/-- The text of the load response of a document without changes, with an empty
keychain delta. -/
def responsePath : JsString :=
  ofString "\x7b\"documentId\":\"a\",\"keychainChanges\":\"\",\"tips\":[]\x7d"

/-- The load request of a document with that path and that load response are
signed as the same bytes. -/
theorem load_request_signs_load_response :
    ¬∀ base64 : Base64, base64.Inverts → ∀ documentPath m,
      loadRequestBytes documentPath ≠ signedBytes base64 m := by
  intro h
  refine h unitPerByte unitPerByte_inverts responsePath
    (loadMessage (ofString "a") none [] none [] (ofString "s")) ?_
  decide +kernel

end Collabswarm.Wire
