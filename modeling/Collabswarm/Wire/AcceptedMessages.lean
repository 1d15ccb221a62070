import Mathlib.Tactic
import Collabswarm.Support.ParsedJson
import Collabswarm.Wire.SignatureSurvival
import Collabswarm.Wire.ReceivedFields

/-!
# Messages that were accepted

The receiver keeps a message with its fields, and the properties of every change
node, in an order of its own.  Once it is in that order, a message that is sent
on arrives as it is, and the bytes a signature is verified over stay the same.
Only a `publicKey` that came in the place of a snapshot's key is dropped.
-/

namespace Collabswarm.Wire

open Document (NodeKind)

/-! ## Trees -/

section Trees

variable {α : Type} (decodeLeaf : Json → Except WireError α)

/-- A tree that can be sent, in the receiver's order. -/
structure NodeObject.Settled (node : NodeObject α) : Prop where
  wellFormed : node.WellFormed
  rebuilt : node.rebuilt = node

/-- The same below a node. -/
structure ChildMap.Settled (children : ChildMap α) : Prop where
  wellFormed : ChildrenWellFormed children
  rebuilt : rebuiltChildren children = children

theorem settled_rebuiltNode {children : ChildMap α} (h : children.Settled)
    (kind : NodeKind) (keyID : Option JsString) (change : Option α) :
    (rebuiltNode kind keyID change children).Settled := by
  constructor
  · exact ⟨nodup_rebuiltOrder keyID change children,
      fun _ => mem_rebuiltOrder, h.wellFormed⟩
  · rw [rebuiltNode, NodeObject.rebuilt, h.rebuilt, rebuiltNode]

mutual

/-- A tree that was read is in the receiver's order. -/
theorem settled_of_deserialize : ∀ {j : Json} {node : NodeObject α},
    j.Distinct → deserializeChangeNodeFromJSON decodeLeaf j = .ok node →
      node.Settled
  | .obj members, node, hj, h => by
      rw [deserializeChangeNodeFromJSON] at h
      split at h
      · cases h
      · split at h
        · cases h
        · split at h
          · cases h
          · rename_i hchildren
            cases h
            exact settled_rebuiltNode
              (settled_of_childrenIn hj.2 hchildren) _ _ _
  | .null, _, _, h => by cases h
  | .bool _, _, _, h => by cases h
  | .num _, _, _, h => by cases h
  | .real _, _, _, h => by cases h
  | .str _, _, _, h => by cases h
  | .arr _, _, _, h => by cases h

theorem settled_of_childrenIn : ∀ {members : List (JsString × Json)}
    {children : ChildMap α}, Json.DistinctMembers members →
      childrenIn decodeLeaf members = .ok children → children.Settled
  | [], _, _, h => by
      rw [childrenIn] at h
      cases h
      exact ⟨trivial, by rw [rebuiltChildren]⟩
  | (name, value) :: members, _, hmembers, h => by
      rw [childrenIn] at h
      split at h
      · exact settled_of_childrenFrom hmembers.1 h
      · exact settled_of_childrenIn hmembers.2 h

theorem settled_of_childrenFrom : ∀ {j : Json} {children : ChildMap α},
    j.Distinct → childrenFrom decodeLeaf j = .ok children → children.Settled
  | .bool false, _, _, h => by
      rw [childrenFrom] at h
      cases h
      exact ⟨trivial, by rw [rebuiltChildren]⟩
  | .obj members, _, hj, h => by
      rw [childrenFrom] at h
      obtain ⟨nodes, hnodes, rfl⟩ := exists_ok_of_map h
      obtain ⟨hkeys, hwf, hrebuilt⟩ := settled_of_nodesFrom hj.2 hnodes
      refine ⟨⟨hkeys ▸ hj.1, hwf⟩, ?_⟩
      rw [rebuiltChildren, hrebuilt]
  | .bool true, _, _, h => by cases h
  | .null, _, _, h => by cases h
  | .num _, _, _, h => by cases h
  | .real _, _, _, h => by cases h
  | .str _, _, _, h => by cases h
  | .arr _, _, _, h => by cases h

theorem settled_of_nodesFrom : ∀ {members : List (JsString × Json)}
    {nodes : List (JsString × NodeObject α)}, Json.DistinctMembers members →
      nodesFrom decodeLeaf members = .ok nodes →
        nodes.map Prod.fst = members.map Prod.fst ∧ NodesWellFormed nodes ∧
          rebuiltNodes nodes = nodes
  | [], _, _, h => by
      rw [nodesFrom] at h
      cases h
      exact ⟨rfl, trivial, by rw [rebuiltNodes]⟩
  | (hash, .obj members) :: rest, _, hmembers, h => by
      rw [nodesFrom] at h
      split at h
      · cases h
      · rename_i child hchild
        split at h
        · cases h
        · rename_i nodes hnodes
          cases h
          have hsettled := settled_of_deserialize hmembers.1 hchild
          obtain ⟨hkeys, hwf, hrebuilt⟩ :=
            settled_of_nodesFrom hmembers.2 hnodes
          refine ⟨?_, ⟨hsettled.wellFormed, hwf⟩, ?_⟩
          · rw [List.map_cons, hkeys, List.map_cons]
          · rw [rebuiltNodes, hsettled.rebuilt, hrebuilt]
  | (_, .null) :: _, _, _, h => by cases h
  | (_, .bool _) :: _, _, _, h => by cases h
  | (_, .num _) :: _, _, _, h => by cases h
  | (_, .real _) :: _, _, _, h => by cases h
  | (_, .str _) :: _, _, _, h => by cases h
  | (_, .arr _) :: _, _, _, h => by cases h

end

end Trees

/-! ## Snapshots -/

section Accepted

variable {base64 : Base64} {members : List (JsString × Json)}

/-- A snapshot that was read: its names are distinct, and byte strings are found
in `state` and `signature` only.  Nothing else is checked. -/
structure AcceptedSnapshot (snapshot : SnapshotObject) : Prop where
  nodup : (snapshot.map Prod.fst).Nodup
  value : ∀ p ∈ snapshot,
    (∃ b, p.2 = .bytes b ∧ (p.1 = stateName ∨ p.1 = signatureName)) ∨
      ∃ j : Json, p.2 = .json j ∧ j.Distinct

theorem readSnapshotValue_cases {name : JsString} {j : Json}
    {value : SnapshotValue}
    (h : readSnapshotValue base64 name j = .ok value) :
    (∃ b, value = .bytes b ∧ (name = stateName ∨ name = signatureName)) ∨
      value = .json j := by
  rw [readSnapshotValue.eq_def] at h
  split at h
  · split at h
    · rename_i hname
      obtain ⟨b, -, rfl⟩ := exists_ok_of_map h
      exact Or.inl ⟨b, rfl, hname⟩
    · cases h
      exact Or.inr rfl
  · cases h
    exact Or.inr rfl

theorem mem_of_mem_readSnapshot {snapshot : SnapshotObject}
    (h : readSnapshot base64 members = .ok snapshot) :
    ∀ p ∈ snapshot, ∃ j, (p.1, j) ∈ members ∧
      readSnapshotValue base64 p.1 j = .ok p.2 := by
  induction members generalizing snapshot with
  | nil =>
      cases h
      intro p hp
      cases hp
  | cons m members ih =>
      obtain ⟨name, j⟩ := m
      rw [readSnapshot] at h
      split at h
      · cases h
      · rename_i value hvalue
        split at h
        · cases h
        · rename_i rest hrest
          cases h
          intro p hp
          rcases List.mem_cons.1 hp with rfl | hp
          · exact ⟨j, List.mem_cons_self, hvalue⟩
          · obtain ⟨j', hj', hread⟩ := ih hrest p hp
            exact ⟨j', List.mem_cons_of_mem _ hj', hread⟩

theorem acceptedSnapshot_of_read {snapshot : SnapshotObject}
    (hmembers : (Json.obj members).Distinct)
    (h : readSnapshot base64 members = .ok snapshot) :
    AcceptedSnapshot snapshot := by
  refine ⟨(readSnapshot_ok h).1 ▸ hmembers.1, ?_⟩
  intro p hp
  obtain ⟨j, hj, hread⟩ := mem_of_mem_readSnapshot h p hp
  rcases readSnapshotValue_cases hread with hbytes | hjson
  · exact Or.inl hbytes
  · exact Or.inr ⟨j, hjson, Json.distinctMembers_iff.1 hmembers.2 _ hj⟩

theorem AcceptedSnapshot.distinct {snapshot : SnapshotObject}
    (h : AcceptedSnapshot snapshot) :
    (Json.obj (snapshotJson base64 snapshot)).Distinct := by
  constructor
  · rw [snapshotJson, List.map_map]
    exact h.nodup.sublist (List.filter_sublist.map _)
  · rw [Json.distinctMembers_iff]
    intro p hp
    obtain ⟨⟨name, value⟩, hmem, rfl⟩ := List.mem_map.1 hp
    have hvalue := h.value _ (List.mem_filter.1 hmem).1
    rcases hvalue with ⟨b, rfl, hname⟩ | ⟨j, rfl, hj⟩
    · rw [snapshotValueJson, if_pos hname]
      trivial
    · exact hj

/-- A snapshot whose state and signature are byte strings can be sent. -/
theorem AcceptedSnapshot.wellFormed {snapshot : SnapshotObject}
    (h : AcceptedSnapshot snapshot)
    (hstate : ∃ b, (stateName, .bytes b) ∈ snapshot)
    (hsignature : ∃ b, (signatureName, .bytes b) ∈ snapshot) :
    SnapshotWellFormed snapshot := by
  have hunique : ∀ name value value', (name, value) ∈ snapshot →
      (name, value') ∈ snapshot → value = value' := by
    intro name value value' hvalue hvalue'
    have hlookup := InsertionMap.lookup_of_mem h.nodup hvalue
    rw [InsertionMap.lookup_of_mem h.nodup hvalue'] at hlookup
    exact (Option.some.inj hlookup).symm
  refine ⟨h.nodup, ?_, ?_, ?_⟩
  · rintro ⟨name, value⟩ hp j rfl
    refine ⟨?_, ?_, ?_⟩
    · rintro rfl
      obtain ⟨b, hb⟩ := hstate
      cases hunique _ _ _ hp hb
    · rintro rfl
      obtain ⟨b, hb⟩ := hsignature
      cases hunique _ _ _ hp hb
    · rcases h.value _ hp with ⟨b, hb, -⟩ | ⟨j', hj', hdistinct⟩
      · cases hb
      · exact SnapshotValue.json.inj hj' ▸ hdistinct
  · intro p hp b hb
    rcases h.value p hp with ⟨b', -, hname⟩ | ⟨j, hj, -⟩
    · exact hname
    · rw [hj] at hb
      cases hb
  · intro p hp hkey
    rcases h.value p hp with ⟨b', hb, -⟩ | ⟨j, hj, -⟩
    · rw [hb] at hkey
      cases hkey
    · rw [hj] at hkey
      cases hkey

/-! ## Messages -/

/-- The fields of a message that was accepted. -/
structure AcceptedFields (m : SyncFields) : Prop where
  changes : ∀ node, m.changes = some node → node.Settled
  pathUpdate : ∀ members, m.pathUpdate = some members →
    (Json.obj members).Distinct
  tipsHash : ∀ b, m.tipsHash = some b → b.length = tipsHashLength
  snapshot : ∀ s, m.snapshot = some s → AcceptedSnapshot s

theorem distinct_of_lookup (hmembers : (Json.obj members).Distinct)
    {name : JsString} {j : Json} (h : members.lookup name = some j) :
    j.Distinct :=
  Json.distinctMembers_iff.1 hmembers.2 _ (InsertionMap.mem_of_lookup h)

theorem acceptedSnapshot_of_readFields {m : SyncFields}
    (hmembers : (Json.obj members).Distinct)
    (h : readFields base64 members = .ok m) :
    ∀ s, m.snapshot = some s → AcceptedSnapshot s := by
  obtain ⟨documentId, -, h⟩ := exists_ok_of_bind h
  obtain ⟨changeId, -, h⟩ := exists_ok_of_bind h
  obtain ⟨signature, -, h⟩ := exists_ok_of_bind h
  obtain ⟨snapshot, hsnapshot, h⟩ := exists_ok_of_bind h
  obtain ⟨keychainChanges, -, h⟩ := exists_ok_of_bind h
  obtain ⟨welcomeEpochId, -, h⟩ := exists_ok_of_bind h
  obtain ⟨welcomeRecipientKemPublicKey, -, h⟩ := exists_ok_of_bind h
  obtain ⟨eciesSealed, -, h⟩ := exists_ok_of_bind h
  obtain ⟨welcomeRecipient, -, h⟩ := exists_ok_of_bind h
  obtain ⟨pathUpdate, -, h⟩ := exists_ok_of_bind h
  obtain ⟨pathUpdateEpochId, -, h⟩ := exists_ok_of_bind h
  obtain ⟨tipsHash, -, h⟩ := exists_ok_of_bind h
  obtain ⟨tips, -, h⟩ := exists_ok_of_bind h
  obtain ⟨changes, -, h⟩ := exists_ok_of_bind h
  obtain rfl := Except.ok.inj h
  rintro s rfl
  rw [optionalSnapshot] at hsnapshot
  split at hsnapshot
  · cases hsnapshot
  · cases hsnapshot
  · rename_i ms hobject
    obtain ⟨s', hs', heq⟩ := exists_ok_of_map hsnapshot
    obtain rfl := Option.some.inj heq
    exact acceptedSnapshot_of_read
      (distinct_of_lookup hmembers (optionalObject_ok hobject)) hs'

theorem acceptedFields_of_readFields {m : SyncFields}
    (hmembers : (Json.obj members).Distinct)
    (h : readFields base64 members = .ok m) : AcceptedFields m := by
  have hread := readFields_ok h
  refine ⟨?_, ?_, hread.plain.tipsHash_length,
    acceptedSnapshot_of_readFields hmembers h⟩
  · intro node hnode
    rcases hread.changes with ⟨-, hnone⟩ | ⟨j, node', hj, hnode', hsome⟩
    · cases hnode.symm.trans hnone
    · obtain rfl := Option.some.inj (hnode.symm.trans hsome)
      exact settled_of_deserialize _ (distinct_of_lookup hmembers hj) hnode'
  · intro ms hms
    have hlookup := hread.plain.pathUpdate
    have hplain : m.build.plain.pathUpdate = some ms := hms
    rw [hplain] at hlookup
    exact distinct_of_lookup hmembers hlookup

/-- What the receiver builds from the bytes that it accepts. -/
theorem accepted_of_deserialize {bytes : Bytes} {m : SyncMessage}
    (h : deserializeSyncMessage base64 bytes = .ok m) :
    m = m.toSyncFields.build ∧ AcceptedFields m.toSyncFields := by
  rw [deserializeSyncMessage] at h
  split at h
  · cases h
  · rename_i members hparse
    obtain ⟨fields, hfields, rfl⟩ := exists_ok_of_map h
    exact ⟨rfl, acceptedFields_of_readFields (Json.distinct_of_parse hparse)
      hfields⟩
  · cases h

/-- The object on the wire repeats no name, whatever was accepted. -/
theorem AcceptedFields.distinct_wireMembers {m : SyncMessage}
    (h : AcceptedFields m.toSyncFields) :
    (Json.obj (m.wireMembers base64)).Distinct := by
  rw [wireMembers_eq]
  refine ⟨FieldOrder.nodup_entries syncField_name_injective _ m.nodup, ?_⟩
  rw [Json.distinctMembers_iff]
  intro p hp
  obtain ⟨f, -, hf⟩ := List.mem_filterMap.1 hp
  obtain ⟨v, hv, rfl⟩ := Option.map_eq_some_iff.1 hf
  cases f with
  | documentId =>
      obtain rfl := Option.some.inj hv
      trivial
  | changes =>
      obtain ⟨node, hnode, rfl⟩ := Option.map_eq_some_iff.1 hv
      have hleaf : ∀ b, (bytesJson base64 b).Distinct := fun _ => trivial
      exact distinct_toJson hleaf node (h.changes node hnode).wellFormed
  | pathUpdate =>
      obtain ⟨members, hmembers, rfl⟩ := Option.map_eq_some_iff.1 hv
      exact h.pathUpdate members hmembers
  | tips =>
      obtain ⟨tips, -, rfl⟩ := Option.map_eq_some_iff.1 hv
      exact distinct_tips tips
  | snapshot =>
      obtain ⟨s, hs, rfl⟩ := Option.map_eq_some_iff.1 hv
      exact (h.snapshot s hs).distinct
  | _ =>
      obtain ⟨b, -, rfl⟩ := Option.map_eq_some_iff.1 hv
      trivial

/-- An accepted message with the signed bytes of one that can be sent has its
fields on the wire. -/
theorem wireValue_eq_of_signedBytes_eq {m m' : SyncMessage}
    (hm : AcceptedFields m.toSyncFields) (hm' : m'.WellFormed)
    (h : signedBytes base64 m = signedBytes base64 m') (f : SyncField) :
    m.withoutSignature.wireValue base64 f =
      m'.withoutSignature.wireValue base64 f := by
  have haccepted : AcceptedFields m.withoutSignature.toSyncFields :=
    ⟨hm.changes, hm.pathUpdate, hm.tipsHash, hm.snapshot⟩
  have hparse := congrArg Json.parse (JsString.utf8_injective h)
  rw [Json.parse_stringify haccepted.distinct_wireMembers,
    Json.parse_stringify (distinct_wireMembers base64
      (wellFormed_withoutSignature.2 hm'))] at hparse
  have hmembers := Json.obj.inj (Option.some.inj hparse)
  have hlookup := congrArg (List.lookup f.name) hmembers
  rw [lookup_wireMembers, lookup_wireMembers] at hlookup
  exact hlookup

end Accepted

/-! ## Sending an accepted message on -/

/-- The fields without the `publicKey` of the snapshot. -/
def SyncFields.withoutKey (m : SyncFields) : SyncFields :=
  { m with snapshot := m.snapshot.map withoutPublicKey }

section Sending

variable {base64 : Base64} {m : SyncFields}

theorem AcceptedFields.wellFormed (h : AcceptedFields m)
    (hsnapshot : ∀ s, m.snapshot = some s →
      (∃ b, (stateName, .bytes b) ∈ s) ∧ ∃ b, (signatureName, .bytes b) ∈ s) :
    m.WellFormed := by
  refine ⟨fun node hnode => (h.changes node hnode).wellFormed, h.pathUpdate,
    h.tipsHash, ?_⟩
  intro s hs
  obtain ⟨hstate, hsignature⟩ := hsnapshot s hs
  exact (h.snapshot s hs).wellFormed hstate hsignature

theorem AcceptedFields.delivered_eq (h : AcceptedFields m) :
    m.delivered = m.withoutKey := by
  have hchanges : m.changes.map NodeObject.rebuilt = m.changes := by
    rcases hnode : m.changes with _ | node
    · rfl
    · rw [Option.map_some, (h.changes node hnode).rebuilt]
  rw [SyncFields.delivered, SyncFields.withoutKey, hchanges]

theorem snapshotJson_withoutPublicKey (snapshot : SnapshotObject) :
    snapshotJson base64 (withoutPublicKey snapshot) =
      snapshotJson base64 snapshot := by
  rw [snapshotJson, snapshotJson, withoutPublicKey, List.filter_filter]
  simp only [Bool.and_self]

theorem wireValue_withoutKey (m : SyncFields) (f : SyncField) :
    m.withoutKey.wireValue base64 f = m.wireValue base64 f := by
  cases f with
  | snapshot =>
      rw [SyncFields.wireValue, SyncFields.wireValue, SyncFields.withoutKey,
        Option.map_map]
      simp only [Function.comp_def, snapshotJson_withoutPublicKey]
  | _ => rfl

theorem holds_withoutKey (m : SyncFields) (f : SyncField) :
    m.withoutKey.holds f = m.holds f := by
  rw [holds_eq_isSome_wireValue unitPerByte, wireValue_withoutKey,
    ← holds_eq_isSome_wireValue]

/-- The signed bytes do not depend on the `publicKey`. -/
theorem signedBytes_withoutKey (m : SyncFields) :
    signedBytes base64 m.withoutKey.build = signedBytes base64 m.build := by
  have hbuilt : m.withoutKey.build.order = m.build.order :=
    congrArg (SyncField.received.filter ·) (funext (holds_withoutKey m))
  have horder : m.withoutKey.build.withoutSignature.order =
      m.build.withoutSignature.order :=
    congrArg (List.filter fun f => decide (f ≠ SyncField.signature)) hbuilt
  have hvalue : m.withoutKey.build.withoutSignature.wireValue base64 =
      m.build.withoutSignature.wireValue base64 :=
    funext (wireValue_withoutKey { m with signature := none })
  rw [signedBytes, signedBytes, serializeSyncMessage, serializeSyncMessage,
    SyncMessage.wireMembers, SyncMessage.wireMembers, horder, hvalue]

theorem withoutKey_withoutKey (m : SyncFields) :
    m.withoutKey.withoutKey = m.withoutKey := by
  rw [SyncFields.withoutKey, SyncFields.withoutKey, Option.map_map]
  simp only [Function.comp_def, withoutPublicKey, List.filter_filter,
    Bool.and_self]
  rfl

theorem withoutKey_of_none (h : m.snapshot = none) : m.withoutKey = m := by
  rw [SyncFields.withoutKey, h, Option.map_none, ← h]

theorem AcceptedFields.withoutKey (h : AcceptedFields m) :
    AcceptedFields m.withoutKey := by
  refine ⟨h.changes, h.pathUpdate, h.tipsHash, ?_⟩
  intro s hs
  obtain ⟨s', hs', rfl⟩ := Option.map_eq_some_iff.1 hs
  have haccepted := h.snapshot s' hs'
  refine ⟨haccepted.nodup.sublist (List.filter_sublist.map _), ?_⟩
  intro p hp
  exact haccepted.value p (List.mem_filter.1 hp).1

/-- The snapshot, if there is one, has a state and a signature. -/
def SyncFields.SnapshotSigned (m : SyncFields) : Prop :=
  ∀ s, m.snapshot = some s →
    (∃ b, (stateName, .bytes b) ∈ s) ∧ ∃ b, (signatureName, .bytes b) ∈ s

theorem SyncFields.SnapshotSigned.withoutKey (h : m.SnapshotSigned) :
    m.withoutKey.SnapshotSigned := by
  intro s hs
  obtain ⟨s', hs', rfl⟩ := Option.map_eq_some_iff.1 hs
  obtain ⟨⟨state, hstate⟩, signature, hsignature⟩ := h s' hs'
  constructor
  · have hname : stateName ≠ publicKeyName := by decide
    exact ⟨state, List.mem_filter.2 ⟨hstate, decide_eq_true hname⟩⟩
  · have hname : signatureName ≠ publicKeyName := by decide
    exact ⟨signature, List.mem_filter.2 ⟨hsignature, decide_eq_true hname⟩⟩

/-- What arrives when an accepted message is sent on. -/
theorem deserialize_accepted (hbase64 : base64.Inverts)
    (h : AcceptedFields m) (hsnapshot : m.SnapshotSigned) :
    deserializeSyncMessage base64 (serializeSyncMessage base64 m.build) =
      .ok m.withoutKey.build := by
  have hwf : m.WellFormed := h.wellFormed hsnapshot
  have hsent := deserializeSyncMessage_serialize hbase64
    (show m.build.WellFormed from hwf)
  change _ = Except.ok (m.received base64).build at hsent
  rw [hsent, received_eq_delivered hwf, h.delivered_eq]

end Sending

end Collabswarm.Wire
