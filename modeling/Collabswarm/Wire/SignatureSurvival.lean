import Mathlib.Tactic
import Collabswarm.Wire.SyncMessageSerializer

/-!
# The signature of a sync message on the receiver's side

The sender signs the bytes of its message without the signature field.  The
receiver does not keep the bytes it got: it rebuilds the message, drops the
signature and serializes again, so that the signature verifies only if the
rebuilt message has the same bytes.
-/

namespace Collabswarm.Wire

open Document (NodeKind)
open JsString (ofString)

/-! ## The trees and messages a sender builds -/

/-- The deferred leaf of a cross-link. -/
def deferredLeaf (kind : NodeKind) : NodeObject Bytes :=
  .mk [.kind] kind none none .absent

/-- Add a cross-link unless the CID is a child already. -/
def linkTip (children : List (JsString × NodeObject Bytes))
    (tip : JsString × NodeKind) : List (JsString × NodeObject Bytes) :=
  if tip.1 ∈ children.map Prod.fst then children
  else children ++ [(tip.1, deferredLeaf tip.2)]

/-- The node of `_makeChange`: `kind` and `change`, and after that `children`
with the previous tree first and then the cross-links. -/
def makeChangeNode (kind : NodeKind) (change : Bytes)
    (previous : Option (JsString × NodeObject Bytes))
    (tips : List (JsString × NodeKind)) : NodeObject Bytes :=
  match previous with
  | none => .mk [.kind, .change] kind none (some change) .absent
  | some parent =>
      .mk [.kind, .change, .children] kind none (some change)
        (.present (tips.foldl linkTip [parent]))

/-- The trees that `_makeChange` builds. -/
inductive Made : NodeObject Bytes → Prop
  | first (kind : NodeKind) (change : Bytes)
      (tips : List (JsString × NodeKind)) :
      Made (makeChangeNode kind change none tips)
  | next (kind : NodeKind) (change : Bytes) (parentId : JsString)
      {parent : NodeObject Bytes} (tips : List (JsString × NodeKind))
      (hparent : Made parent) :
      Made (makeChangeNode kind change (some (parentId, parent)) tips)

/-- A snapshot as `snapshot()` builds it; one that was adopted from a message
has no `publicKey`. -/
structure SnapshotNode where
  state : Bytes
  lastChangeNodeCID : JsString
  compactedCount : ℕ
  signature : Bytes
  hasPublicKey : Bool
  timestamp : ℕ

/-- The snapshot as an object. -/
def SnapshotNode.object (s : SnapshotNode) : SnapshotObject :=
  [(stateName, .bytes s.state),
    (ofString "lastChangeNodeCID", .json (.str s.lastChangeNodeCID)),
    (ofString "compactedCount", .json (.num s.compactedCount)),
    (signatureName, .bytes s.signature)] ++
  (if s.hasPublicKey then [(publicKeyName, .cryptoKey)] else []) ++
  [(ofString "timestamp", .json (.num s.timestamp))]

/-! ### Building a message field by field -/

namespace SyncMessage

/-- The message of a document without changes. -/
def initial (documentPath : JsString) : SyncMessage where
  documentId := documentPath
  changeId := none
  signature := none
  changes := none
  keychainChanges := none
  welcomeEpochId := none
  welcomeRecipient := none
  welcomeRecipientKemPublicKey := none
  eciesSealed := none
  pathUpdate := none
  pathUpdateEpochId := none
  tipsHash := none
  tips := none
  snapshot := none
  order := [.documentId]
  nodup := List.nodup_singleton _
  listed := by
    intro f hf
    cases f with
    | documentId => exact List.mem_singleton_self _
    | _ => cases hf

/-- Assign one field; a new field goes to the end. -/
def assign (m : SyncMessage) (f : SyncField) (fields : SyncFields)
    (h : ∀ g, fields.holds g = true → m.holds g = true ∨ g = f) :
    SyncMessage where
  toSyncFields := fields
  order := FieldOrder.touch m.order f
  nodup := FieldOrder.nodup_touch m.nodup f
  listed := fun g hg => FieldOrder.mem_touch.2 ((h g hg).imp_left (m.listed g))

def setChangeId (m : SyncMessage) (cid : JsString) : SyncMessage :=
  m.assign .changeId { m.toSyncFields with changeId := some cid } (by
    intro g hg
    cases g with
    | changeId => exact Or.inr rfl
    | _ => exact Or.inl hg)

def setChanges (m : SyncMessage) (node : NodeObject Bytes) : SyncMessage :=
  m.assign .changes { m.toSyncFields with changes := some node } (by
    intro g hg
    cases g with
    | changes => exact Or.inr rfl
    | _ => exact Or.inl hg)

def setKeychainChanges (m : SyncMessage) (b : Bytes) : SyncMessage :=
  m.assign .keychainChanges { m.toSyncFields with keychainChanges := some b }
    (by
      intro g hg
      cases g with
      | keychainChanges => exact Or.inr rfl
      | _ => exact Or.inl hg)

def setSnapshot (m : SyncMessage) (s : SnapshotObject) : SyncMessage :=
  m.assign .snapshot { m.toSyncFields with snapshot := some s } (by
    intro g hg
    cases g with
    | snapshot => exact Or.inr rfl
    | _ => exact Or.inl hg)

def setTips (m : SyncMessage) (tips : List JsString) : SyncMessage :=
  m.assign .tips { m.toSyncFields with tips := some tips } (by
    intro g hg
    cases g with
    | tips => exact Or.inr rfl
    | _ => exact Or.inl hg)

def setSignature (m : SyncMessage) (signature : JsString) : SyncMessage :=
  m.assign .signature { m.toSyncFields with signature := some signature } (by
    intro g hg
    cases g with
    | signature => exact Or.inr rfl
    | _ => exact Or.inl hg)

end SyncMessage

/-- `_createSyncMessage`: a copy of `_lastSyncMessage`, or a new message. -/
def createSyncMessage (documentPath : JsString)
    (lastSyncMessage : Option SyncMessage) : SyncMessage :=
  lastSyncMessage.getD (.initial documentPath)

/-- The tree a new change hangs below, with its CID. -/
def previousTree (m : SyncMessage) : Option (JsString × NodeObject Bytes) :=
  match m.changeId, m.changes with
  | some cid, some node => some (cid, node)
  | _, _ => none

/-- The message `_makeChange` signs and broadcasts. -/
def updateMessage (documentPath : JsString)
    (lastSyncMessage : Option SyncMessage) (hash : JsString) (kind : NodeKind)
    (change : Bytes) (tips : List (JsString × NodeKind))
    (signature : JsString) : SyncMessage :=
  let m := createSyncMessage documentPath lastSyncMessage
  ((m.setChangeId hash).setChanges
    (makeChangeNode kind change (previousTree m) tips)).setSignature signature

/-- The message `handleLoadRequestData` signs and sends. -/
def loadMessage (documentPath : JsString)
    (lastSyncMessage : Option SyncMessage) (keychainChanges : Bytes)
    (latestSnapshot : Option SnapshotNode) (servedFrontier : List JsString)
    (signature : JsString) : SyncMessage :=
  let m := (createSyncMessage documentPath lastSyncMessage).setKeychainChanges
    keychainChanges
  let m := match latestSnapshot with
    | some snapshot => m.setSnapshot snapshot.object
    | none => m
  (m.setTips servedFrontier).setSignature signature

/-- The values `_lastSyncMessage` takes while local changes are made. -/
inductive LastSyncMessage (documentPath : JsString) :
    Option SyncMessage → Prop
  | unset : LastSyncMessage documentPath none
  | changed {last : Option SyncMessage}
      (hlast : LastSyncMessage documentPath last)
      (hash : JsString) (kind : NodeKind) (change : Bytes)
      (tips : List (JsString × NodeKind)) (signature : JsString) :
      LastSyncMessage documentPath (some
        (updateMessage documentPath last hash kind change tips signature))

/-- What a sender puts into a message: the path, the root of a tree made by
`_makeChange` with its CID, and the fields of a load response. -/
structure SentMessage where
  documentId : JsString
  root : Option (JsString × { tree : NodeObject Bytes // Made tree })
  keychainChanges : Option Bytes
  snapshot : Option SnapshotNode
  tips : Option (List JsString)

/-- The fields of a message, before it is signed. -/
def SentMessage.fields (s : SentMessage) : SyncFields where
  documentId := s.documentId
  changeId := s.root.map Prod.fst
  signature := none
  changes := s.root.map fun r => r.2.1
  keychainChanges := s.keychainChanges
  welcomeEpochId := none
  welcomeRecipient := none
  welcomeRecipientKemPublicKey := none
  eciesSealed := none
  pathUpdate := none
  pathUpdateEpochId := none
  tipsHash := none
  tips := s.tips
  snapshot := s.snapshot.map SnapshotNode.object

/-- The order in which a sender sets the fields. -/
def SentMessage.sentOrder : List SyncField :=
  [.documentId, .changeId, .changes, .keychainChanges, .snapshot, .tips]

/-- The message, before it is signed. -/
def SentMessage.message (s : SentMessage) : SyncMessage where
  toSyncFields := s.fields
  order := SentMessage.sentOrder.filter s.fields.holds
  nodup := List.Nodup.filter _ (by decide)
  listed := by
    intro f hf
    refine List.mem_filter.2 ⟨?_, hf⟩
    cases f <;> first | decide | cases hf

/-- The bytes the sender signs: `_signAsWriterUnconditional`. -/
def signedBytes (base64 : Base64) (m : SyncMessage) : Bytes :=
  serializeSyncMessage base64 m.withoutSignature

/-- The bytes the receiver verifies the signature of. -/
def rebuiltBytes (base64 : Base64) (m : SyncMessage) :
    Except WireError Bytes :=
  (deserializeSyncMessage base64 (serializeSyncMessage base64 m)).map fun m =>
    serializeSyncMessage base64 m.withoutSignature

/-! ## Trees made by `_makeChange` can be sent -/

theorem wellFormed_deferredLeaf (kind : NodeKind) :
    (deferredLeaf kind).WellFormed := by
  refine ⟨by decide, ?_, trivial⟩
  intro f hf
  cases f with
  | kind => exact List.mem_singleton_self _
  | keyID => exact absurd rfl hf
  | change => exact absurd rfl hf
  | children => exact absurd rfl hf

theorem wellFormed_foldl_linkTip (tips : List (JsString × NodeKind)) :
    ∀ children : List (JsString × NodeObject Bytes),
      (children.map Prod.fst).Nodup → NodesWellFormed children →
        ((tips.foldl linkTip children).map Prod.fst).Nodup ∧
          NodesWellFormed (tips.foldl linkTip children) := by
  induction tips with
  | nil =>
      intro children hnodup hwf
      exact ⟨hnodup, hwf⟩
  | cons tip tips ih =>
      intro children hnodup hwf
      rw [List.foldl_cons]
      by_cases hmem : tip.1 ∈ children.map Prod.fst
      · rw [linkTip, if_pos hmem]
        exact ih children hnodup hwf
      · rw [linkTip, if_neg hmem]
        apply ih
        · rw [List.map_append]
          refine List.nodup_append.2 ⟨hnodup, List.nodup_singleton _, ?_⟩
          rintro a ha b hb rfl
          rw [List.map_singleton, List.mem_singleton] at hb
          exact hmem (hb ▸ ha)
        · rw [nodesWellFormed_iff] at hwf ⊢
          intro p hp
          rcases List.mem_append.1 hp with hp | hp
          · exact hwf p hp
          · obtain rfl := List.mem_singleton.1 hp
            exact wellFormed_deferredLeaf tip.2

theorem Made.cases_root {tree : NodeObject Bytes} (h : Made tree) :
    (∃ kind change,
      tree = .mk [.kind, .change] kind none (some change) .absent) ∨
    (∃ kind change nodes,
      tree = .mk [.kind, .change, .children] kind none (some change)
        (.present nodes)) := by
  cases h with
  | first kind change tips => exact Or.inl ⟨kind, change, rfl⟩
  | next kind change parentId tips hparent =>
      exact Or.inr ⟨kind, change, _, rfl⟩

/-- Every tree `_makeChange` builds can be sent. -/
theorem Made.wellFormed {tree : NodeObject Bytes} (h : Made tree) :
    tree.WellFormed := by
  induction h with
  | first kind change tips =>
      refine ⟨by decide, ?_, trivial⟩
      intro f hf
      cases f with
      | keyID => exact absurd rfl hf
      | children => exact absurd rfl hf
      | _ => decide
  | next kind change parentId tips hparent ih =>
      refine ⟨by decide, ?_, ?_⟩
      · intro f hf
        cases f with
        | keyID => exact absurd rfl hf
        | _ => decide
      · exact wellFormed_foldl_linkTip tips _ (List.nodup_singleton _)
          ⟨ih, trivial⟩

/-! ## Where the rebuilt message differs -/

/-- The root of the tree has children. -/
def NodeObject.hasChildren {α : Type} : NodeObject α → Bool
  | .mk _ _ _ _ (.present _) => true
  | _ => false

/-- The receiver puts `children` before `change`. -/
theorem toJson_rebuilt_ne (base64 : Base64) (kind : NodeKind) (change : Bytes)
    (nodes : List (JsString × NodeObject Bytes)) :
    (serializeChangeNodeForJSON (bytesJson base64)
      (NodeObject.mk [.kind, .change, .children] kind none (some change)
        (.present nodes)).rebuilt).toJson ≠
    (serializeChangeNodeForJSON (bytesJson base64)
      (.mk [.kind, .change, .children] kind none (some change)
        (.present nodes))).toJson := by
  intro h
  rw [NodeObject.rebuilt, rebuiltNode, toJson_serialize, toJson_serialize] at h
  · have hkeys := congrArg (List.map Prod.fst) (Json.obj.inj h)
    simp only [nodeMembers, FieldOrder.map_fst_entries, rebuiltChildren,
      serializeChildren, childrenJson] at hkeys
    have horder := List.map_injective_iff.2 nodeField_name_injective hkeys
    change [NodeField.kind, .children, .change] =
      [NodeField.kind, .change, .children] at horder
    exact absurd horder (by decide)
  · intro f hf
    cases f with
    | keyID => exact absurd rfl hf
    | _ => decide
  · exact fun _ => mem_rebuiltOrder

theorem Made.toJson_rebuilt_iff {tree : NodeObject Bytes} (h : Made tree)
    (base64 : Base64) :
    (serializeChangeNodeForJSON (bytesJson base64) tree.rebuilt).toJson =
      (serializeChangeNodeForJSON (bytesJson base64) tree).toJson ↔
      tree.hasChildren = false := by
  obtain ⟨kind, change, rfl⟩ | ⟨kind, change, nodes, rfl⟩ := h.cases_root
  · simp [NodeObject.rebuilt, rebuiltNode, rebuiltOrder, rebuiltChildren,
      NodeObject.hasChildren]
  · constructor
    · intro heq
      exact absurd heq (toJson_rebuilt_ne base64 kind change nodes)
    · intro hfalse
      cases hfalse

theorem SnapshotNode.wellFormed (s : SnapshotNode) :
    SnapshotWellFormed s.object := by
  have hmem : ∀ p ∈ s.object, p = (stateName, .bytes s.state) ∨
      p = (signatureName, .bytes s.signature) ∨
      p = (publicKeyName, .cryptoKey) ∨
      (p.1 ≠ stateName ∧ p.1 ≠ signatureName ∧
        ∃ j : Json, p.2 = .json j ∧ j.Distinct) := by
    intro p hp
    have hfield : ∀ (name : JsString) (j : Json), p = (name, .json j) →
        name ≠ stateName → name ≠ signatureName → j.Distinct →
          p.1 ≠ stateName ∧ p.1 ≠ signatureName ∧
            ∃ j : Json, p.2 = .json j ∧ j.Distinct := by
      rintro name j rfl hstate hsignature hj
      exact ⟨hstate, hsignature, j, rfl, hj⟩
    simp only [SnapshotNode.object, List.mem_append, List.mem_cons,
      List.not_mem_nil, or_false] at hp
    obtain ((rfl | h | h | rfl) | h) | h := hp
    · exact Or.inl rfl
    · exact Or.inr (Or.inr (Or.inr
        (hfield _ _ h (by decide) (by decide) trivial)))
    · exact Or.inr (Or.inr (Or.inr
        (hfield _ _ h (by decide) (by decide) trivial)))
    · exact Or.inr (Or.inl rfl)
    · cases hkey : s.hasPublicKey with
      | false => simp [hkey] at h
      | true => exact Or.inr (Or.inr (Or.inl (by simpa [hkey] using h)))
    · exact Or.inr (Or.inr (Or.inr
        (hfield _ _ h (by decide) (by decide) trivial)))
  refine ⟨?_, ?_, ?_, ?_⟩
  · obtain ⟨state, cid, count, signature, hasPublicKey, timestamp⟩ := s
    cases hasPublicKey
    · exact (by decide : [stateName, ofString "lastChangeNodeCID",
        ofString "compactedCount", signatureName,
        ofString "timestamp"].Nodup)
    · exact (by decide : [stateName, ofString "lastChangeNodeCID",
        ofString "compactedCount", signatureName, publicKeyName,
        ofString "timestamp"].Nodup)
  · intro p hp j hj
    obtain rfl | rfl | rfl | ⟨hstate, hsignature, j', hj', hdistinct⟩ :=
      hmem p hp
    · cases hj
    · cases hj
    · cases hj
    · rw [hj'] at hj
      exact ⟨hstate, hsignature, SnapshotValue.json.inj hj ▸ hdistinct⟩
  · intro p hp b hb
    obtain rfl | rfl | rfl | ⟨-, -, j', hj', -⟩ := hmem p hp
    · exact Or.inl rfl
    · exact Or.inr rfl
    · cases hb
    · rw [hj'] at hb
      cases hb
  · intro p hp hkey
    obtain rfl | rfl | rfl | ⟨-, -, j', hj', -⟩ := hmem p hp
    · cases hkey
    · cases hkey
    · rfl
    · rw [hj'] at hkey
      cases hkey

theorem SentMessage.wellFormed (s : SentMessage) :
    s.fields.WellFormed := by
  refine ⟨?_, ?_, ?_, ?_⟩
  · intro node hnode
    obtain ⟨root, -, rfl⟩ := Option.map_eq_some_iff.1 hnode
    exact root.2.2.wellFormed
  · intro members h
    cases h
  · intro b h
    cases h
  · intro snapshot h
    obtain ⟨node, -, rfl⟩ := Option.map_eq_some_iff.1 h
    exact node.wellFormed

/-- The fields in the order in which the receiver sets them, without the
signature. -/
def rebuiltFields : List SyncField :=
  SyncField.received.filter (· ≠ .signature)

section Survival

variable {base64 : Base64} {s : SentMessage} {m : SyncMessage}

theorem wellFormed_withoutSignature :
    m.withoutSignature.WellFormed ↔ m.WellFormed :=
  ⟨fun h => ⟨h.changes, h.pathUpdate, h.tipsHash, h.snapshot⟩,
    fun h => ⟨h.changes, h.pathUpdate, h.tipsHash, h.snapshot⟩⟩

theorem received_eq (hm : m.withoutSignature = s.message) :
    { m.received base64 with signature := none } = s.fields.received base64 := by
  have hfields : { m.toSyncFields with signature := none } = s.fields :=
    congrArg SyncMessage.toSyncFields hm
  rw [← hfields]
  rfl

/-- The object the receiver serializes. -/
theorem wireMembers_rebuilt (hm : m.withoutSignature = s.message) :
    (m.received base64).build.withoutSignature.wireMembers base64 =
      FieldOrder.entries SyncField.name
        ((s.fields.received base64).wireValue base64) rebuiltFields := by
  rw [wireMembers_eq]
  change FieldOrder.entries SyncField.name
    (SyncFields.wireValue base64 { m.received base64 with signature := none })
    ((SyncField.received.filter (m.received base64).holds).filter
      (· ≠ .signature)) = _
  rw [List.filter_comm, ← received_eq hm]
  refine FieldOrder.entries_filter SyncField.name ?_
  intro f hf
  have hne : f ≠ .signature := of_decide_eq_true (List.mem_filter.1 hf).2
  rw [holds_eq_isSome_wireValue base64]
  cases f with
  | signature => exact absurd rfl hne
  | _ => rfl

/-- The object the sender serializes. -/
theorem wireMembers_signed (hm : m.withoutSignature = s.message) :
    m.withoutSignature.wireMembers base64 =
      FieldOrder.entries SyncField.name (s.fields.wireValue base64)
        SentMessage.sentOrder := by
  rw [wireMembers_eq, hm]
  exact FieldOrder.entries_filter SyncField.name fun f _ =>
    holds_eq_isSome_wireValue base64 s.fields f

theorem holds_received (base64 : Base64) (s : SentMessage) (f : SyncField) :
    ((s.fields.received base64).wireValue base64 f).isSome =
      s.fields.holds f := by
  rw [← holds_eq_isSome_wireValue]
  cases f with
  | changes => exact Option.isSome_map
  | snapshot => exact Option.isSome_map
  | _ => rfl

theorem wireValue_received {f : SyncField} (hf : f ≠ .changes) :
    (s.fields.received base64).wireValue base64 f =
      s.fields.wireValue base64 f := by
  cases f with
  | changes => exact absurd rfl hf
  | snapshot =>
      change ((s.fields.snapshot.map (receivedSnapshot base64)).map
        fun s => Json.obj (snapshotJson base64 s)) = _
      simp only [Option.map_map, Function.comp_def, snapshotJson_received]
      rfl
  | _ => rfl

/-- The tree keeps its text exactly if its root has no children. -/
theorem wireValue_changes_iff :
    (s.fields.received base64).wireValue base64 .changes =
        s.fields.wireValue base64 .changes ↔
      ∀ root, s.root = some root → root.2.1.hasChildren = false := by
  rcases hroot : s.root with _ | root
  · simp [SyncFields.wireValue, SyncFields.received, SentMessage.fields, hroot]
  · have hiff := root.2.2.toJson_rebuilt_iff base64
    simp only [SyncFields.wireValue, SyncFields.received, SentMessage.fields,
      hroot, Option.map_some, Option.some.injEq, forall_eq']
    exact hiff

/-- The fields a message holds, by what it was built of. -/
def heldFields (root keychainChanges snapshot tips : Bool) : SyncField → Bool
  | .documentId => true
  | .changeId => root
  | .changes => root
  | .keychainChanges => keychainChanges
  | .snapshot => snapshot
  | .tips => tips
  | _ => false

theorem holds_eq_heldFields (s : SentMessage) :
    s.fields.holds = heldFields s.root.isSome s.keychainChanges.isSome
      s.snapshot.isSome s.tips.isSome := by
  funext f
  cases f with
  | changeId => exact Option.isSome_map
  | changes => exact Option.isSome_map
  | snapshot => exact Option.isSome_map
  | _ => rfl

/-- The receiver sets the fields in the sender's order exactly if the message
does not hold both a snapshot and tips. -/
theorem filter_rebuiltFields_iff (s : SentMessage) :
    rebuiltFields.filter s.fields.holds =
        SentMessage.sentOrder.filter s.fields.holds ↔
      ¬(s.snapshot.isSome = true ∧ s.tips.isSome = true) := by
  have hall : ∀ root keychainChanges snapshot tips : Bool,
      rebuiltFields.filter (heldFields root keychainChanges snapshot tips) =
        SentMessage.sentOrder.filter
          (heldFields root keychainChanges snapshot tips) ↔
      ¬(snapshot = true ∧ tips = true) := by decide
  rw [holds_eq_heldFields]
  exact hall _ _ _ _

/-- The objects agree exactly if the root of the tree has no children and the
message does not hold both a snapshot and tips. -/
theorem entries_rebuilt_iff :
    FieldOrder.entries SyncField.name
        ((s.fields.received base64).wireValue base64) rebuiltFields =
      FieldOrder.entries SyncField.name (s.fields.wireValue base64)
        SentMessage.sentOrder ↔
      (∀ root, s.root = some root → root.2.1.hasChildren = false) ∧
        ¬(s.snapshot.isSome = true ∧ s.tips.isSome = true) := by
  rw [← wireValue_changes_iff, ← filter_rebuiltFields_iff]
  constructor
  · intro h
    constructor
    · have hlookup := congrArg (List.lookup SyncField.changes.name) h
      rw [FieldOrder.lookup_entries syncField_name_injective,
        FieldOrder.lookup_entries syncField_name_injective,
        if_pos (by decide), if_pos (by decide)] at hlookup
      exact hlookup
    · have hkeys := congrArg (List.map Prod.fst) h
      rw [FieldOrder.map_fst_entries, FieldOrder.map_fst_entries] at hkeys
      have horder := List.map_injective_iff.2 syncField_name_injective hkeys
      rw [funext (holds_received base64 s),
        ← funext (holds_eq_isSome_wireValue base64 s.fields)] at horder
      exact horder
  · rintro ⟨hchanges, horder⟩
    have hvalue : (s.fields.received base64).wireValue base64 =
        s.fields.wireValue base64 := by
      funext f
      by_cases hf : f = .changes
      · rw [hf]
        exact hchanges
      · exact wireValue_received hf
    rw [hvalue]
    have hholds : ∀ f, s.fields.holds f =
        (s.fields.wireValue base64 f).isSome :=
      holds_eq_isSome_wireValue base64 s.fields
    rw [← FieldOrder.entries_filter SyncField.name fun f _ => hholds f, horder,
      FieldOrder.entries_filter SyncField.name fun f _ => hholds f]

end Survival

theorem rebuiltBytes_iff {base64 : Base64} (hbase64 : base64.Inverts)
    (s : SentMessage) (m : SyncMessage)
    (hm : m.withoutSignature = s.message) :
    rebuiltBytes base64 m = .ok (signedBytes base64 m) ↔
      (∀ root, s.root = some root → root.2.1.hasChildren = false) ∧
        ¬(s.snapshot.isSome = true ∧ s.tips.isSome = true) := by
  have hsigned : m.withoutSignature.WellFormed := by
    rw [hm]
    exact s.wellFormed
  have hwf := wellFormed_withoutSignature.1 hsigned
  have hreceived : (m.received base64).build.withoutSignature.WellFormed :=
    wellFormed_withoutSignature.2 hwf.received
  have hrebuilt : rebuiltBytes base64 m = .ok (serializeSyncMessage base64
      (m.received base64).build.withoutSignature) := by
    rw [rebuiltBytes, deserializeSyncMessage_serialize hbase64 hwf]
    rfl
  rw [hrebuilt, Except.ok.injEq, signedBytes, ← entries_rebuilt_iff (s := s),
    ← wireMembers_rebuilt hm, ← wireMembers_signed hm]
  constructor
  · exact wireMembers_eq_of_serialize_eq hreceived hsigned
  · intro h
    rw [serializeSyncMessage, serializeSyncMessage, h]

/-! ## The messages of the source -/

section Source

variable {documentPath : JsString} {last : Option SyncMessage}

/-- An update message that hangs `tree` below the document. -/
structure IsUpdate (documentPath cid : JsString) (tree : NodeObject Bytes)
    (m : SyncMessage) : Prop where
  fields : m.withoutSignature.toSyncFields =
    { (SyncMessage.initial documentPath).toSyncFields with
      changeId := some cid
      changes := some tree }
  order : m.order = [.documentId, .changeId, .changes, .signature]

theorem IsUpdate.previousTree {cid : JsString} {tree : NodeObject Bytes}
    {m : SyncMessage} (h : IsUpdate documentPath cid tree m) :
    previousTree m = some (cid, tree) := by
  have hcid : m.changeId = some cid := congrArg SyncFields.changeId h.fields
  have htree : m.changes = some tree := congrArg SyncFields.changes h.fields
  rw [Wire.previousTree, hcid, htree]

theorem isUpdate_first (documentPath hash : JsString) (kind : NodeKind) (change : Bytes)
    (tips : List (JsString × NodeKind)) (signature : JsString) :
    IsUpdate documentPath hash (makeChangeNode kind change none tips)
      (updateMessage documentPath none hash kind change tips signature) :=
  ⟨rfl, rfl⟩

theorem IsUpdate.next {cid : JsString} {tree : NodeObject Bytes}
    {m : SyncMessage} (h : IsUpdate documentPath cid tree m) (hash : JsString)
    (kind : NodeKind) (change : Bytes) (tips : List (JsString × NodeKind))
    (signature : JsString) :
    IsUpdate documentPath hash
      (makeChangeNode kind change (some (cid, tree)) tips)
      (updateMessage documentPath (some m) hash kind change tips signature) := by
  constructor
  · change { m.withoutSignature.toSyncFields with
      changeId := some hash
      changes := some
        (makeChangeNode kind change (Wire.previousTree m) tips) } = _
    rw [h.fields, h.previousTree]
  · change FieldOrder.touch (FieldOrder.touch
      (FieldOrder.touch m.order .changeId) .changes) .signature = _
    rw [h.order]
    rfl

/-- While local changes are made, `_lastSyncMessage` holds a tree made by
`_makeChange`. -/
theorem LastSyncMessage.isUpdate (hlast : LastSyncMessage documentPath last) :
    ∀ m, last = some m →
      ∃ cid tree, Made tree ∧ IsUpdate documentPath cid tree m := by
  induction hlast with
  | unset =>
      intro m hm
      cases hm
  | @changed last hlast hash kind change tips signature ih =>
      intro m hm
      obtain rfl := Option.some.inj hm
      rcases last with _ | m
      · exact ⟨hash, _, .first kind change tips,
          isUpdate_first documentPath hash kind change tips signature⟩
      · obtain ⟨cid, tree, htree, hm⟩ := ih m rfl
        exact ⟨hash, _, .next kind change cid tips htree,
          hm.next hash kind change tips signature⟩

theorem withoutSignature_eq_message {m : SyncMessage} {s : SentMessage}
    (hfields : m.withoutSignature.toSyncFields = s.fields)
    (horder : m.withoutSignature.order =
      SentMessage.sentOrder.filter s.fields.holds) :
    m.withoutSignature = s.message := by
  apply SyncMessage.ext
  all_goals first
    | exact horder
    | rw [hfields]; rfl

/-- An update message is one of the messages a sender builds. -/
theorem IsUpdate.sent {cid : JsString} {tree : NodeObject Bytes}
    {m : SyncMessage} (h : IsUpdate documentPath cid tree m)
    (htree : Made tree) :
    m.withoutSignature =
      (SentMessage.mk documentPath (some (cid, ⟨tree, htree⟩)) none none
        none).message := by
  refine withoutSignature_eq_message h.fields ?_
  change m.order.filter _ = _
  rw [h.order]
  rfl

/-- A signature on a broadcast change verifies exactly if the change is the
first one. -/
theorem updateMessage_survives_iff {base64 : Base64}
    (hbase64 : base64.Inverts) (hlast : LastSyncMessage documentPath last)
    (hash : JsString) (kind : NodeKind) (change : Bytes)
    (tips : List (JsString × NodeKind)) (signature : JsString) :
    rebuiltBytes base64
        (updateMessage documentPath last hash kind change tips signature) =
      .ok (signedBytes base64
        (updateMessage documentPath last hash kind change tips signature)) ↔
      last = none := by
  rcases last with _ | m
  · have hsent := (isUpdate_first documentPath hash kind change tips
      signature).sent (.first kind change tips)
    rw [rebuiltBytes_iff hbase64 _ _ hsent]
    simp [makeChangeNode, NodeObject.hasChildren]
  · obtain ⟨cid, tree, htree, hm⟩ := hlast.isUpdate m rfl
    have hsent := (hm.next hash kind change tips signature).sent
      (.next kind change cid tips htree)
    rw [rebuiltBytes_iff hbase64 _ _ hsent]
    simp [makeChangeNode, NodeObject.hasChildren]

/-- A load response is one of the messages a sender builds. -/
theorem loadMessage_sent (hlast : LastSyncMessage documentPath last)
    (keychainChanges : Bytes) (latestSnapshot : Option SnapshotNode)
    (servedFrontier : List JsString) (signature : JsString) :
    ∃ s : SentMessage,
      (loadMessage documentPath last keychainChanges latestSnapshot
        servedFrontier signature).withoutSignature = s.message ∧
      (s.root.map fun r => r.2.1) = (last.bind fun m => m.changes) ∧
      s.snapshot = latestSnapshot ∧ s.tips = some servedFrontier := by
  rcases last with _ | m
  · refine ⟨⟨documentPath, none, some keychainChanges, latestSnapshot,
      some servedFrontier⟩, ?_, rfl, rfl, rfl⟩
    cases latestSnapshot with
    | none => exact withoutSignature_eq_message rfl rfl
    | some snapshot => exact withoutSignature_eq_message rfl rfl
  · obtain ⟨cid, tree, htree, hm⟩ := hlast.isUpdate m rfl
    have hchanges : m.changes = some tree :=
      congrArg SyncFields.changes hm.fields
    refine ⟨⟨documentPath, some (cid, ⟨tree, htree⟩), some keychainChanges,
      latestSnapshot, some servedFrontier⟩, ?_, hchanges.symm, rfl, rfl⟩
    cases latestSnapshot with
    | none =>
        apply withoutSignature_eq_message
        · change { m.withoutSignature.toSyncFields with
            keychainChanges := some keychainChanges
            tips := some servedFrontier } = _
          rw [hm.fields]
          rfl
        · change (FieldOrder.touch (FieldOrder.touch (FieldOrder.touch m.order
            .keychainChanges) .tips) .signature).filter _ = _
          rw [hm.order]
          rfl
    | some snapshot =>
        apply withoutSignature_eq_message
        · change { m.withoutSignature.toSyncFields with
            keychainChanges := some keychainChanges
            snapshot := some snapshot.object
            tips := some servedFrontier } = _
          rw [hm.fields]
          rfl
        · change (FieldOrder.touch (FieldOrder.touch (FieldOrder.touch
            (FieldOrder.touch m.order .keychainChanges) .snapshot) .tips)
            .signature).filter _ = _
          rw [hm.order]
          rfl

/-- A signature on a load response verifies exactly if the responder has made
at most one change and holds no snapshot. -/
theorem loadMessage_survives_iff {base64 : Base64} (hbase64 : base64.Inverts)
    (hlast : LastSyncMessage documentPath last) (keychainChanges : Bytes)
    (latestSnapshot : Option SnapshotNode) (servedFrontier : List JsString)
    (signature : JsString) :
    rebuiltBytes base64 (loadMessage documentPath last keychainChanges
        latestSnapshot servedFrontier signature) =
      .ok (signedBytes base64 (loadMessage documentPath last keychainChanges
        latestSnapshot servedFrontier signature)) ↔
      (∀ m tree, last = some m → m.changes = some tree →
        tree.hasChildren = false) ∧ latestSnapshot = none := by
  obtain ⟨s, hsent, hroot, hsnapshot, htips⟩ := loadMessage_sent hlast
    keychainChanges latestSnapshot servedFrontier signature
  rw [rebuiltBytes_iff hbase64 s _ hsent, hsnapshot, htips]
  have htree : (∀ root, s.root = some root → root.2.1.hasChildren = false) ↔
      ∀ m tree, last = some m → m.changes = some tree →
        tree.hasChildren = false := by
    constructor
    · intro h m tree hm htree
      rw [hm, Option.bind_some, htree] at hroot
      obtain ⟨root, hsome, rfl⟩ := Option.map_eq_some_iff.1 hroot
      exact h root hsome
    · intro h root hsome
      rw [hsome, Option.map_some] at hroot
      obtain ⟨m, hm, htree⟩ := Option.bind_eq_some_iff.1 hroot.symm
      exact h m root.2.1 hm htree
  rw [htree]
  cases latestSnapshot with
  | none => simp
  | some snapshot => simp

end Source

/-! ## When the signature survives -/

/-- The receiver rebuilds the bytes the sender signed exactly if the root of
the tree has no children and the message does not hold both a snapshot and
tips: for a broadcast change, if it is the first one, and for a load response,
if at most one change was made and there is no snapshot. -/
theorem signature_survives_iff {base64 : Base64} (hbase64 : base64.Inverts) :
    (∀ (s : SentMessage) (m : SyncMessage), m.withoutSignature = s.message →
      (rebuiltBytes base64 m = .ok (signedBytes base64 m) ↔
        (∀ root, s.root = some root → root.2.1.hasChildren = false) ∧
          ¬(s.snapshot.isSome = true ∧ s.tips.isSome = true))) ∧
    (∀ documentPath last, LastSyncMessage documentPath last →
      ∀ hash kind change tips signature,
        (rebuiltBytes base64
            (updateMessage documentPath last hash kind change tips signature) =
          .ok (signedBytes base64
            (updateMessage documentPath last hash kind change tips
              signature)) ↔ last = none)) ∧
    ∀ documentPath last, LastSyncMessage documentPath last →
      ∀ keychainChanges latestSnapshot servedFrontier signature,
        (rebuiltBytes base64 (loadMessage documentPath last keychainChanges
            latestSnapshot servedFrontier signature) =
          .ok (signedBytes base64 (loadMessage documentPath last
            keychainChanges latestSnapshot servedFrontier signature)) ↔
          (∀ m tree, last = some m → m.changes = some tree →
            tree.hasChildren = false) ∧ latestSnapshot = none) := by
  refine ⟨rebuiltBytes_iff hbase64, ?_, ?_⟩
  · intro documentPath last hlast
    exact updateMessage_survives_iff hbase64 hlast
  · intro documentPath last hlast
    exact loadMessage_survives_iff hbase64 hlast

/-- One code unit for each byte: on the empty byte string this is Base64. -/
def unitPerByte : Base64 where
  fromUint8Array b := b.map fun byte => UInt16.ofNat byte.toNat
  toUint8Array s := some (s.map fun u => UInt8.ofNat u.toNat)

theorem unitPerByte_inverts : unitPerByte.Inverts := by
  intro b
  simp [unitPerByte, Function.comp_def]

/-- The message of a first change. -/
def firstChange : SyncMessage :=
  updateMessage (ofString "/doc") none (ofString "a") .document [] []
    (ofString "s")

/-- The message of the change after it. -/
def secondChange : SyncMessage :=
  updateMessage (ofString "/doc") (some firstChange) (ofString "b") .document
    [] [] (ofString "s")

theorem firstChange_last :
    LastSyncMessage (ofString "/doc") (some firstChange) :=
  .changed .unset (ofString "a") .document [] [] (ofString "s")

/-- The signature of a first change survives and that of a second one does
not. -/
theorem signature_survives_first_change :
    rebuiltBytes unitPerByte firstChange =
        .ok (signedBytes unitPerByte firstChange) ∧
      rebuiltBytes unitPerByte secondChange ≠
        .ok (signedBytes unitPerByte secondChange) := by
  have hupdate := (signature_survives_iff unitPerByte_inverts).2.1
  constructor
  · exact (hupdate _ none .unset _ .document [] [] _).2 rfl
  · intro h
    have hnone := (hupdate _ _ firstChange_last _ .document [] [] _).1 h
    cases hnone

/-- The second change of a document is rebuilt with other bytes. -/
theorem signature_lost_on_second_change :
    ¬∀ base64 : Base64, base64.Inverts → ∀ (s : SentMessage) (m : SyncMessage),
      m.withoutSignature = s.message →
        rebuiltBytes base64 m = .ok (signedBytes base64 m) := by
  intro h
  have hsent := ((isUpdate_first (ofString "/doc") (ofString "a") .document []
    [] (ofString "s")).next (ofString "b") .document [] []
    (ofString "s")).sent (.next .document [] (ofString "a") []
      (.first .document [] []))
  have hsurvives := h unitPerByte unitPerByte_inverts _ secondChange hsent
  have hnone := (updateMessage_survives_iff unitPerByte_inverts
    firstChange_last _ .document [] [] _).1 hsurvives
  cases hnone

end Collabswarm.Wire
