import Mathlib.Tactic
import Collabswarm.Merkle.Walkers
import Collabswarm.Wire.AcceptedMessages

/-!
# Signatures of a document that syncs

`_lastSyncMessage` is replaced by local changes, by received trees that hold the
previous root, and by the value it had before a commit that failed; pruning
changes its tree.  A received tree is adopted into an object that lists `tips`
from then on, in front of the fields that a load response sets.
-/

namespace Collabswarm.Wire

open Document (NodeKind)
open JsString (ofString)
open Merkle (ChangeTree NodeData treeContainsCid)

/-! ## Adopting a received tree -/

section Trees

variable {α : Type}

/-- The empty string. -/
instance emptyCid : Bot JsString := ⟨[]⟩

mutual

/-- The nodes of a tree with their kinds and payloads. -/
def NodeObject.tree : NodeObject α → ChangeTree JsString (NodeData α)
  | .mk _ kind _ change children => .node ⟨kind, change⟩ (childTrees children)

/-- The same below a node. -/
def childTrees : ChildMap α → Merkle.ChildMap JsString (NodeData α)
  | .absent => .absent
  | .deferred => .deferred
  | .present nodes => .present (nodeTrees nodes)

/-- The same for the entries of a map of children. -/
def nodeTrees : List (JsString × NodeObject α) →
    Merkle.ChildEntries JsString (NodeData α)
  | [] => .nil
  | (hash, child) :: nodes => .cons hash child.tree (nodeTrees nodes)

end

end Trees

namespace SyncMessage

def clearSignature (m : SyncMessage) : SyncMessage :=
  m.assign .signature { m.toSyncFields with signature := none } (by
    intro g hg
    cases g with
    | signature => exact Or.inr rfl
    | _ => exact Or.inl hg)

def clearTips (m : SyncMessage) : SyncMessage :=
  m.assign .tips { m.toSyncFields with tips := none } (by
    intro g hg
    cases g with
    | tips => exact Or.inr rfl
    | _ => exact Or.inl hg)

def clearTipsHash (m : SyncMessage) : SyncMessage :=
  m.assign .tipsHash { m.toSyncFields with tipsHash := none } (by
    intro g hg
    cases g with
    | tipsHash => exact Or.inr rfl
    | _ => exact Or.inl hg)

end SyncMessage

/-- The message with a received tree: the fields of a response are set to
`undefined`, not removed. -/
def adoptTree (documentPath : JsString) (lastSyncMessage : Option SyncMessage)
    (receivedChangeId : JsString) (receivedChanges : NodeObject Bytes) :
    SyncMessage :=
  let m := createSyncMessage documentPath lastSyncMessage
  ((m.setChangeId receivedChangeId).setChanges
    receivedChanges).clearSignature.clearTips.clearTipsHash

/-- `_refreshLastSyncMessageFromSync`. -/
def refreshLastSyncMessageFromSync (documentPath : JsString)
    (lastSyncMessage : Option SyncMessage) (receivedChangeId : JsString)
    (receivedChanges : NodeObject Bytes) : Option SyncMessage :=
  let adopted :=
    adoptTree documentPath lastSyncMessage receivedChangeId receivedChanges
  if receivedChangeId = ⊥ then lastSyncMessage
  else
    match (lastSyncMessage.bind fun m => m.changeId).filter (· ≠ ⊥) with
    | none => some adopted
    | some priorChangeId =>
        if priorChangeId = receivedChangeId then lastSyncMessage
        else if treeContainsCid (some receivedChangeId)
            (some receivedChanges.tree) (some priorChangeId) then some adopted
        else lastSyncMessage

/-- The message `handleSnapshotLoadRequestData` signs and sends. -/
def snapshotMessage (documentPath : JsString)
    (lastSyncMessage : Option SyncMessage) (latestSnapshot : SnapshotNode)
    (keychainChanges : Bytes) (servedFrontier : List JsString)
    (signature : JsString) : SyncMessage :=
  let m := createSyncMessage documentPath lastSyncMessage
  (((m.setSnapshot latestSnapshot.object).setKeychainChanges
    keychainChanges).setTips servedFrontier).setSignature signature

/-- The values `_lastSyncMessage` takes, and whether there is a snapshot.  A
value that is restored when a commit fails was taken before.  What is pruned is
not followed further than that the tree can be sent. -/
inductive ServedMessage (documentPath : JsString) :
    Bool → Option SyncMessage → Prop
  | unset : ServedMessage documentPath false none
  | changed {hasSnapshot : Bool} {last : Option SyncMessage}
      (hlast : ServedMessage documentPath hasSnapshot last)
      (hash : JsString) (kind : NodeKind) (change : Bytes)
      (tips : List (JsString × NodeKind)) (signature : JsString) :
      ServedMessage documentPath hasSnapshot (some
        (updateMessage documentPath last hash kind change tips signature))
  | synced {hasSnapshot : Bool} {last : Option SyncMessage}
      (hlast : ServedMessage documentPath hasSnapshot last)
      (receivedChangeId : JsString) {receivedChanges : NodeObject Bytes}
      (hreceived : receivedChanges.WellFormed) :
      ServedMessage documentPath hasSnapshot (refreshLastSyncMessageFromSync
        documentPath last receivedChangeId receivedChanges)
  | snapshot {hasSnapshot : Bool} {last : Option SyncMessage}
      (hlast : ServedMessage documentPath hasSnapshot last) :
      ServedMessage documentPath true last
  | pruned {m : SyncMessage}
      (hlast : ServedMessage documentPath true (some m))
      {changes : NodeObject Bytes} (hchanges : changes.WellFormed) :
      ServedMessage documentPath true (some (m.setChanges changes))

/-! ## The shape of the message -/

/-- The order of the fields without and with an adopted tree. -/
def localOrder : List SyncField :=
  [.documentId, .changeId, .changes, .signature]

/-- The order of the fields after a tree was adopted. -/
def adoptedOrder : List SyncField := localOrder ++ [.tips, .tipsHash]

/-- A message that holds the path, a root and its tree besides a signature. -/
structure HoldsRoot (documentPath cid : JsString) (tree : NodeObject Bytes)
    (m : SyncMessage) : Prop where
  fields : m.withoutSignature.toSyncFields =
    { (SyncMessage.initial documentPath).toSyncFields with
      changeId := some cid
      changes := some tree }
  order : m.order = localOrder ∨ m.order = adoptedOrder
  wellFormed : tree.WellFormed

section Shape

variable {documentPath cid : JsString} {tree : NodeObject Bytes}
  {m : SyncMessage}

theorem HoldsRoot.previousTree (h : HoldsRoot documentPath cid tree m) :
    previousTree m = some (cid, tree) := by
  have hcid : m.changeId = some cid := congrArg SyncFields.changeId h.fields
  have htree : m.changes = some tree := congrArg SyncFields.changes h.fields
  rw [Wire.previousTree, hcid, htree]

theorem wellFormed_makeChangeNode (kind : NodeKind) (change : Bytes)
    {previous : Option (JsString × NodeObject Bytes)}
    (hprevious : ∀ p, previous = some p → p.2.WellFormed)
    (tips : List (JsString × NodeKind)) :
    (makeChangeNode kind change previous tips).WellFormed := by
  rcases previous with _ | parent
  · refine ⟨by decide, ?_, trivial⟩
    intro f hf
    cases f with
    | keyID => exact absurd rfl hf
    | children => exact absurd rfl hf
    | _ => decide
  · refine ⟨by decide, ?_, ?_⟩
    · intro f hf
      cases f with
      | keyID => exact absurd rfl hf
      | _ => decide
    · exact wellFormed_foldl_linkTip tips _ (List.nodup_singleton _)
        ⟨hprevious parent rfl, trivial⟩

theorem wellFormed_root (documentPath cid : JsString)
    {tree : NodeObject Bytes} (htree : tree.WellFormed) :
    SyncFields.WellFormed
      { (SyncMessage.initial documentPath).toSyncFields with
        changeId := some cid
        changes := some tree } := by
  refine ⟨?_, ?_, ?_, ?_⟩
  · intro node hnode
    obtain rfl := Option.some.inj hnode
    exact htree
  · intro members hmembers
    cases hmembers
  · intro b hb
    cases hb
  · intro s hs
    cases hs

theorem holdsRoot_first (hash : JsString) (kind : NodeKind) (change : Bytes)
    (tips : List (JsString × NodeKind)) (signature : JsString) :
    HoldsRoot documentPath hash (makeChangeNode kind change none tips)
      (updateMessage documentPath none hash kind change tips signature) :=
  ⟨rfl, Or.inl rfl, wellFormed_makeChangeNode kind change (by simp) tips⟩

theorem HoldsRoot.changed (h : HoldsRoot documentPath cid tree m)
    (hash : JsString) (kind : NodeKind) (change : Bytes)
    (tips : List (JsString × NodeKind)) (signature : JsString) :
    HoldsRoot documentPath hash
      (makeChangeNode kind change (some (cid, tree)) tips)
      (updateMessage documentPath (some m) hash kind change tips
        signature) := by
  refine ⟨?_, ?_, wellFormed_makeChangeNode kind change ?_ tips⟩
  · change { m.withoutSignature.toSyncFields with
      changeId := some hash
      changes := some
        (makeChangeNode kind change (Wire.previousTree m) tips) } = _
    rw [h.fields, h.previousTree]
  · change FieldOrder.touch (FieldOrder.touch
      (FieldOrder.touch m.order .changeId) .changes) .signature = _ ∨
      FieldOrder.touch (FieldOrder.touch
        (FieldOrder.touch m.order .changeId) .changes) .signature = _
    rcases h.order with horder | horder
    · rw [horder]
      exact Or.inl rfl
    · rw [horder]
      exact Or.inr rfl
  · rintro p hp
    obtain rfl := Option.some.inj hp
    exact h.wellFormed

theorem holdsRoot_adoptTree {last : Option SyncMessage}
    (h : ∀ m, last = some m → ∃ cid tree, HoldsRoot documentPath cid tree m)
    (receivedChangeId : JsString) {receivedChanges : NodeObject Bytes}
    (hreceived : receivedChanges.WellFormed) :
    HoldsRoot documentPath receivedChangeId receivedChanges
        (adoptTree documentPath last receivedChangeId receivedChanges) ∧
      (adoptTree documentPath last receivedChangeId receivedChanges).order =
        adoptedOrder := by
  rcases last with _ | m
  · exact ⟨⟨rfl, Or.inr rfl, hreceived⟩, rfl⟩
  · obtain ⟨cid, tree, hm⟩ := h m rfl
    have horder : (adoptTree documentPath (some m) receivedChangeId
        receivedChanges).order = adoptedOrder := by
      change FieldOrder.touch (FieldOrder.touch (FieldOrder.touch
        (FieldOrder.touch (FieldOrder.touch m.order .changeId) .changes)
        .signature) .tips) .tipsHash = _
      rcases hm.order with horder | horder
      · rw [horder]
        rfl
      · rw [horder]
        rfl
    refine ⟨⟨?_, Or.inr horder, hreceived⟩, horder⟩
    change { m.withoutSignature.toSyncFields with
      changeId := some receivedChangeId
      changes := some receivedChanges
      tips := none
      tipsHash := none } = _
    rw [hm.fields]
    rfl

theorem refreshLastSyncMessageFromSync_cases (documentPath : JsString)
    (last : Option SyncMessage) (receivedChangeId : JsString)
    (receivedChanges : NodeObject Bytes) :
    refreshLastSyncMessageFromSync documentPath last receivedChangeId
        receivedChanges = last ∨
      refreshLastSyncMessageFromSync documentPath last receivedChangeId
        receivedChanges = some (adoptTree documentPath last receivedChangeId
          receivedChanges) := by
  rw [refreshLastSyncMessageFromSync]
  split
  · exact Or.inl rfl
  · split
    · exact Or.inr rfl
    · split
      · exact Or.inl rfl
      · split
        · exact Or.inr rfl
        · exact Or.inl rfl

/-- A document that has a message has a root in it. -/
theorem ServedMessage.holdsRoot {hasSnapshot : Bool}
    {last : Option SyncMessage}
    (hlast : ServedMessage documentPath hasSnapshot last) :
    ∀ m, last = some m → ∃ cid tree, HoldsRoot documentPath cid tree m := by
  induction hlast with
  | unset =>
      intro m hm
      cases hm
  | @changed _ last _ hash kind change tips signature ih =>
      intro m hm
      obtain rfl := Option.some.inj hm
      rcases last with _ | m
      · exact ⟨hash, _, holdsRoot_first hash kind change tips signature⟩
      · obtain ⟨cid, tree, hm⟩ := ih m rfl
        exact ⟨hash, _, hm.changed hash kind change tips signature⟩
  | @synced _ last _ receivedChangeId receivedChanges hreceived ih =>
      intro m hm
      rcases refreshLastSyncMessageFromSync_cases documentPath last
        receivedChangeId receivedChanges with hsame | hadopted
      · exact ih m (hsame ▸ hm)
      · rw [hadopted] at hm
        obtain rfl := Option.some.inj hm
        exact ⟨_, _, (holdsRoot_adoptTree ih receivedChangeId hreceived).1⟩
  | snapshot _ ih => exact ih
  | @pruned m _ changes hchanges ih =>
      intro m' hm'
      obtain rfl := Option.some.inj hm'
      obtain ⟨cid, tree, hm⟩ := ih m rfl
      refine ⟨cid, changes, ?_, ?_, hchanges⟩
      · change { m.withoutSignature.toSyncFields with
          changes := some changes } = _
        rw [hm.fields]
      · change FieldOrder.touch m.order .changes = _ ∨
          FieldOrder.touch m.order .changes = _
        rcases hm.order with horder | horder
        · rw [horder]
          exact Or.inl rfl
        · rw [horder]
          exact Or.inr rfl

/-- A document without a snapshot that adopted no tree made the changes in its
message. -/
theorem ServedMessage.local {hasSnapshot : Bool} {last : Option SyncMessage}
    (hlast : ServedMessage documentPath hasSnapshot last)
    (hsnapshot : hasSnapshot = false)
    (htips : ∀ m, last = some m → SyncField.tips ∉ m.order) :
    LastSyncMessage documentPath last := by
  induction hlast with
  | unset => exact .unset
  | @changed _ last hlast hash kind change tips signature ih =>
      apply LastSyncMessage.changed
      apply ih hsnapshot
      rintro m rfl hmem
      apply htips _ rfl
      have hkept : ∀ f, SyncField.tips ∈ FieldOrder.touch (FieldOrder.touch
          (FieldOrder.touch m.order .changeId) .changes) f := by
        intro f
        simp only [FieldOrder.mem_touch]
        exact Or.inl (Or.inl (Or.inl hmem))
      exact hkept .signature
  | @synced _ last hlast receivedChangeId receivedChanges hreceived ih =>
      rcases refreshLastSyncMessageFromSync_cases documentPath last
        receivedChangeId receivedChanges with hsame | hadopted
      · rw [hsame] at htips ⊢
        exact ih hsnapshot htips
      · have horder := (holdsRoot_adoptTree hlast.holdsRoot receivedChangeId
          hreceived).2
        refine absurd ?_ (htips _ hadopted)
        rw [horder]
        decide
  | snapshot _ _ => cases hsnapshot
  | pruned _ _ _ => cases hsnapshot

end Shape

/-! ## The order in which a response is signed -/

section Orders

variable {base64 : Base64} {m : SyncMessage}

theorem holds_fields_received (m : SyncMessage) (f : SyncField) :
    (m.received base64).holds f = m.holds f := by
  cases f with
  | changes => exact Option.isSome_map
  | snapshot => exact Option.isSome_map
  | _ => rfl

theorem holds_withoutSignature (m : SyncMessage) (f : SyncField) :
    m.withoutSignature.holds f =
      (decide (f ≠ .signature) && m.holds f) := by
  cases f <;> simp [SyncMessage.withoutSignature, SyncFields.holds]

/-- A signature that survives was made over the object that the receiver
builds. -/
theorem wireMembers_eq_of_rebuilt (hbase64 : base64.Inverts)
    (hwf : m.withoutSignature.WellFormed)
    (h : rebuiltBytes base64 m = .ok (signedBytes base64 m)) :
    (m.received base64).build.withoutSignature.wireMembers base64 =
      m.withoutSignature.wireMembers base64 := by
  have hm := wellFormed_withoutSignature.1 hwf
  rw [rebuiltBytes, deserializeSyncMessage_serialize hbase64 hm] at h
  exact wireMembers_eq_of_serialize_eq
    (wellFormed_withoutSignature.2 hm.received) hwf (Except.ok.inj h)

/-- The receiver must set the fields in the sender's order. -/
theorem filter_order_eq_of_rebuilt (hbase64 : base64.Inverts)
    (hwf : m.withoutSignature.WellFormed) {held : SyncField → Bool}
    (hheld : ∀ f, m.withoutSignature.holds f = held f)
    (h : rebuiltBytes base64 m = .ok (signedBytes base64 m)) :
    rebuiltFields.filter held =
      (m.order.filter (· ≠ .signature)).filter held := by
  have hwire := wireMembers_eq_of_rebuilt hbase64 hwf h
  rw [wireMembers_eq, wireMembers_eq] at hwire
  have hkeys := congrArg (List.map Prod.fst) hwire
  rw [FieldOrder.map_fst_entries, FieldOrder.map_fst_entries] at hkeys
  have horder := List.map_injective_iff.2 syncField_name_injective hkeys
  simp only [← holds_eq_isSome_wireValue] at horder
  have hsent : m.withoutSignature.order.filter
      (fun f => m.withoutSignature.holds f) =
        (m.order.filter (· ≠ .signature)).filter held :=
    List.filter_congr fun f _ => hheld f
  have hreceived : (m.received base64).build.withoutSignature.order.filter
      (fun f => (m.received base64).build.withoutSignature.holds f) =
        rebuiltFields.filter held := by
    change ((SyncField.received.filter (m.received base64).holds).filter
      (fun f => decide (f ≠ .signature))).filter _ =
        (SyncField.received.filter _).filter held
    simp only [List.filter_filter]
    apply List.filter_congr
    intro f _
    have hholds := holds_withoutSignature (m.received base64).build f
    change _ = (decide (f ≠ .signature) && (m.received base64).holds f)
      at hholds
    rw [hholds, holds_fields_received, ← hheld, holds_withoutSignature]
    cases decide (f ≠ .signature) <;> cases m.holds f <;> rfl
  rw [← hreceived, horder, hsent]

end Orders

/-! ## Responses -/

section Responses

variable {base64 : Base64} {documentPath : JsString}
  {last : Option SyncMessage} {hasSnapshot : Bool}

/-- The orders `_createSyncMessage` starts from. -/
theorem ServedMessage.order_cases
    (hlast : ServedMessage documentPath hasSnapshot last) :
    (last = none ∧ (createSyncMessage documentPath last).order =
        [.documentId]) ∨
      (last.isSome ∧
        ((createSyncMessage documentPath last).order = localOrder ∨
          (createSyncMessage documentPath last).order = adoptedOrder)) := by
  rcases last with _ | m
  · exact Or.inl ⟨rfl, rfl⟩
  · obtain ⟨cid, tree, hm⟩ := hlast.holdsRoot m rfl
    exact Or.inr ⟨rfl, hm.order⟩

/-- The fields of a response besides its signature. -/
def responseFields (m : SyncMessage) (keychainChanges : Bytes)
    (snapshot : Option SnapshotNode) (servedFrontier : List JsString) :
    SyncFields :=
  { m.withoutSignature.toSyncFields with
    keychainChanges := some keychainChanges
    snapshot := snapshot.map SnapshotNode.object
    tips := some servedFrontier }

theorem ServedMessage.holds_responseFields
    (hlast : ServedMessage documentPath hasSnapshot last)
    (keychainChanges : Bytes) (snapshot : Option SnapshotNode)
    (servedFrontier : List JsString) (f : SyncField) :
    (responseFields (createSyncMessage documentPath last) keychainChanges
        snapshot servedFrontier).holds f =
      heldFields last.isSome true snapshot.isSome true f := by
  rcases last with _ | m
  · cases f with
    | snapshot => exact Option.isSome_map
    | _ => rfl
  · obtain ⟨cid, tree, hm⟩ := hlast.holdsRoot m rfl
    have hcreated : (createSyncMessage documentPath (some m)) = m := rfl
    rw [responseFields, hcreated, hm.fields]
    cases f with
    | snapshot => exact Option.isSome_map
    | _ => rfl

theorem ServedMessage.wellFormed_responseFields
    (hlast : ServedMessage documentPath hasSnapshot last)
    (keychainChanges : Bytes) (snapshot : Option SnapshotNode)
    (servedFrontier : List JsString) :
    (responseFields (createSyncMessage documentPath last) keychainChanges
      snapshot servedFrontier).WellFormed := by
  have hsnapshot : ∀ s, snapshot.map SnapshotNode.object = some s →
      SnapshotWellFormed s := by
    intro s hs
    obtain ⟨node, -, rfl⟩ := Option.map_eq_some_iff.1 hs
    exact node.wellFormed
  rcases last with _ | m
  · refine ⟨?_, ?_, ?_, hsnapshot⟩
    · intro node hnode
      cases hnode
    · intro members hmembers
      cases hmembers
    · intro b hb
      cases hb
  · obtain ⟨cid, tree, hm⟩ := hlast.holdsRoot m rfl
    have hcreated : (createSyncMessage documentPath (some m)) = m := rfl
    have hwf := wellFormed_root documentPath cid hm.wellFormed
    rw [responseFields, hcreated, hm.fields]
    exact ⟨hwf.changes, hwf.pathUpdate, hwf.tipsHash, hsnapshot⟩

theorem fields_loadMessage (last : Option SyncMessage)
    (keychainChanges : Bytes) (latestSnapshot : Option SnapshotNode)
    (servedFrontier : List JsString) (signature : JsString)
    (hnone : (createSyncMessage documentPath last).snapshot = none) :
    (loadMessage documentPath last keychainChanges latestSnapshot
      servedFrontier signature).withoutSignature.toSyncFields =
      responseFields (createSyncMessage documentPath last) keychainChanges
        latestSnapshot servedFrontier := by
  cases latestSnapshot with
  | none =>
      rw [responseFields, Option.map_none, ← hnone]
      rfl
  | some snapshot => rfl

theorem order_loadMessage (last : Option SyncMessage)
    (keychainChanges : Bytes) (latestSnapshot : Option SnapshotNode)
    (servedFrontier : List JsString) (signature : JsString) :
    (loadMessage documentPath last keychainChanges latestSnapshot
      servedFrontier signature).order =
      ([SyncField.keychainChanges] ++
        (latestSnapshot.map fun _ => SyncField.snapshot).toList ++
        [SyncField.tips, SyncField.signature]).foldl FieldOrder.touch
          (createSyncMessage documentPath last).order := by
  cases latestSnapshot with
  | none => rfl
  | some snapshot => rfl

theorem ServedMessage.snapshot_eq_none
    (hlast : ServedMessage documentPath hasSnapshot last) :
    (createSyncMessage documentPath last).snapshot = none := by
  rcases last with _ | m
  · rfl
  · obtain ⟨cid, tree, hm⟩ := hlast.holdsRoot m rfl
    exact congrArg SyncFields.snapshot hm.fields

/-- A response whose fields are not in the receiver's order. -/
theorem ServedMessage.lost_of_order (hbase64 : base64.Inverts)
    (hlast : ServedMessage documentPath hasSnapshot last)
    {keychainChanges : Bytes} {snapshot : Option SnapshotNode}
    {servedFrontier : List JsString} {m : SyncMessage}
    (hfields : m.withoutSignature.toSyncFields =
      responseFields (createSyncMessage documentPath last) keychainChanges
        snapshot servedFrontier)
    (horder : rebuiltFields.filter
        (heldFields last.isSome true snapshot.isSome true) ≠
      (m.order.filter (· ≠ .signature)).filter
        (heldFields last.isSome true snapshot.isSome true)) :
    rebuiltBytes base64 m ≠ .ok (signedBytes base64 m) := by
  intro hrebuilt
  refine horder (filter_order_eq_of_rebuilt hbase64 ?_ ?_ hrebuilt)
  · rw [hfields]
    exact hlast.wellFormed_responseFields keychainChanges snapshot
      servedFrontier
  · intro f
    rw [hfields]
    exact hlast.holds_responseFields keychainChanges snapshot servedFrontier f

/-- A load response that holds a snapshot, or was built on an adopted tree. -/
theorem ServedMessage.loadMessage_lost (hbase64 : base64.Inverts)
    (hlast : ServedMessage documentPath hasSnapshot last)
    (keychainChanges : Bytes) {latestSnapshot : Option SnapshotNode}
    (servedFrontier : List JsString) (signature : JsString)
    (h : latestSnapshot.isSome ∨
      (createSyncMessage documentPath last).order = adoptedOrder) :
    rebuiltBytes base64 (loadMessage documentPath last keychainChanges
        latestSnapshot servedFrontier signature) ≠
      .ok (signedBytes base64 (loadMessage documentPath last keychainChanges
        latestSnapshot servedFrontier signature)) := by
  apply hlast.lost_of_order hbase64 (fields_loadMessage last keychainChanges
    latestSnapshot servedFrontier signature hlast.snapshot_eq_none)
  rw [order_loadMessage]
  cases latestSnapshot with
  | none =>
      have hadopted := h.resolve_left (by simp)
      rcases hlast.order_cases with ⟨-, hnone⟩ | ⟨hsome, -⟩
      · rw [hnone] at hadopted
        exact absurd hadopted (by decide)
      · rw [hadopted, hsome]
        decide
  | some snapshot =>
      rw [Option.map_some, Option.isSome_some]
      rcases hlast.order_cases with ⟨rfl, hnone⟩ | ⟨hsome, hlocal | hadopted⟩
      · rw [hnone]
        decide
      · rw [hlocal, hsome]
        decide
      · rw [hadopted, hsome]
        decide

/-- A snapshot response. -/
theorem ServedMessage.snapshotMessage_lost (hbase64 : base64.Inverts)
    (hlast : ServedMessage documentPath hasSnapshot last)
    (latestSnapshot : SnapshotNode) (keychainChanges : Bytes)
    (servedFrontier : List JsString) (signature : JsString) :
    rebuiltBytes base64 (snapshotMessage documentPath last latestSnapshot
        keychainChanges servedFrontier signature) ≠
      .ok (signedBytes base64 (snapshotMessage documentPath last
        latestSnapshot keychainChanges servedFrontier signature)) := by
  have hfields : (snapshotMessage documentPath last latestSnapshot
      keychainChanges servedFrontier signature).withoutSignature.toSyncFields =
        responseFields (createSyncMessage documentPath last) keychainChanges
          (some latestSnapshot) servedFrontier := rfl
  have horder : (snapshotMessage documentPath last latestSnapshot
      keychainChanges servedFrontier signature).order =
        [SyncField.snapshot, .keychainChanges, .tips, .signature].foldl
          FieldOrder.touch (createSyncMessage documentPath last).order := rfl
  apply hlast.lost_of_order hbase64 hfields
  rw [horder, Option.isSome_some]
  rcases hlast.order_cases with ⟨rfl, hnone⟩ | ⟨hsome, hlocal | hadopted⟩
  · rw [hnone]
    decide
  · rw [hlocal, hsome]
    decide
  · rw [hadopted, hsome]
    decide

/-- A change that hangs below another one is not signed with the properties of
its node in the receiver's order. -/
theorem ServedMessage.updateMessage_survives_iff (hbase64 : base64.Inverts)
    (hlast : ServedMessage documentPath hasSnapshot last) (hash : JsString)
    (kind : NodeKind) (change : Bytes) (tips : List (JsString × NodeKind))
    (signature : JsString) :
    rebuiltBytes base64
        (updateMessage documentPath last hash kind change tips signature) =
      .ok (signedBytes base64
        (updateMessage documentPath last hash kind change tips signature)) ↔
      last = none := by
  rcases last with _ | m
  · exact Wire.updateMessage_survives_iff hbase64 .unset hash kind change tips
      signature
  · refine iff_of_false (fun hrebuilt => ?_) (by simp)
    obtain ⟨cid, tree, hm⟩ := hlast.holdsRoot m rfl
    have hroot := hm.changed hash kind change tips signature
    have hwf : (updateMessage documentPath (some m) hash kind change tips
        signature).withoutSignature.WellFormed := by
      rw [hroot.fields]
      exact wellFormed_root documentPath hash hroot.wellFormed
    have hwire := wireMembers_eq_of_rebuilt hbase64 hwf hrebuilt
    have hchanges := congrArg (List.lookup SyncField.changes.name) hwire
    rw [lookup_wireMembers, lookup_wireMembers, hroot.fields] at hchanges
    have htree : (updateMessage documentPath (some m) hash kind change tips
        signature).changes =
          some (makeChangeNode kind change (some (cid, tree)) tips) :=
      congrArg SyncFields.changes hroot.fields
    change Option.map (fun node => (serializeChangeNodeForJSON
      (bytesJson base64) node).toJson) (Option.map NodeObject.rebuilt
        (updateMessage documentPath (some m) hash kind change tips
          signature).changes) = some _ at hchanges
    rw [htree] at hchanges
    exact absurd (Option.some.inj hchanges)
      (toJson_rebuilt_ne base64 kind change _)

end Responses

/-- Over every history of local changes, synced trees, commits that fail,
snapshots and pruning: the signature on a broadcast change survives exactly if
the document had none before; that on a load response, exactly if there is no
snapshot, no received tree was adopted, and the root of the served tree, if any,
has no children; and that on a snapshot response never does. -/
theorem served_signatures {base64 : Base64} (hbase64 : base64.Inverts)
    {documentPath : JsString} {hasSnapshot : Bool} {last : Option SyncMessage}
    (hlast : ServedMessage documentPath hasSnapshot last) :
    (∀ hash kind change tips signature,
      rebuiltBytes base64
          (updateMessage documentPath last hash kind change tips signature) =
        .ok (signedBytes base64 (updateMessage documentPath last hash kind
          change tips signature)) ↔ last = none) ∧
    (∀ keychainChanges latestSnapshot servedFrontier signature,
      (latestSnapshot = none → hasSnapshot = false) →
        (rebuiltBytes base64 (loadMessage documentPath last keychainChanges
            latestSnapshot servedFrontier signature) =
          .ok (signedBytes base64 (loadMessage documentPath last
            keychainChanges latestSnapshot servedFrontier signature)) ↔
          latestSnapshot = none ∧ ∀ m, last = some m →
            SyncField.tips ∉ m.order ∧
              ∀ tree, m.changes = some tree → tree.hasChildren = false)) ∧
    ∀ latestSnapshot keychainChanges servedFrontier signature,
      rebuiltBytes base64 (snapshotMessage documentPath last latestSnapshot
          keychainChanges servedFrontier signature) ≠
        .ok (signedBytes base64 (snapshotMessage documentPath last
          latestSnapshot keychainChanges servedFrontier signature)) := by
  refine ⟨hlast.updateMessage_survives_iff hbase64, ?_,
    hlast.snapshotMessage_lost hbase64⟩
  intro keychainChanges latestSnapshot servedFrontier signature hsnapshot
  by_cases hlost : latestSnapshot.isSome ∨
      (createSyncMessage documentPath last).order = adoptedOrder
  · refine iff_of_false (hlast.loadMessage_lost hbase64 keychainChanges
      servedFrontier signature hlost) ?_
    rintro ⟨rfl, hkept⟩
    have hadopted := hlost.resolve_left (by simp)
    rcases last with _ | m
    · have horder : (createSyncMessage documentPath none).order =
          [.documentId] := rfl
      rw [horder] at hadopted
      exact absurd hadopted (by decide)
    · have horder : m.order = adoptedOrder := hadopted
      refine (hkept m rfl).1 ?_
      rw [horder]
      decide
  · rw [not_or, Bool.not_eq_true, Option.isSome_eq_false_iff,
      Option.isNone_iff_eq_none] at hlost
    obtain ⟨hnone, hlocal⟩ := hlost
    have htips : ∀ m, last = some m → SyncField.tips ∉ m.order := by
      rintro m rfl
      obtain ⟨cid, tree, hm⟩ := hlast.holdsRoot m rfl
      have horder := hm.order.resolve_right hlocal
      rw [horder]
      decide
    rw [loadMessage_survives_iff hbase64
      (hlast.local (hsnapshot hnone) htips), and_comm]
    refine and_congr_right fun _ => ?_
    constructor
    · intro h m hm
      exact ⟨htips m hm, fun tree => h m tree hm⟩
    · intro h m tree hm
      exact (h m hm).2 tree

/-- A peer that received the first change of a document and serves it: no
loader that knows the writers accepts the signature. -/
theorem served_signatures_relay :
    rebuiltBytes unitPerByte (loadMessage (ofString "/doc")
        (refreshLastSyncMessageFromSync (ofString "/doc") none (ofString "a")
          (makeChangeNode .document [] none [])) [] none [] (ofString "s")) ≠
      .ok (signedBytes unitPerByte (loadMessage (ofString "/doc")
        (refreshLastSyncMessageFromSync (ofString "/doc") none (ofString "a")
          (makeChangeNode .document [] none [])) [] none []
            (ofString "s"))) := by
  have hwf : (makeChangeNode .document [] none []).WellFormed :=
    wellFormed_makeChangeNode .document [] (by simp) []
  intro h
  obtain ⟨-, hkept⟩ := ((served_signatures unitPerByte_inverts
    (.synced .unset (ofString "a") hwf)).2.1 [] none [] (ofString "s")
      (fun _ => rfl)).1 h
  obtain ⟨htips, -⟩ := hkept _ rfl
  exact absurd htips (by decide)

end Collabswarm.Wire
