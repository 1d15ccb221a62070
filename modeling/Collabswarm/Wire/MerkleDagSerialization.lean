import Mathlib.Tactic
import Collabswarm.Document.Sync
import Collabswarm.Support.FieldOrder
import Collabswarm.Support.Json

/-!
# Change trees on the wire

`serializeChangeNodeForJSON` and `deserializeChangeNodeFromJSON`.  A node is an
object that remembers the order in which its properties were set, because
`JSON.stringify` writes them in that order.

The receiver rebuilds a node with its properties in an order of its own.
-/

namespace Collabswarm.Wire

open Document (NodeKind)
open JsString (ofString)

/-- What deserializing a message can throw: a syntax error of `JSON.parse`, a
type error of the language, an error of the Base64 package, or an error with a
text of its own. -/
inductive WireError where
  | syntaxError
  | typeError
  | base64Error
  | invalid (text : String)
deriving DecidableEq, Repr

/-- The properties of a change node. -/
inductive NodeField where
  | kind
  | keyID
  | change
  | children
deriving DecidableEq, Repr

mutual

/-- A change node with the order of its properties; a property that is listed
without a value is `undefined`. -/
inductive NodeObject (α : Type) where
  | mk (order : List NodeField) (kind : NodeKind) (keyID : Option JsString)
      (change : Option α) (children : ChildMap α)

/-- The `children` property: `undefined`, deferred, or a map from CIDs. -/
inductive ChildMap (α : Type) where
  | absent
  | deferred
  | present (nodes : List (JsString × NodeObject α))

end

/-- The name of a property. -/
def NodeField.name : NodeField → JsString
  | .kind => ofString "kind"
  | .keyID => ofString "keyID"
  | .change => ofString "change"
  | .children => ofString "children"

/-- The text of a kind. -/
def kindName : NodeKind → JsString
  | .document => ofString "document"
  | .writer => ofString "writer"
  | .reader => ofString "reader"

/-- `isValidChangeNodeKind`: the kind a value stands for. -/
def isValidChangeNodeKind : Option Json → Option NodeKind
  | some (.str s) =>
      if s = kindName .document then some .document
      else if s = kindName .writer then some .writer
      else if s = kindName .reader then some .reader
      else none
  | _ => none

/-- `describeValue`, of a value that may be `undefined`. -/
def describeValue : Option Json → String
  | none => "undefined"
  | some .null => "null"
  | some (.bool _) => "boolean"
  | some (.num _) => "number"
  | some (.real _) => "number"
  | some (.str _) => "string"
  | some (.arr _) => "array"
  | some (.obj _) => "object"

/-- The text `JSON.stringify` makes of a value that may be `undefined`. -/
def stringifyValue : Option Json → String
  | none => "undefined"
  | some j => String.ofList (Json.stringify j)

/-! ## Writing -/

section Serialize

variable {α β : Type}

mutual

/-- `serializeChangeNodeForJSON`: the node is spread, then `change` and
`children` are set. -/
def serializeChangeNodeForJSON (encodeLeaf : α → β) :
    NodeObject α → NodeObject β
  | .mk order kind keyID change children =>
      .mk (FieldOrder.touch (FieldOrder.touch order .change) .children) kind
        keyID (change.map encodeLeaf) (serializeChildren encodeLeaf children)

/-- The `children` property of the wire node. -/
def serializeChildren (encodeLeaf : α → β) : ChildMap α → ChildMap β
  | .absent => .absent
  | .deferred => .deferred
  | .present nodes => .present (serializeNodes encodeLeaf nodes)

/-- The map of children of the wire node. -/
def serializeNodes (encodeLeaf : α → β) :
    List (JsString × NodeObject α) → List (JsString × NodeObject β)
  | [] => []
  | (hash, child) :: nodes =>
      (hash, serializeChangeNodeForJSON encodeLeaf child) ::
        serializeNodes encodeLeaf nodes

end

/-- The value of a property of a wire node, its children given as JSON. -/
def nodeValue (kind : NodeKind) (keyID : Option JsString)
    (change children : Option Json) : NodeField → Option Json
  | .kind => some (.str (kindName kind))
  | .keyID => keyID.map .str
  | .change => change
  | .children => children

mutual

/-- A wire node as a JSON value. -/
def NodeObject.toJson : NodeObject Json → Json
  | .mk order kind keyID change children =>
      .obj (FieldOrder.entries NodeField.name
        (nodeValue kind keyID change (childrenJson children)) order)

/-- The `children` property as a JSON value. -/
def childrenJson : ChildMap Json → Option Json
  | .absent => none
  | .deferred => some (.bool false)
  | .present nodes => some (.obj (nodesJson nodes))

/-- A map of children as members of a JSON object. -/
def nodesJson : List (JsString × NodeObject Json) → List (JsString × Json)
  | [] => []
  | (hash, child) :: nodes => (hash, child.toJson) :: nodesJson nodes

end

end Serialize

/-! ## Reading -/

section Deserialize

variable {α : Type}

/-- The checks of `kind` and `keyID`. -/
def nodeHeader (members : List (JsString × Json)) :
    Except WireError (NodeKind × Option JsString) :=
  match isValidChangeNodeKind (members.lookup NodeField.kind.name) with
  | none => .error (.invalid (
      "Invalid merkle-dag node: \"kind\" must be one of " ++
      "\"document\", \"writer\", \"reader\" (got " ++
      stringifyValue (members.lookup NodeField.kind.name) ++ ")"))
  | some kind =>
      match members.lookup NodeField.keyID.name with
      | none => .ok (kind, none)
      | some (.str s) => .ok (kind, some s)
      | some j => .error (.invalid (
          "Invalid merkle-dag node: \"keyID\" must be a string when present " ++
          "(got " ++ describeValue (some j) ++ ")"))

/-- The decoded `change`. -/
def nodeChange (decodeLeaf : Json → Except WireError α)
    (members : List (JsString × Json)) : Except WireError (Option α) :=
  match members.lookup NodeField.change.name with
  | none => .ok none
  | some j => (decodeLeaf j).map some

/-- The order in which the receiver sets the properties of a node. -/
def rebuiltOrder (keyID : Option JsString) (change : Option α) :
    ChildMap α → List NodeField
  | .present _ =>
      [.kind, .children] ++ (keyID.map fun _ => NodeField.keyID).toList ++
        (change.map fun _ => NodeField.change).toList
  | .deferred =>
      [.kind] ++ (keyID.map fun _ => NodeField.keyID).toList ++
        (change.map fun _ => NodeField.change).toList ++ [.children]
  | .absent =>
      [.kind] ++ (keyID.map fun _ => NodeField.keyID).toList ++
        (change.map fun _ => NodeField.change).toList

/-- The node the receiver builds from what it has read. -/
def rebuiltNode (kind : NodeKind) (keyID : Option JsString)
    (change : Option α) (children : ChildMap α) : NodeObject α :=
  .mk (rebuiltOrder keyID change children) kind keyID change children

mutual

/-- `deserializeChangeNodeFromJSON`. -/
def deserializeChangeNodeFromJSON (decodeLeaf : Json → Except WireError α) :
    Json → Except WireError (NodeObject α)
  | .obj members =>
      match nodeHeader members with
      | .error e => .error e
      | .ok (kind, keyID) =>
          match nodeChange decodeLeaf members with
          | .error e => .error e
          | .ok change =>
              match childrenIn decodeLeaf members with
              | .error e => .error e
              | .ok children => .ok (rebuiltNode kind keyID change children)
  | j => .error (.invalid (
      "Invalid merkle-dag node: expected a plain object (got " ++
      describeValue (some j) ++ ")"))

/-- The children of the node with the given members. -/
def childrenIn (decodeLeaf : Json → Except WireError α) :
    List (JsString × Json) → Except WireError (ChildMap α)
  | [] => .ok .absent
  | (name, value) :: members =>
      if name = NodeField.children.name then childrenFrom decodeLeaf value
      else childrenIn decodeLeaf members

/-- The children a `children` property stands for. -/
def childrenFrom (decodeLeaf : Json → Except WireError α) :
    Json → Except WireError (ChildMap α)
  | .bool false => .ok .deferred
  | .obj members => (nodesFrom decodeLeaf members).map .present
  | _ => .error (.invalid
      "Invalid merkle-dag node: \"children\" must be an object keyed by hash")

/-- The nodes of a map of children, in its order. -/
def nodesFrom (decodeLeaf : Json → Except WireError α) :
    List (JsString × Json) → Except WireError (List (JsString × NodeObject α))
  | [] => .ok []
  | (hash, .obj members) :: rest =>
      match deserializeChangeNodeFromJSON decodeLeaf (.obj members) with
      | .error e => .error e
      | .ok child =>
          match nodesFrom decodeLeaf rest with
          | .error e => .error e
          | .ok nodes => .ok ((hash, child) :: nodes)
  | (hash, j) :: _ => .error (.invalid (
      "Invalid merkle-dag node: child at key " ++
      stringifyValue (some (.str hash)) ++ " must be a plain object (got " ++
      describeValue (some j) ++ ")"))

end

end Deserialize

/-! ## What the receiver rebuilds -/

section Rebuilt

variable {α β : Type}

/-- The properties that hold a value. -/
def NodeField.Holds (keyID : Option JsString) (change : Option α)
    (children : ChildMap α) : NodeField → Prop
  | .kind => True
  | .keyID => keyID ≠ none
  | .change => change ≠ none
  | .children => children ≠ .absent

mutual

/-- Every node lists each of its properties once and has no two children of
one CID. -/
def NodeObject.WellFormed : NodeObject α → Prop
  | .mk order _ keyID change children =>
      order.Nodup ∧ (∀ f, NodeField.Holds keyID change children f → f ∈ order) ∧
        ChildrenWellFormed children

/-- The same below a node. -/
def ChildrenWellFormed : ChildMap α → Prop
  | .present nodes => (nodes.map Prod.fst).Nodup ∧ NodesWellFormed nodes
  | _ => True

/-- The same for the entries of a map of children. -/
def NodesWellFormed : List (JsString × NodeObject α) → Prop
  | [] => True
  | (_, child) :: nodes => child.WellFormed ∧ NodesWellFormed nodes

end

theorem nodesWellFormed_iff {nodes : List (JsString × NodeObject α)} :
    NodesWellFormed nodes ↔ ∀ p ∈ nodes, p.2.WellFormed := by
  induction nodes with
  | nil => simp [NodesWellFormed]
  | cons p nodes ih => simp [NodesWellFormed, ih]

mutual

/-- A tree with the properties of every node in the receiver's order. -/
def NodeObject.rebuilt : NodeObject α → NodeObject α
  | .mk _ kind keyID change children =>
      rebuiltNode kind keyID change (rebuiltChildren children)

/-- The same below a node. -/
def rebuiltChildren : ChildMap α → ChildMap α
  | .absent => .absent
  | .deferred => .deferred
  | .present nodes => .present (rebuiltNodes nodes)

/-- The same for the entries of a map of children. -/
def rebuiltNodes :
    List (JsString × NodeObject α) → List (JsString × NodeObject α)
  | [] => []
  | (hash, child) :: nodes => (hash, child.rebuilt) :: rebuiltNodes nodes

end

theorem nodeField_name_injective : Function.Injective NodeField.name := by
  intro f g h
  have hnodup : ([NodeField.kind, .keyID, .change, .children].map
      NodeField.name).Nodup := by decide
  have hall : ∀ f : NodeField,
      f ∈ [NodeField.kind, .keyID, .change, .children] := by
    intro f
    cases f <;> decide
  exact List.inj_on_of_nodup_map hnodup (hall f) (hall g) h

theorem isValidChangeNodeKind_kindName (kind : NodeKind) :
    isValidChangeNodeKind (some (.str (kindName kind))) = some kind := by
  cases kind <;> decide

theorem childrenIn_eq (decodeLeaf : Json → Except WireError α)
    (members : List (JsString × Json)) :
    childrenIn decodeLeaf members =
      match members.lookup NodeField.children.name with
      | none => .ok .absent
      | some j => childrenFrom decodeLeaf j := by
  induction members with
  | nil => simp [childrenIn]
  | cons m members ih =>
      obtain ⟨name, value⟩ := m
      rw [childrenIn, InsertionMap.lookup_cons_ite, ih]
      by_cases hname : name = NodeField.children.name
      · simp [hname]
      · simp [hname, Ne.symm hname]

/-- The members of a wire node. -/
def nodeMembers (order : List NodeField) (kind : NodeKind)
    (keyID : Option JsString) (change : Option Json)
    (children : ChildMap Json) : List (JsString × Json) :=
  FieldOrder.entries NodeField.name
    (nodeValue kind keyID change (childrenJson children)) order

theorem childrenJson_serializeChildren_ne_none (encodeLeaf : α → Json)
    {children : ChildMap α}
    (h : childrenJson (serializeChildren encodeLeaf children) ≠ none) :
    children ≠ .absent := by
  rintro rfl
  exact h (by simp [serializeChildren, childrenJson])

section Node

variable (encodeLeaf : α → Json) {order : List NodeField} (kind : NodeKind)
  {keyID : Option JsString} {change : Option α} {children : ChildMap α}

theorem mem_order_of_nodeValue
    (hholds : ∀ f, NodeField.Holds keyID change children f → f ∈ order)
    {f : NodeField}
    (hf : nodeValue kind keyID (change.map encodeLeaf)
      (childrenJson (serializeChildren encodeLeaf children)) f ≠ none) :
    f ∈ order := by
  apply hholds
  cases f with
  | kind => trivial
  | keyID => simpa [nodeValue, NodeField.Holds] using hf
  | change => simpa [nodeValue, NodeField.Holds] using hf
  | children => exact childrenJson_serializeChildren_ne_none encodeLeaf hf

/-- A wire node has the entries of the node it was made of. -/
theorem toJson_serialize
    (hholds : ∀ f, NodeField.Holds keyID change children f → f ∈ order) :
    (serializeChangeNodeForJSON encodeLeaf
      (.mk order kind keyID change children)).toJson =
      .obj (nodeMembers order kind keyID (change.map encodeLeaf)
        (serializeChildren encodeLeaf children)) := by
  have hmem := fun f =>
    mem_order_of_nodeValue encodeLeaf kind hholds (f := f)
  rw [serializeChangeNodeForJSON, NodeObject.toJson, nodeMembers]
  exact congrArg Json.obj (FieldOrder.entries_foldl_touch NodeField.name
    [.change, .children] hmem)

theorem lookup_nodeMembers
    (hholds : ∀ f, NodeField.Holds keyID change children f → f ∈ order)
    (f : NodeField) :
    (nodeMembers order kind keyID (change.map encodeLeaf)
      (serializeChildren encodeLeaf children)).lookup f.name =
      nodeValue kind keyID (change.map encodeLeaf)
        (childrenJson (serializeChildren encodeLeaf children)) f := by
  rw [nodeMembers, FieldOrder.lookup_entries nodeField_name_injective]
  split_ifs with hf
  · rfl
  · by_contra hne
    exact hf (mem_order_of_nodeValue encodeLeaf kind hholds (Ne.symm hne))

end Node

theorem nodup_rebuiltOrder (keyID : Option JsString) (change : Option α)
    (children : ChildMap α) : (rebuiltOrder keyID change children).Nodup := by
  cases keyID <;> cases change <;> cases children <;> simp [rebuiltOrder]

theorem mem_rebuiltOrder {keyID : Option JsString} {change : Option α}
    {children : ChildMap α} {f : NodeField}
    (h : NodeField.Holds keyID change children f) :
    f ∈ rebuiltOrder keyID change children := by
  cases keyID <;> cases change <;> cases children <;> cases f <;>
    simp_all [rebuiltOrder, NodeField.Holds]

mutual

/-- A rebuilt tree can be sent on. -/
theorem wellFormed_rebuilt :
    ∀ node : NodeObject α, node.WellFormed → node.rebuilt.WellFormed
  | .mk order kind keyID change children, hnode => by
      rw [NodeObject.rebuilt, rebuiltNode]
      exact ⟨nodup_rebuiltOrder keyID change _, fun _ => mem_rebuiltOrder,
        wellFormed_rebuiltChildren children hnode.2.2⟩

theorem wellFormed_rebuiltChildren : ∀ children : ChildMap α,
    ChildrenWellFormed children → ChildrenWellFormed (rebuiltChildren children)
  | .absent, _ => by
      rw [rebuiltChildren]
      trivial
  | .deferred, _ => by
      rw [rebuiltChildren]
      trivial
  | .present nodes, hchildren => by
      obtain ⟨hkeys, hnodes⟩ :=
        wellFormed_rebuiltNodes nodes hchildren.2
      rw [rebuiltChildren]
      exact ⟨hkeys ▸ hchildren.1, hnodes⟩

theorem wellFormed_rebuiltNodes : ∀ nodes : List (JsString × NodeObject α),
    NodesWellFormed nodes →
      (rebuiltNodes nodes).map Prod.fst = nodes.map Prod.fst ∧
        NodesWellFormed (rebuiltNodes nodes)
  | [], _ => by
      rw [rebuiltNodes]
      exact ⟨rfl, trivial⟩
  | (hash, child) :: nodes, hnodes => by
      obtain ⟨hkeys, hrest⟩ := wellFormed_rebuiltNodes nodes hnodes.2
      rw [rebuiltNodes]
      refine ⟨?_, wellFormed_rebuilt child hnodes.1, hrest⟩
      rw [List.map_cons, hkeys, List.map_cons]

end

section RoundTrip

variable {encodeLeaf : α → Json} {decodeLeaf : Json → Except WireError α}

theorem childrenIn_of_lookup {children result : ChildMap α}
    (habsent : children = .absent → result = .absent)
    (hpresent : ∀ j, childrenJson (serializeChildren encodeLeaf children) =
      some j → childrenFrom decodeLeaf j = .ok result)
    {members : List (JsString × Json)}
    (hlookup : members.lookup NodeField.children.name =
      childrenJson (serializeChildren encodeLeaf children)) :
    childrenIn decodeLeaf members = .ok result := by
  rw [childrenIn_eq, hlookup]
  rcases hj : childrenJson (serializeChildren encodeLeaf children) with _ | j
  · dsimp only
    cases children with
    | absent => rw [habsent rfl]
    | deferred => simp [serializeChildren, childrenJson] at hj
    | present nodes => simp [serializeChildren, childrenJson] at hj
  · exact hpresent j hj

mutual

/-- A tree comes back with the properties of its nodes in the receiver's
order. -/
theorem deserialize_serialize
    (hleaf : ∀ a, decodeLeaf (encodeLeaf a) = .ok a) :
    ∀ node : NodeObject α, node.WellFormed →
      deserializeChangeNodeFromJSON decodeLeaf
        (serializeChangeNodeForJSON encodeLeaf node).toJson = .ok node.rebuilt
  | .mk order kind keyID change children, hnode => by
      obtain ⟨-, hholds, hchildren⟩ := hnode
      rw [toJson_serialize encodeLeaf kind hholds,
        deserializeChangeNodeFromJSON]
      have hlookup := lookup_nodeMembers encodeLeaf kind hholds
      have hheader : nodeHeader (nodeMembers order kind keyID
          (change.map encodeLeaf) (serializeChildren encodeLeaf children)) =
          .ok (kind, keyID) := by
        rw [nodeHeader, hlookup .kind, hlookup .keyID]
        simp only [nodeValue, isValidChangeNodeKind_kindName]
        cases keyID with
        | none => rfl
        | some s => rfl
      have hchange : nodeChange decodeLeaf (nodeMembers order kind keyID
          (change.map encodeLeaf) (serializeChildren encodeLeaf children)) =
          .ok change := by
        rw [nodeChange, hlookup .change]
        cases change with
        | none => rfl
        | some c => simp [nodeValue, hleaf, Except.map]
      have hin := childrenIn_of_lookup (by rintro rfl; rw [rebuiltChildren])
        (childrenFrom_serialize hleaf children hchildren) (hlookup .children)
      rw [hheader]
      dsimp only
      rw [hchange]
      dsimp only
      rw [hin, NodeObject.rebuilt]

theorem childrenFrom_serialize
    (hleaf : ∀ a, decodeLeaf (encodeLeaf a) = .ok a) :
    ∀ children : ChildMap α, ChildrenWellFormed children →
      ∀ j, childrenJson (serializeChildren encodeLeaf children) = some j →
        childrenFrom decodeLeaf j = .ok (rebuiltChildren children)
  | .absent, _, j, hj => by simp [serializeChildren, childrenJson] at hj
  | .deferred, _, j, hj => by
      simp only [serializeChildren, childrenJson, Option.some.injEq] at hj
      subst hj
      rw [childrenFrom, rebuiltChildren]
  | .present nodes, hchildren, j, hj => by
      simp only [serializeChildren, childrenJson, Option.some.injEq] at hj
      subst hj
      rw [childrenFrom, nodesFrom_serialize hleaf nodes hchildren.2,
        rebuiltChildren]
      rfl

theorem nodesFrom_serialize
    (hleaf : ∀ a, decodeLeaf (encodeLeaf a) = .ok a) :
    ∀ nodes : List (JsString × NodeObject α), NodesWellFormed nodes →
      nodesFrom decodeLeaf (nodesJson (serializeNodes encodeLeaf nodes)) =
        .ok (rebuiltNodes nodes)
  | [], _ => by rw [serializeNodes, nodesJson, nodesFrom, rebuiltNodes]
  | (hash, child) :: nodes, hnodes => by
      obtain ⟨hchild, hnodes⟩ := hnodes
      have hread := deserialize_serialize hleaf child hchild
      have hrest := nodesFrom_serialize hleaf nodes hnodes
      obtain ⟨members, hmembers⟩ : ∃ members,
          (serializeChangeNodeForJSON encodeLeaf child).toJson =
            .obj members := by
        cases child with
        | mk order kind keyID change children => exact ⟨_, rfl⟩
      rw [serializeNodes, nodesJson, rebuiltNodes]
      rw [hmembers] at hread ⊢
      rw [nodesFrom, hread]
      dsimp only
      rw [hrest]

end

mutual

/-- The JSON value of a tree repeats no name. -/
theorem distinct_toJson (hleaf : ∀ a, (encodeLeaf a).Distinct) :
    ∀ node : NodeObject α, node.WellFormed →
      (serializeChangeNodeForJSON encodeLeaf node).toJson.Distinct
  | .mk order kind keyID change children, hnode => by
      obtain ⟨hnodup, hholds, hchildren⟩ := hnode
      rw [toJson_serialize encodeLeaf kind hholds]
      refine ⟨FieldOrder.nodup_entries nodeField_name_injective _ hnodup, ?_⟩
      rw [Json.distinctMembers_iff]
      intro m hm
      obtain ⟨f, -, hf⟩ := List.mem_filterMap.1 hm
      obtain ⟨v, hv, rfl⟩ := Option.map_eq_some_iff.1 hf
      cases f with
      | kind =>
          obtain rfl := Option.some.inj hv
          trivial
      | keyID =>
          obtain ⟨s, -, rfl⟩ := Option.map_eq_some_iff.1 hv
          trivial
      | change =>
          obtain ⟨c, -, rfl⟩ := Option.map_eq_some_iff.1 hv
          exact hleaf c
      | children => exact distinct_childrenJson hleaf children hchildren v hv

theorem distinct_childrenJson (hleaf : ∀ a, (encodeLeaf a).Distinct) :
    ∀ children : ChildMap α, ChildrenWellFormed children →
      ∀ j, childrenJson (serializeChildren encodeLeaf children) = some j →
        j.Distinct
  | .absent, _, j, hj => by simp [serializeChildren, childrenJson] at hj
  | .deferred, _, j, hj => by
      simp only [serializeChildren, childrenJson, Option.some.injEq] at hj
      subst hj
      trivial
  | .present nodes, hchildren, j, hj => by
      simp only [serializeChildren, childrenJson, Option.some.injEq] at hj
      subst hj
      obtain ⟨hnodup, hnodes⟩ := hchildren
      obtain ⟨hkeys, hdistinct⟩ := distinct_nodesJson hleaf nodes hnodes
      exact ⟨hkeys ▸ hnodup, hdistinct⟩

theorem distinct_nodesJson (hleaf : ∀ a, (encodeLeaf a).Distinct) :
    ∀ nodes : List (JsString × NodeObject α), NodesWellFormed nodes →
      (nodesJson (serializeNodes encodeLeaf nodes)).map Prod.fst =
          nodes.map Prod.fst ∧
        Json.DistinctMembers (nodesJson (serializeNodes encodeLeaf nodes))
  | [], _ => by
      rw [serializeNodes, nodesJson]
      exact ⟨rfl, trivial⟩
  | (hash, child) :: nodes, hnodes => by
      obtain ⟨hchild, hnodes⟩ := hnodes
      obtain ⟨hkeys, hdistinct⟩ := distinct_nodesJson hleaf nodes hnodes
      rw [serializeNodes, nodesJson]
      refine ⟨?_, distinct_toJson hleaf child hchild, hdistinct⟩
      rw [List.map_cons, hkeys, List.map_cons]

end

end RoundTrip

end Rebuilt

end Collabswarm.Wire
