import Collabswarm.Wire.MerkleDagSerialization

/-!
# Change trees through JSON

A change tree that is written as a JSON text comes back as the same data:
`serializeChangeNodeForJSON`, `JSON.stringify`, `JSON.parse` and
`deserializeChangeNodeFromJSON` keep everything but the order in which a node
lists its properties.

Of an arbitrary JSON value the deserializer returns what stands there, or
throws: every node of the result mirrors an object of the value.
-/

namespace Collabswarm.Wire

open Document (NodeKind)

/-- An encoder of leaves into JSON values, with a decoder. -/
structure LeafCodec (α : Type) where
  encode : α → Json
  decode : Json → Except WireError α
  distinct : ∀ a, (encode a).Distinct

/-- Decoding inverts encoding. -/
def LeafCodec.Inverts {α : Type} (codec : LeafCodec α) : Prop :=
  ∀ a, codec.decode (codec.encode a) = .ok a

/-! ## Trees without the order of their properties -/

section Data

variable {α : Type}

mutual

/-- The data of a tree: its nodes do not list their properties. -/
def NodeObject.withoutOrder : NodeObject α → NodeObject α
  | .mk _ kind keyID change children =>
      .mk [] kind keyID change (childrenWithoutOrder children)

/-- The same below a node. -/
def childrenWithoutOrder : ChildMap α → ChildMap α
  | .absent => .absent
  | .deferred => .deferred
  | .present nodes => .present (nodesWithoutOrder nodes)

/-- The same for the entries of a map of children. -/
def nodesWithoutOrder :
    List (JsString × NodeObject α) → List (JsString × NodeObject α)
  | [] => []
  | (hash, child) :: nodes =>
      (hash, child.withoutOrder) :: nodesWithoutOrder nodes

end

mutual

theorem withoutOrder_rebuilt :
    ∀ node : NodeObject α, node.rebuilt.withoutOrder = node.withoutOrder
  | .mk order kind keyID change children => by
      rw [NodeObject.rebuilt, rebuiltNode, NodeObject.withoutOrder,
        NodeObject.withoutOrder, childrenWithoutOrder_rebuilt children]

theorem childrenWithoutOrder_rebuilt : ∀ children : ChildMap α,
    childrenWithoutOrder (rebuiltChildren children) =
      childrenWithoutOrder children
  | .absent => by rw [rebuiltChildren]
  | .deferred => by rw [rebuiltChildren]
  | .present nodes => by
      rw [rebuiltChildren, childrenWithoutOrder, childrenWithoutOrder,
        nodesWithoutOrder_rebuilt nodes]

theorem nodesWithoutOrder_rebuilt :
    ∀ nodes : List (JsString × NodeObject α),
      nodesWithoutOrder (rebuiltNodes nodes) = nodesWithoutOrder nodes
  | [] => by rw [rebuiltNodes]
  | (hash, child) :: nodes => by
      rw [rebuiltNodes, nodesWithoutOrder, nodesWithoutOrder,
        withoutOrder_rebuilt child, nodesWithoutOrder_rebuilt nodes]

end

/-- A tree comes back from its text as the same data. -/
theorem changeNode_round_trip {codec : LeafCodec α} (hcodec : codec.Inverts)
    {node : NodeObject α} (hnode : node.WellFormed) :
    ∃ j received,
      Json.parse (Json.stringify
        (serializeChangeNodeForJSON codec.encode node).toJson) = some j ∧
      deserializeChangeNodeFromJSON codec.decode j = .ok received ∧
      received.withoutOrder = node.withoutOrder :=
  ⟨_, node.rebuilt,
    Json.parse_stringify (distinct_toJson codec.distinct node hnode),
    deserialize_serialize hcodec node hnode, withoutOrder_rebuilt node⟩

end Data

/-! ## What is accepted -/

section Accepted

variable {α : Type} (decodeLeaf : Json → Except WireError α)

/-- A payload is what the decoder makes of the member, or absent. -/
def ReadChange (j : Option Json) (change : Option α) : Prop :=
  (j = none ∧ change = none) ∨
    ∃ v a, j = some v ∧ decodeLeaf v = .ok a ∧ change = some a

mutual

/-- A node mirrors an object: its kind is one of the three that the object
names, its key id is the string of the object or absent, and it has no further
properties. -/
def NodeObject.Mirrors : NodeObject α → Json → Prop
  | .mk order kind keyID change children, j => ∃ members, j = .obj members ∧
      members.lookup NodeField.kind.name = some (.str (kindName kind)) ∧
      members.lookup NodeField.keyID.name = keyID.map .str ∧
      ReadChange decodeLeaf (members.lookup NodeField.change.name) change ∧
      ChildrenMirror children (members.lookup NodeField.children.name) ∧
      order = rebuiltOrder keyID change children

/-- The children are absent, deferred, or a map that mirrors an object entry by
entry. -/
def ChildrenMirror : ChildMap α → Option Json → Prop
  | .absent, j => j = none
  | .deferred, j => j = some (.bool false)
  | .present nodes, j => ∃ entries, j = some (.obj entries) ∧
      NodesMirror nodes entries

/-- The same for the entries of a map of children. -/
def NodesMirror :
    List (JsString × NodeObject α) → List (JsString × Json) → Prop
  | [], entries => entries = []
  | (hash, child) :: nodes, entries => ∃ j rest, entries = (hash, j) :: rest ∧
      child.Mirrors j ∧ NodesMirror nodes rest

end

variable {decodeLeaf}

theorem isValidChangeNodeKind_eq_some {j : Option Json} {kind : NodeKind}
    (h : isValidChangeNodeKind j = some kind) :
    j = some (.str (kindName kind)) := by
  unfold isValidChangeNodeKind at h
  split at h
  · split_ifs at h with hdocument hwriter hreader
    · cases h
      rw [hdocument]
    · cases h
      rw [hwriter]
    · cases h
      rw [hreader]
  · cases h

theorem nodeHeader_ok {members : List (JsString × Json)} {kind : NodeKind}
    {keyID : Option JsString} (h : nodeHeader members = .ok (kind, keyID)) :
    members.lookup NodeField.kind.name = some (.str (kindName kind)) ∧
      members.lookup NodeField.keyID.name = keyID.map .str := by
  unfold nodeHeader at h
  split at h
  · cases h
  · rename_i hkind
    have hname := isValidChangeNodeKind_eq_some hkind
    split at h
    · rename_i hkey
      cases h
      exact ⟨hname, hkey⟩
    · rename_i hkey
      cases h
      exact ⟨hname, hkey⟩
    · cases h

theorem nodeChange_ok {members : List (JsString × Json)} {change : Option α}
    (h : nodeChange decodeLeaf members = .ok change) :
    ReadChange decodeLeaf (members.lookup NodeField.change.name) change := by
  unfold nodeChange at h
  split at h
  · rename_i hlookup
    cases h
    exact Or.inl ⟨hlookup, rfl⟩
  · rename_i v hlookup
    rcases hdecode : decodeLeaf v with e | a
    · rw [hdecode] at h
      cases h
    · rw [hdecode] at h
      cases h
      exact Or.inr ⟨v, a, hlookup, hdecode, rfl⟩

mutual

/-- What the deserializer returns mirrors the value it was given. -/
theorem deserialize_mirrors : ∀ (j : Json) (node : NodeObject α),
    deserializeChangeNodeFromJSON decodeLeaf j = .ok node →
      node.Mirrors decodeLeaf j
  | .obj members, node, h => by
      rw [deserializeChangeNodeFromJSON] at h
      split at h
      · cases h
      rename_i kind keyID hheader
      split at h
      · cases h
      rename_i change hchange
      split at h
      · cases h
      rename_i children hchildren
      cases h
      obtain ⟨hkind, hkeyID⟩ := nodeHeader_ok hheader
      exact ⟨members, rfl, hkind, hkeyID, nodeChange_ok hchange,
        childrenIn_mirrors members children hchildren, rfl⟩
  | .null, node, h => by cases h
  | .bool _, node, h => by cases h
  | .num _, node, h => by cases h
  | .real _, node, h => by cases h
  | .str _, node, h => by cases h
  | .arr _, node, h => by cases h

theorem childrenIn_mirrors : ∀ (members : List (JsString × Json))
    (children : ChildMap α), childrenIn decodeLeaf members = .ok children →
      ChildrenMirror decodeLeaf children
        (members.lookup NodeField.children.name)
  | [], children, h => by
      cases h
      rfl
  | (name, value) :: members, children, h => by
      rw [childrenIn] at h
      rw [InsertionMap.lookup_cons_ite]
      split at h
      · rename_i hname
        rw [if_pos hname.symm]
        exact childrenFrom_mirrors value children h
      · rename_i hname
        rw [if_neg (Ne.symm hname)]
        exact childrenIn_mirrors members children h

theorem childrenFrom_mirrors : ∀ (j : Json) (children : ChildMap α),
    childrenFrom decodeLeaf j = .ok children →
      ChildrenMirror decodeLeaf children (some j)
  | .bool false, children, h => by
      cases h
      rfl
  | .obj entries, children, h => by
      rw [childrenFrom] at h
      rcases hnodes : nodesFrom decodeLeaf entries with e | nodes
      · rw [hnodes] at h
        cases h
      · rw [hnodes] at h
        cases h
        exact ⟨entries, rfl, nodesFrom_mirrors entries nodes hnodes⟩
  | .bool true, children, h => by cases h
  | .null, children, h => by cases h
  | .num _, children, h => by cases h
  | .real _, children, h => by cases h
  | .str _, children, h => by cases h
  | .arr _, children, h => by cases h

theorem nodesFrom_mirrors : ∀ (entries : List (JsString × Json))
    (nodes : List (JsString × NodeObject α)),
    nodesFrom decodeLeaf entries = .ok nodes →
      NodesMirror decodeLeaf nodes entries
  | [], nodes, h => by
      cases h
      rfl
  | (hash, .obj members) :: rest, nodes, h => by
      rw [nodesFrom] at h
      split at h
      · cases h
      rename_i child hchild
      split at h
      · cases h
      rename_i nodes' hnodes
      cases h
      exact ⟨.obj members, rest, rfl,
        deserialize_mirrors (.obj members) child hchild,
        nodesFrom_mirrors rest nodes' hnodes⟩
  | (_, .null) :: _, nodes, h => by cases h
  | (_, .bool _) :: _, nodes, h => by cases h
  | (_, .num _) :: _, nodes, h => by cases h
  | (_, .real _) :: _, nodes, h => by cases h
  | (_, .str _) :: _, nodes, h => by cases h
  | (_, .arr _) :: _, nodes, h => by cases h

end

end Accepted

end Collabswarm.Wire
