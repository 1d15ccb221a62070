import Collabswarm.Document.DroppedPathUpdates
import Collabswarm.Wire.ChangeNodeRoundTrip

/-!
# The sealed payload of a Welcome

`encodeWelcomeSealedPayload` and `decodeWelcomeSealedPayload`, with the wire
form of a BeeKEM Welcome: the bytes that are sealed for a new reader.  The
Base64 package is a parameter.
-/

namespace Collabswarm.Wire

open BeeKEM (RawPathNode)
open Document (describeWire wireMember NodeKind)
open JsString (ofString)

/-! ## Welcomes and payloads -/

/-- A node beside the path of the joiner; a blank one has no key. -/
structure WelcomeNodePublicKey where
  nodeIndex : ℕ
  publicKey : Option Bytes
deriving DecidableEq, Repr

/-- What the inviter's `addMember` returns for the joiner. -/
structure BeeKEMWelcome where
  leafIndex : ℕ
  pathKeys : List RawPathNode
  treeNodePublicKeys : List WelcomeNodePublicKey
  treeHash : Bytes
deriving DecidableEq, Repr

/-- The parsed envelope. -/
structure WelcomeSealedPayload where
  keychainChanges : Bytes
  beekemWelcome : Option BeeKEMWelcome
deriving DecidableEq, Repr

/-! ## Writing -/

section Encode

variable (base64 : Base64)

/-- A node of the path on the wire. -/
def pathKeyJson (n : RawPathNode) : Json :=
  .obj [(ofString "nodeIndex", .num n.nodeIndex),
    (ofString "publicKey", .str (base64.fromUint8Array n.publicKey)),
    (ofString "encryptedPrivateKey",
      .str (base64.fromUint8Array n.encryptedPrivateKey))]

/-- A public key or `null`. -/
def nullableKeyJson : Option Bytes → Json
  | none => .null
  | some publicKey => .str (base64.fromUint8Array publicKey)

/-- A node beside the path on the wire. -/
def treeNodePublicKeyJson (e : WelcomeNodePublicKey) : Json :=
  .obj [(ofString "nodeIndex", .num e.nodeIndex),
    (ofString "publicKey", nullableKeyJson base64 e.publicKey)]

/-- `serializeBeeKEMWelcomeForWire`. -/
def serializeBeeKEMWelcomeForWire (welcome : BeeKEMWelcome) : Json :=
  .obj [(ofString "leafIndex", .num welcome.leafIndex),
    (ofString "pathKeys", .arr (welcome.pathKeys.map (pathKeyJson base64))),
    (ofString "treeNodePublicKeys",
      .arr (welcome.treeNodePublicKeys.map (treeNodePublicKeyJson base64))),
    (ofString "treeHash", .str (base64.fromUint8Array welcome.treeHash))]

/-- A Welcome or `null`. -/
def nullableWelcomeJson : Option BeeKEMWelcome → Json
  | none => .null
  | some welcome => serializeBeeKEMWelcomeForWire base64 welcome

/-- The envelope of a payload. -/
def envelope (payload : WelcomeSealedPayload) : Json :=
  .obj [(ofString "k", .str (base64.fromUint8Array payload.keychainChanges)),
    (ofString "bk", nullableWelcomeJson base64 payload.beekemWelcome)]

/-- `encodeWelcomeSealedPayload`. -/
def encodeWelcomeSealedPayload (payload : WelcomeSealedPayload) : Bytes :=
  JsString.utf8 (Json.stringify (envelope base64 payload))

end Encode

/-! ## Reading -/

section Decode

/-- A check of a field that failed. -/
def invalidWelcome {α : Type} (label expected : String) (value : Option Json) :
    Except WireError α :=
  .error (.invalid ("Invalid BeeKEMWelcome: " ++ label ++ " must be " ++
    expected ++ " (got " ++ describeWire value ++ ")"))

/-- A member that must be a non-negative integer. -/
def welcomeIndex (label : String) : Option Json → Except WireError ℕ
  | some (.num n) => .ok n
  | value => invalidWelcome label "a non-negative integer" value

/-- A member that must be an array. -/
def welcomeArray (label : String) : Option Json → Except WireError (List Json)
  | some (.arr values) => .ok values
  | value => invalidWelcome label "an array" value

/-- A member that must be a string. -/
def welcomeString (label : String) : Option Json → Except WireError JsString
  | some (.str s) => .ok s
  | value => invalidWelcome label "a base64 string" value

/-- A member that must be a string or `null`. -/
def welcomeNullableString (label : String) :
    Option Json → Except WireError (Option JsString)
  | some .null => .ok none
  | some (.str s) => .ok (some s)
  | value => invalidWelcome label "a base64 string or null" value

/-- An element that must be a plain object. -/
def welcomeObject (label : String) :
    Json → Except WireError (List (JsString × Json))
  | .obj members => .ok members
  | value => .error (.invalid ("Invalid BeeKEMWelcome: " ++ label ++
      " must be a plain object, got " ++ describeWire (some value)))

variable (base64 : Base64)

/-- `decodeBase64`; the text goes on with the one of the package. -/
def welcomeBytes (fieldName : String) (s : JsString) : Except WireError Bytes :=
  match base64.toUint8Array s with
  | some bytes => .ok bytes
  | none => .error (.invalid (
      "BeeKEMWelcome wire: invalid base64 for field " ++ fieldName ++ ": "))

/-- The path key with number `i`. -/
def readPathKey (i : ℕ) (value : Json) : Except WireError RawPathNode := do
  let label := "pathKeys[" ++ toString i ++ "]"
  let members ← welcomeObject label value
  let nodeIndex ← welcomeIndex (label ++ ".nodeIndex")
    (wireMember members "nodeIndex")
  let publicKey ← welcomeString (label ++ ".publicKey")
    (wireMember members "publicKey")
  let encryptedPrivateKey ← welcomeString (label ++ ".encryptedPrivateKey")
    (wireMember members "encryptedPrivateKey")
  let publicKey ← welcomeBytes base64 (label ++ ".publicKey") publicKey
  let encryptedPrivateKey ← welcomeBytes base64
    (label ++ ".encryptedPrivateKey") encryptedPrivateKey
  .ok ⟨nodeIndex, publicKey, encryptedPrivateKey⟩

/-- The entry of the tree with number `i`. -/
def readTreeNodePublicKey (i : ℕ) (value : Json) :
    Except WireError WelcomeNodePublicKey := do
  let label := "treeNodePublicKeys[" ++ toString i ++ "]"
  let members ← welcomeObject label value
  let nodeIndex ← welcomeIndex (label ++ ".nodeIndex")
    (wireMember members "nodeIndex")
  match ← welcomeNullableString (label ++ ".publicKey")
      (wireMember members "publicKey") with
  | none => .ok ⟨nodeIndex, none⟩
  | some publicKey =>
      let publicKey ← welcomeBytes base64 (label ++ ".publicKey") publicKey
      .ok ⟨nodeIndex, some publicKey⟩

/-- `map` with a function that may throw, from number `i` on. -/
def readElements {α : Type} (read : ℕ → Json → Except WireError α) :
    ℕ → List Json → Except WireError (List α)
  | _, [] => .ok []
  | i, value :: values => do
      let element ← read i value
      let elements ← readElements read (i + 1) values
      .ok (element :: elements)

/-- `deserializeBeeKEMWelcomeFromWire`. -/
def deserializeBeeKEMWelcomeFromWire : Json → Except WireError BeeKEMWelcome
  | .obj members => do
      let leafIndex ← welcomeIndex "'leafIndex'"
        (wireMember members "leafIndex")
      let pathKeys ← welcomeArray "'pathKeys'" (wireMember members "pathKeys")
      let treeNodePublicKeys ← welcomeArray "'treeNodePublicKeys'"
        (wireMember members "treeNodePublicKeys")
      let treeHash ← welcomeString "'treeHash'" (wireMember members "treeHash")
      let pathKeys ← readElements (readPathKey base64) 0 pathKeys
      let treeNodePublicKeys ←
        readElements (readTreeNodePublicKey base64) 0 treeNodePublicKeys
      let treeHash ← welcomeBytes base64 "treeHash" treeHash
      .ok ⟨leafIndex, pathKeys, treeNodePublicKeys, treeHash⟩
  | value => .error (.invalid (
      "Invalid BeeKEMWelcome: expected a plain object, got " ++
      describeWire (some value)))

/-- The text of an error, up to the text of the engine or of a package. -/
def WireError.message : WireError → String
  | .invalid text => text
  | _ => ""

/-- The `bk` field: absent and `null` stand for no Welcome. -/
def readWelcome (members : List (JsString × Json)) :
    Except WireError (Option BeeKEMWelcome) :=
  match wireMember members "bk" with
  | none => .ok none
  | some .null => .ok none
  | some bk =>
      match deserializeBeeKEMWelcomeFromWire base64 bk with
      | .ok welcome => .ok (some welcome)
      | .error e => .error (.invalid (
          "welcome-sealed-payload: invalid 'bk' (BeeKEM welcome): " ++
          e.message))

/-- What `decodeWelcomeSealedPayload` makes of the parsed text. -/
def readEnvelope : Json → Except WireError WelcomeSealedPayload
  | .obj members =>
      match wireMember members "k" with
      | some (.str k) =>
          match base64.toUint8Array k with
          | none => .error (.invalid
              "welcome-sealed-payload: invalid base64 for field 'k': ")
          | some keychainChanges => do
              let beekemWelcome ← readWelcome base64 members
              .ok ⟨keychainChanges, beekemWelcome⟩
      | value => .error (.invalid (
          "welcome-sealed-payload: 'k' (keychain bytes) must be a base64 " ++
          "string (got " ++ describeWire value ++ ")"))
  | value => .error (.invalid (
      "welcome-sealed-payload: expected a plain object envelope, got " ++
      describeWire (some value)))

/-- `decodeWelcomeSealedPayload`. -/
def decodeWelcomeSealedPayload (bytes : Bytes) :
    Except WireError WelcomeSealedPayload :=
  match JsString.textDecodeFatal bytes with
  | none => .error (.invalid
      "welcome-sealed-payload: plaintext is not valid UTF-8: ")
  | some text =>
      match Json.parse text with
      | none => .error (.invalid
          "welcome-sealed-payload: plaintext is not valid JSON: ")
      | some parsed => readEnvelope base64 parsed

end Decode

/-! ## Round trip -/

section RoundTrip

variable {base64 : Base64}

theorem welcomeBytes_fromUint8Array (hbase64 : base64.Inverts)
    (fieldName : String) (bytes : Bytes) :
    welcomeBytes base64 fieldName (base64.fromUint8Array bytes) = .ok bytes := by
  rw [welcomeBytes, hbase64]

theorem readPathKey_pathKeyJson (hbase64 : base64.Inverts) (i : ℕ)
    (n : RawPathNode) : readPathKey base64 i (pathKeyJson base64 n) = .ok n := by
  obtain ⟨nodeIndex, publicKey, encryptedPrivateKey⟩ := n
  have hmembers : ∀ a b c : Json,
      wireMember [(ofString "nodeIndex", a), (ofString "publicKey", b),
        (ofString "encryptedPrivateKey", c)] "nodeIndex" = some a ∧
      wireMember [(ofString "nodeIndex", a), (ofString "publicKey", b),
        (ofString "encryptedPrivateKey", c)] "publicKey" = some b ∧
      wireMember [(ofString "nodeIndex", a), (ofString "publicKey", b),
        (ofString "encryptedPrivateKey", c)] "encryptedPrivateKey" = some c :=
    fun _ _ _ => ⟨rfl, rfl, rfl⟩
  obtain ⟨hindex, hpublic, hprivate⟩ := hmembers (.num nodeIndex)
    (.str (base64.fromUint8Array publicKey))
    (.str (base64.fromUint8Array encryptedPrivateKey))
  simp only [readPathKey, pathKeyJson, welcomeObject, bind, Except.bind, hindex,
    hpublic, hprivate, welcomeIndex, welcomeString,
    welcomeBytes_fromUint8Array hbase64]

theorem welcomeNullableString_json (label : String) (publicKey : Option Bytes) :
    welcomeNullableString label (some (nullableKeyJson base64 publicKey)) =
      .ok (publicKey.map base64.fromUint8Array) := by
  cases publicKey with
  | none => rfl
  | some publicKey => rfl

theorem readTreeNodePublicKey_json (hbase64 : base64.Inverts) (i : ℕ)
    (e : WelcomeNodePublicKey) :
    readTreeNodePublicKey base64 i (treeNodePublicKeyJson base64 e) = .ok e := by
  obtain ⟨nodeIndex, publicKey⟩ := e
  have hmembers : ∀ a b : Json,
      wireMember [(ofString "nodeIndex", a), (ofString "publicKey", b)]
        "nodeIndex" = some a ∧
      wireMember [(ofString "nodeIndex", a), (ofString "publicKey", b)]
        "publicKey" = some b :=
    fun _ _ => ⟨rfl, rfl⟩
  obtain ⟨hindex, hpublic⟩ := hmembers (.num nodeIndex)
    (nullableKeyJson base64 publicKey)
  simp only [readTreeNodePublicKey, treeNodePublicKeyJson, welcomeObject, bind,
    Except.bind, hindex, hpublic, welcomeIndex, welcomeNullableString_json]
  cases publicKey with
  | none => rfl
  | some publicKey =>
      simp only [Option.map_some, welcomeBytes_fromUint8Array hbase64]

/-- Elements that are read one by one are read as a list. -/
theorem readElements_map {α : Type} {read : ℕ → Json → Except WireError α}
    {write : α → Json} (h : ∀ i a, read i (write a) = .ok a) :
    ∀ (l : List α) (i : ℕ), readElements read i (l.map write) = .ok l := by
  intro l
  induction l with
  | nil =>
      intro i
      rfl
  | cons a l ih =>
      intro i
      rw [List.map_cons, readElements, h, ih]
      rfl

theorem deserializeBeeKEMWelcome_serialize (hbase64 : base64.Inverts)
    (welcome : BeeKEMWelcome) :
    deserializeBeeKEMWelcomeFromWire base64
      (serializeBeeKEMWelcomeForWire base64 welcome) = .ok welcome := by
  obtain ⟨leafIndex, pathKeys, treeNodePublicKeys, treeHash⟩ := welcome
  have hmembers : ∀ a b c d : Json,
      wireMember [(ofString "leafIndex", a), (ofString "pathKeys", b),
        (ofString "treeNodePublicKeys", c), (ofString "treeHash", d)]
        "leafIndex" = some a ∧
      wireMember [(ofString "leafIndex", a), (ofString "pathKeys", b),
        (ofString "treeNodePublicKeys", c), (ofString "treeHash", d)]
        "pathKeys" = some b ∧
      wireMember [(ofString "leafIndex", a), (ofString "pathKeys", b),
        (ofString "treeNodePublicKeys", c), (ofString "treeHash", d)]
        "treeNodePublicKeys" = some c ∧
      wireMember [(ofString "leafIndex", a), (ofString "pathKeys", b),
        (ofString "treeNodePublicKeys", c), (ofString "treeHash", d)]
        "treeHash" = some d :=
    fun _ _ _ _ => ⟨rfl, rfl, rfl, rfl⟩
  obtain ⟨hleaf, hpath, htree, hhash⟩ := hmembers (.num leafIndex)
    (.arr (pathKeys.map (pathKeyJson base64)))
    (.arr (treeNodePublicKeys.map (treeNodePublicKeyJson base64)))
    (.str (base64.fromUint8Array treeHash))
  have hpathKeys := readElements_map (readPathKey_pathKeyJson hbase64) pathKeys 0
  have hnodes := readElements_map (readTreeNodePublicKey_json hbase64)
    treeNodePublicKeys 0
  simp only [serializeBeeKEMWelcomeForWire, deserializeBeeKEMWelcomeFromWire,
    hleaf, hpath, htree, hhash, welcomeIndex, welcomeArray, welcomeString, bind,
    Except.bind, hpathKeys, hnodes, welcomeBytes_fromUint8Array hbase64]

theorem readEnvelope_envelope (hbase64 : base64.Inverts)
    (payload : WelcomeSealedPayload) :
    readEnvelope base64 (envelope base64 payload) = .ok payload := by
  obtain ⟨keychainChanges, beekemWelcome⟩ := payload
  have hmembers : ∀ a b : Json,
      wireMember [(ofString "k", a), (ofString "bk", b)] "k" = some a ∧
      wireMember [(ofString "k", a), (ofString "bk", b)] "bk" = some b :=
    fun _ _ => ⟨rfl, rfl⟩
  obtain ⟨hk, hbk⟩ := hmembers
    (.str (base64.fromUint8Array keychainChanges))
    (nullableWelcomeJson base64 beekemWelcome)
  have hwelcome : readWelcome base64
      [(ofString "k", .str (base64.fromUint8Array keychainChanges)),
        (ofString "bk", nullableWelcomeJson base64 beekemWelcome)] =
        .ok beekemWelcome := by
    rw [readWelcome, hbk]
    cases beekemWelcome with
    | none => rfl
    | some welcome =>
        have hread := deserializeBeeKEMWelcome_serialize hbase64 welcome
        rw [nullableWelcomeJson]
        rw [serializeBeeKEMWelcomeForWire] at hread ⊢
        simp only [hread]
  rw [envelope, readEnvelope, hk]
  simp only [hbase64 keychainChanges, hwelcome, bind, Except.bind]

/-! ### The envelope as a text -/

theorem distinctElements_map {α : Type} {write : α → Json}
    (h : ∀ a, (write a).Distinct) :
    ∀ l : List α, Json.DistinctElements (l.map write) := by
  intro l
  induction l with
  | nil => trivial
  | cons a l ih => exact ⟨h a, ih⟩

theorem distinct_pathKeyJson (n : RawPathNode) :
    (pathKeyJson base64 n).Distinct := by
  have hnames : [ofString "nodeIndex", ofString "publicKey",
      ofString "encryptedPrivateKey"].Nodup := by decide
  exact ⟨hnames, trivial, trivial, trivial, trivial⟩

theorem distinct_treeNodePublicKeyJson (e : WelcomeNodePublicKey) :
    (treeNodePublicKeyJson base64 e).Distinct := by
  have hnames : [ofString "nodeIndex", ofString "publicKey"].Nodup := by decide
  refine ⟨hnames, trivial, ?_, trivial⟩
  cases e.publicKey with
  | none => trivial
  | some publicKey => trivial

theorem distinct_serializeBeeKEMWelcome (welcome : BeeKEMWelcome) :
    (serializeBeeKEMWelcomeForWire base64 welcome).Distinct := by
  have hnames : [ofString "leafIndex", ofString "pathKeys",
      ofString "treeNodePublicKeys", ofString "treeHash"].Nodup := by decide
  exact ⟨hnames, trivial, distinctElements_map distinct_pathKeyJson _,
    distinctElements_map distinct_treeNodePublicKeyJson _, trivial, trivial⟩

/-- No object in an envelope repeats a name. -/
theorem distinct_envelope (payload : WelcomeSealedPayload) :
    (envelope base64 payload).Distinct := by
  have hnames : [ofString "k", ofString "bk"].Nodup := by decide
  refine ⟨hnames, trivial, ?_, trivial⟩
  cases payload.beekemWelcome with
  | none => trivial
  | some welcome => exact distinct_serializeBeeKEMWelcome welcome

/-- A payload is read back from its bytes. -/
theorem decodeWelcomeSealedPayload_encode (hbase64 : base64.Inverts)
    (payload : WelcomeSealedPayload) :
    decodeWelcomeSealedPayload base64
      (encodeWelcomeSealedPayload base64 payload) = .ok payload := by
  have htext : (Json.stringify (envelope base64 payload)).head? ≠
      some '\uFEFF' := by
    obtain ⟨text, htext⟩ := head_stringify_obj
      [(ofString "k", .str (base64.fromUint8Array payload.keychainChanges)),
        (ofString "bk", nullableWelcomeJson base64 payload.beekemWelcome)]
    rw [envelope, htext]
    simp
  rw [encodeWelcomeSealedPayload, decodeWelcomeSealedPayload,
    JsString.textDecodeFatal_utf8 htext]
  dsimp only
  rw [Json.parse_stringify (distinct_envelope payload)]
  exact readEnvelope_envelope hbase64 payload

end RoundTrip

/-! ## The codecs -/

/-- Change trees and payloads come back from their wire forms, and whatever the
deserializer of change trees accepts it returns as it stands there. -/
theorem codecs_round_trip :
    (∀ {α : Type} {codec : LeafCodec α}, codec.Inverts →
      ∀ node : NodeObject α, node.WellFormed →
        ∃ j received,
          Json.parse (Json.stringify
            (serializeChangeNodeForJSON codec.encode node).toJson) = some j ∧
          deserializeChangeNodeFromJSON codec.decode j = .ok received ∧
          received.withoutOrder = node.withoutOrder) ∧
    (∀ base64 : Base64, base64.Inverts → ∀ payload : WelcomeSealedPayload,
      decodeWelcomeSealedPayload base64
        (encodeWelcomeSealedPayload base64 payload) = .ok payload) ∧
    ∀ {α : Type} (decodeLeaf : Json → Except WireError α) (j : Json)
      (node : NodeObject α),
      deserializeChangeNodeFromJSON decodeLeaf j = .ok node →
        node.Mirrors decodeLeaf j :=
  ⟨fun hcodec _ hnode => changeNode_round_trip hcodec hnode,
    fun _ hbase64 payload => decodeWelcomeSealedPayload_encode hbase64 payload,
    fun _ j node h => deserialize_mirrors j node h⟩

/-- Texts as leaves. -/
def textLeaves : LeafCodec JsString where
  encode := Json.str
  decode
    | .str s => .ok s
    | _ => .error .typeError
  distinct _ := trivial

/-- A document whose only child has the CID `__proto__`. -/
def protoChild : NodeObject JsString :=
  .mk [.kind, .children] .document none none
    (.present [(ofString "__proto__",
      .mk [.kind, .change] .writer none (some (ofString "x")) .absent)])

theorem textLeaves_inverts : textLeaves.Inverts := fun _ => rfl

theorem wellFormed_protoChild : protoChild.WellFormed := by
  have hchild : (NodeObject.mk [.kind, .change] .writer none
      (some (ofString "x")) .absent).WellFormed := by
    refine ⟨by decide, fun f hf => ?_, trivial⟩
    cases f <;> simp_all [NodeField.Holds]
  refine ⟨by decide, fun f hf => ?_, by simp, hchild, trivial⟩
  cases f <;> simp_all [NodeField.Holds]

/-- A child whose CID is `__proto__` comes back, so does a Welcome with a blank
node, and a node without further properties is accepted. -/
theorem codecs_round_trip_proto :
    (∃ j received,
      Json.parse (Json.stringify
        (serializeChangeNodeForJSON textLeaves.encode protoChild).toJson) =
          some j ∧
        deserializeChangeNodeFromJSON textLeaves.decode j = .ok received ∧
        received.withoutOrder = protoChild.withoutOrder) ∧
    decodeWelcomeSealedPayload unitPerByte (encodeWelcomeSealedPayload
      unitPerByte ⟨[1], some ⟨2, [], [⟨0, none⟩], [3]⟩⟩) =
        .ok ⟨[1], some ⟨2, [], [⟨0, none⟩], [3]⟩⟩ ∧
    (NodeObject.mk [.kind] .document none none .absent).Mirrors
      textLeaves.decode
      (.obj [(ofString "kind", .str (ofString "document"))]) :=
  ⟨codecs_round_trip.1 textLeaves_inverts protoChild wellFormed_protoChild,
    codecs_round_trip.2.1 unitPerByte unitPerByte_inverts _,
    codecs_round_trip.2.2 textLeaves.decode _ _ rfl⟩

end Collabswarm.Wire
