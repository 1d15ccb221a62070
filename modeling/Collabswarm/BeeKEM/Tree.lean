import Collabswarm.BeeKEM.TreeMath
import Collabswarm.Support.InsertionMap

/-!
# The BeeKEM ratchet tree

The class of `beekem.ts` with symbolic cryptography.  A key pair is named by a
number: private and public key carry it, a generated pair takes the next unused
number.  Sealing keeps the recipient and the payload apart and opening needs
the matching private key; hashes are free, so the root secret is the root's
private key under a constructor and the tree hash is the list that is hashed.
Private keys are extractable.

A method may change the tree and then throw.  The tree after such a call is
kept: every mutating method returns the tree together with its result.
-/

namespace Collabswarm.BeeKEM

/-! ## Symbolic cryptography -/

/-- An ECDH private key. -/
structure PrivateKey where
  id : ℕ
deriving DecidableEq, Repr

/-- An ECDH public key, or its raw export. -/
structure PublicKey where
  id : ℕ
deriving DecidableEq, Repr

/-- The public half of a key pair. -/
def PrivateKey.publicKey (sk : PrivateKey) : PublicKey := ⟨sk.id⟩

/-- The private half of a generated key pair. -/
def generateKey (fresh : ℕ) : PrivateKey := ⟨fresh⟩

/-- The bytes of an `encryptedPrivateKey`: empty when the sibling subtree was
blank, otherwise the output of `eciesSeal`. -/
inductive Sealed where
  | empty
  | box (recipient : PublicKey) (payload : PrivateKey)
deriving DecidableEq, Repr

/-- SHA-256 of an exported private key. -/
structure RootSecret where
  key : PrivateKey
deriving DecidableEq, Repr

/-- What the methods throw.  The texts are the source's; the tree arithmetic
and ECIES throw errors of their own. -/
inductive Error where
  | treeMath
  | eciesOpen
  -- "Cannot update path: no public key at our leaf"
  | noPublicKeyAtLeaf
  -- "Cannot process path update: no intersection found with our path"
  | noIntersection
  -- "Cannot build welcome: missing key at node ${nodeIndex}"
  | missingKey (nodeIndex : ℕ)
  -- "Welcome tree hash mismatch: reconstructed tree does not match sender
  -- state"
  | treeHashMismatch
  -- "Tree is empty"
  | treeEmpty
  -- "No private key available for root secret derivation"
  | noLeafPrivateKey
  -- "Root secret not available: no private key at root node"
  | noRootPrivateKey
deriving DecidableEq, Repr

/-- Tree arithmetic that throws. -/
def liftTree {α : Type*} : Option α → Except Error α
  | some a => .ok a
  | none => .error .treeMath

/-- `_encryptNodeKey`. -/
def encryptNodeKey (keyToEncrypt : PrivateKey) (recipient : PublicKey) :
    Sealed :=
  .box recipient keyToEncrypt

/-- `_decryptNodeKey`: opens with the matching private key only. -/
def decryptNodeKey (encryptedData : Sealed) (sk : PrivateKey) :
    Except Error PrivateKey :=
  match encryptedData with
  | .empty => .error .eciesOpen
  | .box recipient payload =>
      if sk.publicKey = recipient then .ok payload else .error .eciesOpen

/-! ## Trees and messages -/

inductive NodeType where
  | leaf
  | internal
deriving DecidableEq, Repr

/-- A node of the ratchet tree; no public key means that it is blank. -/
structure TreeNode where
  type : NodeType
  index : ℕ
  publicKey : Option PublicKey
  privateKey : Option PrivateKey
deriving DecidableEq, Repr

/-- A node of a `PathUpdate` or a path key of a `Welcome`. -/
structure PathNodeUpdate where
  nodeIndex : ℕ
  publicKey : PublicKey
  encryptedPrivateKey : Sealed
deriving DecidableEq, Repr

structure PathUpdate where
  senderLeafIndex : ℕ
  senderLeafPublicKey : PublicKey
  nodes : List PathNodeUpdate
deriving DecidableEq, Repr

structure WelcomeNodePublicKey where
  nodeIndex : ℕ
  publicKey : Option PublicKey
deriving DecidableEq, Repr

/-- A Welcome of the ratchet tree. -/
structure Welcome where
  leafIndex : ℕ
  pathKeys : List PathNodeUpdate
  treeNodePublicKeys : List WelcomeNodePublicKey
  treeHash : List (ℕ × PublicKey)
deriving DecidableEq, Repr

/-- An instance of the class.  `myLeafIndex` is `none` where the source has
`-1`, before `initialize` or `processWelcome`. -/
structure Tree where
  nodes : InsertionMap ℕ TreeNode
  numLeaves : ℕ
  myLeafIndex : Option ℕ

namespace Tree

open TreeMath

/-- A new instance. -/
def new : Tree := ⟨.empty, 0, none⟩

/-- `this._nodes.set`. -/
def setNode (t : Tree) (node : TreeNode) : Tree :=
  { t with nodes := t.nodes.set node.index node }

/-- The public key stored at a node. -/
def publicKeyAt (t : Tree) (nodeIndex : ℕ) : Option PublicKey :=
  (t.nodes.get? nodeIndex).bind TreeNode.publicKey

/-- The private key stored at a node. -/
def privateKeyAt (t : Tree) (nodeIndex : ℕ) : Option PrivateKey :=
  (t.nodes.get? nodeIndex).bind TreeNode.privateKey

/-- A leaf with a key pair. -/
def keyLeaf (index : ℕ) (sk : PrivateKey) : TreeNode :=
  ⟨.leaf, index, some sk.publicKey, some sk⟩

/-- An internal node with a key pair. -/
def keyNode (index : ℕ) (sk : PrivateKey) : TreeNode :=
  ⟨.internal, index, some sk.publicKey, some sk⟩

/-! ## Helpers of the class -/

/-- Walk down from a node to the first key that `key` finds, left before
right.  Both children are computed before either is searched. -/
def resolve {α : Type} (key : TreeNode → Option α) (t : Tree) :
    ℕ → ℕ → Except Error (Option α)
  | 0, _ => .error .treeMath
  | fuel + 1, nodeIndex =>
      match (t.nodes.get? nodeIndex).bind key with
      | some k => .ok (some k)
      | none =>
          if isInternal nodeIndex then do
            let leftChild ← liftTree (left nodeIndex)
            let rightChild ← liftTree (right nodeIndex t.numLeaves)
            let leftKey ← resolve key t fuel leftChild
            match leftKey with
            | some k => .ok (some k)
            | none => resolve key t fuel rightChild
          else .ok none

/-- `_resolvePublicKey`: a public key of the subtree. -/
def resolvePublicKey (t : Tree) (nodeIndex : ℕ) :
    Except Error (Option PublicKey) :=
  t.resolve TreeNode.publicKey (level nodeIndex + 1) nodeIndex

/-- `_resolveSubtreeKey`: a private key of the subtree. -/
def resolveSubtreeKey (t : Tree) (nodeIndex : ℕ) :
    Except Error (Option PrivateKey) :=
  t.resolve TreeNode.privateKey (level nodeIndex + 1) nodeIndex

/-- `_isInSubtree`: whether a leaf lies below a node. -/
def isInSubtree (leafIndex subtreeRoot : ℕ) : Bool :=
  if subtreeRoot = leafIndex then true
  else if isLeaf subtreeRoot then false
  else
    let halfSpan := 1 <<< level subtreeRoot
    decide (subtreeRoot + 1 ≤ leafIndex + halfSpan) &&
      decide (leafIndex + 1 ≤ subtreeRoot + halfSpan)

/-- `_findChildOnOurSide`: the child of a node whose subtree has our leaf. -/
def findChildOnOurSide (t : Tree) (nodeIndex : ℕ) :
    Except Error (Option ℕ) :=
  if isLeaf nodeIndex then .ok none
  else do
    let leftChild ← liftTree (left nodeIndex)
    let rightChild ← liftTree (right nodeIndex t.numLeaves)
    match t.myLeafIndex with
    | none => .ok none
    | some myLeafIndex =>
        if isInSubtree myLeafIndex leftChild then .ok (some leftChild)
        else if isInSubtree myLeafIndex rightChild then
          .ok (some rightChild)
        else .ok none

/-- `_computeTreeHash`: the public keys in index order. -/
def computeTreeHash (t : Tree) : List (ℕ × PublicKey) :=
  (t.nodes.keys.insertionSort (· ≤ ·)).filterMap fun nodeIndex =>
    (t.publicKeyAt nodeIndex).map (nodeIndex, ·)

/-- `getRootSecret`. -/
def getRootSecret (t : Tree) : Except Error RootSecret :=
  if t.numLeaves = 0 then .error .treeEmpty
  else if t.numLeaves = 1 then
    match t.privateKeyAt 0 with
    | some sk => .ok ⟨sk⟩
    | none => .error .noLeafPrivateKey
  else do
    let rootIndex ← liftTree (root t.numLeaves)
    match t.privateKeyAt rootIndex with
    | some sk => .ok ⟨sk⟩
    | none => .error .noRootPrivateKey

/-- `findLeafByPublicKey`: the first leaf that holds the key. -/
def findLeafByPublicKey (t : Tree) (publicKey : PublicKey) : Option ℕ :=
  ((List.range t.numLeaves).map leafToNodeIndex).find? fun nodeIndex =>
    match t.nodes.get? nodeIndex with
    | some node => node.type = .leaf && node.publicKey = some publicKey
    | none => false

/-! ## Changing the own path -/

/-- The result of a method that may generate keys: the tree it leaves, the
next unused key number, and what it returns or throws. -/
structure Outcome (α : Type) where
  tree : Tree
  fresh : ℕ
  result : Except Error α

/-- Seal a path key to the resolution of the sibling subtree; a blank subtree
gets empty bytes. -/
def sealToResolution (sk : PrivateKey) : Option PublicKey → Sealed
  | some pk => encryptNodeKey sk pk
  | none => .empty

/-- The loop of `_updatePath` over the pairs of a path node and its copath
node. -/
def updatePathLoop (t : Tree) (fresh : ℕ) :
    List (ℕ × ℕ) → Outcome (List PathNodeUpdate)
  | [] => ⟨t, fresh, .ok []⟩
  | (nodeIndex, siblingIndex) :: rest =>
      let sk := generateKey fresh
      match t.resolvePublicKey siblingIndex with
      | .error e => ⟨t, fresh + 1, .error e⟩
      | .ok siblingPublicKey =>
          let out :=
            updatePathLoop (t.setNode (keyNode nodeIndex sk)) (fresh + 1) rest
          ⟨out.tree, out.fresh, out.result.map
            (⟨nodeIndex, sk.publicKey,
              sealToResolution sk siblingPublicKey⟩ :: ·)⟩

/-- `_updatePath`: new key pairs along the own direct path, each sealed to the
resolution of the sibling subtree. -/
def updatePath (t : Tree) (fresh : ℕ) : Outcome (PathUpdate × RootSecret) :=
  match t.myLeafIndex, t.myLeafIndex.bind t.publicKeyAt with
  | some myLeafIndex, some senderLeafPublicKey =>
      if t.numLeaves = 1 then
        ⟨t, fresh, t.getRootSecret.map fun rootSecret =>
          (⟨myLeafIndex, senderLeafPublicKey, []⟩, rootSecret)⟩
      else
        match directPath myLeafIndex t.numLeaves,
            copath myLeafIndex t.numLeaves with
        | some dp, some cp =>
            let out := updatePathLoop t fresh (dp.zip cp)
            ⟨out.tree, out.fresh, do
              let nodes ← out.result
              let rootSecret ← out.tree.getRootSecret
              .ok (⟨myLeafIndex, senderLeafPublicKey, nodes⟩, rootSecret)⟩
        | _, _ => ⟨t, fresh, .error .treeMath⟩
  | _, _ => ⟨t, fresh, .error .noPublicKeyAtLeaf⟩

/-- The loop of `_buildWelcome`: the path keys, each sealed to the key before
it. -/
def buildPathKeys (t : Tree) :
    PublicKey → List ℕ → Except Error (List PathNodeUpdate)
  | _, [] => .ok []
  | encryptionKey, nodeIndex :: rest =>
      match t.publicKeyAt nodeIndex, t.privateKeyAt nodeIndex with
      | some publicKey, some privateKey => do
          let pathKeys ← t.buildPathKeys publicKey rest
          .ok (⟨nodeIndex, publicKey,
            encryptNodeKey privateKey encryptionKey⟩ :: pathKeys)
      | _, _ => .error (.missingKey nodeIndex)

/-- `_buildWelcome`. -/
def buildWelcome (t : Tree) (newLeafIndex : ℕ)
    (newMemberPublicKey : PublicKey) : Except Error Welcome := do
  let dp ← liftTree (directPath newLeafIndex t.numLeaves)
  let pathKeys ← t.buildPathKeys newMemberPublicKey dp
  .ok {
    leafIndex := newLeafIndex
    pathKeys
    treeNodePublicKeys := t.nodes.entries.filterMap fun e =>
      if e.1 = newLeafIndex ∨ e.1 ∈ dp then none
      else some ⟨e.1, e.2.publicKey⟩
    treeHash := t.computeTreeHash }

/-! ## Operations of a member -/

/-- `initialize`, whose plain name is a Lean keyword. -/
def initializeTree (sk : PrivateKey) : Tree :=
  ({ nodes := .empty, numLeaves := 1, myLeafIndex := some 0 } : Tree).setNode
    (keyLeaf 0 sk)

/-- The tree of `addMember` before the path is updated. -/
def placeMember (t : Tree) (memberPublicKey : PublicKey) : Tree :=
  ({ t with numLeaves := t.numLeaves + 1 } : Tree).setNode
    ⟨.leaf, leafToNodeIndex t.numLeaves, some memberPublicKey, none⟩

/-- `addMember`. -/
def addMember (t : Tree) (memberPublicKey : PublicKey) (fresh : ℕ) :
    Outcome (PathUpdate × Welcome × RootSecret) :=
  let newLeafIndex := leafToNodeIndex t.numLeaves
  let out := (t.placeMember memberPublicKey).updatePath fresh
  ⟨out.tree, out.fresh, do
    let (pathUpdate, rootSecret) ← out.result
    let welcome ← out.tree.buildWelcome newLeafIndex memberPublicKey
    .ok (pathUpdate, welcome, rootSecret)⟩

/-- A blank internal node. -/
def blankNode (index : ℕ) : TreeNode := ⟨.internal, index, none, none⟩

/-- A blank leaf. -/
def blankLeaf (index : ℕ) : TreeNode := ⟨.leaf, index, none, none⟩

/-- Blank every node of a path. -/
def blankPath (t : Tree) (path : List ℕ) : Tree :=
  path.foldl (fun t nodeIndex => t.setNode (blankNode nodeIndex)) t

/-- Put a newly generated key pair at the own leaf. -/
def rekeyLeaf (t : Tree) (fresh : ℕ) : Tree :=
  match t.myLeafIndex with
  | some myLeafIndex => t.setNode (keyLeaf myLeafIndex (generateKey fresh))
  | none => t

/-- The tree of `removeMember` before the path is updated: the leaf and its
path are blank and our leaf has a new key pair. -/
def blankMember (t : Tree) (memberLeafIndex fresh : ℕ)
    (removedPath : List ℕ) : Tree :=
  ((t.setNode (blankLeaf memberLeafIndex)).blankPath removedPath).rekeyLeaf
    fresh

/-- `removeMember`. -/
def removeMember (t : Tree) (memberLeafIndex fresh : ℕ) :
    Outcome (PathUpdate × RootSecret) :=
  match directPath memberLeafIndex t.numLeaves with
  | none => ⟨t.setNode (blankLeaf memberLeafIndex), fresh, .error .treeMath⟩
  | some removedPath =>
      (t.blankMember memberLeafIndex fresh removedPath).updatePath (fresh + 1)

/-- `update`. -/
def update (t : Tree) (fresh : ℕ) : Outcome (PathUpdate × RootSecret) :=
  (t.rekeyLeaf fresh).updatePath (fresh + 1)

/-! ## Processing messages -/

/-- The private key a receiver opens an update node of its direct path with:
the one at the child on its side, else the first one found below it. -/
def keyOnOurSide (t : Tree) (nodeIndex : ℕ) :
    Except Error (Option PrivateKey) := do
  let childOnOurSide ← t.findChildOnOurSide nodeIndex
  match childOnOurSide with
  | none => .ok none
  | some child =>
      match t.privateKeyAt child with
      | some sk => .ok (some sk)
      | none => t.resolveSubtreeKey child

/-- Decrypt the intersection node; `none` when no key was found. -/
def decryptIntersection (t : Tree) (pathNode : PathNodeUpdate) :
    Except Error (Option PrivateKey) := do
  let key ← t.keyOnOurSide pathNode.nodeIndex
  match key with
  | none => .ok none
  | some sk => (decryptNodeKey pathNode.encryptedPrivateKey sk).map some

/-- Record the sender's new leaf key. -/
def recordSender (t : Tree) (update : PathUpdate) : Tree :=
  t.setNode
    ⟨.leaf, update.senderLeafIndex, some update.senderLeafPublicKey, none⟩

/-- The private key of an update node above the intersection, where the child
on our side has one to open it with. -/
def decryptAbove (t : Tree) (pathNode : PathNodeUpdate) :
    Except Error (Option PrivateKey) := do
  let childOnOurSide ← t.findChildOnOurSide pathNode.nodeIndex
  match childOnOurSide.bind t.privateKeyAt with
  | none => .ok none
  | some sk => (decryptNodeKey pathNode.encryptedPrivateKey sk).map some

/-- Install an update node. -/
def installNode (t : Tree) (pathNode : PathNodeUpdate)
    (privateKey : Option PrivateKey) : Tree :=
  t.setNode
    ⟨.internal, pathNode.nodeIndex, some pathNode.publicKey, privateKey⟩

/-- The loop over the update nodes above the intersection. -/
def installAbove (t : Tree) :
    List PathNodeUpdate → Tree × Except Error Unit
  | [] => (t, .ok ())
  | pathNode :: rest =>
      match t.decryptAbove pathNode with
      | .error e => (t, .error e)
      | .ok privateKey => (t.installNode pathNode privateKey).installAbove rest

/-- The loop over the update nodes below the intersection. -/
def installBelow (t : Tree) (nodes : List PathNodeUpdate) : Tree :=
  nodes.foldl (fun t pathNode => t.installNode pathNode none) t

/-- `processPathUpdate`. -/
def processPathUpdate (t : Tree) (update : PathUpdate) :
    Tree × Except Error RootSecret :=
  let t := t.recordSender update
  match t.myLeafIndex with
  | none => (t, .error .treeMath)
  | some myLeafIndex =>
      match copath myLeafIndex t.numLeaves,
          directPath myLeafIndex t.numLeaves with
      | some _, some myDirectPath =>
          let below := update.nodes.takeWhile (·.nodeIndex ∉ myDirectPath)
          match update.nodes.dropWhile (·.nodeIndex ∉ myDirectPath) with
          | [] => (t, .error .noIntersection)
          | pathNode :: above =>
              match t.decryptIntersection pathNode with
              | .error e => (t, .error e)
              | .ok none => (t, .error .noIntersection)
              | .ok (some sk) =>
                  match (t.installNode pathNode (some sk)).installAbove
                      above with
                  | (t, .error e) => (t, .error e)
                  | (t, .ok ()) =>
                      let t := t.installBelow below
                      (t, t.getRootSecret)
      | _, _ => (t, .error .treeMath)

/-- The leaf count that the node index of a path key implies. -/
def impliedLeaves (nodeIndex : ℕ) : ℕ :=
  (if nodeIndex % 2 = 0 then nodeIndex else nodeIndex + 1) >>> 1 + 1

/-- The loop of `processWelcome` over the path keys. -/
def installPathKeys (t : Tree) :
    PrivateKey → List PathNodeUpdate → Tree × Except Error Unit
  | _, [] => (t, .ok ())
  | currentPrivateKey, pathKey :: rest =>
      match decryptNodeKey pathKey.encryptedPrivateKey currentPrivateKey with
      | .error e => (t, .error e)
      | .ok sk => (t.installNode pathKey (some sk)).installPathKeys sk rest

/-- The loop of `processWelcome` over the other public keys. -/
def installPublicKeys (t : Tree) (entries : List WelcomeNodePublicKey) :
    Tree :=
  entries.foldl (fun t e =>
    t.setNode ⟨if isLeaf e.nodeIndex then .leaf else .internal, e.nodeIndex,
      e.publicKey, none⟩) t

/-- `processWelcome`. -/
def processWelcome (t : Tree) (welcome : Welcome) (sk : PrivateKey) :
    Tree × Except Error RootSecret :=
  let t := { t with myLeafIndex := some welcome.leafIndex }
  match nodeToLeafIndex welcome.leafIndex with
  | none => (t, .error .treeMath)
  | some leafPosition =>
      let maxFromPath :=
        (welcome.pathKeys.map fun pk => impliedLeaves pk.nodeIndex).foldl max
          (leafPosition + 1)
      let t := { t with numLeaves := max t.numLeaves maxFromPath }
      let t := t.setNode (keyLeaf welcome.leafIndex sk)
      match t.installPathKeys sk welcome.pathKeys with
      | (t, .error e) => (t, .error e)
      | (t, .ok ()) =>
          let t := t.installPublicKeys welcome.treeNodePublicKeys
          if t.computeTreeHash = welcome.treeHash then (t, t.getRootSecret)
          else (t, .error .treeHashMismatch)

end Tree

end Collabswarm.BeeKEM
