import Collabswarm.BeeKEM.Path
import Collabswarm.Support.Bytes

/-!
# Path updates as they arrive

A path update from the wire carries bytes where the tree holds keys:
`importKey` may refuse them, and it is called for one node after the other,
between the writes to the tree.  `written` lists the nodes that processing an
update sets, in their order.  A node index is below `2 ^ 31`.
-/

namespace Collabswarm.BeeKEM

/-- A node of a path update on the wire. -/
structure RawPathNode where
  nodeIndex : ℕ
  publicKey : Bytes
  encryptedPrivateKey : Bytes
deriving DecidableEq, Repr

/-- A path update on the wire. -/
structure RawPathUpdate where
  senderLeafIndex : ℕ
  senderLeafPublicKey : Bytes
  nodes : List RawPathNode
deriving DecidableEq, Repr

/-- What the bytes of a message are to the cryptography: `importKey`, which
may throw, and the sealed box that some bytes are. -/
structure ByteCrypto where
  importKey : Bytes → Option PublicKey
  sealedBox : Bytes → Sealed

/-- What `processPathUpdate` throws. -/
inductive RawError where
  -- the `DataError` of `importKey`
  | importKey
  | beekem (e : Error)
deriving DecidableEq, Repr

namespace Tree

open TreeMath

variable (c : ByteCrypto)

/-- Decrypt the intersection node; `none` when no key was found. -/
def decryptRaw (t : Tree) (pathNode : RawPathNode) :
    Except Error (Option PrivateKey) := do
  let key ← t.keyOnOurSide pathNode.nodeIndex
  match key with
  | none => .ok none
  | some sk =>
      (decryptNodeKey (c.sealedBox pathNode.encryptedPrivateKey) sk).map some

/-- The private key of a node above the intersection, where the child on our
side has one to open it with. -/
def decryptRawAbove (t : Tree) (pathNode : RawPathNode) :
    Except Error (Option PrivateKey) := do
  let childOnOurSide ← t.findChildOnOurSide pathNode.nodeIndex
  match childOnOurSide.bind t.privateKeyAt with
  | none => .ok none
  | some sk =>
      (decryptNodeKey (c.sealedBox pathNode.encryptedPrivateKey) sk).map some

/-- The loop over the nodes above the intersection. -/
def installRawAbove (t : Tree) :
    List RawPathNode → Tree × Except RawError Unit
  | [] => (t, .ok ())
  | pathNode :: rest =>
      match c.importKey pathNode.publicKey with
      | none => (t, .error .importKey)
      | some publicKey =>
          match t.decryptRawAbove c pathNode with
          | .error e => (t, .error (.beekem e))
          | .ok privateKey =>
              (t.setNode ⟨.internal, pathNode.nodeIndex, some publicKey,
                privateKey⟩).installRawAbove rest

/-- The loop over the nodes below the intersection. -/
def installRawBelow (t : Tree) :
    List RawPathNode → Tree × Except RawError Unit
  | [] => (t, .ok ())
  | pathNode :: rest =>
      match c.importKey pathNode.publicKey with
      | none => (t, .error .importKey)
      | some publicKey =>
          (t.setNode ⟨.internal, pathNode.nodeIndex, some publicKey,
            none⟩).installRawBelow rest

/-- `processPathUpdate` of an update from the wire. -/
def processRawPathUpdate (t : Tree) (update : RawPathUpdate) :
    Tree × Except RawError RootSecret :=
  match c.importKey update.senderLeafPublicKey with
  | none => (t, .error .importKey)
  | some senderLeafPublicKey =>
      let t := t.setNode
        ⟨.leaf, update.senderLeafIndex, some senderLeafPublicKey, none⟩
      match t.myLeafIndex with
      | none => (t, .error (.beekem .treeMath))
      | some myLeafIndex =>
          match copath myLeafIndex t.numLeaves,
              directPath myLeafIndex t.numLeaves with
          | some _, some myDirectPath =>
              match update.nodes.dropWhile (·.nodeIndex ∉ myDirectPath) with
              | [] => (t, .error (.beekem .noIntersection))
              | pathNode :: above =>
                  match t.decryptRaw c pathNode with
                  | .error e => (t, .error (.beekem e))
                  | .ok none => (t, .error (.beekem .noIntersection))
                  | .ok (some sk) =>
                      match c.importKey pathNode.publicKey with
                      | none => (t, .error .importKey)
                      | some publicKey =>
                          match (t.setNode ⟨.internal, pathNode.nodeIndex,
                              some publicKey, some sk⟩).installRawAbove c
                              above with
                          | (t, .error e) => (t, .error e)
                          | (t, .ok ()) =>
                              match t.installRawBelow c (update.nodes.takeWhile
                                  (·.nodeIndex ∉ myDirectPath)) with
                              | (t, .error e) => (t, .error e)
                              | (t, .ok ()) =>
                                  (t, t.getRootSecret.mapError .beekem)
          | _, _ => (t, .error (.beekem .treeMath))

/-! ## The nodes that are set -/

/-- The nodes set by the loop above the intersection, and whether it came to
its end. -/
def writtenAbove (t : Tree) : List RawPathNode → List TreeNode × Bool
  | [] => ([], true)
  | pathNode :: rest =>
      match c.importKey pathNode.publicKey, t.decryptRawAbove c pathNode with
      | some publicKey, .ok privateKey =>
          let node : TreeNode :=
            ⟨.internal, pathNode.nodeIndex, some publicKey, privateKey⟩
          let (nodes, ended) := writtenAbove (t.setNode node) rest
          (node :: nodes, ended)
      | _, _ => ([], false)

/-- The nodes set by the loop below the intersection: those up to the first
one whose public key is refused. -/
def writtenBelow : List RawPathNode → List TreeNode
  | [] => []
  | pathNode :: rest =>
      match c.importKey pathNode.publicKey with
      | none => []
      | some publicKey =>
          ⟨.internal, pathNode.nodeIndex, some publicKey, none⟩ ::
            writtenBelow rest

/-- The first node of an update on our direct path with the key it opens to,
as it is set in the tree, and the nodes below and above it. -/
def openedNode (t : Tree) (update : RawPathUpdate) :
    Option (List RawPathNode × TreeNode × List RawPathNode) := do
  let myLeafIndex ← t.myLeafIndex
  let _ ← copath myLeafIndex t.numLeaves
  let myDirectPath ← directPath myLeafIndex t.numLeaves
  match update.nodes.dropWhile (·.nodeIndex ∉ myDirectPath) with
  | [] => none
  | pathNode :: above =>
      match t.decryptRaw c pathNode, c.importKey pathNode.publicKey with
      | .ok (some sk), some publicKey =>
          some (update.nodes.takeWhile (·.nodeIndex ∉ myDirectPath),
            ⟨.internal, pathNode.nodeIndex, some publicKey, some sk⟩, above)
      | _, _ => none

/-- The nodes set after the sender's leaf. -/
def writtenPath (t : Tree) (update : RawPathUpdate) : List TreeNode :=
  match t.openedNode c update with
  | none => []
  | some (below, node, above) =>
      match (t.setNode node).writtenAbove c above with
      | (nodes, false) => node :: nodes
      | (nodes, true) => node :: (nodes ++ writtenBelow c below)

/-- The nodes that processing an update sets: the sender's leaf if its key is
accepted, then the first node on our direct path if it can be opened, the nodes
above it up to one that is refused, and if there is none those below it. -/
def written (t : Tree) (update : RawPathUpdate) : List TreeNode :=
  match c.importKey update.senderLeafPublicKey with
  | none => []
  | some senderLeafPublicKey =>
      let sender : TreeNode :=
        ⟨.leaf, update.senderLeafIndex, some senderLeafPublicKey, none⟩
      sender :: (t.setNode sender).writtenPath c update

variable {c}

theorem installRawAbove_eq :
    ∀ (above : List RawPathNode) (t : Tree),
      (t.installRawAbove c above).1 =
        (t.writtenAbove c above).1.foldl setNode t ∧
      ((t.writtenAbove c above).2 = true ↔
        (t.installRawAbove c above).2 = .ok ()) := by
  intro above
  induction above with
  | nil =>
      intro t
      exact ⟨rfl, by simp [writtenAbove, installRawAbove]⟩
  | cons pathNode above ih =>
      intro t
      rw [installRawAbove, writtenAbove]
      rcases c.importKey pathNode.publicKey with _ | publicKey
      · exact ⟨rfl, by simp⟩
      · rcases t.decryptRawAbove c pathNode with e | privateKey
        · exact ⟨rfl, by simp⟩
        · exact ih _

theorem installRawBelow_eq :
    ∀ (below : List RawPathNode) (t : Tree),
      (t.installRawBelow c below).1 =
        (writtenBelow c below).foldl setNode t := by
  intro below
  induction below with
  | nil =>
      intro t
      rfl
  | cons pathNode below ih =>
      intro t
      rw [installRawBelow, writtenBelow]
      rcases c.importKey pathNode.publicKey with _ | publicKey
      · rfl
      · exact ih _

/-- Processing an update sets the written nodes and changes nothing else. -/
theorem processRawPathUpdate_eq (t : Tree) (update : RawPathUpdate) :
    (t.processRawPathUpdate c update).1 =
      (t.written c update).foldl setNode t := by
  rw [processRawPathUpdate, written]
  rcases c.importKey update.senderLeafPublicKey with _ | senderLeafPublicKey
  · rfl
  dsimp only
  set sender : TreeNode :=
    ⟨.leaf, update.senderLeafIndex, some senderLeafPublicKey, none⟩
  rw [List.foldl_cons]
  generalize t.setNode sender = t'
  rw [writtenPath]
  rcases hleaf : t'.myLeafIndex with _ | my
  · simp only [openedNode, hleaf, bind, Option.bind_none, List.foldl_nil]
  dsimp only
  rcases hcp : copath my t'.numLeaves with _ | cp
  · simp only [openedNode, hleaf, hcp, bind, Option.bind_some,
      Option.bind_none, List.foldl_nil]
  rcases hdp : directPath my t'.numLeaves with _ | dp
  · simp only [openedNode, hleaf, hcp, hdp, bind, Option.bind_some,
      Option.bind_none, List.foldl_nil]
  simp only [openedNode, hleaf, hcp, hdp, bind, Option.bind_some]
  split
  · rfl
  rename_i pathNode above hdrop
  rcases hopen : t'.decryptRaw c pathNode with e | _ | sk
  · rfl
  · rfl
  rcases hkey : c.importKey pathNode.publicKey with _ | publicKey
  · rfl
  dsimp only
  set node : TreeNode :=
    ⟨.internal, pathNode.nodeIndex, some publicKey, some sk⟩
  obtain ⟨htree, hended⟩ := installRawAbove_eq (c := c) above (t'.setNode node)
  rcases hinstall : (t'.setNode node).installRawAbove c above with
    ⟨after, e | ⟨⟩⟩
  · rw [hinstall] at htree hended
    rcases hwritten : (t'.setNode node).writtenAbove c above with ⟨nodes, _ | _⟩
    · rw [hwritten] at htree
      exact htree
    · rw [hwritten] at hended
      simp at hended
  · rw [hinstall] at htree hended
    rcases hwritten : (t'.setNode node).writtenAbove c above with ⟨nodes, _ | _⟩
    · rw [hwritten] at hended
      simp at hended
    · rw [hwritten] at htree
      dsimp only at htree ⊢
      have hbelow := installRawBelow_eq (c := c)
        (update.nodes.takeWhile (·.nodeIndex ∉ dp)) after
      rw [List.foldl_cons, List.foldl_append, ← htree, ← hbelow]
      rcases after.installRawBelow c
        (update.nodes.takeWhile (·.nodeIndex ∉ dp)) with ⟨final, e | ⟨⟩⟩
      · rfl
      · rfl

/-! ## Updates whose keys are all accepted -/

/-- The node of a path update that a node from the wire stands for. -/
def typedNode (c : ByteCrypto) (key : Bytes → PublicKey) (n : RawPathNode) :
    PathNodeUpdate :=
  ⟨n.nodeIndex, key n.publicKey, c.sealedBox n.encryptedPrivateKey⟩

/-- The path update that an update from the wire stands for. -/
def typed (c : ByteCrypto) (key : Bytes → PublicKey) (u : RawPathUpdate) :
    PathUpdate where
  senderLeafIndex := u.senderLeafIndex
  senderLeafPublicKey := key u.senderLeafPublicKey
  nodes := u.nodes.map (typedNode c key)

theorem installRawAbove_typed {key : Bytes → PublicKey} :
    ∀ (above : List RawPathNode) (t : Tree),
      (∀ n ∈ above, c.importKey n.publicKey = some (key n.publicKey)) →
      t.installRawAbove c above =
        ((t.installAbove (above.map (typedNode c key))).1,
          (t.installAbove (above.map (typedNode c key))).2.mapError
            .beekem) := by
  intro above
  induction above with
  | nil =>
      intro t _
      rfl
  | cons pathNode above ih =>
      intro t hkeys
      rw [installRawAbove, List.map_cons, installAbove,
        hkeys pathNode List.mem_cons_self]
      have hdecrypt : t.decryptRawAbove c pathNode =
          t.decryptAbove (typedNode c key pathNode) := rfl
      rw [hdecrypt]
      dsimp only
      rcases t.decryptAbove (typedNode c key pathNode) with e | privateKey
      · rfl
      · exact ih _ fun n hn => hkeys n (List.mem_cons_of_mem _ hn)

theorem installRawBelow_typed {key : Bytes → PublicKey} :
    ∀ (below : List RawPathNode) (t : Tree),
      (∀ n ∈ below, c.importKey n.publicKey = some (key n.publicKey)) →
      t.installRawBelow c below =
        (t.installBelow (below.map (typedNode c key)), .ok ()) := by
  intro below
  induction below with
  | nil =>
      intro t _
      rfl
  | cons pathNode below ih =>
      intro t hkeys
      rw [installRawBelow, hkeys pathNode List.mem_cons_self]
      exact ih _ fun n hn => hkeys n (List.mem_cons_of_mem _ hn)

/-- Where every public key is accepted, an update from the wire is processed
as the path update it stands for. -/
theorem processRawPathUpdate_typed (t : Tree) (u : RawPathUpdate)
    {key : Bytes → PublicKey}
    (hsender : c.importKey u.senderLeafPublicKey =
      some (key u.senderLeafPublicKey))
    (hkeys : ∀ n ∈ u.nodes, c.importKey n.publicKey =
      some (key n.publicKey)) :
    t.processRawPathUpdate c u =
      ((t.processPathUpdate (typed c key u)).1,
        (t.processPathUpdate (typed c key u)).2.mapError .beekem) := by
  rw [processRawPathUpdate, processPathUpdate, hsender]
  dsimp only [typed, recordSender]
  generalize t.setNode ⟨.leaf, u.senderLeafIndex,
    some (key u.senderLeafPublicKey), none⟩ = t'
  rcases hleaf : t'.myLeafIndex with _ | my
  · rfl
  dsimp only
  rcases copath my t'.numLeaves with _ | cp
  · rfl
  rcases directPath my t'.numLeaves with _ | dp
  · rfl
  dsimp only
  have hindex : (fun n : PathNodeUpdate => decide (n.nodeIndex ∉ dp)) ∘
      typedNode c key = fun n => decide (n.nodeIndex ∉ dp) := rfl
  rw [List.dropWhile_map, List.takeWhile_map, hindex]
  generalize hdrop : List.dropWhile _ u.nodes = rest
  have hmem : ∀ n ∈ rest, n ∈ u.nodes := by
    intro n hn
    rw [← hdrop] at hn
    exact (List.dropWhile_sublist _).subset hn
  rcases rest with _ | ⟨pathNode, above⟩
  · rfl
  rw [List.map_cons]
  dsimp only
  have hdecrypt : t'.decryptRaw c pathNode =
      t'.decryptIntersection (typedNode c key pathNode) := rfl
  rw [hdecrypt]
  rcases t'.decryptIntersection (typedNode c key pathNode) with e | _ | sk
  · rfl
  · rfl
  rw [hkeys pathNode (hmem _ List.mem_cons_self)]
  dsimp only
  rw [installRawAbove_typed above _ fun n hn =>
    hkeys n (hmem n (List.mem_cons_of_mem _ hn))]
  have hinstall : t'.setNode ⟨.internal, pathNode.nodeIndex,
      some (key pathNode.publicKey), some sk⟩ =
        t'.installNode (typedNode c key pathNode) (some sk) := rfl
  rw [hinstall]
  rcases (t'.installNode (typedNode c key pathNode) (some sk)).installAbove
    (above.map (typedNode c key)) with ⟨after, e | ⟨⟩⟩
  · rfl
  · dsimp only [Except.mapError]
    rw [installRawBelow_typed _ _ fun n hn =>
      hkeys n ((List.takeWhile_sublist _).subset hn)]

/-! ## Setting nodes to what they are -/

/-- Every node of the list stands in the tree as it is listed, where a later
node of the list does not take its place. -/
def restated (t : Tree) : List TreeNode → Bool
  | [] => true
  | node :: rest =>
      (decide (t.nodes.get? node.index = some node) ||
        decide (node.index ∈ rest.map TreeNode.index)) && t.restated rest

theorem foldl_setNode_frame :
    ∀ (nodes : List TreeNode) (t : Tree),
      (nodes.foldl setNode t).numLeaves = t.numLeaves ∧
      (nodes.foldl setNode t).myLeafIndex = t.myLeafIndex ∧
      ∀ i, i ∉ nodes.map TreeNode.index →
        (nodes.foldl setNode t).nodes.get? i = t.nodes.get? i := by
  intro nodes
  induction nodes with
  | nil =>
      intro t
      exact ⟨rfl, rfl, fun _ _ => rfl⟩
  | cons node nodes ih =>
      intro t
      obtain ⟨hn, hmy, hget⟩ := ih (t.setNode node)
      refine ⟨hn, hmy, ?_⟩
      intro i hi
      rw [List.map_cons, List.mem_cons, not_or] at hi
      rw [List.foldl_cons, hget i hi.2, get?_setNode, if_neg hi.1]

/-- The indices that are set hold their old nodes exactly when the list
restates them. -/
theorem forall_get?_foldl_iff {t : Tree} :
    ∀ (nodes : List TreeNode) (t' : Tree),
      (∀ node ∈ nodes, (nodes.foldl setNode t').nodes.get? node.index =
        t.nodes.get? node.index) ↔ t.restated nodes = true := by
  intro nodes
  induction nodes with
  | nil =>
      intro t'
      simp [restated]
  | cons node nodes ih =>
      intro t'
      rw [restated, Bool.and_eq_true, Bool.or_eq_true, decide_eq_true_eq,
        decide_eq_true_eq, ← ih (t'.setNode node), List.foldl_cons]
      have hnode : node.index ∉ nodes.map TreeNode.index →
          (nodes.foldl setNode (t'.setNode node)).nodes.get? node.index =
            some node := by
        intro hmem
        rw [(foldl_setNode_frame nodes _).2.2 _ hmem, get?_setNode, if_pos rfl]
      constructor
      · intro h
        refine ⟨?_, fun later hlater => h later (List.mem_cons_of_mem _ hlater)⟩
        by_cases hmem : node.index ∈ nodes.map TreeNode.index
        · exact Or.inr hmem
        · exact Or.inl ((h node List.mem_cons_self).symm.trans (hnode hmem))
      · rintro ⟨hfirst, hrest⟩ later hlater
        rcases List.mem_cons.1 hlater with rfl | hlater
        · by_cases hmem : later.index ∈ nodes.map TreeNode.index
          · obtain ⟨last, hlast, hindex⟩ := List.mem_map.1 hmem
            rw [← hindex]
            exact hrest last hlast
          · rw [hnode hmem, hfirst.resolve_right hmem]
        · exact hrest later hlater

theorem restated_index_mem {t : Tree} :
    ∀ {nodes : List TreeNode}, t.restated nodes = true →
      ∀ node ∈ nodes, node.index ∈ t.nodes.keys := by
  intro nodes
  induction nodes with
  | nil =>
      intro _ node hnode
      cases hnode
  | cons first nodes ih =>
      intro h node hnode
      rw [restated, Bool.and_eq_true, Bool.or_eq_true, decide_eq_true_eq,
        decide_eq_true_eq] at h
      rcases List.mem_cons.1 hnode with rfl | hnode
      · rcases h.1 with hget | hmem
        · rw [InsertionMap.mem_keys_iff, hget]
          rfl
        · obtain ⟨last, hlast, hindex⟩ := List.mem_map.1 hmem
          rw [← hindex]
          exact ih h.2 last hlast
      · exact ih h.2 node hnode

theorem keys_foldl_setNode :
    ∀ (nodes : List TreeNode) (t : Tree),
      (∀ node ∈ nodes, node.index ∈ t.nodes.keys) →
      (nodes.foldl setNode t).nodes.keys = t.nodes.keys := by
  intro nodes
  induction nodes with
  | nil =>
      intro t _
      rfl
  | cons node nodes ih =>
      intro t hmem
      have hkeys : (t.setNode node).nodes.keys = t.nodes.keys :=
        t.nodes.keys_set_of_mem node (hmem node List.mem_cons_self)
      rw [List.foldl_cons, ih, hkeys]
      intro later hlater
      rw [hkeys]
      exact hmem later (List.mem_cons_of_mem _ hlater)

/-- Setting nodes leaves the tree as it is exactly when they are restated. -/
theorem foldl_setNode_eq_iff (t : Tree) (nodes : List TreeNode) :
    nodes.foldl setNode t = t ↔ t.restated nodes = true := by
  rw [← forall_get?_foldl_iff nodes t]
  constructor
  · intro h node _
    rw [h]
  · intro h
    obtain ⟨hn, hmy, hget⟩ := foldl_setNode_frame nodes t
    have hrestated := (forall_get?_foldl_iff nodes t).1 h
    have hnodes : (nodes.foldl setNode t).nodes = t.nodes := by
      apply InsertionMap.eq_of_keys_eq
      · exact keys_foldl_setNode nodes t (restated_index_mem hrestated)
      · intro i
        by_cases hi : i ∈ nodes.map TreeNode.index
        · obtain ⟨node, hnode, rfl⟩ := List.mem_map.1 hi
          exact h node hnode
        · exact hget i hi
    generalize nodes.foldl setNode t = t' at hn hmy hnodes ⊢
    cases t
    cases t'
    cases hn
    cases hmy
    cases hnodes
    rfl

end Tree

end Collabswarm.BeeKEM
