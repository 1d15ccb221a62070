import Collabswarm.BeeKEM.Receive
import Collabswarm.BeeKEM.Processing

/-!
# Compacting the tree

`compact` deletes a blank leaf together with its direct path when that path is
blank as well.  Every other method reads a missing node as a blank one, so two
instances that differ in deleted blank nodes return the same whatever is called
on them.  The order in which a Welcome lists the other nodes is the exception:
it is the order of insertion, and a node that was deleted and set again moves
to the end.
-/

namespace Collabswarm.BeeKEM.Tree

open TreeMath

/-! ## The method -/

/-- `!node || node.publicKey === null`. -/
def isBlankAt (t : Tree) (nodeIndex : ℕ) : Bool :=
  (t.publicKeyAt nodeIndex).isNone

/-- `this._nodes.delete`. -/
def deleteNode (t : Tree) (nodeIndex : ℕ) : Tree :=
  { t with nodes := t.nodes.erase nodeIndex }

/-- The blanked leaves, collected before any node is deleted. -/
def blankedLeaves (t : Tree) : List ℕ :=
  ((List.range t.numLeaves).map leafToNodeIndex).filter t.isBlankAt

/-- The loop of `compact` over the blanked leaves. -/
def compactLoop (t : Tree) : List ℕ → Tree × Except Error Unit
  | [] => (t, .ok ())
  | leafIndex :: rest =>
      if t.numLeaves ≤ 1 then (t, .ok ())
      else
        match directPath leafIndex t.numLeaves with
        | none => (t, .error .treeMath)
        | some path =>
            if path.all t.isBlankAt then
              ((leafIndex :: path).foldl deleteNode t).compactLoop rest
            else t.compactLoop rest

/-- `compact`. -/
def compact (t : Tree) : Tree × Except Error Unit :=
  t.compactLoop t.blankedLeaves

/-! ## Calls on an instance -/

/-- A call of a method of the class. -/
inductive Operation where
  | initializeTree (sk : PrivateKey)
  | addMember (memberPublicKey : PublicKey)
  | removeMember (memberLeafIndex : ℕ)
  | update
  | processPathUpdate (update : PathUpdate)
  | processWelcome (welcome : Welcome) (sk : PrivateKey)
  | compact
  | getRootSecret
  | findLeafByPublicKey (publicKey : PublicKey)
  | computeTreeHash

/-- What a call returns or throws. -/
inductive Reply where
  | done (result : Except Error Unit)
  | secret (result : Except Error RootSecret)
  | pathUpdate (result : Except Error (PathUpdate × RootSecret))
  | member (result : Except Error (PathUpdate × Welcome × RootSecret))
  | leaf (result : Option ℕ)
  | treeHash (result : List (ℕ × PublicKey))

/-- A call, with the number of the next key pair that it generates: the
instance it leaves, the next unused number and the reply. -/
def perform (t : Tree) (fresh : ℕ) : Operation → Tree × ℕ × Reply
  | .initializeTree sk => (Tree.initializeTree sk, fresh, .done (.ok ()))
  | .addMember memberPublicKey =>
      let out := t.addMember memberPublicKey fresh
      (out.tree, out.fresh, .member out.result)
  | .removeMember memberLeafIndex =>
      let out := t.removeMember memberLeafIndex fresh
      (out.tree, out.fresh, .pathUpdate out.result)
  | .update =>
      let out := t.update fresh
      (out.tree, out.fresh, .pathUpdate out.result)
  | .processPathUpdate update =>
      let out := t.processPathUpdate update
      (out.1, fresh, .secret out.2)
  | .processWelcome welcome sk =>
      let out := t.processWelcome welcome sk
      (out.1, fresh, .secret out.2)
  | .compact => (t.compact.1, fresh, .done t.compact.2)
  | .getRootSecret => (t, fresh, .secret t.getRootSecret)
  | .findLeafByPublicKey publicKey =>
      (t, fresh, .leaf (t.findLeafByPublicKey publicKey))
  | .computeTreeHash => (t, fresh, .treeHash t.computeTreeHash)

/-- Calls one after the other, with all their replies. -/
def performAll (t : Tree) (fresh : ℕ) : List Operation → Tree × ℕ × List Reply
  | [] => (t, fresh, [])
  | operation :: rest =>
      let out := t.perform fresh operation
      let later := performAll out.1 out.2.1 rest
      (later.1, later.2.1, out.2.2 :: later.2.2)

/-! ## Deleted blank nodes -/

/-- The second instance lacks some of the blank nodes of the first and is the
same otherwise.  No blank node has a private key. -/
structure Pruned (t t' : Tree) : Prop where
  numLeaves : t'.numLeaves = t.numLeaves
  myLeafIndex : t'.myLeafIndex = t.myLeafIndex
  blank : ∀ i, t.publicKeyAt i = none → t.privateKeyAt i = none
  node : ∀ i, t'.nodes.get? i = t.nodes.get? i ∨
    (t'.nodes.get? i = none ∧ t.publicKeyAt i = none)

section Pruned

variable {t t' : Tree}

theorem Pruned.publicKeyAt_eq (h : Pruned t t') (i : ℕ) :
    t'.publicKeyAt i = t.publicKeyAt i := by
  rcases h.node i with heq | ⟨hnone, hblank⟩
  · rw [publicKeyAt, publicKeyAt, heq]
  · rw [hblank, publicKeyAt, hnone]
    rfl

theorem Pruned.privateKeyAt_eq (h : Pruned t t') (i : ℕ) :
    t'.privateKeyAt i = t.privateKeyAt i := by
  rcases h.node i with heq | ⟨hnone, hblank⟩
  · rw [privateKeyAt, privateKeyAt, heq]
  · rw [h.blank i hblank, privateKeyAt, hnone]
    rfl

theorem pruned_new : Pruned new new :=
  ⟨rfl, rfl, fun _ _ => rfl, fun _ => Or.inl rfl⟩

theorem Pruned.setNode (h : Pruned t t') {node : TreeNode}
    (hnode : node.publicKey = none → node.privateKey = none) :
    Pruned (t.setNode node) (t'.setNode node) where
  numLeaves := h.numLeaves
  myLeafIndex := h.myLeafIndex
  blank := by
    intro i
    rw [publicKeyAt_setNode, privateKeyAt_setNode]
    split
    · exact hnode
    · exact h.blank i
  node := by
    intro i
    rw [get?_setNode, get?_setNode, publicKeyAt_setNode]
    split
    · exact Or.inl rfl
    · exact h.node i

theorem Pruned.keyed (h : Pruned t t') (type : NodeType) (index : ℕ)
    (publicKey : PublicKey) (privateKey : Option PrivateKey) :
    Pruned (t.setNode ⟨type, index, some publicKey, privateKey⟩)
      (t'.setNode ⟨type, index, some publicKey, privateKey⟩) :=
  h.setNode nofun

theorem Pruned.withLeaves (h : Pruned t t') (numLeaves : ℕ)
    (myLeafIndex : Option ℕ) :
    Pruned { t with numLeaves, myLeafIndex }
      { t' with numLeaves, myLeafIndex } :=
  ⟨rfl, rfl, h.blank, h.node⟩

/-- Deleting the same node on both sides. -/
theorem Pruned.deleteNode (h : Pruned t t') (nodeIndex : ℕ) :
    Pruned (t.deleteNode nodeIndex) (t'.deleteNode nodeIndex) where
  numLeaves := h.numLeaves
  myLeafIndex := h.myLeafIndex
  blank := by
    intro i hi
    simp only [Tree.publicKeyAt, Tree.privateKeyAt, Tree.deleteNode,
      InsertionMap.get?_erase] at hi ⊢
    split at hi
    · rw [if_pos ‹_›]
      rfl
    · rw [if_neg ‹_›]
      exact h.blank i hi
  node := by
    intro i
    simp only [Tree.publicKeyAt, Tree.deleteNode, InsertionMap.get?_erase]
    split
    · exact Or.inl rfl
    · exact h.node i

/-- Deleting a blank node on one side. -/
theorem Pruned.deleteBlank (h : Pruned t t') {nodeIndex : ℕ}
    (hblank : t.publicKeyAt nodeIndex = none) :
    Pruned t (t'.deleteNode nodeIndex) where
  numLeaves := h.numLeaves
  myLeafIndex := h.myLeafIndex
  blank := h.blank
  node := by
    intro i
    simp only [Tree.deleteNode, InsertionMap.get?_erase]
    split
    · rename_i heq
      exact Or.inr ⟨rfl, heq ▸ hblank⟩
    · exact h.node i

/-! ## What is read -/

/-- A resolution reads the leaf count and the keys. -/
theorem resolve_eq_of_key {α : Type} {key : TreeNode → Option α}
    (hn : t'.numLeaves = t.numLeaves)
    (hkey : ∀ i, (t'.nodes.get? i).bind key = (t.nodes.get? i).bind key) :
    ∀ fuel nodeIndex,
      t'.resolve key fuel nodeIndex = t.resolve key fuel nodeIndex := by
  intro fuel
  induction fuel with
  | zero =>
      intro nodeIndex
      rfl
  | succ fuel ih =>
      intro nodeIndex
      rw [resolve, resolve, hkey, hn]
      simp only [ih]

theorem Pruned.resolvePublicKey_eq (h : Pruned t t') (nodeIndex : ℕ) :
    t'.resolvePublicKey nodeIndex = t.resolvePublicKey nodeIndex :=
  resolve_eq_of_key h.numLeaves h.publicKeyAt_eq _ _

theorem Pruned.resolveSubtreeKey_eq (h : Pruned t t') (nodeIndex : ℕ) :
    t'.resolveSubtreeKey nodeIndex = t.resolveSubtreeKey nodeIndex :=
  resolve_eq_of_key h.numLeaves h.privateKeyAt_eq _ _

theorem Pruned.findChildOnOurSide_eq (h : Pruned t t') (nodeIndex : ℕ) :
    t'.findChildOnOurSide nodeIndex = t.findChildOnOurSide nodeIndex := by
  rw [findChildOnOurSide, findChildOnOurSide, h.numLeaves, h.myLeafIndex]

theorem Pruned.computeTreeHash_eq (h : Pruned t t') :
    t'.computeTreeHash = t.computeTreeHash :=
  computeTreeHash_congr h.publicKeyAt_eq

theorem Pruned.getRootSecret_eq (h : Pruned t t') :
    t'.getRootSecret = t.getRootSecret :=
  getRootSecret_congr h.numLeaves (h.privateKeyAt_eq _)

theorem Pruned.findLeafByPublicKey_eq (h : Pruned t t')
    (publicKey : PublicKey) :
    t'.findLeafByPublicKey publicKey = t.findLeafByPublicKey publicKey := by
  rw [findLeafByPublicKey, findLeafByPublicKey, h.numLeaves]
  congr 1
  funext nodeIndex
  rcases h.node nodeIndex with heq | ⟨hnone, hblank⟩
  · rw [heq]
  · -- a blank leaf has no key that could match
    rw [hnone]
    rcases hget : t.nodes.get? nodeIndex with _ | node
    · rfl
    · rw [publicKeyAt, hget, Option.bind_some] at hblank
      simp [hblank]

/-! ## Updating the own path -/

/-- The same key pairs are generated and the same is returned or thrown. -/
structure SameOutcome {α : Type} (out out' : Outcome α) : Prop where
  tree : Pruned out.tree out'.tree
  fresh : out'.fresh = out.fresh
  result : out'.result = out.result

theorem updatePathLoop_pruned :
    ∀ (pairs : List (ℕ × ℕ)) (t t' : Tree) (fresh : ℕ), Pruned t t' →
      SameOutcome (updatePathLoop t fresh pairs)
        (updatePathLoop t' fresh pairs) := by
  intro pairs
  induction pairs with
  | nil =>
      intro t t' fresh h
      exact ⟨h, rfl, rfl⟩
  | cons pair rest ih =>
      intro t t' fresh h
      obtain ⟨nodeIndex, siblingIndex⟩ := pair
      rw [updatePathLoop, updatePathLoop, h.resolvePublicKey_eq]
      rcases t.resolvePublicKey siblingIndex with e | siblingPublicKey
      · exact ⟨h, rfl, rfl⟩
      · have hnode : Pruned (t.setNode (keyNode nodeIndex (generateKey fresh)))
            (t'.setNode (keyNode nodeIndex (generateKey fresh))) :=
          h.setNode fun hnone => by cases hnone
        obtain ⟨htree, hfresh, hresult⟩ := ih _ _ (fresh + 1) hnode
        exact ⟨htree, hfresh, by dsimp only; rw [hresult]⟩

theorem Pruned.updatePath (h : Pruned t t') (fresh : ℕ) :
    SameOutcome (t.updatePath fresh) (t'.updatePath fresh) := by
  have hpublic : t'.publicKeyAt = t.publicKeyAt := funext h.publicKeyAt_eq
  rw [Tree.updatePath, Tree.updatePath, h.myLeafIndex, hpublic, h.numLeaves,
    h.getRootSecret_eq]
  split
  · split
    · exact ⟨h, rfl, rfl⟩
    · split
      · rename_i dp cp _ _
        obtain ⟨htree, hfresh, hresult⟩ :=
          updatePathLoop_pruned (dp.zip cp) t t' fresh h
        refine ⟨htree, hfresh, ?_⟩
        dsimp only
        rw [hresult, htree.getRootSecret_eq]
      · exact ⟨h, rfl, rfl⟩
  · exact ⟨h, rfl, rfl⟩

theorem Pruned.rekeyLeaf (h : Pruned t t') (fresh : ℕ) :
    Pruned (t.rekeyLeaf fresh) (t'.rekeyLeaf fresh) := by
  rw [Tree.rekeyLeaf, Tree.rekeyLeaf, h.myLeafIndex]
  split
  · exact h.keyed _ _ _ _
  · exact h

theorem blankPath_pruned :
    ∀ (path : List ℕ) (t t' : Tree), Pruned t t' →
      Pruned (t.blankPath path) (t'.blankPath path) := by
  intro path
  induction path with
  | nil =>
      intro t t' h
      exact h
  | cons nodeIndex path ih =>
      intro t t' h
      exact ih _ _ (h.setNode fun _ => rfl)

theorem Pruned.update (h : Pruned t t') (fresh : ℕ) :
    SameOutcome (t.update fresh) (t'.update fresh) :=
  (h.rekeyLeaf fresh).updatePath (fresh + 1)

theorem Pruned.removeMember (h : Pruned t t') (memberLeafIndex fresh : ℕ) :
    SameOutcome (t.removeMember memberLeafIndex fresh)
      (t'.removeMember memberLeafIndex fresh) := by
  have hleaf : Pruned (t.setNode (blankLeaf memberLeafIndex))
      (t'.setNode (blankLeaf memberLeafIndex)) := h.setNode fun _ => rfl
  rw [Tree.removeMember, Tree.removeMember, h.numLeaves]
  split
  · exact ⟨hleaf, rfl, rfl⟩
  · rename_i removedPath _
    exact ((blankPath_pruned removedPath _ _ hleaf).rekeyLeaf
      fresh).updatePath (fresh + 1)

/-! ## Welcomes -/

/-- The entries of a Welcome that carry a key. -/
def keyedEntries (w : Welcome) : List WelcomeNodePublicKey :=
  w.treeNodePublicKeys.filter (·.publicKey.isSome)

/-- Equal up to blank nodes and the order in which the nodes beside the
joiner's path are listed. -/
structure SameWelcome (w w' : Welcome) : Prop where
  leafIndex : w'.leafIndex = w.leafIndex
  pathKeys : w'.pathKeys = w.pathKeys
  treeHash : w'.treeHash = w.treeHash
  keyed : (keyedEntries w').Perm (keyedEntries w)

theorem Pruned.buildPathKeys_eq (h : Pruned t t') :
    ∀ (dp : List ℕ) (encryptionKey : PublicKey),
      t'.buildPathKeys encryptionKey dp = t.buildPathKeys encryptionKey dp := by
  intro dp
  induction dp with
  | nil =>
      intro encryptionKey
      rfl
  | cons nodeIndex dp ih =>
      intro encryptionKey
      rw [buildPathKeys, buildPathKeys, h.publicKeyAt_eq, h.privateKeyAt_eq]
      simp only [ih]

/-- The listed entries with a key are the keyed nodes beside the path. -/
theorem mem_listed_iff {t : Tree} {leafIndex : ℕ} {dp : List ℕ}
    {e : WelcomeNodePublicKey} :
    e ∈ ((t.nodes.entries.filterMap fun e =>
        if e.1 = leafIndex ∨ e.1 ∈ dp then none
        else some (⟨e.1, e.2.publicKey⟩ : WelcomeNodePublicKey)).filter
          (·.publicKey.isSome)) ↔
      e.publicKey.isSome ∧ e.nodeIndex ≠ leafIndex ∧ e.nodeIndex ∉ dp ∧
        t.publicKeyAt e.nodeIndex = e.publicKey := by
  simp only [List.mem_filter, List.mem_filterMap, Option.ite_none_left_eq_some,
    Option.some.injEq, not_or]
  constructor
  · rintro ⟨⟨⟨nodeIndex, node⟩, hmem, ⟨hleaf, hpath⟩, rfl⟩, hkey⟩
    refine ⟨hkey, hleaf, hpath, ?_⟩
    rw [publicKeyAt, t.nodes.mem_entries_iff.1 hmem]
    rfl
  · rintro ⟨hkey, hleaf, hpath, hpublic⟩
    obtain ⟨nodeIndex, publicKey⟩ := e
    rcases hget : t.nodes.get? nodeIndex with _ | node
    · simp only [publicKeyAt, hget, Option.bind_none] at hpublic
      simp [← hpublic] at hkey
    · simp only [publicKeyAt, hget, Option.bind_some] at hpublic
      exact ⟨⟨(nodeIndex, node), t.nodes.mem_entries_iff.2 hget,
        ⟨hleaf, hpath⟩, by rw [hpublic]⟩, hkey⟩

theorem nodup_listed (t : Tree) (leafIndex : ℕ) (dp : List ℕ) :
    ((t.nodes.entries.filterMap fun e =>
      if e.1 = leafIndex ∨ e.1 ∈ dp then none
      else some (⟨e.1, e.2.publicKey⟩ : WelcomeNodePublicKey)).filter
        (·.publicKey.isSome)).Nodup := by
  apply List.Nodup.filter
  apply List.Nodup.of_map WelcomeNodePublicKey.nodeIndex
  refine t.nodes.nodup.sublist ?_
  induction t.nodes.entries with
  | nil => exact List.Sublist.slnil
  | cons e es ih =>
      rw [List.filterMap_cons]
      split
      · exact ih.cons _
      · rename_i heq
        rw [Option.ite_none_left_eq_some] at heq
        obtain ⟨-, heq⟩ := heq
        cases heq
        exact ih.cons_cons _

theorem Pruned.buildWelcome (h : Pruned t t') (newLeafIndex : ℕ)
    (newMemberPublicKey : PublicKey) :
    (∃ e, t.buildWelcome newLeafIndex newMemberPublicKey = .error e ∧
      t'.buildWelcome newLeafIndex newMemberPublicKey = .error e) ∨
    ∃ w w', t.buildWelcome newLeafIndex newMemberPublicKey = .ok w ∧
      t'.buildWelcome newLeafIndex newMemberPublicKey = .ok w' ∧
      SameWelcome w w' := by
  simp only [Tree.buildWelcome, h.numLeaves, h.buildPathKeys_eq]
  rcases directPath newLeafIndex t.numLeaves with _ | dp
  · exact Or.inl ⟨.treeMath, rfl, rfl⟩
  simp only [liftTree, bind, Except.bind]
  rcases t.buildPathKeys newMemberPublicKey dp with e | pathKeys
  · exact Or.inl ⟨e, rfl, rfl⟩
  refine Or.inr ⟨_, _, rfl, rfl, rfl, rfl, h.computeTreeHash_eq, ?_⟩
  refine (List.perm_ext_iff_of_nodup (nodup_listed t' newLeafIndex dp)
    (nodup_listed t newLeafIndex dp)).2 fun e => ?_
  rw [mem_listed_iff, mem_listed_iff, h.publicKeyAt_eq]

/-- The same reply, up to how a Welcome lists the nodes. -/
inductive SameReply : Reply → Reply → Prop
  | refl (reply : Reply) : SameReply reply reply
  | member {w w' : Welcome} (u : PathUpdate) (secret : RootSecret) :
      SameWelcome w w' →
      SameReply (.member (.ok (u, w, secret))) (.member (.ok (u, w', secret)))

theorem SameReply.of_eq {reply reply' : Reply} (h : reply' = reply) :
    SameReply reply reply' :=
  h ▸ .refl _

theorem Pruned.placeMember (h : Pruned t t') (memberPublicKey : PublicKey) :
    Pruned (t.placeMember memberPublicKey) (t'.placeMember memberPublicKey) := by
  rw [Tree.placeMember, Tree.placeMember, h.numLeaves, h.myLeafIndex]
  exact (h.withLeaves (t.numLeaves + 1) t.myLeafIndex).keyed _ _ _ _

theorem Pruned.addMember (h : Pruned t t') (memberPublicKey : PublicKey)
    (fresh : ℕ) :
    Pruned (t.addMember memberPublicKey fresh).tree
        (t'.addMember memberPublicKey fresh).tree ∧
      (t'.addMember memberPublicKey fresh).fresh =
        (t.addMember memberPublicKey fresh).fresh ∧
      SameReply (.member (t.addMember memberPublicKey fresh).result)
        (.member (t'.addMember memberPublicKey fresh).result) := by
  obtain ⟨htree, hfresh, hresult⟩ :=
    (h.placeMember memberPublicKey).updatePath fresh
  rw [Tree.addMember, Tree.addMember, h.numLeaves]
  refine ⟨htree, hfresh, ?_⟩
  dsimp only
  rw [hresult]
  rcases ((t.placeMember memberPublicKey).updatePath fresh).result with
    e | ⟨u, secret⟩
  · exact .refl _
  simp only [bind, Except.bind]
  rcases htree.buildWelcome (leafToNodeIndex t.numLeaves) memberPublicKey with
    ⟨e, hbuild, hbuild'⟩ | ⟨w, w', hbuild, hbuild', hsame⟩
  · rw [hbuild, hbuild']
    exact .refl _
  · rw [hbuild, hbuild']
    exact .member u secret hsame

/-! ## Processing messages -/

/-- The same is returned or thrown. -/
structure SameCall {α : Type} (out out' : Tree × Except Error α) : Prop where
  tree : Pruned out.1 out'.1
  result : out'.2 = out.2

/-- The rest of a method, after a part that may throw. -/
theorem sameCall_andThen {next next' : Tree → Tree × Except Error RootSecret}
    (hnext : ∀ t t', Pruned t t' → SameCall (next t) (next' t')) :
    ∀ out out' : Tree × Except Error Unit, SameCall out out' →
      SameCall
        (match out with
          | (t, .error e) => (t, .error e)
          | (t, .ok ()) => next t)
        (match out' with
          | (t, .error e) => (t, .error e)
          | (t, .ok ()) => next' t) := by
  intro out out' h
  obtain ⟨t, result⟩ := out
  obtain ⟨t', result'⟩ := out'
  obtain ⟨htree, hresult⟩ := h
  obtain rfl : result' = result := hresult
  rcases result' with e | ⟨⟩
  · exact ⟨htree, rfl⟩
  · exact hnext t t' htree

theorem Pruned.installNode (h : Pruned t t') (pathNode : PathNodeUpdate)
    (privateKey : Option PrivateKey) :
    Pruned (t.installNode pathNode privateKey)
      (t'.installNode pathNode privateKey) :=
  h.keyed _ _ _ _

theorem Pruned.decryptIntersection_eq (h : Pruned t t')
    (pathNode : PathNodeUpdate) :
    t'.decryptIntersection pathNode = t.decryptIntersection pathNode := by
  simp only [decryptIntersection, keyOnOurSide, h.findChildOnOurSide_eq,
    h.privateKeyAt_eq, h.resolveSubtreeKey_eq]

theorem Pruned.decryptAbove_eq (h : Pruned t t') (pathNode : PathNodeUpdate) :
    t'.decryptAbove pathNode = t.decryptAbove pathNode := by
  have hprivate : t'.privateKeyAt = t.privateKeyAt := funext h.privateKeyAt_eq
  rw [decryptAbove, decryptAbove, h.findChildOnOurSide_eq, hprivate]

theorem installAbove_pruned :
    ∀ (nodes : List PathNodeUpdate) (t t' : Tree), Pruned t t' →
      SameCall (t.installAbove nodes) (t'.installAbove nodes) := by
  intro nodes
  induction nodes with
  | nil =>
      intro t t' h
      exact ⟨h, rfl⟩
  | cons pathNode nodes ih =>
      intro t t' h
      rw [installAbove, installAbove, h.decryptAbove_eq]
      rcases t.decryptAbove pathNode with e | privateKey
      · exact ⟨h, rfl⟩
      · exact ih _ _ (h.installNode pathNode privateKey)

theorem installBelow_pruned :
    ∀ (nodes : List PathNodeUpdate) (t t' : Tree), Pruned t t' →
      Pruned (t.installBelow nodes) (t'.installBelow nodes) := by
  intro nodes
  induction nodes with
  | nil =>
      intro t t' h
      exact h
  | cons pathNode nodes ih =>
      intro t t' h
      exact ih _ _ (h.installNode pathNode none)

theorem Pruned.processPathUpdate (h : Pruned t t') (update : PathUpdate) :
    SameCall (t.processPathUpdate update) (t'.processPathUpdate update) := by
  have hsender : Pruned (t.recordSender update) (t'.recordSender update) :=
    h.keyed _ _ _ _
  rw [Tree.processPathUpdate, Tree.processPathUpdate]
  dsimp only
  rw [hsender.myLeafIndex, hsender.numLeaves]
  rcases (t.recordSender update).myLeafIndex with _ | myLeafIndex
  · exact ⟨hsender, rfl⟩
  dsimp only
  rcases copath myLeafIndex (t.recordSender update).numLeaves with _ | cp
  · exact ⟨hsender, rfl⟩
  rcases directPath myLeafIndex (t.recordSender update).numLeaves with _ | dp
  · exact ⟨hsender, rfl⟩
  dsimp only
  split
  · exact ⟨hsender, rfl⟩
  rename_i pathNode above _
  rw [hsender.decryptIntersection_eq]
  rcases (t.recordSender update).decryptIntersection pathNode with e | _ | sk
  · exact ⟨hsender, rfl⟩
  · exact ⟨hsender, rfl⟩
  refine sameCall_andThen (fun mid mid' hmid => ?_) _ _
    (installAbove_pruned above _ _ (hsender.installNode pathNode (some sk)))
  have hbelow := installBelow_pruned
    (update.nodes.takeWhile (·.nodeIndex ∉ dp)) mid mid' hmid
  exact ⟨hbelow, hbelow.getRootSecret_eq⟩

theorem installPathKeys_pruned :
    ∀ (pathKeys : List PathNodeUpdate) (t t' : Tree) (sk : PrivateKey),
      Pruned t t' →
      SameCall (t.installPathKeys sk pathKeys)
        (t'.installPathKeys sk pathKeys) := by
  intro pathKeys
  induction pathKeys with
  | nil =>
      intro t t' sk h
      exact ⟨h, rfl⟩
  | cons pathKey pathKeys ih =>
      intro t t' sk h
      rw [installPathKeys, installPathKeys]
      rcases decryptNodeKey pathKey.encryptedPrivateKey sk with e | sk
      · exact ⟨h, rfl⟩
      · exact ih _ _ sk (h.installNode pathKey (some sk))

theorem installPublicKeys_pruned :
    ∀ (entries : List WelcomeNodePublicKey) (t t' : Tree), Pruned t t' →
      Pruned (t.installPublicKeys entries) (t'.installPublicKeys entries) := by
  intro entries
  induction entries with
  | nil =>
      intro t t' h
      exact h
  | cons e entries ih =>
      intro t t' h
      exact ih _ _ (h.setNode fun _ => rfl)

theorem Pruned.processWelcome (h : Pruned t t') (welcome : Welcome)
    (sk : PrivateKey) :
    SameCall (t.processWelcome welcome sk) (t'.processWelcome welcome sk) := by
  rw [Tree.processWelcome, Tree.processWelcome]
  rcases nodeToLeafIndex welcome.leafIndex with _ | leafPosition
  · exact ⟨⟨h.numLeaves, rfl, h.blank, h.node⟩, rfl⟩
  dsimp only
  rw [h.numLeaves]
  have hleaf := (h.withLeaves (max t.numLeaves
    ((welcome.pathKeys.map fun pk => impliedLeaves pk.nodeIndex).foldl max
      (leafPosition + 1))) (some welcome.leafIndex)).keyed .leaf
    welcome.leafIndex sk.publicKey (some sk)
  refine sameCall_andThen (fun mid mid' hmid => ?_) _ _
    (installPathKeys_pruned welcome.pathKeys _ _ sk hleaf)
  have hpublic := installPublicKeys_pruned welcome.treeNodePublicKeys mid mid'
    hmid
  rw [hpublic.computeTreeHash_eq]
  split
  · exact ⟨hpublic, hpublic.getRootSecret_eq⟩
  · exact ⟨hpublic, rfl⟩

/-! ## Compacting -/

theorem Pruned.isBlankAt_eq (h : Pruned t t') : t'.isBlankAt = t.isBlankAt := by
  funext i
  rw [isBlankAt, isBlankAt, h.publicKeyAt_eq]

theorem foldl_deleteNode_pruned :
    ∀ (path : List ℕ) (t t' : Tree), Pruned t t' →
      Pruned (path.foldl Tree.deleteNode t) (path.foldl Tree.deleteNode t') := by
  intro path
  induction path with
  | nil =>
      intro t t' h
      exact h
  | cons nodeIndex path ih =>
      intro t t' h
      exact ih _ _ (h.deleteNode nodeIndex)

theorem foldl_deleteBlank_pruned :
    ∀ (path : List ℕ) (t t' : Tree), Pruned t t' →
      (∀ i ∈ path, t.publicKeyAt i = none) →
      Pruned t (path.foldl Tree.deleteNode t') := by
  intro path
  induction path with
  | nil =>
      intro t t' h _
      exact h
  | cons nodeIndex path ih =>
      intro t t' h hblank
      exact ih _ _ (h.deleteBlank (hblank _ List.mem_cons_self))
        fun i hi => hblank i (List.mem_cons_of_mem _ hi)

/-- Compacting both sides. -/
theorem compactLoop_pruned :
    ∀ (leaves : List ℕ) (t t' : Tree), Pruned t t' →
      SameCall (t.compactLoop leaves) (t'.compactLoop leaves) := by
  intro leaves
  induction leaves with
  | nil =>
      intro t t' h
      exact ⟨h, rfl⟩
  | cons leafIndex leaves ih =>
      intro t t' h
      rw [compactLoop, compactLoop, h.numLeaves, h.isBlankAt_eq]
      split
      · exact ⟨h, rfl⟩
      · split
        · exact ⟨h, rfl⟩
        · rename_i path _
          split
          · exact ih _ _ (foldl_deleteNode_pruned (leafIndex :: path) _ _ h)
          · exact ih _ _ h

theorem Pruned.compact (h : Pruned t t') : SameCall t.compact t'.compact := by
  have hleaves : t'.blankedLeaves = t.blankedLeaves := by
    rw [blankedLeaves, blankedLeaves, h.numLeaves, h.isBlankAt_eq]
  rw [Tree.compact, Tree.compact, hleaves]
  exact compactLoop_pruned _ _ _ h

/-- Compacting one side deletes blank nodes and does not throw. -/
theorem compactLoop_deletes :
    ∀ (leaves : List ℕ) (t' : Tree), Pruned t t' →
      (∀ x ∈ leaves, x ∈ t.blankedLeaves) →
      Pruned t (t'.compactLoop leaves).1 ∧
        (t'.compactLoop leaves).2 = .ok () := by
  intro leaves
  induction leaves with
  | nil =>
      intro t' h _
      exact ⟨h, rfl⟩
  | cons leafIndex leaves ih =>
      intro t' h hmem
      have hrest := fun x hx => hmem x (List.mem_cons_of_mem leafIndex hx)
      rw [compactLoop, h.numLeaves, h.isBlankAt_eq]
      split
      · exact ⟨h, rfl⟩
      rename_i hn
      have hleaf := hmem leafIndex List.mem_cons_self
      rw [blankedLeaves, List.mem_filter, List.mem_map] at hleaf
      obtain ⟨⟨i, hi, hindex⟩, hblank⟩ := hleaf
      rw [leafToNodeIndex, mul_comm] at hindex
      have hpath := directPath_leaf (show 2 ≤ t.numLeaves by omega)
        (List.mem_range.1 hi)
      rw [hindex] at hpath
      rw [hpath]
      dsimp only
      split
      · rename_i hall
        refine ih _ (foldl_deleteBlank_pruned _ _ _ h ?_) hrest
        intro x hx
        rcases List.mem_cons.1 hx with rfl | hx
        · exact Option.isNone_iff_eq_none.1 hblank
        · exact Option.isNone_iff_eq_none.1 (List.all_eq_true.1 hall x hx)
      · exact ih _ h hrest

/-! ## Runs -/

/-- One call on two instances that differ in deleted blank nodes. -/
theorem Pruned.perform (h : Pruned t t') (fresh : ℕ) (operation : Operation) :
    Pruned (t.perform fresh operation).1 (t'.perform fresh operation).1 ∧
      (t'.perform fresh operation).2.1 = (t.perform fresh operation).2.1 ∧
      SameReply (t.perform fresh operation).2.2
        (t'.perform fresh operation).2.2 := by
  have hcall : ∀ {α : Type} {out out' : Tree × Except Error α}
      (reply : Except Error α → Reply), SameCall out out' →
      Pruned out.1 out'.1 ∧ fresh = fresh ∧
        SameReply (reply out.2) (reply out'.2) := by
    intro α out out' reply hsame
    exact ⟨hsame.tree, rfl, .of_eq (congrArg reply hsame.result)⟩
  have houtcome : ∀ {out out' : Outcome (PathUpdate × RootSecret)},
      SameOutcome out out' → Pruned out.tree out'.tree ∧
        out'.fresh = out.fresh ∧
        SameReply (.pathUpdate out.result) (.pathUpdate out'.result) := by
    intro out out' hsame
    exact ⟨hsame.tree, hsame.fresh,
      .of_eq (congrArg Reply.pathUpdate hsame.result)⟩
  cases operation with
  | initializeTree sk =>
      have hempty : Pruned (⟨.empty, 1, some 0⟩ : Tree) ⟨.empty, 1, some 0⟩ :=
        ⟨rfl, rfl, fun _ _ => rfl, fun _ => Or.inl rfl⟩
      exact ⟨hempty.keyed _ _ _ _, rfl, .refl _⟩
  | addMember memberPublicKey => exact h.addMember memberPublicKey fresh
  | removeMember memberLeafIndex =>
      exact houtcome (h.removeMember memberLeafIndex fresh)
  | update => exact houtcome (h.update fresh)
  | processPathUpdate update =>
      exact hcall .secret (h.processPathUpdate update)
  | processWelcome welcome sk => exact hcall .secret (h.processWelcome welcome sk)
  | compact => exact hcall .done h.compact
  | getRootSecret =>
      exact ⟨h, rfl, .of_eq (congrArg Reply.secret h.getRootSecret_eq)⟩
  | findLeafByPublicKey publicKey =>
      have hleaf := h.findLeafByPublicKey_eq publicKey
      exact ⟨h, rfl, .of_eq (congrArg Reply.leaf hleaf)⟩
  | computeTreeHash =>
      exact ⟨h, rfl, .of_eq (congrArg Reply.treeHash h.computeTreeHash_eq)⟩

/-- The same calls on two instances leave instances that differ in deleted
blank nodes only, and get the same replies. -/
structure SameRun (out out' : Tree × ℕ × List Reply) : Prop where
  tree : Pruned out.1 out'.1
  fresh : out'.2.1 = out.2.1
  replies : List.Forall₂ SameReply out.2.2 out'.2.2

theorem performAll_pruned :
    ∀ (operations : List Operation) (t t' : Tree) (fresh : ℕ), Pruned t t' →
      SameRun (t.performAll fresh operations)
        (t'.performAll fresh operations) := by
  intro operations
  induction operations with
  | nil =>
      intro t t' fresh h
      exact ⟨h, rfl, .nil⟩
  | cons operation operations ih =>
      intro t t' fresh h
      obtain ⟨htree, hfresh, hreply⟩ := h.perform fresh operation
      have hrest := ih _ _ (t.perform fresh operation).2.1 htree
      rw [performAll, performAll, hfresh]
      exact ⟨hrest.tree, hrest.fresh, .cons hreply hrest.replies⟩

end Pruned

/-- The instance that calls on a new one leave. -/
def reached (fresh : ℕ) (operations : List Operation) : Tree :=
  (new.performAll fresh operations).1

/-- Compacting an instance does not throw, deletes blank nodes only, and no
calls tell the compacted instance from the other one. -/
theorem compact_unobservable (fresh₀ : ℕ) (operations : List Operation) :
    (reached fresh₀ operations).compact.2 = .ok () ∧
      Pruned (reached fresh₀ operations)
        (reached fresh₀ operations).compact.1 ∧
      ∀ (fresh : ℕ) (later : List Operation),
        SameRun ((reached fresh₀ operations).performAll fresh later)
          ((reached fresh₀ operations).compact.1.performAll fresh later) := by
  have hself : Pruned (reached fresh₀ operations) (reached fresh₀ operations) :=
    (performAll_pruned operations new new fresh₀ pruned_new).tree
  obtain ⟨hpruned, hresult⟩ := compactLoop_deletes
    (reached fresh₀ operations).blankedLeaves _ hself fun _ hx => hx
  exact ⟨hresult, hpruned, fun fresh later =>
    performAll_pruned later _ _ fresh hpruned⟩

/-! ## The order of the listed nodes -/

/-- A Welcome for the fourth leaf that blanks the root.  It names the nodes
above the third leaf before the first leaf. -/
def rootlessWelcome : Welcome where
  leafIndex := 6
  pathKeys := []
  treeNodePublicKeys := [⟨5, none⟩, ⟨4, none⟩, ⟨3, none⟩, ⟨0, some ⟨0⟩⟩]
  treeHash := [(0, ⟨0⟩), (6, ⟨1⟩)]

/-- The nodes with a key that the Welcome of `addMember` lists. -/
def listedAfterAdding (t : Tree) (memberPublicKey : PublicKey) (fresh : ℕ) :
    Except Error (List ℕ) :=
  (t.addMember memberPublicKey fresh).result.map fun added =>
    (keyedEntries added.2.1).map WelcomeNodePublicKey.nodeIndex

/-- After a Welcome without a root, the keyed nodes are listed in another order
when the instance was compacted. -/
theorem compact_reorders_welcome :
    listedAfterAdding (reached 3 [.processWelcome rootlessWelcome ⟨1⟩]) ⟨2⟩ 3 =
        .ok [6, 5, 3, 0] ∧
      listedAfterAdding
        (reached 3 [.processWelcome rootlessWelcome ⟨1⟩]).compact.1 ⟨2⟩ 3 =
          .ok [6, 0, 5, 3] :=
  ⟨rfl, rfl⟩

end Collabswarm.BeeKEM.Tree
