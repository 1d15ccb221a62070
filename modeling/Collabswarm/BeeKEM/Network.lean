import Collabswarm.BeeKEM.Agreement
import Collabswarm.BeeKEM.Provenance

/-!
# BeeKEM instances that exchange messages

One founder and any number of joiners, each with an instance of its own.  A
path update or a Welcome that was emitted may be processed at any later time,
in any order and any number of times, or never; a call that throws leaves the
tree it has changed so far.  A joiner generates one key pair and processes
Welcomes with a new instance.

In every state an instance has a leaf of its own inside its tree, its private
keys stand beside their public keys, and only on the path of that leaf.
-/

namespace Collabswarm.BeeKEM

open InorderTree TreeMath

namespace Tree

/-! ## Instances with a leaf of their own -/

/-- Private keys stand only on the path of the leaf at position `i`. -/
def OnPath (t : Tree) (i : ℕ) : Prop :=
  ∀ x sk, t.privateKeyAt x = some sk → ∃ k, x = ancestor i k

theorem OnPath.setNode {t : Tree} {i : ℕ} (ht : t.OnPath i) {node : TreeNode}
    (hkey : ∀ sk, node.privateKey = some sk → ∃ k, node.index = ancestor i k) :
    (t.setNode node).OnPath i := by
  intro x sk hx
  rw [privateKeyAt_setNode] at hx
  split at hx
  · rename_i heq
    rw [heq]
    exact hkey sk hx
  · exact ht x sk hx

theorem blankPath_onPath {i : ℕ} :
    ∀ (path : List ℕ) (t : Tree), t.OnPath i → (t.blankPath path).OnPath i := by
  intro path
  induction path with
  | nil =>
      intro t ht
      exact ht
  | cons x path ih =>
      intro t ht
      exact ih _ (ht.setNode (by simp [blankNode]))

theorem rekeyLeaf_onPath {t : Tree} {i : ℕ}
    (hmy : t.myLeafIndex = some (2 * i)) (ht : t.OnPath i) (fresh : ℕ) :
    (t.rekeyLeaf fresh).OnPath i := by
  rw [rekeyLeaf_eq hmy]
  apply ht.setNode
  intro sk _
  exact ⟨0, by simp [keyLeaf]⟩

/-- A valid tree that stores private keys only on the path of its own leaf. -/
structure Own (t : Tree) (i : ℕ) : Prop extends Valid t i where
  onPath : t.OnPath i

theorem Own.setNode {t : Tree} {i : ℕ} (ht : t.Own i) {node : TreeNode}
    (hleaf : node.index = 2 * i → node.publicKey.isSome)
    (hkey : ∀ sk, node.privateKey = some sk →
      node.publicKey = some sk.publicKey ∧ ∃ k, node.index = ancestor i k) :
    (t.setNode node).Own i where
  toPlaced := ht.toPlaced.setNode hleaf
  matched := ht.matched.setNode fun sk hsk => (hkey sk hsk).1
  onPath := ht.onPath.setNode fun sk hsk => (hkey sk hsk).2

/-- The node of a keyed leaf alone. -/
theorem keyLeaf_own {i n : ℕ} (hn : i < n) (sk : PrivateKey) :
    ((⟨.empty, n, some (2 * i)⟩ : Tree).setNode (keyLeaf (2 * i) sk)).Own
      i := by
  refine ⟨⟨⟨rfl, hn, ?_⟩, ?_⟩, ?_⟩
  · simp [publicKeyAt_setNode, keyLeaf]
  · apply Matched.setNode
    · intro x key hx
      simp [privateKeyAt] at hx
    · intro key hkey
      cases hkey
      rfl
  · apply OnPath.setNode
    · intro x key hx
      simp [privateKeyAt] at hx
    · intro key _
      exact ⟨0, by simp [keyLeaf]⟩

theorem placeMember_own {t : Tree} {i : ℕ} (ht : t.Own i) (pk : PublicKey) :
    (t.placeMember pk).Own i where
  toValid := placeMember_valid ht.toValid pk
  onPath := OnPath.setNode (by exact ht.onPath) (by simp)

theorem rekeyLeaf_own {t : Tree} {i : ℕ} (ht : t.Own i) (fresh : ℕ) :
    (t.rekeyLeaf fresh).Own i where
  toPlaced := (rekeyLeaf_placed ht.myLeafIndex ht.lt fresh).1
  matched := rekeyLeaf_matched ht.myLeafIndex ht.matched fresh
  onPath := rekeyLeaf_onPath ht.myLeafIndex ht.onPath fresh

theorem blankMember_own {t : Tree} {i : ℕ} (ht : t.Own i)
    (leafIndex fresh : ℕ) (path : List ℕ) :
    (t.blankMember leafIndex fresh path).Own i where
  toPlaced := (blankMember_placed ht.toPlaced leafIndex fresh path).1
  matched := blankMember_matched ht.toValid leafIndex fresh path
  onPath := by
    obtain ⟨-, hmy⟩ := blankPath_frame path (t.setNode (blankLeaf leafIndex))
    apply rekeyLeaf_onPath (hmy.trans ht.myLeafIndex)
    exact blankPath_onPath path _ (ht.onPath.setNode (by simp [blankLeaf]))

/-- Both branches of `_updatePath` keep the tree its owner's. -/
theorem updatePath_own {t : Tree} {i : ℕ} (ht : t.Own i) (fresh : ℕ) :
    (t.updatePath fresh).tree.Own i := by
  by_cases hn : 2 ≤ t.numLeaves
  · obtain ⟨h⟩ := updatePath_updated hn ht.toPlaced fresh
    refine ⟨PathUpdated.valid ht.toValid h, ?_⟩
    intro x sk hx
    by_cases hmem : x ∈ h.init ++ [h.r]
    · obtain ⟨k, -, -, -, hk⟩ :=
        (mem_directPath hn ht.lt h.directPath_eq).1 hmem
      exact ⟨k, hk⟩
    · rw [privateKeyAt, h.frame x hmem] at hx
      exact ht.onPath x sk hx
  · have hlt := ht.lt
    have hone : t.numLeaves = 1 := by omega
    obtain ⟨pk, hpk⟩ := Option.isSome_iff_exists.1 ht.leafKey
    simp only [updatePath, ht.myLeafIndex, Option.bind_some, hpk, hone,
      if_true]
    exact ht

theorem sealToResolution_honest (x : ℕ) (sk : PrivateKey)
    (resolution : Option PublicKey) :
    HonestNode ⟨x, sk.publicKey, sealToResolution sk resolution⟩ := by
  intro pk key hbox
  cases resolution with
  | none => cases hbox
  | some recipient =>
      cases hbox
      rfl

/-- The nodes of an emitted path update are honest. -/
theorem updatePath_honest {t : Tree} {i fresh : ℕ} (ht : t.Placed i)
    {u : PathUpdate} {secret : RootSecret}
    (h : (t.updatePath fresh).result = .ok (u, secret)) :
    ∀ n ∈ u.nodes, HonestNode n := by
  have hlt := ht.lt
  by_cases hn : 2 ≤ t.numLeaves
  · obtain ⟨hu⟩ := updatePath_updated hn ht fresh
    rw [hu.result] at h
    cases h
    intro n hmem
    rcases List.mem_append.1 hmem with hmem | hmem
    · exact hu.below_honest n hmem
    · rw [List.mem_singleton.1 hmem]
      exact sealToResolution_honest _ _ _
  · have hone : t.numLeaves = 1 := by omega
    obtain ⟨pk, hpk⟩ := Option.isSome_iff_exists.1 ht.leafKey
    simp only [updatePath, ht.myLeafIndex, Option.bind_some, hpk, hone,
      if_true] at h
    rcases hsecret : t.getRootSecret with e | secret'
    · simp [hsecret, Except.map] at h
    · simp only [hsecret, Except.map, Except.ok.injEq, Prod.mk.injEq] at h
      rw [← h.1]
      simp

theorem directPath_isSome {n i : ℕ} (hi : i < n) :
    (directPath (2 * i) n).isSome := by
  by_cases hn : 2 ≤ n
  · rw [directPath_leaf hn hi]
    rfl
  · rw [directPath, if_pos (by omega)]
    rfl

/-- Also where it throws, since the own leaf has a direct path. -/
theorem removeMember_own {t : Tree} {i : ℕ} (ht : t.Own i)
    (leafIndex fresh : ℕ) : (t.removeMember leafIndex fresh).tree.Own i := by
  rw [removeMember]
  split
  · rename_i hnone
    apply ht.setNode
    · rintro rfl
      have hsome := directPath_isSome ht.lt
      rw [hnone] at hsome
      cases hsome
    · simp [blankLeaf]
  · exact updatePath_own (blankMember_own ht _ _ _) _

theorem removeMember_honest {t : Tree} {i leafIndex fresh : ℕ} (ht : t.Own i)
    {u : PathUpdate} {secret : RootSecret}
    (h : (t.removeMember leafIndex fresh).result = .ok (u, secret)) :
    ∀ n ∈ u.nodes, HonestNode n := by
  rw [removeMember] at h
  split at h
  · cases h
  · exact updatePath_honest (blankMember_own ht _ _ _).toPlaced h

theorem processPathUpdate_own {t : Tree} {i : ℕ} (ht : t.Own i)
    {u : PathUpdate} (hu : ∀ n ∈ u.nodes, HonestNode n) :
    (t.processPathUpdate u).1.Own i := by
  apply processPathUpdate_rule (Q := (Own · i)) ht.myLeafIndex ht.lt _ _ ht
  · intro t ht
    exact ht.setNode (fun _ => rfl) (by simp)
  · intro t n o ht hn hopened
    apply ht.setNode fun _ => rfl
    intro key hkey
    obtain ⟨⟨pk, hbox⟩, hpath⟩ := hopened key hkey
    exact ⟨congrArg some (hu n hn pk key hbox), hpath⟩

theorem processWelcome_own {w : Welcome} {j : ℕ} (hw : HonestWelcome w j)
    (sk : PrivateKey) : (new.processWelcome w sk).1.Own j := by
  have hpos := hw.pos
  apply processWelcome_rule (Q := (Own · j)) hw.leafIndex
  · intro n hn
    exact keyLeaf_own hn sk
  · intro t n key ht hn hbox
    obtain ⟨pk, hbox⟩ := hbox
    apply ht.setNode fun _ => rfl
    rintro key' ⟨⟩
    refine ⟨congrArg some (hw.honest n hn pk key hbox), ?_⟩
    obtain ⟨k, -, -, -, hk⟩ := (mem_directPath (by omega) (Nat.lt_succ_self j)
      hw.path).1 (List.mem_map_of_mem hn)
    exact ⟨k, hk⟩
  · intro t type e ht he
    apply ht.setNode
    · intro heq
      exact absurd heq (hw.others e he).1
    · simp

end Tree

/-! ## The network -/

/-- The instances of all parties and the messages emitted so far.  `keys` are
the key pairs that joiners generated, `seats` the leaves they were last added
at, and `held` the private keys each party ever held. -/
structure Network where
  trees : InsertionMap ℕ Tree
  keys : InsertionMap ℕ PrivateKey
  seats : InsertionMap ℕ ℕ
  nextKey : ℕ
  updates : List PathUpdate
  welcomes : List (ℕ × Welcome)
  held : List (ℕ × PrivateKey)

/-- What parties do.  A message is named by its place in the order of
emission. -/
inductive NetworkEvent where
  | generate (joiner : ℕ)
  | addMember (sender joiner : ℕ)
  | removeMember (sender leafIndex : ℕ)
  | update (sender : ℕ)
  | processPathUpdate (receiver position : ℕ)
  | processWelcome (position : ℕ)
deriving DecidableEq, Repr

namespace Network

open Collabswarm.BeeKEM.Tree

/-- The founder, party `0`, alone. -/
def found (sk : PrivateKey) : Network where
  trees := InsertionMap.empty.set 0 (Tree.initializeTree sk)
  keys := .empty
  seats := .empty
  nextKey := sk.id + 1
  updates := []
  welcomes := []
  held := [(0, sk)]

/-- Keep the tree a call leaves, and note the private keys in it. -/
def keep (g : Network) (party : ℕ) (t : Tree) : Network :=
  { g with
    trees := g.trees.set party t
    held := g.held ++ t.privateKeys.map (party, ·) }

/-- Keep the outcome of a sender's call. -/
def commit {α : Type} (g : Network) (sender : ℕ) (out : Tree.Outcome α) :
    Network :=
  { g.keep sender out.tree with nextKey := out.fresh }

/-- One call by one party.  A joiner generates one key pair; the messages of a
call that throws are not emitted. -/
def step (g : Network) : NetworkEvent → Network
  | .generate joiner =>
      match g.trees.get? joiner, g.keys.get? joiner with
      | none, none =>
          { g with
            keys := g.keys.set joiner (generateKey g.nextKey)
            nextKey := g.nextKey + 1
            held := g.held ++ [(joiner, generateKey g.nextKey)] }
      | _, _ => g
  | .addMember sender joiner =>
      match g.trees.get? sender, g.keys.get? joiner with
      | some t, some key =>
          let out := t.addMember key.publicKey g.nextKey
          let g := { g.commit sender out with
            seats := g.seats.set joiner (leafToNodeIndex t.numLeaves) }
          match out.result with
          | .error _ => g
          | .ok (u, w, _) =>
              { g with
                updates := g.updates ++ [u]
                welcomes := g.welcomes ++ [(joiner, w)] }
      | _, _ => g
  | .removeMember sender leafIndex =>
      match g.trees.get? sender with
      | none => g
      | some t =>
          let out := t.removeMember leafIndex g.nextKey
          match out.result with
          | .error _ => g.commit sender out
          | .ok (u, _) =>
              { g.commit sender out with updates := g.updates ++ [u] }
  | .update sender =>
      match g.trees.get? sender with
      | none => g
      | some t =>
          let out := t.update g.nextKey
          match out.result with
          | .error _ => g.commit sender out
          | .ok (u, _) =>
              { g.commit sender out with updates := g.updates ++ [u] }
  | .processPathUpdate receiver position =>
      match g.trees.get? receiver, g.updates[position]? with
      | some t, some u => g.keep receiver (t.processPathUpdate u).1
      | _, _ => g
  | .processWelcome position =>
      match g.welcomes[position]? with
      | none => g
      | some (joiner, w) =>
          match g.keys.get? joiner with
          | none => g
          | some key => g.keep joiner (Tree.new.processWelcome w key).1

/-- The leaf of a party: the one of its instance, before it has one the leaf
it was added at. -/
def leafOf (g : Network) (party : ℕ) : Option ℕ :=
  match g.trees.get? party with
  | some t => t.myLeafIndex
  | none => g.seats.get? party

/-! ## What holds in every state -/

/-- Every instance is its owner's and every message is an honest one. -/
structure Sound (g : Network) : Prop where
  trees : ∀ id t, g.trees.get? id = some t → ∃ i, t.Own i
  updates : ∀ u ∈ g.updates, ∀ n ∈ u.nodes, HonestNode n
  welcomes : ∀ p ∈ g.welcomes, ∃ j, HonestWelcome p.2 j

theorem found_sound (sk : PrivateKey) : (found sk).Sound where
  trees := by
    intro id t ht
    simp only [found, InsertionMap.get?_set] at ht
    split at ht
    · cases ht
      exact ⟨0, keyLeaf_own Nat.zero_lt_one sk⟩
    · cases ht
  updates := by simp [found]
  welcomes := by simp [found]

theorem Sound.keep {g : Network} (h : g.Sound) (party : ℕ) {i : ℕ} {t : Tree}
    (ht : t.Own i) : (g.keep party t).Sound where
  trees := by
    intro id t' ht'
    simp only [Network.keep, InsertionMap.get?_set] at ht'
    split at ht'
    · cases ht'
      exact ⟨i, ht⟩
    · exact h.trees id t' ht'
  updates := h.updates
  welcomes := h.welcomes

theorem Sound.emitUpdate {g : Network} (h : g.Sound) {u : PathUpdate}
    (hu : ∀ n ∈ u.nodes, HonestNode n) :
    ({ g with updates := g.updates ++ [u] } : Network).Sound where
  trees := h.trees
  updates := by
    intro u' hu'
    rcases List.mem_append.1 hu' with hu' | hu'
    · exact h.updates u' hu'
    · rw [List.mem_singleton.1 hu']
      exact hu
  welcomes := h.welcomes

theorem Sound.emitWelcome {g : Network} (h : g.Sound) (joiner : ℕ) {j : ℕ}
    {w : Welcome} (hw : HonestWelcome w j) :
    ({ g with welcomes := g.welcomes ++ [(joiner, w)] } : Network).Sound where
  trees := h.trees
  updates := h.updates
  welcomes := by
    intro p hp
    rcases List.mem_append.1 hp with hp | hp
    · exact h.welcomes p hp
    · rw [List.mem_singleton.1 hp]
      exact ⟨j, hw⟩

theorem Sound.commit {α : Type} {g : Network} (h : g.Sound) (sender : ℕ)
    (out : Outcome α) {i : ℕ} (ht : out.tree.Own i) :
    (g.commit sender out).Sound := by
  have hkeep := h.keep sender ht
  exact ⟨hkeep.trees, hkeep.updates, hkeep.welcomes⟩

theorem addMember_ok {t : Tree} {pk : PublicKey} {fresh : ℕ} {u : PathUpdate}
    {w : Welcome} {secret : RootSecret}
    (h : (t.addMember pk fresh).result = .ok (u, w, secret)) :
    ((t.placeMember pk).updatePath fresh).result = .ok (u, secret) := by
  simp only [addMember, bind, Except.bind] at h
  rcases hresult : ((t.placeMember pk).updatePath fresh).result with
    e | ⟨u', secret'⟩
  · simp [hresult] at h
  · rcases hw : ((t.placeMember pk).updatePath fresh).tree.buildWelcome
      (leafToNodeIndex t.numLeaves) pk with e | w'
    · simp [hresult, hw] at h
    · simp only [hresult, hw, Except.ok.injEq, Prod.mk.injEq] at h
      obtain ⟨rfl, -, rfl⟩ := h
      rfl

theorem Sound.addMember {g : Network} (h : g.Sound) (sender joiner : ℕ) :
    (g.step (.addMember sender joiner)).Sound := by
  simp only [step]
  split
  · rename_i t key htree hkey
    obtain ⟨i, ht⟩ := h.trees sender t htree
    have hs := placeMember_own ht key.publicKey
    have hcommit := h.commit sender (t.addMember key.publicKey g.nextKey)
      (updatePath_own hs g.nextKey)
    split
    · exact ⟨hcommit.trees, hcommit.updates, hcommit.welcomes⟩
    · rename_i u w secret hresult
      obtain ⟨-, -, hwelcome⟩ :=
        addMember_spec ht.toValid key.publicKey g.nextKey
      have hsent := (hcommit.emitUpdate (updatePath_honest hs.toPlaced
        (addMember_ok hresult))).emitWelcome joiner
          (hwelcome u w secret hresult)
      exact ⟨hsent.trees, hsent.updates, hsent.welcomes⟩
  · exact h

/-- Every call of every party keeps the network sound. -/
theorem Sound.step {g : Network} (h : g.Sound) (e : NetworkEvent) :
    (g.step e).Sound := by
  cases e with
  | generate joiner =>
      simp only [Network.step]
      split
      · exact ⟨h.trees, h.updates, h.welcomes⟩
      · exact h
  | addMember sender joiner => exact h.addMember sender joiner
  | removeMember sender leafIndex =>
      simp only [Network.step]
      split
      · exact h
      · rename_i t htree
        obtain ⟨i, ht⟩ := h.trees sender t htree
        have hcommit := h.commit sender _
          (removeMember_own ht leafIndex g.nextKey)
        split
        · exact hcommit
        · rename_i u secret hresult
          exact hcommit.emitUpdate (removeMember_honest ht hresult)
  | update sender =>
      simp only [Network.step]
      split
      · exact h
      · rename_i t htree
        obtain ⟨i, ht⟩ := h.trees sender t htree
        have hrekeyed := rekeyLeaf_own ht g.nextKey
        have hcommit := h.commit sender _
          (updatePath_own hrekeyed (g.nextKey + 1))
        split
        · exact hcommit
        · rename_i u secret hresult
          exact hcommit.emitUpdate
            (updatePath_honest hrekeyed.toPlaced hresult)
  | processPathUpdate receiver position =>
      simp only [Network.step]
      split
      · rename_i t u htree hu
        obtain ⟨i, ht⟩ := h.trees receiver t htree
        exact h.keep receiver (processPathUpdate_own ht
          (h.updates u (List.mem_of_getElem? hu)))
      · exact h
  | processWelcome position =>
      simp only [Network.step]
      split
      · exact h
      · rename_i joiner w hw
        split
        · exact h
        · rename_i key hkey
          obtain ⟨j, hj⟩ := h.welcomes _ (List.mem_of_getElem? hw)
          exact h.keep joiner (processWelcome_own hj key)

theorem exec_sound (sk : PrivateKey) (events : List NetworkEvent) :
    (exec Network.step (found sk) events).Sound := by
  apply exec_invariant_of_forall
  · intro g e h
    exact h.step e
  · exact found_sound sk

end Network

end Collabswarm.BeeKEM
