import Collabswarm.BeeKEM.Network

/-!
# Who holds the private keys of a tree

Every key pair is generated for one node.  As long as no joiner is added
twice with the same key pair, each tree has a public key only at the node it was
generated for, so its private key is held only by parties below that node.  A
joiner that is added twice, as after an `addMember` that threw, breaks this: its
first leaf then carries the key of a member elsewhere in the tree.
-/

namespace Collabswarm.BeeKEM.Tree

open TreeMath InorderTree

/-! ## The node of a key -/

/-- The node each key number was generated for, where it has one. -/
abbrev KeyNodes := ℕ → Option ℕ

/-- No number from `fresh` on has a node. -/
def Unused (place : KeyNodes) (fresh : ℕ) : Prop :=
  ∀ k, fresh ≤ k → place k = none

/-- The numbers from `fresh` to `fresh'` were given nodes. -/
structure Grows (place place' : KeyNodes) (fresh fresh' : ℕ) : Prop where
  le : fresh ≤ fresh'
  below : ∀ k, k < fresh → place' k = place k
  unused : Unused place' fresh'

theorem Grows.refl {place : KeyNodes} {fresh : ℕ}
    (hunused : Unused place fresh) : Grows place place fresh fresh :=
  ⟨le_rfl, fun _ _ => rfl, hunused⟩

theorem Grows.trans {place place' place'' : KeyNodes} {a b c : ℕ}
    (h : Grows place place' a b) (h' : Grows place' place'' b c) :
    Grows place place'' a c where
  le := h.le.trans h'.le
  below := by
    intro k hk
    rw [h'.below k (hk.trans_le h.le), h.below k hk]
  unused := h'.unused

theorem Grows.extends {place place' : KeyNodes} {fresh fresh' : ℕ}
    (h : Grows place place' fresh fresh') (hunused : Unused place fresh)
    {k x : ℕ} (hk : place k = some x) : place' k = some x := by
  have hlt : k < fresh := by
    by_contra hle
    rw [hunused k (by omega)] at hk
    cases hk
  rw [h.below k hlt, hk]

theorem grows_update {place : KeyNodes} {fresh : ℕ}
    (hunused : Unused place fresh) (x : ℕ) :
    Grows place (Function.update place fresh (some x)) fresh (fresh + 1) where
  le := Nat.le_succ fresh
  below := by
    intro k hk
    rw [Function.update_of_ne (by omega)]
  unused := by
    intro k hk
    rw [Function.update_of_ne (by omega)]
    exact hunused k (by omega)

/-- Every public key stands at its node. -/
def Keyed (place : KeyNodes) (t : Tree) : Prop :=
  ∀ x pk, t.publicKeyAt x = some pk → place pk.id = some x

theorem Keyed.setNode {place : KeyNodes} {t : Tree} (ht : t.Keyed place)
    {node : TreeNode}
    (hnode : ∀ pk, node.publicKey = some pk → place pk.id = some node.index) :
    (t.setNode node).Keyed place := by
  intro x pk hx
  rw [publicKeyAt_setNode] at hx
  split at hx
  · rename_i heq
    rw [heq]
    exact hnode pk hx
  · exact ht x pk hx

theorem Keyed.mono {place place' : KeyNodes} {t : Tree} (ht : t.Keyed place)
    (hext : ∀ k x, place k = some x → place' k = some x) :
    t.Keyed place' :=
  fun x pk hx => hext _ _ (ht x pk hx)

/-- The public keys of message nodes belong to these nodes. -/
def KeyedNodes (place : KeyNodes) (nodes : List PathNodeUpdate) : Prop :=
  ∀ n ∈ nodes, place n.publicKey.id = some n.nodeIndex

structure KeyedUpdate (place : KeyNodes) (u : PathUpdate) : Prop where
  sender : place u.senderLeafPublicKey.id = some u.senderLeafIndex
  nodes : KeyedNodes place u.nodes

structure KeyedWelcome (place : KeyNodes) (w : Welcome) : Prop where
  pathKeys : KeyedNodes place w.pathKeys
  others : ∀ e ∈ w.treeNodePublicKeys, ∀ pk, e.publicKey = some pk →
    place pk.id = some e.nodeIndex

theorem KeyedUpdate.mono {place place' : KeyNodes} {u : PathUpdate}
    (h : KeyedUpdate place u)
    (hext : ∀ k x, place k = some x → place' k = some x) :
    KeyedUpdate place' u :=
  ⟨hext _ _ h.sender, fun n hn => hext _ _ (h.nodes n hn)⟩

theorem KeyedWelcome.mono {place place' : KeyNodes} {w : Welcome}
    (h : KeyedWelcome place w)
    (hext : ∀ k x, place k = some x → place' k = some x) :
    KeyedWelcome place' w :=
  ⟨fun n hn => hext _ _ (h.pathKeys n hn),
    fun e he pk hpk => hext _ _ (h.others e he pk hpk)⟩

/-! ## The sending operations -/

theorem updatePathLoop_keyed :
    ∀ (pairs : List (ℕ × ℕ)) (t : Tree) (fresh : ℕ) (place : KeyNodes),
      Unused place fresh → t.Keyed place →
      ∃ place', Grows place place' fresh (updatePathLoop t fresh pairs).fresh ∧
        (updatePathLoop t fresh pairs).tree.Keyed place' ∧
        ∀ nodes, (updatePathLoop t fresh pairs).result = .ok nodes →
          KeyedNodes place' nodes := by
  intro pairs
  induction pairs with
  | nil =>
      intro t fresh place hunused ht
      refine ⟨place, Grows.refl hunused, ht, ?_⟩
      rintro nodes ⟨⟩ n hn
      cases hn
  | cons pair rest ih =>
      intro t fresh place hunused ht
      obtain ⟨p, s⟩ := pair
      rw [updatePathLoop]
      rcases t.resolvePublicKey s with e | o
      · refine ⟨place, ⟨Nat.le_succ _, fun _ _ => rfl, ?_⟩, ht, ?_⟩
        · intro k hk
          exact hunused k (Nat.le_of_succ_le hk)
        · intro nodes hnodes
          cases hnodes
      · have hgrow := grows_update hunused p
        set place₁ := Function.update place fresh (some p) with hplace₁
        have hfresh : place₁ fresh = some p := by
          rw [hplace₁, Function.update_self]
        have hkeyed : (t.setNode (keyNode p (generateKey fresh))).Keyed
            place₁ := by
          apply (ht.mono fun k x => hgrow.extends hunused).setNode
          rintro pk ⟨⟩
          exact hfresh
        obtain ⟨place', hgrow', htree, hnodes⟩ :=
          ih _ (fresh + 1) place₁ hgrow.unused hkeyed
        refine ⟨place', hgrow.trans hgrow', htree, ?_⟩
        intro nodes hresult
        simp only at hresult
        rcases hrest : (updatePathLoop (t.setNode (keyNode p
          (generateKey fresh))) (fresh + 1) rest).result with e | nodes'
        · simp [hrest, Except.map] at hresult
        · simp only [hrest, Except.map, Except.ok.injEq] at hresult
          subst hresult
          intro n hn
          rcases List.mem_cons.1 hn with rfl | hn
          · exact hgrow'.extends hgrow.unused hfresh
          · exact hnodes nodes' hrest n hn

/-- New keys for the own path: the numbering grows by one node each. -/
theorem updatePath_keyed {t : Tree} {fresh : ℕ} {place : KeyNodes}
    (hunused : Unused place fresh) (ht : t.Keyed place) :
    ∃ place', Grows place place' fresh (t.updatePath fresh).fresh ∧
      (t.updatePath fresh).tree.Keyed place' ∧
      ∀ u secret, (t.updatePath fresh).result = .ok (u, secret) →
        KeyedUpdate place' u := by
  rw [updatePath]
  split
  · rename_i my pk hmy hpk
    have hsender : place pk.id = some my := by
      rw [hmy] at hpk
      exact ht my pk hpk
    split
    · refine ⟨place, Grows.refl hunused, ht, ?_⟩
      intro u secret hresult
      rcases hsecret : t.getRootSecret with e | secret'
      · simp [hsecret, Except.map] at hresult
      · simp only [hsecret, Except.map, Except.ok.injEq, Prod.mk.injEq]
          at hresult
        rw [← hresult.1]
        exact ⟨hsender, by simp [KeyedNodes]⟩
    · split
      · rename_i dp cp hdp hcp
        obtain ⟨place', hgrow, htree, hnodes⟩ :=
          updatePathLoop_keyed (dp.zip cp) t fresh place hunused ht
        refine ⟨place', hgrow, htree, ?_⟩
        intro u secret hresult
        rcases hloop : (updatePathLoop t fresh (dp.zip cp)).result with
          e | nodes
        · simp [hloop, bind, Except.bind] at hresult
        · rcases hsecret : (updatePathLoop t fresh
            (dp.zip cp)).tree.getRootSecret with e | secret'
          · simp [hloop, hsecret, bind, Except.bind] at hresult
          · simp only [hloop, hsecret, bind, Except.bind, Except.ok.injEq,
              Prod.mk.injEq] at hresult
            rw [← hresult.1]
            exact ⟨hgrow.extends hunused hsender, hnodes nodes hloop⟩
      · refine ⟨place, Grows.refl hunused, ht, ?_⟩
        intro u secret hresult
        cases hresult
  · refine ⟨place, Grows.refl hunused, ht, ?_⟩
    intro u secret hresult
    cases hresult

theorem rekeyLeaf_keyed {t : Tree} {my fresh : ℕ} {place : KeyNodes}
    (hmy : t.myLeafIndex = some my) (hunused : Unused place fresh)
    (ht : t.Keyed place) :
    (t.rekeyLeaf fresh).Keyed (Function.update place fresh (some my)) := by
  rw [rekeyLeaf, hmy]
  apply (ht.mono fun k x => (grows_update hunused my).extends hunused).setNode
  rintro pk ⟨⟩
  exact Function.update_self _ _ _

theorem blankPath_keyed {place : KeyNodes} :
    ∀ (path : List ℕ) (t : Tree), t.Keyed place →
      (t.blankPath path).Keyed place := by
  intro path
  induction path with
  | nil =>
      intro t ht
      exact ht
  | cons x path ih =>
      intro t ht
      exact ih _ (ht.setNode (by simp [blankNode]))

/-- A new key pair for the own leaf of `s`, then one for every node of its
path. -/
theorem rekeyed_updatePath_keyed {s : Tree} {my fresh : ℕ} {place : KeyNodes}
    (hmy : s.myLeafIndex = some my) (hunused : Unused place fresh)
    (hs : s.Keyed place) :
    ∃ place', Grows place place' fresh
        ((s.rekeyLeaf fresh).updatePath (fresh + 1)).fresh ∧
      ((s.rekeyLeaf fresh).updatePath (fresh + 1)).tree.Keyed place' ∧
      ∀ u secret, ((s.rekeyLeaf fresh).updatePath (fresh + 1)).result =
        .ok (u, secret) → KeyedUpdate place' u := by
  have hgrow := grows_update hunused my
  obtain ⟨place', hgrow', htree, hupdate⟩ :=
    updatePath_keyed hgrow.unused (rekeyLeaf_keyed hmy hunused hs)
  exact ⟨place', hgrow.trans hgrow', htree, hupdate⟩

theorem removeMember_keyed {t : Tree} {my fresh : ℕ} {place : KeyNodes}
    (hmy : t.myLeafIndex = some my) (leafIndex : ℕ)
    (hunused : Unused place fresh) (ht : t.Keyed place) :
    ∃ place', Grows place place' fresh (t.removeMember leafIndex fresh).fresh ∧
      (t.removeMember leafIndex fresh).tree.Keyed place' ∧
      ∀ u secret, (t.removeMember leafIndex fresh).result = .ok (u, secret) →
        KeyedUpdate place' u := by
  have hblank : (t.setNode (blankLeaf leafIndex)).Keyed place :=
    ht.setNode (by simp [blankLeaf])
  rw [removeMember]
  split
  · refine ⟨place, Grows.refl hunused, hblank, ?_⟩
    intro u secret hresult
    cases hresult
  · rename_i path hpath
    obtain ⟨-, hmy'⟩ := blankPath_frame path (t.setNode (blankLeaf leafIndex))
    exact rekeyed_updatePath_keyed (hmy'.trans hmy) hunused
      (blankPath_keyed path _ hblank)

theorem buildPathKeys_keyed {s : Tree} {place : KeyNodes}
    (hs : s.Keyed place) :
    ∀ (dp : List ℕ) (pk : PublicKey) (pathKeys : List PathNodeUpdate),
      s.buildPathKeys pk dp = .ok pathKeys → KeyedNodes place pathKeys := by
  intro dp
  induction dp with
  | nil =>
      rintro pk pathKeys ⟨⟩ n hn
      cases hn
  | cons x dp ih =>
      intro pk pathKeys h
      rw [buildPathKeys] at h
      split at h
      · rename_i publicKey privateKey hpublic hprivate
        rcases hrest : s.buildPathKeys publicKey dp with e | rest
        · simp [hrest, bind, Except.bind] at h
        · simp only [hrest, bind, Except.bind, Except.ok.injEq] at h
          subst h
          intro n hn
          rcases List.mem_cons.1 hn with rfl | hn
          · exact hs x publicKey hpublic
          · exact ih publicKey rest hrest n hn
      · cases h

theorem buildWelcome_keyed {s : Tree} {place : KeyNodes} (hs : s.Keyed place)
    {leafIndex : ℕ} {pk : PublicKey} {w : Welcome}
    (h : s.buildWelcome leafIndex pk = .ok w) : KeyedWelcome place w := by
  rw [buildWelcome] at h
  rcases hdp : directPath leafIndex s.numLeaves with _ | dp
  · simp [hdp, liftTree, bind, Except.bind] at h
  rcases hkeys : s.buildPathKeys pk dp with e | pathKeys
  · simp [hdp, hkeys, liftTree, bind, Except.bind] at h
  simp only [hdp, hkeys, liftTree, bind, Except.bind, Except.ok.injEq] at h
  subst h
  refine ⟨buildPathKeys_keyed hs dp pk pathKeys hkeys, ?_⟩
  intro e he key hkey
  obtain ⟨⟨x, node⟩, hmem, hsome⟩ := List.mem_filterMap.1 he
  split at hsome
  · cases hsome
  · cases hsome
    apply hs x key
    rw [publicKeyAt, s.nodes.mem_entries_iff.1 hmem]
    exact hkey

/-- A joiner's key that has no node yet gets the new leaf. -/
theorem addMember_keyed {t : Tree} {key : PrivateKey} {fresh : ℕ}
    {place : KeyNodes} (hkey : key.id < fresh) (hfree : place key.id = none)
    (hunused : Unused place fresh) (ht : t.Keyed place) :
    ∃ place', Grows (Function.update place key.id
          (some (leafToNodeIndex t.numLeaves))) place' fresh
        (t.addMember key.publicKey fresh).fresh ∧
      (t.addMember key.publicKey fresh).tree.Keyed place' ∧
      ∀ u w secret, (t.addMember key.publicKey fresh).result =
          .ok (u, w, secret) →
        KeyedUpdate place' u ∧ KeyedWelcome place' w := by
  set place₁ := Function.update place key.id
    (some (leafToNodeIndex t.numLeaves)) with hplace₁
  have hunused₁ : Unused place₁ fresh := by
    intro k hk
    rw [hplace₁, Function.update_of_ne (by omega)]
    exact hunused k hk
  have hext : ∀ k x, place k = some x → place₁ k = some x := by
    intro k x hk
    have hne : k ≠ key.id := by
      rintro rfl
      rw [hfree] at hk
      cases hk
    rw [hplace₁, Function.update_of_ne hne, hk]
  have hplaced : (t.placeMember key.publicKey).Keyed place₁ := by
    apply Keyed.setNode
    · exact fun x pk hx => hext _ _ (ht x pk hx)
    · rintro pk ⟨⟩
      exact Function.update_self _ _ _
  obtain ⟨place', hgrow, htree, hupdate⟩ := updatePath_keyed hunused₁ hplaced
  refine ⟨place', hgrow, htree, ?_⟩
  intro u w secret hresult
  have hupdated := Network.addMember_ok hresult
  simp only [addMember, hupdated, bind, Except.bind] at hresult
  rcases hw : ((t.placeMember key.publicKey).updatePath
    fresh).tree.buildWelcome (leafToNodeIndex t.numLeaves) key.publicKey
    with e | w'
  · simp [hw] at hresult
  · simp only [hw, Except.ok.injEq, Prod.mk.injEq, true_and, and_true]
      at hresult
    subst hresult
    exact ⟨hupdate u secret hupdated, buildWelcome_keyed htree hw⟩

/-! ## The receiving operations -/

theorem processPathUpdate_keyed {t : Tree} {i : ℕ} {place : KeyNodes}
    (hi : t.Placed i) (ht : t.Keyed place) {u : PathUpdate}
    (hu : KeyedUpdate place u) : (t.processPathUpdate u).1.Keyed place := by
  apply processPathUpdate_rule (Q := Keyed place) hi.myLeafIndex hi.lt _ _ ht
  · intro t ht
    apply ht.setNode
    rintro pk ⟨⟩
    exact hu.sender
  · intro t n o ht hn _
    apply ht.setNode
    rintro pk ⟨⟩
    exact hu.nodes n hn

theorem processWelcome_keyed {w : Welcome} {j : ℕ} {place : KeyNodes}
    {sk : PrivateKey} (hleaf : w.leafIndex = 2 * j)
    (hsk : place sk.id = some w.leafIndex) (hw : KeyedWelcome place w) :
    (new.processWelcome w sk).1.Keyed place := by
  apply processWelcome_rule (Q := Keyed place) hleaf
  · intro n _
    apply Keyed.setNode
    · intro x pk hx
      simp [publicKeyAt] at hx
    · rintro pk ⟨⟩
      rw [← hleaf]
      exact hsk
  · intro t n key ht hn _
    apply ht.setNode
    rintro pk ⟨⟩
    exact hw.pathKeys n hn
  · intro t type e ht he
    apply ht.setNode
    intro pk hpk
    exact hw.others e he pk hpk

/-! ## What a removal seals to -/

theorem publicKeyAt_blankPath :
    ∀ (path : List ℕ) (t : Tree) (y : ℕ),
      (t.blankPath path).publicKeyAt y =
        if y ∈ path then none else t.publicKeyAt y := by
  intro path
  induction path with
  | nil =>
      intro t y
      simp [blankPath]
  | cons x path ih =>
      intro t y
      refine (ih (t.setNode (blankNode x)) y).trans ?_
      rw [publicKeyAt_setNode]
      by_cases hpath : y ∈ path
      · simp [hpath]
      · by_cases hx : y = x
        · simp [hx, blankNode]
        · simp [hpath, hx, blankNode]

/-- A key left in the tree of a removal, but for the new one at the own leaf,
stood there before, and not above the removed leaf. -/
theorem publicKeyAt_blankMember {t : Tree} {i leafIndex fresh y : ℕ}
    {path : List ℕ} {pk : PublicKey} (hmy : t.myLeafIndex = some (2 * i))
    (hy : y ≠ 2 * i)
    (h : (t.blankMember leafIndex fresh path).publicKeyAt y = some pk) :
    y ≠ leafIndex ∧ y ∉ path ∧ t.publicKeyAt y = some pk := by
  obtain ⟨-, hmy'⟩ := blankPath_frame path (t.setNode (blankLeaf leafIndex))
  have hnot : y ≠ (keyLeaf (2 * i) (generateKey fresh)).index := hy
  rw [blankMember, rekeyLeaf_eq (hmy'.trans hmy), publicKeyAt_setNode,
    if_neg hnot, publicKeyAt_blankPath, publicKeyAt_setNode] at h
  split at h
  · cases h
  · rename_i hpath
    split at h
    · cases h
    · rename_i hleaf
      exact ⟨hleaf, hpath, h⟩

/-- What `removeMember` returns is sealed to keys that stand in the tree at
nodes without the removed leaf below them. -/
theorem removeMember_recipients {t : Tree} {i j fresh : ℕ} (ht : t.Placed i)
    {u : PathUpdate} {secret : RootSecret}
    (h : (t.removeMember (2 * j) fresh).result = .ok (u, secret)) :
    ∀ n ∈ u.nodes, ∀ pk key, n.encryptedPrivateKey = .box pk key →
      ∃ y, t.publicKeyAt y = some pk ∧ isInSubtree (2 * j) y ≠ true := by
  rw [removeMember] at h
  split at h
  · cases h
  rename_i path hpath
  have hs := (blankMember_placed ht (2 * j) fresh path).1
  have hnum := blankMember_numLeaves t (2 * j) fresh path
  by_cases hn : 2 ≤ t.numLeaves
  · obtain ⟨hu⟩ := updatePath_updated (by omega) hs (fresh + 1)
    rw [hu.result] at h
    cases h
    intro n hmem pk key hbox
    obtain ⟨hcopath, -⟩ := hu.recipients n hmem pk key hbox
    obtain ⟨y, hwidth, hoff, hpk⟩ := copathKeys_found (by omega) hs hcopath
    have hy : y ≠ 2 * i := by
      rw [← ancestor_zero]
      exact hoff 0
    obtain ⟨hleaf, hnot, hbefore⟩ :=
      publicKeyAt_blankMember ht.myLeafIndex hy hpk
    refine ⟨y, hbefore, ?_⟩
    intro hsub
    obtain ⟨k, rfl⟩ := isInSubtree_iff.1 hsub
    cases k with
    | zero => exact hleaf (ancestor_zero j)
    | succ k =>
        rw [hnum] at hwidth
        exact hnot (ancestor_mem_directPath hn hpath (Nat.succ_pos k) hwidth)
  · have hlt := hs.lt
    have hone : (t.blankMember (2 * j) fresh path).numLeaves = 1 := by omega
    obtain ⟨pk, hpk⟩ := Option.isSome_iff_exists.1 hs.leafKey
    simp only [updatePath, hs.myLeafIndex, Option.bind_some, hpk, hone,
      if_true] at h
    rcases hsecret : (t.blankMember (2 * j) fresh path).getRootSecret with
      e | secret'
    · simp [hsecret, Except.map] at h
    · simp only [hsecret, Except.map, Except.ok.injEq, Prod.mk.injEq] at h
      rw [← h.1]
      simp

end Collabswarm.BeeKEM.Tree

namespace Collabswarm.BeeKEM.Network

open TreeMath InorderTree Collabswarm.BeeKEM.Tree

/-! ## The invariant -/

/-- A joiner is added only if it has not been added before. -/
def addsOnce (g : Network) : NetworkEvent → Bool
  | .addMember _ joiner => (g.seats.get? joiner).isNone
  | _ => true

/-- Every public key in a tree or a message stands at its node, a joiner's key
has the leaf it was added at, and whoever ever held a private key has its leaf
below the node of the key. -/
structure Kept (place : KeyNodes) (g : Network) : Prop extends g.Sound where
  unused : Unused place g.nextKey
  keyed : ∀ id t, g.trees.get? id = some t → t.Keyed place
  keyedUpdates : ∀ u ∈ g.updates, KeyedUpdate place u
  keyedWelcomes : ∀ p ∈ g.welcomes, KeyedWelcome place p.2
  key_lt : ∀ id key, g.keys.get? id = some key → key.id < g.nextKey
  key_inj : ∀ id id' key, g.keys.get? id = some key →
    g.keys.get? id' = some key → id = id'
  unseated : ∀ id key, g.keys.get? id = some key → g.seats.get? id = none →
    place key.id = none ∧ g.trees.get? id = none
  seated : ∀ id leaf, g.seats.get? id = some leaf →
    g.leafOf id = some leaf ∧ (∃ j, leaf = 2 * j) ∧
      ∃ key, g.keys.get? id = some key ∧ place key.id = some leaf
  invited : ∀ p ∈ g.welcomes, g.seats.get? p.1 = some p.2.leafIndex
  held : ∀ p ∈ g.held,
    (∃ x leaf, place p.2.id = some x ∧ g.leafOf p.1 = some leaf ∧
      isInSubtree leaf x = true) ∨
    (g.keys.get? p.1 = some p.2 ∧ g.seats.get? p.1 = none)

theorem isInSubtree_self (leaf : ℕ) : isInSubtree leaf leaf = true := by
  rw [isInSubtree, if_pos rfl]

theorem found_kept (sk : PrivateKey) :
    Kept (Function.update (fun _ => none) sk.id (some 0)) (found sk) where
  toSound := found_sound sk
  unused := by
    intro k hk
    have hne : k ≠ sk.id := by
      simp only [found] at hk
      omega
    rw [Function.update_of_ne hne]
  keyed := by
    intro id t ht
    simp only [found, InsertionMap.get?_set] at ht
    split at ht
    · cases ht
      apply Keyed.setNode
      · intro x pk hx
        simp [publicKeyAt] at hx
      · rintro pk ⟨⟩
        exact Function.update_self _ _ _
    · cases ht
  keyedUpdates := by simp [found]
  keyedWelcomes := by simp [found]
  key_lt := by simp [found]
  key_inj := by simp [found]
  unseated := by simp [found]
  seated := by simp [found]
  invited := by simp [found]
  held := by
    intro p hp
    obtain rfl := List.mem_singleton.1 hp
    exact Or.inl ⟨0, 0, Function.update_self _ _ _, rfl, isInSubtree_self 0⟩

section Steps

variable {place place' : KeyNodes} {g : Network}

theorem leafOf_keep {party leaf : ℕ} {t : Tree}
    (hleaf : g.leafOf party = some leaf) (ht : t.myLeafIndex = some leaf)
    (id : ℕ) : (g.keep party t).leafOf id = g.leafOf id := by
  by_cases hid : id = party
  · subst hid
    rw [hleaf, leafOf]
    simp [Network.keep, ht]
  · simp [leafOf, Network.keep, InsertionMap.get?_set, hid]

/-- A party keeps the tree of a call for its leaf, in which the new numbers
have their nodes. -/
theorem Kept.keep (h : g.Kept place) (party : ℕ) {i fresh' : ℕ} {t : Tree}
    (hleaf : g.leafOf party = some (2 * i)) (ht : t.Own i)
    (hgrow : Grows place place' g.nextKey fresh') (hkeyed : t.Keyed place') :
    ({ g.keep party t with nextKey := fresh' } : Network).Kept place' := by
  have hext : ∀ k x, place k = some x → place' k = some x :=
    fun k x => hgrow.extends h.unused
  have hleafOf := leafOf_keep hleaf ht.myLeafIndex
  have hsound := h.toSound.keep party ht
  refine ⟨⟨hsound.trees, hsound.updates, hsound.welcomes⟩, hgrow.unused, ?_,
    fun u hu => (h.keyedUpdates u hu).mono hext,
    fun p hp => (h.keyedWelcomes p hp).mono hext,
    fun id key hkey => (h.key_lt id key hkey).trans_le hgrow.le,
    h.key_inj, ?_, ?_, h.invited, ?_⟩
  · intro id t' ht'
    simp only [Network.keep, InsertionMap.get?_set] at ht'
    split at ht'
    · cases ht'
      exact hkeyed
    · exact (h.keyed id t' ht').mono hext
  · intro id key hkey hseat
    obtain ⟨hplace, htree⟩ := h.unseated id key hkey hseat
    refine ⟨?_, ?_⟩
    · rw [hgrow.below _ (h.key_lt id key hkey)]
      exact hplace
    · have hne : id ≠ party := by
        rintro rfl
        have hseat' : g.seats.get? id = none := hseat
        rw [leafOf, htree, hseat'] at hleaf
        cases hleaf
      simp only [Network.keep, InsertionMap.get?_set, if_neg hne]
      exact htree
  · intro id leaf hseat
    obtain ⟨hleaf', heven, key, hkey, hplace⟩ := h.seated id leaf hseat
    exact ⟨(hleafOf id).trans hleaf', heven, key, hkey, hext _ _ hplace⟩
  · intro p hp
    rcases List.mem_append.1 hp with hp | hp
    · rcases h.held p hp with ⟨x, leaf, hplace, hleaf', hsub⟩ | hjoin
      · exact Or.inl ⟨x, leaf, hext _ _ hplace, (hleafOf _).trans hleaf', hsub⟩
      · exact Or.inr hjoin
    · obtain ⟨sk, hsk, rfl⟩ := List.mem_map.1 hp
      obtain ⟨x, hx⟩ := mem_privateKeys hsk
      have hpublic := ht.matched x sk hx
      refine Or.inl ⟨x, 2 * i, hkeyed x _ hpublic, (hleafOf _).trans hleaf, ?_⟩
      exact isInSubtree_iff.2 (ht.onPath x sk hx)

theorem Kept.emitUpdate (h : g.Kept place) {u : PathUpdate}
    (hhonest : ∀ n ∈ u.nodes, HonestNode n) (hkeyed : KeyedUpdate place u) :
    ({ g with updates := g.updates ++ [u] } : Network).Kept place := by
  refine ⟨h.toSound.emitUpdate hhonest, h.unused, h.keyed, ?_,
    h.keyedWelcomes, h.key_lt, h.key_inj, h.unseated, h.seated, h.invited,
    h.held⟩
  intro u' hu'
  rcases List.mem_append.1 hu' with hu' | hu'
  · exact h.keyedUpdates u' hu'
  · rw [List.mem_singleton.1 hu']
    exact hkeyed

theorem Kept.emitWelcome (h : g.Kept place) {joiner j : ℕ} {w : Welcome}
    (hhonest : HonestWelcome w j) (hkeyed : KeyedWelcome place w)
    (hseat : g.seats.get? joiner = some w.leafIndex) :
    ({ g with welcomes := g.welcomes ++ [(joiner, w)] } : Network).Kept
      place := by
  refine ⟨h.toSound.emitWelcome joiner hhonest, h.unused, h.keyed, h.keyedUpdates,
    ?_, h.key_lt, h.key_inj, h.unseated, h.seated, ?_, h.held⟩
  · intro p hp
    rcases List.mem_append.1 hp with hp | hp
    · exact h.keyedWelcomes p hp
    · rw [List.mem_singleton.1 hp]
      exact hkeyed
  · intro p hp
    rcases List.mem_append.1 hp with hp | hp
    · exact h.invited p hp
    · rw [List.mem_singleton.1 hp]
      exact hseat

/-- Placing a key that stands nowhere keeps the nodes of the others. -/
theorem update_extends {k₀ : ℕ} (hfree : place k₀ = none) (node : ℕ) :
    ∀ k x, place k = some x →
      Function.update place k₀ (some node) k = some x := by
  intro k x hk
  have hne : k ≠ k₀ := by
    rintro rfl
    rw [hfree] at hk
    cases hk
  rw [Function.update_of_ne hne, hk]

/-- A first seat changes the leaf of nobody who has one. -/
theorem leafOf_set_seats {joiner : ℕ} (hseat : g.seats.get? joiner = none)
    (leaf : ℕ) {id leaf' : ℕ} (hid : g.leafOf id = some leaf') :
    ({ g with seats := g.seats.set joiner leaf } : Network).leafOf id =
      some leaf' := by
  rw [leafOf] at hid ⊢
  split at hid
  · rename_i t ht
    simpa [ht] using hid
  · rename_i ht
    have hne : id ≠ joiner := by
      rintro rfl
      rw [hseat] at hid
      cases hid
    simpa [ht, InsertionMap.get?_set, hne] using hid

/-- A joiner that was not added before gets a leaf, and its key that node. -/
theorem Kept.seat (h : g.Kept place) {joiner leaf : ℕ} {key : PrivateKey}
    (heven : ∃ j, leaf = 2 * j) (hkey : g.keys.get? joiner = some key)
    (hseat : g.seats.get? joiner = none) :
    ({ g with seats := g.seats.set joiner leaf } : Network).Kept
      (Function.update place key.id (some leaf)) := by
  obtain ⟨hfree, hnone⟩ := h.unseated joiner key hkey hseat
  have hext := update_extends hfree leaf
  have hlt := h.key_lt joiner key hkey
  have hleafOf : ∀ id leaf', g.leafOf id = some leaf' →
      ({ g with seats := g.seats.set joiner leaf } : Network).leafOf id =
        some leaf' := fun _ _ => leafOf_set_seats hseat leaf
  refine ⟨⟨h.trees, h.updates, h.welcomes⟩, ?_,
    fun id t ht => (h.keyed id t ht).mono hext,
    fun u hu => (h.keyedUpdates u hu).mono hext,
    fun p hp => (h.keyedWelcomes p hp).mono hext, h.key_lt, h.key_inj,
    ?_, ?_, ?_, ?_⟩
  · intro k hk
    have hle : g.nextKey ≤ k := hk
    rw [Function.update_of_ne (by omega)]
    exact h.unused k hk
  · intro id key' hkey' hseat'
    rw [InsertionMap.get?_set] at hseat'
    split at hseat'
    · cases hseat'
    · rename_i hne
      obtain ⟨hplace, htree⟩ := h.unseated id key' hkey' hseat'
      refine ⟨?_, htree⟩
      rw [Function.update_of_ne]
      · exact hplace
      · intro heq
        have hsame : key' = key := by
          cases key
          cases key'
          exact congrArg PrivateKey.mk heq
        subst hsame
        exact hne (h.key_inj id joiner key' hkey' hkey)
  · intro id leaf' hseat'
    rw [InsertionMap.get?_set] at hseat'
    split at hseat'
    · rename_i hid
      cases hseat'
      subst hid
      refine ⟨?_, heven, key, hkey, Function.update_self _ _ _⟩
      simp [leafOf, hnone]
    · obtain ⟨hleaf, heven', key', hkey', hplace⟩ := h.seated id leaf' hseat'
      exact ⟨hleafOf id leaf' hleaf, heven', key', hkey', hext _ _ hplace⟩
  · intro p hp
    have hinvited := h.invited p hp
    have hne : p.1 ≠ joiner := by
      intro heq
      rw [heq, hseat] at hinvited
      cases hinvited
    rw [InsertionMap.get?_set, if_neg hne]
    exact hinvited
  · intro p hp
    rcases h.held p hp with ⟨x, leaf', hplace, hleaf, hsub⟩ | ⟨hjoin, hnoseat⟩
    · exact Or.inl ⟨x, leaf', hext _ _ hplace, hleafOf _ _ hleaf, hsub⟩
    · by_cases hid : p.1 = joiner
      · left
        have hsame : p.2 = key := by
          rw [hid, hkey, Option.some.injEq] at hjoin
          exact hjoin.symm
        refine ⟨leaf, leaf, ?_, ?_, isInSubtree_self leaf⟩
        · rw [hsame, Function.update_self]
        · simp [leafOf, hid, hnone]
      · right
        refine ⟨hjoin, ?_⟩
        rw [InsertionMap.get?_set, if_neg hid]
        exact hnoseat

theorem Kept.generate (h : g.Kept place) {joiner : ℕ}
    (htree : g.trees.get? joiner = none) (hkey : g.keys.get? joiner = none) :
    ({ g with
        keys := g.keys.set joiner (generateKey g.nextKey)
        nextKey := g.nextKey + 1
        held := g.held ++ [(joiner, generateKey g.nextKey)] } : Network).Kept
      place := by
  have hseat : g.seats.get? joiner = none := by
    rcases hseat : g.seats.get? joiner with _ | leaf
    · rfl
    · obtain ⟨-, -, key, hkey', -⟩ := h.seated joiner leaf hseat
      rw [hkey] at hkey'
      cases hkey'
  have hother : ∀ id key, id ≠ joiner → g.keys.get? id = some key →
      (g.keys.set joiner (generateKey g.nextKey)).get? id = some key := by
    intro id key hne hid
    rw [InsertionMap.get?_set, if_neg hne]
    exact hid
  have hne : ∀ id key, g.keys.get? id = some key → id ≠ joiner := by
    rintro id key hid rfl
    rw [hkey] at hid
    cases hid
  refine ⟨⟨h.trees, h.updates, h.welcomes⟩, ?_, h.keyed, h.keyedUpdates,
    h.keyedWelcomes, ?_, ?_, ?_, ?_, h.invited, ?_⟩
  · intro k hk
    exact h.unused k (Nat.le_of_succ_le hk)
  · intro id key hid
    rw [InsertionMap.get?_set] at hid
    split at hid
    · cases hid
      exact Nat.lt_succ_self _
    · exact Nat.lt_succ_of_lt (h.key_lt id key hid)
  · intro id id' key hid hid'
    rw [InsertionMap.get?_set] at hid hid'
    split at hid
    · rename_i heq
      split at hid'
      · rename_i heq'
        rw [heq, heq']
      · cases hid
        have hlt := h.key_lt id' _ hid'
        simp [generateKey] at hlt
    · split at hid'
      · cases hid'
        have hlt := h.key_lt id _ hid
        simp [generateKey] at hlt
      · exact h.key_inj id id' key hid hid'
  · intro id key hid hnoseat
    rw [InsertionMap.get?_set] at hid
    split at hid
    · rename_i heq
      cases hid
      exact ⟨h.unused _ le_rfl, by rw [heq]; exact htree⟩
    · exact h.unseated id key hid hnoseat
  · intro id leaf hid
    obtain ⟨hleaf, heven, key, hkey', hplace⟩ := h.seated id leaf hid
    exact ⟨hleaf, heven, key, hother id key (hne id key hkey') hkey', hplace⟩
  · intro p hp
    rcases List.mem_append.1 hp with hp | hp
    · rcases h.held p hp with hnode | ⟨hjoin, hnoseat⟩
      · exact Or.inl hnode
      · exact Or.inr ⟨hother _ _ (hne _ _ hjoin) hjoin, hnoseat⟩
    · obtain rfl := List.mem_singleton.1 hp
      exact Or.inr ⟨by rw [InsertionMap.get?_set, if_pos rfl], hseat⟩

theorem leafOf_of_tree {id i : ℕ} {t : Tree}
    (ht : g.trees.get? id = some t) (hi : t.Own i) :
    g.leafOf id = some (2 * i) := by
  rw [leafOf, ht]
  exact hi.myLeafIndex

theorem Kept.addMember (h : g.Kept place) {sender joiner : ℕ}
    (hseat : g.seats.get? joiner = none) :
    ∃ place', (∀ k x, place k = some x → place' k = some x) ∧
      (g.step (.addMember sender joiner)).Kept place' := by
  simp only [step]
  split
  · rename_i t key htree hkey
    obtain ⟨i, ht⟩ := h.trees sender t htree
    obtain ⟨hfree, -⟩ := h.unseated joiner key hkey hseat
    have hseated := h.seat ⟨t.numLeaves, Nat.mul_comm t.numLeaves 2⟩ hkey hseat
    obtain ⟨place', hgrow, hkeyed, hemit⟩ := addMember_keyed
      (h.key_lt joiner key hkey) hfree h.unused (h.keyed sender t htree)
    obtain ⟨-, -, hwelcome⟩ :=
      addMember_spec ht.toValid key.publicKey g.nextKey
    have hcommit := hseated.keep sender
      (leafOf_of_tree (g := { g with
        seats := g.seats.set joiner (leafToNodeIndex t.numLeaves) }) htree ht)
      (updatePath_own (placeMember_own ht key.publicKey) g.nextKey) hgrow hkeyed
    refine ⟨place', ?_, ?_⟩
    · intro k x hk
      exact hgrow.extends hseated.unused (update_extends hfree _ k x hk)
    · split
      · exact hcommit
      · rename_i u w secret hresult
        obtain ⟨hupdate, hwelcomed⟩ := hemit u w secret hresult
        have hhonest := hwelcome u w secret hresult
        have hsent := hcommit.emitUpdate (updatePath_honest
          (placeMember_own ht key.publicKey).toPlaced (addMember_ok hresult))
          hupdate
        refine hsent.emitWelcome hhonest hwelcomed ?_
        rw [hhonest.leafIndex]
        simp [Network.keep, Nat.mul_comm]
  · exact ⟨place, fun _ _ hk => hk, h⟩

/-- One call, as long as it adds no joiner again. -/
theorem Kept.step (h : g.Kept place) {e : NetworkEvent}
    (hguard : addsOnce g e = true) :
    ∃ place', (∀ k x, place k = some x → place' k = some x) ∧
      (g.step e).Kept place' := by
  have hidle : ∃ place', (∀ k x, place k = some x → place' k = some x) ∧
      g.Kept place' := ⟨place, fun _ _ hk => hk, h⟩
  cases e with
  | generate joiner =>
      simp only [Network.step]
      split
      · rename_i htree hkey
        exact ⟨place, fun _ _ hk => hk, h.generate htree hkey⟩
      · exact hidle
  | addMember sender joiner =>
      exact h.addMember (Option.isNone_iff_eq_none.1 hguard)
  | removeMember sender leafIndex =>
      simp only [Network.step]
      split
      · exact hidle
      · rename_i t htree
        obtain ⟨i, ht⟩ := h.trees sender t htree
        obtain ⟨place', hgrow, hkeyed, hupdate⟩ := removeMember_keyed
          ht.myLeafIndex leafIndex h.unused (h.keyed sender t htree)
        have hcommit := h.keep sender (leafOf_of_tree htree ht)
          (removeMember_own ht leafIndex g.nextKey) hgrow hkeyed
        refine ⟨place', fun k x => hgrow.extends h.unused, ?_⟩
        split
        · exact hcommit
        · rename_i u secret hresult
          exact hcommit.emitUpdate (removeMember_honest ht hresult)
            (hupdate u secret hresult)
  | update sender =>
      simp only [Network.step]
      split
      · exact hidle
      · rename_i t htree
        obtain ⟨i, ht⟩ := h.trees sender t htree
        obtain ⟨place', hgrow, hkeyed, hupdate⟩ := rekeyed_updatePath_keyed
          ht.myLeafIndex h.unused (h.keyed sender t htree)
        have hrekeyed := rekeyLeaf_own ht g.nextKey
        have hcommit := h.keep sender (leafOf_of_tree htree ht)
          (updatePath_own hrekeyed (g.nextKey + 1)) hgrow hkeyed
        refine ⟨place', fun k x => hgrow.extends h.unused, ?_⟩
        split
        · exact hcommit
        · rename_i u secret hresult
          exact hcommit.emitUpdate
            (updatePath_honest hrekeyed.toPlaced hresult)
            (hupdate u secret hresult)
  | processPathUpdate receiver position =>
      simp only [Network.step]
      split
      · rename_i t u htree hu
        obtain ⟨i, ht⟩ := h.trees receiver t htree
        have hmem := List.mem_of_getElem? hu
        exact ⟨place, fun _ _ hk => hk, h.keep receiver
          (leafOf_of_tree htree ht)
          (processPathUpdate_own ht (h.updates u hmem)) (Grows.refl h.unused)
          (processPathUpdate_keyed ht.toPlaced (h.keyed receiver t htree)
            (h.keyedUpdates u hmem))⟩
      · exact hidle
  | processWelcome position =>
      simp only [Network.step]
      split
      · exact hidle
      · rename_i joiner w hw
        split
        · exact hidle
        · rename_i key hkey
          have hmem := List.mem_of_getElem? hw
          obtain ⟨j, hj⟩ := h.welcomes _ hmem
          obtain ⟨hleaf, -, key', hkey', hplace⟩ :=
            h.seated joiner _ (h.invited _ hmem)
          rw [hkey, Option.some.injEq] at hkey'
          subst hkey'
          refine ⟨place, fun _ _ hk => hk, h.keep joiner ?_
            (processWelcome_own hj key)
            (Grows.refl h.unused) (processWelcome_keyed hj.leafIndex hplace
              (h.keyedWelcomes _ hmem))⟩
          rw [hleaf, hj.leafIndex]

end Steps

/-- Every run that adds no joiner again extends the nodes of the keys. -/
theorem exec_kept :
    ∀ (events : List NetworkEvent) {place : KeyNodes} {g : Network},
      g.Kept place → Guarded step (fun g e => addsOnce g e = true) g events →
      ∃ place', (∀ k x, place k = some x → place' k = some x) ∧
        (exec step g events).Kept place' := by
  intro events
  induction events with
  | nil =>
      intro place g h _
      exact ⟨place, fun _ _ hk => hk, h⟩
  | cons e events ih =>
      intro place g h hguard
      obtain ⟨place₁, hext₁, h₁⟩ := h.step hguard.1
      obtain ⟨place₂, hext₂, h₂⟩ := ih h₁ hguard.2
      exact ⟨place₂, fun k x hk => hext₂ k x (hext₁ k x hk), h₂⟩

/-! ## Key holders -/

/-- For every member and every node of its tree: the private key of a public
key there was held only by parties whose leaf is below the node, the member's
own private keys stand above its leaf, and a blank node has none. -/
structure KeyHolders (g : Network) : Prop where
  held : ∀ id t, g.trees.get? id = some t →
    ∀ x pk, t.publicKeyAt x = some pk →
      ∀ p ∈ g.held, p.2.publicKey = pk →
        ∃ leaf, g.leafOf p.1 = some leaf ∧ isInSubtree leaf x = true
  own : ∀ id t, g.trees.get? id = some t →
    ∀ x sk, t.privateKeyAt x = some sk →
      ∃ leaf, t.myLeafIndex = some leaf ∧ isInSubtree leaf x = true
  blank : ∀ id t, g.trees.get? id = some t →
    ∀ x, t.publicKeyAt x = none → t.privateKeyAt x = none

/-- No removal of the run sealed a key to one that the member at the removed
leaf has held by the end of the run. -/
def RemovalsExclude (g₀ : Network) (events : List NetworkEvent) : Prop :=
  ∀ before after sender r t u secret,
    events = before ++ .removeMember sender r :: after →
    (exec step g₀ before).trees.get? sender = some t →
    (t.removeMember r (exec step g₀ before).nextKey).result =
      .ok (u, secret) →
    ∀ n ∈ u.nodes, ∀ pk key, n.encryptedPrivateKey = .box pk key →
      ∀ p ∈ (exec step g₀ events).held,
        (exec step g₀ events).leafOf p.1 = some r → p.2.publicKey ≠ pk

section Kept

variable {place : KeyNodes} {g : Network}

/-- Whoever held the private key of a number with a node has its leaf below
the node. -/
theorem Kept.leaf_of_held (h : g.Kept place) {p : ℕ × PrivateKey}
    (hp : p ∈ g.held) {x : ℕ} (hplace : place p.2.id = some x) :
    ∃ leaf, g.leafOf p.1 = some leaf ∧ isInSubtree leaf x = true := by
  rcases h.held p hp with ⟨x', leaf, hplace', hleaf, hsub⟩ | ⟨hkey, hseat⟩
  · rw [hplace, Option.some.injEq] at hplace'
    subst hplace'
    exact ⟨leaf, hleaf, hsub⟩
  · obtain ⟨hnone, -⟩ := h.unseated p.1 p.2 hkey hseat
    rw [hplace] at hnone
    cases hnone

theorem Kept.keyHolders (h : g.Kept place) : g.KeyHolders where
  held := by
    intro id t ht x pk hpk p hp hsame
    apply h.leaf_of_held hp
    rw [← h.keyed id t ht x pk hpk, ← hsame]
    rfl
  own := by
    intro id t ht x sk hsk
    obtain ⟨i, hown⟩ := h.trees id t ht
    exact ⟨2 * i, hown.myLeafIndex, isInSubtree_iff.2 (hown.onPath x sk hsk)⟩
  blank := by
    intro id t ht x hblank
    obtain ⟨i, hown⟩ := h.trees id t ht
    rcases hsk : t.privateKeyAt x with _ | sk
    · rfl
    · rw [hown.matched x sk hsk] at hblank
      cases hblank

theorem Kept.leafOf_even (h : g.Kept place) {id r : ℕ}
    (hr : g.leafOf id = some r) : ∃ j, r = 2 * j := by
  rcases htree : g.trees.get? id with _ | t
  · rw [leafOf, htree] at hr
    exact (h.seated id r hr).2.1
  · obtain ⟨i, hown⟩ := h.trees id t htree
    rw [leafOf_of_tree htree hown, Option.some.injEq] at hr
    exact ⟨i, hr.symm⟩

end Kept

/-- In every run that adds no joiner again, every state has the key holders
below their nodes, and removals exclude the removed member. -/
theorem keyHolders_of_addsOnce (sk : PrivateKey) (events : List NetworkEvent)
    (hguard : Guarded step (fun g e => addsOnce g e = true) (found sk)
      events) :
    KeyHolders (exec step (found sk) events) ∧
      RemovalsExclude (found sk) events := by
  obtain ⟨place, -, hkept⟩ := exec_kept events (found_kept sk) hguard
  refine ⟨hkept.keyHolders, ?_⟩
  rintro before after sender r t u secret rfl htree hresult n hn pk key hbox
    p hp hleaf hsame
  obtain ⟨hbefore, hafter⟩ := guarded_append_iff.1 hguard
  obtain ⟨place₁, -, hkept₁⟩ := exec_kept before (found_kept sk) hbefore
  obtain ⟨place₂, hext, hkept₂⟩ := exec_kept _ hkept₁ hafter
  rw [exec_append] at hp hleaf
  obtain ⟨j, rfl⟩ := hkept₂.leafOf_even hleaf
  obtain ⟨i, hown⟩ := hkept₁.trees sender t htree
  obtain ⟨y, hy, hnot⟩ :=
    removeMember_recipients hown.toPlaced hresult n hn pk key hbox
  have hplace : place₂ p.2.id = some y := by
    apply hext
    rw [← hkept₁.keyed sender t htree y pk hy, ← hsame]
    rfl
  obtain ⟨leaf, hleaf', hsub⟩ := hkept₂.leaf_of_held hp hplace
  rw [hleaf, Option.some.injEq] at hleaf'
  subst hleaf'
  exact hnot hsub

/-- A member joins, the founder removes it. -/
def joinAndLeave : List NetworkEvent :=
  [.generate 1, .addMember 0 1, .processWelcome 0, .removeMember 0 2]

theorem keyHolders_joinAndLeave :
    Guarded step (fun g e => addsOnce g e = true) (found ⟨0⟩) joinAndLeave ∧
      KeyHolders (exec step (found ⟨0⟩) joinAndLeave) ∧
      RemovalsExclude (found ⟨0⟩) joinAndLeave := by
  have hguard : Guarded step (fun g e => addsOnce g e = true) (found ⟨0⟩)
      joinAndLeave := by decide +kernel
  exact ⟨hguard, keyHolders_of_addsOnce ⟨0⟩ joinAndLeave hguard⟩

/-- The fourth leaf cannot be added; the founder tries again with the same
joiner, which then has the fifth. -/
def addedAgain : List NetworkEvent :=
  [.generate 1, .addMember 0 1, .generate 2, .addMember 0 2, .generate 3,
    .addMember 0 3, .addMember 0 3, .processWelcome 2]

/-- In the founder's tree the leaf of the attempt that threw carries the key of
the member at the next leaf. -/
theorem keyHolders_fails_addedAgain :
    ¬ KeyHolders (exec step (found ⟨0⟩) addedAgain) := by
  intro h
  obtain ⟨t, ht, hpk⟩ : ∃ t,
      (exec step (found ⟨0⟩) addedAgain).trees.get? 0 = some t ∧
        t.publicKeyAt 6 = some ⟨6⟩ := ⟨_, rfl, by decide +kernel⟩
  have hheld : (3, (⟨6⟩ : PrivateKey)) ∈
      (exec step (found ⟨0⟩) addedAgain).held := by decide +kernel
  obtain ⟨leaf, hleaf, hsub⟩ := h.held 0 t ht 6 ⟨6⟩ hpk _ hheld rfl
  have height : (exec step (found ⟨0⟩) addedAgain).leafOf 3 = some 8 := by
    decide +kernel
  rw [height, Option.some.injEq] at hleaf
  subst hleaf
  revert hsub
  decide

end Collabswarm.BeeKEM.Network
