import Collabswarm.BeeKEM.Group

/-!
# Where the private keys of a tree come from

Rules for the receiving operations, which hold whether the call returns or
throws half-way: a receiver stores a private key only on its own path and only
if it was sealed in the message.  For the sending operations, the keys that the
emitted messages are sealed to.
-/

namespace Collabswarm.BeeKEM.Tree

open TreeMath InorderTree

/-! ## Leaves and their ancestors -/

theorem isInSubtree_ancestor (i k : ℕ) :
    isInSubtree (2 * i) (ancestor i k) = true := by
  rw [isInSubtree]
  split
  · rfl
  · rename_i hne
    cases k with
    | zero => simp at hne
    | succ k =>
        have hodd := ancestor_succ_mod_two i k
        have hleaf : isLeaf (ancestor i (k + 1)) = false := by
          rw [← Bool.not_eq_true, isLeaf_iff]
          omega
        have hbounds := ancestor_bounds i (k + 1)
        rw [hleaf]
        simp only [Bool.false_eq_true, if_false, ancestor, level_node,
          Nat.one_shiftLeft, Bool.and_eq_true, decide_eq_true_eq] at hbounds ⊢
        omega

/-- The leaves in the subtree of a node are those it is an ancestor of. -/
theorem isInSubtree_iff {i x : ℕ} :
    isInSubtree (2 * i) x = true ↔ ∃ k, x = ancestor i k := by
  constructor
  · intro h
    obtain ⟨k, q, rfl⟩ := exists_eq_node x
    exact ⟨k, node_eq_ancestor_of_below (below_of_isInSubtree h)⟩
  · rintro ⟨k, rfl⟩
    exact isInSubtree_ancestor i k

/-- A node with a child on our side is an ancestor of our leaf. -/
theorem ancestor_of_findChildOnOurSide {t : Tree} {x c i : ℕ}
    (hmy : t.myLeafIndex = some (2 * i))
    (h : t.findChildOnOurSide x = .ok (some c)) : ∃ k, x = ancestor i k := by
  obtain ⟨k, q, rfl⟩ := exists_eq_node x
  rw [findChildOnOurSide] at h
  cases k with
  | zero => simp [isLeaf_iff] at h
  | succ k =>
      refine ⟨k + 1, node_eq_ancestor_of_below ?_⟩
      have hodd := node_succ_mod_two k q
      have hleaf : isLeaf (node (k + 1) q) = false := by
        rw [← Bool.not_eq_true, isLeaf_iff]
        omega
      simp only [hleaf, Bool.false_eq_true, if_false, left_node_succ,
        liftTree, bind, Except.bind, hmy] at h
      rcases hright : right (node (k + 1) q) t.numLeaves with _ | r
      · simp [hright] at h
      · obtain ⟨j, p, -, rfl, hbelow⟩ := right_below hright
        simp only [hright] at h
        split at h
        · rename_i hin
          exact (below_left (below_of_isInSubtree hin)).1
        · split at h
          · rename_i hin
            exact (hbelow _ (below_of_isInSubtree hin)).1
          · cases h

/-! ## Rules for the receiving operations -/

theorem decryptNodeKey_ok {enc : Sealed} {sk key : PrivateKey}
    (h : decryptNodeKey enc sk = .ok key) : ∃ pk, enc = .box pk key := by
  cases enc with
  | empty => cases h
  | box recipient payload =>
      rw [decryptNodeKey] at h
      split at h
      · cases h
        exact ⟨recipient, rfl⟩
      · cases h

theorem map_some_ok {enc : Sealed} {sk key : PrivateKey}
    (h : (decryptNodeKey enc sk).map some = .ok (some key)) :
    decryptNodeKey enc sk = .ok key := by
  rcases hdec : decryptNodeKey enc sk with e | key'
  · simp [hdec, Except.map] at h
  · simp only [hdec, Except.map, Except.ok.injEq, Option.some.injEq] at h
    rw [h]

theorem decryptIntersection_sealed {t : Tree} {pathNode : PathNodeUpdate}
    {key : PrivateKey}
    (h : t.decryptIntersection pathNode = .ok (some key)) :
    ∃ pk, pathNode.encryptedPrivateKey = .box pk key := by
  rw [decryptIntersection] at h
  rcases hkey : t.keyOnOurSide pathNode.nodeIndex with e | _ | sk
  · simp [hkey, bind, Except.bind] at h
  · simp [hkey, bind, Except.bind] at h
  · simp only [hkey, bind, Except.bind] at h
    exact decryptNodeKey_ok (map_some_ok h)

theorem decryptAbove_sealed {t : Tree} {pathNode : PathNodeUpdate}
    {key : PrivateKey} (h : t.decryptAbove pathNode = .ok (some key)) :
    ∃ pk, pathNode.encryptedPrivateKey = .box pk key := by
  rw [decryptAbove] at h
  rcases hchild : t.findChildOnOurSide pathNode.nodeIndex with e | o
  · simp [hchild, bind, Except.bind] at h
  · simp only [hchild, bind, Except.bind] at h
    split at h
    · cases h
    · exact decryptNodeKey_ok (map_some_ok h)

/-- A node of a message with the private key it is installed with: one that was
sealed in it, and only on the path of the leaf at position `i`. -/
def Opened (i : ℕ) (n : PathNodeUpdate) (o : Option PrivateKey) : Prop :=
  ∀ key, o = some key →
    (∃ pk, n.encryptedPrivateKey = .box pk key) ∧
      ∃ k, n.nodeIndex = ancestor i k

theorem decryptAbove_opened {t : Tree} {i : ℕ} {n : PathNodeUpdate}
    {o : Option PrivateKey} (hmy : t.myLeafIndex = some (2 * i))
    (h : t.decryptAbove n = .ok o) : Opened i n o := by
  rintro key rfl
  refine ⟨decryptAbove_sealed h, ?_⟩
  rw [decryptAbove] at h
  rcases hchild : t.findChildOnOurSide n.nodeIndex with e | _ | c
  · simp [hchild, bind, Except.bind] at h
  · simp [hchild, bind, Except.bind] at h
  · exact ancestor_of_findChildOnOurSide hmy hchild

section Rules

variable {Q : Tree → Prop} {i : ℕ} {nodes : List PathNodeUpdate}

theorem installAbove_rule
    (hnode : ∀ t n o, Q t → n ∈ nodes → Opened i n o →
      Q (t.installNode n o)) :
    ∀ (above : List PathNodeUpdate) (t : Tree), above ⊆ nodes →
      t.myLeafIndex = some (2 * i) → Q t → Q (t.installAbove above).1 := by
  intro above
  induction above with
  | nil =>
      intro t _ _ ht
      exact ht
  | cons n above ih =>
      intro t hsub hmy ht
      rw [installAbove]
      rcases hdec : t.decryptAbove n with e | o
      · exact ht
      · apply ih _ (fun x hx => hsub (List.mem_cons_of_mem _ hx))
        · exact hmy
        · exact hnode t n o ht (hsub List.mem_cons_self)
            (decryptAbove_opened hmy hdec)

theorem installBelow_rule
    (hnode : ∀ t n o, Q t → n ∈ nodes → Opened i n o →
      Q (t.installNode n o)) :
    ∀ (below : List PathNodeUpdate) (t : Tree), below ⊆ nodes → Q t →
      Q (t.installBelow below) := by
  intro below
  induction below with
  | nil =>
      intro t _ ht
      exact ht
  | cons n below ih =>
      intro t hsub ht
      apply ih _ fun x hx => hsub (List.mem_cons_of_mem _ hx)
      exact hnode t n none ht (hsub List.mem_cons_self) (by simp [Opened])

/-- A property that survives recording the sender and installing nodes of the
update, with a private key only if it was sealed in the node and the node is on
our path, survives `processPathUpdate`, whether it throws or not. -/
theorem processPathUpdate_rule {u : PathUpdate} {t : Tree}
    (hmy : t.myLeafIndex = some (2 * i)) (hlt : i < t.numLeaves)
    (hsender : ∀ t, Q t → Q (t.recordSender u))
    (hnode : ∀ t n o, Q t → n ∈ u.nodes → Opened i n o →
      Q (t.installNode n o)) (ht : Q t) :
    Q (t.processPathUpdate u).1 := by
  have ht₁ : Q (t.recordSender u) := hsender t ht
  rcases hcases : t.processPathUpdate u with ⟨t', result⟩
  rw [processPathUpdate] at hcases
  have hmy₁ : (t.recordSender u).myLeafIndex = some (2 * i) := hmy
  have hn₁ : (t.recordSender u).numLeaves = t.numLeaves := rfl
  simp only [hmy₁, hn₁] at hcases
  split at hcases
  · rename_i cp dp hcp hdp
    split at hcases
    · cases hcases
      exact ht₁
    · rename_i n above hdrop
      have hsub : n :: above ⊆ u.nodes := by
        rw [← hdrop]
        exact (List.dropWhile_suffix _).subset
      have hmem : n.nodeIndex ∈ dp := by
        have hhead := List.head?_dropWhile_not
          (fun n : PathNodeUpdate => decide (n.nodeIndex ∉ dp)) u.nodes
        rw [hdrop] at hhead
        simpa using hhead
      split at hcases
      · cases hcases
        exact ht₁
      · cases hcases
        exact ht₁
      · rename_i sk hdec
        have hopened : Opened i n (some sk) := by
          rintro key ⟨⟩
          refine ⟨decryptIntersection_sealed hdec, ?_⟩
          by_cases hn : 2 ≤ t.numLeaves
          · obtain ⟨k, -, -, -, hk⟩ := (mem_directPath hn hlt hdp).1 hmem
            exact ⟨k, hk⟩
          · rw [directPath, if_pos (by omega)] at hdp
            cases hdp
            cases hmem
        have hinstall := hnode _ n (some sk) ht₁ (hsub List.mem_cons_self)
          hopened
        have habove := installAbove_rule hnode above
          ((t.recordSender u).installNode n (some sk))
          (fun x hx => hsub (List.mem_cons_of_mem _ hx)) hmy hinstall
        split at hcases
        · rename_i t'' e heq
          rw [heq] at habove
          cases hcases
          exact habove
        · rename_i t'' heq
          rw [heq] at habove
          cases hcases
          exact installBelow_rule hnode _ _
            (List.takeWhile_prefix _).subset habove
  · cases hcases
    exact ht₁

theorem installPathKeys_rule
    (hkey : ∀ t n sk, Q t → n ∈ nodes →
      (∃ pk, n.encryptedPrivateKey = .box pk sk) →
      Q (t.installNode n (some sk))) :
    ∀ (pathKeys : List PathNodeUpdate) (t : Tree) (current : PrivateKey),
      pathKeys ⊆ nodes → Q t → Q (t.installPathKeys current pathKeys).1 := by
  intro pathKeys
  induction pathKeys with
  | nil =>
      intro t current _ ht
      exact ht
  | cons n pathKeys ih =>
      intro t current hsub ht
      rw [installPathKeys]
      rcases hdec : decryptNodeKey n.encryptedPrivateKey current with e | sk
      · exact ht
      · apply ih _ _ fun x hx => hsub (List.mem_cons_of_mem _ hx)
        exact hkey t n sk ht (hsub List.mem_cons_self) (decryptNodeKey_ok hdec)

theorem installPublicKeys_rule {others : List WelcomeNodePublicKey}
    (hother : ∀ t type e, Q t → e ∈ others →
      Q (t.setNode ⟨type, e.nodeIndex, e.publicKey, none⟩)) :
    ∀ (entries : List WelcomeNodePublicKey) (t : Tree), entries ⊆ others →
      Q t → Q (t.installPublicKeys entries) := by
  intro entries
  induction entries with
  | nil =>
      intro t _ ht
      exact ht
  | cons e entries ih =>
      intro t hsub ht
      apply ih _ fun x hx => hsub (List.mem_cons_of_mem _ hx)
      exact hother t _ e ht (hsub List.mem_cons_self)

/-- The rule for `processWelcome` on a new instance, whether it throws or not:
the property has to hold of the keyed leaf alone, and to survive the path keys
with what is sealed in them and the other entries without a private key. -/
theorem processWelcome_rule {w : Welcome} {sk : PrivateKey} {j : ℕ}
    (hleaf : w.leafIndex = 2 * j)
    (hbase : ∀ n, j < n →
      Q ((⟨.empty, n, some (2 * j)⟩ : Tree).setNode (keyLeaf (2 * j) sk)))
    (hkey : ∀ t n sk, Q t → n ∈ w.pathKeys →
      (∃ pk, n.encryptedPrivateKey = .box pk sk) →
      Q (t.installNode n (some sk)))
    (hother : ∀ t type e, Q t → e ∈ w.treeNodePublicKeys →
      Q (t.setNode ⟨type, e.nodeIndex, e.publicKey, none⟩)) :
    Q (new.processWelcome w sk).1 := by
  have hposition : nodeToLeafIndex w.leafIndex = some j := by
    simp [hleaf, nodeToLeafIndex, isLeaf_iff, Nat.shiftRight_eq_div_pow]
  have hle : ∀ (l : List ℕ) (n : ℕ), n ≤ l.foldl max n := by
    intro l
    induction l with
    | nil =>
        intro n
        exact le_rfl
    | cons x l ih =>
        intro n
        exact (le_max_left n x).trans (ih _)
  unfold processWelcome
  simp only [hposition]
  set n := max new.numLeaves
    ((w.pathKeys.map fun pk => impliedLeaves pk.nodeIndex).foldl max (j + 1))
    with hn
  have hjn : j < n := by
    have hcount := hle (w.pathKeys.map fun pk => impliedLeaves pk.nodeIndex)
      (j + 1)
    exact (Nat.lt_of_succ_le hcount).trans_le (le_max_right _ _)
  have hkeys := installPathKeys_rule hkey w.pathKeys _ sk
    (List.Subset.refl _) (hbase n hjn)
  rw [← hleaf] at hkeys
  split
  · rename_i t' e heq
    have heq' : _ = t' := congrArg Prod.fst heq
    exact heq' ▸ hkeys
  · rename_i t' heq
    have heq' : _ = t' := congrArg Prod.fst heq
    have hall := installPublicKeys_rule hother w.treeNodePublicKeys t'
      (List.Subset.refl _) (heq' ▸ hkeys)
    split
    · exact hall
    · exact hall

end Rules

/-! ## Placement and stored private keys -/

/-- All stored private keys have a property. -/
def Holds (P : PrivateKey → Prop) (t : Tree) : Prop :=
  ∀ y sk, t.privateKeyAt y = some sk → P sk

theorem Holds.setNode {P : PrivateKey → Prop} {t : Tree} (ht : t.Holds P)
    {node : TreeNode} (hnode : ∀ sk, node.privateKey = some sk → P sk) :
    (t.setNode node).Holds P := by
  intro y sk
  rw [privateKeyAt_setNode]
  split
  · exact hnode sk
  · exact ht y sk

theorem Holds.mono {P P' : PrivateKey → Prop} {t : Tree} (ht : t.Holds P)
    (himp : ∀ sk, P sk → P' sk) : t.Holds P' :=
  fun y sk hy => himp sk (ht y sk hy)

theorem Placed.setNode {t : Tree} {i : ℕ} (ht : t.Placed i)
    {node : TreeNode} (hnode : node.index = 2 * i → node.publicKey.isSome) :
    (t.setNode node).Placed i where
  myLeafIndex := ht.myLeafIndex
  lt := ht.lt
  leafKey := by
    rw [publicKeyAt_setNode]
    split
    · rename_i heq
      exact hnode heq.symm
    · exact ht.leafKey

theorem mem_privateKeys {t : Tree} {sk : PrivateKey}
    (h : sk ∈ t.privateKeys) : ∃ y, t.privateKeyAt y = some sk := by
  obtain ⟨⟨y, node⟩, hmem, hsk⟩ := List.mem_filterMap.1 h
  refine ⟨y, ?_⟩
  rw [privateKeyAt, t.nodes.mem_entries_iff.1 hmem]
  exact hsk

theorem updatePathLoop_holds :
    ∀ (pairs : List (ℕ × ℕ)) (t : Tree) (fresh : ℕ),
      t.Holds (·.id < fresh) →
      (updatePathLoop t fresh pairs).tree.Holds
        (·.id < (updatePathLoop t fresh pairs).fresh) := by
  intro pairs
  induction pairs with
  | nil =>
      intro t fresh ht
      exact ht
  | cons pair rest ih =>
      intro t fresh ht
      obtain ⟨p, s⟩ := pair
      rw [updatePathLoop]
      rcases t.resolvePublicKey s with e | o
      · exact ht.mono fun sk hsk => Nat.lt_succ_of_lt hsk
      · apply ih
        apply (ht.mono fun sk hsk => Nat.lt_succ_of_lt hsk).setNode
        intro sk hsk
        simp only [keyNode, generateKey, Option.some.injEq] at hsk
        rw [← hsk]
        exact Nat.lt_succ_self fresh

/-- What every path update of a placed tree guarantees, finished or not. -/
theorem updatePath_sound {s : Tree} {i fresh : ℕ} (hs : s.Placed i)
    (hkeys : s.Holds (·.id < fresh)) :
    (s.updatePath fresh).tree.Placed i ∧
      (s.updatePath fresh).tree.Holds (·.id < (s.updatePath fresh).fresh) ∧
      fresh ≤ (s.updatePath fresh).fresh ∧
      ∀ u secret, (s.updatePath fresh).result = .ok (u, secret) →
        ∀ pathNode ∈ u.nodes, ∀ pk key,
          pathNode.encryptedPrivateKey = .box pk key →
          pk ∈ s.copathKeys ∧ key.id < (s.updatePath fresh).fresh := by
  obtain ⟨pk, hpk⟩ := Option.isSome_iff_exists.1 hs.leafKey
  have hlt := hs.lt
  by_cases hn : 2 ≤ s.numLeaves
  · obtain ⟨h⟩ := updatePath_updated hn hs fresh
    obtain ⟨cp, hcp, -, -⟩ := copath_leaf hn hs.lt h.directPath_eq
    have heq : s.updatePath fresh =
        ⟨(updatePathLoop s fresh ((h.init ++ [h.r]).zip cp)).tree,
          (updatePathLoop s fresh ((h.init ++ [h.r]).zip cp)).fresh,
          (s.updatePath fresh).result⟩ := by
      have hne : s.numLeaves ≠ 1 := by omega
      simp only [updatePath, hs.myLeafIndex, Option.bind_some, hpk, if_neg hne,
        h.directPath_eq, hcp]
    have hloop := updatePathLoop_holds ((h.init ++ [h.r]).zip cp) s fresh hkeys
    obtain ⟨-, -, hfresh, -⟩ :=
      updatePathLoop_frame ((h.init ++ [h.r]).zip cp) s fresh
    refine ⟨PathUpdated.placed hs h, ?_, ?_, ?_⟩
    · rw [heq]
      exact hloop
    · rw [heq]
      exact hfresh
    · intro u secret hresult pathNode hnode pk' key hbox
      rw [h.result] at hresult
      cases hresult
      obtain ⟨hmem, -, hlt⟩ := h.recipients pathNode hnode pk' key hbox
      exact ⟨hmem, hlt⟩
  · have hone : s.numLeaves = 1 := by omega
    have heq : s.updatePath fresh = ⟨s, fresh,
        s.getRootSecret.map fun secret => (⟨2 * i, pk, []⟩, secret)⟩ := by
      simp only [updatePath, hs.myLeafIndex, Option.bind_some, hpk, hone,
        if_true]
    rw [heq]
    refine ⟨hs, hkeys, le_rfl, ?_⟩
    intro u secret hresult pathNode hnode
    rcases hsecret : s.getRootSecret with e | secret'
    · simp [hsecret, Except.map] at hresult
    · simp only [hsecret, Except.map, Except.ok.injEq, Prod.mk.injEq]
        at hresult
      rw [← hresult.1] at hnode
      cases hnode

theorem rekeyLeaf_holds {t : Tree} {fresh : ℕ}
    (ht : t.Holds (·.id < fresh)) :
    (t.rekeyLeaf fresh).Holds (·.id < fresh + 1) := by
  have ht' : t.Holds (·.id < fresh + 1) :=
    ht.mono fun sk hsk => Nat.lt_succ_of_lt hsk
  rw [rekeyLeaf]
  split
  · apply ht'.setNode
    intro sk hsk
    simp only [keyLeaf, generateKey, Option.some.injEq] at hsk
    rw [← hsk]
    exact Nat.lt_succ_self fresh
  · exact ht'

theorem blankPath_holds {P : PrivateKey → Prop} :
    ∀ (path : List ℕ) (t : Tree), t.Holds P → (t.blankPath path).Holds P := by
  intro path
  induction path with
  | nil =>
      intro t ht
      exact ht
  | cons x path ih =>
      intro t ht
      exact ih _ (ht.setNode (by simp [blankNode]))

theorem blankMember_holds {t : Tree} {fresh : ℕ} (leafIndex : ℕ)
    (path : List ℕ) (ht : t.Holds (·.id < fresh)) :
    (t.blankMember leafIndex fresh path).Holds (·.id < fresh + 1) :=
  rekeyLeaf_holds (blankPath_holds path _ (ht.setNode (by simp [blankLeaf])))

/-! ## Welcomes -/

theorem buildPathKeys_sealed {s : Tree} :
    ∀ (dp : List ℕ) (pk : PublicKey) (pathKeys : List PathNodeUpdate),
      s.buildPathKeys pk dp = .ok pathKeys →
      ∀ pathNode ∈ pathKeys, ∀ recipient key,
        pathNode.encryptedPrivateKey = .box recipient key →
        (recipient = pk ∨ ∃ x ∈ dp, s.publicKeyAt x = some recipient) ∧
          ∃ y, s.privateKeyAt y = some key := by
  intro dp
  induction dp with
  | nil =>
      intro pk pathKeys h
      cases h
      simp
  | cons x dp ih =>
      intro pk pathKeys h pathNode hnode recipient key hbox
      rw [buildPathKeys] at h
      rcases hpublic : s.publicKeyAt x with _ | publicKey
      · simp [hpublic] at h
      rcases hprivate : s.privateKeyAt x with _ | privateKey
      · simp [hpublic, hprivate] at h
      rcases hrest : s.buildPathKeys publicKey dp with e | rest
      · simp [hpublic, hprivate, hrest, bind, Except.bind] at h
      simp only [hpublic, hprivate, hrest, bind, Except.bind,
        Except.ok.injEq] at h
      subst h
      rcases List.mem_cons.1 hnode with rfl | hnode
      · cases hbox
        exact ⟨Or.inl rfl, x, hprivate⟩
      · obtain ⟨hrecipient, hkey⟩ :=
          ih publicKey rest hrest pathNode hnode recipient key hbox
        refine ⟨Or.inr ?_, hkey⟩
        rcases hrecipient with rfl | ⟨y, hy, hpk⟩
        · exact ⟨x, by simp, hpublic⟩
        · exact ⟨y, by simp [hy], hpk⟩

/-- What is in a Welcome that was built. -/
theorem buildWelcome_sealed {s : Tree} {leafIndex : ℕ} {pk : PublicKey}
    {w : Welcome} (h : s.buildWelcome leafIndex pk = .ok w) :
    w.leafIndex = leafIndex ∧
      (∀ e ∈ w.treeNodePublicKeys, e.nodeIndex ≠ leafIndex) ∧
      ∃ dp, directPath leafIndex s.numLeaves = some dp ∧
        ∀ pathNode ∈ w.pathKeys, ∀ recipient key,
          pathNode.encryptedPrivateKey = .box recipient key →
          (recipient = pk ∨ ∃ x ∈ dp, s.publicKeyAt x = some recipient) ∧
            ∃ y, s.privateKeyAt y = some key := by
  rw [buildWelcome] at h
  rcases hdp : directPath leafIndex s.numLeaves with _ | dp
  · simp [hdp, liftTree, bind, Except.bind] at h
  rcases hkeys : s.buildPathKeys pk dp with e | pathKeys
  · simp [hdp, hkeys, liftTree, bind, Except.bind] at h
  simp only [hdp, hkeys, liftTree, bind, Except.bind, Except.ok.injEq] at h
  subst h
  refine ⟨rfl, ?_, dp, rfl, buildPathKeys_sealed dp pk pathKeys hkeys⟩
  intro e he
  obtain ⟨⟨y, node⟩, -, hsome⟩ := List.mem_filterMap.1 he
  split at hsome
  · cases hsome
  · rename_i hnot
    cases hsome
    exact fun heq => hnot (Or.inl heq)

/-- The public keys on the path of a leaf and off the own path. -/
def offPathKeys (s : Tree) (leafIndex : ℕ) : List PublicKey :=
  match s.myLeafIndex.bind (directPath · s.numLeaves),
      directPath leafIndex s.numLeaves with
  | some own, some dp => (dp.filter (· ∉ own)).filterMap s.publicKeyAt
  | _, _ => []

/-- What `addMember` guarantees when it returns. -/
theorem addMember_sealed {t : Tree} {i fresh : ℕ} {key : PrivateKey}
    (ht : t.Placed i) {u : PathUpdate} {w : Welcome} {secret : RootSecret}
    (h : (t.addMember key.publicKey fresh).result = .ok (u, w, secret)) :
    ((t.placeMember key.publicKey).updatePath fresh).result =
        .ok (u, secret) ∧
      w.leafIndex = 2 * t.numLeaves ∧
      (∀ e ∈ w.treeNodePublicKeys, e.nodeIndex ≠ w.leafIndex) ∧
      ∀ pathNode ∈ w.pathKeys, ∀ recipient sk,
        pathNode.encryptedPrivateKey = .box recipient sk →
        (recipient = key.publicKey ∨ fresh ≤ recipient.id ∨
          recipient ∈ (t.placeMember key.publicKey).offPathKeys
            (leafToNodeIndex t.numLeaves)) ∧
        ∃ y, (t.addMember key.publicKey fresh).tree.privateKeyAt y =
          some sk := by
  set s := t.placeMember key.publicKey with hsdef
  have hs : s.Placed i := placeMember_placed ht key.publicKey
  have hpos : 1 ≤ t.numLeaves := Nat.one_le_of_lt ht.lt
  have hn : 2 ≤ s.numLeaves := Nat.succ_le_succ hpos
  obtain ⟨hu⟩ := updatePath_updated hn hs fresh
  have htree : (t.addMember key.publicKey fresh).tree =
      (s.updatePath fresh).tree := rfl
  have hleafIndex : leafToNodeIndex t.numLeaves = 2 * t.numLeaves := by
    rw [leafToNodeIndex]
    omega
  simp only [addMember, ← hsdef, hu.result, bind, Except.bind] at h
  rcases hw : (s.updatePath fresh).tree.buildWelcome
    (leafToNodeIndex t.numLeaves) key.publicKey with e | w'
  · simp [hw] at h
  simp only [hw, Except.ok.injEq, Prod.mk.injEq] at h
  obtain ⟨rfl, rfl, rfl⟩ := h
  obtain ⟨hleaf, hentries, dp, hdp, hsealed⟩ := buildWelcome_sealed hw
  refine ⟨hu.result, hleaf.trans hleafIndex, by rw [hleaf]; exact hentries, ?_⟩
  intro pathNode hnode recipient sk hbox
  obtain ⟨hrecipient, hprivate⟩ := hsealed pathNode hnode recipient sk hbox
  refine ⟨?_, hprivate⟩
  rcases hrecipient with rfl | ⟨x, hx, hpk⟩
  · exact Or.inl rfl
  · right
    by_cases hmem : x ∈ hu.init ++ [hu.r]
    · left
      obtain ⟨sk', hlo, -, hget⟩ := hu.path x hmem
      simp only [publicKeyAt, hget, keyNode, Option.bind_some,
        Option.some.injEq] at hpk
      rw [← hpk]
      exact hlo
    · right
      rw [hu.numLeaves] at hdp
      rw [publicKeyAt, hu.frame x hmem] at hpk
      simp only [offPathKeys, hs.myLeafIndex, Option.bind_some,
        hu.directPath_eq, hdp, List.mem_filterMap, List.mem_filter]
      exact ⟨x, ⟨hx, by simpa using hmem⟩, hpk⟩

end Collabswarm.BeeKEM.Tree
