import Collabswarm.BeeKEM.Path

/-!
# What a receiver of BeeKEM messages ends up with

A path update reaches a receiver whose tree has the same root when the two
leaves lie on different sides of it and the sender's resolution of the
receiver's side is the public half of the key the receiver holds there.  A
Welcome reproduces the sender's public tree and root key.
-/

namespace Collabswarm.BeeKEM.Tree

open InorderTree TreeMath

/-! ## The child on our side -/

theorem below_of_isInSubtree {leafIndex k q : ℕ}
    (h : isInSubtree leafIndex (node k q) = true) : Below k q leafIndex := by
  have hone := node_add_one k q
  have hlow : 2 ^ (k + 1) * q + 2 ^ k = 2 ^ k * (2 * q + 1) := by ring
  have hhigh : 2 ^ (k + 1) * (q + 1) = 2 ^ k * (2 * q + 1) + 2 ^ k := by ring
  rw [isInSubtree] at h
  split at h
  · rename_i heq
    rw [← heq]
    exact below_node k q
  · split at h
    · cases h
    · simp only [level_node, Nat.one_shiftLeft, Bool.and_eq_true,
        decide_eq_true_eq] at h
      unfold Below
      omega

/-- The child on our side lies, with its whole subtree, on our side of the
node. -/
theorem findChildOnOurSide_spec {t : Tree} {x c my : ℕ}
    (hmy : t.myLeafIndex = some my)
    (h : t.findChildOnOurSide x = .ok (some c)) :
    ∃ k q, c = node k q ∧
      ((my < x ∧ ∀ y, Below k q y → y < x) ∨
        (x < my ∧ ∀ y, Below k q y → x < y)) := by
  obtain ⟨k, q, rfl⟩ := exists_eq_node x
  rw [findChildOnOurSide] at h
  cases k with
  | zero => simp [isLeaf_iff] at h
  | succ k =>
      have hodd := node_succ_mod_two k q
      have hleaf : isLeaf (node (k + 1) q) = false := by
        rw [← Bool.not_eq_true, isLeaf_iff]
        omega
      simp only [hleaf, Bool.false_eq_true, if_false, left_node_succ,
        liftTree, bind, Except.bind, hmy] at h
      rcases hright : right (node (k + 1) q) t.numLeaves with _ | r
      · simp [hright] at h
      · obtain ⟨j, p, -, rfl, hbelow⟩ := right_below hright
        simp only [hright] at h
        split at h
        · rename_i hin
          cases h
          exact ⟨k, 2 * q, rfl, Or.inl
            ⟨(below_left (below_of_isInSubtree hin)).2,
              fun y hy => (below_left hy).2⟩⟩
        · split at h
          · rename_i hin
            cases h
            exact ⟨j, p, rfl, Or.inr
              ⟨(hbelow _ (below_of_isInSubtree hin)).2,
                fun y hy => (hbelow y hy).2⟩⟩
          · cases h

theorem findChildOnOurSide_congr {t t' : Tree} (x : ℕ)
    (hn : t'.numLeaves = t.numLeaves)
    (hmy : t'.myLeafIndex = t.myLeafIndex) :
    t'.findChildOnOurSide x = t.findChildOnOurSide x := by
  simp only [findChildOnOurSide, hn, hmy]

/-- The key a receiver opens a node with depends on the nodes of its own side
only. -/
theorem keyOnOurSide_congr {t t' : Tree} {x my : ℕ}
    (hmy : t.myLeafIndex = some my)
    (hn : t'.numLeaves = t.numLeaves) (hmy' : t'.myLeafIndex = some my)
    (hsame : ∀ y, (my < x ∧ y < x) ∨ (x < my ∧ x < y) →
      t'.nodes.get? y = t.nodes.get? y) :
    t'.keyOnOurSide x = t.keyOnOurSide x := by
  rw [keyOnOurSide, keyOnOurSide,
    findChildOnOurSide_congr x hn (hmy'.trans hmy.symm)]
  rcases hchild : t.findChildOnOurSide x with e | _ | c
  · rfl
  · rfl
  · obtain ⟨k, q, rfl, hside⟩ := findChildOnOurSide_spec hmy hchild
    have hbelow : ∀ y, Below k q y →
        t'.nodes.get? y = t.nodes.get? y := by
      intro y hy
      apply hsame
      rcases hside with ⟨hlt, hall⟩ | ⟨hlt, hall⟩
      · exact Or.inl ⟨hlt, hall y hy⟩
      · exact Or.inr ⟨hlt, hall y hy⟩
    have hres : t'.resolveSubtreeKey (node k q) =
        t.resolveSubtreeKey (node k q) := resolve_congr hn _ k q hbelow
    simp only [bind, Except.bind, privateKeyAt, hbelow _ (below_node k q),
      hres]

/-! ## Path updates -/

theorem installBelow_spec :
    ∀ (nodes : List PathNodeUpdate) (t : Tree),
      (t.Matched → (t.installBelow nodes).Matched) ∧
      ∀ y, (t.publicKeyAt y).isSome →
        ((t.installBelow nodes).publicKeyAt y).isSome := by
  intro nodes
  induction nodes with
  | nil =>
      intro t
      simp [installBelow]
  | cons pathNode rest ih =>
      intro t
      obtain ⟨hmatched, hpublic⟩ := ih (t.installNode pathNode none)
      refine ⟨?_, ?_⟩
      · intro ht
        exact hmatched (ht.setNode (by simp))
      · intro y hy
        apply hpublic
        rw [installNode, publicKeyAt_setNode]
        split
        · rfl
        · exact hy

/-- A receiver of a path update that shares the sender's root. -/
theorem processPathUpdate_ok {t : Tree} {i r : ℕ} {u : PathUpdate}
    {below : List PathNodeUpdate} {rootNode : PathNodeUpdate}
    {sk payload : PrivateKey} {dp : List ℕ}
    (hn : 2 ≤ t.numLeaves) (ht : t.Valid i)
    (hroot : root t.numLeaves = some r)
    (hdp : directPath (2 * i) t.numLeaves = some dp)
    (hnodes : u.nodes = below ++ [rootNode])
    (hrootNode : rootNode.nodeIndex = r)
    (hbelow : ∀ pathNode ∈ below, pathNode.nodeIndex ∉ dp)
    (hside : (2 * i < r ∧ r < u.senderLeafIndex) ∨
      (r < 2 * i ∧ u.senderLeafIndex < r))
    (hkey : t.keyOnOurSide r = .ok (some sk))
    (hsealed : rootNode.encryptedPrivateKey = .box sk.publicKey payload)
    (hhonest : HonestNode rootNode) :
    ∃ t', t.processPathUpdate u = (t', .ok ⟨payload⟩) ∧ t'.Valid i ∧
      t'.numLeaves = t.numLeaves ∧ t'.getRootSecret = .ok ⟨payload⟩ := by
  obtain ⟨cp, hcp, -, -⟩ := copath_leaf hn ht.lt hdp
  have hrmem : r ∈ dp := by
    have hodd := root_odd hn hroot
    obtain ⟨init, hinit, -⟩ := directPath_last hn hroot (by omega) hdp
    simp [hinit]
  set t₁ := t.recordSender u with ht₁
  have hkey₁ : t₁.keyOnOurSide r = .ok (some sk) := by
    rw [← hkey]
    refine keyOnOurSide_congr ht.myLeafIndex rfl ht.myLeafIndex ?_
    intro y hy
    rw [ht₁, recordSender, get?_setNode]
    apply if_neg
    show y ≠ u.senderLeafIndex
    omega
  have htake : u.nodes.takeWhile (·.nodeIndex ∉ dp) = below := by
    rw [hnodes, List.takeWhile_append_of_pos (by simpa using hbelow)]
    simp [hrootNode, hrmem]
  have hdrop : u.nodes.dropWhile (·.nodeIndex ∉ dp) = [rootNode] := by
    rw [hnodes, List.dropWhile_append_of_pos (by simpa using hbelow)]
    simp [hrootNode, hrmem]
  have hdecrypt : t₁.decryptIntersection rootNode = .ok (some payload) := by
    simp [decryptIntersection, hrootNode, hkey₁, hsealed, decryptNodeKey,
      bind, Except.bind, Except.map]
  set t₂ := t₁.installNode rootNode (some payload) with ht₂
  set t₃ := t₂.installBelow below with ht₃
  obtain ⟨hn₃, hmy₃, hframe₃⟩ := installBelow_frame below t₂
  obtain ⟨hmatched₃, hpublic₃⟩ := installBelow_spec below t₂
  have hrootGet : t₃.privateKeyAt r = some payload := by
    have hnot : r ∉ below.map PathNodeUpdate.nodeIndex := by
      intro hmem
      obtain ⟨pathNode, hpath, hindex⟩ := List.mem_map.1 hmem
      exact hbelow pathNode hpath (hindex ▸ hrmem)
    rw [ht₃, privateKeyAt, hframe₃ r hnot, ht₂, installNode, get?_setNode,
      if_pos hrootNode.symm]
    rfl
  have hsecret : t₃.getRootSecret = .ok ⟨payload⟩ := by
    have hn₃' : t₃.numLeaves = t.numLeaves := hn₃
    exact getRootSecret_of_root (by rw [hn₃']; exact hn)
      (by rw [hn₃']; exact hroot) hrootGet
  refine ⟨t₃, ?_, ?_, hn₃, hsecret⟩
  · have hmy₁ : t₁.myLeafIndex = some (2 * i) := ht.myLeafIndex
    have hn₁ : t₁.numLeaves = t.numLeaves := rfl
    simp only [processPathUpdate, ← ht₁, hmy₁, hn₁, hcp, hdp, hdrop,
      hdecrypt, htake, ← ht₂, installAbove, ← ht₃, hsecret]
  · have hmatched₂ : t₂.Matched := by
      refine Matched.setNode (ht.matched.setNode (by simp)) ?_
      intro key hkeyEq
      rw [hhonest _ _ hsealed]
      simpa [eq_comm] using congrArg (Option.map PrivateKey.publicKey) hkeyEq
    have hpublic₂ : (t₂.publicKeyAt (2 * i)).isSome := by
      rw [ht₂, installNode, publicKeyAt_setNode]
      split
      · rfl
      · rw [ht₁, recordSender, publicKeyAt_setNode]
        split
        · rfl
        · exact ht.leafKey
    exact ⟨⟨hmy₃.trans ht.myLeafIndex, by rw [hn₃]; exact ht.lt,
      hpublic₃ _ hpublic₂⟩, hmatched₃ hmatched₂⟩

/-! ## Welcomes -/

theorem mem_keys_of_publicKeyAt {t : Tree} {y : ℕ}
    (h : (t.publicKeyAt y).isSome) : y ∈ t.nodes.keys := by
  rw [InsertionMap.mem_keys_iff]
  rcases hget : t.nodes.get? y with _ | node
  · simp [publicKeyAt, hget] at h
  · rfl

/-- The indices that count for the tree hash, in index order. -/
theorem computeTreeHash_eq (t : Tree) :
    t.computeTreeHash =
      ((t.nodes.keys.insertionSort (· ≤ ·)).filter fun nodeIndex =>
        (t.publicKeyAt nodeIndex).isSome).filterMap fun nodeIndex =>
          (t.publicKeyAt nodeIndex).map (nodeIndex, ·) := by
  rw [computeTreeHash, List.filterMap_filter]
  apply List.filterMap_congr
  intro nodeIndex _
  cases t.publicKeyAt nodeIndex <;> rfl

/-- The tree hash depends on the public keys only. -/
theorem computeTreeHash_congr {t t' : Tree}
    (hpublic : ∀ y, t'.publicKeyAt y = t.publicKeyAt y) :
    t'.computeTreeHash = t.computeTreeHash := by
  have hmem : ∀ (s : Tree) y,
      y ∈ (s.nodes.keys.insertionSort (· ≤ ·)).filter
        (fun y => (s.publicKeyAt y).isSome) ↔ (s.publicKeyAt y).isSome := by
    intro s y
    rw [List.mem_filter, List.mem_insertionSort]
    exact and_iff_right_of_imp mem_keys_of_publicKeyAt
  have hnodup : ∀ s : Tree, ((s.nodes.keys.insertionSort (· ≤ ·)).filter
      fun y => (s.publicKeyAt y).isSome).Nodup :=
    fun s => ((List.perm_insertionSort _ _).nodup_iff.2 s.nodes.nodup).filter _
  have hsort : (t'.nodes.keys.insertionSort (· ≤ ·)).filter
        (fun y => (t'.publicKeyAt y).isSome) =
      (t.nodes.keys.insertionSort (· ≤ ·)).filter
        fun y => (t.publicKeyAt y).isSome := by
    refine List.Perm.eq_of_pairwise'
      ((List.pairwise_insertionSort (· ≤ ·) _).filter _)
      ((List.pairwise_insertionSort (· ≤ ·) _).filter _) ?_
    refine (List.perm_ext_iff_of_nodup (hnodup t') (hnodup t)).2 fun y => ?_
    rw [hmem t', hmem t, hpublic]
  rw [computeTreeHash_eq, computeTreeHash_eq, hsort]
  simp only [hpublic]

/-- The path keys of a Welcome open one another, starting from the joiner's
key, and reproduce the sender's key pairs. -/
theorem buildPathKeys_ok {s : Tree} (hs : s.Matched) :
    ∀ (dp : List ℕ) (current : PrivateKey),
      (∀ x ∈ dp, (s.privateKeyAt x).isSome) →
      ∃ pathKeys, s.buildPathKeys current.publicKey dp = .ok pathKeys ∧
        pathKeys.map PathNodeUpdate.nodeIndex = dp ∧
        ∀ t : Tree, ∃ t', t.installPathKeys current pathKeys = (t', .ok ()) ∧
          t'.numLeaves = t.numLeaves ∧ t'.myLeafIndex = t.myLeafIndex ∧
          ∀ y, t'.nodes.get? y =
            if y ∈ dp then
              some ⟨.internal, y, s.publicKeyAt y, s.privateKeyAt y⟩
            else t.nodes.get? y := by
  intro dp
  induction dp with
  | nil =>
      intro current _
      refine ⟨[], rfl, rfl, fun t => ⟨t, rfl, rfl, rfl, fun y => ?_⟩⟩
      simp
  | cons x rest ih =>
      intro current hkeys
      obtain ⟨sk, hsk⟩ := Option.isSome_iff_exists.1 (hkeys x (by simp))
      have hpk := hs x sk hsk
      obtain ⟨pathKeys, hbuild, hindex, hinstall⟩ :=
        ih sk fun y hy => hkeys y (by simp [hy])
      refine ⟨⟨x, sk.publicKey, encryptNodeKey sk current.publicKey⟩ ::
        pathKeys, ?_, ?_, ?_⟩
      · simp [buildPathKeys, hsk, hpk, hbuild, bind, Except.bind]
      · simp [hindex]
      · intro t
        set pathKey : PathNodeUpdate :=
          ⟨x, sk.publicKey, encryptNodeKey sk current.publicKey⟩
        obtain ⟨t', ht', hn, hmy, hget⟩ :=
          hinstall (t.installNode pathKey (some sk))
        refine ⟨t', ?_, hn, hmy, ?_⟩
        · have hopen : decryptNodeKey pathKey.encryptedPrivateKey current =
              .ok sk := if_pos rfl
          rw [installPathKeys, hopen]
          exact ht'
        · intro y
          rw [hget]
          by_cases hrest : y ∈ rest
          · simp [hrest]
          · rw [if_neg hrest, installNode, get?_setNode]
            by_cases hx : y = x
            · subst hx
              simp [pathKey, hsk, hpk]
            · simp [pathKey, hx, hrest]

theorem installPublicKeys_spec {f : ℕ → Option PublicKey} :
    ∀ (entries : List WelcomeNodePublicKey) (t : Tree),
      (∀ e ∈ entries, e.publicKey = f e.nodeIndex) →
      (t.installPublicKeys entries).numLeaves = t.numLeaves ∧
      (t.installPublicKeys entries).myLeafIndex = t.myLeafIndex ∧
      (∀ y, y ∈ (t.installPublicKeys entries).nodes.keys ↔
        y ∈ entries.map WelcomeNodePublicKey.nodeIndex ∨
          y ∈ t.nodes.keys) ∧
      (∀ y, (t.installPublicKeys entries).publicKeyAt y =
        if y ∈ entries.map WelcomeNodePublicKey.nodeIndex then f y
        else t.publicKeyAt y) ∧
      ∀ y, (t.installPublicKeys entries).privateKeyAt y =
        if y ∈ entries.map WelcomeNodePublicKey.nodeIndex then none
        else t.privateKeyAt y := by
  intro entries
  induction entries with
  | nil =>
      intro t _
      simp [installPublicKeys]
  | cons e rest ih =>
      intro t hf
      set node : TreeNode := ⟨if isLeaf e.nodeIndex then .leaf else .internal,
        e.nodeIndex, e.publicKey, none⟩ with hnode
      have hstep : t.installPublicKeys (e :: rest) =
          (t.setNode node).installPublicKeys rest := rfl
      obtain ⟨hn, hmy, hkeys, hpublic, hprivate⟩ := ih (t.setNode node)
        fun e' he' => hf e' (by simp [he'])
      rw [hstep]
      refine ⟨hn, hmy, ?_, ?_, ?_⟩
      · intro y
        rw [hkeys, setNode, InsertionMap.mem_keys_set]
        simp only [List.map_cons, List.mem_cons]
        tauto
      · intro y
        rw [hpublic, publicKeyAt_setNode]
        by_cases hy : y = e.nodeIndex
        · subst hy
          simp [hnode, hf e (by simp)]
        · simp [hnode, hy]
      · intro y
        rw [hprivate, privateKeyAt_setNode]
        by_cases hy : y = e.nodeIndex
        · subst hy
          simp [hnode]
        · simp [hnode, hy]

theorem foldl_max_eq {n : ℕ} :
    ∀ (l : List ℕ), (∀ x ∈ l, x ≤ n) → l.foldl max n = n := by
  intro l
  induction l with
  | nil =>
      intro _
      rfl
  | cons x l ih =>
      intro hl
      rw [List.foldl_cons, max_eq_left (hl x (by simp))]
      exact ih fun y hy => hl y (by simp [hy])

theorem impliedLeaves_le {n x : ℕ} (hx : x < 2 * n - 1) (hodd : x % 2 = 1) :
    impliedLeaves x ≤ n := by
  rw [impliedLeaves, if_neg (by omega), Nat.shiftRight_eq_div_pow]
  omega

/-- The leaf count that a Welcome for the last leaf implies. -/
theorem welcome_numLeaves {j : ℕ} {indices : List ℕ} (hpos : 1 ≤ j)
    (hdp : directPath (2 * j) (j + 1) = some indices) :
    (indices.map impliedLeaves).foldl max (j + 1) = j + 1 := by
  apply foldl_max_eq
  intro x hx
  obtain ⟨y, hy, rfl⟩ := List.mem_map.1 hx
  obtain ⟨k, hk, -, hlt, rfl⟩ :=
    (mem_directPath (by omega) (Nat.lt_succ_self j) hdp).1 hy
  obtain ⟨k, rfl⟩ : ∃ k', k = k' + 1 := ⟨k - 1, by omega⟩
  exact impliedLeaves_le hlt (ancestor_succ_mod_two j k)

/-- The public keys that `buildWelcome` sends beside the path keys: those of
the nodes other than the joiner's leaf and its path. -/
def publicKeysBeside (s : Tree) (leaf : ℕ) (dp : List ℕ) :
    List WelcomeNodePublicKey :=
  s.nodes.entries.filterMap fun e =>
    if e.1 = leaf ∨ e.1 ∈ dp then none else some ⟨e.1, e.2.publicKey⟩

theorem publicKeysBeside_key {s : Tree} {leaf : ℕ} {dp : List ℕ}
    {e : WelcomeNodePublicKey} (he : e ∈ s.publicKeysBeside leaf dp) :
    e.publicKey = s.publicKeyAt e.nodeIndex := by
  obtain ⟨⟨y, nd⟩, hmem, hsome⟩ := List.mem_filterMap.1 he
  split at hsome
  · cases hsome
  · cases hsome
    simp [publicKeyAt, s.nodes.mem_entries_iff.1 hmem]

theorem mem_publicKeysBeside {s : Tree} {leaf : ℕ} {dp : List ℕ} {y : ℕ} :
    y ∈ (s.publicKeysBeside leaf dp).map WelcomeNodePublicKey.nodeIndex ↔
      y ∈ s.nodes.keys ∧ y ≠ leaf ∧ y ∉ dp := by
  simp only [publicKeysBeside, List.mem_map, List.mem_filterMap,
    InsertionMap.keys]
  constructor
  · rintro ⟨e, ⟨⟨z, nd⟩, hmem, hsome⟩, rfl⟩
    split at hsome
    · cases hsome
    · rename_i hnot
      cases hsome
      exact ⟨⟨(z, nd), hmem, rfl⟩, not_or.1 hnot⟩
  · rintro ⟨⟨⟨z, nd⟩, hmem, rfl⟩, hne, hnot⟩
    exact ⟨⟨z, nd.publicKey⟩, ⟨(z, nd), hmem, if_neg (by simp_all)⟩, rfl⟩

/-- The tree `t` of a joiner at `leaf` beside the tree `s` of its sender: the
same nodes with the same public keys, and private keys at the leaf and along
its path only. -/
structure JoinedFrom (s t : Tree) (leaf : ℕ) (sk : PrivateKey)
    (dp : List ℕ) : Prop where
  keys : ∀ y, y ∈ t.nodes.keys ↔ y ∈ s.nodes.keys
  publicKey : ∀ y, t.publicKeyAt y = s.publicKeyAt y
  privateKey : ∀ y, t.privateKeyAt y =
    if y = leaf then some sk else if y ∈ dp then s.privateKeyAt y else none

theorem JoinedFrom.matched {s t : Tree} {leaf : ℕ} {sk : PrivateKey}
    {dp : List ℕ} (h : JoinedFrom s t leaf sk dp) (hs : s.Matched)
    (hleaf : s.publicKeyAt leaf = some sk.publicKey) : t.Matched := by
  intro y key hy
  rw [h.privateKey] at hy
  rw [h.publicKey]
  split at hy
  · rename_i hyleaf
    cases hy
    rw [hyleaf, hleaf]
  · split at hy
    · exact hs y key hy
    · cases hy

/-- Installing the sent public keys over the joiner's leaf and path keys
rebuilds the sender's tree. -/
theorem joinedFrom_installPublicKeys {s t : Tree} {leaf : ℕ} {sk : PrivateKey}
    {dp : List ℕ} (hs : s.Matched)
    (hleaf : s.publicKeyAt leaf = some sk.publicKey) (hnot : leaf ∉ dp)
    (hkeys : ∀ x ∈ dp, (s.privateKeyAt x).isSome)
    (hget : ∀ y, t.nodes.get? y =
      if y ∈ dp then some ⟨.internal, y, s.publicKeyAt y, s.privateKeyAt y⟩
      else if y = leaf then some (keyLeaf leaf sk) else none) :
    JoinedFrom s (t.installPublicKeys (s.publicKeysBeside leaf dp)) leaf sk
      dp := by
  obtain ⟨-, -, hkeys', hpublic', hprivate'⟩ :=
    installPublicKeys_spec (s.publicKeysBeside leaf dp) t
      fun e he => publicKeysBeside_key he
  refine ⟨?_, ?_, ?_⟩
  · intro y
    have hown : y = leaf ∨ y ∈ dp → y ∈ s.nodes.keys := by
      rintro (rfl | hy)
      · exact mem_keys_of_publicKeyAt (by simp [hleaf])
      · obtain ⟨key, hkey⟩ := Option.isSome_iff_exists.1 (hkeys y hy)
        exact mem_keys_of_publicKeyAt (by simp [hs y key hkey])
    have hmem : y ∈ t.nodes.keys ↔ y = leaf ∨ y ∈ dp := by
      rw [InsertionMap.mem_keys_iff, hget]
      by_cases hy : y ∈ dp
      · simp [hy]
      · by_cases hyleaf : y = leaf
        · simp [hyleaf, hnot]
        · simp [hy, hyleaf]
    rw [hkeys', mem_publicKeysBeside, hmem]
    tauto
  · intro y
    rw [hpublic']
    by_cases hbeside : y ∈ (s.publicKeysBeside leaf dp).map
        WelcomeNodePublicKey.nodeIndex
    · rw [if_pos hbeside]
    rw [if_neg hbeside, publicKeyAt, hget]
    by_cases hy : y ∈ dp
    · simp [hy]
    by_cases hyleaf : y = leaf
    · simp [hyleaf, hnot, hleaf, keyLeaf]
    -- a node that is not sent and not the joiner's own has no public key
    rcases hnone : s.publicKeyAt y with _ | pk
    · simp [hy, hyleaf]
    · have hmem := mem_keys_of_publicKeyAt (t := s) (y := y) (by simp [hnone])
      exact absurd (mem_publicKeysBeside.2 ⟨hmem, hyleaf, hy⟩) hbeside
  · intro y
    rw [hprivate', privateKeyAt, hget]
    by_cases hyleaf : y = leaf
    · simp [mem_publicKeysBeside, hyleaf, hnot, keyLeaf]
    · by_cases hy : y ∈ dp
      · simp [mem_publicKeysBeside, hyleaf, hy]
      · simp [hyleaf, hy]

/-- A Welcome for the last leaf of a tree whose sender holds key pairs along
that leaf's path is built, accepted and gives the joiner the sender's root
key. -/
theorem welcome_ok {s : Tree} {j : ℕ} {sk rootKey : PrivateKey} {r : ℕ}
    {dp : List ℕ} (hs : s.Matched) (hj : s.numLeaves = j + 1) (hpos : 1 ≤ j)
    (hleaf : s.publicKeyAt (2 * j) = some sk.publicKey)
    (hdp : directPath (2 * j) s.numLeaves = some dp)
    (hkeys : ∀ x ∈ dp, (s.privateKeyAt x).isSome)
    (hroot : root s.numLeaves = some r)
    (hrootKey : s.privateKeyAt r = some rootKey) :
    ∃ welcome t', s.buildWelcome (2 * j) sk.publicKey = .ok welcome ∧
      new.processWelcome welcome sk = (t', .ok ⟨rootKey⟩) ∧ t'.Valid j ∧
      t'.getRootSecret = .ok ⟨rootKey⟩ := by
  have hn : 2 ≤ s.numLeaves := by omega
  obtain ⟨pathKeys, hbuild, hindex, hinstall⟩ := buildPathKeys_ok hs dp sk hkeys
  have hleafNot : 2 * j ∉ dp := by
    intro hmem
    obtain ⟨k, hk, -, -, hanc⟩ :=
      (mem_directPath hn (show j < s.numLeaves by omega) hdp).1 hmem
    obtain ⟨k, rfl⟩ : ∃ k', k = k' + 1 := ⟨k - 1, by omega⟩
    have hodd := ancestor_succ_mod_two j k
    omega
  have hrmem : r ∈ dp := by
    have hodd := root_odd hn hroot
    obtain ⟨init, hinit, -⟩ := directPath_last hn hroot (by omega) hdp
    simp [hinit]
  -- the joiner's tree after its leaf, the path keys and the public keys
  set t₁ : Tree :=
    (⟨.empty, j + 1, some (2 * j)⟩ : Tree).setNode (keyLeaf (2 * j) sk)
    with ht₁
  obtain ⟨t₂, ht₂, hn₂, hmy₂, hget₂⟩ := hinstall t₁
  set t₃ := t₂.installPublicKeys (s.publicKeysBeside (2 * j) dp) with ht₃
  have hjoined : JoinedFrom s t₃ (2 * j) sk dp := by
    refine joinedFrom_installPublicKeys hs hleaf hleafNot hkeys fun y => ?_
    rw [hget₂, ht₁, get?_setNode]
    rfl
  obtain ⟨hn₃, hmy₃, -⟩ :=
    installPublicKeys_spec (s.publicKeysBeside (2 * j) dp) t₂
      fun e he => publicKeysBeside_key he
  have hnumLeaves : t₃.numLeaves = j + 1 := hn₃.trans hn₂
  have hsecret : t₃.getRootSecret = .ok ⟨rootKey⟩ := by
    have hne : r ≠ 2 * j := fun heq => hleafNot (heq ▸ hrmem)
    exact getRootSecret_of_root (by rw [hnumLeaves]; omega)
      (by rw [hnumLeaves, ← hj]; exact hroot)
      (by simp [hjoined.privateKey, hne, hrmem, hrootKey])
  refine ⟨⟨2 * j, pathKeys, s.publicKeysBeside (2 * j) dp, s.computeTreeHash⟩,
    t₃, ?_, ?_, ?_, hsecret⟩
  · simp only [buildWelcome, hdp, liftTree, bind, Except.bind, hbuild]
    rfl
  · have hposition : nodeToLeafIndex (2 * j) = some j := by
      simp [nodeToLeafIndex, isLeaf_iff, Nat.shiftRight_eq_div_pow]
    have hmax : (pathKeys.map fun pk => impliedLeaves pk.nodeIndex).foldl max
        (j + 1) = j + 1 := by
      have hmax := welcome_numLeaves hpos (hj ▸ hdp)
      rwa [← hindex, List.map_map] at hmax
    have hhash : t₃.computeTreeHash = s.computeTreeHash :=
      computeTreeHash_congr hjoined.publicKey
    simp only [processWelcome, hposition, hmax, new, Nat.zero_max, ← ht₁, ht₂,
      ← ht₃, hhash, if_true, hsecret]
  · refine ⟨⟨hmy₃.trans hmy₂, ?_, ?_⟩, hjoined.matched hs hleaf⟩
    · rw [hnumLeaves]
      omega
    · rw [hjoined.publicKey, hleaf]
      rfl

/-! ## Honest Welcomes -/

/-- A Welcome as `addMember` makes them: for the last leaf of its tree, with
key pairs for that leaf's path and public keys of other nodes. -/
structure HonestWelcome (w : Welcome) (j : ℕ) : Prop where
  pos : 1 ≤ j
  leafIndex : w.leafIndex = 2 * j
  path : directPath (2 * j) (j + 1) =
    some (w.pathKeys.map PathNodeUpdate.nodeIndex)
  honest : ∀ pathKey ∈ w.pathKeys, HonestNode pathKey
  others : ∀ e ∈ w.treeNodePublicKeys, e.nodeIndex ≠ 2 * j ∧
    e.nodeIndex ∉ w.pathKeys.map PathNodeUpdate.nodeIndex

theorem buildPathKeys_honest {s : Tree} (hs : s.Matched) :
    ∀ (dp : List ℕ) (encryptionKey : PublicKey) (pathKeys),
      s.buildPathKeys encryptionKey dp = .ok pathKeys →
      pathKeys.map PathNodeUpdate.nodeIndex = dp ∧
        ∀ pathKey ∈ pathKeys, HonestNode pathKey := by
  intro dp
  induction dp with
  | nil =>
      intro encryptionKey pathKeys h
      cases h
      simp
  | cons x rest ih =>
      intro encryptionKey pathKeys h
      rw [buildPathKeys] at h
      split at h
      · rename_i publicKey privateKey hpublic hprivate
        rcases hrest : s.buildPathKeys publicKey rest with e | pathKeys'
        · rw [hrest] at h
          cases h
        · rw [hrest] at h
          cases h
          obtain ⟨hindex, hhonest⟩ := ih publicKey pathKeys' hrest
          refine ⟨by simp [hindex], ?_⟩
          intro pathKey hmem
          rcases List.mem_cons.1 hmem with rfl | hmem
          · intro pk sk hbox
            cases hbox
            have hmatched := hs x privateKey hprivate
            rw [hpublic, Option.some.injEq] at hmatched
            exact hmatched
          · exact hhonest pathKey hmem
      · cases h

/-- What `addMember` sends is an honest Welcome. -/
theorem buildWelcome_honest {s : Tree} {j : ℕ} {pk : PublicKey} {w : Welcome}
    (hs : s.Matched) (hpos : 1 ≤ j) (hj : s.numLeaves = j + 1)
    (h : s.buildWelcome (2 * j) pk = .ok w) : HonestWelcome w j := by
  rw [buildWelcome, hj] at h
  rcases hdp : directPath (2 * j) (j + 1) with _ | dp
  · rw [hdp] at h
    cases h
  · rw [hdp] at h
    simp only [liftTree, bind, Except.bind] at h
    rcases hbuild : s.buildPathKeys pk dp with e | pathKeys
    · rw [hbuild] at h
      cases h
    · rw [hbuild] at h
      cases h
      obtain ⟨rfl, hhonest⟩ := buildPathKeys_honest hs dp pk pathKeys hbuild
      refine ⟨hpos, rfl, hdp, hhonest, ?_⟩
      intro e he
      obtain ⟨entry, -, hsome⟩ := List.mem_filterMap.1 he
      split at hsome
      · cases hsome
      · rename_i hnot
        cases hsome
        exact not_or.1 hnot

/-- The loop over honest path keys: the last one ends up with its private
key. -/
theorem installPathKeys_spec :
    ∀ (pathKeys : List PathNodeUpdate) (t t' : Tree) (current : PrivateKey),
      t.installPathKeys current pathKeys = (t', .ok ()) →
      (∀ pathKey ∈ pathKeys, HonestNode pathKey) →
      t'.numLeaves = t.numLeaves ∧ t'.myLeafIndex = t.myLeafIndex ∧
      (t.Matched → t'.Matched) ∧
      (∀ y, (t.publicKeyAt y).isSome → (t'.publicKeyAt y).isSome) ∧
      (∀ y, y ∉ pathKeys.map PathNodeUpdate.nodeIndex →
        t'.nodes.get? y = t.nodes.get? y) ∧
      ∀ last ∈ pathKeys.getLast?, ∃ sk, last.publicKey = sk.publicKey ∧
        t'.privateKeyAt last.nodeIndex = some sk := by
  intro pathKeys
  induction pathKeys with
  | nil =>
      intro t t' current h _
      cases h
      simp
  | cons pathKey rest ih =>
      intro t t' current h hhonest
      rw [installPathKeys] at h
      rcases hopen : decryptNodeKey pathKey.encryptedPrivateKey current with
        e | sk
      · rw [hopen] at h
        cases h
      rw [hopen] at h
      have hpublic : pathKey.publicKey = sk.publicKey := by
        rcases hsealed : pathKey.encryptedPrivateKey with _ | ⟨pk, payload⟩
        · rw [hsealed] at hopen
          cases hopen
        · rw [hsealed, decryptNodeKey] at hopen
          split at hopen
          · cases hopen
            exact hhonest pathKey (by simp) pk _ hsealed
          · cases hopen
      obtain ⟨hn, hmy, hmatched, hsome, hframe, hlast⟩ :=
        ih (t.installNode pathKey (some sk)) t' sk h
          fun k hk => hhonest k (by simp [hk])
      refine ⟨hn, hmy, ?_, ?_, ?_, ?_⟩
      · intro ht
        apply hmatched
        refine ht.setNode ?_
        intro key hkey
        cases hkey
        exact congrArg some hpublic
      · intro y hy
        apply hsome
        rw [installNode, publicKeyAt_setNode]
        split
        · rfl
        · exact hy
      · intro y hy
        simp only [List.map_cons, List.mem_cons, not_or] at hy
        rw [hframe y hy.2, installNode, get?_setNode]
        exact if_neg hy.1
      · intro last hmem
        cases rest with
        | nil =>
            cases hmem
            cases h
            refine ⟨sk, hpublic, ?_⟩
            rw [installNode, privateKeyAt_setNode]
            exact if_pos rfl
        | cons next rest => exact hlast last (by simpa using hmem)

theorem installPublicKeys_frame :
    ∀ (entries : List WelcomeNodePublicKey) (t : Tree),
      (t.installPublicKeys entries).numLeaves = t.numLeaves ∧
      (t.installPublicKeys entries).myLeafIndex = t.myLeafIndex ∧
      (t.Matched → (t.installPublicKeys entries).Matched) ∧
      ∀ y, (∀ e ∈ entries, e.nodeIndex ≠ y) →
        (t.installPublicKeys entries).nodes.get? y = t.nodes.get? y := by
  intro entries
  induction entries with
  | nil =>
      intro t
      simp [installPublicKeys]
  | cons e rest ih =>
      intro t
      obtain ⟨hn, hmy, hmatched, hframe⟩ := ih (t.setNode
        ⟨if isLeaf e.nodeIndex then .leaf else .internal, e.nodeIndex,
          e.publicKey, none⟩)
      refine ⟨hn, hmy, fun ht => hmatched (ht.setNode (by simp)), ?_⟩
      intro y hy
      refine (hframe y fun e' he' => hy e' (by simp [he'])).trans ?_
      rw [get?_setNode]
      exact if_neg (hy e (by simp)).symm

/-- Whoever processes an honest Welcome has a valid tree, with the last path
key at its root. -/
theorem HonestWelcome.processed {w : Welcome} {j : ℕ} (hw : HonestWelcome w j)
    {sk : PrivateKey} {t : Tree} {secret : RootSecret}
    (h : new.processWelcome w sk = (t, .ok secret)) :
    t.Valid j ∧ t.numLeaves = j + 1 ∧ t.getRootSecret = .ok secret ∧
      ∃ last ∈ w.pathKeys.getLast?,
        last.publicKey = secret.key.publicKey := by
  have hposition : nodeToLeafIndex (2 * j) = some j := by
    simp [nodeToLeafIndex, isLeaf_iff, Nat.shiftRight_eq_div_pow]
  have hmax : (w.pathKeys.map fun pk => impliedLeaves pk.nodeIndex).foldl max
      (j + 1) = j + 1 := by
    have hmax := welcome_numLeaves hw.pos hw.path
    rwa [List.map_map] at hmax
  set t₁ : Tree :=
    (⟨.empty, j + 1, some (2 * j)⟩ : Tree).setNode (keyLeaf (2 * j) sk)
  have hmatched₁ : t₁.Matched := by
    refine Matched.setNode ?_ ?_
    · intro y key hy
      simp [privateKeyAt] at hy
    · intro key hkey
      cases hkey
      rfl
  simp only [processWelcome, hw.leafIndex, hposition, hmax, new,
    Nat.zero_max] at h
  rcases hinstall : t₁.installPathKeys sk w.pathKeys with ⟨t₂, e | ⟨⟩⟩
  · rw [hinstall] at h
    cases h
  rw [hinstall] at h
  obtain ⟨hn₂, hmy₂, hmatched₂, hsome₂, -, hlast₂⟩ :=
    installPathKeys_spec w.pathKeys t₁ t₂ sk hinstall hw.honest
  obtain ⟨hn₃, hmy₃, hmatched₃, hframe₃⟩ :=
    installPublicKeys_frame w.treeNodePublicKeys t₂
  set t₃ := t₂.installPublicKeys w.treeNodePublicKeys
  dsimp only at h
  split at h
  · obtain ⟨rfl, hsecret⟩ := Prod.mk.inj h
    have hpos := hw.pos
    have hn : t₃.numLeaves = j + 1 := hn₃.trans hn₂
    have hroot := TreeMath.root_eq (show 2 ≤ j + 1 by omega)
    set r := 2 ^ rootLevel (j + 1) - 1
    have hodd := root_odd (by omega) hroot
    obtain ⟨init, hinit, -⟩ :=
      directPath_last (by omega) hroot (by omega) hw.path
    obtain ⟨last, hlast, hindex⟩ : ∃ last ∈ w.pathKeys.getLast?,
        last.nodeIndex = r := by
      have hgetLast := congrArg List.getLast? hinit
      simpa [List.getLast?_map] using hgetLast
    obtain ⟨key, hpublic, hkey⟩ := hlast₂ last hlast
    have hrootKey : t₃.privateKeyAt r = some key := by
      rw [privateKeyAt, hframe₃ r, ← hindex]
      · exact hkey
      · intro e he heq
        refine (hw.others e he).2 ?_
        rw [heq, hinit]
        simp
    have hkeySecret := getRootSecret_of_root (by omega)
      (by rw [hn]; exact hroot) hrootKey
    rw [hsecret] at hkeySecret
    cases hkeySecret
    have hlt : j < t₃.numLeaves := by omega
    refine ⟨⟨⟨hmy₃.trans hmy₂, hlt, ?_⟩, hmatched₃ (hmatched₂ hmatched₁)⟩,
      hn, hsecret, last, hlast, hpublic⟩
    rw [publicKeyAt, hframe₃ _ fun e he => (hw.others e he).1]
    apply hsome₂
    rw [publicKeyAt_setNode]
    simp [keyLeaf]
  · cases h

/-- What `addMember` leaves, also where it throws: a valid tree with one more
leaf.  The Welcome it returns is honest. -/
theorem addMember_spec {t : Tree} {i : ℕ} (ht : t.Valid i) (pk : PublicKey)
    (fresh : ℕ) :
    (t.addMember pk fresh).tree.Valid i ∧
      (t.addMember pk fresh).tree.numLeaves = t.numLeaves + 1 ∧
      ∀ u w secret, (t.addMember pk fresh).result = .ok (u, w, secret) →
        HonestWelcome w t.numLeaves := by
  have hpos : 1 ≤ t.numLeaves := Nat.one_le_of_lt ht.lt
  have hplaced := placeMember_valid ht pk
  obtain ⟨hupdated⟩ := updatePath_updated (Nat.succ_le_succ hpos)
    hplaced.toPlaced fresh
  have hvalid := PathUpdated.valid hplaced hupdated
  refine ⟨hvalid, hupdated.numLeaves, ?_⟩
  intro u w secret hresult
  have hleaf : leafToNodeIndex t.numLeaves = 2 * t.numLeaves := by
    rw [leafToNodeIndex]
    omega
  simp only [addMember, hupdated.result, bind, Except.bind, hleaf] at hresult
  rcases hbuild : ((t.placeMember pk).updatePath fresh).tree.buildWelcome
      (2 * t.numLeaves) pk with e | w'
  · rw [hbuild] at hresult
    cases hresult
  · rw [hbuild] at hresult
    cases hresult
    exact buildWelcome_honest hvalid.matched hpos hupdated.numLeaves hbuild

end Collabswarm.BeeKEM.Tree
