import Collabswarm.BeeKEM.Tree
import Collabswarm.Support.Lists

/-!
# What the path operations of BeeKEM do

One specification for each helper of the class: what a resolution reads, what
`updatePath` writes and emits, when a Welcome can be built and what its
receiver reconstructs, and what a receiver of a path update ends up with.  The
later modules use these and do not unfold the loops.
-/

namespace Collabswarm.BeeKEM.Tree

open InorderTree TreeMath

/-! ## Reading after writing -/

@[simp] theorem setNode_numLeaves (t : Tree) (node : TreeNode) :
    (t.setNode node).numLeaves = t.numLeaves := rfl

@[simp] theorem setNode_myLeafIndex (t : Tree) (node : TreeNode) :
    (t.setNode node).myLeafIndex = t.myLeafIndex := rfl

theorem get?_setNode (t : Tree) (node : TreeNode) (i : ℕ) :
    (t.setNode node).nodes.get? i =
      if i = node.index then some node else t.nodes.get? i :=
  InsertionMap.get?_set _ _ _ _

theorem publicKeyAt_setNode (t : Tree) (node : TreeNode) (i : ℕ) :
    (t.setNode node).publicKeyAt i =
      if i = node.index then node.publicKey else t.publicKeyAt i := by
  simp only [publicKeyAt, get?_setNode]
  split <;> rfl

theorem privateKeyAt_setNode (t : Tree) (node : TreeNode) (i : ℕ) :
    (t.setNode node).privateKeyAt i =
      if i = node.index then node.privateKey else t.privateKeyAt i := by
  simp only [privateKeyAt, get?_setNode]
  split <;> rfl

theorem getRootSecret_of_root {t : Tree} {r : ℕ} {sk : PrivateKey}
    (hn : 2 ≤ t.numLeaves) (hroot : root t.numLeaves = some r)
    (hkey : t.privateKeyAt r = some sk) : t.getRootSecret = .ok ⟨sk⟩ := by
  have hne : t.numLeaves ≠ 0 := by omega
  have hne' : t.numLeaves ≠ 1 := by omega
  simp [getRootSecret, hne, hne', hroot, liftTree, bind, Except.bind, hkey]

/-- Every private key stands beside its public key. -/
def Matched (t : Tree) : Prop :=
  ∀ i sk, t.privateKeyAt i = some sk → t.publicKeyAt i = some sk.publicKey

theorem Matched.setNode {t : Tree} (ht : t.Matched) {node : TreeNode}
    (hnode : ∀ sk, node.privateKey = some sk →
      node.publicKey = some sk.publicKey) :
    (t.setNode node).Matched := by
  intro i sk
  rw [privateKeyAt_setNode, publicKeyAt_setNode]
  split
  · exact hnode sk
  · exact ht i sk

/-! ## Resolutions -/

/-- Clamping stays below the node it starts from. -/
theorem rightLoop_below {w : ℕ} :
    ∀ fuel k q r, rightLoop w fuel (node k q) = some r →
      ∃ j p, j ≤ k ∧ r = node j p ∧ ∀ y, Below j p y → Below k q y := by
  intro fuel
  induction fuel with
  | zero =>
      intro k q r h
      simp [rightLoop] at h
  | succ fuel ih =>
      intro k q r h
      rw [rightLoop] at h
      split at h
      · rw [Option.some.injEq] at h
        exact ⟨k, q, le_rfl, h.symm, fun _ hy => hy⟩
      · cases k with
        | zero =>
            rw [left_node_zero] at h
            simp at h
        | succ k =>
            rw [left_node_succ, Option.bind_some] at h
            obtain ⟨j, p, hj, hr, hbelow⟩ := ih k (2 * q) r h
            exact ⟨j, p, by omega, hr,
              fun y hy => (below_left (hbelow y hy)).1⟩

theorem right_below {k q n r : ℕ} (h : right (node (k + 1) q) n = some r) :
    ∃ j p, j ≤ k ∧ r = node j p ∧ ∀ y, Below j p y →
      Below (k + 1) q y ∧ node (k + 1) q < y := by
  rw [right_node_succ] at h
  obtain ⟨j, p, hj, hr, hbelow⟩ := rightLoop_below _ _ _ _ h
  exact ⟨j, p, hj, hr, fun y hy => below_right (hbelow y hy)⟩

theorem isInternal_node_succ (k q : ℕ) :
    isInternal (node (k + 1) q) = true :=
  isInternal_iff.2 (node_succ_mod_two k q)

theorem isInternal_node_zero (q : ℕ) : isInternal (node 0 q) = false := by
  rw [← Bool.not_eq_true, isInternal_iff, node_zero_left]
  omega

/-- A resolution reads the leaf count and the nodes of the subtree only. -/
theorem resolve_congr {α : Type} {key : TreeNode → Option α} {t t' : Tree}
    (hn : t'.numLeaves = t.numLeaves) :
    ∀ fuel k q, (∀ y, Below k q y → t'.nodes.get? y = t.nodes.get? y) →
      t'.resolve key fuel (node k q) = t.resolve key fuel (node k q) := by
  intro fuel
  induction fuel with
  | zero =>
      intro k q _
      rfl
  | succ fuel ih =>
      intro k q hsame
      rw [resolve, resolve, hsame _ (below_node k q)]
      cases k with
      | zero => simp only [isInternal_node_zero, Bool.false_eq_true, if_false]
      | succ k =>
          simp only [isInternal_node_succ, if_true, left_node_succ, hn]
          rcases hright : right (node (k + 1) q) t.numLeaves with _ | r
          · rfl
          · obtain ⟨j, p, -, rfl, hbelow⟩ := right_below hright
            have hl := ih k (2 * q) fun y hy => hsame y (below_left hy).1
            have hr := ih j p fun y hy => hsame y (hbelow y hy).1
            simp only [liftTree, bind, Except.bind, hl, hr]

/-- A resolution inside the tree does not throw. -/
theorem resolve_ok {α : Type} (key : TreeNode → Option α) {t : Tree}
    (hn : 2 ≤ t.numLeaves) :
    ∀ fuel k q, node k q < 2 * t.numLeaves - 1 → k < fuel →
      ∃ o, t.resolve key fuel (node k q) = .ok o := by
  intro fuel
  induction fuel with
  | zero =>
      intro k q _ hk
      omega
  | succ fuel ih =>
      intro k q hlt hk
      rw [resolve]
      rcases (t.nodes.get? (node k q)).bind key with _ | found
      · cases k with
        | zero =>
            refine ⟨none, ?_⟩
            simp only [isInternal_node_zero, Bool.false_eq_true, if_false]
        | succ k =>
            obtain ⟨j, hj, hjw, hright⟩ := right_node_eq hn hlt
            have hleftlt := (below_left (below_node k (2 * q))).2
            obtain ⟨l, hl⟩ := ih k (2 * q) (by omega) (by omega)
            obtain ⟨r, hr⟩ := ih j _ hjw (by omega)
            refine ⟨l.or r, ?_⟩
            simp only [isInternal_node_succ, if_true, left_node_succ, hright,
              liftTree, bind, Except.bind, hl]
            cases l with
            | none =>
                rw [Option.none_or]
                exact hr
            | some found => rfl
      · exact ⟨some found, rfl⟩

/-- A resolution finds a key in the subtree and inside the tree. -/
theorem resolve_found {α : Type} {key : TreeNode → Option α} {t : Tree}
    (hn : 2 ≤ t.numLeaves) {found : α} :
    ∀ fuel k q, node k q < 2 * t.numLeaves - 1 →
      t.resolve key fuel (node k q) = .ok (some found) →
      ∃ y, y < 2 * t.numLeaves - 1 ∧ Below k q y ∧
        (t.nodes.get? y).bind key = some found := by
  intro fuel
  induction fuel with
  | zero =>
      intro k q _ h
      cases h
  | succ fuel ih =>
      intro k q hlt h
      rw [resolve] at h
      rcases hkey : (t.nodes.get? (node k q)).bind key with _ | found'
      · simp only [hkey] at h
        cases k with
        | zero =>
            simp only [isInternal_node_zero, Bool.false_eq_true, if_false] at h
            cases h
        | succ k =>
            obtain ⟨j, -, hjw, hright⟩ := right_node_eq hn hlt
            obtain ⟨j', p, -, hnode, hbelow⟩ := right_below hright
            rw [hnode] at hright hjw
            have hleftlt := (below_left (below_node k (2 * q))).2
            simp only [isInternal_node_succ, if_true, left_node_succ, hright,
              liftTree, bind, Except.bind] at h
            rcases hl : t.resolve key fuel (node k (2 * q)) with e | _ | found'
            · simp [hl] at h
            · simp only [hl] at h
              obtain ⟨y, hy, hyp, hget⟩ := ih j' p hjw h
              exact ⟨y, hy, (hbelow y hyp).1, hget⟩
            · simp only [hl, Except.ok.injEq] at h
              rw [h] at hl
              obtain ⟨y, hy, hyp, hget⟩ := ih k (2 * q) (by omega) hl
              exact ⟨y, hy, (below_left hyp).1, hget⟩
      · simp only [hkey, Except.ok.injEq] at h
        exact ⟨node k q, hlt, below_node k q, hkey.trans h⟩

theorem resolvePublicKey_ok {t : Tree} {s : ℕ} (hn : 2 ≤ t.numLeaves)
    (hs : s < 2 * t.numLeaves - 1) : ∃ o, t.resolvePublicKey s = .ok o := by
  obtain ⟨k, q, rfl⟩ := exists_eq_node s
  exact resolve_ok _ hn _ k q hs (by rw [level_node]; omega)

/-- Writing on the path of a leaf does not change the resolution of a node off
that path. -/
theorem resolvePublicKey_congr {t t' : Tree} {i s : ℕ}
    (hn : t'.numLeaves = t.numLeaves) (hs : OffPath i s)
    (hsame : ∀ y, (∀ l, y ≠ ancestor i l) →
      t'.nodes.get? y = t.nodes.get? y) :
    t'.resolvePublicKey s = t.resolvePublicKey s := by
  obtain ⟨k, q, rfl⟩ := exists_eq_node s
  apply resolve_congr hn
  intro y hy
  apply hsame
  rintro l rfl
  exact hs k q l rfl hy

/-! ## Updating the own path -/

/-- The loop writes only at its path nodes. -/
theorem updatePathLoop_frame :
    ∀ (pairs : List (ℕ × ℕ)) (t : Tree) (fresh : ℕ),
      (updatePathLoop t fresh pairs).tree.numLeaves = t.numLeaves ∧
      (updatePathLoop t fresh pairs).tree.myLeafIndex = t.myLeafIndex ∧
      fresh ≤ (updatePathLoop t fresh pairs).fresh ∧
      ∀ y, y ∉ pairs.map Prod.fst →
        (updatePathLoop t fresh pairs).tree.nodes.get? y =
          t.nodes.get? y := by
  intro pairs
  induction pairs with
  | nil =>
      intro t fresh
      simp [updatePathLoop]
  | cons pair rest ih =>
      intro t fresh
      obtain ⟨p, s⟩ := pair
      rw [updatePathLoop]
      rcases t.resolvePublicKey s with e | o
      · simp
      · obtain ⟨hn, hmy, hfresh, hframe⟩ :=
          ih (t.setNode (keyNode p (generateKey fresh))) (fresh + 1)
        refine ⟨hn, hmy, by dsimp only; omega, ?_⟩
        intro y hy
        simp only [List.map_cons, List.mem_cons, not_or] at hy
        dsimp only
        rw [hframe y hy.2, get?_setNode]
        exact if_neg hy.1

theorem updatePath_numLeaves (t : Tree) (fresh : ℕ) :
    (t.updatePath fresh).tree.numLeaves = t.numLeaves := by
  rw [updatePath]
  split
  · split
    · rfl
    · split
      · exact (updatePathLoop_frame _ _ _).1
      · rfl
  · rfl

/-- How an emitted update node relates to the pair of a path node and a copath
node it was made for. -/
structure EmittedFor (t : Tree) (lo hi : ℕ) (after : Tree) (pair : ℕ × ℕ)
    (pathNode : PathNodeUpdate) : Prop where
  nodeIndex : pathNode.nodeIndex = pair.1
  keys : ∃ o sk, t.resolvePublicKey pair.2 = .ok o ∧ lo ≤ sk.id ∧
    sk.id < hi ∧ pathNode.publicKey = sk.publicKey ∧
    pathNode.encryptedPrivateKey = sealToResolution sk o ∧
    after.nodes.get? pair.1 = some (keyNode pair.1 sk)

/-- Along the path of leaf `i`, with copath nodes off that path, the loop of
`updatePath` succeeds and seals each new key to the resolution of its copath
node in the tree it started from. -/
theorem updatePathLoop_ok (t₀ : Tree) (i : ℕ) :
    ∀ (pairs : List (ℕ × ℕ)) (t : Tree) (fresh : ℕ),
      t.numLeaves = t₀.numLeaves →
      (∀ y, (∀ l, y ≠ ancestor i l) →
        t.nodes.get? y = t₀.nodes.get? y) →
      (pairs.map Prod.fst).Nodup →
      (∀ pair ∈ pairs, (∃ l, pair.1 = ancestor i l) ∧ OffPath i pair.2 ∧
        ∃ o, t₀.resolvePublicKey pair.2 = .ok o) →
      ∃ nodes, (updatePathLoop t fresh pairs).result = .ok nodes ∧
        List.Forall₂ (EmittedFor t₀ fresh (updatePathLoop t fresh pairs).fresh
          (updatePathLoop t fresh pairs).tree) pairs nodes := by
  intro pairs
  induction pairs with
  | nil =>
      intro t fresh _ _ _ _
      exact ⟨[], rfl, .nil⟩
  | cons pair rest ih =>
      intro t fresh hn hsame hnodup hpairs
      obtain ⟨p, s⟩ := pair
      obtain ⟨⟨l, hl⟩, hoff, o, ho⟩ := hpairs (p, s) (by simp)
      simp only [List.map_cons, List.nodup_cons] at hnodup
      have hres : t.resolvePublicKey s = .ok o := by
        rw [resolvePublicKey_congr hn hoff hsame, ho]
      set t' := t.setNode (keyNode p (generateKey fresh)) with ht'
      have hsame' : ∀ y, (∀ l, y ≠ ancestor i l) →
          t'.nodes.get? y = t₀.nodes.get? y := by
        intro y hy
        have hne : y ≠ (keyNode p (generateKey fresh)).index := by
          intro heq
          exact hy l (heq.trans hl)
        rw [ht', get?_setNode, if_neg hne, hsame y hy]
      obtain ⟨nodes, hnodes, hall⟩ := ih t' (fresh + 1) hn hsame' hnodup.2
        fun pair hp => hpairs pair (List.mem_cons_of_mem _ hp)
      obtain ⟨-, -, hfresh, hframe⟩ :=
        updatePathLoop_frame rest t' (fresh + 1)
      rw [updatePathLoop]
      simp only [hres]
      refine ⟨_, by rw [hnodes]; rfl, List.Forall₂.cons ?_ ?_⟩
      · refine ⟨rfl, o, generateKey fresh, ho, le_rfl, ?_, rfl, rfl, ?_⟩
        · show fresh < _
          exact hfresh
        · rw [hframe p hnodup.1, ht', get?_setNode]
          exact if_pos rfl
      · refine hall.imp fun pair node hemit => ⟨hemit.nodeIndex, ?_⟩
        obtain ⟨o', sk, h₁, h₂, h₃⟩ := hemit.keys
        exact ⟨o', sk, h₁, by omega, h₃⟩

theorem pathAbove_nodup (w i l m : ℕ) : (pathAbove w i l m).Nodup := by
  apply List.Nodup.filter
  apply List.Nodup.map
  · intro a b hab
    exact (ancestor_eq_iff.1 hab).1
  · exact List.nodup_range'

/-- A tree whose own leaf is at position `i`, inside the tree and not
blank. -/
structure Placed (t : Tree) (i : ℕ) : Prop where
  myLeafIndex : t.myLeafIndex = some (2 * i)
  lt : i < t.numLeaves
  leafKey : (t.publicKeyAt (2 * i)).isSome

/-- A placed tree whose private keys match. -/
structure Valid (t : Tree) (i : ℕ) : Prop extends Placed t i where
  matched : t.Matched

/-- The keys a path update from this tree is sealed to: the resolutions of the
copath. -/
def copathKeys (t : Tree) : List PublicKey :=
  ((t.myLeafIndex.bind (copath · t.numLeaves)).getD []).filterMap fun x =>
    match t.resolvePublicKey x with
    | .ok resolution => resolution
    | .error _ => none

/-- The keys a path update is sealed to stand inside the tree and off the own
path. -/
theorem copathKeys_found {s : Tree} {i : ℕ} (hn : 2 ≤ s.numLeaves)
    (hs : s.Placed i) {pk : PublicKey} (h : pk ∈ s.copathKeys) :
    ∃ y, y < 2 * s.numLeaves - 1 ∧ (∀ l, y ≠ ancestor i l) ∧
      s.publicKeyAt y = some pk := by
  obtain ⟨cp, hcp, -, hoff⟩ := copath_leaf hn hs.lt (directPath_leaf hn hs.lt)
  simp only [copathKeys, hs.myLeafIndex, Option.bind_some, hcp,
    Option.getD_some, List.mem_filterMap] at h
  obtain ⟨x, hx, hresolve⟩ := h
  obtain ⟨hwidth, hpath⟩ := hoff x hx
  obtain ⟨k, q, rfl⟩ := exists_eq_node x
  split at hresolve
  · rename_i resolution hok
    rw [hresolve] at hok
    obtain ⟨y, hy, hbelow, hget⟩ := resolve_found hn _ k q hwidth hok
    refine ⟨y, hy, ?_, hget⟩
    rintro l rfl
    exact hpath k q l rfl hbelow
  · cases hresolve

/-- Every sealed key of an update node belongs to the node's public key. -/
def HonestNode (pathNode : PathNodeUpdate) : Prop :=
  ∀ pk sk, pathNode.encryptedPrivateKey = .box pk sk →
    pathNode.publicKey = sk.publicKey

theorem EmittedFor.honest {t after : Tree} {lo hi : ℕ} {pair : ℕ × ℕ}
    {pathNode : PathNodeUpdate} (h : EmittedFor t lo hi after pair pathNode) :
    HonestNode pathNode := by
  obtain ⟨o, sk, -, -, -, hpk, hsealed, -⟩ := h.keys
  intro pk sk' hbox
  rw [hsealed] at hbox
  cases o with
  | none => cases hbox
  | some recipient =>
      cases hbox
      exact hpk

/-- A sealed key of an update node is one of the loop's new keys, sealed to the
resolution of the copath node. -/
theorem EmittedFor.recipient {t after : Tree} {lo hi : ℕ} {pair : ℕ × ℕ}
    {pathNode : PathNodeUpdate} (h : EmittedFor t lo hi after pair pathNode)
    {pk : PublicKey} {key : PrivateKey}
    (hbox : pathNode.encryptedPrivateKey = .box pk key) :
    t.resolvePublicKey pair.2 = .ok (some pk) ∧ lo ≤ key.id ∧ key.id < hi := by
  obtain ⟨o, sk, ho, hlo, hhi, -, hsealed, -⟩ := h.keys
  rw [hsealed] at hbox
  cases o with
  | none => cases hbox
  | some recipient =>
      cases hbox
      exact ⟨ho, hlo, hhi⟩

theorem emitted_nodeIndex {t after : Tree} {lo hi : ℕ} {pairs : List (ℕ × ℕ)}
    {nodes : List PathNodeUpdate}
    (h : List.Forall₂ (EmittedFor t lo hi after) pairs nodes) :
    nodes.map PathNodeUpdate.nodeIndex = pairs.map Prod.fst := by
  rw [← List.forall₂_eq_eq_eq, List.forall₂_map_left_iff,
    List.forall₂_map_right_iff]
  exact (h.imp fun pair node hemit => hemit.nodeIndex).flip

/-- The loop leaves a new key pair at every node of its path. -/
theorem emitted_keyNode {t after : Tree} {lo hi : ℕ} {pairs : List (ℕ × ℕ)}
    {nodes : List PathNodeUpdate}
    (h : List.Forall₂ (EmittedFor t lo hi after) pairs nodes) {y : ℕ}
    (hy : y ∈ pairs.map Prod.fst) :
    ∃ key : PrivateKey, lo ≤ key.id ∧ key.id < hi ∧
      after.nodes.get? y = some (keyNode y key) := by
  obtain ⟨pair, hpair, rfl⟩ := List.mem_map.1 hy
  obtain ⟨pathNode, -, hemit⟩ := exists_right_of_forall₂ h hpair
  obtain ⟨o, sk, -, hlo, hhi, -, -, hget⟩ := hemit.keys
  exact ⟨sk, hlo, hhi, hget⟩

theorem mem_copathKeys {t : Tree} {i x : ℕ} {cp : List ℕ} {pk : PublicKey}
    (ht : t.Placed i) (hcp : copath (2 * i) t.numLeaves = some cp)
    (hx : x ∈ cp) (hpk : t.resolvePublicKey x = .ok (some pk)) :
    pk ∈ t.copathKeys := by
  simp only [copathKeys, ht.myLeafIndex, Option.bind_some, hcp,
    Option.getD_some, List.mem_filterMap]
  exact ⟨x, hx, by rw [hpk]⟩

/-- The path update of a member of a tree with at least two leaves: nodes for
the direct path, below the root first, with the root's new key sealed to the
resolution of the last copath node. -/
structure PathUpdated (t : Tree) (i fresh : ℕ)
    (out : Outcome (PathUpdate × RootSecret)) where
  r : ℕ
  init : List ℕ
  top : ℕ
  sk : PrivateKey
  resolution : Option PublicKey
  below : List PathNodeUpdate
  senderPublicKey : PublicKey
  root_eq : root t.numLeaves = some r
  directPath_eq : directPath (2 * i) t.numLeaves = some (init ++ [r])
  not_mem : r ∉ init
  odd : ∀ y ∈ init ++ [r], y % 2 = 1
  copath_last :
    (copath (2 * i) t.numLeaves).bind List.getLast? = some top
  resolve_top : t.resolvePublicKey top = .ok resolution
  below_index : below.map PathNodeUpdate.nodeIndex = init
  below_honest : ∀ pathNode ∈ below, HonestNode pathNode
  recipients : ∀ pathNode ∈
    below ++ [⟨r, sk.publicKey, sealToResolution sk resolution⟩],
    ∀ pk key, pathNode.encryptedPrivateKey = .box pk key →
      pk ∈ t.copathKeys ∧ fresh ≤ key.id ∧ key.id < out.fresh
  result : out.result = .ok (⟨2 * i, senderPublicKey,
    below ++ [⟨r, sk.publicKey, sealToResolution sk resolution⟩]⟩, ⟨sk⟩)
  numLeaves : out.tree.numLeaves = t.numLeaves
  myLeafIndex : out.tree.myLeafIndex = t.myLeafIndex
  frame : ∀ y, y ∉ init ++ [r] → out.tree.nodes.get? y = t.nodes.get? y
  path : ∀ y ∈ init ++ [r], ∃ key, fresh ≤ key.id ∧ key.id < out.fresh ∧
    out.tree.nodes.get? y = some (keyNode y key)
  root_key : out.tree.privateKeyAt r = some sk

/-- The direct path of a leaf and its copath go side by side and end at the
root and at its child off the path. -/
structure LeafPaths (n i r : ℕ) (init cinit : List ℕ) (top : ℕ) : Prop where
  directPath_eq : directPath (2 * i) n = some (init ++ [r])
  copath_eq : copath (2 * i) n = some (cinit ++ [top])
  length_eq : init.length = cinit.length
  not_mem : r ∉ init
  nodup : (init ++ [r]).Nodup
  above : ∀ y ∈ init ++ [r], ∃ l, y = ancestor i (l + 1)
  beside : ∀ x ∈ cinit ++ [top], x < 2 * n - 1 ∧ OffPath i x

theorem exists_leafPaths {n i r : ℕ} (hn : 2 ≤ n) (hi : i < n)
    (hr : root n = some r) : ∃ init cinit top, LeafPaths n i r init cinit top := by
  have hdp := directPath_leaf hn hi
  obtain ⟨cp, hcp, hlen, hoff⟩ := copath_leaf hn hi hdp
  have hodd := root_odd hn hr
  obtain ⟨init, hinit, hnot⟩ := directPath_last hn hr (by omega) hdp
  have hnodup := pathAbove_nodup (2 * n - 1) i 0 (rootLevel n)
  have hmem : ∀ y ∈ init ++ [r], ∃ l, y = ancestor i (l + 1) := by
    intro y hy
    rw [← hinit, mem_pathAbove] at hy
    obtain ⟨l, hl, -, -, rfl⟩ := hy
    exact ⟨l - 1, by rw [Nat.sub_add_cancel hl]⟩
  rw [hinit] at hdp hlen hnodup
  rcases List.eq_nil_or_concat' cp with rfl | ⟨cinit, top, rfl⟩
  · simp at hlen
  have hclen : init.length = cinit.length := by
    simp at hlen
    exact hlen.symm
  exact ⟨init, cinit, top, hdp, hcp, hclen, hnot, hnodup, hmem, hoff⟩

section LeafPaths

variable {n i r : ℕ} {init cinit : List ℕ} {top : ℕ}

theorem LeafPaths.zip_eq (h : LeafPaths n i r init cinit top) :
    (init ++ [r]).zip (cinit ++ [top]) = init.zip cinit ++ [(r, top)] := by
  rw [List.zip_append h.length_eq]
  rfl

theorem LeafPaths.map_fst_zip (h : LeafPaths n i r init cinit top) :
    ((init ++ [r]).zip (cinit ++ [top])).map Prod.fst = init ++ [r] := by
  apply List.map_fst_zip
  simp [h.length_eq]

/-- The loop of `updatePath` goes up the direct path without a throw. -/
theorem updatePathLoop_path {t : Tree} (h : LeafPaths t.numLeaves i r init
      cinit top) (hn : 2 ≤ t.numLeaves) (fresh : ℕ) :
    ∃ nodes, (updatePathLoop t fresh ((init ++ [r]).zip
        (cinit ++ [top]))).result = .ok nodes ∧
      List.Forall₂ (EmittedFor t fresh (updatePathLoop t fresh
          ((init ++ [r]).zip (cinit ++ [top]))).fresh
        (updatePathLoop t fresh ((init ++ [r]).zip (cinit ++ [top]))).tree)
        ((init ++ [r]).zip (cinit ++ [top])) nodes := by
  apply updatePathLoop_ok t i _ t fresh rfl (fun _ _ => rfl)
  · rw [h.map_fst_zip]
    exact h.nodup
  · intro pair hpair
    obtain ⟨hp, hs⟩ := List.of_mem_zip (show (pair.1, pair.2) ∈ _ from hpair)
    obtain ⟨l, hl⟩ := h.above _ hp
    obtain ⟨hwidth, hoff⟩ := h.beside _ hs
    exact ⟨⟨l + 1, hl⟩, hoff, resolvePublicKey_ok hn hwidth⟩

end LeafPaths

theorem updatePath_updated {t : Tree} {i : ℕ} (hn : 2 ≤ t.numLeaves)
    (ht : t.Placed i) (fresh : ℕ) :
    Nonempty (PathUpdated t i fresh (t.updatePath fresh)) := by
  obtain ⟨pk, hpk⟩ := Option.isSome_iff_exists.1 ht.leafKey
  obtain ⟨init, cinit, top, hpaths⟩ :=
    exists_leafPaths hn ht.lt (TreeMath.root_eq hn)
  set r := 2 ^ rootLevel t.numLeaves - 1 with hr
  have hfst := hpaths.map_fst_zip
  obtain ⟨nodes, hnodes, hall⟩ := updatePathLoop_path hpaths hn fresh
  obtain ⟨hframeN, hframeM, -, hframe⟩ := updatePathLoop_frame
    ((init ++ [r]).zip (cinit ++ [top])) t fresh
  rw [hfst] at hframe
  set out := updatePathLoop t fresh ((init ++ [r]).zip (cinit ++ [top]))
    with hout
  have hpath : ∀ y ∈ init ++ [r], ∃ key, fresh ≤ key.id ∧
      key.id < out.fresh ∧ out.tree.nodes.get? y = some (keyNode y key) := by
    intro y hy
    rw [← hfst] at hy
    exact emitted_keyNode hall hy
  have hhonest : ∀ pathNode ∈ nodes, HonestNode pathNode := by
    intro pathNode hnode
    obtain ⟨pair, -, hemit⟩ := exists_left_of_forall₂ hall hnode
    exact hemit.honest
  have hrecipients : ∀ pathNode ∈ nodes, ∀ pk key,
      pathNode.encryptedPrivateKey = .box pk key →
      pk ∈ t.copathKeys ∧ fresh ≤ key.id ∧ key.id < out.fresh := by
    intro pathNode hnode pk key hbox
    obtain ⟨pair, hpair, hemit⟩ := exists_left_of_forall₂ hall hnode
    obtain ⟨-, hs⟩ := List.of_mem_zip (show (pair.1, pair.2) ∈ _ from hpair)
    obtain ⟨hresolve, hlo, hhi⟩ := hemit.recipient hbox
    exact ⟨mem_copathKeys ht hpaths.copath_eq hs hresolve, hlo, hhi⟩
  have hindex : nodes.map PathNodeUpdate.nodeIndex = init ++ [r] :=
    (emitted_nodeIndex hall).trans hfst
  rw [hpaths.zip_eq] at hall
  obtain ⟨below, rootNode, rfl, -, hrootEmit⟩ :=
    forall₂_append_singleton hall
  obtain ⟨o, sk, ho, hlo, hhi, hrootPk, hrootSeal, hrootGet⟩ :=
    hrootEmit.keys
  have hrootIndex : rootNode.nodeIndex = r := hrootEmit.nodeIndex
  have hrootNode : rootNode = ⟨r, sk.publicKey, sealToResolution sk o⟩ := by
    rw [← hrootPk, ← hrootSeal, ← hrootIndex]
  have hrootKey : out.tree.privateKeyAt r = some sk := by
    rw [privateKeyAt, hrootGet]
    rfl
  have hsecret : out.tree.getRootSecret = .ok ⟨sk⟩ :=
    getRootSecret_of_root (by rw [hframeN]; exact hn)
      (by rw [hframeN]; exact TreeMath.root_eq hn) hrootKey
  have hupdate : t.updatePath fresh = ⟨out.tree, out.fresh,
      .ok (⟨2 * i, pk, below ++ [rootNode]⟩, ⟨sk⟩)⟩ := by
    rw [updatePath, ht.myLeafIndex]
    simp only [Option.bind_some, hpk, if_neg (show ¬ t.numLeaves = 1 by omega),
      hpaths.directPath_eq, hpaths.copath_eq, ← hout, hnodes, bind,
      Except.bind, hsecret]
  refine ⟨{
    r := r
    init := init
    top := top
    sk := sk
    resolution := o
    below := below
    senderPublicKey := pk
    root_eq := TreeMath.root_eq hn
    directPath_eq := hpaths.directPath_eq
    not_mem := hpaths.not_mem
    odd := by
      intro y hy
      obtain ⟨l, rfl⟩ := hpaths.above y hy
      exact ancestor_succ_mod_two i l
    copath_last := by simp [hpaths.copath_eq]
    resolve_top := ho
    below_index := by
      simpa [hrootNode] using hindex
    below_honest := fun pathNode hnode => hhonest _ (by simp [hnode])
    recipients := by rw [hupdate, ← hrootNode]; exact hrecipients
    result := by rw [hupdate, hrootNode]
    numLeaves := by rw [hupdate]; exact hframeN
    myLeafIndex := by rw [hupdate]; exact hframeM
    frame := by rw [hupdate]; exact hframe
    path := by rw [hupdate]; exact hpath
    root_key := by rw [hupdate]; exact hrootKey }⟩

theorem PathUpdated.rootSecret {t : Tree} {i fresh : ℕ}
    {out : Outcome (PathUpdate × RootSecret)} (hn : 2 ≤ t.numLeaves)
    (h : PathUpdated t i fresh out) : out.tree.getRootSecret = .ok ⟨h.sk⟩ :=
  getRootSecret_of_root (by rw [h.numLeaves]; exact hn)
    (by rw [h.numLeaves]; exact h.root_eq) h.root_key

theorem PathUpdated.placed {s : Tree} {i fresh : ℕ} {out}
    (hs : s.Placed i) (h : PathUpdated s i fresh out) :
    out.tree.Placed i where
  myLeafIndex := h.myLeafIndex.trans hs.myLeafIndex
  lt := by rw [h.numLeaves]; exact hs.lt
  leafKey := by
    have hnot : 2 * i ∉ h.init ++ [h.r] := by
      intro hmem
      have := h.odd _ hmem
      omega
    rw [publicKeyAt, h.frame _ hnot]
    exact hs.leafKey

/-- The tree after `updatePath` keeps its validity. -/
theorem PathUpdated.valid {s : Tree} {i fresh : ℕ} {out}
    (hs : s.Valid i) (h : PathUpdated s i fresh out) : out.tree.Valid i := by
  refine ⟨PathUpdated.placed hs.toPlaced h, ?_⟩
  intro y sk hy
  by_cases hmem : y ∈ h.init ++ [h.r]
  · obtain ⟨key, -, -, hget⟩ := h.path y hmem
    simp only [privateKeyAt, hget, keyNode, Option.bind_some,
      Option.some.injEq] at hy
    simp [publicKeyAt, hget, keyNode, hy]
  · rw [privateKeyAt, h.frame y hmem] at hy
    rw [publicKeyAt, h.frame y hmem]
    exact hs.matched y sk hy

/-! ## The trees an operation starts from -/

theorem placeMember_placed {t : Tree} {i : ℕ} (ht : t.Placed i)
    (pk : PublicKey) : (t.placeMember pk).Placed i where
  myLeafIndex := ht.myLeafIndex
  lt := Nat.lt_succ_of_lt ht.lt
  leafKey := by
    rw [placeMember, publicKeyAt_setNode]
    split
    · rfl
    · exact ht.leafKey

theorem placeMember_valid {t : Tree} {i : ℕ} (ht : t.Valid i)
    (pk : PublicKey) : (t.placeMember pk).Valid i :=
  ⟨placeMember_placed ht.toPlaced pk,
    Matched.setNode (by exact ht.matched) (by simp)⟩

theorem rekeyLeaf_eq {t : Tree} {i : ℕ} (hmy : t.myLeafIndex = some (2 * i))
    (fresh : ℕ) :
    t.rekeyLeaf fresh = t.setNode (keyLeaf (2 * i) (generateKey fresh)) := by
  rw [rekeyLeaf, hmy]

/-- A new key pair at the own leaf makes the leaf valid. -/
theorem rekeyLeaf_placed {t : Tree} {i : ℕ}
    (hmy : t.myLeafIndex = some (2 * i)) (hlt : i < t.numLeaves)
    (fresh : ℕ) :
    (t.rekeyLeaf fresh).Placed i ∧
      ((t.rekeyLeaf fresh).privateKeyAt (2 * i)).isSome := by
  rw [rekeyLeaf_eq hmy]
  refine ⟨⟨hmy, hlt, ?_⟩, ?_⟩
  · rw [publicKeyAt_setNode]
    simp [keyLeaf]
  · rw [privateKeyAt_setNode]
    simp [keyLeaf]

theorem rekeyLeaf_matched {t : Tree} {i : ℕ}
    (hmy : t.myLeafIndex = some (2 * i)) (hmatched : t.Matched)
    (fresh : ℕ) : (t.rekeyLeaf fresh).Matched := by
  rw [rekeyLeaf_eq hmy]
  apply hmatched.setNode
  intro sk hsk
  simp only [keyLeaf, Option.some.injEq] at hsk
  simp [keyLeaf, hsk]

theorem blankPath_frame :
    ∀ (path : List ℕ) (t : Tree),
      (t.blankPath path).numLeaves = t.numLeaves ∧
      (t.blankPath path).myLeafIndex = t.myLeafIndex := by
  intro path
  induction path with
  | nil =>
      intro t
      exact ⟨rfl, rfl⟩
  | cons x path ih =>
      intro t
      exact ih (t.setNode (blankNode x))

theorem blankPath_matched :
    ∀ (path : List ℕ) (t : Tree), t.Matched → (t.blankPath path).Matched := by
  intro path
  induction path with
  | nil =>
      intro t ht
      exact ht
  | cons x path ih =>
      intro t ht
      exact ih (t.setNode (blankNode x)) (ht.setNode (by simp [blankNode]))

theorem blankMember_numLeaves (t : Tree) (leafIndex fresh : ℕ)
    (path : List ℕ) :
    (t.blankMember leafIndex fresh path).numLeaves = t.numLeaves := by
  obtain ⟨hn, -⟩ := blankPath_frame path (t.setNode (blankLeaf leafIndex))
  rw [blankMember, rekeyLeaf]
  split <;> exact hn

theorem blankMember_placed {t : Tree} {i : ℕ} (ht : t.Placed i)
    (leafIndex fresh : ℕ) (path : List ℕ) :
    (t.blankMember leafIndex fresh path).Placed i ∧
      ((t.blankMember leafIndex fresh path).privateKeyAt (2 * i)).isSome := by
  obtain ⟨hn, hmy⟩ := blankPath_frame path (t.setNode (blankLeaf leafIndex))
  exact rekeyLeaf_placed (hmy.trans ht.myLeafIndex) (by rw [hn]; exact ht.lt)
    fresh

theorem blankMember_matched {t : Tree} {i : ℕ} (ht : t.Valid i)
    (leafIndex fresh : ℕ) (path : List ℕ) :
    (t.blankMember leafIndex fresh path).Matched := by
  obtain ⟨-, hmy⟩ := blankPath_frame path (t.setNode (blankLeaf leafIndex))
  exact rekeyLeaf_matched (hmy.trans ht.myLeafIndex)
    (blankPath_matched _ _ (ht.matched.setNode (by simp [blankLeaf]))) fresh

/-! ## Nodes below the intersection -/

theorem installBelow_frame :
    ∀ (nodes : List PathNodeUpdate) (t : Tree),
      (t.installBelow nodes).numLeaves = t.numLeaves ∧
      (t.installBelow nodes).myLeafIndex = t.myLeafIndex ∧
      ∀ y, y ∉ nodes.map PathNodeUpdate.nodeIndex →
        (t.installBelow nodes).nodes.get? y = t.nodes.get? y := by
  intro nodes
  induction nodes with
  | nil =>
      intro t
      exact ⟨rfl, rfl, fun _ _ => rfl⟩
  | cons pathNode rest ih =>
      intro t
      obtain ⟨hn, hmy, hframe⟩ := ih (t.installNode pathNode none)
      refine ⟨hn, hmy, ?_⟩
      intro y hy
      simp only [List.map_cons, List.mem_cons, not_or] at hy
      refine (hframe y hy.2).trans ?_
      rw [installNode, get?_setNode]
      exact if_neg hy.1

end Collabswarm.BeeKEM.Tree
