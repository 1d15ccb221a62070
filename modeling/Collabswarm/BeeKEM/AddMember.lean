import Collabswarm.BeeKEM.Network

/-!
# When a member can be added

`addMember` puts new keys on the path of the caller, while the Welcome needs a
private key at every node on the path of the new leaf.  In every reachable
state the call returns, and the joiner accepts the Welcome, exactly if the
caller's leaf lies under the parent of the new leaf.  A founder with three
leaves cannot add a fourth.
-/

namespace Collabswarm.BeeKEM.Network

open TreeMath InorderTree Collabswarm.BeeKEM.Tree

/-! ## The condition -/

/-- `addMember` returns, with a Welcome for the next leaf that a new instance
of the joiner accepts: it then has one leaf more than the caller had and the
returned root secret. -/
def AddsMember (t : Tree) (key : PrivateKey) (fresh : ℕ) : Prop :=
  ∃ u w secret joined,
    (t.addMember key.publicKey fresh).result = .ok (u, w, secret) ∧
      w.leafIndex = 2 * t.numLeaves ∧
      Tree.new.processWelcome w key = (joined, .ok secret) ∧
      joined.numLeaves = t.numLeaves + 1

/-- The own leaf lies in the subtree of the parent of the next leaf. -/
def SharesParent (t : Tree) : Prop :=
  ∃ p leaf, parent (2 * t.numLeaves) (t.numLeaves + 1) = some p ∧
    t.myLeafIndex = some leaf ∧ isInSubtree leaf p = true

/-- The parent of the last leaf is its first ancestor inside the tree. -/
theorem parent_last {n : ℕ} (hn : 1 ≤ n) :
    ∃ k, 0 < k ∧ k ≤ rootLevel (n + 1) ∧ ancestor n k < 2 * (n + 1) - 1 ∧
      (∀ m, 0 < m → m < k → 2 * (n + 1) - 1 ≤ ancestor n m) ∧
      parent (2 * n) (n + 1) = some (ancestor n k) := by
  have hlevel : 0 < rootLevel (n + 1) :=
    (rootLevel_bounds (by omega : 2 ≤ n + 1)).1
  obtain ⟨k, hk, hle, hlt, hcut, hparent, -⟩ :=
    parent_ancestor (by omega) (Nat.lt_succ_self n) hlevel
  rw [ancestor_zero] at hparent
  exact ⟨k, hk, hle, hlt, hcut, hparent⟩

/-! ## Sufficiency -/

theorem welcomeBuildable_of_sharesParent {t : Tree} {i : ℕ} (ht : t.Own i)
    (pk : PublicKey) (h : SharesParent t) :
    Group.welcomeBuildable (t.placeMember pk) (leafToNodeIndex t.numLeaves) =
      true := by
  obtain ⟨p, leaf, hparent, hleaf, hsub⟩ := h
  have hlt := ht.lt
  have hpos : 1 ≤ t.numLeaves := by omega
  rw [ht.myLeafIndex, Option.some.injEq] at hleaf
  subst hleaf
  obtain ⟨k, -, -, -, hcut, hparent'⟩ := parent_last hpos
  rw [hparent', Option.some.injEq] at hparent
  subst hparent
  obtain ⟨l, hl⟩ := isInSubtree_iff.1 hsub
  obtain ⟨rfl, hquot⟩ := ancestor_eq_iff.1 hl
  have hn : 2 ≤ t.numLeaves + 1 := by omega
  have hnum : (t.placeMember pk).numLeaves = t.numLeaves + 1 := rfl
  have hmy : (t.placeMember pk).myLeafIndex = some (2 * i) := ht.myLeafIndex
  have hindex : leafToNodeIndex t.numLeaves = 2 * t.numLeaves :=
    Nat.mul_comm _ _
  obtain ⟨own, hown⟩ := Option.isSome_iff_exists.1
    (directPath_isSome (n := t.numLeaves + 1) (i := i) (by omega))
  obtain ⟨dp, hdp⟩ := Option.isSome_iff_exists.1
    (directPath_isSome (Nat.lt_succ_self t.numLeaves))
  simp only [Group.welcomeBuildable, hmy, Option.bind_some, hnum, hindex,
    hown, hdp, List.all_eq_true, Bool.or_eq_true, decide_eq_true_eq]
  intro x hx
  left
  obtain ⟨m, hm, hle, hwidth, rfl⟩ :=
    (mem_directPath hn (Nat.lt_succ_self _) hdp).1 hx
  have hkm : k ≤ m := by
    by_contra hlt
    have houtside := hcut m hm (by omega)
    omega
  have hsame := ancestor_eq_of_le hkm hquot
  rw [hsame] at hwidth ⊢
  exact (mem_directPath hn (by omega) hown).2 ⟨m, hm, hle, hwidth, rfl⟩

theorem addsMember_of_sharesParent {t : Tree} {i : ℕ} (ht : t.Own i)
    (key : PrivateKey) (fresh : ℕ) (h : SharesParent t) :
    AddsMember t key fresh := by
  have hlt := ht.lt
  have hs := placeMember_own ht key.publicKey
  have hn : 2 ≤ (t.placeMember key.publicKey).numLeaves :=
    Nat.succ_le_succ (by omega)
  obtain ⟨hu⟩ := updatePath_updated hn hs.toPlaced fresh
  obtain ⟨w, joined, hbuild, hjoin, -, -⟩ := Group.addMember_welcome ht.toValid
    (welcomeBuildable_of_sharesParent ht key.publicKey h) (hu.rootSecret hn)
  obtain ⟨u, hupdate⟩ : ∃ u, ((t.placeMember key.publicKey).updatePath
      fresh).result = .ok (u, ⟨hu.sk⟩) := ⟨_, hu.result⟩
  have hresult : (t.addMember key.publicKey fresh).result =
      .ok (u, w, ⟨hu.sk⟩) := by
    simp only [addMember, hupdate, bind, Except.bind, hbuild]
  have hw := (addMember_spec ht.toValid key.publicKey fresh).2.2 _ _ _ hresult
  obtain ⟨-, hleaves, -, -⟩ := hw.processed hjoin
  exact ⟨u, w, _, joined, hresult, hw.leafIndex, hjoin, hleaves⟩

/-! ## Necessity -/

theorem buildPathKeys_privateKeys {s : Tree} :
    ∀ (dp : List ℕ) (pk : PublicKey) (pathKeys : List PathNodeUpdate),
      s.buildPathKeys pk dp = .ok pathKeys →
      ∀ x ∈ dp, ∃ sk, s.privateKeyAt x = some sk := by
  intro dp
  induction dp with
  | nil =>
      intro pk pathKeys _ x hx
      cases hx
  | cons y dp ih =>
      intro pk pathKeys h x hx
      rw [buildPathKeys] at h
      split at h
      · rename_i publicKey privateKey hpublic hprivate
        rcases List.mem_cons.1 hx with rfl | hx
        · exact ⟨privateKey, hprivate⟩
        · rcases hrest : s.buildPathKeys publicKey dp with e | rest
          · simp [hrest, bind, Except.bind] at h
          · exact ih publicKey rest hrest x hx
      · cases h

theorem sharesParent_of_addsMember {t : Tree} {i : ℕ} (ht : t.Own i)
    {key : PrivateKey} {fresh : ℕ} (h : AddsMember t key fresh) :
    SharesParent t := by
  obtain ⟨u, w, secret, joined, hresult, -, -, -⟩ := h
  have hlt := ht.lt
  obtain ⟨k, hk, hle, hwidth, -, hparent⟩ :=
    parent_last (show 1 ≤ t.numLeaves by omega)
  refine ⟨_, 2 * i, hparent, ht.myLeafIndex, isInSubtree_iff.2 ?_⟩
  have hupdate := addMember_ok hresult
  have hown := updatePath_own (placeMember_own ht key.publicKey) fresh
  have hnum : ((t.placeMember key.publicKey).updatePath fresh).tree.numLeaves =
      t.numLeaves + 1 := updatePath_numLeaves _ _
  have hindex : leafToNodeIndex t.numLeaves = 2 * t.numLeaves :=
    Nat.mul_comm _ _
  obtain ⟨dp, hdp⟩ := Option.isSome_iff_exists.1
    (directPath_isSome (Nat.lt_succ_self t.numLeaves))
  simp only [addMember, hupdate, bind, Except.bind, buildWelcome, hnum, hindex,
    hdp, liftTree] at hresult
  rcases hkeys : ((t.placeMember key.publicKey).updatePath
    fresh).tree.buildPathKeys key.publicKey dp with e | pathKeys
  · simp [hkeys] at hresult
  · have hmem : ancestor t.numLeaves k ∈ dp :=
      (mem_directPath (by omega) (Nat.lt_succ_self _) hdp).2
        ⟨k, hk, hle, hwidth, rfl⟩
    obtain ⟨sk, hsk⟩ := buildPathKeys_privateKeys dp _ _ hkeys _ hmem
    exact hown.onPath _ sk hsk

/-! ## The characterization -/

/-- In every reachable state, adding a member works if and only if the caller's
leaf lies under the parent of the new leaf. -/
theorem addsMember_iff_sharesParent (sk : PrivateKey)
    (events : List NetworkEvent) (id : ℕ) (t : Tree)
    (htree : (exec step (found sk) events).trees.get? id = some t)
    (key : PrivateKey) (fresh : ℕ) :
    AddsMember t key fresh ↔ SharesParent t := by
  obtain ⟨i, ht⟩ := (exec_sound sk events).trees id t htree
  exact ⟨sharesParent_of_addsMember ht, addsMember_of_sharesParent ht key fresh⟩

/-- The founder alone adds its first member. -/
theorem addsMember_founder :
    (exec step (found ⟨0⟩) []).trees.get? 0 = some (initializeTree ⟨0⟩) ∧
      AddsMember (initializeTree ⟨0⟩) ⟨1⟩ 2 := by
  have htree : (exec step (found ⟨0⟩) []).trees.get? 0 =
      some (initializeTree ⟨0⟩) := rfl
  refine ⟨htree, (addsMember_iff_sharesParent _ _ _ _ htree _ _).2 ?_⟩
  exact ⟨1, 0, by decide, rfl, by decide⟩

/-- The founder adds two members and both additions return. -/
def threeLeaves : List NetworkEvent :=
  [.generate 1, .addMember 0 1, .generate 2, .addMember 0 2]

/-- A founder with three leaves has no key for the parent of the fourth. -/
theorem addMember_fourth_throws :
    (exec step (found ⟨0⟩) threeLeaves).welcomes.length = 2 ∧
      ∃ t, (exec step (found ⟨0⟩) threeLeaves).trees.get? 0 = some t ∧
        t.myLeafIndex.bind t.publicKeyAt ≠ none ∧
        (t.addMember ⟨9⟩ 10).result = .error (.missingKey 5) ∧
        ¬ AddsMember t ⟨9⟩ 10 := by
  have hthrows : ∀ t, (exec step (found ⟨0⟩) threeLeaves).trees.get? 0 =
      some t → (t.addMember ⟨9⟩ 10).result = .error (.missingKey 5) := by
    rintro t ⟨⟩
    decide +kernel
  refine ⟨by decide +kernel, _, rfl, by decide +kernel, hthrows _ rfl, ?_⟩
  rintro ⟨u, w, secret, joined, hresult, -⟩
  have hthrow := hthrows _ rfl
  rw [show (⟨9⟩ : PrivateKey).publicKey = ⟨9⟩ from rfl, hthrow] at hresult
  cases hresult

end Collabswarm.BeeKEM.Network
