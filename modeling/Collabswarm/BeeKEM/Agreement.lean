import Collabswarm.BeeKEM.Group

/-!
# Key agreement

Key agreement fails in general: path keys are independent of one another and
each is sealed to one key of the sibling subtree, so a receiver that meets the
sender's path below the root cannot climb any further, and leaf counts of
receivers never grow.  It holds along every run in which each receiver shares
the sender's root, sits on the other side of it, and holds the key the sender
resolves for that side.
-/

namespace Collabswarm.BeeKEM.Group

open TreeMath InorderTree Collabswarm.BeeKEM.Tree

/-- No receiver has thrown and all current members have one root secret. -/
def Agreement (g : Group) : Prop :=
  g.thrown = [] ∧ ∃ secret, ∀ id t, g.members.get? id = some t →
    t.getRootSecret = .ok secret

/-! ## When a path update opens -/

/-- A member `m` can open the path update that a sender makes from the tree
`s`: the roots agree, the two leaves lie on different sides of it, and the
sender's resolution of the last copath node is the public half of the key `m`
has on its side. -/
def opens (s m : Tree) : Bool :=
  match root s.numLeaves, root m.numLeaves, s.myLeafIndex, m.myLeafIndex with
  | some r, some r', some leaf, some my =>
      decide (r = r') &&
        (decide (leaf < r ∧ r < my) || decide (my < r ∧ r < leaf)) &&
        match (copath leaf s.numLeaves).bind List.getLast?,
            m.keyOnOurSide r with
        | some top, .ok (some sk) =>
            match s.resolvePublicKey top with
            | .ok resolution => decide (resolution = some sk.publicKey)
            | .error _ => false
        | _, _ => false
  | _, _, _, _ => false

/-- The Welcome for a leaf can be built after a path update from the tree `s`:
every node of the leaf's path is on the sender's path or has a key pair. -/
def welcomeBuildable (s : Tree) (newLeafIndex : ℕ) : Bool :=
  match s.myLeafIndex.bind (directPath · s.numLeaves),
      directPath newLeafIndex s.numLeaves with
  | some own, some dp => dp.all fun x =>
      decide (x ∈ own) ||
        ((s.publicKeyAt x).isSome && (s.privateKeyAt x).isSome)
  | _, _ => false

/-- Every current member but the named ones opens an update made from `s`. -/
def othersOpen (g : Group) (s : Tree) (excluded : List ℕ) : Bool :=
  g.members.entries.all fun e => decide (e.1 ∈ excluded) || opens s e.2

/-- The condition on an operation in a group: the receivers of its path update
can open it, the Welcome of an addition can be built, and a removed leaf has a
direct path. -/
def deliverable (g : Group) : Operation → Bool
  | .generate => true
  | .addMember sender _ key =>
      match g.members.get? sender with
      | none => true
      | some t =>
          let s := t.placeMember key.publicKey
          g.othersOpen s [sender] &&
            welcomeBuildable s (leafToNodeIndex t.numLeaves)
  | .removeMember sender leafIndex gone =>
      match g.members.get? sender with
      | none => true
      | some t =>
          match directPath leafIndex t.numLeaves with
          | none => false
          | some removedPath =>
              g.othersOpen (t.blankMember leafIndex g.nextKey removedPath)
                [sender, gone]
  | .update sender =>
      match g.members.get? sender with
      | none => true
      | some t => g.othersOpen (t.rekeyLeaf g.nextKey) [sender]

theorem opens_iff {s m : Tree} :
    opens s m = true ↔ ∃ r leaf my top sk,
      root s.numLeaves = some r ∧ root m.numLeaves = some r ∧
      s.myLeafIndex = some leaf ∧ m.myLeafIndex = some my ∧
      ((leaf < r ∧ r < my) ∨ (my < r ∧ r < leaf)) ∧
      (copath leaf s.numLeaves).bind List.getLast? = some top ∧
      m.keyOnOurSide r = .ok (some sk) ∧
      s.resolvePublicKey top = .ok (some sk.publicKey) := by
  constructor
  · intro h
    unfold opens at h
    split at h
    · rename_i r r' leaf my hr hr' hleaf hmy
      simp only [Bool.and_eq_true, Bool.or_eq_true, decide_eq_true_eq] at h
      obtain ⟨⟨rfl, hside⟩, h⟩ := h
      split at h
      · rename_i top sk htop hkey
        split at h
        · rename_i resolution hres
          rw [decide_eq_true_eq] at h
          exact ⟨r, leaf, my, top, sk, hr, hr', hleaf, hmy, hside, htop, hkey,
            h ▸ hres⟩
        · cases h
      · cases h
    · cases h
  · rintro ⟨r, leaf, my, top, sk, hr, hr', hleaf, hmy, hside, htop, hkey, hres⟩
    simp [opens, hr, hr', hleaf, hmy, hside, htop, hkey, hres]

/-! ## One exchange -/

/-- Path nodes of two leaves on different sides of a common root differ below
it. -/
theorem path_disjoint {n m i j r y : ℕ} {dp dp' : List ℕ} (hn : 2 ≤ n)
    (hm : 2 ≤ m) (hi : i < n) (hj : j < m) (hr : root n = some r)
    (hr' : root m = some r)
    (hside : (2 * i < r ∧ r < 2 * j) ∨ (2 * j < r ∧ r < 2 * i))
    (hdp : directPath (2 * i) n = some dp)
    (hdp' : directPath (2 * j) m = some dp') (hy : y ∈ dp) (hne : y ≠ r) :
    y ∉ dp' := by
  intro hy'
  obtain ⟨k, hk, hkn, -, rfl⟩ := (mem_directPath hn hi hdp).1 hy
  obtain ⟨l, hl, hlm, -, hkl⟩ := (mem_directPath hm hj hdp').1 hy'
  have hri : ancestor i (rootLevel n) = r := by
    rw [ancestor_rootLevel hn hi]
    simpa [TreeMath.root_eq hn] using hr
  have hrj : ancestor j (rootLevel m) = r := by
    rw [ancestor_rootLevel hm hj]
    simpa [TreeMath.root_eq hm] using hr'
  have hk' : k < rootLevel n := by
    rcases Nat.lt_or_eq_of_le hkn with hlt | rfl
    · exact hlt
    · exact absurd hri hne
  have hl' : l < rootLevel m := by
    rcases Nat.lt_or_eq_of_le hlm with hlt | rfl
    · exact hlt
    · exact absurd (hkl.trans hrj) hne
  have hsideI := below_ancestor_side (i := i)
    (show k ≤ rootLevel n - 1 by omega)
  have hsideJ := below_ancestor_side (i := j)
    (show l ≤ rootLevel m - 1 by omega)
  rw [Nat.sub_add_cancel (by omega), hri] at hsideI
  rw [Nat.sub_add_cancel (by omega), hrj] at hsideJ
  omega

theorem root_one_eq_zero {n r : ℕ} (hn : ¬ 2 ≤ n) (hr : root n = some r) :
    r = 0 := by
  rcases Nat.lt_or_ge n 1 with h | h
  · simp [root, show n = 0 by omega] at hr
  · simpa [root, show n = 1 by omega, eq_comm] using hr

/-- A member that opens the update of a tree with at least two leaves ends up
with the sender's root secret. -/
theorem PathUpdated.opened {s m : Tree} {i j fresh : ℕ} {out}
    (hn : 2 ≤ s.numLeaves) (hs : s.Valid i) (hm : m.Valid j)
    (hopens : opens s m = true) (h : PathUpdated s i fresh out) :
    ∃ m', m.processPathUpdate ⟨2 * i, h.senderPublicKey,
        h.below ++ [⟨h.r, h.sk.publicKey,
          sealToResolution h.sk h.resolution⟩]⟩ = (m', .ok ⟨h.sk⟩) ∧
      m'.Valid j ∧ m'.getRootSecret = .ok ⟨h.sk⟩ := by
  obtain ⟨r, leaf, my, top, sk, hr, hr', hleaf, hmy, hside, htop, hkey, hres⟩ :=
    opens_iff.1 hopens
  rw [hs.myLeafIndex, Option.some.injEq] at hleaf
  rw [hm.myLeafIndex, Option.some.injEq] at hmy
  subst hleaf hmy
  obtain rfl : h.r = r := by simpa [h.root_eq] using hr
  obtain rfl : h.top = top := by simpa [h.copath_last] using htop
  have hresolution : h.resolution = some sk.publicKey := by
    simpa [h.resolve_top] using hres
  have hn' : 2 ≤ m.numLeaves := by
    by_contra hlt
    have := root_one_eq_zero hlt hr'
    omega
  have hdp' := directPath_leaf hn' hm.lt
  have hbelow : ∀ pathNode ∈ h.below, pathNode.nodeIndex ∉
      pathAbove (2 * m.numLeaves - 1) j 0 (rootLevel m.numLeaves) := by
    intro pathNode hnode
    have hmem : pathNode.nodeIndex ∈ h.init := by
      rw [← h.below_index]
      exact List.mem_map_of_mem hnode
    refine path_disjoint hn hn' hs.lt hm.lt h.root_eq hr' hside h.directPath_eq
      hdp' (by simp [hmem]) ?_
    intro heq
    exact h.not_mem (heq ▸ hmem)
  have hhonest : HonestNode ⟨h.r, h.sk.publicKey,
      sealToResolution h.sk (some sk.publicKey)⟩ := by
    intro pk key hbox
    cases hbox
    rfl
  rw [hresolution]
  set u : PathUpdate := ⟨2 * i, h.senderPublicKey, h.below ++ [⟨h.r,
    h.sk.publicKey, sealToResolution h.sk (some sk.publicKey)⟩]⟩ with hu
  have hside' : (2 * j < h.r ∧ h.r < u.senderLeafIndex) ∨
      (h.r < 2 * j ∧ u.senderLeafIndex < h.r) := by
    rw [hu]
    dsimp only
    omega
  obtain ⟨m', hprocess, hvalid, -, hsecret⟩ := processPathUpdate_ok hn' hm hr'
    hdp' rfl rfl hbelow hside' hkey rfl hhonest
  exact ⟨m', hprocess, hvalid, hsecret⟩

/-- A member's path update succeeds, and whoever opens it shares the sender's
root secret afterwards. -/
theorem updatePath_exchange {s : Tree} {i : ℕ} (fresh : ℕ) (hs : s.Valid i)
    (hown : 2 ≤ s.numLeaves ∨ (s.privateKeyAt (2 * i)).isSome) :
    ∃ u secret, (s.updatePath fresh).result = .ok (u, secret) ∧
      (s.updatePath fresh).tree.Valid i ∧
      (s.updatePath fresh).tree.getRootSecret = .ok secret ∧
      ∀ m j, m.Valid j → opens s m = true →
        ∃ m', m.processPathUpdate u = (m', .ok secret) ∧ m'.Valid j ∧
          m'.getRootSecret = .ok secret := by
  have hlt := hs.lt
  by_cases hn : 2 ≤ s.numLeaves
  · obtain ⟨h⟩ := updatePath_updated hn hs.toPlaced fresh
    refine ⟨_, _, h.result, PathUpdated.valid hs h, h.rootSecret hn, ?_⟩
    intro m j hm hopens
    exact PathUpdated.opened hn hs hm hopens h
  · have hone : s.numLeaves = 1 := by omega
    obtain rfl : i = 0 := by omega
    obtain ⟨sk, hsk⟩ := Option.isSome_iff_exists.1 (hown.resolve_left hn)
    obtain ⟨pk, hpk⟩ := Option.isSome_iff_exists.1 hs.leafKey
    have hsecret : s.getRootSecret = .ok ⟨sk⟩ := by
      simpa [getRootSecret, hone] using by rw [hsk]
    have hupdate : s.updatePath fresh =
        ⟨s, fresh, .ok (⟨2 * 0, pk, []⟩, ⟨sk⟩)⟩ := by
      simp only [updatePath, hs.myLeafIndex, Option.bind_some, hpk, hone,
        if_true, hsecret, Except.map]
    rw [hupdate]
    refine ⟨_, _, rfl, hs, hsecret, ?_⟩
    intro m j _ hopens
    obtain ⟨r, leaf, my, -, -, hr, -, -, -, hside, -⟩ := opens_iff.1 hopens
    have := root_one_eq_zero hn hr
    omega

/-! ## Agreement along runs -/

/-- All current members are valid and have the same root secret. -/
def AllHave (g : Group) (secret : RootSecret) : Prop :=
  g.thrown = [] ∧ ∀ id t, g.members.get? id = some t →
    (∃ i, t.Valid i) ∧ t.getRootSecret = .ok secret

theorem AllHave.agreement {g : Group} {secret : RootSecret}
    (h : g.AllHave secret) : g.Agreement :=
  ⟨h.1, secret, fun id t ht => (h.2 id t ht).2⟩

theorem AllHave.recordHeld {g : Group} {secret : RootSecret}
    (h : g.AllHave secret) : g.recordHeld.AllHave secret := h

theorem initializeTree_valid (sk : PrivateKey) :
    (initializeTree sk).Valid 0 := by
  refine ⟨⟨rfl, Nat.one_pos, ?_⟩, ?_⟩
  · simp [initializeTree, publicKeyAt_setNode, keyLeaf]
  · refine Matched.setNode ?_ ?_
    · intro y key hy
      simp [privateKeyAt] at hy
    · intro key hkey
      simp only [keyLeaf, Option.some.injEq] at hkey
      simp [keyLeaf, hkey]

theorem found_allHave (sk : PrivateKey) : (found sk).AllHave ⟨sk⟩ := by
  refine ⟨rfl, ?_⟩
  intro id t ht
  simp only [found, InsertionMap.get?_set] at ht
  split at ht
  · cases ht
    refine ⟨⟨0, initializeTree_valid sk⟩, ?_⟩
    simp [getRootSecret, initializeTree, privateKeyAt_setNode, keyLeaf]
  · cases ht

theorem opens_of_othersOpen {g : Group} {s m : Tree} {excluded : List ℕ}
    {id : ℕ} (h : g.othersOpen s excluded = true)
    (hm : g.members.get? id = some m) (hid : id ∉ excluded) :
    opens s m = true := by
  have hentry := List.all_eq_true.1 h (id, m) (g.members.mem_entries_iff.2 hm)
  simpa [hid] using hentry

/-- Delivery of an update that every receiver opens. -/
theorem deliver_allHave {g : Group} {sender : ℕ} {u : PathUpdate}
    {secret : RootSecret} (hthrown : g.thrown = [])
    (hsender : ∀ t, g.members.get? sender = some t →
      (∃ i, t.Valid i) ∧ t.getRootSecret = .ok secret)
    (hothers : ∀ id m, id ≠ sender → g.members.get? id = some m →
      ∃ m' j, m.processPathUpdate u = (m', .ok secret) ∧ m'.Valid j ∧
        m'.getRootSecret = .ok secret) :
    (g.deliver sender u).AllHave secret := by
  constructor
  · have hnone : ∀ e ∈ g.members.entries, (if e.1 = sender then none else
        errorOf (e.2.processPathUpdate u).2) = none := by
      rintro ⟨id, m⟩ hmem
      by_cases hid : id = sender
      · simp [hid]
      · obtain ⟨m', j, hprocess, -⟩ :=
          hothers id m hid (g.members.mem_entries_iff.1 hmem)
        simp [hid, hprocess, errorOf]
    rw [deliver]
    simp only [hthrown, List.nil_append]
    rw [List.filterMap_eq_nil_iff]
    exact hnone
  · intro id t ht
    simp only [deliver, InsertionMap.get?_mapValues, Option.map_eq_some_iff]
      at ht
    obtain ⟨m, hm, rfl⟩ := ht
    by_cases hid : id = sender
    · subst hid
      rw [if_pos rfl]
      exact hsender m hm
    · obtain ⟨m', j, hprocess, hvalid, hsecret⟩ := hothers id m hid hm
      rw [if_neg hid, hprocess]
      exact ⟨⟨j, hvalid⟩, hsecret⟩

/-- Delivery after the sender committed a successful path update from `s`. -/
theorem commit_deliver_allHave {α : Type} {g : Group} {sender i fresh : ℕ}
    {s : Tree} {secret : RootSecret} (out : Outcome α) (excluded : List ℕ)
    (g' : Group) (h : g.AllHave secret) (hs : s.Valid i)
    (hown : 2 ≤ s.numLeaves ∨ (s.privateKeyAt (2 * i)).isSome)
    (hout : out.tree = (s.updatePath fresh).tree)
    (hsub : ∀ id, id ∉ excluded → id ≠ sender →
      ∀ m, g.members.get? id = some m → opens s m = true)
    (hthrown : g'.thrown = g.thrown)
    (hmembers : ∀ id, g'.members.get? id =
      if id ∈ excluded then none else (g.commit sender out).members.get? id) :
    ∃ u secret', (s.updatePath fresh).result = .ok (u, secret') ∧
      (s.updatePath fresh).tree.Valid i ∧
      (s.updatePath fresh).tree.getRootSecret = .ok secret' ∧
      (g'.deliver sender u).AllHave secret' := by
  obtain ⟨u, secret', hresult, hvalid, hsecret, hopen⟩ :=
    updatePath_exchange fresh hs hown
  refine ⟨u, secret', hresult, hvalid, hsecret, ?_⟩
  apply deliver_allHave
  · rw [hthrown, h.1]
  · intro t ht
    rw [hmembers, get?_commit, if_pos rfl] at ht
    split at ht
    · cases ht
    · cases ht
      rw [hout]
      exact ⟨⟨i, hvalid⟩, hsecret⟩
  · intro id m hid hm
    rw [hmembers, get?_commit, if_neg hid] at hm
    split at hm
    · cases hm
    · rename_i hexcluded
      obtain ⟨⟨j, hj⟩, -⟩ := h.2 id m hm
      obtain ⟨m', hprocess, hvalid', hsecret'⟩ :=
        hopen m j hj (hsub id hexcluded hid m hm)
      exact ⟨m', j, hprocess, hvalid', hsecret'⟩

theorem update_allHave {g : Group} {secret : RootSecret} {sender : ℕ}
    (h : g.AllHave secret) (hguard : g.deliverable (.update sender) = true) :
    ∃ secret', (g.step (.update sender)).AllHave secret' := by
  rcases hsender : g.members.get? sender with _ | t
  · exact ⟨secret, by simpa [step, hsender] using h⟩
  · obtain ⟨⟨i, hi⟩, -⟩ := h.2 sender t hsender
    obtain ⟨hs, hown⟩ := rekeyLeaf_placed hi.myLeafIndex hi.lt g.nextKey
    simp only [deliverable, hsender] at hguard
    obtain ⟨u, secret', hresult, -, -, hall⟩ := commit_deliver_allHave
      (t.update g.nextKey) []
      (g.commit sender (t.update g.nextKey)).recordHeld h
      ⟨hs, rekeyLeaf_matched hi.myLeafIndex hi.matched g.nextKey⟩
      (Or.inr hown) rfl
      (fun id _ hid m hm => opens_of_othersOpen hguard hm (by simpa using hid))
      rfl (fun id => by simp; rfl)
    refine ⟨secret', ?_⟩
    have hresult' : (t.update g.nextKey).result = .ok (u, secret') := hresult
    simp only [step, hsender, hresult']
    exact hall

theorem removeMember_allHave {g : Group} {secret : RootSecret}
    {sender leafIndex gone : ℕ} (h : g.AllHave secret)
    (hguard : g.deliverable (.removeMember sender leafIndex gone) = true) :
    ∃ secret',
      (g.step (.removeMember sender leafIndex gone)).AllHave secret' := by
  rcases hsender : g.members.get? sender with _ | t
  · exact ⟨secret, by simpa [step, hsender] using h⟩
  · obtain ⟨⟨i, hi⟩, -⟩ := h.2 sender t hsender
    simp only [deliverable, hsender] at hguard
    rcases hpath : directPath leafIndex t.numLeaves with _ | path
    · simp [hpath] at hguard
    · simp only [hpath] at hguard
      obtain ⟨hs, hown⟩ :=
        blankMember_placed hi.toPlaced leafIndex g.nextKey path
      have hout : t.removeMember leafIndex g.nextKey =
          (t.blankMember leafIndex g.nextKey path).updatePath
            (g.nextKey + 1) := by
        rw [removeMember, hpath]
      set out := t.removeMember leafIndex g.nextKey with houtDef
      obtain ⟨u, secret', hresult, -, -, hall⟩ := commit_deliver_allHave
        out [gone]
        { (g.commit sender out).recordHeld with
          members := (g.commit sender out).recordHeld.members.erase gone }
        h ⟨hs, blankMember_matched hi leafIndex g.nextKey path⟩
        (Or.inr hown) (by rw [hout])
        (fun id hid hne m hm => opens_of_othersOpen hguard hm (by
          simp only [List.mem_cons, List.not_mem_nil, or_false] at hid ⊢
          exact not_or.2 ⟨hne, hid⟩))
        rfl (fun id => by
          simp only [InsertionMap.get?_erase, List.mem_singleton]
          rfl)
      refine ⟨secret', ?_⟩
      rw [← hout] at hresult
      simp only [step, hsender, ← houtDef, hresult]
      exact hall

/-- After a path update from the tree with the new leaf, the Welcome is built
and accepted. -/
theorem addMember_welcome {t : Tree} {i fresh : ℕ} {key : PrivateKey}
    {secret : RootSecret} (ht : t.Valid i)
    (hbuildable : welcomeBuildable (t.placeMember key.publicKey)
      (leafToNodeIndex t.numLeaves) = true)
    (hsecret : ((t.placeMember key.publicKey).updatePath
      fresh).tree.getRootSecret = .ok secret) :
    ∃ w joined, ((t.placeMember key.publicKey).updatePath
        fresh).tree.buildWelcome (leafToNodeIndex t.numLeaves)
          key.publicKey = .ok w ∧
      Tree.new.processWelcome w key = (joined, .ok secret) ∧
      joined.Valid t.numLeaves ∧ joined.getRootSecret = .ok secret := by
  have hpos : 1 ≤ t.numLeaves := Nat.one_le_of_lt ht.lt
  set s := t.placeMember key.publicKey with hsdef
  have hs := placeMember_valid ht key.publicKey
  have hn : 2 ≤ s.numLeaves := Nat.succ_le_succ hpos
  have hnum : s.numLeaves = t.numLeaves + 1 := rfl
  obtain ⟨h⟩ := updatePath_updated hn hs.toPlaced fresh
  have hvalid := PathUpdated.valid hs h
  set s' := (s.updatePath fresh).tree
  have hnum' : s'.numLeaves = t.numLeaves + 1 := h.numLeaves
  have hleafIndex : leafToNodeIndex t.numLeaves = 2 * t.numLeaves := by
    rw [leafToNodeIndex]
    omega
  rw [hleafIndex] at hbuildable ⊢
  obtain rfl : secret = ⟨h.sk⟩ := by
    rw [h.rootSecret hn] at hsecret
    cases hsecret
    rfl
  have hleaf : s'.publicKeyAt (2 * t.numLeaves) = some key.publicKey := by
    have hnot : 2 * t.numLeaves ∉ h.init ++ [h.r] := by
      intro hmem
      have := h.odd _ hmem
      omega
    rw [publicKeyAt, h.frame _ hnot, hsdef, placeMember, get?_setNode,
      if_pos hleafIndex.symm]
    rfl
  have hown : s.myLeafIndex.bind (directPath · s.numLeaves) =
      some (h.init ++ [h.r]) := by
    rw [hs.myLeafIndex]
    exact h.directPath_eq
  rcases hdp : directPath (2 * t.numLeaves) s.numLeaves with _ | dp
  · simp [welcomeBuildable, hdp] at hbuildable
  · simp only [welcomeBuildable, hown, hdp, List.all_eq_true, Bool.or_eq_true,
      decide_eq_true_eq, Bool.and_eq_true] at hbuildable
    have hkeys : ∀ x ∈ dp, (s'.privateKeyAt x).isSome := by
      intro x hx
      by_cases hmem : x ∈ h.init ++ [h.r]
      · obtain ⟨sk, -, -, hget⟩ := h.path x hmem
        rw [privateKeyAt, hget]
        rfl
      · rw [privateKeyAt, h.frame x hmem]
        exact ((hbuildable x hx).resolve_left hmem).2
    exact welcome_ok hvalid.matched hnum' hpos hleaf
      (by rw [hnum', ← hnum]; exact hdp) hkeys
      (by rw [hnum', ← hnum]; exact h.root_eq) h.root_key

theorem addMember_allHave {g : Group} {secret : RootSecret}
    {sender joiner : ℕ} {key : PrivateKey} (h : g.AllHave secret)
    (hguard : g.deliverable (.addMember sender joiner key) = true) :
    ∃ secret', (g.step (.addMember sender joiner key)).AllHave secret' := by
  rcases hsender : g.members.get? sender with _ | t
  · exact ⟨secret, by simpa [step, hsender] using h⟩
  rcases hjoiner : g.members.get? joiner with _ | t'
  · obtain ⟨⟨i, hi⟩, -⟩ := h.2 sender t hsender
    simp only [deliverable, hsender, Bool.and_eq_true] at hguard
    by_cases hkey : g.nextKey ≤ key.id
    · exact ⟨secret, by simpa [step, hsender, hjoiner, hkey] using h⟩
    have hs := placeMember_valid hi key.publicKey
    have hpos : 1 ≤ t.numLeaves := Nat.one_le_of_lt hi.lt
    set out := t.addMember key.publicKey g.nextKey with hout
    obtain ⟨u, secret', hresult, -, hsecret, hall⟩ := commit_deliver_allHave
      out [] (g.commit sender out) h hs
      (Or.inl (Nat.succ_le_succ hpos)) rfl
      (fun id _ hid m hm =>
        opens_of_othersOpen hguard.1 hm (by simpa using hid))
      rfl (fun id => by simp)
    obtain ⟨w, joined, hbuild, hprocess, hvalid, hjoined⟩ :=
      addMember_welcome hi hguard.2 hsecret
    have hok : out.result = .ok (u, w, secret') := by
      simp only [hout, addMember, hresult, hbuild, bind, Except.bind]
    refine ⟨secret', ?_⟩
    simp only [step, hsender, hjoiner, if_neg hkey, ← hout, hok]
    apply AllHave.recordHeld
    constructor
    · simp [welcome, hprocess, errorOf, hall.1]
    · intro id m hm
      simp only [welcome, InsertionMap.get?_set] at hm
      split at hm
      · cases hm
        rw [hprocess]
        exact ⟨⟨_, hvalid⟩, hjoined⟩
      · exact hall.2 id m hm
  · exact ⟨secret, by simpa [step, hsender, hjoiner] using h⟩

/-- Key agreement holds along every run of deliverable operations: no receiver
throws and all current members share the root secret. -/
theorem keyAgreement_of_deliverable (sk : PrivateKey)
    (operations : List Operation)
    (hrun : Guarded step (fun g op => g.deliverable op = true) (found sk)
      operations) :
    (exec step (found sk) operations).Agreement := by
  have hstep : ∀ (g : Group) op, (∃ secret, g.AllHave secret) →
      g.deliverable op = true → ∃ secret, (g.step op).AllHave secret := by
    rintro g op ⟨secret, h⟩ hguard
    cases op with
    | generate => exact ⟨secret, h⟩
    | addMember sender joiner key => exact addMember_allHave h hguard
    | removeMember sender leafIndex gone =>
        exact removeMember_allHave h hguard
    | update sender => exact update_allHave h hguard
  obtain ⟨secret, h⟩ := exec_invariant hstep operations (found sk)
    ⟨_, found_allHave sk⟩ hrun
  exact h.agreement

/-- A run with four members, of which one leaves. -/
def sampleRun : List Operation :=
  [.generate, .addMember 0 1 ⟨1⟩, .removeMember 1 0 0, .generate,
    .addMember 1 2 ⟨5⟩, .generate, .addMember 2 3 ⟨7⟩]

theorem keyAgreement_sampleRun :
    (exec step (found ⟨0⟩) sampleRun).members.keys = [1, 2, 3] ∧
      (exec step (found ⟨0⟩) sampleRun).Agreement :=
  ⟨by decide +kernel,
    keyAgreement_of_deliverable ⟨0⟩ sampleRun (by decide +kernel)⟩

/-- The founder adds two members: the first one cannot process the second
addition, because its own tree has two leaves. -/
theorem keyAgreement_fails :
    ¬ (exec step (found ⟨0⟩) [.generate, .addMember 0 1 ⟨1⟩, .generate,
      .addMember 0 2 ⟨3⟩]).Agreement := by
  intro h
  have hthrown : (exec step (found ⟨0⟩) [.generate, .addMember 0 1 ⟨1⟩,
      .generate, .addMember 0 2 ⟨3⟩]).thrown = [.treeMath] := by
    decide +kernel
  rw [h.1] at hthrown
  cases hthrown

end Collabswarm.BeeKEM.Group
