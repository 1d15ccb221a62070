import Collabswarm.BeeKEM.Path

/-!
# When a path update leaves the root alone

A receiver finds the first update node on its direct path and opens it with the
key on its side.  The nodes above it are then installed one after the other,
and the first one that the child on our side has a key for, but not the right
one, ends the processing.
-/

namespace Collabswarm.BeeKEM.Tree

open TreeMath

/-- The node whose private key is the root secret. -/
def rootIndex (t : Tree) : ℕ := (root t.numLeaves).getD 0

theorem getRootSecret_congr {t t' : Tree} (hn : t'.numLeaves = t.numLeaves)
    (hkey : t'.privateKeyAt t.rootIndex = t.privateKeyAt t.rootIndex) :
    t'.getRootSecret = t.getRootSecret := by
  rw [getRootSecret, getRootSecret, hn]
  split
  · rfl
  rename_i hzero
  split
  · rename_i hone
    rw [rootIndex, hone] at hkey
    have hkey' : t'.privateKeyAt 0 = t.privateKeyAt 0 := hkey
    rw [hkey']
  · rename_i hone
    have hroot := TreeMath.root_eq (show 2 ≤ t.numLeaves by omega)
    rw [rootIndex, hroot] at hkey
    simp only [hroot, liftTree, bind, Except.bind]
    rw [Option.getD_some] at hkey
    rw [hkey]

/-- The root secret is the private key at the root. -/
theorem getRootSecret_eq_ok {t : Tree} {secret : RootSecret}
    (h : t.getRootSecret = .ok secret) :
    t.privateKeyAt t.rootIndex = some secret.key := by
  rw [getRootSecret] at h
  split at h
  · cases h
  rename_i hzero
  split at h
  · rename_i hone
    rw [rootIndex, hone]
    split at h
    · rename_i sk hsk
      cases h
      exact hsk
    · cases h
  · have hroot := TreeMath.root_eq (show 2 ≤ t.numLeaves by omega)
    simp only [hroot, liftTree, bind, Except.bind] at h
    rw [rootIndex, hroot, Option.getD_some]
    split at h
    · rename_i sk hsk
      cases h
      exact hsk
    · cases h

/-! ## The nodes a receiver meets -/

/-- A path update split at its first node on our direct path: the nodes below
it, the node, and the nodes above it. -/
def meeting (t : Tree) (u : PathUpdate) :
    Option (List PathNodeUpdate × PathNodeUpdate × List PathNodeUpdate) :=
  match t.myLeafIndex.bind (directPath · t.numLeaves) with
  | none => none
  | some myDirectPath =>
      match u.nodes.dropWhile (·.nodeIndex ∉ myDirectPath) with
      | [] => none
      | pathNode :: above => some
          (u.nodes.takeWhile (·.nodeIndex ∉ myDirectPath), pathNode, above)

/-- The node that is met and the private key it is opened to, with the nodes
below and above it. -/
def opening (t : Tree) (u : PathUpdate) :
    Option (List PathNodeUpdate × PathNodeUpdate × PrivateKey ×
      List PathNodeUpdate) :=
  match t.meeting u with
  | none => none
  | some (below, pathNode, above) =>
      match (t.recordSender u).decryptIntersection pathNode with
      | .ok (some sk) => some (below, pathNode, sk, above)
      | _ => none

/-- Whether an update node above the opened node `x`, which now has the key
`sk`, ends the processing: its children cannot be computed, or the child on our
side has a private key that does not open it.  The nodes `seen` were installed
in between. -/
def refuses (t : Tree) (x : ℕ) (sk : PrivateKey) (seen : List ℕ)
    (pathNode : PathNodeUpdate) : Bool :=
  match t.findChildOnOurSide pathNode.nodeIndex with
  | .error _ => true
  | .ok none => false
  | .ok (some child) =>
      decide (child ∉ seen) &&
        match if child = x then some sk else t.privateKeyAt child with
        | none => false
        | some key =>
            match pathNode.encryptedPrivateKey with
            | .empty => true
            | .box recipient _ => decide (key.publicKey ≠ recipient)

/-- Whether the processing ends at one of the nodes above `x` before the node
`r` is installed. -/
def stopsBefore (t : Tree) (r x : ℕ) (sk : PrivateKey) :
    List ℕ → List PathNodeUpdate → Bool
  | _, [] => false
  | seen, pathNode :: above =>
      t.refuses x sk seen pathNode ||
        (decide (pathNode.nodeIndex ≠ r) &&
          t.stopsBefore r x sk (pathNode.nodeIndex :: seen) above)

/-! ## What processing does -/

/-- `processPathUpdate` records the sender and throws, or it opens a node and
goes on above it. -/
theorem processPathUpdate_cases (t : Tree) (u : PathUpdate) :
    (∃ e, t.processPathUpdate u = (t.recordSender u, .error e)) ∨
      ∃ below pathNode sk above,
        t.opening u = some (below, pathNode, sk, above) ∧
        t.processPathUpdate u =
          match ((t.recordSender u).installNode pathNode
              (some sk)).installAbove above with
          | (t', .error e) => (t', .error e)
          | (t', .ok ()) =>
              (t'.installBelow below, (t'.installBelow below).getRootSecret) := by
  have hmy : (t.recordSender u).myLeafIndex = t.myLeafIndex := rfl
  have hn : (t.recordSender u).numLeaves = t.numLeaves := rfl
  rw [processPathUpdate]
  simp only [hmy, hn]
  rcases hleaf : t.myLeafIndex with _ | my
  · exact Or.inl ⟨_, rfl⟩
  dsimp only
  rcases hcp : copath my t.numLeaves with _ | cp
  · exact Or.inl ⟨_, rfl⟩
  rcases hdp : directPath my t.numLeaves with _ | dp
  · exact Or.inl ⟨_, rfl⟩
  dsimp only
  split
  · exact Or.inl ⟨_, rfl⟩
  rename_i pathNode above hdrop
  have hmeeting : t.meeting u = some
      (u.nodes.takeWhile (·.nodeIndex ∉ dp), pathNode, above) := by
    simp only [meeting, hleaf, Option.bind_some, hdp, hdrop]
  rcases hopen : (t.recordSender u).decryptIntersection pathNode with
    e | _ | sk
  · exact Or.inl ⟨e, rfl⟩
  · exact Or.inl ⟨_, rfl⟩
  · refine Or.inr ⟨_, pathNode, sk, above, ?_, rfl⟩
    simp only [opening, hmeeting, hopen]

theorem installAbove_frame :
    ∀ (above : List PathNodeUpdate) (t : Tree),
      (t.installAbove above).1.numLeaves = t.numLeaves ∧
      (t.installAbove above).1.myLeafIndex = t.myLeafIndex ∧
      ∀ y, y ∉ above.map PathNodeUpdate.nodeIndex →
        (t.installAbove above).1.privateKeyAt y = t.privateKeyAt y := by
  intro above
  induction above with
  | nil =>
      intro t
      exact ⟨rfl, rfl, fun _ _ => rfl⟩
  | cons pathNode above ih =>
      intro t
      rw [installAbove]
      rcases t.decryptAbove pathNode with e | privateKey
      · exact ⟨rfl, rfl, fun _ _ => rfl⟩
      · obtain ⟨hn, hmy, hframe⟩ := ih (t.installNode pathNode privateKey)
        refine ⟨hn, hmy, ?_⟩
        intro y hy
        simp only [List.map_cons, List.mem_cons, not_or] at hy
        refine (hframe y hy.2).trans ?_
        rw [installNode, privateKeyAt_setNode]
        exact if_neg hy.1

/-! ## Updates that stop -/

theorem refuses_decryptAbove {t t' : Tree} {x : ℕ} {sk : PrivateKey}
    {seen : List ℕ} {pathNode : PathNodeUpdate}
    (hn : t'.numLeaves = t.numLeaves)
    (hmy : t'.myLeafIndex = t.myLeafIndex)
    (hkeys : ∀ y, y ∉ seen →
      t'.privateKeyAt y = if y = x then some sk else t.privateKeyAt y)
    (h : t.refuses x sk seen pathNode = true) :
    ∃ e, t'.decryptAbove pathNode = .error e := by
  have hchild : t'.findChildOnOurSide pathNode.nodeIndex =
      t.findChildOnOurSide pathNode.nodeIndex := by
    simp only [findChildOnOurSide, hn, hmy]
  rw [refuses] at h
  rw [decryptAbove, hchild]
  rcases hfind : t.findChildOnOurSide pathNode.nodeIndex with e | _ | child
  · exact ⟨e, rfl⟩
  · rw [hfind] at h
    cases h
  · rw [hfind] at h
    simp only [Bool.and_eq_true, decide_eq_true_eq] at h
    obtain ⟨hseen, h⟩ := h
    simp only [bind, Except.bind, Option.bind_some, hkeys child hseen]
    rcases hkey : (if child = x then some sk else t.privateKeyAt child) with
      _ | key
    · rw [hkey] at h
      cases h
    · rw [hkey] at h
      dsimp only at h ⊢
      rcases hsealed : pathNode.encryptedPrivateKey with _ | ⟨recipient, _⟩
      · exact ⟨.eciesOpen, rfl⟩
      · rw [hsealed] at h
        refine ⟨.eciesOpen, ?_⟩
        rw [decryptNodeKey, if_neg (by simpa using h)]
        rfl

/-- Processing that stops before the root throws and leaves the root's key. -/
theorem stopsBefore_installAbove {t : Tree} {r x : ℕ} {sk : PrivateKey} :
    ∀ (above : List PathNodeUpdate) (seen : List ℕ) (t' : Tree),
      t'.numLeaves = t.numLeaves → t'.myLeafIndex = t.myLeafIndex →
      (∀ y, y ∉ seen →
        t'.privateKeyAt y = if y = x then some sk else t.privateKeyAt y) →
      t.stopsBefore r x sk seen above = true →
      ∃ after e, t'.installAbove above = (after, .error e) ∧
        after.privateKeyAt r = t'.privateKeyAt r := by
  intro above
  induction above with
  | nil =>
      intro seen t' _ _ _ h
      cases h
  | cons pathNode above ih =>
      intro seen t' hn hmy hkeys h
      rw [stopsBefore, Bool.or_eq_true, Bool.and_eq_true,
        decide_eq_true_eq] at h
      rw [installAbove]
      rcases hdec : t'.decryptAbove pathNode with e | privateKey
      · exact ⟨t', e, rfl, rfl⟩
      rcases h with hrefuses | ⟨hne, hrest⟩
      · obtain ⟨e, he⟩ := refuses_decryptAbove hn hmy hkeys hrefuses
        rw [he] at hdec
        cases hdec
      · obtain ⟨after, e, hafter, hroot⟩ :=
          ih (pathNode.nodeIndex :: seen) (t'.installNode pathNode privateKey)
            hn hmy (by
              intro y hy
              simp only [List.mem_cons, not_or] at hy
              rw [installNode, privateKeyAt_setNode, ← hkeys y hy.2]
              exact if_neg hy.1) hrest
        refine ⟨after, e, hafter, hroot.trans ?_⟩
        rw [installNode, privateKeyAt_setNode]
        exact if_neg (Ne.symm hne)

/-- A path update that does not change the root: the sender's leaf is not the
root, an opened root node carries the key that is there, and either the
processing stops before another root node or there is none. -/
def sparesRoot (t : Tree) (u : PathUpdate) : Bool :=
  decide (u.senderLeafIndex ≠ t.rootIndex) &&
    match t.opening u with
    | none => true
    | some (below, pathNode, sk, above) =>
        (decide (pathNode.nodeIndex ≠ t.rootIndex) ||
          decide (t.privateKeyAt t.rootIndex = some sk)) &&
        ((t.recordSender u).stopsBefore t.rootIndex pathNode.nodeIndex sk []
            above ||
          decide (t.rootIndex ∉ (below ++ above).map
            PathNodeUpdate.nodeIndex))

/-- Whether the processing of an update is known to throw: nothing is opened or
a node above stops it. -/
def throwsOn (t : Tree) (u : PathUpdate) : Bool :=
  match t.opening u with
  | none => true
  | some (_, pathNode, sk, above) =>
      (t.recordSender u).stopsBefore t.rootIndex pathNode.nodeIndex sk [] above

/-- A path update that spares the root leaves leaf index and root secret; its
result is an error, always if it is known to throw, or the root secret that was
there. -/
theorem processPathUpdate_spared {t t' : Tree} {u : PathUpdate}
    {result : Except Error RootSecret} (hspares : t.sparesRoot u = true)
    (h : t.processPathUpdate u = (t', result)) :
    t'.myLeafIndex = t.myLeafIndex ∧ t'.getRootSecret = t.getRootSecret ∧
      ((∃ e, result = .error e) ∨
        t.throwsOn u = false ∧ result = t.getRootSecret) := by
  rw [sparesRoot, Bool.and_eq_true, decide_eq_true_eq] at hspares
  obtain ⟨hsender, hspares⟩ := hspares
  have hrecord : ∀ y, y ≠ u.senderLeafIndex →
      (t.recordSender u).privateKeyAt y = t.privateKeyAt y := by
    intro y hy
    rw [recordSender, privateKeyAt_setNode]
    exact if_neg hy
  rcases t.processPathUpdate_cases u with
    ⟨e, heq⟩ | ⟨below, pathNode, sk, above, hopening, heq⟩
  · rw [h] at heq
    obtain ⟨rfl, rfl⟩ := Prod.mk.inj heq
    exact ⟨rfl, getRootSecret_congr rfl (hrecord _ hsender.symm),
      Or.inl ⟨e, rfl⟩⟩
  rw [h] at heq
  simp only [hopening, Bool.and_eq_true, Bool.or_eq_true, decide_eq_true_eq]
    at hspares
  obtain ⟨hsame, hrest⟩ := hspares
  set t₂ := (t.recordSender u).installNode pathNode (some sk) with ht₂
  have hkeys : ∀ y, t₂.privateKeyAt y = if y = pathNode.nodeIndex then some sk
      else (t.recordSender u).privateKeyAt y := by
    intro y
    rw [ht₂, installNode, privateKeyAt_setNode]
  have hroot₂ : t₂.privateKeyAt t.rootIndex = t.privateKeyAt t.rootIndex := by
    rw [hkeys]
    split
    · rename_i hindex
      rcases hsame with hne | hkey
      · exact absurd hindex.symm hne
      · exact hkey.symm
    · exact hrecord _ hsender.symm
  obtain ⟨hn₃, hmy₃, hframe₃⟩ := installAbove_frame above t₂
  rcases hrest with hstops | hnot
  · obtain ⟨after, e, hafter, hroot⟩ := stopsBefore_installAbove
      (t := t.recordSender u) above [] t₂ rfl rfl (fun y _ => hkeys y) hstops
    rw [hafter] at heq hn₃ hmy₃
    obtain ⟨rfl, rfl⟩ := Prod.mk.inj heq
    exact ⟨hmy₃, getRootSecret_congr hn₃ (hroot.trans hroot₂),
      Or.inl ⟨e, rfl⟩⟩
  simp only [List.map_append, List.mem_append, not_or] at hnot
  rcases hinstall : t₂.installAbove above with ⟨after, e | ⟨⟩⟩
  · rw [hinstall] at heq hn₃ hmy₃ hframe₃
    obtain ⟨rfl, rfl⟩ := Prod.mk.inj heq
    exact ⟨hmy₃, getRootSecret_congr hn₃ ((hframe₃ _ hnot.2).trans hroot₂),
      Or.inl ⟨e, rfl⟩⟩
  · rw [hinstall] at heq hn₃ hmy₃ hframe₃
    obtain ⟨rfl, rfl⟩ := Prod.mk.inj heq
    obtain ⟨hn₄, hmy₄, hframe₄⟩ := installBelow_frame below after
    have hsecret : (after.installBelow below).getRootSecret =
        t.getRootSecret :=
      getRootSecret_congr (hn₄.trans hn₃)
        ((congrArg (·.bind TreeNode.privateKey) (hframe₄ _ hnot.1)).trans
          ((hframe₃ _ hnot.2).trans hroot₂))
    refine ⟨hmy₄.trans hmy₃, hsecret, Or.inr ⟨?_, hsecret⟩⟩
    rw [throwsOn, hopening]
    dsimp only
    by_contra hstops
    rw [Bool.not_eq_false] at hstops
    obtain ⟨after', e, hafter, -⟩ := stopsBefore_installAbove
      (t := t.recordSender u) above [] t₂ rfl rfl (fun y _ => hkeys y) hstops
    rw [hinstall] at hafter
    cases hafter

end Collabswarm.BeeKEM.Tree
