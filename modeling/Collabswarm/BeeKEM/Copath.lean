import Collabswarm.BeeKEM.TreeTermination
import Collabswarm.Support.Branching

/-!
# Copaths partition the group

The leaves below a node are those that its children lead to, where children are
what `left` and `right` return.  They are the leaves in the interval that
`_isInSubtree` tests.  The copath of a leaf takes the other child at every node
of its direct path, so the leaves below its nodes are all leaves but that one,
each once.

When a leaf is added the direct path keeps its nodes, up to `2 ^ 30` leaves: the
width of a larger tree does not fit the 32-bit shifts of `log2`, and `root` runs
forever.
-/

namespace Collabswarm.BeeKEM.TreeMath32

open Collabswarm.InorderTree
open Bitwise32 Branching Run
open TreeMath (rootLevel)

/-- A child of a node in a tree with `n` leaves. -/
def Child (n : ℕ) (p x : ℤ) : Prop :=
  Returns (left p) x ∨ Returns (right p (some n)) x

/-- The indices of the leaves of a tree with `n` leaves. -/
def leaves (n : ℕ) : Set ℤ := {y | ∃ m : ℕ, m < n ∧ y = (2 * m : ℕ)}

/-- The leaves below a node of a tree with `n` leaves. -/
def leavesUnder (n : ℕ) (x : ℤ) : Set ℤ := leavesBelow (Child n) (leaves n) x

/-- One of the nodes is the left child of the first, the other its right
child. -/
def OtherChild (n : ℕ) (p x c : ℤ) : Prop :=
  ∃ a b, Returns (left p) a ∧ Returns (right p (some n)) b ∧ a ≠ b ∧
    ((x = a ∧ c = b) ∨ (x = b ∧ c = a))

/-- The copath takes the other child at every node of the direct path, and the
leaves below its nodes are apart and all but the leaf at position `i`. -/
structure CopathOf (n i : ℕ) (dp cp : List ℤ) : Prop where
  length_eq : cp.length = dp.length
  other : ∀ (j : ℕ) (p c x : ℤ), dp[j]? = some p → cp[j]? = some c →
    (((2 * i : ℕ) : ℤ) :: dp)[j]? = some x → OtherChild n p x c
  disjoint : cp.Pairwise fun c d =>
    Disjoint (leavesUnder n c) (leavesUnder n d)
  cover : ⋃ c ∈ cp, leavesUnder n c = leaves n \ {((2 * i : ℕ) : ℤ)}

/-- The arithmetic of the leaf at position `i` in a tree with `n` leaves, and
when the tree grows by one. -/
structure TreePartition (n i : ℕ) : Prop where
  copath : ∃ dp cp, Returns (directPath (2 * i : ℕ) n) dp ∧
    Returns (copath (2 * i : ℕ) n) cp ∧ CopathOf n i dp cp
  subtree : ∀ m x : ℕ, m < n → x < 2 ^ 31 - 1 →
    ∃ b, Returns (isInSubtree (2 * m : ℕ) x) b ∧
      (b = true ↔ Descends (Child n) x (2 * m : ℕ))
  growth : ∃ dp dp', Returns (directPath (2 * i : ℕ) n) dp ∧
    Returns (directPath (2 * i : ℕ) (n + 1)) dp' ∧ dp.Sublist dp'

section Trees

variable {n : ℕ}

/-! ## What lies below a node -/

theorem not_child_leaf {q : ℕ} (hx : node 0 q < 2 ^ 31) (y : ℤ) :
    ¬ Child n (node 0 q : ℕ) y := by
  rintro (h | h)
  · exact absurd (h.unique (left_node_zero hx)) (by simp)
  · exact absurd (h.unique (right_node_zero hx _)) (by simp)

/-- The clamping loop walks down to the left: it ends below the node that it
starts from, or throws at a leaf. -/
theorem rightLoop_below {w : ℤ} :
    ∀ k q, node k q < 2 ^ 31 → ∃ r : Except String ℤ,
      LoopEnds (rightBody w) (node k q : ℕ) r ∧
      ∀ v, r = .ok v → ∃ m : ℕ, v = m ∧ Below k q m := by
  intro k
  induction k with
  | zero =>
      intro q hx
      by_cases hw : w ≤ (node 0 q : ℕ)
      · refine ⟨.error "Leaves have no children", loopEnds_throw ?_,
          fun v hv => by cases hv⟩
        simp only [rightBody, if_pos hw]
        exact (left_node_zero hx).bind _
      · refine ⟨.ok (node 0 q : ℕ), loopEnds_leave ?_, fun v hv => ?_⟩
        · simp only [rightBody, if_neg hw]
          exact returns_pure _
        · exact ⟨_, (Except.ok.inj hv).symm, below_node 0 q⟩
  | succ k ih =>
      intro q hx
      by_cases hw : w ≤ (node (k + 1) q : ℕ)
      · have hlow := (below_left (below_node k (2 * q))).2
        obtain ⟨r, hloop, hr⟩ := ih (2 * q) (hlow.trans hx)
        refine ⟨r, loopEnds_continue ?_ hloop, fun v hv => ?_⟩
        · simp only [rightBody, if_pos hw]
          exact (left_node hx).bind (returns_pure _)
        · obtain ⟨m, hm, hbelow⟩ := hr v hv
          exact ⟨m, hm, (below_left hbelow).1⟩
      · refine ⟨.ok (node (k + 1) q : ℕ), loopEnds_leave ?_, fun v hv => ?_⟩
        · simp only [rightBody, if_neg hw]
          exact returns_pure _
        · exact ⟨_, (Except.ok.inj hv).symm, below_node (k + 1) q⟩

theorem below_right_returns {k q : ℕ} (hn : 1 ≤ n)
    (hx : node (k + 1) q < 2 ^ 31 - 1) {r : ℤ}
    (h : Returns (right (node (k + 1) q : ℕ) (some n)) r) :
    ∃ m : ℕ, r = m ∧ Below k (2 * q + 1) m := by
  have hlt : node k (2 * q + 1) < 2 ^ 31 := by
    have hbelow := (below_right (below_node k (2 * q + 1))).1
    have hless := below_lt_two_pow (b := 31) (by omega) hbelow
    omega
  obtain ⟨r', hloop, hr⟩ :=
    rightLoop_below (w := (2 * n - 1 : ℕ)) k (2 * q + 1) hlt
  exact hr r ((right_ends hn hx hloop).unique h)

theorem below_of_child {k q : ℕ} (hn : 1 ≤ n) (hx : node k q < 2 ^ 31 - 1)
    {y : ℤ} (h : Child n (node k q : ℕ) y) : ∃ m : ℕ, y = m ∧ Below k q m := by
  cases k with
  | zero => exact absurd h (not_child_leaf (by omega) y)
  | succ k =>
      rcases h with hleft | hright
      · have heq := hleft.unique (left_node (by omega))
        exact ⟨_, Except.ok.inj heq, (below_left (below_node k (2 * q))).1⟩
      · obtain ⟨m, hm, hbelow⟩ := below_right_returns hn hx hright
        exact ⟨m, hm, (below_right hbelow).1⟩

theorem below_of_descends {k q : ℕ} (hn : 1 ≤ n) (hx : node k q < 2 ^ 31 - 1)
    {y : ℤ} (h : Descends (Child n) (node k q : ℕ) y) :
    ∃ m : ℕ, y = m ∧ Below k q m := by
  induction h with
  | refl => exact ⟨_, rfl, below_node k q⟩
  | tail _ hchild ih =>
      obtain ⟨m, rfl, hm⟩ := ih
      obtain ⟨l, r, rfl⟩ := exists_eq_node m
      have hless := below_lt_two_pow (b := 31) (by omega) hm
      obtain ⟨m', rfl, hm'⟩ := below_of_child hn (by omega) hchild
      exact ⟨m', rfl, below_trans hm hm'⟩

/-- An ancestor leads to its leaf, through the lower ancestors inside the
tree. -/
theorem descends_ancestor {i : ℕ} (hle : n ≤ 2 ^ 30) (hn : 2 ≤ n)
    (hi : i < n) :
    ∀ k, ancestor i k < 2 ^ 31 - 1 →
      Descends (Child n) (ancestor i k : ℕ) (2 * i : ℕ) := by
  intro k
  induction k using Nat.strong_induction_on with
  | _ k ih =>
      intro hk
      cases k with
      | zero =>
          rw [ancestor_zero]
          exact Relation.ReflTransGen.refl
      | succ k =>
          rcases ancestor_child i k with ⟨-, hchild⟩ | ⟨hside, -⟩
          · have hleft : Child n (ancestor i (k + 1) : ℕ) (ancestor i k : ℕ) := by
              rw [hchild]
              exact Or.inl (left_node (hk.trans (by decide)))
            have hlow := (below_left (below_node k (2 * (i / 2 ^ (k + 1))))).2
            rw [← hchild] at hlow
            exact (ih k (by omega) (hlow.trans hk)).head hleft
          · -- the leaf is to the right, so the node is inside the tree
            obtain ⟨j, hj, hjw, -, hright⟩ :=
              TreeMath.child_ancestor hn hi (k := k) (by omega)
            rcases hright with ⟨hleft, -⟩ | ⟨-, hright⟩
            · omega
            · have hchild : Child n (ancestor i (k + 1) : ℕ)
                  (ancestor i j : ℕ) :=
                Or.inr (right_returns hle (by rw [← ancestor]; omega) hright)
              exact (ih j (by omega) (by omega)).head hchild

/-- The leaves that a node leads to are those in its interval. -/
theorem descends_leaf_iff {k q m : ℕ} (hle : n ≤ 2 ^ 30) (hn : 2 ≤ n)
    (hm : m < n) (hx : node k q < 2 ^ 31 - 1) :
    Descends (Child n) (node k q : ℕ) (2 * m : ℕ) ↔ Below k q (2 * m) := by
  constructor
  · intro h
    obtain ⟨m', heq, hbelow⟩ := below_of_descends (by omega) hx h
    rwa [Nat.cast_inj.1 heq]
  · intro h
    have heq := node_eq_ancestor_of_below h
    rw [heq] at hx ⊢
    exact descends_ancestor hle hn hm k hx

/-- `_isInSubtree` tests whether a leaf is in the interval of a node. -/
theorem isInSubtree_returns {k q m : ℕ} (hx : node k q < 2 ^ 31 - 1) :
    ∃ b, Returns (isInSubtree (2 * m : ℕ) (node k q : ℕ)) b ∧
      (b = true ↔ Below k q (2 * m)) := by
  have hlt : node k q < 2 ^ 31 := by omega
  have hleaf := isLeaf_node hlt
  unfold isInSubtree
  by_cases heq : node k q = 2 * m
  · refine ⟨true, ?_, iff_of_true rfl (heq ▸ below_node k q)⟩
    simp only [if_pos (congrArg Nat.cast heq)]
    exact returns_pure _
  · have hne : ((node k q : ℕ) : ℤ) ≠ (2 * m : ℕ) := by exact_mod_cast heq
    cases k with
    | zero =>
        refine ⟨false, ?_, iff_of_false Bool.false_ne_true ?_⟩
        · simp only [if_neg hne, hleaf.2 rfl, if_true]
          exact returns_pure _
        · rintro ⟨hlow, hhigh⟩
          rw [node_zero_left] at heq
          omega
    | succ k =>
        have hinternal : ¬ isLeaf (node (k + 1) q : ℕ) = true :=
          mt hleaf.1 (by omega)
        have hk : k + 1 < 31 := level_lt_of_node_lt (q := q) (by omega)
        have hpow : 2 ^ (k + 1) < 2 ^ 31 :=
          Nat.pow_lt_pow_right (by decide) hk
        have hshift := shiftLeft_natCast (m := 1) (k := k + 1) (by omega)
          (by omega)
        rw [Nat.cast_one, one_mul] at hshift
        refine ⟨decide (((node (k + 1) q : ℕ) : ℤ) - (2 ^ (k + 1) : ℕ) + 1 ≤
            (2 * m : ℕ)) && decide (((2 * m : ℕ) : ℤ) ≤
            (node (k + 1) q : ℕ) + (2 ^ (k + 1) : ℕ) - 1), ?_, ?_⟩
        · simp only [if_neg hne, if_neg hinternal]
          refine (level_node hlt).bind ?_
          simp only [hshift]
          exact returns_pure _
        · have hadd := node_eq_add (k + 1) q
          have hlast : 2 ^ (k + 1 + 1) * (q + 1) =
              2 ^ (k + 1 + 1) * q + 2 * 2 ^ (k + 1) := by ring
          rw [Bool.and_eq_true, decide_eq_true_eq, decide_eq_true_eq, Below]
          omega

/-! ## The leaves below the two children of a node -/

theorem leavesUnder_children {p : ℕ} (hn : 1 ≤ n) (hp : p < 2 ^ 31 - 1)
    {a b : ℤ} (hleft : Returns (left p) a)
    (hright : Returns (right p (some n)) b) :
    leavesUnder n p = leavesUnder n a ∪ leavesUnder n b ∧
      Disjoint (leavesUnder n a) (leavesUnder n b) := by
  obtain ⟨k, q, rfl⟩ := exists_eq_node p
  cases k with
  | zero =>
      exact absurd (Or.inl hleft) (not_child_leaf (n := n) (by omega) a)
  | succ k =>
      have ha := Except.ok.inj (hleft.unique (left_node (by omega)))
      obtain ⟨r, hr, hbelow⟩ := below_right_returns hn hp hright
      constructor
      · refine leavesBelow_of_children ?_ fun x => ⟨?_, ?_⟩
        · rintro ⟨m, -, hm⟩
          have hodd := node_succ_mod_two k q
          rw [Nat.cast_inj] at hm
          omega
        · rintro (hx | hx)
          · exact Or.inl (Except.ok.inj (hx.unique hleft))
          · exact Or.inr (Except.ok.inj (hx.unique hright))
        · rintro (rfl | rfl)
          · exact Or.inl hleft
          · exact Or.inr hright
      · -- the node lies between the leaves of its two children
        rw [Set.disjoint_left]
        rintro y ⟨-, hyleft⟩ ⟨-, hyright⟩
        obtain ⟨l, s, rfl⟩ := exists_eq_node r
        have hless := (below_left (below_node k (2 * q))).2
        have hlast := below_lt_two_pow (b := 31) (by omega) (below_right hbelow).1
        rw [ha] at hyleft
        rw [hr] at hyright
        obtain ⟨m, rfl, hm⟩ := below_of_descends hn (hless.trans hp) hyleft
        obtain ⟨m', heq, hm'⟩ := below_of_descends hn (by omega) hyright
        rw [← Nat.cast_inj.1 heq] at hm'
        exact lt_asymm (below_left hm).2 (below_right (below_trans hbelow hm')).2

/-- A climb splits the leaves below each node that it goes through. -/
theorem splits_otherChild {p : ℕ} (hn : 1 ≤ n) (hp : p < 2 ^ 31 - 1) :
    Splits (OtherChild n) (leavesUnder n) p := by
  rintro x c ⟨a, b, hleft, hright, -, hside⟩
  obtain ⟨hunion, hdisjoint⟩ := leavesUnder_children hn hp hleft hright
  rcases hside with ⟨rfl, rfl⟩ | ⟨rfl, rfl⟩
  · exact ⟨hunion, hdisjoint⟩
  · exact ⟨hunion.trans (Set.union_comm _ _), hdisjoint.symm⟩

theorem leavesUnder_leaf {i : ℕ} (hi : i < n) (hle : n ≤ 2 ^ 30) :
    leavesUnder n (2 * i : ℕ) = {((2 * i : ℕ) : ℤ)} := by
  have hchild := not_child_leaf (n := n) (q := i)
    (by rw [node_zero_left]; omega)
  rw [node_zero_left] at hchild
  exact leavesBelow_of_childless hchild ⟨i, hi, rfl⟩

theorem leavesUnder_root (hle : n ≤ 2 ^ 30) (hn : 2 ≤ n) :
    leavesUnder n (2 ^ rootLevel n - 1 : ℕ) = leaves n := by
  ext y
  refine ⟨And.left, fun hy => ⟨hy, ?_⟩⟩
  obtain ⟨m, hm, rfl⟩ := hy
  have hroot := TreeMath.ancestor_rootLevel hn hm
  have hlt := ancestor_lt hle hn hm (le_refl (rootLevel n))
  rw [← hroot]
  exact descends_ancestor hle hn hm _ hlt

/-! ## The copath of a leaf -/

/-- The sibling of a node is the other child of its parent. -/
theorem Relatives.otherChild {x p a b : ℕ} (h : Relatives n x p a b) :
    OtherChild n p x ((if x = a then b else a : ℕ) : ℤ) := by
  refine ⟨a, b, h.left, h.right, ?_, ?_⟩
  · rw [ne_eq, Nat.cast_inj]
    rintro rfl
    rcases h.child with ⟨hx, hne⟩ | ⟨hx, hne⟩
    · exact hne hx
    · exact hne hx
  · rcases h.child with ⟨rfl, -⟩ | ⟨rfl, hne⟩
    · exact Or.inl ⟨rfl, by rw [if_pos rfl]⟩
    · exact Or.inr ⟨rfl, by rw [if_neg hne]⟩

/-- The siblings of a leaf and its ancestors below the root are what the climb
along its direct path passes. -/
theorem exists_climb {i : ℕ} (hle : n ≤ 2 ^ 30) (hn : 2 ≤ n) (hi : i < n) :
    ∀ d l, l + d = rootLevel n → ancestor i l < 2 * n - 1 →
      ∃ cp, List.Forall₂ (fun x c => Returns (sibling x n) c)
          ((ancestor i l : ℤ) :: pathFrom n i l).dropLast cp ∧
        Climb (OtherChild n) (ancestor i l : ℕ) (pathFrom n i l) cp := by
  intro d
  induction d using Nat.strong_induction_on with
  | _ d ih =>
      intro l hd hw
      by_cases hl : l = rootLevel n
      · rw [hl, pathFrom_rootLevel]
        exact ⟨[], List.Forall₂.nil, Climb.top _⟩
      · obtain ⟨p, a, b, hrel⟩ := exists_relatives hle hn hi (by omega) hw
        obtain ⟨k, hk, hkr, hkw, hparent, hpath⟩ :=
          pathFrom_parent hle hn hi (show l < rootLevel n by omega)
        have hp : p = ancestor i k := by
          have heq := hrel.parent.unique hparent
          exact Nat.cast_inj.1 (Except.ok.inj heq)
        subst hp
        obtain ⟨cp, hsiblings, hclimb⟩ :=
          ih (rootLevel n - k) (by omega) k (by omega) hkw
        rw [hpath, List.dropLast_cons_cons]
        exact ⟨_, List.Forall₂.cons hrel.sibling hsiblings,
          Climb.step hrel.otherChild hclimb⟩

theorem copath_returns {i : ℕ} {cp : List ℤ} (hle : n ≤ 2 ^ 30) (hn : 2 ≤ n)
    (hi : i < n)
    (hsiblings : List.Forall₂ (fun x c => Returns (sibling x n) c)
      (((2 * i : ℕ) : ℤ) :: pathFrom n i 0).dropLast cp) :
    Returns (copath (2 * i : ℕ) n) cp := by
  have hbounds := TreeMath.rootLevel_bounds hn
  obtain ⟨k, -, -, -, -, hpath⟩ :=
    pathFrom_parent hle hn hi (show 0 < rootLevel n by omega)
  refine (directPath_returns hle hn hi).bind ?_
  rw [hpath, List.dropLast_cons_cons, ← hpath] at hsiblings
  exact returns_mapM hsiblings

theorem exists_copathOf {i : ℕ} (hle : n ≤ 2 ^ 30) (hn : 2 ≤ n) (hi : i < n) :
    ∃ dp cp, Returns (directPath (2 * i : ℕ) n) dp ∧
      Returns (copath (2 * i : ℕ) n) cp ∧ CopathOf n i dp cp := by
  obtain ⟨cp, hsiblings, hclimb⟩ :=
    exists_climb hle hn hi (rootLevel n) 0 (by omega)
      (by rw [ancestor_zero]; omega)
  have hlast := pathFrom_getLast hle hn hi (rootLevel n) 0 (by omega)
  rw [ancestor_zero] at hsiblings hclimb hlast
  have hsplits : ∀ p ∈ pathFrom n i 0,
      Splits (OtherChild n) (leavesUnder n) p := by
    intro p hp
    obtain ⟨k, -, hk, -, rfl⟩ := mem_pathFrom (Nat.zero_le _) hp
    exact splits_otherChild (by omega) (ancestor_lt hle hn hi hk)
  refine ⟨_, cp, directPath_returns hle hn hi,
    copath_returns hle hn hi hsiblings, {
      length_eq := hclimb.length_eq
      other := fun j p c x hp hc hx => hclimb.other_getElem? hp hc hx
      disjoint := hclimb.pairwise_disjoint hsplits
      cover := ?_ }⟩
  rw [hclimb.passed_eq_diff hsplits hlast, leavesUnder_root hle hn,
    leavesUnder_leaf hi hle]

/-! ## When the tree grows -/

/-- A leaf keeps its ancestors when the tree grows by one. -/
theorem pathFrom_sublist (hn : 2 ≤ n) {i : ℕ} (hi : i < n) :
    (pathFrom n i 0).Sublist (pathFrom (n + 1) i 0) := by
  have hlevel : rootLevel n ≤ rootLevel (n + 1) := by
    have hbounds := TreeMath.rootLevel_bounds hn
    apply TreeMath.le_rootLevel_of_ancestor_lt (j := i) (by omega)
    rw [TreeMath.ancestor_rootLevel hn hi]
    omega
  refine List.Sublist.map _ ?_
  unfold TreeMath.pathAbove
  have hrange : (List.range' 1 (rootLevel n - 0)).Sublist
      (List.range' 1 (rootLevel (n + 1) - 0)) :=
    List.range'_sublist_right.2 (by omega)
  refine ((hrange.map (ancestor i)).filter _).trans ?_
  apply List.monotone_filter_right
  intro x hx
  rw [decide_eq_true_eq] at hx ⊢
  omega

/-- From `2 ^ 30 + 1` leaves on the width of the tree has its sign bit set, and
no shift of it is zero. -/
theorem root_diverges (hlow : 2 ^ 30 < n) (hhigh : n ≤ 2 ^ 31) :
    Diverges (root n) := by
  have hwidth : nodeWidth n = ((2 * n - 1 : ℕ) : ℤ) := nodeWidth_eq (by omega)
  have hsafe : Safe ((2 * n - 1 : ℕ) : ℤ) := by
    rw [Safe, maxSafeInteger]
    omega
  have hsign : (toInt32 ((2 * n - 1 : ℕ) : ℤ)).msb = true := by
    rw [toInt32_natCast, BitVec.msb_eq_decide, BitVec.toNat_ofNat,
      Nat.mod_eq_of_lt (by omega), decide_eq_true_eq]
    omega
  have hshift : ∀ k : ℕ, shiftRight ((2 * n - 1 : ℕ) : ℤ) k ≠ 0 := by
    intro k
    have hneg := BitVec.toInt_neg_of_msb_true
      ((BitVec.msb_sshiftRight (n := (((k : ℕ) : ℤ) % 32).toNat)).trans hsign)
    exact hneg.ne
  have hloop : Diverges (loopFrom (log2Body ((2 * n - 1 : ℕ) : ℤ)) 0) :=
    diverges_loop (fun _ => True)
      (fun k _ => ⟨k + 1, trivial, fun _ => if_pos (hshift k)⟩) 0 trivial
  intro fuel
  rw [root, if_neg (by omega), if_neg (by omega), hwidth, log2,
    assert_of_safe hsafe, pure_bind, if_neg (by omega), hloop fuel]
  rfl

/-- A direct path in a tree of `2 ^ 30 + 1` leaves never ends. -/
theorem directPath_diverges (hlow : 2 ^ 30 < n) (hhigh : n ≤ 2 ^ 31)
    (leafIndex : ℤ) : Diverges (directPath leafIndex n) := by
  intro fuel
  rw [directPath, if_neg (by omega)]
  rw [root_diverges hlow hhigh fuel]
  rfl

end Trees

/-- Growing a tree of `2 ^ 30` leaves is beyond the 32-bit arithmetic. -/
theorem no_growth_at_limit (i : ℕ) : ¬ TreePartition (2 ^ 30) i := by
  intro h
  obtain ⟨dp, dp', -, hgrown, -⟩ := h.growth
  have hdiverges := directPath_diverges (n := 2 ^ 30 + 1) (by omega) (by omega)
    (2 * i : ℕ)
  exact hdiverges.not_terminates ⟨_, hgrown⟩

/-- The copath partitions the group, and goes on doing so when the tree grows,
below `2 ^ 30` leaves. -/
theorem copath_partition_iff (n i : ℕ) (hn : 1 < n) (hle : n ≤ 2 ^ 30)
    (hi : i < n) : TreePartition n i ↔ n ≠ 2 ^ 30 := by
  constructor
  · rintro h rfl
    exact no_growth_at_limit i h
  · intro hne
    refine {
      copath := exists_copathOf hle hn hi
      subtree := fun m x hm hx => ?_
      growth := ⟨_, _, directPath_returns hle hn hi,
        directPath_returns (by omega) (by omega) (by omega),
        pathFrom_sublist hn hi⟩ }
    obtain ⟨k, q, rfl⟩ := exists_eq_node x
    obtain ⟨b, hreturns, hb⟩ := isInSubtree_returns (m := m) hx
    exact ⟨b, hreturns, hb.trans (descends_leaf_iff hle hn hm hx).symm⟩

theorem copath_partition_three : TreePartition 3 2 ↔ 3 ≠ 2 ^ 30 :=
  copath_partition_iff 3 2 (by decide) (by decide) (by decide)

/-- Not every tree of at most `2 ^ 30` leaves can grow: the direct path of the
first leaf never ends in a tree of `2 ^ 30 + 1` leaves. -/
theorem copath_partition_fails :
    ¬ ∀ n i : ℕ, 1 < n → n ≤ 2 ^ 30 → i < n → TreePartition n i := by
  intro h
  exact no_growth_at_limit 0 (h (2 ^ 30) 0 (by decide) le_rfl (by decide))

end Collabswarm.BeeKEM.TreeMath32
