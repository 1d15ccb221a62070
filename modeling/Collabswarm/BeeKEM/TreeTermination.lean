import Collabswarm.BeeKEM.TreeMath32

/-!
# Tree arithmetic ends in trees of at most `2 ^ 30` leaves

All numbers that occur below the root of such a tree are less than `2 ^ 31 - 1`,
so the 32-bit operators agree with those on natural numbers, and the loops that
climb to the root or walk down from it end where the arithmetic on natural
numbers says.
-/

namespace Collabswarm.BeeKEM.TreeMath32

open Collabswarm.InorderTree
open Bitwise32 Run
open TreeMath (rootLevel)

section Trees

variable {n : ℕ}

/-! ## Sizes -/

theorem rootLevel_le (hle : n ≤ 2 ^ 30) (hn : 2 ≤ n) : rootLevel n ≤ 30 := by
  have hbounds := TreeMath.rootLevel_bounds hn
  have hlt : 2 ^ rootLevel n < 2 ^ 31 := by omega
  have hlevel := (Nat.pow_lt_pow_iff_right (by decide)).1 hlt
  omega

/-- The ancestors of a leaf up to the level of the root. -/
theorem ancestor_lt {i l : ℕ} (hle : n ≤ 2 ^ 30) (hn : 2 ≤ n) (hi : i < n)
    (hl : l ≤ rootLevel n) : ancestor i l < 2 ^ 31 - 1 := by
  have hbounds := TreeMath.rootLevel_bounds hn
  have hroot := rootLevel_le hle hn
  have hdiv : i / 2 ^ l < 2 ^ (rootLevel n - l) := by
    rw [Nat.div_lt_iff_lt_mul (by positivity), ← pow_add,
      Nat.sub_add_cancel hl]
    omega
  have hone := node_add_one l (i / 2 ^ l)
  have hmul : 2 ^ l * (2 * (i / 2 ^ l) + 1) <
      2 ^ l * (2 * 2 ^ (rootLevel n - l)) :=
    Nat.mul_lt_mul_of_pos_left (by omega) (by positivity)
  have hpow : 2 ^ l * (2 * 2 ^ (rootLevel n - l)) = 2 ^ (rootLevel n + 1) := by
    rw [mul_left_comm, ← pow_add, Nat.add_sub_cancel' hl, pow_succ, mul_comm]
  have htop : 2 ^ (rootLevel n + 1) ≤ 2 ^ 31 :=
    Nat.pow_le_pow_right (by decide) (by omega)
  unfold ancestor
  omega

/-- Every node of the tree is an ancestor of one of its leaves. -/
theorem exists_ancestor {x : ℕ} (hn : 2 ≤ n) (hx : x < 2 * n - 1) :
    ∃ i l, i < n ∧ l ≤ rootLevel n ∧ x = ancestor i l := by
  obtain ⟨l, q, rfl⟩ := exists_eq_node x
  have hone := node_add_one l q
  have hexpand : 2 ^ l * (2 * q + 1) = 2 * (2 ^ l * q) + 2 ^ l := by ring
  have hpos : 0 < 2 ^ l := by positivity
  have hancestor : ancestor (2 ^ l * q) l = node l q := by
    rw [ancestor, Nat.mul_div_cancel_left _ hpos]
  refine ⟨2 ^ l * q, l, by omega, ?_, hancestor.symm⟩
  exact TreeMath.le_rootLevel_of_ancestor_lt hn (hancestor ▸ hx)

theorem nodeWidth_eq (hn : 1 ≤ n) : nodeWidth n = ((2 * n - 1 : ℕ) : ℤ) := by
  rw [nodeWidth, if_neg (by omega)]
  omega

/-! ## Steps -/

theorem level_ancestor {i l : ℕ} (hle : n ≤ 2 ^ 30) (hn : 2 ≤ n) (hi : i < n)
    (hl : l ≤ rootLevel n) : Returns (level (ancestor i l)) l :=
  level_node (lt_trans (ancestor_lt hle hn hi hl) (by decide))

theorem log2Loop_ends {x : ℕ} (hx : x ≠ 0) (hlt : x < 2 ^ 31) :
    ∀ d k, k + d = Nat.log2 x + 1 →
      LoopEnds (log2Body x) k (.ok (Nat.log2 x + 1)) := by
  have hlog : Nat.log2 x < 31 := (Nat.log2_lt hx).2 hlt
  have hshift : ∀ k : ℕ, k < 32 →
      (shiftRight x k ≠ 0 ↔ k ≤ Nat.log2 x) := by
    intro k hk
    rw [shiftRight_natCast hlt hk, Nat.le_log2 hx, Nat.shiftRight_eq_div_pow,
      ne_eq, Nat.cast_eq_zero, Nat.div_eq_zero_iff]
    have hpos : 0 < 2 ^ k := by positivity
    omega
  intro d
  induction d with
  | zero =>
      intro k hk
      refine loopEnds_leave ⟨0, fun fuel _ => ?_⟩
      dsimp only
      rw [log2Body, if_neg (by rw [hshift k (by omega)]; omega)]
      rw [show k = Nat.log2 x + 1 by omega]
      rfl
  | succ d ih =>
      intro k hk
      refine loopEnds_continue ⟨0, fun fuel _ => ?_⟩ (ih (k + 1) (by omega))
      dsimp only
      rw [log2Body, if_pos ((hshift k (by omega)).2 (by omega))]
      rfl

theorem log2_returns {x : ℕ} (hx : x ≠ 0) (hlt : x < 2 ^ 31) :
    Returns (log2 x) (Nat.log2 x : ℕ) := by
  obtain ⟨limit, hlimit⟩ := (log2Loop_ends hx hlt _ 0 (zero_add _)).ends
  refine ⟨limit, fun fuel hfuel => ?_⟩
  rw [log2, assert_of_safe (safe_natCast hlt), pure_bind,
    if_neg (by exact_mod_cast hx), hlimit fuel hfuel]
  have hvalue : ((Nat.log2 x + 1 : ℕ) : ℤ) - 1 = (Nat.log2 x : ℕ) := by omega
  change ended (.ok (((Nat.log2 x + 1 : ℕ) : ℤ) - 1)) = _
  rw [hvalue]

theorem root_returns (hle : n ≤ 2 ^ 30) (hn : 2 ≤ n) :
    Returns (root n) (2 ^ rootLevel n - 1 : ℕ) := by
  have hlevel := rootLevel_le hle hn
  have hlog := log2_returns (x := 2 * n - 1) (by omega) (by omega)
  have hpow : 2 ^ rootLevel n < 2 ^ 31 :=
    Nat.pow_lt_pow_right (by decide) (by omega)
  have hshift := shiftLeft_natCast (m := 1) (k := rootLevel n) (by omega)
    (by omega)
  have hpos : 0 < 2 ^ rootLevel n := by positivity
  unfold root
  simp only [if_neg (show n ≠ 0 by omega), if_neg (show n ≠ 1 by omega),
    nodeWidth_eq (show 1 ≤ n by omega)]
  refine hlog.bind ⟨0, fun fuel _ => ?_⟩
  change ended (.ok (shiftLeft 1 (rootLevel n : ℕ) - 1)) = _
  rw [Nat.cast_one, one_mul] at hshift
  rw [hshift, Nat.cast_sub hpos]
  rfl

theorem parentStep_node {k q : ℕ} (hk : k < 30) (hx : node k q < 2 ^ 31) :
    Returns (parentStep (node k q)) (node (k + 1) (q / 2) : ℕ) := by
  have hpow : 2 ^ k < 2 ^ 31 := Nat.pow_lt_pow_right (by decide) (by omega)
  have hor : node k q ||| 2 ^ k < 2 ^ 31 := Nat.or_lt_two_pow hx hpow
  have hshift := shiftLeft_natCast (m := 1) (k := k) (by omega) (by omega)
  rw [Nat.cast_one, one_mul] at hshift
  refine (level_node hx).bind ⟨0, fun fuel _ => ?_⟩
  change ended (.ok (bitAnd (bitOr (node k q : ℕ) (shiftLeft 1 k))
    (bitNot (shiftLeft 1 ((k + 1 : ℕ) : ℤ))))) = _
  rw [hshift, or_natCast hx hpow, and_not_two_pow hor (by omega),
    node_parent_bits]

theorem parentStep_ancestor {i l : ℕ} (hle : n ≤ 2 ^ 30) (hn : 2 ≤ n)
    (hi : i < n) (hl : l < rootLevel n) :
    Returns (parentStep (ancestor i l)) (ancestor i (l + 1) : ℕ) := by
  have hroot := rootLevel_le hle hn
  have hlt := ancestor_lt hle hn hi hl.le
  rw [ancestor_succ]
  exact parentStep_node (by omega) (lt_trans hlt (by decide))

/-! ## Loops -/

/-- Where the loop on natural numbers finds a parent, the loop of the source
ends with it. -/
theorem parentLoop_ends {i : ℕ} (hle : n ≤ 2 ^ 30) (hn : 2 ≤ n) (hi : i < n) :
    ∀ fuel l p, l ≤ rootLevel n →
      TreeMath.parentLoop (2 * n - 1) fuel (ancestor i l) = some p →
      LoopEnds (parentBody (2 * n - 1 : ℕ)) (ancestor i l : ℕ)
        (.ok (p : ℤ)) := by
  intro fuel
  induction fuel with
  | zero =>
      intro l p hl h
      cases h
  | succ fuel ih =>
      intro l p hl h
      rw [TreeMath.parentLoop] at h
      by_cases hlt : ancestor i l < 2 * n - 1
      · rw [if_pos hlt, Option.some.injEq] at h
        subst h
        refine loopEnds_leave ⟨0, fun fuel _ => ?_⟩
        dsimp only
        rw [parentBody, if_neg (by omega)]
        rfl
      · have hne : l ≠ rootLevel n := by
          rintro rfl
          have hbounds := TreeMath.rootLevel_bounds hn
          rw [TreeMath.ancestor_rootLevel hn hi] at hlt
          omega
        rw [if_neg hlt, TreeMath.parentStep_ancestor] at h
        refine loopEnds_continue ?_ (ih (l + 1) p (by omega) h)
        simp only [parentBody, if_pos
          (show ((2 * n - 1 : ℕ) : ℤ) ≤ (ancestor i l : ℕ) by omega)]
        exact (parentStep_ancestor hle hn hi (by omega)).bind (returns_pure _)

theorem parent_returns {i l p : ℕ} (hle : n ≤ 2 ^ 30) (hn : 2 ≤ n)
    (hi : i < n) (hl : l < rootLevel n)
    (h : TreeMath.parent (ancestor i l) n = some p) :
    Returns (parent (ancestor i l : ℕ) n) (p : ℤ) := by
  have hne : ancestor i l ≠ 2 ^ rootLevel n - 1 := by
    rw [ne_eq, TreeMath.ancestor_eq_root_iff hn hi]
    omega
  simp only [TreeMath.parent, TreeMath.root_eq hn, Option.bind_eq_bind,
    Option.bind_some, if_neg hne, TreeMath.nodeWidth_eq hn,
    TreeMath.parentStep_ancestor] at h
  refine (root_returns hle hn).bind ?_
  simp only [if_neg (show ((ancestor i l : ℕ) : ℤ) ≠
    ((2 ^ rootLevel n - 1 : ℕ) : ℤ) by exact_mod_cast hne)]
  refine (parentStep_ancestor hle hn hi hl).bind ?_
  rw [nodeWidth_eq (by omega)]
  exact (parentLoop_ends hle hn hi _ _ _ (by omega) h).ends

theorem parent_root (hle : n ≤ 2 ^ 30) (hn : 2 ≤ n) :
    Throws (parent (2 ^ rootLevel n - 1 : ℕ) n) "Root has no parent" := by
  refine (root_returns hle hn).bind ?_
  simp only [if_true]
  exact throws_throw _

theorem left_returns {k q : ℕ} (hx : node (k + 1) q < 2 * n - 1)
    (hle : n ≤ 2 ^ 30) :
    Returns (left (node (k + 1) q)) (node k (2 * q) : ℕ) :=
  left_node (by omega)

/-- Where the loop on natural numbers clamps a child, the loop of the source
ends with it. -/
theorem rightLoop_ends :
    ∀ fuel x v, x < 2 ^ 31 →
      TreeMath.rightLoop (2 * n - 1) fuel x = some v →
      LoopEnds (rightBody (2 * n - 1 : ℕ)) (x : ℤ) (.ok (v : ℤ)) := by
  intro fuel
  induction fuel with
  | zero =>
      intro x v hx h
      cases h
  | succ fuel ih =>
      intro x v hx h
      rw [TreeMath.rightLoop] at h
      by_cases hlt : x < 2 * n - 1
      · rw [if_pos hlt, Option.some.injEq] at h
        subst h
        refine loopEnds_leave ⟨0, fun fuel _ => ?_⟩
        dsimp only
        rw [rightBody, if_neg (by omega)]
        rfl
      · rw [if_neg hlt] at h
        obtain ⟨l, hl, hv⟩ := Option.bind_eq_some_iff.1 h
        obtain ⟨k, q, rfl⟩ := exists_eq_node x
        cases k with
        | zero =>
            rw [TreeMath.left_node_zero] at hl
            cases hl
        | succ k =>
            rw [TreeMath.left_node_succ, Option.some.injEq] at hl
            subst hl
            have hone := node_add_one (k + 1) q
            have hbelow := (below_left (below_node k (2 * q))).2
            refine loopEnds_continue ?_ (ih _ v (by omega) hv)
            simp only [rightBody, if_pos (show ((2 * n - 1 : ℕ) : ℤ) ≤
              (node (k + 1) q : ℕ) by omega)]
            exact (left_node hx).bind (returns_pure _)

/-- Below `2 ^ 31 - 1`, `right` is its clamping loop from the right child in
the infinite tree. -/
theorem right_ends {k q : ℕ} (hn : 1 ≤ n) (hx : node (k + 1) q < 2 ^ 31 - 1)
    {r : Except String ℤ}
    (h : LoopEnds (rightBody (2 * n - 1 : ℕ)) (node k (2 * q + 1) : ℕ) r) :
    Ends (right (node (k + 1) q : ℕ) (some n)) r := by
  have hlt : node (k + 1) q < 2 ^ 31 := by omega
  have hk : k + 1 < 31 := level_lt_of_node_lt (q := q) (m := 31) (by omega)
  have hpow : 3 * 2 ^ k < 2 ^ 31 := by
    have hle : 2 ^ k ≤ 2 ^ 29 := Nat.pow_le_pow_right (by decide) (by omega)
    omega
  have hshift := shiftLeft_natCast (m := 3) (k := k) (by omega) hpow
  have hvalue : bitXor (node (k + 1) q : ℕ)
      (shiftLeft 3 (((k + 1 : ℕ) : ℤ) - 1)) =
      ((node k (2 * q + 1) : ℕ) : ℤ) := by
    rw [show ((k + 1 : ℕ) : ℤ) - 1 = (k : ℕ) by omega]
    rw [Nat.cast_ofNat] at hshift
    rw [hshift, xor_natCast hlt hpow, node_succ_xor_three_mul_two_pow]
  refine (level_node hlt).bind ?_
  simp only [if_neg (show k + 1 ≠ 0 by omega), hvalue, nodeWidth_eq hn]
  exact h.ends

theorem right_returns {k q v : ℕ} (hle : n ≤ 2 ^ 30)
    (hx : node (k + 1) q < 2 * n - 1)
    (h : TreeMath.right (node (k + 1) q) n = some v) :
    Returns (right (node (k + 1) q : ℕ) (some n)) (v : ℤ) := by
  rw [TreeMath.right_node_succ, TreeMath.nodeWidth, if_neg (by omega)] at h
  have hbelow := (below_right (below_node k (2 * q + 1))).1
  have hless := below_lt_two_pow (b := 31) (by omega) hbelow
  exact right_ends (by omega) (by omega)
    (rightLoop_ends _ _ _ (by omega) h)

/-! ## Parents and children -/

/-- The parent of a node below the root, and its two children. -/
structure ParentOf (n x p a b : ℕ) : Prop where
  parent : TreeMath.parent x n = some p
  parent_lt : p < 2 * n - 1
  internal : ∃ k q, p = node (k + 1) q
  level_lt : TreeMath.level x < TreeMath.level p
  left : TreeMath.left p = some a
  right : TreeMath.right p n = some b
  left_lt : a < p
  lt_right : p < b
  right_lt : b < 2 * n - 1
  child : x = a ∨ x = b

theorem exists_parentOf {i l : ℕ} (hn : 2 ≤ n) (hi : i < n)
    (hl : l < rootLevel n) (hlw : ancestor i l < 2 * n - 1) :
    ∃ p a b, ParentOf n (ancestor i l) p a b := by
  obtain ⟨k, hk, -, hkw, hgap, hparent, -⟩ :=
    TreeMath.parent_ancestor hn hi hl
  obtain ⟨k, rfl⟩ : ∃ k', k = k' + 1 := ⟨k - 1, by omega⟩
  obtain ⟨j, hj, hjw, hcut, hchild⟩ := TreeMath.child_ancestor hn hi hkw
  -- the next lower ancestor inside the tree is the node itself
  have hjl : j = l := by
    by_contra hne
    rcases Nat.lt_or_gt_of_ne hne with hlt | hgt
    · have := hcut l hlt (by omega)
      omega
    · have := hgap j hgt (by omega)
      omega
  subst hjl
  obtain ⟨m, hm, hmw, hright⟩ :=
    TreeMath.right_node_eq hn (k := k) (q := i / 2 ^ (k + 1)) hkw
  set b := ancestor (2 ^ k * (2 * (i / 2 ^ (k + 1)) + 1)) m with hb
  have hbelow : Below k (2 * (i / 2 ^ (k + 1)) + 1) b := by
    have hup := below_ancestor_of_le hm
      (below_node m (2 ^ k * (2 * (i / 2 ^ (k + 1)) + 1) / 2 ^ m))
    rwa [Nat.mul_div_cancel_left _ (by positivity)] at hup
  have hleft : TreeMath.left (ancestor i (k + 1)) =
      some (node k (2 * (i / 2 ^ (k + 1)))) := by
    rw [ancestor, TreeMath.left_node_succ]
  refine ⟨ancestor i (k + 1), _, b, {
    parent := hparent
    parent_lt := hkw
    internal := ⟨k, _, rfl⟩
    level_lt := ?_
    left := hleft
    right := hright
    left_lt := (below_left (below_node k _)).2
    lt_right := (below_right hbelow).2
    right_lt := hmw
    child := ?_ }⟩
  · rw [ancestor, TreeMath.level_node, ancestor, TreeMath.level_node]
    exact hk
  · rcases hchild with ⟨-, hthis⟩ | ⟨-, hthis⟩
    · rw [hleft, Option.some.injEq] at hthis
      exact Or.inl hthis.symm
    · rw [ancestor, hright, Option.some.injEq] at hthis
      exact Or.inr hthis.symm

/-- The functions of the source at a node whose parent and children these
are. -/
theorem ParentOf.returns {x p a b : ℕ} (h : ParentOf n x p a b)
    (hle : n ≤ 2 ^ 30) (hx : ∃ i l, i < n ∧ l < rootLevel n ∧ x = ancestor i l)
    (hn : 2 ≤ n) :
    Returns (TreeMath32.parent x n) (p : ℤ) ∧
      Returns (TreeMath32.left p) (a : ℤ) ∧
      Returns (TreeMath32.right p (some n)) (b : ℤ) := by
  obtain ⟨i, l, hi, hl, rfl⟩ := hx
  obtain ⟨k, q, rfl⟩ := h.internal
  have hleft := h.left
  rw [TreeMath.left_node_succ, Option.some.injEq] at hleft
  refine ⟨parent_returns hle hn hi hl h.parent, ?_,
    right_returns hle h.parent_lt h.right⟩
  rw [← hleft]
  exact left_returns h.parent_lt hle

theorem sibling_returns {x p a b : ℕ}
    (hparent : Returns (TreeMath32.parent x n) (p : ℤ))
    (hleft : Returns (TreeMath32.left p) (a : ℤ))
    (hright : Returns (TreeMath32.right p (some n)) (b : ℤ)) :
    Returns (sibling x n) ((if a = x then b else a : ℕ) : ℤ) := by
  refine hparent.bind (hleft.bind ?_)
  by_cases ha : a = x
  · simp only [ha, if_true]
    exact hright
  · simp only [if_neg ha, if_neg (show (a : ℤ) ≠ x by exact_mod_cast ha)]
    exact hleft

/-! ## Direct paths -/

/-- The level of the first number is below that of the second. -/
def LevelLt (x y : ℤ) : Prop :=
  ∃ k m, Returns (level x) k ∧ Returns (level y) m ∧ k < m

/-- The ancestors of a leaf inside the tree, above this level. -/
def pathFrom (n i l : ℕ) : List ℤ :=
  (TreeMath.pathAbove (2 * n - 1) i l (rootLevel n - l)).map Nat.cast

theorem pathFrom_rootLevel (n i : ℕ) : pathFrom n i (rootLevel n) = [] := by
  simp [pathFrom, TreeMath.pathAbove]

theorem mem_pathFrom {i l : ℕ} {y : ℤ} (hl : l ≤ rootLevel n)
    (hy : y ∈ pathFrom n i l) :
    ∃ k, l < k ∧ k ≤ rootLevel n ∧ ancestor i k < 2 * n - 1 ∧
      y = (ancestor i k : ℕ) := by
  obtain ⟨x, hx, rfl⟩ := List.mem_map.1 hy
  obtain ⟨k, hk, hkr, hkw, rfl⟩ := TreeMath.mem_pathAbove.1 hx
  exact ⟨k, hk, by omega, hkw, rfl⟩

/-- The path goes on with the parent, which may be several levels up. -/
theorem pathFrom_parent {i l : ℕ} (hle : n ≤ 2 ^ 30) (hn : 2 ≤ n) (hi : i < n)
    (hl : l < rootLevel n) :
    ∃ k, l < k ∧ k ≤ rootLevel n ∧ ancestor i k < 2 * n - 1 ∧
      Returns (parent (ancestor i l : ℕ) n) (ancestor i k : ℕ) ∧
      pathFrom n i l = (ancestor i k : ℤ) :: pathFrom n i k := by
  obtain ⟨k, hk, hkr, hkw, -, hparent, hpath⟩ :=
    TreeMath.parent_ancestor hn hi hl
  refine ⟨k, hk, hkr, hkw, parent_returns hle hn hi hl hparent, ?_⟩
  rw [pathFrom, hpath, List.map_cons]
  rfl

/-- From an ancestor of a leaf the loop of `directPath` climbs to the root. -/
theorem directPathLoop_ends {i : ℕ} (hle : n ≤ 2 ^ 30) (hn : 2 ≤ n)
    (hi : i < n) :
    ∀ d l acc, l + d = rootLevel n →
      LoopEnds (directPathBody n (2 ^ rootLevel n - 1 : ℕ))
        ((ancestor i l : ℕ), acc) (.ok (acc ++ pathFrom n i l)) := by
  intro d
  induction d using Nat.strong_induction_on with
  | _ d ih =>
      intro l acc hd
      by_cases hl : l = rootLevel n
      · have hroot := (TreeMath.ancestor_eq_root_iff (n := n) hn hi).2 hl
        have hnil : pathFrom n i l = [] := by rw [hl, pathFrom_rootLevel]
        refine loopEnds_leave ⟨0, fun fuel _ => ?_⟩
        simp [directPathBody, hroot, hnil]
        rfl
      · have hne : ancestor i l ≠ 2 ^ rootLevel n - 1 :=
          mt (TreeMath.ancestor_eq_root_iff hn hi).1 hl
        obtain ⟨k, hk, hkr, -, hparent, hpath⟩ :=
          pathFrom_parent hle hn hi (show l < rootLevel n by omega)
        have hloop := ih (rootLevel n - k) (by omega) k
          (acc ++ [(ancestor i k : ℤ)]) (by omega)
        rw [List.append_assoc, List.singleton_append, ← hpath] at hloop
        refine loopEnds_continue ?_ hloop
        simp only [directPathBody, ne_eq, if_pos
          (show ((ancestor i l : ℕ) : ℤ) ≠ ((2 ^ rootLevel n - 1 : ℕ) : ℤ) by
            exact_mod_cast hne)]
        exact hparent.bind (returns_pure _)

/-- The direct path of a leaf lists its ancestors inside the tree. -/
theorem directPath_returns {i : ℕ} (hle : n ≤ 2 ^ 30) (hn : 2 ≤ n)
    (hi : i < n) :
    Returns (directPath (2 * i : ℕ) n) (pathFrom n i 0) := by
  have hloop := directPathLoop_ends hle hn hi (rootLevel n) 0 [] (by omega)
  rw [ancestor_zero, List.nil_append] at hloop
  unfold directPath
  simp only [if_neg (show ¬ n ≤ 1 by omega)]
  exact (root_returns hle hn).bind hloop.ends

/-- Along the path the levels go up. -/
theorem pathFrom_levels {i : ℕ} (hle : n ≤ 2 ^ 30) (hn : 2 ≤ n) (hi : i < n) :
    ∀ d l, l + d = rootLevel n →
      ((ancestor i l : ℤ) :: pathFrom n i l).Pairwise LevelLt := by
  intro d
  induction d using Nat.strong_induction_on with
  | _ d ih =>
      intro l hd
      refine List.pairwise_cons.2 ⟨fun y hy => ?_, ?_⟩
      · obtain ⟨m, hm, hmr, -, rfl⟩ := mem_pathFrom (by omega) hy
        exact ⟨l, m, level_ancestor hle hn hi (by omega),
          level_ancestor hle hn hi hmr, hm⟩
      · by_cases hl : l = rootLevel n
        · rw [hl, pathFrom_rootLevel]
          exact List.Pairwise.nil
        · obtain ⟨k, hk, hkr, -, -, hpath⟩ :=
            pathFrom_parent hle hn hi (show l < rootLevel n by omega)
          rw [hpath]
          exact ih (rootLevel n - k) (by omega) k (by omega)

/-- The path ends with the root. -/
theorem pathFrom_getLast {i : ℕ} (hle : n ≤ 2 ^ 30) (hn : 2 ≤ n) (hi : i < n) :
    ∀ d l, l + d = rootLevel n →
      ((ancestor i l : ℤ) :: pathFrom n i l).getLast? =
        some ((2 ^ rootLevel n - 1 : ℕ) : ℤ) := by
  intro d
  induction d using Nat.strong_induction_on with
  | _ d ih =>
      intro l hd
      by_cases hl : l = rootLevel n
      · rw [hl, pathFrom_rootLevel, TreeMath.ancestor_rootLevel hn hi]
        rfl
      · obtain ⟨k, hk, hkr, -, -, hpath⟩ :=
          pathFrom_parent hle hn hi (show l < rootLevel n by omega)
        rw [hpath, List.getLast?_cons_cons]
        exact ih (rootLevel n - k) (by omega) k (by omega)

/-! ## The arithmetic of a tree -/

/-- A node below the root with its parent and the children of its parent, all
of them inside the tree. -/
structure Relatives (n x p a b : ℕ) : Prop where
  parent : Returns (TreeMath32.parent x n) (p : ℤ)
  parent_lt : p < 2 * n - 1
  levelLt : LevelLt x p
  left : Returns (TreeMath32.left p) (a : ℤ)
  left_lt : a < 2 * n - 1
  right : Returns (TreeMath32.right p (some n)) (b : ℤ)
  right_lt : b < 2 * n - 1
  child : Xor (x = a) (x = b)
  sibling : Returns (TreeMath32.sibling x n) ((if x = a then b else a : ℕ) : ℤ)

/-- What the functions come to at a node of a tree with this root. -/
structure NodeArithmetic (n r x : ℕ) : Prop where
  level : ∃ k, k < 2 * n - 1 ∧ Returns (TreeMath32.level x) k
  leaf : isLeaf x = true →
    Throws (left x) "Leaves have no children" ∧
      Throws (right x (some n)) "Leaves have no children"
  internal : isLeaf x = false →
    ∃ a b : ℕ, a < 2 * n - 1 ∧ b < 2 * n - 1 ∧ Returns (left x) (a : ℤ) ∧
      Returns (right x (some n)) (b : ℤ)
  root : x = r →
    Throws (parent x n) "Root has no parent" ∧
      Throws (sibling x n) "Root has no parent"
  below : x ≠ r → ∃ p a b, Relatives n x p a b

theorem isLeaf_node {k q : ℕ} (hx : node k q < 2 ^ 31) :
    isLeaf (node k q : ℕ) = true ↔ k = 0 := by
  rw [isLeaf, and_one, getLsbD_natCast, testBit_node]
  rcases Nat.eq_zero_or_pos k with rfl | hk
  · simp
  · simp [hk, Nat.pos_iff_ne_zero.1 hk]

theorem right_node_zero {q : ℕ} (hx : node 0 q < 2 ^ 31)
    (numLeaves : Option ℕ) :
    Throws (right (node 0 q) numLeaves) "Leaves have no children" :=
  (level_node hx).bind ⟨0, fun _ _ => rfl⟩

theorem exists_relatives {i l : ℕ} (hle : n ≤ 2 ^ 30) (hn : 2 ≤ n)
    (hi : i < n) (hl : l < rootLevel n) (hw : ancestor i l < 2 * n - 1) :
    ∃ p a b, Relatives n (ancestor i l) p a b := by
  obtain ⟨p, a, b, h⟩ := exists_parentOf hn hi hl hw
  obtain ⟨hparent, hleft, hright⟩ := h.returns hle ⟨i, l, hi, hl, rfl⟩ hn
  have hsibling := sibling_returns hparent hleft hright
  have hlt := h.left_lt
  have hgt := h.lt_right
  have hpw := h.parent_lt
  obtain ⟨k, q, hp⟩ := h.internal
  have hlevel : Returns (TreeMath32.level p) (TreeMath.level p) := by
    rw [hp, TreeMath.level_node]
    exact level_node (by omega)
  have hlow : Returns (TreeMath32.level (ancestor i l))
      (TreeMath.level (ancestor i l)) := by
    rw [ancestor, TreeMath.level_node]
    exact level_ancestor hle hn hi hl.le
  refine ⟨p, a, b, {
    parent := hparent
    parent_lt := hpw
    levelLt := ⟨_, _, hlow, hlevel, h.level_lt⟩
    left := hleft
    left_lt := hlt.trans hpw
    right := hright
    right_lt := h.right_lt
    child := ?_
    sibling := ?_ }⟩
  · rcases h.child with hx | hx
    · exact Or.inl ⟨hx, by omega⟩
    · exact Or.inr ⟨hx, by omega⟩
  · simpa only [eq_comm] using hsibling

/-- In a tree with more than one leaf. -/
theorem nodeArithmetic_of_two_le {x : ℕ} (hle : n ≤ 2 ^ 30) (hn : 2 ≤ n)
    (hx : x < 2 * n - 1) : NodeArithmetic n (2 ^ rootLevel n - 1) x := by
  obtain ⟨i, l, hi, hl, rfl⟩ := exists_ancestor hn hx
  have hlt : ancestor i l < 2 ^ 31 :=
    lt_trans (ancestor_lt hle hn hi hl) (by decide)
  have hwidth := TreeMath.rootLevel_lt_width hn
  have hleaf := isLeaf_node (k := l) (q := i / 2 ^ l) hlt
  refine {
    level := ⟨l, by omega, level_ancestor hle hn hi hl⟩
    leaf := fun h => ?_
    internal := fun h => ?_
    root := fun h => ?_
    below := fun h => ?_ }
  · obtain rfl := hleaf.1 h
    exact ⟨left_node_zero hlt, right_node_zero hlt _⟩
  · obtain ⟨k, rfl⟩ : ∃ k, l = k + 1 := by
      refine ⟨l - 1, ?_⟩
      by_contra hne
      have hzero := hleaf.2 (by omega)
      exact Bool.false_ne_true (h.symm.trans hzero)
    obtain ⟨m, -, hmw, hright⟩ :=
      TreeMath.right_node_eq hn (k := k) (q := i / 2 ^ (k + 1)) hx
    have hless := (below_left (below_node k (2 * (i / 2 ^ (k + 1))))).2
    exact ⟨_, _, hless.trans hx, hmw, left_returns hx hle,
      right_returns hle hx hright⟩
  · have hparent := parent_root hle hn
    rw [h]
    exact ⟨hparent, hparent.bind _⟩
  · have hne : l ≠ rootLevel n :=
      mt (TreeMath.ancestor_eq_root_iff hn hi).2 h
    exact exists_relatives hle hn hi (by omega) hx

/-- The only leaf of a tree is its root. -/
theorem nodeArithmetic_one : NodeArithmetic 1 0 0 := by
  have hlevel : Returns (level ((0 : ℕ) : ℤ)) 0 := by
    have h := level_node (k := 0) (q := 0) (by decide)
    rwa [node_zero_left] at h
  have hparent : Throws (parent ((0 : ℕ) : ℤ) 1) "Root has no parent" :=
    ⟨0, fun _ _ => rfl⟩
  exact {
    level := ⟨0, by decide, hlevel⟩
    leaf := fun _ => ⟨hlevel.bind (throws_throw _), hlevel.bind (throws_throw _)⟩
    internal := fun h => absurd h (by decide)
    root := fun _ => ⟨hparent, hparent.bind _⟩
    below := fun h => absurd rfl h }

end Trees

/-- In a tree with at most `2 ^ 30` leaves every function ends inside the tree,
parents and children are inverse to each other, and direct paths climb to the
root. -/
theorem tree_arithmetic {n : ℕ} (hpos : 1 ≤ n) (hle : n ≤ 2 ^ 30) :
    ∃ r : ℕ, r < 2 * n - 1 ∧ Returns (root n) (r : ℤ) ∧
      (∀ x, x < 2 * n - 1 → NodeArithmetic n r x) ∧
      ∀ i, i < n → ∃ path : List ℤ,
        Returns (directPath (2 * i : ℕ) n) path ∧
        (((2 * i : ℕ) : ℤ) :: path).Pairwise LevelLt ∧
        (n = 1 → path = []) ∧ (n ≠ 1 → path.getLast? = some (r : ℤ)) := by
  rcases eq_or_ne n 1 with rfl | hne
  · refine ⟨0, by decide, returns_pure _, fun x hx => ?_, fun i hi => ?_⟩
    · obtain rfl : x = 0 := by omega
      exact nodeArithmetic_one
    · exact ⟨[], returns_pure _, List.pairwise_singleton _ _, fun _ => rfl,
        fun h => absurd rfl h⟩
  have hn : 2 ≤ n := by omega
  have hbounds := TreeMath.rootLevel_bounds hn
  refine ⟨2 ^ rootLevel n - 1, by omega, root_returns hle hn,
    fun x hx => nodeArithmetic_of_two_le hle hn hx, fun i hi => ?_⟩
  have hpairs := pathFrom_levels hle hn hi (rootLevel n) 0 (by omega)
  have hlast := pathFrom_getLast hle hn hi (rootLevel n) 0 (by omega)
  rw [ancestor_zero] at hpairs hlast
  refine ⟨pathFrom n i 0, directPath_returns hle hn hi, hpairs,
    fun h => absurd h hne, fun _ => ?_⟩
  -- a leaf is even and the root of such a tree odd, so the path is not empty
  rcases hpath : pathFrom n i 0 with - | ⟨y, rest⟩
  · rw [hpath, List.getLast?_singleton, Option.some.injEq, Nat.cast_inj]
      at hlast
    have hodd := TreeMath.root_odd hn (TreeMath.root_eq hn)
    omega
  · rwa [hpath, List.getLast?_cons_cons] at hlast

theorem tree_arithmetic_three :
    ∃ r : ℕ, r < 2 * 3 - 1 ∧ Returns (root 3) (r : ℤ) ∧
      (∀ x, x < 2 * 3 - 1 → NodeArithmetic 3 r x) ∧
      ∀ i, i < 3 → ∃ path : List ℤ,
        Returns (directPath (2 * i : ℕ) 3) path ∧
        (((2 * i : ℕ) : ℤ) :: path).Pairwise LevelLt ∧
        (3 = 1 → path = []) ∧ (3 ≠ 1 → path.getLast? = some (r : ℤ)) :=
  tree_arithmetic (by decide) (by decide)

/-- The direct path of the only leaf is empty, so not every direct path ends
with the root. -/
theorem directPath_only_leaf :
    ¬ ∀ n : ℕ, 1 ≤ n → n ≤ 2 ^ 30 → ∀ i, i < n → ∃ (r : ℤ) (path : List ℤ),
      Returns (root n) r ∧ Returns (directPath (2 * i : ℕ) n) path ∧
        path.getLast? = some r := by
  intro h
  obtain ⟨r, path, -, hpath, hlast⟩ := h 1 le_rfl (by decide) 0 one_pos
  have hnil : Returns (directPath (2 * 0 : ℕ) 1) [] := returns_pure _
  obtain rfl := Except.ok.inj (Ends.unique hpath hnil)
  exact absurd hlast (by simp)

end Collabswarm.BeeKEM.TreeMath32
