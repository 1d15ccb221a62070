import Collabswarm.Support.InorderTree
import Collabswarm.Support.Lists

/-!
# Tree arithmetic of the BeeKEM ratchet tree

`tree-math.ts` numbers the nodes of a left-balanced binary tree in order:
leaves are even, internal nodes odd, and a node's level is the number of its
trailing one bits.  The functions below are the source's, on natural numbers;
indices stay below `2 ^ 31`, where the 32-bit operators of the source agree
with those on naturals.  `none` is a thrown error.  The two loops that walk
towards the root need not end when they are started outside the tree, so they
carry fuel, and running out of it is a throw as well.

The second half relates the loops to the infinite tree: the direct path of the
leaf at position `i` is the list of its ancestors whose index is below the node
width, and the child on the leaf's side of such an ancestor is the next lower
one.
-/

namespace Collabswarm.BeeKEM.TreeMath

open Collabswarm.InorderTree

/-- Returns true if the node index is a leaf (even index). -/
def isLeaf (index : ℕ) : Bool := index &&& 1 == 0

/-- Returns true if the node index is an internal node (odd index). -/
def isInternal (index : ℕ) : Bool := index &&& 1 == 1

/-- The loop of `level`, counting trailing one bits from bit `k` on. -/
def levelLoop (index : ℕ) : ℕ → ℕ → ℕ
  | 0, k => k
  | fuel + 1, k =>
      if (index >>> k) &&& 1 = 1 then levelLoop index fuel (k + 1) else k

/-- Level of a node in the tree; leaves are level 0. -/
def level (index : ℕ) : ℕ :=
  if index &&& 1 = 0 then 0 else levelLoop index (index + 1) 0

/-- Total node count for a tree with `numLeaves` leaves. -/
def nodeWidth (numLeaves : ℕ) : ℕ :=
  if numLeaves = 0 then 0 else 2 * numLeaves - 1

/-- The loop of `log2`. -/
def log2Loop (x : ℕ) : ℕ → ℕ → ℕ
  | 0, k => k
  | fuel + 1, k => if x >>> k ≠ 0 then log2Loop x fuel (k + 1) else k

/-- Floor of the binary logarithm, with value 0 at 0. -/
def log2 (x : ℕ) : ℕ :=
  if x = 0 then 0 else log2Loop x (x + 1) 0 - 1

/-- Left child of an internal node; throws on a leaf. -/
def left (index : ℕ) : Option ℕ :=
  match level index with
  | 0 => none
  | k + 1 => some (index ^^^ (1 <<< k))

/-- The clamping loop of `right`: walk down to the left while out of range. -/
def rightLoop (w : ℕ) : ℕ → ℕ → Option ℕ
  | 0, _ => none
  | fuel + 1, r =>
      if r < w then some r else (left r).bind (rightLoop w fuel)

/-- Right child of an internal node, clamped to the rightmost valid node;
throws on a leaf. -/
def right (index numLeaves : ℕ) : Option ℕ :=
  match level index with
  | 0 => none
  | k + 1 =>
      rightLoop (nodeWidth numLeaves) (k + 1) (index ^^^ (3 <<< k))

/-- One step of the parent computation. -/
def parentStep (index : ℕ) : ℕ :=
  let k := level index
  (index ||| 1 <<< k) ^^^ ((index ||| 1 <<< k) &&& 1 <<< (k + 1))

/-- Root node index for a tree with `numLeaves` leaves; throws on an empty
tree. -/
def root (numLeaves : ℕ) : Option ℕ :=
  if numLeaves = 0 then none
  else if numLeaves = 1 then some 0
  else some ((1 <<< log2 (nodeWidth numLeaves)) - 1)

/-- The loop of `parent`: climb until the index is a node of the tree. -/
def parentLoop (w : ℕ) : ℕ → ℕ → Option ℕ
  | 0, _ => none
  | fuel + 1, p => if p < w then some p else parentLoop w fuel (parentStep p)

/-- Parent of a node in a tree with `numLeaves` leaves; throws on the root. -/
def parent (index numLeaves : ℕ) : Option ℕ := do
  let r ← root numLeaves
  if index = r then none
  else
    let w := nodeWidth numLeaves
    parentLoop w w (parentStep index)

/-- Sibling of a node: the other child of the same parent. -/
def sibling (index numLeaves : ℕ) : Option ℕ := do
  let p ← parent index numLeaves
  let l ← left p
  if l = index then right p numLeaves else some l

/-- The loop of `directPath`, collecting parents until the root `r`. -/
def directPathLoop (numLeaves r : ℕ) : ℕ → ℕ → Option (List ℕ)
  | 0, _ => none
  | fuel + 1, current =>
      if current = r then some []
      else do
        let p ← parent current numLeaves
        let rest ← directPathLoop numLeaves r fuel p
        some (p :: rest)

/-- Direct path from a leaf to the root, without the leaf, with the root. -/
def directPath (leafIndex numLeaves : ℕ) : Option (List ℕ) :=
  if numLeaves ≤ 1 then some []
  else do
    let r ← root numLeaves
    directPathLoop numLeaves r (nodeWidth numLeaves) leafIndex

/-- Copath: siblings of the leaf and of the nodes of its direct path below the
root. -/
def copath (leafIndex numLeaves : ℕ) : Option (List ℕ) := do
  let dp ← directPath leafIndex numLeaves
  (leafIndex :: dp.dropLast).mapM (sibling · numLeaves)

/-- Convert leaf position to tree node index. -/
def leafToNodeIndex (leafPosition : ℕ) : ℕ := leafPosition * 2

/-- Convert tree node index to leaf position; throws on an internal node. -/
def nodeToLeafIndex (nodeIndex : ℕ) : Option ℕ :=
  if isLeaf nodeIndex then some (nodeIndex >>> 1) else none

/-! ## Nodes of the infinite tree -/

theorem isLeaf_iff {x : ℕ} : isLeaf x = true ↔ x % 2 = 0 := by
  simp [isLeaf, Nat.and_one_is_mod]

theorem isInternal_iff {x : ℕ} : isInternal x = true ↔ x % 2 = 1 := by
  simp [isInternal, Nat.and_one_is_mod]

theorem shiftRight_and_one (x k : ℕ) :
    (x >>> k) &&& 1 = 1 ↔ x.testBit k = true := by
  rw [Nat.testBit_eq_decide_div_mod_eq, Nat.and_one_is_mod,
    Nat.shiftRight_eq_div_pow]
  simp

theorem levelLoop_eq {x k : ℕ} (hzero : x.testBit k = false)
    (hones : ∀ j, j < k → x.testBit j = true) :
    ∀ fuel j, j ≤ k → k < j + fuel → levelLoop x fuel j = k := by
  intro fuel
  induction fuel with
  | zero =>
      intro j hj hfuel
      omega
  | succ fuel ih =>
      intro j hj hfuel
      rw [levelLoop, if_congr (shiftRight_and_one x j) rfl rfl]
      rcases Nat.lt_or_eq_of_le hj with hlt | rfl
      · rw [if_pos (hones j hlt)]
        exact ih (j + 1) hlt (by omega)
      · rw [hzero]
        rfl

@[simp] theorem level_node (k q : ℕ) : level (node k q) = k := by
  cases k with
  | zero => simp [level, Nat.and_one_is_mod]
  | succ k =>
      have hodd := node_succ_mod_two k q
      have hk : k + 1 < 2 ^ (k + 1) := Nat.lt_two_pow_self
      have hone := node_add_one (k + 1) q
      have hle : 2 ^ (k + 1) ≤ 2 ^ (k + 1) * (2 * q + 1) :=
        Nat.le_mul_of_pos_right _ (by omega)
      rw [level, if_neg (by rw [Nat.and_one_is_mod]; omega)]
      apply levelLoop_eq
      · simp [testBit_node]
      · intro j hj
        simp [testBit_node, hj, show j < k + 1 + 1 by omega]
      · omega
      · omega

@[simp] theorem left_node_succ (k q : ℕ) :
    left (node (k + 1) q) = some (node k (2 * q)) := by
  simp [left, Nat.one_shiftLeft, node_succ_xor_two_pow]

theorem left_node_zero (q : ℕ) : left (node 0 q) = none := by
  rw [left, level_node]

theorem right_node_succ (k q n : ℕ) :
    right (node (k + 1) q) n =
      rightLoop (nodeWidth n) (k + 1) (node k (2 * q + 1)) := by
  simp [right, Nat.shiftLeft_eq, node_succ_xor_three_mul_two_pow]

@[simp] theorem parentStep_node (k q : ℕ) :
    parentStep (node k q) = node (k + 1) (q / 2) := by
  simp only [parentStep, level_node, Nat.one_shiftLeft, node_parent_bits]

@[simp] theorem parentStep_ancestor (i k : ℕ) :
    parentStep (ancestor i k) = ancestor i (k + 1) := by
  rw [ancestor, parentStep_node, ancestor_succ]

theorem log2Loop_eq {x : ℕ} (hx : x ≠ 0) :
    ∀ fuel k, k ≤ Nat.log2 x + 1 → Nat.log2 x + 1 < k + fuel →
      log2Loop x fuel k = Nat.log2 x + 1 := by
  intro fuel
  induction fuel with
  | zero =>
      intro k hk hfuel
      omega
  | succ fuel ih =>
      intro k hk hfuel
      have hiff : x >>> k ≠ 0 ↔ k ≤ Nat.log2 x := by
        rw [Nat.shiftRight_eq_div_pow, Nat.le_log2 hx, ne_eq,
          Nat.div_eq_zero_iff]
        have hpos : 0 < 2 ^ k := by positivity
        omega
      rw [log2Loop, if_congr hiff rfl rfl]
      rcases Nat.lt_or_eq_of_le hk with hlt | rfl
      · rw [if_pos (by omega)]
        exact ih (k + 1) hlt (by omega)
      · rw [if_neg (by omega)]

theorem log2_eq (x : ℕ) : log2 x = Nat.log2 x := by
  rcases Nat.eq_zero_or_pos x with rfl | hx
  · simp [log2]
  · have hlt : Nat.log2 x < x :=
      lt_of_lt_of_le Nat.lt_two_pow_self (Nat.log2_self_le (by omega))
    rw [log2, if_neg (by omega), log2Loop_eq (by omega) (x + 1) 0 (by omega)
      (by omega)]
    omega

/-! ## The root of a tree with at least two leaves -/

/-- Level of the root of a tree with `n` leaves. -/
def rootLevel (n : ℕ) : ℕ := Nat.log2 (2 * n - 1)

theorem nodeWidth_eq {n : ℕ} (hn : 2 ≤ n) : nodeWidth n = 2 * n - 1 := by
  rw [nodeWidth, if_neg (by omega)]

theorem root_eq {n : ℕ} (hn : 2 ≤ n) : root n = some (2 ^ rootLevel n - 1) := by
  rw [root, if_neg (by omega), if_neg (by omega), nodeWidth_eq hn, log2_eq,
    Nat.one_shiftLeft, rootLevel]

/-- The leaves fit under the root, and half of them do not fit under its left
child. -/
theorem rootLevel_bounds {n : ℕ} (hn : 2 ≤ n) :
    1 ≤ rootLevel n ∧ 2 ^ rootLevel n ≤ 2 * n - 1 ∧
      n ≤ 2 ^ rootLevel n := by
  have hlow : 2 ^ rootLevel n ≤ 2 * n - 1 := Nat.log2_self_le (by omega)
  have hhigh : 2 * n - 1 < 2 ^ (rootLevel n + 1) := Nat.lt_log2_self
  have hdouble : 2 ^ (rootLevel n + 1) = 2 * 2 ^ rootLevel n := by ring
  refine ⟨?_, hlow, by omega⟩
  by_contra hzero
  have hlevel : rootLevel n = 0 := by omega
  rw [hlevel] at hdouble hhigh
  omega

theorem ancestor_rootLevel {n i : ℕ} (hn : 2 ≤ n) (hi : i < n) :
    ancestor i (rootLevel n) = 2 ^ rootLevel n - 1 := by
  have hbounds := rootLevel_bounds hn
  exact ancestor_eq_of_lt_two_pow (by omega)

/-! ## Direct paths -/

/-- The ancestors of leaf `i` of the `m` levels above `l` that are nodes of a
tree of width `w`. -/
def pathAbove (w i l m : ℕ) : List ℕ :=
  ((List.range' (l + 1) m).map (ancestor i)).filter (· < w)

theorem mem_pathAbove {w i l m x : ℕ} :
    x ∈ pathAbove w i l m ↔
      ∃ k, l < k ∧ k ≤ l + m ∧ ancestor i k < w ∧ x = ancestor i k := by
  simp only [pathAbove, List.mem_filter, List.mem_map, List.mem_range'_1,
    decide_eq_true_eq]
  constructor
  · rintro ⟨⟨k, hk, rfl⟩, hlt⟩
    exact ⟨k, by omega, by omega, hlt, rfl⟩
  · rintro ⟨k, hl, hm, hlt, rfl⟩
    exact ⟨⟨k, by omega, rfl⟩, hlt⟩

/-- The loop of `parent` finds the lowest ancestor inside the tree, which is
the head of the path. -/
theorem parentLoop_ancestor {n i : ℕ} (hn : 2 ≤ n) (hi : i < n) :
    ∀ fuel l, l < rootLevel n → rootLevel n < l + 1 + fuel →
      ∃ k, l < k ∧ k ≤ rootLevel n ∧ ancestor i k < 2 * n - 1 ∧
        (∀ j, l < j → j < k → 2 * n - 1 ≤ ancestor i j) ∧
        parentLoop (2 * n - 1) fuel (ancestor i (l + 1)) =
          some (ancestor i k) ∧
        pathAbove (2 * n - 1) i l (rootLevel n - l) =
          ancestor i k ::
            pathAbove (2 * n - 1) i k (rootLevel n - k) := by
  have hbounds := rootLevel_bounds hn
  have hroot := ancestor_rootLevel hn hi
  intro fuel
  induction fuel with
  | zero =>
      intro l hl hfuel
      omega
  | succ fuel ih =>
      intro l hl hfuel
      obtain ⟨d, hd⟩ := Nat.exists_eq_add_of_lt hl
      have hrange : rootLevel n - l = d + 1 := by omega
      rw [parentLoop]
      by_cases hlt : ancestor i (l + 1) < 2 * n - 1
      · refine ⟨l + 1, by omega, by omega, hlt, by omega,
          by rw [if_pos hlt], ?_⟩
        rw [hrange, show rootLevel n - (l + 1) = d by omega]
        simp [pathAbove, List.range'_succ, hlt]
      · have hne : l + 1 ≠ rootLevel n := by
          intro heq
          rw [heq, hroot] at hlt
          omega
        obtain ⟨k, hk, hle, hkw, hcut, hloop, hpath⟩ :=
          ih (l + 1) (by omega) (by omega)
        refine ⟨k, by omega, hle, hkw, ?_, ?_, ?_⟩
        · intro j hlj hjk
          rcases Nat.lt_or_eq_of_le (show l + 1 ≤ j by omega) with hj | rfl
          · exact hcut j hj hjk
          · omega
        · rw [if_neg hlt, parentStep_ancestor, hloop]
        · rw [← hpath, hrange, show rootLevel n - (l + 1) = d by omega]
          simp [pathAbove, List.range'_succ, hlt]

theorem ancestor_eq_root_iff {n i l : ℕ} (hn : 2 ≤ n) :
    i < n → (ancestor i l = 2 ^ rootLevel n - 1 ↔ l = rootLevel n) := by
  intro hi
  rw [← ancestor_rootLevel hn hi, ancestor_eq_iff]
  constructor
  · exact And.left
  · rintro rfl
    exact ⟨rfl, rfl⟩

theorem rootLevel_lt_width {n : ℕ} (hn : 2 ≤ n) :
    rootLevel n < 2 * n - 1 := by
  have hbounds := rootLevel_bounds hn
  have hlt : rootLevel n < 2 ^ rootLevel n := Nat.lt_two_pow_self
  omega

/-- The parent of an ancestor below the root is the next ancestor inside the
tree. -/
theorem parent_ancestor {n i l : ℕ} (hn : 2 ≤ n) (hi : i < n)
    (hl : l < rootLevel n) :
    ∃ k, l < k ∧ k ≤ rootLevel n ∧ ancestor i k < 2 * n - 1 ∧
      (∀ j, l < j → j < k → 2 * n - 1 ≤ ancestor i j) ∧
      parent (ancestor i l) n = some (ancestor i k) ∧
      pathAbove (2 * n - 1) i l (rootLevel n - l) =
        ancestor i k :: pathAbove (2 * n - 1) i k (rootLevel n - k) := by
  have hwidth := rootLevel_lt_width hn
  obtain ⟨k, hk, hle, hkw, hcut, hloop, hpath⟩ :=
    parentLoop_ancestor hn hi (2 * n - 1) l hl (by omega)
  refine ⟨k, hk, hle, hkw, hcut, ?_, hpath⟩
  have hne : ancestor i l ≠ 2 ^ rootLevel n - 1 := by
    rw [ne_eq, ancestor_eq_root_iff hn hi]
    omega
  simp [parent, root_eq hn, hne, nodeWidth_eq hn, hloop]

theorem directPathLoop_ancestor {n i : ℕ} (hn : 2 ≤ n) (hi : i < n) :
    ∀ fuel l, l ≤ rootLevel n → rootLevel n < l + fuel →
      directPathLoop n (2 ^ rootLevel n - 1) fuel (ancestor i l) =
        some (pathAbove (2 * n - 1) i l (rootLevel n - l)) := by
  intro fuel
  induction fuel with
  | zero =>
      intro l hl hfuel
      omega
  | succ fuel ih =>
      intro l hl hfuel
      rw [directPathLoop, if_congr (ancestor_eq_root_iff hn hi) rfl rfl]
      by_cases hroot : l = rootLevel n
      · simp [hroot, pathAbove]
      · obtain ⟨k, hk, hle, -, -, hparent, hpath⟩ :=
          parent_ancestor hn hi (show l < rootLevel n by omega)
        simp [hroot, hparent, ih k hle (by omega), hpath]

/-- The direct path of a leaf lists its ancestors inside the tree. -/
theorem directPath_leaf {n i : ℕ} (hn : 2 ≤ n) (hi : i < n) :
    directPath (2 * i) n =
      some (pathAbove (2 * n - 1) i 0 (rootLevel n)) := by
  have hwidth := rootLevel_lt_width hn
  have hloop := directPathLoop_ancestor hn hi (2 * n - 1) 0 (by omega)
    (by omega)
  rw [directPath, if_neg (by omega), root_eq hn, nodeWidth_eq hn]
  simpa using hloop

theorem mem_directPath {n i x : ℕ} {dp : List ℕ} (hn : 2 ≤ n) (hi : i < n)
    (hdp : directPath (2 * i) n = some dp) :
    x ∈ dp ↔
      ∃ k, 0 < k ∧ k ≤ rootLevel n ∧ ancestor i k < 2 * n - 1 ∧
        x = ancestor i k := by
  rw [directPath_leaf hn hi, Option.some.injEq] at hdp
  rw [← hdp, mem_pathAbove]
  simp

/-- Whatever the leaf, the loop of `parent` skips only ancestors outside the
tree. -/
theorem parentLoop_climbs {w j : ℕ} :
    ∀ fuel l p, parentLoop w fuel (ancestor j l) = some p →
      ∃ m, l ≤ m ∧ p = ancestor j m ∧
        ∀ k, l ≤ k → k < m → w ≤ ancestor j k := by
  intro fuel
  induction fuel with
  | zero =>
      intro l p h
      cases h
  | succ fuel ih =>
      intro l p h
      rw [parentLoop] at h
      split at h
      · rw [Option.some.injEq] at h
        exact ⟨l, le_rfl, h.symm, by omega⟩
      · rename_i hout
        rw [parentStep_ancestor] at h
        obtain ⟨m, hm, hp, hcut⟩ := ih (l + 1) p h
        refine ⟨m, by omega, hp, ?_⟩
        intro k hk hkm
        rcases Nat.lt_or_eq_of_le hk with hk | rfl
        · exact hcut k hk hkm
        · omega

theorem le_rootLevel_of_ancestor_lt {n j k : ℕ} (hn : 2 ≤ n)
    (h : ancestor j k < 2 * n - 1) : k ≤ rootLevel n := by
  by_contra hlt
  have hbounds := rootLevel_bounds hn
  have hone := node_add_one k (j / 2 ^ k)
  have hpow : 2 ^ (rootLevel n + 1) ≤ 2 ^ k :=
    Nat.pow_le_pow_right two_pos (by omega)
  have hle : 2 ^ k ≤ 2 ^ k * (2 * (j / 2 ^ k) + 1) :=
    Nat.le_mul_of_pos_right _ (by omega)
  unfold ancestor at h
  omega

theorem directPathLoop_climbs {n j : ℕ} (hn : 2 ≤ n) :
    ∀ fuel l dp,
      directPathLoop n (2 ^ rootLevel n - 1) fuel (ancestor j l) = some dp →
      ∀ k, l < k → ancestor j k < 2 * n - 1 → ancestor j k ∈ dp := by
  intro fuel
  induction fuel with
  | zero =>
      intro l dp h
      cases h
  | succ fuel ih =>
      intro l dp h k hk hwidth
      have hle := le_rootLevel_of_ancestor_lt hn hwidth
      rw [directPathLoop] at h
      split at h
      · rename_i hroot
        rw [← node_zero_right] at hroot
        obtain ⟨hlevel, -⟩ := node_inj hroot
        omega
      · rename_i hroot
        simp only [Option.bind_eq_bind, Option.bind_eq_some_iff] at h
        obtain ⟨p, hparent, rest, hrest, hcons⟩ := h
        rw [Option.some.injEq] at hcons
        subst hcons
        simp only [parent, root_eq hn, Option.bind_eq_bind, Option.bind_some,
          if_neg hroot, nodeWidth_eq hn, parentStep_ancestor] at hparent
        obtain ⟨m, hm, rfl, hcut⟩ := parentLoop_climbs _ _ _ hparent
        rcases lt_trichotomy k m with hkm | rfl | hkm
        · have hout := hcut k hk hkm
          omega
        · exact List.mem_cons_self
        · exact List.mem_cons_of_mem _ (ih m rest hrest k hkm hwidth)

/-- A direct path that exists has every ancestor of the leaf inside the tree,
also for a leaf outside it. -/
theorem ancestor_mem_directPath {n j k : ℕ} {dp : List ℕ} (hn : 2 ≤ n)
    (hdp : directPath (2 * j) n = some dp) (hk : 0 < k)
    (hwidth : ancestor j k < 2 * n - 1) : ancestor j k ∈ dp := by
  rw [directPath, if_neg (by omega), root_eq hn] at hdp
  rw [← ancestor_zero] at hdp
  exact directPathLoop_climbs hn _ 0 dp hdp k hk hwidth

/-- A direct path that is not empty ends in the root and meets it nowhere
else. -/
theorem directPathLoop_last {n r : ℕ} :
    ∀ fuel x dp, directPathLoop n r fuel x = some dp → x ≠ r →
      ∃ init, dp = init ++ [r] ∧ r ∉ init := by
  intro fuel
  induction fuel with
  | zero =>
      intro x dp hdp
      simp [directPathLoop] at hdp
  | succ fuel ih =>
      intro x dp hdp hx
      simp only [directPathLoop, if_neg hx, Option.bind_eq_bind,
        Option.bind_eq_some_iff] at hdp
      obtain ⟨p, -, rest, hrest, hcons⟩ := hdp
      rw [Option.some.injEq] at hcons
      subst hcons
      by_cases hp : p = r
      · subst hp
        cases fuel with
        | zero => simp [directPathLoop] at hrest
        | succ fuel =>
            have hnil : rest = [] := by
              simpa [directPathLoop] using hrest.symm
            exact ⟨[], by simp [hnil], by simp⟩
      · obtain ⟨init, rfl, hinit⟩ := ih p rest hrest hp
        exact ⟨p :: init, rfl, by simp [hinit, Ne.symm hp]⟩

theorem directPath_last {n x r : ℕ} {dp : List ℕ} (hn : 2 ≤ n)
    (hroot : root n = some r) (hx : x ≠ r)
    (hdp : directPath x n = some dp) :
    ∃ init, dp = init ++ [r] ∧ r ∉ init := by
  rw [directPath, if_neg (by omega), hroot] at hdp
  exact directPathLoop_last _ _ _ hdp hx

theorem root_odd {n r : ℕ} (hn : 2 ≤ n) (hroot : root n = some r) :
    r % 2 = 1 := by
  have hbounds := rootLevel_bounds hn
  rw [root_eq hn, Option.some.injEq] at hroot
  obtain ⟨k, hk⟩ := Nat.exists_eq_add_of_le hbounds.1
  have hdouble : 2 ^ rootLevel n = 2 * 2 ^ k := by rw [hk]; ring
  have hpos : 0 < 2 ^ k := by positivity
  omega

/-! ## Children inside the tree -/

/-- Clamping walks down from an ancestor of a leaf of the tree to the highest
ancestor inside the tree: whatever is cut off lies to the right of the leaf. -/
theorem rightLoop_ancestor {w i : ℕ} (hi : 2 * i < w) :
    ∀ fuel l, l < fuel →
      ∃ j, j ≤ l ∧ ancestor i j < w ∧
        (∀ k, j < k → k ≤ l → w ≤ ancestor i k) ∧
        rightLoop w fuel (ancestor i l) = some (ancestor i j) := by
  intro fuel
  induction fuel with
  | zero =>
      intro l hl
      omega
  | succ fuel ih =>
      intro l hl
      rw [rightLoop]
      by_cases hlt : ancestor i l < w
      · exact ⟨l, le_rfl, hlt, by omega, by rw [if_pos hlt]⟩
      · cases l with
        | zero =>
            rw [ancestor_zero] at hlt
            omega
        | succ l =>
            have hleft : left (ancestor i (l + 1)) = some (ancestor i l) := by
              rcases ancestor_child i l with ⟨-, hchild⟩ | ⟨hright, -⟩
              · rw [hchild, ancestor, left_node_succ]
              · omega
            obtain ⟨j, hj, hjw, hcut, hloop⟩ := ih l (by omega)
            refine ⟨j, by omega, hjw, ?_, ?_⟩
            · intro k hk hkl
              rcases Nat.lt_or_eq_of_le hkl with hkl | rfl
              · exact hcut k hk (by omega)
              · omega
            · rw [if_neg hlt, hleft, Option.bind_some, hloop]

/-- An internal node of the tree has both children inside it. -/
theorem right_node_eq {n k q : ℕ} (hn : 2 ≤ n)
    (hx : node (k + 1) q < 2 * n - 1) :
    ∃ j, j ≤ k ∧ ancestor (2 ^ k * (2 * q + 1)) j < 2 * n - 1 ∧
      right (node (k + 1) q) n =
        some (ancestor (2 ^ k * (2 * q + 1)) j) := by
  have hodd := node_succ_mod_two k q
  have hone := node_add_one (k + 1) q
  have hdouble : 2 ^ (k + 1) * (2 * q + 1) = 2 * (2 ^ k * (2 * q + 1)) := by
    ring
  obtain ⟨j, hj, hjw, -, hloop⟩ :=
    rightLoop_ancestor (w := 2 * n - 1) (i := 2 ^ k * (2 * q + 1))
      (by omega) (k + 1) k (by omega)
  refine ⟨j, hj, hjw, ?_⟩
  rw [right_node_succ, nodeWidth_eq hn, ← ancestor_rightmost, hloop]

/-- The child on the side of leaf `i` of one of its ancestors is the next
lower ancestor inside the tree. -/
theorem child_ancestor {n i k : ℕ} (hn : 2 ≤ n) (hi : i < n)
    (hk : ancestor i (k + 1) < 2 * n - 1) :
    ∃ j, j ≤ k ∧ ancestor i j < 2 * n - 1 ∧
      (∀ l, j < l → l ≤ k → 2 * n - 1 ≤ ancestor i l) ∧
      ((2 * i < ancestor i (k + 1) ∧
          left (ancestor i (k + 1)) = some (ancestor i j)) ∨
        (ancestor i (k + 1) < 2 * i ∧
          right (ancestor i (k + 1)) n = some (ancestor i j))) := by
  rcases ancestor_child i k with ⟨hside, hchild⟩ | ⟨hside, hchild⟩
  · have hbounds := ancestor_bounds i k
    have hone := node_add_one (k + 1) (i / 2 ^ (k + 1))
    have hchildOne := node_add_one k (2 * (i / 2 ^ (k + 1)))
    have hle : 2 ^ k * (2 * (2 * (i / 2 ^ (k + 1))) + 1) ≤
        2 ^ (k + 1) * (2 * (i / 2 ^ (k + 1)) + 1) := by
      rw [pow_succ, mul_assoc]
      apply Nat.mul_le_mul_left
      omega
    refine ⟨k, le_rfl, ?_, by omega, Or.inl ⟨hside, ?_⟩⟩
    · rw [hchild]
      unfold ancestor at hk
      omega
    · rw [hchild, ancestor, left_node_succ]
  · obtain ⟨j, hj, hjw, hcut, hloop⟩ :=
      rightLoop_ancestor (w := 2 * n - 1) (i := i) (by omega) (k + 1) k
        (by omega)
    refine ⟨j, hj, hjw, hcut, Or.inr ⟨hside, ?_⟩⟩
    rw [ancestor, right_node_succ, nodeWidth_eq hn, ← hchild, hloop]

/-! ## Copaths -/

/-- No ancestor of leaf `i` lies in the subtree of `s`. -/
def OffPath (i s : ℕ) : Prop :=
  ∀ k q l, s = node k q → ¬ Below k q (ancestor i l)

/-- The two children of an ancestor of a leaf, and on which side of it their
subtrees and the leaf's lower ancestors lie. -/
theorem below_ancestor_side {i k l : ℕ} (hl : l ≤ k) :
    (2 * i < ancestor i (k + 1) → ancestor i l < ancestor i (k + 1)) ∧
      (ancestor i (k + 1) < 2 * i → ancestor i (k + 1) < ancestor i l) := by
  have hbelow : Below k (i / 2 ^ k) (ancestor i l) :=
    below_ancestor_of_le hl (below_node l _)
  rcases ancestor_child i k with ⟨hside, hchild⟩ | ⟨hside, hchild⟩
  · have hq := (node_inj hchild).2
    rw [hq] at hbelow
    exact ⟨fun _ => (below_left hbelow).2, by omega⟩
  · have hq := (node_inj hchild).2
    rw [hq] at hbelow
    exact ⟨by omega, fun _ => (below_right hbelow).2⟩

theorem sibling_ancestor {n i l : ℕ} (hn : 2 ≤ n) (hi : i < n)
    (hl : l < rootLevel n) (hlw : ancestor i l < 2 * n - 1) :
    ∃ s, sibling (ancestor i l) n = some s ∧ s < 2 * n - 1 ∧
      OffPath i s := by
  obtain ⟨k, hk, -, hkw, hgap, hparent, -⟩ := parent_ancestor hn hi hl
  obtain ⟨k, rfl⟩ : ∃ k', k = k' + 1 := ⟨k - 1, by omega⟩
  set p := ancestor i (k + 1) with hp
  set q := i / 2 ^ (k + 1) with hq
  have hpnode : p = node (k + 1) q := rfl
  obtain ⟨j, hj, hjw, hcut, hchild⟩ := child_ancestor hn hi hkw
  have hjl : j = l := by
    by_contra hne
    rcases Nat.lt_or_gt_of_ne hne with hlt | hgt
    · have := hcut l hlt (by omega)
      omega
    · have := hgap j hgt (by omega)
      omega
  subst hjl
  have hlowleft : node k (2 * q) < p := (below_left (below_node k _)).2
  obtain ⟨m, hm, hmw, hright⟩ := right_node_eq hn (k := k) (q := q) hkw
  rcases hchild with ⟨hside, hleft⟩ | ⟨hside, hthis⟩
  · -- the leaf is on the left, its sibling is the clamped right child
    refine ⟨ancestor (2 ^ k * (2 * q + 1)) m, ?_, hmw, ?_⟩
    · rw [← hp] at hleft
      rw [← hpnode] at hright
      simp [sibling, hparent, hleft, hright]
    · intro k' q' l' hs hbelow
      obtain ⟨rfl, rfl⟩ := node_inj hs
      have hk' : l' ≤ k := by
        by_contra hgt
        exact not_below_of_lt (by omega) hbelow
      have hup := below_ancestor_of_le hm hbelow
      rw [Nat.mul_div_cancel_left _ (by positivity)] at hup
      have habove := (below_right hup).2
      have hunder := (below_ancestor_side hk').1 hside
      omega
  · -- the leaf is on the right, its sibling is the left child
    have hne : node k (2 * q) ≠ ancestor i j := by
      have hbelow : ancestor i (k + 1) < ancestor i j :=
        (below_ancestor_side hj).2 hside
      omega
    refine ⟨node k (2 * q), ?_, by omega, ?_⟩
    · simp [sibling, hparent, hpnode, hne]
    · intro k' q' l' hs hbelow
      obtain ⟨rfl, rfl⟩ := node_inj hs
      have hk' : l' ≤ k := by
        by_contra hgt
        exact not_below_of_lt (by omega) hbelow
      have hunder := (below_left hbelow).2
      have habove := (below_ancestor_side hk').2 hside
      omega

/-- The copath of a leaf has one node for each node of its direct path, inside
the tree and off the path. -/
theorem copath_leaf {n i : ℕ} {dp : List ℕ} (hn : 2 ≤ n) (hi : i < n)
    (hdp : directPath (2 * i) n = some dp) :
    ∃ cp, copath (2 * i) n = some cp ∧ cp.length = dp.length ∧
      ∀ s ∈ cp, s < 2 * n - 1 ∧ OffPath i s := by
  have hbounds := rootLevel_bounds hn
  have hodd := root_odd hn (root_eq hn)
  obtain ⟨init, rfl, hinit⟩ :=
    directPath_last hn (root_eq hn) (by omega) hdp
  have hnodes : ∀ x ∈ 2 * i :: init,
      ∃ s, sibling x n = some s ∧ s < 2 * n - 1 ∧ OffPath i s := by
    intro x hx
    rcases List.mem_cons.1 hx with rfl | hx
    · rw [← ancestor_zero]
      exact sibling_ancestor hn hi (by omega) (by rw [ancestor_zero]; omega)
    · obtain ⟨k, -, hk, hkw, rfl⟩ :=
        (mem_directPath hn hi hdp).1 (List.mem_append_left _ hx)
      refine sibling_ancestor hn hi ?_ hkw
      rcases Nat.lt_or_eq_of_le hk with hlt | rfl
      · exact hlt
      · rw [ancestor_rootLevel hn hi] at hx
        exact absurd hx hinit
  obtain ⟨cp, hcp, hlen, hoff⟩ := mapM_eq_some_of_forall hnodes
  refine ⟨cp, ?_, by simpa using hlen, hoff⟩
  rw [copath, hdp]
  simpa using hcp

end Collabswarm.BeeKEM.TreeMath
