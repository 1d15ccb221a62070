import Mathlib.Tactic

/-!
# The in-order numbered infinite binary tree

Leaves carry the even numbers and the node of level `k` at position `q` of its
level carries `2 ^ k * (2 * q + 1) - 1`, so that a node lies between its two
subtrees.  This module collects the arithmetic of that numbering: how the
bit patterns of a node determine its children and its parent, and how the
ancestors of two leaves meet.  It does not mention any truncation of the tree
to finitely many leaves.
-/

namespace Collabswarm.InorderTree

/-- The node of level `k` at position `q` of that level. -/
def node (k q : ℕ) : ℕ := 2 ^ k * (2 * q + 1) - 1

theorem node_add_one (k q : ℕ) : node k q + 1 = 2 ^ k * (2 * q + 1) := by
  have hpos : 0 < 2 ^ k * (2 * q + 1) := by positivity
  unfold node
  omega

@[simp] theorem node_zero_left (q : ℕ) : node 0 q = 2 * q := by
  simp [node]

theorem node_zero_right (k : ℕ) : node k 0 = 2 ^ k - 1 := by
  simp [node]

/-- A node is its block of trailing one bits below the bits of its position. -/
theorem node_eq_add (k q : ℕ) :
    node k q = 2 ^ (k + 1) * q + (2 ^ k - 1) := by
  have hone := node_add_one k q
  have hpos : 0 < 2 ^ k := by positivity
  have hexpand : 2 ^ k * (2 * q + 1) = 2 ^ (k + 1) * q + 2 ^ k := by ring
  omega

theorem testBit_node (k q j : ℕ) :
    (node k q).testBit j =
      if j < k + 1 then decide (j < k) else q.testBit (j - (k + 1)) := by
  have hlt : 2 ^ k - 1 < 2 ^ (k + 1) := by
    have hpos : 0 < 2 ^ k := by positivity
    have hdouble : 2 ^ (k + 1) = 2 * 2 ^ k := by ring
    omega
  rw [node_eq_add, Nat.testBit_two_pow_mul_add q hlt]
  simp

/-- Every number is a node of exactly one level and position. -/
theorem exists_eq_node (x : ℕ) : ∃ k q, x = node k q := by
  obtain ⟨k, m, hodd, hx⟩ := Nat.exists_eq_two_pow_mul_odd (Nat.succ_ne_zero x)
  obtain ⟨q, rfl⟩ := hodd
  refine ⟨k, q, ?_⟩
  have hone := node_add_one k q
  omega

theorem node_succ_mod_two (k q : ℕ) : node (k + 1) q % 2 = 1 := by
  have hone := node_add_one (k + 1) q
  have heven : 2 ^ (k + 1) * (2 * q + 1) = 2 * (2 ^ k * (2 * q + 1)) := by ring
  omega

/-! ## Children and parents -/

/-- Clearing the top trailing one bit moves to the left child. -/
theorem node_succ_xor_two_pow (k q : ℕ) :
    node (k + 1) q ^^^ 2 ^ k = node k (2 * q) := by
  apply Nat.eq_of_testBit_eq
  intro j
  have hdouble : (2 * q).testBit 0 = false := by simp [Nat.testBit_zero]
  rw [Nat.testBit_xor, testBit_node, testBit_node, Nat.testBit_two_pow]
  rcases lt_trichotomy j k with hjk | rfl | hkj
  · simp [show j < k + 1 + 1 by omega, show j < k + 1 by omega, hjk,
      show ¬ k = j by omega]
  · simp
  · rcases Nat.lt_or_ge j (k + 2) with hj | hj
    · have hj' : j = k + 1 := by omega
      subst hj'
      simp [hdouble]
    · obtain ⟨d, rfl⟩ := Nat.exists_eq_add_of_le hj
      have hshift : k + 2 + d - (k + 1) = d + 1 := by omega
      have hshift' : k + 2 + d - (k + 1 + 1) = d := by omega
      simp [show ¬ k + 2 + d < k + 1 + 1 by omega,
        show ¬ k + 2 + d < k + 1 by omega, show ¬ k = k + 2 + d by omega,
        hshift, hshift', Nat.testBit_add_one]

/-- Swapping the top trailing one bit with the zero above it moves to the
right child. -/
theorem node_succ_xor_three_mul_two_pow (k q : ℕ) :
    node (k + 1) q ^^^ (3 * 2 ^ k) = node k (2 * q + 1) := by
  have hmask : 3 * 2 ^ k = 2 ^ k ^^^ 2 ^ (k + 1) := by
    apply Nat.eq_of_testBit_eq
    intro j
    rw [Nat.testBit_xor, Nat.testBit_two_pow, Nat.testBit_two_pow,
      Nat.testBit_mul_two_pow]
    rcases Nat.lt_or_ge j k with hjk | hkj
    · simp [hjk, show ¬ k = j by omega, show ¬ k + 1 = j by omega]
    · obtain ⟨d, rfl⟩ := Nat.exists_eq_add_of_le hkj
      match d with
      | 0 => simp [Nat.testBit_zero]
      | 1 => simp [Nat.testBit_add_one]
      | d + 2 =>
          simp [Nat.testBit_add_one]
  rw [hmask, ← Nat.xor_assoc, node_succ_xor_two_pow]
  apply Nat.eq_of_testBit_eq
  intro j
  rw [Nat.testBit_xor, testBit_node, testBit_node, Nat.testBit_two_pow]
  rcases Nat.lt_or_ge j (k + 1) with hj | hj
  · simp [hj, show ¬ k + 1 = j by omega]
  · obtain ⟨d, rfl⟩ := Nat.exists_eq_add_of_le hj
    have hshift : k + 1 + d - (k + 1) = d := by omega
    match d with
    | 0 => simp [Nat.testBit_zero]
    | d + 1 =>
        simp [hshift, Nat.testBit_add_one,
          show (2 * q + 1) / 2 = q by omega]

/-- Setting the lowest zero bit and clearing the bit above it moves to the
parent. -/
theorem node_parent_bits (k q : ℕ) :
    (node k q ||| 2 ^ k) ^^^ ((node k q ||| 2 ^ k) &&& 2 ^ (k + 1)) =
      node (k + 1) (q / 2) := by
  apply Nat.eq_of_testBit_eq
  intro j
  simp only [Nat.testBit_xor, Nat.testBit_and, Nat.testBit_or,
    testBit_node, Nat.testBit_two_pow]
  rcases lt_trichotomy j k with hjk | rfl | hkj
  · simp [show j < k + 1 by omega, show j < k + 1 + 1 by omega, hjk,
      show ¬ k = j by omega, show ¬ k + 1 = j by omega]
  · simp
  · obtain ⟨d, rfl⟩ := Nat.exists_eq_add_of_le (show k + 1 ≤ j by omega)
    match d with
    | 0 => simp
    | d + 1 =>
        have hshift : k + 1 + (d + 1) - (k + 1) = d + 1 := by omega
        have hshift' : k + 1 + (d + 1) - (k + 1 + 1) = d := by omega
        simp [show ¬ k + 1 + (d + 1) < k + 1 by omega,
          show ¬ k + 1 + (d + 1) < k + 1 + 1 by omega,
          show ¬ k = k + 1 + (d + 1) by omega,
          hshift, hshift', Nat.testBit_add_one]

/-! ## Ancestors of a leaf -/

/-- The ancestor of level `k` of the leaf at position `i`. -/
def ancestor (i k : ℕ) : ℕ := node k (i / 2 ^ k)

@[simp] theorem ancestor_zero (i : ℕ) : ancestor i 0 = 2 * i := by
  simp [ancestor]

theorem ancestor_succ (i k : ℕ) :
    ancestor i (k + 1) = node (k + 1) (i / 2 ^ k / 2) := by
  rw [ancestor, Nat.div_div_eq_div_mul, pow_succ]

theorem ancestor_succ_mod_two (i k : ℕ) : ancestor i (k + 1) % 2 = 1 :=
  node_succ_mod_two k _

/-- A leaf lies within distance `2 ^ k` of its ancestor of level `k`. -/
theorem ancestor_bounds (i k : ℕ) :
    ancestor i k + 1 ≤ 2 * i + 2 ^ k ∧ 2 * i + 1 ≤ ancestor i k + 2 ^ k := by
  have hone := node_add_one k (i / 2 ^ k)
  have hdiv := Nat.div_add_mod i (2 ^ k)
  have hmod : i % 2 ^ k < 2 ^ k := Nat.mod_lt _ (by positivity)
  have hexpand : 2 ^ k * (2 * (i / 2 ^ k) + 1) =
      2 * (2 ^ k * (i / 2 ^ k)) + 2 ^ k := by ring
  unfold ancestor
  constructor
  · omega
  · omega

theorem ancestor_eq_of_lt_two_pow {i k : ℕ} (hi : i < 2 ^ k) :
    ancestor i k = 2 ^ k - 1 := by
  rw [ancestor, Nat.div_eq_of_lt hi, node_zero_right]

/-- Once the ancestors of two leaves coincide, they coincide on every higher
level. -/
theorem ancestor_eq_of_le {i j k l : ℕ} (hkl : k ≤ l)
    (h : i / 2 ^ k = j / 2 ^ k) : ancestor i l = ancestor j l := by
  obtain ⟨d, rfl⟩ := Nat.exists_eq_add_of_le hkl
  rw [ancestor, ancestor, pow_add, ← Nat.div_div_eq_div_mul,
    ← Nat.div_div_eq_div_mul, h]

theorem node_inj {k q k' q' : ℕ} (h : node k q = node k' q') :
    k = k' ∧ q = q' := by
  have hk : k = k' := by
    rcases lt_trichotomy k k' with hlt | heq | hgt
    · have hbit := testBit_node k q k
      rw [h, testBit_node] at hbit
      simp [hlt, show k < k' + 1 by omega] at hbit
    · exact heq
    · have hbit := testBit_node k' q' k'
      rw [← h, testBit_node] at hbit
      simp [hgt, show k' < k + 1 by omega] at hbit
  subst hk
  have hq := node_add_one k q
  rw [h, node_add_one] at hq
  have hcancel : 2 * q' + 1 = 2 * q + 1 :=
    Nat.eq_of_mul_eq_mul_left (by positivity) hq
  exact ⟨rfl, by omega⟩

theorem ancestor_eq_iff {i j k l : ℕ} :
    ancestor i k = ancestor j l ↔ k = l ∧ i / 2 ^ k = j / 2 ^ k := by
  constructor
  · intro h
    obtain ⟨rfl, hq⟩ := node_inj h
    exact ⟨rfl, hq⟩
  · rintro ⟨rfl, hq⟩
    exact ancestor_eq_of_le le_rfl hq

/-- A leaf below its ancestor of level `k + 1` in the numbering hangs under
the left child, one above it under the right child. -/
theorem ancestor_child (i k : ℕ) :
    (2 * i < ancestor i (k + 1) ∧
        ancestor i k = node k (2 * (i / 2 ^ (k + 1)))) ∨
      (ancestor i (k + 1) < 2 * i ∧
        ancestor i k = node k (2 * (i / 2 ^ (k + 1)) + 1)) := by
  have hhalf : i / 2 ^ (k + 1) = i / 2 ^ k / 2 := by
    rw [Nat.div_div_eq_div_mul, pow_succ]
  have hdiv := Nat.div_add_mod i (2 ^ k)
  have hmod : i % 2 ^ k < 2 ^ k := Nat.mod_lt _ (by positivity)
  have hone := node_add_one (k + 1) (i / 2 ^ (k + 1))
  have hpos : 0 < 2 ^ k := by positivity
  rcases Nat.even_or_odd' (i / 2 ^ k) with ⟨c, hc | hc⟩
  · left
    have hq : i / 2 ^ (k + 1) = c := by omega
    rw [hq] at hone
    have hexpand : 2 ^ (k + 1) * (2 * c + 1) =
        2 * (2 ^ k * (2 * c)) + 2 * 2 ^ k := by ring
    rw [hc] at hdiv
    refine ⟨?_, by rw [ancestor, hc, hq]⟩
    rw [ancestor, hq]
    omega
  · right
    have hq : i / 2 ^ (k + 1) = c := by omega
    rw [hq] at hone
    have hexpand : 2 ^ (k + 1) * (2 * c + 1) =
        2 * (2 ^ k * (2 * c + 1)) := by ring
    rw [hc] at hdiv
    refine ⟨?_, by rw [ancestor, hc, hq]⟩
    rw [ancestor, hq]
    omega

/-- The leftmost leaf below the right child of an internal node. -/
theorem ancestor_rightmost (k q : ℕ) :
    ancestor (2 ^ k * (2 * q + 1)) k = node k (2 * q + 1) := by
  rw [ancestor, Nat.mul_div_cancel_left _ (by positivity)]

/-! ## Subtrees -/

/-- The indices of the nodes of the infinite tree below `node k q`. -/
def Below (k q y : ℕ) : Prop :=
  2 ^ (k + 1) * q ≤ y ∧ y + 2 ≤ 2 ^ (k + 1) * (q + 1)

theorem below_left {k q y : ℕ} (h : Below k (2 * q) y) :
    Below (k + 1) q y ∧ y < node (k + 1) q := by
  have hone := node_add_one (k + 1) q
  have hlow : 2 ^ (k + 1 + 1) * q = 2 ^ (k + 1) * (2 * q) := by ring
  have hmid : 2 ^ (k + 1) * (2 * q + 1) = 2 ^ (k + 1) * (2 * q) +
      2 ^ (k + 1) := by ring
  have hhigh : 2 ^ (k + 1 + 1) * (q + 1) = 2 ^ (k + 1) * (2 * q) +
      2 * 2 ^ (k + 1) := by ring
  unfold Below at *
  omega

theorem below_right {k q y : ℕ} (h : Below k (2 * q + 1) y) :
    Below (k + 1) q y ∧ node (k + 1) q < y := by
  have hone := node_add_one (k + 1) q
  have hlow : 2 ^ (k + 1 + 1) * q = 2 ^ (k + 1) * (2 * q) := by ring
  have hmid : 2 ^ (k + 1) * (2 * q + 1) = 2 ^ (k + 1) * (2 * q) +
      2 ^ (k + 1) := by ring
  have hhigh : 2 ^ (k + 1 + 1) * (q + 1) = 2 ^ (k + 1) * (2 * q) +
      2 * 2 ^ (k + 1) := by ring
  have hhigh' : 2 ^ (k + 1) * (2 * q + 1 + 1) = 2 ^ (k + 1) * (2 * q) +
      2 * 2 ^ (k + 1) := by ring
  have hpos : 0 < 2 ^ (k + 1) := by positivity
  unfold Below at *
  omega

theorem below_node (k q : ℕ) : Below k q (node k q) := by
  have hone := node_add_one k q
  have hpos : 0 < 2 ^ k := by positivity
  have hlow : 2 ^ (k + 1) * q + 2 ^ k = 2 ^ k * (2 * q + 1) := by ring
  have hhigh : 2 ^ (k + 1) * (q + 1) = 2 ^ k * (2 * q + 1) + 2 ^ k := by ring
  unfold Below
  omega

/-- A node is below no node of a lower level. -/
theorem not_below_of_lt {k q l r : ℕ} (hkl : k < l) :
    ¬ Below k q (node l r) := by
  rintro ⟨hlow, hhigh⟩
  obtain ⟨d, rfl⟩ := Nat.exists_eq_add_of_lt hkl
  have hone := node_add_one (k + d + 1) r
  have hfactor : 2 ^ (k + d + 1) * (2 * r + 1) =
      2 ^ (k + 1) * (2 ^ d * (2 * r + 1)) := by ring
  have hgt : q < 2 ^ d * (2 * r + 1) := by
    apply Nat.lt_of_mul_lt_mul_left (a := 2 ^ (k + 1))
    omega
  have hlt : 2 ^ d * (2 * r + 1) < q + 1 := by
    apply Nat.lt_of_mul_lt_mul_left (a := 2 ^ (k + 1))
    omega
  omega

/-- What lies below a node lies below every node that this one lies below. -/
theorem below_trans {k q l r y : ℕ} (h : Below k q (node l r))
    (hy : Below l r y) : Below k q y := by
  have hlk : l ≤ k := by
    by_contra hlt
    exact not_below_of_lt (by omega) h
  obtain ⟨d, rfl⟩ := Nat.exists_eq_add_of_le hlk
  obtain ⟨hlow, hhigh⟩ := h
  have heq := node_eq_add l r
  have hpos : 0 < 2 ^ l := by positivity
  have hdouble : 2 ^ (l + 1) = 2 * 2 ^ l := by ring
  have hsplit : ∀ m, 2 ^ (l + d + 1) * m = 2 ^ (l + 1) * (2 ^ d * m) := by
    intro m
    ring
  have hlast : 2 ^ (l + 1) * (r + 1) = 2 ^ (l + 1) * r + 2 ^ (l + 1) := by ring
  rw [hsplit] at hlow hhigh
  have hfirst : 2 ^ d * q < r + 1 := by
    apply Nat.lt_of_mul_lt_mul_left (a := 2 ^ (l + 1))
    omega
  have hend : r < 2 ^ d * (q + 1) := by
    apply Nat.lt_of_mul_lt_mul_left (a := 2 ^ (l + 1))
    omega
  have hfrom : 2 ^ (l + 1) * (2 ^ d * q) ≤ 2 ^ (l + 1) * r :=
    Nat.mul_le_mul_left _ (by omega)
  have hto : 2 ^ (l + 1) * (r + 1) ≤ 2 ^ (l + 1) * (2 ^ d * (q + 1)) :=
    Nat.mul_le_mul_left _ (by omega)
  obtain ⟨hlow', hhigh'⟩ := hy
  rw [Below, hsplit, hsplit]
  exact ⟨hfrom.trans hlow', hhigh'.trans hto⟩

/-- What lies below a node of a tree of this height stays inside the tree. -/
theorem below_lt_two_pow {k q y b : ℕ} (hx : node k q + 1 < 2 ^ b)
    (h : Below k q y) : y + 1 < 2 ^ b := by
  have hone := node_add_one k q
  have hkb : k < b := by
    have hle : 2 ^ k ≤ 2 ^ k * (2 * q + 1) := Nat.le_mul_of_pos_right _ (by omega)
    exact (Nat.pow_lt_pow_iff_right (by decide)).1 (show 2 ^ k < 2 ^ b by omega)
  obtain ⟨d, rfl⟩ := Nat.exists_eq_add_of_lt hkb
  have hsplit : 2 ^ (k + d + 1) = 2 ^ k * (2 * 2 ^ d) := by ring
  -- the position of the node is odd and the width of the tree even
  have hless : 2 * q + 1 < 2 * 2 ^ d := by
    apply Nat.lt_of_mul_lt_mul_left (a := 2 ^ k)
    omega
  have hend : 2 ^ k * (2 * (q + 1)) ≤ 2 ^ k * (2 * 2 ^ d) :=
    Nat.mul_le_mul_left _ (by omega)
  have htwo : 2 ^ (k + 1) * (q + 1) = 2 ^ k * (2 * (q + 1)) := by ring
  have hlast := h.2
  omega

/-- A node with a leaf below it is an ancestor of the leaf. -/
theorem node_eq_ancestor_of_below {k q i : ℕ} (h : Below k q (2 * i)) :
    node k q = ancestor i k := by
  obtain ⟨hlow, hhigh⟩ := h
  rw [pow_succ] at hlow hhigh
  have hquot : i / 2 ^ k = q := by
    apply Nat.div_eq_of_lt_le
    · nlinarith
    · nlinarith
  rw [ancestor, hquot]

/-- What lies below a lower ancestor of a leaf lies below a higher one. -/
theorem below_ancestor_of_le {i j k y : ℕ} (hjk : j ≤ k)
    (h : Below j (i / 2 ^ j) y) : Below k (i / 2 ^ k) y := by
  induction hjk with
  | refl => exact h
  | step hjk ih =>
      rename_i m
      have hhalf : i / 2 ^ (m + 1) = i / 2 ^ m / 2 := by
        rw [Nat.div_div_eq_div_mul, pow_succ]
      rcases Nat.even_or_odd' (i / 2 ^ m) with ⟨c, hc | hc⟩
      · rw [Nat.succ_eq_add_one, hhalf, hc, Nat.mul_div_cancel_left c two_pos]
        rw [hc] at ih
        exact (below_left ih).1
      · rw [Nat.succ_eq_add_one, hhalf, hc,
          show (2 * c + 1) / 2 = c by omega]
        rw [hc] at ih
        exact (below_right ih).1

end Collabswarm.InorderTree
