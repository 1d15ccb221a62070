import Collabswarm.BeeKEM.TreeMath
import Collabswarm.Support.Bitwise32
import Collabswarm.Support.Looping

/-!
# Tree arithmetic on 32 bits

The functions of `tree-math.ts` with the operators of the source: bitwise
operators act on the low 32 bits, a number may be negative, and a loop need not
end.  `none` in place of a leaf count stands for an argument that is left out.

Every loop of a tree with at most `2 ^ 30` leaves ends with the value that the
arithmetic on natural numbers gives.  For other indices a function may run
forever.
-/

namespace Collabswarm.BeeKEM.TreeMath32

open Collabswarm.InorderTree
open Bitwise32 Run

/-! ## The functions -/

/-- `Number.MAX_SAFE_INTEGER`. -/
def maxSafeInteger : ℤ := 2 ^ 53 - 1

/-- Throws if the value is negative or not a safe integer. -/
def assertNonNegativeSafeInt (value : ℤ) (name : String) : Run Unit :=
  if maxSafeInteger < value ∨ value < 0 then
    throw (name ++ s!" must be a non-negative safe integer, got {value}")
  else return ()

/-- Returns true if the node index is a leaf (even index). -/
def isLeaf (index : ℤ) : Bool := bitAnd index 1 == 0

/-- The loop of `level`. -/
def levelBody (index : ℤ) (_ k : ℕ) : Run (ℕ ⊕ ℕ) :=
  if bitAnd (shiftRight index k) 1 = 1 then return .inl (k + 1)
  else return .inr k

/-- Level of a node in the tree. -/
def level (index : ℤ) (fuel : ℕ) : Run ℕ := do
  assertNonNegativeSafeInt index "index"
  if bitAnd index 1 = 0 then return 0 else loopFrom (levelBody index) 0 fuel

/-- Total node count for a tree with `numLeaves` leaves. -/
def nodeWidth (numLeaves : ℕ) : ℤ :=
  if numLeaves = 0 then 0 else 2 * numLeaves - 1

/-- The loop of `log2`. -/
def log2Body (x : ℤ) (_ k : ℕ) : Run (ℕ ⊕ ℕ) :=
  if shiftRight x k ≠ 0 then return .inl (k + 1) else return .inr k

/-- Position of the most significant 1-bit. -/
def log2 (x : ℤ) (fuel : ℕ) : Run ℤ := do
  assertNonNegativeSafeInt x "x"
  if x = 0 then return 0
  else
    let k ← loopFrom (log2Body x) 0 fuel
    return (k : ℤ) - 1

/-- Left child of an internal node. -/
def left (index : ℤ) (fuel : ℕ) : Run ℤ := do
  let k ← level index fuel
  if k = 0 then throw "Leaves have no children"
  else return bitXor index (shiftLeft 1 ((k : ℤ) - 1))

/-- The clamping loop of `right`. -/
def rightBody (w : ℤ) (fuel : ℕ) (r : ℤ) : Run (ℤ ⊕ ℤ) :=
  if w ≤ r then do
    let l ← left r fuel
    return .inl l
  else return .inr r

/-- Right child of an internal node, clamped to the rightmost valid node. -/
def right (index : ℤ) (numLeaves : Option ℕ) (fuel : ℕ) : Run ℤ := do
  let k ← level index fuel
  if k = 0 then throw "Leaves have no children"
  else
    let r := bitXor index (shiftLeft 3 ((k : ℤ) - 1))
    match numLeaves with
    | none => return r
    | some numLeaves => loopFrom (rightBody (nodeWidth numLeaves)) r fuel

/-- One step of the parent computation. -/
def parentStep (index : ℤ) (fuel : ℕ) : Run ℤ := do
  let k ← level index fuel
  return bitAnd (bitOr index (shiftLeft 1 k)) (bitNot (shiftLeft 1 ((k : ℤ) + 1)))

/-- Root node index for a tree with `numLeaves` leaves. -/
def root (numLeaves fuel : ℕ) : Run ℤ :=
  if numLeaves = 0 then throw "Tree must have at least one leaf"
  else if numLeaves = 1 then return 0
  else do
    let k ← log2 (nodeWidth numLeaves) fuel
    return shiftLeft 1 k - 1

/-- The loop of `parent`. -/
def parentBody (w : ℤ) (fuel : ℕ) (p : ℤ) : Run (ℤ ⊕ ℤ) :=
  if w ≤ p then do
    let p' ← parentStep p fuel
    return .inl p'
  else return .inr p

/-- Parent of a node. -/
def parent (index : ℤ) (numLeaves fuel : ℕ) : Run ℤ := do
  let r ← root numLeaves fuel
  if index = r then throw "Root has no parent"
  else
    let p ← parentStep index fuel
    loopFrom (parentBody (nodeWidth numLeaves)) p fuel

/-- Sibling of a node. -/
def sibling (index : ℤ) (numLeaves fuel : ℕ) : Run ℤ := do
  let p ← parent index numLeaves fuel
  let l ← left p fuel
  if l = index then right p (some numLeaves) fuel else left p fuel

/-- The loop of `directPath`, with the path so far. -/
def directPathBody (numLeaves : ℕ) (r : ℤ) (fuel : ℕ)
    (state : ℤ × List ℤ) : Run ((ℤ × List ℤ) ⊕ List ℤ) :=
  if state.1 ≠ r then do
    let current ← parent state.1 numLeaves fuel
    return .inl (current, state.2 ++ [current])
  else return .inr state.2

/-- Direct path from a leaf to the root. -/
def directPath (leafIndex : ℤ) (numLeaves fuel : ℕ) : Run (List ℤ) :=
  if numLeaves ≤ 1 then return []
  else do
    let r ← root numLeaves fuel
    loopFrom (directPathBody numLeaves r) (leafIndex, []) fuel

/-- Copath: siblings of the leaf and nodes on the direct path (excluding
root). -/
def copath (leafIndex : ℤ) (numLeaves fuel : ℕ) : Run (List ℤ) := do
  let dp ← directPath leafIndex numLeaves fuel
  (leafIndex :: dp.dropLast).mapM (sibling · numLeaves fuel)

/-- `_isInSubtree` of the class. -/
def isInSubtree (leafIndex subtreeRoot : ℤ) (fuel : ℕ) : Run Bool :=
  if subtreeRoot = leafIndex then return true
  else if isLeaf subtreeRoot then return false
  else do
    let k ← level subtreeRoot fuel
    let halfSpan := shiftLeft 1 k
    return decide (subtreeRoot - halfSpan + 1 ≤ leafIndex) &&
      decide (leafIndex ≤ subtreeRoot + halfSpan - 1)

/-- `_findChildOnOurSide` of the class, in a tree with these leaves seen from
this leaf. -/
def findChildOnOurSide (myLeafIndex : ℤ) (numLeaves : ℕ) (nodeIndex : ℤ)
    (fuel : ℕ) : Run (Option ℤ) :=
  if isLeaf nodeIndex then return none
  else do
    let leftChild ← left nodeIndex fuel
    let rightChild ← right nodeIndex (some numLeaves) fuel
    if ← isInSubtree myLeafIndex leftChild fuel then return some leftChild
    else if ← isInSubtree myLeafIndex rightChild fuel then
      return some rightChild
    else return none

/-! ## When `level` ends -/

/-- A non-negative safe integer. -/
def Safe (index : ℤ) : Prop := 0 ≤ index ∧ index ≤ maxSafeInteger

instance (index : ℤ) : Decidable (Safe index) :=
  inferInstanceAs (Decidable (_ ∧ _))

theorem assert_of_safe {value : ℤ} (h : Safe value) (name : String) :
    assertNonNegativeSafeInt value name = pure () := by
  obtain ⟨hnonneg, hle⟩ := h
  rw [assertNonNegativeSafeInt, if_neg (by omega)]

theorem assert_of_not_safe {value : ℤ} (h : ¬ Safe value) (name : String) :
    ∃ e, assertNonNegativeSafeInt value name = throw e := by
  refine ⟨_, if_pos ?_⟩
  rw [Safe] at h
  omega

theorem level_of_not_safe {index : ℤ} (h : ¬ Safe index) :
    ∃ e, Throws (level index) e := by
  obtain ⟨e, he⟩ := assert_of_not_safe h "index"
  refine ⟨e, 0, fun fuel _ => ?_⟩
  rw [level, he]
  rfl

theorem levelBody_eq (index : ℤ) (fuel k : ℕ) :
    levelBody index fuel k =
      if (toInt32 index).getLsbD (k % 32) then pure (.inl (k + 1))
      else pure (.inr k) := by
  rw [levelBody, and_shiftRight_one]
  by_cases hbit : (toInt32 index).getLsbD (k % 32) = true
  · simp [hbit]
  · simp [hbit]

/-- The loop of `level` stops at the lowest zero bit. -/
theorem levelLoop_ends {index : ℤ} {k : ℕ} (hk : k < 32)
    (hzero : (toInt32 index).getLsbD k = false)
    (hones : ∀ j, j < k → (toInt32 index).getLsbD j = true) :
    ∀ d j, j + d = k → LoopEnds (levelBody index) j (.ok k) := by
  intro d
  induction d with
  | zero =>
      intro j hj
      obtain rfl : j = k := by omega
      refine loopEnds_leave ⟨0, fun fuel _ => ?_⟩
      dsimp only
      rw [levelBody_eq, Nat.mod_eq_of_lt hk, hzero]
      rfl
  | succ d ih =>
      intro j hj
      refine loopEnds_continue ⟨0, fun fuel _ => ?_⟩ (ih (j + 1) (by omega))
      dsimp only
      rw [levelBody_eq, Nat.mod_eq_of_lt (by omega), hones j (by omega)]
      rfl

/-- The level is the position of the lowest zero bit. -/
theorem level_returns {index : ℤ} (hsafe : Safe index) {k : ℕ} (hk : k < 32)
    (hzero : (toInt32 index).getLsbD k = false)
    (hones : ∀ j, j < k → (toInt32 index).getLsbD j = true) :
    Returns (level index) k := by
  have hloop := (levelLoop_ends hk hzero hones k 0 (by omega)).ends
  have hbit : bitAnd index 1 = 0 ↔ k = 0 := by
    rw [and_one]
    rcases Nat.eq_zero_or_pos k with rfl | hpos
    · rw [hzero, if_neg Bool.false_ne_true]
      exact iff_of_true rfl rfl
    · rw [hones 0 hpos, if_pos rfl]
      exact iff_of_false one_ne_zero (by omega)
  obtain ⟨limit, hlimit⟩ := hloop
  refine ⟨limit, fun fuel hfuel => ?_⟩
  rw [level, assert_of_safe hsafe, pure_bind]
  by_cases hkzero : k = 0
  · rw [if_pos (hbit.2 hkzero), hkzero]
    rfl
  · rw [if_neg (mt hbit.1 hkzero), hlimit fuel hfuel]

/-- Without a zero bit the loop of `level` never stops: its shifts begin again
with the lowest bit. -/
theorem level_diverges {index : ℤ} (hsafe : Safe index)
    (hones : ∀ j, j < 32 → (toInt32 index).getLsbD j = true) :
    Diverges (level index) := by
  have hloop : Diverges (loopFrom (levelBody index) 0) := by
    refine diverges_loop (fun _ => True) (fun k _ => ⟨k + 1, trivial, ?_⟩) 0
      trivial
    intro fuel
    rw [levelBody_eq, hones _ (Nat.mod_lt _ (by decide)), if_pos rfl]
  intro fuel
  rw [level, assert_of_safe hsafe, pure_bind, and_one, hones 0 (by decide),
    if_pos rfl, if_neg one_ne_zero, hloop fuel]

/-- The low 32 bits of the index are all one. -/
def AllOnes (index : ℤ) : Prop := index % 2 ^ 32 = 2 ^ 32 - 1

instance (index : ℤ) : Decidable (AllOnes index) :=
  inferInstanceAs (Decidable (_ = _))

theorem allOnes_iff (index : ℤ) :
    AllOnes index ↔ ∀ j, j < 32 → (toInt32 index).getLsbD j = true := by
  have hnat : (toInt32 index).toNat = (index % 2 ^ 32).toNat := by
    rw [toInt32, BitVec.toNat_ofInt]
    norm_num
  have hall : (toInt32 index = BitVec.allOnes 32) ↔
      ∀ j, j < 32 → (toInt32 index).getLsbD j = true := by
    constructor
    · intro h j hj
      rw [h, BitVec.getLsbD_allOnes]
      simpa using hj
    · intro h
      apply BitVec.eq_of_getLsbD_eq
      intro j hj
      rw [h j hj, BitVec.getLsbD_allOnes]
      simpa using hj
  rw [← hall, AllOnes, ← BitVec.toNat_inj, hnat, BitVec.toNat_allOnes]
  have hlow := Int.emod_nonneg index (show (2 ^ 32 : ℤ) ≠ 0 by norm_num)
  omega

/-- A safe integer with a zero among its low 32 bits has a level. -/
theorem exists_level {index : ℤ} (hsafe : Safe index)
    (hbits : ¬ AllOnes index) :
    ∃ k, k < 32 ∧ Returns (level index) k := by
  classical
  rw [allOnes_iff] at hbits
  push Not at hbits
  have hex : ∃ j, j < 32 ∧ (toInt32 index).getLsbD j ≠ true := hbits
  obtain ⟨hk, hzero⟩ := Nat.find_spec hex
  refine ⟨Nat.find hex, hk, level_returns hsafe hk (by simpa using hzero) ?_⟩
  intro j hj
  have hmin := Nat.find_min hex hj
  by_contra hbit
  exact hmin ⟨by omega, hbit⟩

/-- `level` ends unless the index is safe and its low 32 bits are all one. -/
theorem level_terminates_iff (index : ℤ) :
    Terminates (level index) ↔ ¬ (Safe index ∧ AllOnes index) := by
  by_cases hsafe : Safe index
  · by_cases hbits : AllOnes index
    · have hdiverges := level_diverges hsafe ((allOnes_iff index).1 hbits)
      exact iff_of_false hdiverges.not_terminates fun h => h ⟨hsafe, hbits⟩
    · obtain ⟨k, -, hk⟩ := exists_level hsafe hbits
      exact iff_of_true ⟨_, hk⟩ fun h => hbits h.2
  · obtain ⟨e, he⟩ := level_of_not_safe hsafe
    exact iff_of_true ⟨_, he⟩ fun h => hsafe h.1

/-! ## When the functions that use `level` end -/

theorem left_terminates {index : ℤ} (h : Terminates (level index)) :
    Terminates (left index) := by
  refine h.bind fun k _ => ?_
  by_cases hk : k = 0
  · simp only [if_pos hk]
    exact ⟨_, throws_throw _⟩
  · simp only [if_neg hk]
    exact ⟨_, returns_pure _⟩

/-- A program whose first step runs forever runs forever. -/
theorem left_terminates_iff (index : ℤ) :
    Terminates (left index) ↔ Terminates (level index) := by
  refine ⟨fun h => ?_, left_terminates⟩
  by_contra hlevel
  rw [level_terminates_iff, not_not] at hlevel
  have hdiverges := level_diverges hlevel.1 ((allOnes_iff index).1 hlevel.2)
  exact (hdiverges.bind _).not_terminates h

/-! ## Nodes below `2 ^ 31` -/

theorem safe_natCast {x : ℕ} (hx : x < 2 ^ 31) : Safe x := by
  rw [Safe, maxSafeInteger]
  omega

theorem level_lt_of_node_lt {k q m : ℕ} (hx : node k q + 1 < 2 ^ m) :
    k < m := by
  have hone := node_add_one k q
  have hle : 2 ^ k ≤ 2 ^ k * (2 * q + 1) := Nat.le_mul_of_pos_right _ (by omega)
  exact (Nat.pow_lt_pow_iff_right (by decide)).1 (show 2 ^ k < 2 ^ m by omega)

theorem level_node {k q : ℕ} (hx : node k q < 2 ^ 31) :
    Returns (level (node k q)) k := by
  have hk : k < 32 := level_lt_of_node_lt (q := q) (m := 32) (by omega)
  refine level_returns (safe_natCast hx) hk ?_ fun j hj => ?_
  · rw [getLsbD_natCast, testBit_node]
    simp
  · rw [getLsbD_natCast, testBit_node]
    simp [show j < 32 by omega, show j < k + 1 by omega, hj]

theorem left_node {k q : ℕ} (hx : node (k + 1) q < 2 ^ 31) :
    Returns (left (node (k + 1) q)) (node k (2 * q) : ℕ) := by
  have hk : k + 1 < 32 := level_lt_of_node_lt (q := q) (m := 32) (by omega)
  have hpow : 2 ^ k < 2 ^ 31 := Nat.pow_lt_pow_right (by decide) (by omega)
  have hvalue : bitXor (node (k + 1) q : ℕ)
      (shiftLeft 1 (((k + 1 : ℕ) : ℤ) - 1)) =
      ((node k (2 * q) : ℕ) : ℤ) := by
    have hshift := shiftLeft_natCast (m := 1) (k := k) (by omega) (by omega)
    rw [show ((k + 1 : ℕ) : ℤ) - 1 = (k : ℕ) by omega]
    rw [Nat.cast_one, one_mul] at hshift
    rw [hshift, xor_natCast hx hpow, node_succ_xor_two_pow]
  refine (level_node hx).bind ⟨0, fun fuel _ => ?_⟩
  dsimp only
  rw [if_neg (by omega), hvalue]
  rfl

theorem left_node_zero {q : ℕ} (hx : node 0 q < 2 ^ 31) :
    Throws (left (node 0 q)) "Leaves have no children" :=
  (level_node hx).bind ⟨0, fun _ _ => rfl⟩

/-- The left child of a number below `2 ^ 31` is smaller. -/
theorem left_natCast {x : ℕ} (hx : x < 2 ^ 31) :
    Throws (left x) "Leaves have no children" ∨
      ∃ y : ℕ, y < x ∧ Returns (left x) y := by
  obtain ⟨k, q, rfl⟩ := exists_eq_node x
  cases k with
  | zero => exact Or.inl (left_node_zero hx)
  | succ k =>
      refine Or.inr ⟨node k (2 * q), ?_, left_node hx⟩
      have hone := node_add_one (k + 1) q
      have hone' := node_add_one k (2 * q)
      have hless : 2 ^ k * (2 * (2 * q) + 1) < 2 ^ (k + 1) * (2 * q + 1) := by
        rw [pow_succ, mul_assoc]
        exact Nat.mul_lt_mul_of_pos_left (by omega) (by positivity)
      omega

/-! ## When the functions of received indices end -/

theorem nodeWidth_nonneg (numLeaves : ℕ) : 0 ≤ nodeWidth numLeaves := by
  unfold nodeWidth
  split <;> omega

/-- Walking down to the left ends. -/
theorem rightLoop_terminates {w r : ℤ} (hw : 0 ≤ w) (hr : r < 2 ^ 31) :
    Terminates (loopFrom (rightBody w) r) := by
  have hbody : ∀ r : ℤ, r < 2 ^ 31 → ∃ result,
      Ends (rightBody w · r) result ∧
        ∀ r', result = .ok (.inl r') → r' < 2 ^ 31 ∧ r'.toNat < r.toNat := by
    intro r hr
    simp only [rightBody]
    by_cases hle : w ≤ r
    · obtain ⟨x, rfl⟩ := Int.eq_ofNat_of_zero_le (hw.trans hle)
      simp only [if_pos hle]
      rcases left_natCast (x := x) (by omega) with hthrow | ⟨y, hy, hleft⟩
      · refine ⟨_, Throws.bind hthrow _, ?_⟩
        rintro r' ⟨⟩
      · refine ⟨_, Returns.bind hleft (returns_pure (Sum.inl (y : ℤ))), ?_⟩
        rintro r' ⟨⟩
        omega
    · simp only [if_neg hle]
      refine ⟨_, returns_pure (Sum.inr r), ?_⟩
      rintro r' ⟨⟩
  obtain ⟨result, hresult⟩ := exists_loopEnds _ Int.toNat hbody r hr
  exact ⟨result, hresult.ends⟩

theorem right_terminates {index : ℤ} (numLeaves : Option ℕ)
    (h : Terminates (level index)) : Terminates (right index numLeaves) := by
  refine h.bind fun k _ => ?_
  by_cases hk : k = 0
  · simp only [if_pos hk]
    exact ⟨_, throws_throw _⟩
  · simp only [if_neg hk]
    cases numLeaves with
    | none => exact ⟨_, returns_pure _⟩
    | some numLeaves =>
        exact rightLoop_terminates (nodeWidth_nonneg numLeaves) (xor_lt _ _)

theorem isInSubtree_terminates {leafIndex subtreeRoot : ℤ}
    (h : Terminates (level subtreeRoot)) :
    Terminates (isInSubtree leafIndex subtreeRoot) := by
  unfold isInSubtree
  by_cases hsame : subtreeRoot = leafIndex
  · simp only [if_pos hsame]
    exact ⟨_, returns_pure _⟩
  by_cases hleaf : isLeaf subtreeRoot = true
  · simp only [if_neg hsame, if_pos hleaf]
    exact ⟨_, returns_pure _⟩
  · simp only [if_neg hsame, if_neg hleaf]
    exact h.bind fun k _ => ⟨_, returns_pure _⟩

/-- A value that was made by a bitwise operator has a level or is negative. -/
theorem level_terminates_of_lt {index : ℤ} (h : index < 2 ^ 31) :
    Terminates (level index) := by
  rw [level_terminates_iff]
  rintro ⟨⟨hnonneg, -⟩, hbits⟩
  rw [AllOnes, Int.emod_eq_of_lt hnonneg (by omega)] at hbits
  omega

theorem left_lt {index l : ℤ} {fuel : ℕ}
    (h : left index fuel = ended (.ok l)) : l < 2 ^ 31 := by
  obtain ⟨k, -, hk⟩ := bind_eq_ended h
  split at hk
  · exact absurd (ended_inj hk) (by simp)
  · rw [← Except.ok.inj (ended_inj hk)]
    exact xor_lt _ _

theorem right_lt {index r : ℤ} {numLeaves : ℕ} {fuel : ℕ}
    (h : right index (some numLeaves) fuel = ended (.ok r)) : r < 2 ^ 31 := by
  obtain ⟨k, -, hk⟩ := bind_eq_ended h
  split at hk
  · exact absurd (ended_inj hk) (by simp)
  · refine loop_invariant (· < 2 ^ 31) (· < 2 ^ 31) ?_ ?_ (xor_lt _ _) hk
    · intro fuel s s' hs hgo
      rw [rightBody] at hgo
      split at hgo
      · obtain ⟨l, hl, hl'⟩ := bind_eq_ended hgo
        obtain rfl := Sum.inl.inj (Except.ok.inj (ended_inj hl'))
        exact left_lt hl
      · exact absurd (Except.ok.inj (ended_inj hgo)) (by simp)
    · intro fuel s v hs hleave
      rw [rightBody] at hleave
      split at hleave
      · obtain ⟨l, hl, hl'⟩ := bind_eq_ended hleave
        exact absurd (Except.ok.inj (ended_inj hl')) (by simp)
      · obtain rfl := Sum.inr.inj (Except.ok.inj (ended_inj hleave))
        exact hs

theorem findChildOnOurSide_terminates (myLeafIndex : ℤ) (numLeaves : ℕ)
    {nodeIndex : ℤ} (h : Terminates (level nodeIndex)) :
    Terminates (findChildOnOurSide myLeafIndex numLeaves nodeIndex) := by
  unfold findChildOnOurSide
  by_cases hleaf : isLeaf nodeIndex = true
  · simp only [if_pos hleaf]
    exact ⟨_, returns_pure _⟩
  simp only [if_neg hleaf]
  refine (left_terminates h).bind fun l hl => ?_
  obtain ⟨fuel, hfuel⟩ := Ends.exists_eq hl
  have hlevel := level_terminates_of_lt (left_lt hfuel)
  refine (right_terminates (some numLeaves) h).bind fun r hr => ?_
  obtain ⟨fuel', hfuel'⟩ := Ends.exists_eq hr
  have hlevel' := level_terminates_of_lt (right_lt hfuel')
  refine (isInSubtree_terminates hlevel).bind fun inLeft _ => ?_
  cases inLeft with
  | true => exact ⟨_, returns_pure _⟩
  | false =>
      refine (isInSubtree_terminates hlevel').bind fun inRight _ => ?_
      cases inRight with
      | true => exact ⟨_, returns_pure _⟩
      | false => exact ⟨_, returns_pure _⟩

/-- `level`, and so the functions that `processPathUpdate` applies to the node
indices of a received update, ends on a safe integer exactly if its low 32 bits
are not all one. -/
theorem level_terminates_safe_iff (index : ℤ) (hsafe : Safe index) :
    (Terminates (level index) ∧ Terminates (left index) ∧
      (∀ numLeaves, Terminates (right index numLeaves)) ∧
      ∀ myLeafIndex numLeaves,
        Terminates (findChildOnOurSide myLeafIndex numLeaves index)) ↔
      index % 2 ^ 32 ≠ 2 ^ 32 - 1 := by
  constructor
  · rintro ⟨hlevel, -⟩ hbits
    exact (level_terminates_iff index).1 hlevel ⟨hsafe, hbits⟩
  · intro hbits
    have hlevel : Terminates (level index) :=
      (level_terminates_iff index).2 fun h => hbits h.2
    exact ⟨hlevel, left_terminates hlevel,
      fun numLeaves => right_terminates numLeaves hlevel,
      fun myLeafIndex numLeaves =>
        findChildOnOurSide_terminates myLeafIndex numLeaves hlevel⟩

/-- An index of a tree of three leaves. -/
theorem level_terminates_safe_three :
    (Terminates (level 3) ∧ Terminates (left 3) ∧
      (∀ numLeaves, Terminates (right 3 numLeaves)) ∧
      ∀ myLeafIndex numLeaves,
        Terminates (findChildOnOurSide myLeafIndex numLeaves 3)) ↔
      (3 : ℤ) % 2 ^ 32 ≠ 2 ^ 32 - 1 :=
  level_terminates_safe_iff 3 (by decide)

/-- The largest number of 32 bits has no level, and the search for the child on
our side does not end there. -/
theorem level_diverges_on_largest :
    ¬ ∀ index, Safe index → Terminates (level index) ∧
      ∀ myLeafIndex numLeaves,
        Terminates (findChildOnOurSide myLeafIndex numLeaves index) := by
  intro h
  have hsafe : Safe 4294967295 := by decide
  have hlevel : Diverges (level 4294967295) :=
    level_diverges hsafe ((allOnes_iff _).1 (by decide))
  have hleft : Diverges (left 4294967295) := hlevel.bind _
  have hchild : Diverges (findChildOnOurSide 0 2 4294967295) := hleft.bind _
  exact hchild.not_terminates ((h _ hsafe).2 0 2)

end Collabswarm.BeeKEM.TreeMath32
