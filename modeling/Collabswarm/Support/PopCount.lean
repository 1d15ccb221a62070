import Mathlib.Data.Nat.Bitwise
import Mathlib.Tactic.Ring

/-!
# Counting the bits of a number

Clearing the lowest set bit until nothing is left takes as many steps as there
are set bits.
-/

namespace Collabswarm.PopCount

theorem and_pred_lt {n : ℕ} (h : n ≠ 0) : n &&& (n - 1) < n :=
  Nat.and_le_right.trans_lt (Nat.sub_one_lt h)

/-- How often the lowest set bit is cleared until the number is zero, by
`n &= n - 1`. -/
def bitCount (n : ℕ) : ℕ :=
  if h : n = 0 then 0 else bitCount (n &&& (n - 1)) + 1
termination_by n
decreasing_by exact and_pred_lt h

@[simp] theorem bitCount_zero : bitCount 0 = 0 := by
  rw [bitCount, dif_pos rfl]

theorem bitCount_of_ne_zero {n : ℕ} (h : n ≠ 0) :
    bitCount n = bitCount (n &&& (n - 1)) + 1 := by
  rw [bitCount, dif_neg h]

/-- The lowest set bit of an even number is above its last place. -/
theorem two_mul_and_pred {n : ℕ} (h : n ≠ 0) :
    2 * n &&& (2 * n - 1) = 2 * (n &&& (n - 1)) := by
  have hpred : 2 * n - 1 = 2 * (n - 1) + 1 := by omega
  apply Nat.eq_of_testBit_eq
  intro i
  rw [hpred, Nat.testBit_and]
  cases i with
  | zero => simp
  | succ i =>
      rw [Nat.testBit_succ, Nat.testBit_succ, Nat.testBit_succ]
      have hleft : 2 * n / 2 = n := by omega
      have hright : (2 * (n - 1) + 1) / 2 = n - 1 := by omega
      have hboth : 2 * (n &&& (n - 1)) / 2 = n &&& (n - 1) := by omega
      rw [hleft, hright, hboth, Nat.testBit_and]

/-- The lowest set bit of an odd number is its last one. -/
theorem two_mul_add_one_and (n : ℕ) : (2 * n + 1) &&& (2 * n) = 2 * n := by
  apply Nat.eq_of_testBit_eq
  intro i
  rw [Nat.testBit_and]
  cases i with
  | zero => simp
  | succ i =>
      have hodd : (2 * n + 1) / 2 = 2 * n / 2 := by omega
      rw [Nat.testBit_succ, Nat.testBit_succ, hodd, Bool.and_self]

theorem bitCount_two_mul (n : ℕ) : bitCount (2 * n) = bitCount n := by
  induction n using Nat.strong_induction_on with
  | _ n ih =>
      by_cases hn : n = 0
      · rw [hn]
      · rw [bitCount_of_ne_zero (n := 2 * n) (by omega), two_mul_and_pred hn,
          ih _ (and_pred_lt hn), ← bitCount_of_ne_zero hn]

theorem bitCount_two_mul_add_one (n : ℕ) :
    bitCount (2 * n + 1) = bitCount n + 1 := by
  rw [bitCount_of_ne_zero (n := 2 * n + 1) (by omega), Nat.add_sub_cancel,
    two_mul_add_one_and, bitCount_two_mul]

/-- The bits are counted. -/
theorem bitCount_eq_countP {n w : ℕ} (h : n < 2 ^ w) :
    bitCount n = (List.range w).countP n.testBit := by
  induction w generalizing n with
  | zero =>
      obtain rfl : n = 0 := by omega
      rw [bitCount_zero]
      rfl
  | succ w ih =>
      have hhalf : n / 2 < 2 ^ w := by
        rw [pow_succ] at h
        omega
      have htail : (List.range w).countP (n.testBit ∘ Nat.succ) =
          bitCount (n / 2) := by
        rw [ih hhalf]
        congr 1
        funext i
        exact Nat.testBit_succ n i
      rw [List.range_succ_eq_map, List.countP_cons, List.countP_map, htail]
      rcases Nat.mod_two_eq_zero_or_one n with hmod | hmod
      · have hn : n = 2 * (n / 2) := by omega
        conv_lhs => rw [hn, bitCount_two_mul]
        simp [Nat.testBit_zero, hmod]
      · have hn : n = 2 * (n / 2) + 1 := by omega
        conv_lhs => rw [hn, bitCount_two_mul_add_one]
        simp [Nat.testBit_zero, hmod]

end Collabswarm.PopCount
