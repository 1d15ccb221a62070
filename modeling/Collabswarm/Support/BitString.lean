import Mathlib.Data.Nat.Bitwise
import Collabswarm.Support.Bytes

/-!
# Byte strings as bit strings

Bit `i` of a byte string is bit `i % 8` of the byte `i / 8`.  Setting a bit and
the bitwise disjunction act on the bits as expected, and a byte string is
determined by its length and its bits.
-/

namespace Collabswarm.BitString

/-- The byte in which only the bit of the index is set. -/
def mask (index : ℕ) : UInt8 := UInt8.ofNat (1 <<< (index % 8))

/-- Set a bit. -/
def setBit (bits : Bytes) (index : ℕ) : Bytes :=
  bits.modify (index / 8) (· ||| mask index)

/-- Read a bit; outside of the byte string it is not set. -/
def getBit (bits : Bytes) (index : ℕ) : Bool :=
  decide (bits.getD (index / 8) 0 &&& mask index ≠ 0)

/-- The bitwise disjunction. -/
def orBytes (bits other : Bytes) : Bytes := List.zipWith (· ||| ·) bits other

@[simp] theorem length_setBit (bits : Bytes) (index : ℕ) :
    (setBit bits index).length = bits.length := by
  simp [setBit]

theorem length_orBytes {bits other : Bytes} (h : other.length = bits.length) :
    (orBytes bits other).length = bits.length := by
  simp [orBytes, h]

theorem toNat_mask (index : ℕ) : (mask index).toNat = 2 ^ (index % 8) := by
  have hlt : 2 ^ (index % 8) < 2 ^ 8 :=
    Nat.pow_lt_pow_right (by decide) (Nat.mod_lt _ (by decide))
  rw [mask, Nat.one_shiftLeft, UInt8.toNat_ofNat']
  exact Nat.mod_eq_of_lt hlt

/-- Reading a bit tests a bit of the byte as a number. -/
theorem getBit_eq_testBit (bits : Bytes) (index : ℕ) :
    getBit bits index =
      (bits.getD (index / 8) 0).toNat.testBit (index % 8) := by
  have hzero : ∀ b : UInt8, b = 0 ↔ b.toNat = 0 := fun b => by
    rw [← UInt8.toNat_inj]
    rfl
  simp only [getBit, ne_eq, hzero, UInt8.toNat_and, toNat_mask,
    Nat.and_two_pow]
  cases (bits.getD (index / 8) 0).toNat.testBit (index % 8) <;> simp

theorem getBit_setBit {bits : Bytes} {index : ℕ}
    (h : index / 8 < bits.length) (i : ℕ) :
    getBit (setBit bits index) i = (decide (i = index) || getBit bits i) := by
  rw [getBit_eq_testBit, getBit_eq_testBit, setBit]
  by_cases hbyte : i / 8 = index / 8
  · have hget : (bits.modify (index / 8) (· ||| mask index)).getD (i / 8) 0 =
        bits.getD (i / 8) 0 ||| mask index := by
      simp [List.getD_eq_getElem?_getD, hbyte, h]
    have hindex : i = index ↔ index % 8 = i % 8 := by omega
    rw [hget, UInt8.toNat_or, toNat_mask, Nat.testBit_or, Nat.testBit_two_pow,
      Bool.or_comm]
    simp only [hindex]
  · have hget : (bits.modify (index / 8) (· ||| mask index)).getD (i / 8) 0 =
        bits.getD (i / 8) 0 := by
      simp [List.getD_eq_getElem?_getD, Ne.symm hbyte]
    have hindex : i ≠ index := fun heq => hbyte (by rw [heq])
    rw [hget, decide_eq_false hindex, Bool.false_or]

theorem getBit_orBytes {bits other : Bytes} (h : other.length = bits.length)
    (i : ℕ) :
    getBit (orBytes bits other) i = (getBit bits i || getBit other i) := by
  have hget : (orBytes bits other).getD (i / 8) 0 =
      bits.getD (i / 8) 0 ||| other.getD (i / 8) 0 := by
    rw [orBytes]
    by_cases hlt : i / 8 < bits.length
    · simp [List.getD_eq_getElem?_getD, hlt, h]
    · simp [List.getD_eq_getElem?_getD, hlt, h]
  rw [getBit_eq_testBit, getBit_eq_testBit, getBit_eq_testBit, hget,
    UInt8.toNat_or, Nat.testBit_or]

theorem getBit_of_length_le {bits : Bytes} {i : ℕ}
    (h : 8 * bits.length ≤ i) : getBit bits i = false := by
  have hget : bits.getD (i / 8) 0 = 0 := by
    rw [List.getD_eq_getElem?_getD, List.getElem?_eq_none (by omega)]
    rfl
  rw [getBit_eq_testBit, hget]
  exact Nat.zero_testBit _

theorem getBit_replicate (n i : ℕ) :
    getBit (List.replicate n 0) i = false := by
  have hget : (List.replicate n (0 : UInt8)).getD (i / 8) 0 = 0 := by
    rw [List.getD_eq_getElem?_getD, List.getElem?_replicate]
    split <;> rfl
  rw [getBit_eq_testBit, hget]
  exact Nat.zero_testBit _

/-- A byte string is determined by its length and its bits. -/
theorem ext_getBit {bits other : Bytes} (hlength : bits.length = other.length)
    (h : ∀ i, getBit bits i = getBit other i) : bits = other := by
  refine List.ext_getElem hlength fun n hn hn' => ?_
  rw [← UInt8.toNat_inj]
  apply Nat.eq_of_testBit_eq
  intro j
  by_cases hj : j < 8
  · have hbit := h (8 * n + j)
    have hdiv : (8 * n + j) / 8 = n := by omega
    have hmod : (8 * n + j) % 8 = j := by omega
    rw [getBit_eq_testBit, getBit_eq_testBit, hdiv, hmod] at hbit
    simpa [List.getD_eq_getElem?_getD, hn, hn'] using hbit
  · have hhigh : ∀ b : UInt8, b.toNat.testBit j = false := fun b => by
      apply Nat.testBit_lt_two_pow
      exact b.toNat_lt.trans_le (Nat.pow_le_pow_right (by decide) (by omega))
    rw [hhigh, hhigh]

end Collabswarm.BitString
