import Mathlib.Tactic

/-!
# Bitwise operators on 32 bits

Numbers here are integers of any size.  The bitwise operators of the language
take the low 32 bits of their operands, read the result as a signed number, and
shift by a count modulo 32.  Below `2 ^ 31` they are the operators on natural
numbers.
-/

namespace Collabswarm.Bitwise32

/-- The low 32 bits of a number. -/
def toInt32 (x : ℤ) : BitVec 32 := BitVec.ofInt 32 x

/-- `x & y`. -/
def bitAnd (x y : ℤ) : ℤ := (toInt32 x &&& toInt32 y).toInt

/-- `x | y`. -/
def bitOr (x y : ℤ) : ℤ := (toInt32 x ||| toInt32 y).toInt

/-- `x ^ y`. -/
def bitXor (x y : ℤ) : ℤ := (toInt32 x ^^^ toInt32 y).toInt

/-- `~x`. -/
def bitNot (x : ℤ) : ℤ := (~~~ toInt32 x).toInt

/-- `x << k`. -/
def shiftLeft (x k : ℤ) : ℤ := (toInt32 x <<< (k % 32).toNat).toInt

/-- `x >> k`. -/
def shiftRight (x k : ℤ) : ℤ :=
  ((toInt32 x).sshiftRight (k % 32).toNat).toInt

/-- `x >>> 0`. -/
def toUint32 (x : ℤ) : ℕ := (toInt32 x).toNat

/-! ## Bits -/

@[simp] theorem toInt32_toInt (b : BitVec 32) : toInt32 b.toInt = b :=
  BitVec.ofInt_toInt

@[simp] theorem toInt32_natCast (n : ℕ) : toInt32 n = BitVec.ofNat 32 n :=
  BitVec.ofInt_natCast 32 n

@[simp] theorem toNat_natCast_emod (k : ℕ) :
    ((k : ℤ) % 32).toNat = k % 32 := by
  omega

/-- The lowest bit after a shift. -/
theorem and_shiftRight_one (x : ℤ) (k : ℕ) :
    bitAnd (shiftRight x k) 1 =
      if (toInt32 x).getLsbD (k % 32) then 1 else 0 := by
  have hk : k % 32 < 32 := Nat.mod_lt _ (by decide)
  have hone : toInt32 1 = 1#32 := rfl
  rw [bitAnd, shiftRight, toNat_natCast_emod, toInt32_toInt, hone,
    BitVec.and_one_eq_setWidth_ofBool_getLsbD]
  have hbit : ((toInt32 x).sshiftRight (k % 32)).getLsbD 0 =
      (toInt32 x).getLsbD (k % 32) := by
    rw [BitVec.getLsbD_sshiftRight]
    simp [hk]
  rw [hbit]
  cases (toInt32 x).getLsbD (k % 32) <;> rfl

/-- The lowest bit. -/
theorem and_one (x : ℤ) :
    bitAnd x 1 = if (toInt32 x).getLsbD 0 then 1 else 0 := by
  have hone : toInt32 1 = 1#32 := rfl
  rw [bitAnd, hone, BitVec.and_one_eq_setWidth_ofBool_getLsbD]
  cases (toInt32 x).getLsbD 0 <;> rfl

/-! ## Unsigned results -/

theorem toUint32_or (x y : ℤ) :
    toUint32 (bitOr x y) = toUint32 x ||| toUint32 y := by
  rw [toUint32, bitOr, toInt32_toInt, BitVec.toNat_or]
  rfl

theorem toUint32_natCast {n : ℕ} (h : n < 2 ^ 32) : toUint32 n = n := by
  rw [toUint32, toInt32_natCast, BitVec.toNat_ofNat, Nat.mod_eq_of_lt h]

theorem toUint32_shiftLeft_natCast {m k : ℕ} (hk : k < 32)
    (h : m * 2 ^ k < 2 ^ 32) : toUint32 (shiftLeft m k) = m * 2 ^ k := by
  rw [toUint32, shiftLeft, toInt32_toInt, toInt32_natCast,
    toNat_natCast_emod, Nat.mod_eq_of_lt hk, BitVec.toNat_shiftLeft,
    BitVec.toNat_ofNat, Nat.shiftLeft_eq, Nat.mod_mul_mod, Nat.mod_eq_of_lt h]

/-! ## Natural numbers below `2 ^ 31` -/

theorem toInt_ofNat_of_lt {n : ℕ} (h : n < 2 ^ 31) :
    (BitVec.ofNat 32 n).toInt = n := by
  have hnat : (BitVec.ofNat 32 n).toNat = n := by
    rw [BitVec.toNat_ofNat]
    exact Nat.mod_eq_of_lt (by omega)
  rw [BitVec.toInt_eq_toNat_of_lt (by omega), hnat]

theorem and_natCast {m n : ℕ} (hm : m < 2 ^ 31) :
    bitAnd m n = ((m &&& n : ℕ) : ℤ) := by
  rw [bitAnd, toInt32_natCast, toInt32_natCast, ← BitVec.ofNat_and,
    toInt_ofNat_of_lt (lt_of_le_of_lt Nat.and_le_left hm)]

theorem or_natCast {m n : ℕ} (hm : m < 2 ^ 31) (hn : n < 2 ^ 31) :
    bitOr m n = ((m ||| n : ℕ) : ℤ) := by
  rw [bitOr, toInt32_natCast, toInt32_natCast, ← BitVec.ofNat_or,
    toInt_ofNat_of_lt (Nat.or_lt_two_pow hm hn)]

theorem xor_natCast {m n : ℕ} (hm : m < 2 ^ 31) (hn : n < 2 ^ 31) :
    bitXor m n = ((m ^^^ n : ℕ) : ℤ) := by
  rw [bitXor, toInt32_natCast, toInt32_natCast, ← BitVec.ofNat_xor,
    toInt_ofNat_of_lt (Nat.xor_lt_two_pow hm hn)]

theorem shiftLeft_natCast {m k : ℕ} (hk : k < 32) (h : m * 2 ^ k < 2 ^ 31) :
    shiftLeft m k = ((m * 2 ^ k : ℕ) : ℤ) := by
  rw [shiftLeft, toInt32_natCast, toNat_natCast_emod, Nat.mod_eq_of_lt hk]
  have hshift : BitVec.ofNat 32 m <<< k = BitVec.ofNat 32 (m * 2 ^ k) := by
    apply BitVec.eq_of_toNat_eq
    rw [BitVec.toNat_shiftLeft, BitVec.toNat_ofNat, BitVec.toNat_ofNat,
      Nat.shiftLeft_eq, Nat.mod_mul_mod]
  rw [hshift, toInt_ofNat_of_lt h]

theorem shiftRight_natCast {m k : ℕ} (hm : m < 2 ^ 31) (hk : k < 32) :
    shiftRight m k = ((m >>> k : ℕ) : ℤ) := by
  have hmsb : (BitVec.ofNat 32 m).msb = false := by
    rw [BitVec.msb_eq_decide, BitVec.toNat_ofNat]
    simp only [decide_eq_false_iff_not]
    omega
  have hle : m >>> k ≤ m := Nat.shiftRight_le m k
  rw [shiftRight, toInt32_natCast, toNat_natCast_emod, Nat.mod_eq_of_lt hk,
    BitVec.sshiftRight_eq_of_msb_false hmsb]
  have hshift : BitVec.ofNat 32 m >>> k = BitVec.ofNat 32 (m >>> k) := by
    apply BitVec.eq_of_toNat_eq
    rw [BitVec.toNat_ushiftRight, BitVec.toNat_ofNat, BitVec.toNat_ofNat,
      Nat.mod_eq_of_lt (show m < 2 ^ 32 by omega),
      Nat.mod_eq_of_lt (show m >>> k < 2 ^ 32 by omega)]
  rw [hshift, toInt_ofNat_of_lt (by omega)]

theorem getLsbD_natCast (n k : ℕ) :
    (toInt32 n).getLsbD k = (decide (k < 32) && n.testBit k) := by
  rw [toInt32_natCast, BitVec.getLsbD_ofNat]

theorem xor_lt (x y : ℤ) : bitXor x y < 2 ^ 31 :=
  BitVec.toInt_lt (x := toInt32 x ^^^ toInt32 y)

/-- Clearing a bit. -/
theorem and_not_two_pow {m k : ℕ} (hm : m < 2 ^ 31) (hk : k < 31) :
    bitAnd m (bitNot (shiftLeft 1 (k : ℕ))) =
      ((m ^^^ (m &&& 2 ^ k) : ℕ) : ℤ) := by
  have hpow : 2 ^ k < 2 ^ 31 := Nat.pow_lt_pow_right (by decide) hk
  have hxor : m ^^^ (m &&& 2 ^ k) < 2 ^ 31 :=
    Nat.xor_lt_two_pow hm (lt_of_le_of_lt Nat.and_le_left hm)
  have hshift : shiftLeft 1 (k : ℕ) = ((2 ^ k : ℕ) : ℤ) := by
    have h := shiftLeft_natCast (m := 1) (k := k) (by omega) (by omega)
    simpa using h
  rw [hshift, bitNot, bitAnd, toInt32_natCast, toInt32_natCast, toInt32_toInt]
  have hbits : BitVec.ofNat 32 m &&& ~~~ BitVec.ofNat 32 (2 ^ k) =
      BitVec.ofNat 32 (m ^^^ (m &&& 2 ^ k)) := by
    rw [BitVec.ofNat_xor, BitVec.ofNat_and]
    apply BitVec.eq_of_getLsbD_eq
    intro i hi
    simp only [BitVec.getLsbD_and, BitVec.getLsbD_not, BitVec.getLsbD_xor, hi,
      decide_true, Bool.true_and]
    cases (BitVec.ofNat 32 m).getLsbD i <;>
      cases (BitVec.ofNat 32 (2 ^ k)).getLsbD i <;> rfl
  rw [hbits, toInt_ofNat_of_lt hxor]

end Collabswarm.Bitwise32
