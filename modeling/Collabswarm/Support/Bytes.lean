import Mathlib.Tactic

/-!
# Byte strings

Fixed-width big-endian numbers and length-prefixed byte strings, as a
`DataView` writes them: a number that does not fit is reduced.  Both can be
read back from the front of a longer byte string.
-/

namespace Collabswarm

/-- A byte string. -/
abbrev Bytes := List UInt8

namespace Bytes

/-- The last `width` bytes of a number, the most significant one first. -/
def bigEndian : ℕ → ℕ → Bytes
  | 0, _ => []
  | width + 1, n => bigEndian width (n / 256) ++ [UInt8.ofNat n]

/-- A byte string behind its length in four bytes. -/
def lengthPrefixed (bytes : Bytes) : Bytes :=
  bigEndian 4 bytes.length ++ bytes

@[simp] theorem length_bigEndian (width n : ℕ) :
    (bigEndian width n).length = width := by
  induction width generalizing n with
  | zero => rfl
  | succ width ih => simp [bigEndian, ih]

theorem bigEndian_inj {width : ℕ} :
    ∀ {m n : ℕ}, bigEndian width m = bigEndian width n →
      m % 256 ^ width = n % 256 ^ width := by
  induction width with
  | zero =>
      intro m n _
      simp [Nat.mod_one]
  | succ width ih =>
      intro m n h
      obtain ⟨hinit, hlast⟩ := List.append_inj' h rfl
      have hlow : m % 256 = n % 256 := by
        have hbyte := congrArg UInt8.toNat (List.singleton_inj.1 hlast)
        simpa using hbyte
      have hhigh := ih hinit
      rw [Nat.pow_succ, Nat.mul_comm, Nat.mod_mul, Nat.mod_mul, hlow, hhigh]

/-- What does not fit is not written. -/
theorem bigEndian_mod (width n : ℕ) :
    bigEndian width (n % 256 ^ width) = bigEndian width n := by
  induction width generalizing n with
  | zero => rfl
  | succ width ih =>
      have hhigh : n % 256 ^ (width + 1) / 256 = n / 256 % 256 ^ width := by
        rw [pow_succ, Nat.mod_mul_left_div_self]
      have hlow : UInt8.ofNat (n % 256 ^ (width + 1)) = UInt8.ofNat n := by
        apply UInt8.toNat_inj.1
        rw [UInt8.toNat_ofNat', UInt8.toNat_ofNat', pow_succ,
          Nat.mod_mul_left_mod]
      rw [bigEndian, bigEndian, hhigh, ih, hlow]
/-- The low bytes of a number can be read back from the front. -/
theorem bigEndian_append_mod {width m n : ℕ} {rest rest' : Bytes}
    (h : bigEndian width m ++ rest = bigEndian width n ++ rest') :
    m % 256 ^ width = n % 256 ^ width ∧ rest = rest' := by
  obtain ⟨hnumber, hrest⟩ := List.append_inj h (by simp)
  exact ⟨bigEndian_inj hnumber, hrest⟩

/-- A number that fits can be read back from the front. -/
theorem bigEndian_append_inj {width m n : ℕ} {rest rest' : Bytes}
    (hm : m < 256 ^ width) (hn : n < 256 ^ width)
    (h : bigEndian width m ++ rest = bigEndian width n ++ rest') :
    m = n ∧ rest = rest' := by
  obtain ⟨hnumber, hrest⟩ := bigEndian_append_mod h
  rw [Nat.mod_eq_of_lt hm, Nat.mod_eq_of_lt hn] at hnumber
  exact ⟨hnumber, hrest⟩

/-- A byte string can be read back from the front. -/
theorem lengthPrefixed_append_inj {bytes bytes' rest rest' : Bytes}
    (hbytes : bytes.length < 256 ^ 4) (hbytes' : bytes'.length < 256 ^ 4)
    (h : lengthPrefixed bytes ++ rest = lengthPrefixed bytes' ++ rest') :
    bytes = bytes' ∧ rest = rest' := by
  rw [lengthPrefixed, lengthPrefixed, List.append_assoc,
    List.append_assoc] at h
  obtain ⟨hlength, hrest⟩ := bigEndian_append_inj hbytes hbytes' h
  exact List.append_inj hrest hlength

end Bytes

end Collabswarm
