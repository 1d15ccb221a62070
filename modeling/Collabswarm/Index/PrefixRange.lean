import Mathlib.Data.List.TakeWhile
import Collabswarm.Index.IndexStorage
import Collabswarm.Support.PrefixInterval

/-!
# The key range of a prefix

A `prefix` filter is answered from an index by walking the keys from the prefix
on, and below its successor where it has one.  On strings the range is exact: it
contains the strings that start with the prefix and no others, unless the prefix
has no successor.  Strings are ordered by their 16-bit code units.
-/

namespace Collabswarm.Index

/-- The greatest code unit. -/
theorem not_lt_of_greatest (u : UInt16) : ¬ 0xFFFF < u := by
  rw [UInt16.lt_iff_toNat_lt]
  have hlt := u.toNat_lt
  simp only [UInt16.reduceToNat]
  omega

/-- No code unit lies between one and the next. -/
theorem covBy_succ {u : UInt16} (h : u ≠ 0xFFFF) : u ⋖ u + 1 := by
  refine ⟨lt_succ_of_ne h, fun v hlow hhigh => ?_⟩
  have hne : u.toNat ≠ 0xFFFF := fun heq => h (UInt16.toNat_inj.1 heq)
  have hlt := u.toNat_lt
  rw [UInt16.lt_iff_toNat_lt] at hlow hhigh
  rw [UInt16.toNat_add] at hhigh
  simp only [UInt16.reduceToNat] at hhigh
  omega

/-- Only a string of greatest code units has no successor. -/
theorem lexicographicSuccessor_eq_none_iff {p : JsString} :
    lexicographicSuccessor p = none ↔ ∀ u ∈ p, u = 0xFFFF := by
  have hdrop : lexicographicSuccessor p = none ↔
      p.reverse.dropWhile (· == (0xFFFF : UInt16)) = [] := by
    unfold lexicographicSuccessor
    split
    · rename_i hnil
      simp [hnil]
    · rename_i hcons
      simp [hcons]
  rw [hdrop, List.dropWhile_eq_nil_iff]
  simp

/-- Between a prefix and its successor lie the strings that start with it; a
prefix has none if and only if it consists of greatest code units, and then the
strings that start with it are not below it. -/
theorem lexicographicSuccessor_exact (p : JsString) :
    (∀ u, lexicographicSuccessor p = some u →
      ∀ s : JsString, p <+: s ↔ p ≤ s ∧ s < u) ∧
    (lexicographicSuccessor p = none ↔ ∀ u ∈ p, u = 0xFFFF) ∧
    (lexicographicSuccessor p = none → ∀ s : JsString, p <+: s → p ≤ s) := by
  refine ⟨fun t ht s => ?_, lexicographicSuccessor_eq_none_iff, ?_⟩
  · obtain ⟨init, u, k, hne, rfl, rfl⟩ := exists_of_lexicographicSuccessor ht
    exact PrefixInterval.prefix_iff (covBy_succ hne) not_lt_of_greatest k init s
  · rintro - s ⟨rest, rfl⟩
    exact List.le_append_left

/-- The key range of a `prefix` filter contains the strings that start with the
prefix, and without a successor those that are above it. -/
theorem contains_prefixRange_iff {filter : FieldFilter} {p : JsString}
    {range : KeyRange} (hop : filter.operator = .prefixed)
    (hvalue : filter.value = .str p) (hrange : keyRange filter = some range)
    (s : JsString) :
    range.contains (.str s) = true ↔
      p <+: s ∨ (∀ u ∈ p, u = 0xFFFF) ∧ p ≤ s := by
  obtain ⟨hbetween, hnone, hprefix⟩ := lexicographicSuccessor_exact p
  simp only [keyRange, hop, hvalue] at hrange
  split at hrange
  · rename_i hsuccessor
    cases hrange
    simp only [KeyRange.contains, KeyRange.lowerBound, Option.all_some,
      Option.all_none, Bool.and_true, KeyRange.above_str_iff]
    constructor
    · intro hle
      exact Or.inr ⟨hnone.1 hsuccessor, hle⟩
    · rintro (h | ⟨-, hle⟩)
      · exact hprefix hsuccessor s h
      · exact hle
  · rename_i t hsuccessor
    cases hrange
    have hsome : ¬ ∀ u ∈ p, u = 0xFFFF := by
      rw [← hnone, hsuccessor]
      simp
    simp only [KeyRange.contains, KeyRange.bound, Option.all_some,
      Bool.and_eq_true, KeyRange.above_str_iff, KeyRange.below_str_iff]
    rw [← hbetween t hsuccessor s, or_iff_left fun h => hsome h.1]

end Collabswarm.Index
