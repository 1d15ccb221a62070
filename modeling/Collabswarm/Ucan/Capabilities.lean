import Collabswarm.Support.JsString

/-!
# Capabilities

The abilities `/doc/admin`, `/doc/write` and `/doc/read` form a hierarchy in
which a higher ability implies the lower ones.  Every other string, among them
`/doc/history`, implies itself only.
-/

namespace Collabswarm.Ucan

open JsString

/-- `CAP_DOC_ADMIN`. -/
def capDocAdmin : JsString := ofString "/doc/admin"

/-- `CAP_DOC_WRITE`. -/
def capDocWrite : JsString := ofString "/doc/write"

/-- `CAP_DOC_READ`. -/
def capDocRead : JsString := ofString "/doc/read"

/-- `CAPABILITY_HIERARCHY`. -/
def capabilityHierarchy : List JsString := [capDocAdmin, capDocWrite, capDocRead]

/-- `capabilityImplies`. -/
def capabilityImplies (held required : JsString) : Bool :=
  match capabilityHierarchy.idxOf? held, capabilityHierarchy.idxOf? required with
  | some heldIndex, some requiredIndex => decide (heldIndex ≤ requiredIndex)
  | _, _ => decide (held = required)

theorem capabilityImplies_refl (a : JsString) : capabilityImplies a a = true := by
  rw [capabilityImplies]
  split <;> simp_all

/-- What an ability implies lies below it in the hierarchy, or it is the
ability itself. -/
theorem capabilityImplies_iff {a b : JsString} :
    capabilityImplies a b = true ↔
      a = b ∨ ∃ i j, capabilityHierarchy.idxOf? a = some i ∧
        capabilityHierarchy.idxOf? b = some j ∧ i ≤ j := by
  constructor
  · intro h
    rw [capabilityImplies] at h
    split at h
    · rename_i i j hi hj
      exact Or.inr ⟨i, j, hi, hj, of_decide_eq_true h⟩
    · exact Or.inl (of_decide_eq_true h)
  · rintro (rfl | ⟨i, j, hi, hj, hle⟩)
    · exact capabilityImplies_refl a
    · rw [capabilityImplies, hi, hj]
      exact decide_eq_true hle

/-- Implication is transitive, outside of the hierarchy as well. -/
theorem capabilityImplies_trans {a b c : JsString}
    (hab : capabilityImplies a b = true) (hbc : capabilityImplies b c = true) :
    capabilityImplies a c = true := by
  rw [capabilityImplies_iff] at hab hbc ⊢
  rcases hab with rfl | ⟨i, j, hi, hj, hij⟩
  · exact hbc
  rcases hbc with rfl | ⟨j', k, hj', hk, hjk⟩
  · exact Or.inr ⟨i, j, hi, hj, hij⟩
  · rw [hj] at hj'
    cases hj'
    exact Or.inr ⟨i, k, hi, hk, hij.trans hjk⟩

end Collabswarm.Ucan
