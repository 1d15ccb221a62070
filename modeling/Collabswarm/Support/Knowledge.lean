import Mathlib.Data.Set.Basic
import Mathlib.Tactic

/-!
# Keys derivable from sealed messages

An observer knows some keys and has seen a collection of boxes.  A box
`(k, p)` yields the key `p` to whoever has the key `k`.  The derivable keys are
the least set that contains the known keys and is closed under opening.
-/

namespace Collabswarm

variable {K : Type*}

/-- The closure of the known keys under opening boxes. -/
inductive Derivable (known : Set K) (boxes : Set (K × K)) : K → Prop
  | known {k : K} : k ∈ known → Derivable known boxes k
  | opened {k p : K} : Derivable known boxes k → (k, p) ∈ boxes →
      Derivable known boxes p

/-- A set of keys from which no box leads out. -/
def ClosedUnder (boxes : Set (K × K)) (D : Set K) : Prop :=
  ∀ k p, k ∈ D → (k, p) ∈ boxes → p ∈ D

theorem Derivable.mem_of_closed {known : Set K} {boxes : Set (K × K)}
    {D : Set K} (hknown : known ⊆ D) (hclosed : ClosedUnder boxes D) {k : K}
    (h : Derivable known boxes k) : k ∈ D := by
  induction h with
  | known hk => exact hknown hk
  | opened _ hbox ih => exact hclosed _ _ ih hbox

theorem closedUnder_derivable (known : Set K) (boxes : Set (K × K)) :
    ClosedUnder boxes {k | Derivable known boxes k} :=
  fun _ _ hk hbox => hk.opened hbox

/-- A derivable key is known or the content of a box. -/
theorem Derivable.known_or_boxed {known : Set K} {boxes : Set (K × K)}
    {k : K} (h : Derivable known boxes k) :
    k ∈ known ∨ ∃ opener, (opener, k) ∈ boxes := by
  cases h with
  | known hk => exact Or.inl hk
  | opened _ hbox => exact Or.inr ⟨_, hbox⟩

end Collabswarm
