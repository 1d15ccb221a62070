import Mathlib.Tactic
import Mathlib.Order.CompletePartialOrder

/-!
# Climbs through a branching relation

A relation leads from a node to its children.  A climb goes from a node to a
parent of it, again and again, and passes another child at every step.  Where
the leaves below a parent are split between the two children, the children that
a climb passes split the leaves below its last node, less those below its first.
-/

namespace Collabswarm.Branching

variable {α : Type*}

/-! ## Leaves below a node -/

/-- The node itself, or one that its children lead to. -/
def Descends (child : α → α → Prop) : α → α → Prop :=
  Relation.ReflTransGen child

/-- The leaves that a node leads to. -/
def leavesBelow (child : α → α → Prop) (leaves : Set α) (x : α) : Set α :=
  {y | y ∈ leaves ∧ Descends child x y}

section Leaves

variable {child : α → α → Prop} {leaves : Set α}

theorem leavesBelow_of_childless {x : α} (hchild : ∀ y, ¬ child x y)
    (hx : x ∈ leaves) : leavesBelow child leaves x = {x} := by
  ext y
  constructor
  · rintro ⟨-, hy⟩
    rcases Relation.ReflTransGen.cases_head hy with rfl | ⟨z, hz, -⟩
    · rfl
    · exact absurd hz (hchild z)
  · rintro rfl
    exact ⟨hx, Relation.ReflTransGen.refl⟩

/-- The leaves below a node with two children. -/
theorem leavesBelow_of_children {p a b : α} (hp : p ∉ leaves)
    (hchild : ∀ x, child p x ↔ x = a ∨ x = b) :
    leavesBelow child leaves p =
      leavesBelow child leaves a ∪ leavesBelow child leaves b := by
  ext y
  constructor
  · rintro ⟨hy, hdown⟩
    rcases Relation.ReflTransGen.cases_head hdown with rfl | ⟨x, hx, hdown⟩
    · exact absurd hy hp
    · rcases (hchild x).1 hx with rfl | rfl
      · exact Or.inl ⟨hy, hdown⟩
      · exact Or.inr ⟨hy, hdown⟩
  · rintro (⟨hy, hdown⟩ | ⟨hy, hdown⟩)
    · exact ⟨hy, hdown.head ((hchild a).2 (Or.inl rfl))⟩
    · exact ⟨hy, hdown.head ((hchild b).2 (Or.inr rfl))⟩

end Leaves

/-! ## Climbs -/

/-- From the node a climb goes through the first list and passes the second.
`other p x c` says that `c` is what a climb passes on its way from `x` to
`p`. -/
inductive Climb (other : α → α → α → Prop) : α → List α → List α → Prop
  | top (x : α) : Climb other x [] []
  | step {x p c : α} {path passed : List α} (hother : other p x c)
      (hrest : Climb other p path passed) :
      Climb other x (p :: path) (c :: passed)

/-- What belongs to a node is split between each node below it and what a climb
passes there. -/
def Splits {β : Type*} (other : α → α → α → Prop) (part : α → Set β) (p : α) :
    Prop :=
  ∀ x c, other p x c → part p = part x ∪ part c ∧ Disjoint (part x) (part c)

namespace Climb

variable {other : α → α → α → Prop} {x : α} {path passed : List α}

theorem length_eq (h : Climb other x path passed) :
    passed.length = path.length := by
  induction h with
  | top x => rfl
  | step _ _ ih => rw [List.length_cons, List.length_cons, ih]

/-- What a climb passes at each of its steps. -/
theorem other_getElem? (h : Climb other x path passed) :
    ∀ {j : ℕ} {p c y : α}, path[j]? = some p → passed[j]? = some c →
      (x :: path)[j]? = some y → other p y c := by
  induction h with
  | top x =>
      intro j p c y hp
      simp at hp
  | step hother _ ih =>
      intro j p c y hp hc hy
      cases j with
      | zero =>
          simp only [List.getElem?_cons_zero, Option.some.injEq] at hp hc hy
          rwa [← hp, ← hc, ← hy]
      | succ j =>
          rw [List.getElem?_cons_succ] at hp hc hy
          exact ih hp hc hy

section Parts

variable {β : Type*} {part : α → Set β}

/-- What a climb passes is apart from what it starts with. -/
theorem disjoint_start (h : Climb other x path passed)
    (hpart : ∀ p ∈ path, Splits other part p) :
    ∀ c ∈ passed, Disjoint (part x) (part c) := by
  induction h with
  | top x =>
      intro c hc
      simp at hc
  | step hother _ ih =>
      intro d hd
      obtain ⟨hunion, hdisjoint⟩ := hpart _ List.mem_cons_self _ _ hother
      rcases List.mem_cons.1 hd with rfl | hd
      · exact hdisjoint
      · have hrest := ih (fun p hp => hpart p (List.mem_cons_of_mem _ hp)) d hd
        rw [hunion] at hrest
        exact hrest.mono_left Set.subset_union_left

/-- What a climb passes is apart from one another. -/
theorem pairwise_disjoint (h : Climb other x path passed)
    (hpart : ∀ p ∈ path, Splits other part p) :
    passed.Pairwise fun c d => Disjoint (part c) (part d) := by
  induction h with
  | top x => exact List.Pairwise.nil
  | step hother hrest ih =>
      have habove := fun p hp => hpart p (List.mem_cons_of_mem _ hp)
      obtain ⟨hunion, -⟩ := hpart _ List.mem_cons_self _ _ hother
      refine List.pairwise_cons.2 ⟨fun d hd => ?_, ih habove⟩
      have hstart := hrest.disjoint_start habove d hd
      rw [hunion] at hstart
      exact hstart.mono_left Set.subset_union_right

/-- What a climb passes makes up what it ends with, together with what it
starts with. -/
theorem union_passed (h : Climb other x path passed)
    (hpart : ∀ p ∈ path, Splits other part p) {r : α}
    (hlast : (x :: path).getLast? = some r) :
    part x ∪ ⋃ c ∈ passed, part c = part r := by
  induction h with
  | top x =>
      rw [List.getLast?_singleton, Option.some.injEq] at hlast
      simp [hlast]
  | step hother _ ih =>
      obtain ⟨hunion, -⟩ := hpart _ List.mem_cons_self _ _ hother
      rw [List.getLast?_cons_cons] at hlast
      rw [← ih (fun p hp => hpart p (List.mem_cons_of_mem _ hp)) hlast, hunion]
      simp [Set.union_assoc]

/-- What a climb passes is what it ends with, less what it starts with. -/
theorem passed_eq_diff (h : Climb other x path passed)
    (hpart : ∀ p ∈ path, Splits other part p) {r : α}
    (hlast : (x :: path).getLast? = some r) :
    ⋃ c ∈ passed, part c = part r \ part x := by
  rw [← h.union_passed hpart hlast, Set.union_sdiff_left]
  refine (Disjoint.sdiff_eq_left ?_).symm
  rw [Set.disjoint_iUnion₂_left]
  exact fun c hc => (h.disjoint_start hpart c hc).symm

end Parts

end Climb

end Collabswarm.Branching
