import Mathlib.Tactic
import Mathlib.Data.List.MinMax

/-!
# A map in a replicated document

A document has one root key, whose value is a map.  Operations create a map for
the root key, set a key of a map, or delete one; each names the operations it
overwrites, which are those it saw.  Of several maps for the root key the one
with the greatest number counts, and a key is present if some operation that
sets it was not overwritten.
-/

namespace Collabswarm

variable {O H : Type*}

/-- What an operation does. -/
inductive MapAction (O H : Type*) where
  | make
  | put (obj : O) (key : H)
  | delete (obj : O) (key : H)
deriving DecidableEq

/-- An operation with its number and the operations it overwrites. -/
structure MapOp (O H : Type*) where
  id : O
  action : MapAction O H
  pred : List O
deriving DecidableEq

namespace MapOp

variable [LinearOrder O] [DecidableEq H]

/-- The number of the map that is the value of the root key. -/
def rootMap (ops : List (MapOp O H)) : Option O :=
  ((ops.filter fun op => op.action = .make).map MapOp.id).max?

/-- The operations that set a key and were not overwritten. -/
def live (ops : List (MapOp O H)) (obj : O) (key : H) : List O :=
  (ops.filter fun op => op.action = .put obj key ∧
    op.id ∉ ops.flatMap MapOp.pred).map MapOp.id

/-- Numbers are unique, and operations overwrite earlier ones only. -/
structure WellFormed (ops : List (MapOp O H)) : Prop where
  nodup : (ops.map MapOp.id).Nodup
  pred_mem : ∀ op ∈ ops, ∀ x ∈ op.pred, x ∈ ops.map MapOp.id

theorem rootMap_append {ops : List (MapOp O H)} {op : MapOp O H}
    (h : op.action ≠ .make) : rootMap (ops ++ [op]) = rootMap ops := by
  simp [rootMap, h]

theorem mem_live {ops : List (MapOp O H)} {obj : O} {key : H} {x : O} :
    x ∈ live ops obj key ↔ ∃ op ∈ ops, op.action = .put obj key ∧
      op.id ∉ ops.flatMap MapOp.pred ∧ op.id = x := by
  simp [live, and_assoc]

theorem live_subset (ops : List (MapOp O H)) (obj : O) (key : H) :
    live ops obj key ⊆ ops.map MapOp.id := by
  intro x hx
  obtain ⟨op, hop, -, -, rfl⟩ := mem_live.1 hx
  exact List.mem_map_of_mem hop

omit [LinearOrder O] [DecidableEq H] in
theorem WellFormed.append {ops : List (MapOp O H)} (h : WellFormed ops)
    {op : MapOp O H} (hid : op.id ∉ ops.map MapOp.id)
    (hpred : op.pred ⊆ ops.map MapOp.id) : WellFormed (ops ++ [op]) where
  nodup := by
    rw [List.map_append, List.nodup_append]
    refine ⟨h.nodup, by simp, ?_⟩
    rintro x hx y hy rfl
    rw [List.map_singleton, List.mem_singleton] at hy
    exact hid (hy ▸ hx)
  pred_mem := by
    intro op' hop' x hx
    rw [List.map_append, List.mem_append]
    rcases List.mem_append.1 hop' with hold | hlast
    · exact Or.inl (h.pred_mem op' hold x hx)
    · rw [List.mem_singleton.1 hlast] at hx
      exact Or.inl (hpred hx)

/-- After an operation that overwrites what it saw of its own key, the other
keys are as before. -/
theorem WellFormed.mem_live_append {ops : List (MapOp O H)}
    (h : WellFormed ops) {op : MapOp O H} {obj : O} {key : H}
    (hid : op.id ∉ ops.map MapOp.id) (hpred : op.pred = live ops obj key)
    (key' : H) (x : O) :
    x ∈ live (ops ++ [op]) obj key' ↔
      (key' ≠ key ∧ x ∈ live ops obj key') ∨
        (op.action = .put obj key' ∧ x = op.id) := by
  have hnew : op.id ∉ (ops ++ [op]).flatMap MapOp.pred := by
    simp only [List.mem_flatMap, not_exists, not_and]
    intro op' hop' hx
    rcases List.mem_append.1 hop' with hold | hlast
    · exact hid (h.pred_mem op' hold _ hx)
    · rw [List.mem_singleton.1 hlast, hpred] at hx
      exact hid (live_subset ops obj key hx)
  have hflat : ∀ y, y ∈ (ops ++ [op]).flatMap MapOp.pred ↔
      y ∈ ops.flatMap MapOp.pred ∨ y ∈ live ops obj key := by
    intro y
    rw [List.flatMap_append, List.mem_append, ← hpred]
    simp
  constructor
  · intro hx
    obtain ⟨op', hop', haction, hlive, rfl⟩ := mem_live.1 hx
    rcases List.mem_append.1 hop' with hold | hlast
    · rw [hflat, not_or] at hlive
      have hmem : op'.id ∈ live ops obj key' :=
        mem_live.2 ⟨op', hold, haction, hlive.1, rfl⟩
      refine Or.inl ⟨?_, hmem⟩
      rintro rfl
      exact hlive.2 hmem
    · rw [List.mem_singleton.1 hlast] at haction ⊢
      exact Or.inr ⟨haction, rfl⟩
  · rintro (⟨hne, hx⟩ | ⟨haction, rfl⟩)
    · obtain ⟨op', hop', haction, hlive, rfl⟩ := mem_live.1 hx
      refine mem_live.2 ⟨op', List.mem_append_left _ hop', haction, ?_, rfl⟩
      rw [hflat, not_or]
      refine ⟨hlive, ?_⟩
      intro hover
      obtain ⟨op'', hop'', haction', -, hid'⟩ := mem_live.1 hover
      have heq : op'' = op' := List.inj_on_of_nodup_map h.nodup hop'' hop' hid'
      rw [heq, haction] at haction'
      cases haction'
      exact hne rfl
    · exact mem_live.2 ⟨op, by simp, haction, hnew, rfl⟩

end MapOp

end Collabswarm
