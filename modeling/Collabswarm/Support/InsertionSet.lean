import Collabswarm.Support.FieldOrder

/-!
# Sets that keep their insertion order

A set lists its elements in the order in which they were added.  What is added
goes to the end, so deleting all entries past an earlier size undoes everything
that was added since.
-/

namespace Collabswarm

/-- A set with its elements in the order in which they were added. -/
@[ext]
structure InsertionSet (α : Type) where
  toList : List α
  nodup : toList.Nodup

namespace InsertionSet

variable {α : Type}

/-- The empty set. -/
def empty : InsertionSet α :=
  ⟨[], List.nodup_nil⟩

/-- The number of elements. -/
def size (s : InsertionSet α) : ℕ :=
  s.toList.length

variable [DecidableEq α]

/-- Add an element; one that is there keeps its place. -/
def add (s : InsertionSet α) (a : α) : InsertionSet α :=
  ⟨FieldOrder.touch s.toList a, FieldOrder.nodup_touch s.nodup a⟩

/-- Delete an element. -/
def delete (s : InsertionSet α) (a : α) : InsertionSet α :=
  ⟨s.toList.erase a, s.nodup.erase a⟩

/-- Delete the entries past a size, if there are any. -/
def deletePast (s : InsertionSet α) (sizeBefore : ℕ) : InsertionSet α :=
  if sizeBefore < s.size then (s.toList.drop sizeBefore).foldl delete s else s

/-- The set has the elements of another in the same places, and perhaps more
behind them. -/
def Extends (s s' : InsertionSet α) : Prop :=
  s.toList <+: s'.toList

omit [DecidableEq α] in
theorem Extends.refl (s : InsertionSet α) : s.Extends s :=
  List.prefix_rfl

omit [DecidableEq α] in
theorem Extends.trans {s s' s'' : InsertionSet α} (h : s.Extends s')
    (h' : s'.Extends s'') : s.Extends s'' :=
  List.IsPrefix.trans h h'

@[simp] theorem mem_add {s : InsertionSet α} {a b : α} :
    b ∈ (s.add a).toList ↔ b ∈ s.toList ∨ b = a :=
  FieldOrder.mem_touch

theorem toList_add_of_not_mem {s : InsertionSet α} {a : α}
    (h : a ∉ s.toList) : (s.add a).toList = s.toList ++ [a] :=
  if_neg h

@[simp] theorem mem_delete {s : InsertionSet α} {a b : α} :
    b ∈ (s.delete a).toList ↔ b ≠ a ∧ b ∈ s.toList :=
  s.nodup.mem_erase_iff

theorem size_delete_le (s : InsertionSet α) (a : α) :
    (s.delete a).size ≤ s.size :=
  List.length_erase_le

theorem extends_add (s : InsertionSet α) (a : α) : s.Extends (s.add a) := by
  unfold Extends add FieldOrder.touch
  dsimp only
  split
  · exact List.prefix_rfl
  · exact List.prefix_append _ _

theorem extends_foldl_add (added : List α) :
    ∀ s : InsertionSet α, s.Extends (added.foldl add s) := by
  induction added with
  | nil => exact Extends.refl
  | cons a added ih =>
      intro s
      exact (extends_add s a).trans (ih (s.add a))

theorem toList_foldl_delete (removed : List α) :
    ∀ s : InsertionSet α,
      (removed.foldl delete s).toList = s.toList.diff removed := by
  induction removed with
  | nil =>
      intro s
      rfl
  | cons a removed ih =>
      intro s
      rw [List.foldl_cons, ih, List.diff_cons]
      rfl

/-- What was added past a size is deleted. -/
theorem deletePast_of_extends {s s' : InsertionSet α} (h : s.Extends s') :
    s'.deletePast s.size = s := by
  obtain ⟨added, hadded⟩ := h
  have hdrop : s'.toList.drop s.size = added := by
    rw [← hadded]
    exact List.drop_left
  have hdisjoint : s.toList.Disjoint added := by
    have hnodup := s'.nodup
    rw [← hadded] at hnodup
    exact List.disjoint_of_nodup_append hnodup
  rw [InsertionSet.ext_iff, deletePast]
  split
  · rw [toList_foldl_delete, hdrop, s'.nodup.sdiff_eq_filter, ← hadded,
      List.filter_append, List.filter_eq_self.2, List.filter_eq_nil_iff.2,
      List.append_nil]
    · intro a ha
      simpa using ha
    · intro a ha
      simpa using hdisjoint ha
  · rename_i hsize
    have hempty : added = [] := by
      have hlength := congrArg List.length hadded
      rw [List.length_append] at hlength
      unfold size at hsize
      exact List.eq_nil_of_length_eq_zero (by omega)
    rw [← hadded, hempty, List.append_nil]

end InsertionSet

end Collabswarm
