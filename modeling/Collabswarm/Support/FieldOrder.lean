import Mathlib.Tactic
import Collabswarm.Support.InsertionMap

/-!
# The order of an object's fields

An object has a value or nothing in each of its fields and lists the fields in
the order in which they were first set.  Its entries are the fields that hold a
value, under their names and in that order.
-/

namespace Collabswarm

namespace FieldOrder

variable {F K V : Type} [DecidableEq F]

/-- The order after a field was set: a new field goes to the end. -/
def touch (order : List F) (f : F) : List F :=
  if f ∈ order then order else order ++ [f]

/-- The entries of an object: the fields that hold a value. -/
def entries (name : F → K) (value : F → Option V) (order : List F) :
    List (K × V) :=
  order.filterMap fun f => (value f).map fun v => (name f, v)

theorem mem_touch {order : List F} {f g : F} :
    g ∈ touch order f ↔ g ∈ order ∨ g = f := by
  unfold touch
  split_ifs with hf
  · constructor
    · exact Or.inl
    · rintro (hg | rfl)
      · exact hg
      · exact hf
  · simp

theorem nodup_touch {order : List F} (h : order.Nodup) (f : F) :
    (touch order f).Nodup := by
  unfold touch
  split_ifs with hf
  · exact h
  · exact List.nodup_append.2 ⟨h, List.nodup_singleton f, by
      rintro g hg _ hf' rfl
      rw [List.mem_singleton] at hf'
      exact hf (hf' ▸ hg)⟩

omit [DecidableEq F] in
theorem entries_append (name : F → K) (value : F → Option V)
    (order order' : List F) :
    entries name value (order ++ order') =
      entries name value order ++ entries name value order' :=
  List.filterMap_append

/-- Setting a field to nothing, or one that is listed, changes no entry. -/
theorem entries_touch (name : F → K) {value : F → Option V} {order : List F}
    {f : F} (h : f ∈ order ∨ value f = none) :
    entries name value (touch order f) = entries name value order := by
  unfold touch
  split_ifs with hf
  · rfl
  · have hnone : value f = none := h.resolve_left hf
    rw [entries_append, entries, entries, List.filterMap_cons, hnone]
    simp

/-- Listing further fields that hold nothing changes no entry. -/
theorem entries_foldl_touch (name : F → K) {value : F → Option V}
    (fields : List F) :
    ∀ {order : List F}, (∀ f, value f ≠ none → f ∈ order) →
      entries name value (fields.foldl touch order) =
        entries name value order := by
  induction fields with
  | nil =>
      intro order _
      rfl
  | cons f fields ih =>
      intro order h
      have htouch : ∀ g, value g ≠ none → g ∈ touch order f := fun g hg =>
        mem_touch.2 (Or.inl (h g hg))
      rw [List.foldl_cons, ih htouch, entries_touch]
      by_cases hf : value f = none
      · exact Or.inr hf
      · exact Or.inl (h f hf)

omit [DecidableEq F] in
/-- Only the fields that hold a value matter. -/
theorem entries_filter (name : F → K) {value : F → Option V}
    {holds : F → Bool} {order : List F}
    (h : ∀ f ∈ order, holds f = (value f).isSome) :
    entries name value (order.filter holds) = entries name value order := by
  induction order with
  | nil => rfl
  | cons f order ih =>
      have hrest := ih fun g hg => h g (List.mem_cons_of_mem f hg)
      rw [List.filter_cons, h f List.mem_cons_self, entries, entries,
        List.filterMap_cons]
      rcases hf : value f with _ | v
      · simpa [entries] using hrest
      · simpa [entries, hf] using hrest

omit [DecidableEq F] in
theorem map_fst_entries (name : F → K) (value : F → Option V)
    (order : List F) :
    (entries name value order).map Prod.fst =
      (order.filter fun f => (value f).isSome).map name := by
  induction order with
  | nil => rfl
  | cons f order ih =>
      rw [entries, List.filterMap_cons, List.filter_cons]
      rcases hf : value f with _ | v
      · simpa [entries] using ih
      · simpa [entries] using ih

omit [DecidableEq F] in
/-- An object has no two entries of one name. -/
theorem nodup_entries {name : F → K} (hname : Function.Injective name)
    (value : F → Option V) {order : List F} (h : order.Nodup) :
    ((entries name value order).map Prod.fst).Nodup := by
  rw [map_fst_entries]
  exact (h.filter _).map hname

/-- The value of a field is found under its name. -/
theorem lookup_entries [BEq K] [LawfulBEq K] {name : F → K}
    (hname : Function.Injective name) (value : F → Option V)
    (order : List F) (f : F) :
    (entries name value order).lookup (name f) =
      if f ∈ order then value f else none := by
  induction order with
  | nil => rfl
  | cons g order ih =>
      rw [entries, List.filterMap_cons]
      rcases hg : value g with _ | v
      · change (entries name value order).lookup (name f) = _
        rw [ih]
        by_cases hfg : f = g
        · subst hfg
          simp [hg]
        · simp [hfg]
      · change ((name g, v) :: entries name value order).lookup (name f) = _
        classical
        rw [InsertionMap.lookup_cons_ite, ih]
        by_cases hfg : f = g
        · subst hfg
          simp [hg]
        · have hne : name f ≠ name g := fun h => hfg (hname h)
          simp [hfg, hne]

end FieldOrder

end Collabswarm
