import Mathlib.Tactic
import Mathlib.Data.List.Forall2

/-!
# Facts on lists and results shared by the models
-/

namespace Collabswarm

theorem mapM_eq_some_of_forall {α β : Type*} {f : α → Option β}
    {P : β → Prop} {l : List α} (h : ∀ x ∈ l, ∃ y, f x = some y ∧ P y) :
    ∃ ys, l.mapM f = some ys ∧ ys.length = l.length ∧ ∀ y ∈ ys, P y := by
  induction l with
  | nil => exact ⟨[], rfl, rfl, by simp⟩
  | cons x l ih =>
      obtain ⟨y, hy, hPy⟩ := h x (by simp)
      obtain ⟨ys, hys, hlen, hP⟩ := ih fun z hz => h z (by simp [hz])
      refine ⟨y :: ys, by simp [List.mapM_cons, hy, hys], by simp [hlen], ?_⟩
      intro z hz
      rcases List.mem_cons.1 hz with rfl | hz
      · exact hPy
      · exact hP z hz

/-! ## Joining -/

section Joining

variable {α : Type*}

theorem eq_nil_of_intercalate {sep : List α} {ls : List (List α)}
    (hls : ∀ l ∈ ls, l ≠ []) (h : sep.intercalate ls = []) : ls = [] := by
  cases ls with
  | nil => rfl
  | cons l ls =>
      have hl := hls l List.mem_cons_self
      cases ls with
      | nil => exact absurd (by simpa using h) hl
      | cons l' ls =>
          rw [List.intercalate_cons_cons] at h
          simp [hl] at h

/-- Lists that are not empty and do not have the separator are read back from
what joins them. -/
theorem intercalate_inj [DecidableEq α] {sep : α} {ls ls' : List (List α)}
    (hls : ∀ l ∈ ls, l ≠ []) (hls' : ∀ l ∈ ls', l ≠ [])
    (hsep : ∀ l ∈ ls, sep ∉ l) (hsep' : ∀ l ∈ ls', sep ∉ l)
    (h : [sep].intercalate ls = [sep].intercalate ls') : ls = ls' := by
  by_cases hnil : ls = []
  · subst hnil
    exact (eq_nil_of_intercalate hls' h.symm).symm
  by_cases hnil' : ls' = []
  · subst hnil'
    exact eq_nil_of_intercalate hls h
  have hsplit := congrArg (List.splitOn sep) h
  rwa [List.splitOn_intercalate _ hsep hnil,
    List.splitOn_intercalate _ hsep' hnil'] at hsplit

end Joining

/-! ## Results -/

section Results

variable {ε α β : Type} {x : Except ε α} {b : β}

theorem exists_ok_of_bind {f : α → Except ε β} (h : x >>= f = .ok b) :
    ∃ a, x = .ok a ∧ f a = .ok b := by
  cases x with
  | error e => cases h
  | ok a => exact ⟨a, rfl, h⟩

theorem exists_ok_of_map {f : α → β} (h : x.map f = .ok b) :
    ∃ a, x = .ok a ∧ f a = b := by
  cases x with
  | error e => cases h
  | ok a => exact ⟨a, rfl, Except.ok.inj h⟩

end Results

/-! ## Looking up an index -/

section Lookup

variable {α : Type*} {l : List α} {a x : α} {i j : ℕ}

theorem getElem?_concat (h : (l ++ [a])[i]? = some x) :
    (i < l.length ∧ l[i]? = some x) ∨ i = l.length ∧ x = a := by
  rw [List.getElem?_append] at h
  split at h
  · rename_i hlt
    exact Or.inl ⟨hlt, h⟩
  · rename_i hnot
    rw [List.getElem?_singleton] at h
    split at h
    · exact Or.inr ⟨by omega, (Option.some.inj h).symm⟩
    · cases h

theorem getElem?_set_cases (h : (l.set i a)[j]? = some x) :
    (i = j ∧ x = a) ∨ l[j]? = some x := by
  rw [List.getElem?_set] at h
  split at h
  · rename_i hij
    split at h
    · exact Or.inl ⟨hij, (Option.some.inj h).symm⟩
    · cases h
  · exact Or.inr h

theorem mem_modify_cases {f : α → α} (h : x ∈ l.modify i f) :
    x ∈ l ∨ ∃ y, l[i]? = some y ∧ x = f y := by
  obtain ⟨j, hj⟩ := List.getElem?_of_mem h
  rw [List.getElem?_modify] at hj
  rcases hl : l[j]? with _ | y
  · rw [hl] at hj
    cases hj
  · rw [hl] at hj
    split at hj
    · rename_i hij
      exact Or.inr ⟨y, hij ▸ hl, (Option.some.inj hj).symm⟩
    · exact Or.inl (Option.some.inj hj ▸ List.mem_of_getElem? hl)

/-- Replacing an element changes a count by what the two elements count. -/
theorem countP_set_add {p : α → Bool} (h : l[i]? = some x) :
    (l.set i a).countP p + (if p x then 1 else 0) =
      l.countP p + (if p a then 1 else 0) := by
  obtain ⟨hi, rfl⟩ := List.getElem?_eq_some_iff.1 h
  have hpos : (if p l[i] then 1 else 0) ≤ l.countP p := by
    split
    · rename_i hp
      exact List.countP_pos_iff.2 ⟨l[i], List.getElem_mem hi, hp⟩
    · exact Nat.zero_le _
  rw [List.countP_set hi]
  omega

end Lookup

/-! ## Two lists related element by element -/

section Forall₂

variable {α β : Type*} {R : α → β → Prop}

theorem forall₂_append_singleton {x : α} :
    ∀ {l : List α} {u : List β}, List.Forall₂ R (l ++ [x]) u →
      ∃ v y, u = v ++ [y] ∧ List.Forall₂ R l v ∧ R x y := by
  intro l
  induction l with
  | nil =>
      intro u h
      cases h with
      | cons hxy hnil =>
          cases hnil
          exact ⟨[], _, rfl, .nil, hxy⟩
  | cons a l ih =>
      intro u h
      cases h with
      | cons hab hrest =>
          obtain ⟨v, y, rfl, hv, hy⟩ := ih hrest
          exact ⟨_ :: v, y, rfl, .cons hab hv, hy⟩

theorem exists_right_of_forall₂ {l : List α} {u : List β} {x : α}
    (h : List.Forall₂ R l u) (hx : x ∈ l) : ∃ y ∈ u, R x y := by
  induction h with
  | nil => cases hx
  | cons hxy _ ih =>
      rcases List.mem_cons.1 hx with rfl | hx
      · exact ⟨_, by simp, hxy⟩
      · obtain ⟨y, hy, hRy⟩ := ih hx
        exact ⟨y, by simp [hy], hRy⟩

theorem exists_left_of_forall₂ {l : List α} {u : List β} {y : β}
    (h : List.Forall₂ R l u) (hy : y ∈ u) : ∃ x ∈ l, R x y :=
  exists_right_of_forall₂ h.flip hy

end Forall₂

end Collabswarm
