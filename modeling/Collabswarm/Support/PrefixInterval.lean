import Mathlib.Tactic

/-!
# Lists with a prefix as an interval

In the lexicographic order the lists that start with a given list are those from
this list on and below the list that is cut behind its last letter with a
successor and has that letter replaced by the successor.  The letters behind it
are the greatest there are.
-/

namespace Collabswarm.PrefixInterval

variable {α : Type*} [LT α] [Std.Asymm (α := α) (· < ·)]
  [Std.Trichotomous (α := α) (· < ·)]

/-- Above a list of greatest letters there are only lists that start with
it. -/
theorem replicate_prefix_of_le {t : α} (ht : ∀ x, ¬ t < x) :
    ∀ (k : ℕ) (s : List α), List.replicate k t ≤ s →
      List.replicate k t <+: s := by
  intro k
  induction k with
  | zero =>
      intro s _
      exact List.nil_prefix
  | succ k ih =>
      intro s hle
      rw [List.replicate_succ] at hle ⊢
      cases s with
      | nil => cases List.le_nil.1 hle
      | cons x s =>
          rcases List.cons_le_cons_iff.1 hle with hlt | ⟨rfl, hrest⟩
          · exact absurd hlt (ht x)
          · exact List.cons_prefix_cons.2 ⟨rfl, ih s hrest⟩

/-- The lists with a prefix are an interval, the successor of its last letter
that has one being left out. -/
theorem prefix_iff {a b t : α} (hcover : a ⋖ b) (ht : ∀ x, ¬ t < x) (k : ℕ) :
    ∀ init s : List α, init ++ a :: List.replicate k t <+: s ↔
      init ++ a :: List.replicate k t ≤ s ∧ s < init ++ [b] := by
  intro init
  induction init with
  | nil =>
      intro s
      constructor
      · rintro ⟨rest, rfl⟩
        refine ⟨List.le_append_left, ?_⟩
        exact List.cons_lt_cons_iff.2 (Or.inl hcover.1)
      · rintro ⟨hlow, hhigh⟩
        cases s with
        | nil => cases List.le_nil.1 hlow
        | cons x s =>
            have hx : x < b := by
              rcases List.cons_lt_cons_iff.1 hhigh with hx | ⟨-, hnil⟩
              · exact hx
              · exact absurd hnil (List.not_lt_nil _)
            rcases List.cons_le_cons_iff.1 hlow with hlt | ⟨rfl, hrest⟩
            · exact absurd hx (hcover.2 hlt)
            · exact List.cons_prefix_cons.2
                ⟨rfl, replicate_prefix_of_le ht k s hrest⟩
  | cons y init ih =>
      intro s
      cases s with
      | nil => simp [List.le_nil]
      | cons x s =>
          rw [List.cons_append, List.cons_append, List.cons_prefix_cons, ih,
            List.cons_le_cons_iff, List.cons_lt_cons_iff]
          constructor
          · rintro ⟨rfl, hlow, hhigh⟩
            exact ⟨Or.inr ⟨rfl, hlow⟩, Or.inr ⟨rfl, hhigh⟩⟩
          · rintro ⟨hyx | ⟨rfl, hlow⟩, hxy | ⟨hsame, hhigh⟩⟩
            · exact absurd hxy (Std.Asymm.asymm _ _ hyx)
            · subst hsame
              exact absurd hyx (Std.Asymm.asymm _ _ hyx)
            · exact absurd hxy (Std.Asymm.asymm _ _ hxy)
            · exact ⟨rfl, hlow, hhigh⟩

end Collabswarm.PrefixInterval
