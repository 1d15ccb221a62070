import Mathlib.Tactic
import Collabswarm.Support.Transition

/-!
# Greedy matching

How far a pattern is matched in a list when every element that is awaited is
taken at once.  Taking the first occasion loses nothing: the matched part is the
longest initial part of the pattern that is a sublist.  A system that moves on
exactly at the awaited events is described by the number that is matched.
-/

namespace Collabswarm

variable {α σ ε : Type*} [DecidableEq α]

/-- The position in a pattern after a list, from a position on. -/
def matchedFrom (pattern : ℕ → α) (position : ℕ) (l : List α) : ℕ :=
  l.foldl (fun n a => if a = pattern n then n + 1 else n) position

/-- How many elements of a pattern are matched in a list. -/
def matched (pattern : ℕ → α) (l : List α) : ℕ := matchedFrom pattern 0 l

@[simp] theorem matchedFrom_nil (pattern : ℕ → α) (position : ℕ) :
    matchedFrom pattern position [] = position := rfl

theorem matchedFrom_cons (pattern : ℕ → α) (position : ℕ) (a : α)
    (l : List α) :
    matchedFrom pattern position (a :: l) =
      matchedFrom pattern
        (if a = pattern position then position + 1 else position) l := rfl

theorem le_matchedFrom (pattern : ℕ → α) (position : ℕ) (l : List α) :
    position ≤ matchedFrom pattern position l := by
  induction l generalizing position with
  | nil => exact le_rfl
  | cons a l ih =>
      rw [matchedFrom_cons]
      refine le_trans ?_ (ih _)
      split <;> omega

/-- The next `n` elements of a pattern are matched exactly if they are a
sublist. -/
theorem add_le_matchedFrom_iff (pattern : ℕ → α) (position n : ℕ)
    (l : List α) :
    position + n ≤ matchedFrom pattern position l ↔
      ((List.range' position n).map pattern).Sublist l := by
  induction l generalizing position n with
  | nil =>
      rw [matchedFrom_nil, List.sublist_nil, List.map_eq_nil_iff,
        List.range'_eq_nil_iff]
      omega
  | cons a l ih =>
      rw [matchedFrom_cons]
      cases n with
      | zero =>
          refine iff_of_true ?_ (List.nil_sublist _)
          refine le_trans ?_ (le_matchedFrom _ _ _)
          split <;> omega
      | succ n =>
          rw [List.range'_succ, List.map_cons]
          by_cases ha : a = pattern position
          · -- the awaited element is taken
            rw [if_pos ha, ← ha, List.cons_sublist_cons, ← ih (position + 1) n,
              show position + (n + 1) = position + 1 + n by omega]
          · rw [if_neg ha, ih position (n + 1), List.range'_succ,
              List.map_cons]
            constructor
            · exact fun h => h.cons a
            · intro h
              cases h with
              | cons _ h => exact h
              | cons_cons _ _ => exact absurd rfl ha

/-- The first `n` elements of a pattern are matched exactly if they are a
sublist. -/
theorem le_matched_iff (pattern : ℕ → α) (n : ℕ) (l : List α) :
    n ≤ matched pattern l ↔
      ((List.range n).map pattern).Sublist l := by
  rw [List.range_eq_range', ← add_le_matchedFrom_iff, Nat.zero_add, matched]

/-- A system whose stage moves on exactly at the awaited events is, after a
run, at the stage that is matched in the kinds of the events. -/
theorem stage_exec {step : σ → ε → σ} {kind : ε → α} {pattern : ℕ → α}
    (Stage : ℕ → σ → Prop)
    (hstep : ∀ n s e, Stage n s →
      Stage (if kind e = pattern n then n + 1 else n) (step s e))
    (events : List ε) {s : σ} (hs : Stage 0 s) :
    Stage (matched pattern (events.map kind)) (exec step s events) := by
  have hfrom : ∀ (n : ℕ) (s : σ), Stage n s →
      Stage (matchedFrom pattern n (events.map kind))
        (exec step s events) := by
    induction events with
    | nil => exact fun n s h => h
    | cons e events ih =>
        intro n s h
        rw [List.map_cons, matchedFrom_cons, exec_cons]
        exact ih _ _ (hstep n s e h)
  exact hfrom 0 s hs

end Collabswarm
