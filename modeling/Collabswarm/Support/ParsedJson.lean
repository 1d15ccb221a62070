import Mathlib.Tactic
import Collabswarm.Support.Json

/-!
# Values that were read

A member name that a text repeats keeps its first place and gets its last
value, so no object of a value that was read repeats a member name: every such
value is read back from the text that is written for it.
-/

namespace Collabswarm.Json

theorem nodup_foldl_setEntries {K V : Type*} [DecidableEq K]
    (ms acc : List (K × V)) (hacc : (acc.map Prod.fst).Nodup) :
    ((ms.foldl (fun acc m => InsertionMap.setEntries m.1 m.2 acc) acc).map
      Prod.fst).Nodup := by
  induction ms generalizing acc with
  | nil => exact hacc
  | cons m ms ih =>
      rw [List.foldl_cons]
      exact ih _ (InsertionMap.nodup_setEntries m.1 m.2 hacc)

theorem mem_foldl_setEntries {K V : Type*} [DecidableEq K]
    {ms acc : List (K × V)} {e : K × V}
    (he : e ∈ ms.foldl (fun acc m => InsertionMap.setEntries m.1 m.2 acc)
      acc) : e ∈ acc ∨ e ∈ ms := by
  induction ms generalizing acc with
  | nil => exact Or.inl he
  | cons m ms ih =>
      rw [List.foldl_cons] at he
      rcases ih he with h | h
      · rcases InsertionMap.mem_setEntries h with rfl | h
        · exact Or.inr List.mem_cons_self
        · exact Or.inl h
      · exact Or.inr (List.mem_cons_of_mem m h)

theorem distinct_ofMembers {ms : List (JsString × Json)}
    (h : DistinctMembers ms) : (Json.obj (ofMembers ms)).Distinct := by
  rw [Distinct]
  refine ⟨nodup_foldl_setEntries ms [] List.nodup_nil, ?_⟩
  rw [distinctMembers_iff] at h ⊢
  intro m hm
  rcases mem_foldl_setEntries hm with hm | hm
  · cases hm
  · exact h m hm

theorem distinct_parseNumber {text rest : List Char} {j : Json}
    (h : parseNumber text = some (j, rest)) : j.Distinct := by
  rw [parseNumber] at h
  split at h
  · cases h
    trivial
  · split at h
    · cases h
      trivial
    · cases h

/-- What the four readers read with some fuel. -/
structure ReadsDistinct (fuel : ℕ) : Prop where
  value : ∀ text j rest, parseValue fuel text = some (j, rest) → j.Distinct
  elements : ∀ text xs rest, parseElements fuel text = some (xs, rest) →
    DistinctElements xs
  member : ∀ text m rest, parseMember fuel text = some (m, rest) →
    m.2.Distinct
  members : ∀ text ms rest, parseMembers fuel text = some (ms, rest) →
    DistinctMembers ms

theorem ReadsDistinct.value_succ {fuel : ℕ} (ih : ReadsDistinct fuel)
    {text rest : List Char} {j : Json}
    (h : parseValue (fuel + 1) text = some (j, rest)) : j.Distinct := by
  rw [parseValue] at h
  split at h
  · cases h
    trivial
  · cases h
    trivial
  · cases h
    trivial
  · split at h
    · cases h
      trivial
    · cases h
  · split at h
    · cases h
      trivial
    · split at h
      · rename_i hx
        split at h
        · rename_i hxs
          cases h
          exact ⟨ih.value _ _ _ hx, ih.elements _ _ _ hxs⟩
        · cases h
      · cases h
  · split at h
    · cases h
      exact ⟨List.nodup_nil, trivial⟩
    · split at h
      · rename_i hm
        split at h
        · rename_i hms
          cases h
          exact distinct_ofMembers
            ⟨ih.member _ _ _ hm, ih.members _ _ _ hms⟩
        · cases h
      · cases h
  · exact distinct_parseNumber h

theorem ReadsDistinct.elements_succ {fuel : ℕ} (ih : ReadsDistinct fuel)
    {text rest : List Char} {xs : List Json}
    (h : parseElements (fuel + 1) text = some (xs, rest)) :
    DistinctElements xs := by
  rw [parseElements] at h
  split at h
  · cases h
    trivial
  · split at h
    · rename_i hx
      split at h
      · rename_i hxs
        cases h
        exact ⟨ih.value _ _ _ hx, ih.elements _ _ _ hxs⟩
      · cases h
    · cases h
  · cases h

theorem ReadsDistinct.member_succ {fuel : ℕ} (ih : ReadsDistinct fuel)
    {text rest : List Char} {m : JsString × Json}
    (h : parseMember (fuel + 1) text = some (m, rest)) : m.2.Distinct := by
  rw [parseMember] at h
  split at h
  · split at h
    · split at h
      · split at h
        · rename_i hv
          cases h
          exact ih.value _ _ _ hv
        · cases h
      · cases h
    · cases h
  · cases h

theorem ReadsDistinct.members_succ {fuel : ℕ} (ih : ReadsDistinct fuel)
    {text rest : List Char} {ms : List (JsString × Json)}
    (h : parseMembers (fuel + 1) text = some (ms, rest)) :
    DistinctMembers ms := by
  rw [parseMembers] at h
  split at h
  · cases h
    trivial
  · split at h
    · rename_i hm
      split at h
      · rename_i hms
        cases h
        exact ⟨ih.member _ _ _ hm, ih.members _ _ _ hms⟩
      · cases h
    · cases h
  · cases h

theorem readsDistinct (fuel : ℕ) : ReadsDistinct fuel := by
  induction fuel with
  | zero =>
      constructor
      · intro text j rest h
        simp [parseValue] at h
      · intro text xs rest h
        simp [parseElements] at h
      · intro text m rest h
        simp [parseMember] at h
      · intro text ms rest h
        simp [parseMembers] at h
  | succ fuel ih =>
      exact ⟨fun _ _ _ => ih.value_succ, fun _ _ _ => ih.elements_succ,
        fun _ _ _ => ih.member_succ, fun _ _ _ => ih.members_succ⟩

/-- A value that was read repeats no member name. -/
theorem distinct_of_parse {text : List Char} {j : Json}
    (h : parse text = some j) : j.Distinct := by
  rw [parse] at h
  split at h
  · rename_i hread
    split at h
    · cases h
      exact (readsDistinct _).value _ _ _ hread
    · cases h
  · cases h

end Collabswarm.Json
