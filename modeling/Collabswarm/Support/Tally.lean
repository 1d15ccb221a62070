import Collabswarm.Support.InsertionMap

/-!
# Counting votes

Votes are collected in buckets, one for each key, in the order in which the
keys first occur, and the first of the largest buckets wins.  A vote may be
absent; it is then in no bucket.
-/

namespace Collabswarm

namespace Tally

variable {A K V : Type*} [DecidableEq K]

/-- The values that were voted under a key, in the order of the votes. -/
def votesFor (vote : A → Option (K × V)) (k : K) (votes : List A) : List V :=
  ((votes.filterMap vote).filter (·.1 = k)).map Prod.snd

/-- Put one vote into its bucket. -/
def cast (vote : A → Option (K × V)) (buckets : InsertionMap K (List V))
    (a : A) : InsertionMap K (List V) :=
  match vote a with
  | none => buckets
  | some (k, v) => buckets.set k ((buckets.get? k).getD [] ++ [v])

/-- Put all votes into their buckets. -/
def tally (vote : A → Option (K × V)) (votes : List A) :
    InsertionMap K (List V) :=
  votes.foldl (cast vote) InsertionMap.empty

/-- Keep the larger one of the best bucket so far and a further bucket. -/
def better (best : Option K × List V) (e : K × List V) : Option K × List V :=
  if best.2.length < e.2.length then (some e.1, e.2) else best

/-- The first of the largest buckets; there is none when all are empty. -/
def largest (buckets : List (K × List V)) : Option K × List V :=
  buckets.foldl better (none, [])

theorem votesFor_append (vote : A → Option (K × V)) (k : K)
    (votes votes' : List A) :
    votesFor vote k (votes ++ votes') =
      votesFor vote k votes ++ votesFor vote k votes' := by
  simp [votesFor]

/-- The bucket of a key holds the votes for it. -/
theorem get?_tally_getD (vote : A → Option (K × V)) (k : K) (votes : List A) :
    ((tally vote votes).get? k).getD [] = votesFor vote k votes := by
  induction votes using List.reverseRecOn with
  | nil => rfl
  | append_singleton votes a ih =>
      rw [tally, List.foldl_append, List.foldl_cons, List.foldl_nil, ← tally,
        votesFor_append, ← ih, cast]
      rcases hvote : vote a with _ | ⟨k', v⟩
      · simp [votesFor, hvote]
      · simp only [InsertionMap.get?_set]
        by_cases hk : k = k'
        · subst hk
          simp [votesFor, hvote]
        · simp [votesFor, hvote, hk, Ne.symm hk]

/-- Only keys that were voted for have a bucket. -/
theorem get?_tally_isSome_iff (vote : A → Option (K × V)) (k : K)
    (votes : List A) :
    ((tally vote votes).get? k).isSome ↔ votesFor vote k votes ≠ [] := by
  induction votes using List.reverseRecOn with
  | nil => simp [tally, votesFor]
  | append_singleton votes a ih =>
      rw [tally, List.foldl_append, List.foldl_cons, List.foldl_nil, ← tally,
        votesFor_append, cast]
      rcases hvote : vote a with _ | ⟨k', v⟩
      · rw [ih]
        simp [votesFor, hvote]
      · simp only [InsertionMap.get?_set]
        by_cases hk : k = k'
        · subst hk
          simp [votesFor, hvote]
        · rw [if_neg hk, ih]
          simp [votesFor, hvote, Ne.symm hk]

/-- A bucket of the tally holds exactly the votes for its key. -/
theorem mem_entries_tally {vote : A → Option (K × V)} {votes : List A}
    {e : K × List V} (he : e ∈ (tally vote votes).entries) :
    e.2 = votesFor vote e.1 votes ∧ e.2 ≠ [] := by
  have hget := (tally vote votes).mem_entries_iff.1 he
  have hvotes : e.2 = votesFor vote e.1 votes := by
    rw [← get?_tally_getD, hget, Option.getD_some]
  refine ⟨hvotes, ?_⟩
  rw [hvotes]
  apply (get?_tally_isSome_iff vote e.1 votes).1
  rw [hget]
  exact Option.isSome_some

/-- A key that was voted for has a bucket. -/
theorem votesFor_mem_entries {vote : A → Option (K × V)} {votes : List A}
    {k : K} (h : votesFor vote k votes ≠ []) :
    (k, votesFor vote k votes) ∈ (tally vote votes).entries := by
  obtain ⟨bucket, hbucket⟩ :=
    Option.isSome_iff_exists.1 ((get?_tally_isSome_iff vote k votes).2 h)
  have hvotes := get?_tally_getD vote k votes
  rw [hbucket, Option.getD_some] at hvotes
  rw [← hvotes]
  exact (tally vote votes).mem_entries_iff.2 hbucket

/-- One step of the scan keeps a best bucket that is among those seen. -/
structure Best (seen : List (K × List V)) (best : Option K × List V) :
    Prop where
  largest : ∀ e ∈ seen, e.2.length ≤ best.2.length
  chosen : ∀ k, best.1 = some k → (k, best.2) ∈ seen
  empty : best.1 = none → best.2 = []

omit [DecidableEq K] in
theorem Best.better {seen : List (K × List V)} {best : Option K × List V}
    (h : Best seen best) (e : K × List V) :
    Best (seen ++ [e]) (Tally.better best e) := by
  rw [Tally.better]
  split
  · rename_i hlarger
    refine ⟨?_, ?_, by simp⟩
    · intro e' he'
      rcases List.mem_append.1 he' with he' | he'
      · exact (h.largest e' he').trans hlarger.le
      · rw [List.mem_singleton.1 he']
    · intro k hk
      cases hk
      exact List.mem_append_right _ (List.mem_singleton.2 rfl)
  · rename_i hsmaller
    refine ⟨?_, fun k hk => List.mem_append_left _ (h.chosen k hk), h.empty⟩
    intro e' he'
    rcases List.mem_append.1 he' with he' | he'
    · exact h.largest e' he'
    · rw [List.mem_singleton.1 he']
      exact not_lt.1 hsmaller

omit [DecidableEq K] in
/-- The scan ends with a largest bucket. -/
theorem best_largest (buckets : List (K × List V)) :
    Best buckets (largest buckets) := by
  induction buckets using List.reverseRecOn with
  | nil => exact ⟨by simp, by simp [largest], fun _ => rfl⟩
  | append_singleton buckets e ih =>
      rw [largest, List.foldl_append]
      exact ih.better e

end Tally

end Collabswarm
