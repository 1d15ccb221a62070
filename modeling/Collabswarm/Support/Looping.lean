import Mathlib.Tactic

/-!
# Programs with loops that may not end

A program returns a value, throws, or does not end.  It is given as what it
comes to when every loop in it may take a limited number of rounds, where it
may still be running; it ends with a result if it comes to that result under
every limit that is large enough.
-/

namespace Collabswarm

/-- What a program comes to under a limit: it is still running, throws, or
returns. -/
abbrev Run (α : Type) := ExceptT String Option α

namespace Run

variable {α β σ : Type}

/-- The limit was too small. -/
def running : Run α := ExceptT.mk none

/-- The program has ended with a result. -/
def ended (r : Except String α) : Run α := ExceptT.mk (some r)

theorem running_ne_ended (r : Except String α) : (running : Run α) ≠ ended r := by
  intro h
  cases h

theorem ended_inj {r r' : Except String α} (h : ended r = ended r') :
    r = r' := by
  cases h
  rfl

/-- The program ends with the result. -/
def Ends (f : ℕ → Run α) (r : Except String α) : Prop :=
  ∃ limit, ∀ fuel, limit ≤ fuel → f fuel = ended r

/-- The program returns the value. -/
def Returns (f : ℕ → Run α) (v : α) : Prop := Ends f (.ok v)

/-- The program throws the error. -/
def Throws (f : ℕ → Run α) (e : String) : Prop := Ends f (.error e)

/-- The program ends. -/
def Terminates (f : ℕ → Run α) : Prop := ∃ r, Ends f r

/-- The program runs forever. -/
def Diverges (f : ℕ → Run α) : Prop := ∀ fuel, f fuel = running

theorem Diverges.not_terminates {f : ℕ → Run α} (h : Diverges f) :
    ¬ Terminates f := by
  rintro ⟨r, limit, hlimit⟩
  have heq := hlimit limit le_rfl
  rw [h limit] at heq
  exact running_ne_ended r heq

/-- A program ends with one result only. -/
theorem Ends.unique {f : ℕ → Run α} {r r' : Except String α}
    (h : Ends f r) (h' : Ends f r') : r = r' := by
  obtain ⟨m, hm⟩ := h
  obtain ⟨n, hn⟩ := h'
  apply ended_inj
  rw [← hm (max m n) (le_max_left m n), hn (max m n) (le_max_right m n)]

theorem Ends.exists_eq {f : ℕ → Run α} {r : Except String α} (h : Ends f r) :
    ∃ fuel, f fuel = ended r := by
  obtain ⟨limit, hlimit⟩ := h
  exact ⟨limit, hlimit limit le_rfl⟩

theorem returns_pure (v : α) : Returns (fun _ => pure v) v :=
  ⟨0, fun _ _ => rfl⟩

theorem throws_throw (e : String) :
    Throws (fun _ => (throw e : Run α)) e :=
  ⟨0, fun _ _ => rfl⟩

/-! ## One program after another -/

theorem Returns.bind {f : ℕ → Run α} {g : ℕ → α → Run β} {v : α}
    {r : Except String β} (hf : Returns f v)
    (hg : Ends (fun fuel => g fuel v) r) :
    Ends (fun fuel => f fuel >>= g fuel) r := by
  obtain ⟨m, hm⟩ := hf
  obtain ⟨n, hn⟩ := hg
  refine ⟨max m n, fun fuel hfuel => ?_⟩
  dsimp only at hn ⊢
  rw [hm fuel (le_of_max_le_left hfuel)]
  exact hn fuel (le_of_max_le_right hfuel)

theorem Throws.bind {f : ℕ → Run α} {e : String} (hf : Throws f e)
    (g : ℕ → α → Run β) : Throws (fun fuel => f fuel >>= g fuel) e := by
  obtain ⟨m, hm⟩ := hf
  refine ⟨m, fun fuel hfuel => ?_⟩
  dsimp only
  rw [hm fuel hfuel]
  rfl

theorem Diverges.bind {f : ℕ → Run α} (hf : Diverges f)
    (g : ℕ → α → Run β) : Diverges fun fuel => f fuel >>= g fuel := by
  intro fuel
  dsimp only
  rw [hf fuel]
  rfl

theorem Terminates.bind {f : ℕ → Run α} {g : ℕ → α → Run β}
    (hf : Terminates f)
    (hg : ∀ v, Returns f v → Terminates fun fuel => g fuel v) :
    Terminates fun fuel => f fuel >>= g fuel := by
  obtain ⟨r, hr⟩ := hf
  rcases r with e | v
  · exact ⟨_, Throws.bind hr g⟩
  · obtain ⟨r, hgr⟩ := hg v hr
    exact ⟨r, Returns.bind hr hgr⟩

/-- A program run on every entry of a list. -/
theorem returns_mapM {f : α → ℕ → Run β} {xs : List α} {ys : List β}
    (h : List.Forall₂ (fun x y => Returns (f x) y) xs ys) :
    Returns (fun fuel => xs.mapM (f · fuel)) ys := by
  induction h with
  | nil => exact returns_pure _
  | cons hx _ ih =>
      simp only [List.mapM_cons]
      exact hx.bind (ih.bind (returns_pure _))

/-- What a program that has returned came to after its first step. -/
theorem bind_eq_ended {f : Run α} {g : α → Run β} {v : β}
    (h : f >>= g = ended (.ok v)) :
    ∃ a, f = ended (.ok a) ∧ g a = ended (.ok v) := by
  rcases f with _ | e | a
  · exact absurd h (running_ne_ended _)
  · exact absurd (ended_inj h) (by simp)
  · exact ⟨a, rfl, h⟩

/-! ## Loops -/

/-- Repeat a body that goes on with a state or leaves the loop with a value. -/
def loop (body : σ → Run (σ ⊕ α)) : ℕ → σ → Run α
  | 0, _ => running
  | rounds + 1, s => do
      match ← body s with
      | .inl s' => loop body rounds s'
      | .inr v => return v

/-- A loop whose body may loop itself. -/
def loopFrom (body : ℕ → σ → Run (σ ⊕ α)) (s : σ) (fuel : ℕ) : Run α :=
  loop (body fuel) fuel s

section Loops

variable {body : ℕ → σ → Run (σ ⊕ α)}

/-- What the end of the body means for the loop. -/
def goOn (rest : σ → Run α) : Except String (σ ⊕ α) → Run α
  | .error e => ended (.error e)
  | .ok (.inl s) => rest s
  | .ok (.inr v) => ended (.ok v)

theorem loop_of_ended {s : σ} {fuel : ℕ} {r : Except String (σ ⊕ α)}
    (h : body fuel s = ended r) (rounds : ℕ) :
    loop (body fuel) (rounds + 1) s = goOn (loop (body fuel) rounds) r := by
  rw [loop, h]
  rcases r with e | s' | v
  · rfl
  · rfl
  · rfl

/-- The loop ends with the result from the state, whatever the limits. -/
def LoopEnds (body : ℕ → σ → Run (σ ⊕ α)) (s : σ) (r : Except String α) :
    Prop :=
  ∃ limit, ∀ fuel, limit ≤ fuel → ∀ rounds, limit ≤ rounds →
    loop (body fuel) rounds s = ended r

theorem LoopEnds.ends {s : σ} {r : Except String α} (h : LoopEnds body s r) :
    Ends (loopFrom body s) r := by
  obtain ⟨limit, hlimit⟩ := h
  exact ⟨limit, fun fuel hfuel => hlimit fuel hfuel fuel hfuel⟩

/-- One round of a loop. -/
theorem loopEnds_round {s : σ} {r : Except String (σ ⊕ α)}
    {r' : Except String α} (hbody : Ends (body · s) r)
    (hrest : ∃ limit, ∀ fuel, limit ≤ fuel → ∀ rounds, limit ≤ rounds →
      goOn (loop (body fuel) rounds) r = ended r') :
    LoopEnds body s r' := by
  obtain ⟨m, hm⟩ := hbody
  obtain ⟨n, hn⟩ := hrest
  refine ⟨max m n + 1, fun fuel hfuel rounds hrounds => ?_⟩
  obtain ⟨k, rfl⟩ : ∃ k, rounds = k + 1 := ⟨rounds - 1, by omega⟩
  rw [loop_of_ended (hm fuel (by omega))]
  exact hn fuel (by omega) k (by omega)

theorem loopEnds_throw {s : σ} {e : String}
    (hbody : Throws (body · s) e) : LoopEnds body s (.error e) :=
  loopEnds_round hbody ⟨0, fun _ _ _ _ => rfl⟩

theorem loopEnds_leave {s : σ} {v : α}
    (hbody : Returns (body · s) (.inr v)) : LoopEnds body s (.ok v) :=
  loopEnds_round hbody ⟨0, fun _ _ _ _ => rfl⟩

theorem loopEnds_continue {s s' : σ} {r : Except String α}
    (hbody : Returns (body · s) (.inl s')) (hrest : LoopEnds body s' r) :
    LoopEnds body s r :=
  loopEnds_round hbody hrest

/-- A loop whose body ends, and goes on only to smaller states, ends. -/
theorem exists_loopEnds (inv : σ → Prop) (measure : σ → ℕ)
    (hbody : ∀ s, inv s → ∃ r, Ends (body · s) r ∧
      ∀ s', r = .ok (.inl s') → inv s' ∧ measure s' < measure s) :
    ∀ s, inv s → ∃ r, LoopEnds body s r := by
  have hbelow : ∀ n s, measure s < n → inv s → ∃ r, LoopEnds body s r := by
    intro n
    induction n with
    | zero =>
        intro s hs
        omega
    | succ n ih =>
        intro s hs hinv
        obtain ⟨r, hr, hnext⟩ := hbody s hinv
        rcases r with e | s' | v
        · exact ⟨_, loopEnds_throw hr⟩
        · obtain ⟨hinv', hless⟩ := hnext s' rfl
          obtain ⟨r, hrest⟩ := ih s' (by omega) hinv'
          exact ⟨r, loopEnds_continue hr hrest⟩
        · exact ⟨_, loopEnds_leave hr⟩
  exact fun s hs => hbelow (measure s + 1) s (by omega) hs

/-- The partial rule for loops: what the body keeps holds when the loop
returns. -/
theorem loop_invariant (inv : σ → Prop) (post : α → Prop)
    (hgo : ∀ fuel s s', inv s → body fuel s = ended (.ok (.inl s')) → inv s')
    (hleave : ∀ fuel s v, inv s → body fuel s = ended (.ok (.inr v)) → post v)
    {s : σ} (hs : inv s) {fuel : ℕ} {v : α}
    (h : loopFrom body s fuel = ended (.ok v)) : post v := by
  have hrounds : ∀ rounds s, inv s →
      loop (body fuel) rounds s = ended (.ok v) → post v := by
    intro rounds
    induction rounds with
    | zero =>
        intro s _ h
        exact absurd h (running_ne_ended _)
    | succ rounds ih =>
        intro s hs h
        rcases hbody : body fuel s with _ | r
        · rw [loop, hbody] at h
          exact absurd h (running_ne_ended _)
        · rw [loop_of_ended hbody] at h
          rcases r with e | s' | w
          · exact absurd (ended_inj h) (by simp)
          · exact ih s' (hgo fuel s s' hs hbody) h
          · obtain rfl := Except.ok.inj (ended_inj h)
            exact hleave fuel s w hs hbody
  exact hrounds fuel s hs h

/-- A loop that always finds another state to go on with runs forever. -/
theorem diverges_loop (inv : σ → Prop)
    (hbody : ∀ s, inv s → ∃ s', inv s' ∧
      ∀ fuel, body fuel s = pure (.inl s')) :
    ∀ s, inv s → Diverges (loopFrom body s) := by
  have hrounds : ∀ fuel rounds s, inv s →
      loop (body fuel) rounds s = running := by
    intro fuel rounds
    induction rounds with
    | zero =>
        intro s _
        rfl
    | succ rounds ih =>
        intro s hs
        obtain ⟨s', hs', hgo⟩ := hbody s hs
        rw [loop_of_ended (hgo fuel), goOn]
        exact ih s' hs'
  exact fun s hs fuel => hrounds fuel fuel s hs

end Loops

end Run

end Collabswarm
