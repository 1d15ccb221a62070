import Mathlib.Tactic

/-!
# Runs of a deterministic transition system

A system is a step function on states.  `exec` runs a list of events, and a
guarded run is one whose every event meets a condition on the state in which
it happens.
-/

namespace Collabswarm

section Runs

variable {σ ε : Type*} (step : σ → ε → σ) (guard : σ → ε → Prop)

/-- The state after a list of events. -/
def exec (s : σ) (events : List ε) : σ := events.foldl step s

/-- Every event of the run meets the guard in the state in which it happens. -/
def Guarded (s : σ) : List ε → Prop
  | [] => True
  | e :: events => guard s e ∧ Guarded (step s e) events

instance Guarded.decidable [∀ s e, Decidable (guard s e)] (s : σ)
    (events : List ε) : Decidable (Guarded step guard s events) :=
  match events with
  | [] => isTrue trivial
  | e :: events =>
      have := Guarded.decidable (step s e) events
      inferInstanceAs (Decidable (guard s e ∧ _))

@[simp] theorem exec_nil (s : σ) : exec step s [] = s := rfl

@[simp] theorem exec_cons (s : σ) (e : ε) (events : List ε) :
    exec step s (e :: events) = exec step (step s e) events := rfl

theorem exec_append (s : σ) (events events' : List ε) :
    exec step s (events ++ events') =
      exec step (exec step s events) events' :=
  List.foldl_append

variable {step guard}

theorem Guarded.imp {guard' : σ → ε → Prop}
    (himp : ∀ s e, guard s e → guard' s e) :
    ∀ {events : List ε} {s : σ}, Guarded step guard s events →
      Guarded step guard' s events := by
  intro events
  induction events with
  | nil =>
      intro s _
      trivial
  | cons e events ih =>
      intro s h
      exact ⟨himp s e h.1, ih h.2⟩

theorem guarded_append_iff :
    ∀ {events events' : List ε} {s : σ},
      Guarded step guard s (events ++ events') ↔
        Guarded step guard s events ∧
          Guarded step guard (exec step s events) events' := by
  intro events
  induction events with
  | nil =>
      intro events' s
      exact (and_iff_right trivial).symm
  | cons e events ih =>
      intro events' s
      rw [List.cons_append, Guarded, Guarded, ih, and_assoc, exec_cons]

/-- Every event of a guarded run meets the guard in some state. -/
theorem Guarded.of_mem :
    ∀ {events : List ε} {s : σ}, Guarded step guard s events →
      ∀ e ∈ events, ∃ s', guard s' e := by
  intro events
  induction events with
  | nil =>
      intro s _ e he
      cases he
  | cons e events ih =>
      intro s h e' he'
      rcases List.mem_cons.1 he' with rfl | he'
      · exact ⟨s, h.1⟩
      · exact ih h.2 e' he'

/-- Events that all meet a condition of their own make a guarded run. -/
theorem guarded_of_forall {meets : ε → Prop} :
    ∀ {events : List ε} {s : σ}, (∀ e ∈ events, meets e) →
      Guarded step (fun _ e => meets e) s events := by
  intro events
  induction events with
  | nil =>
      intro s _
      trivial
  | cons e events ih =>
      intro s h
      exact ⟨h e (by simp), ih fun e' he' => h e' (by simp [he'])⟩

/-- A property that holds at the start and is kept by every guarded step holds
after every guarded run. -/
theorem exec_invariant {Inv : σ → Prop}
    (hstep : ∀ s e, Inv s → guard s e → Inv (step s e)) :
    ∀ (events : List ε) (s : σ), Inv s → Guarded step guard s events →
      Inv (exec step s events) := by
  intro events
  induction events with
  | nil =>
      intro s hs _
      exact hs
  | cons e events ih =>
      intro s hs hguard
      exact ih (step s e) (hstep s e hs hguard.1) hguard.2

/-- Where an invariant and the guard of a step give a second property of the
step, that property holds of every step of a guarded run. -/
theorem guarded_of_invariant {Inv : σ → Prop} {holds : σ → ε → Prop}
    (hstep : ∀ s e, Inv s → guard s e → holds s e ∧ Inv (step s e)) :
    ∀ (events : List ε) (s : σ), Inv s → Guarded step guard s events →
      Guarded step holds s events := by
  intro events
  induction events with
  | nil =>
      intro s _ _
      trivial
  | cons e events ih =>
      intro s hs hguard
      obtain ⟨hholds, hnext⟩ := hstep s e hs hguard.1
      exact ⟨hholds, ih (step s e) hnext hguard.2⟩

/-- Where an invariant makes a property of a step hold exactly under the guard,
and the property keeps the invariant, all steps of a run have the property if
and only if the run is guarded.  The environment may be assumed to behave. -/
theorem guarded_iff_guarded {Inv : σ → Prop} {assumed holds : σ → ε → Prop}
    (hstep : ∀ s e, Inv s → assumed s e → (holds s e ↔ guard s e))
    (hkeep : ∀ s e, Inv s → assumed s e → holds s e → Inv (step s e)) :
    ∀ (events : List ε) (s : σ), Inv s → Guarded step assumed s events →
      (Guarded step holds s events ↔ Guarded step guard s events) := by
  intro events
  induction events with
  | nil =>
      intro s _ _
      exact Iff.rfl
  | cons e events ih =>
      intro s hs hassumed
      rw [Guarded, Guarded, ← hstep s e hs hassumed.1]
      refine and_congr_right fun hholds => ?_
      exact ih _ (hkeep s e hs hassumed.1 hholds) hassumed.2

/-- A property that every step keeps holds after every run. -/
theorem exec_invariant_of_forall {Inv : σ → Prop}
    (hstep : ∀ s e, Inv s → Inv (step s e)) (events : List ε) {s : σ}
    (hs : Inv s) : Inv (exec step s events) := by
  induction events generalizing s with
  | nil => exact hs
  | cons e events ih => exact ih (hstep s e hs)

/-- Where an invariant makes the next state good exactly under the guard, and
the guard keeps the invariant, all states of a run are good if and only if the
run is guarded. -/
theorem forall_exec_take_iff_guarded {Inv Good : σ → Prop}
    (hgood : ∀ s, Inv s → Good s)
    (hstep : ∀ s e, Inv s → (Good (step s e) ↔ guard s e))
    (hkeep : ∀ s e, Inv s → guard s e → Inv (step s e)) :
    ∀ (events : List ε) (s : σ), Inv s →
      ((∀ k, Good (exec step s (events.take k))) ↔
        Guarded step guard s events) := by
  intro events
  induction events with
  | nil =>
      intro s hs
      simpa [Guarded] using hgood s hs
  | cons e events ih =>
      intro s hs
      constructor
      · intro h
        have hguard : guard s e := (hstep s e hs).1 (by simpa using h 1)
        refine ⟨hguard, (ih _ (hkeep s e hs hguard)).1 ?_⟩
        intro k
        simpa using h (k + 1)
      · rintro ⟨hguard, hrest⟩ k
        have hnext : Inv (step s e) := hkeep s e hs hguard
        cases k with
        | zero => simpa using hgood s hs
        | succ k => simpa using (ih _ hnext).2 hrest k

/-- Where a step keeps the property exactly under the guard, the property
holds in every state of a run if and only if the run is guarded. -/
theorem forall_exec_take_iff {Inv : σ → Prop}
    (hstep : ∀ s e, Inv s → (Inv (step s e) ↔ guard s e)) :
    ∀ (events : List ε) (s : σ), Inv s →
      ((∀ k, Inv (exec step s (events.take k))) ↔
        Guarded step guard s events) :=
  forall_exec_take_iff_guarded (fun _ h => h) hstep
    fun s e hs hguard => (hstep s e hs).2 hguard

/-- Where a property holds after a step exactly if it held before and the step
met the guard, it holds after a run exactly if it held at the start and the run
is guarded. -/
theorem exec_iff_and_guarded {Inv Good : σ → Prop}
    (hkeep : ∀ s e, Inv s → Inv (step s e))
    (hstep : ∀ s e, Inv s → (Good (step s e) ↔ Good s ∧ guard s e)) :
    ∀ (events : List ε) (s : σ), Inv s →
      (Good (exec step s events) ↔ Good s ∧ Guarded step guard s events) := by
  intro events
  induction events with
  | nil =>
      intro s _
      exact (and_iff_left trivial).symm
  | cons e events ih =>
      intro s hs
      rw [exec_cons, ih (step s e) (hkeep s e hs), hstep s e hs, Guarded,
        and_assoc]

end Runs

end Collabswarm
