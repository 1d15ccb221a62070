import Collabswarm.Support.Transition

/-!
# What the steps of a run put out

A step may put something out besides changing the state: a call, a delivery, a
grant.  `outputs` collects it over a run.  Where every step balances what it
takes in against what it puts out and what it holds, so does the run.
-/

namespace Collabswarm

variable {σ ε α : Type*} (step : σ → ε → σ)

/-- What the steps of a run put out, in order. -/
def outputs (out : σ → ε → List α) (s : σ) : List ε → List α
  | [] => []
  | e :: events => out s e ++ outputs out (step s e) events

variable {step} {out got gave : σ → ε → List α}

@[simp] theorem outputs_nil (s : σ) : outputs step out s [] = [] := rfl

@[simp] theorem outputs_cons (s : σ) (e : ε) (events : List ε) :
    outputs step out s (e :: events) =
      out s e ++ outputs step out (step s e) events := rfl

/-- If every step takes in at the end what it will put out at the front, so does
the run: nothing that is held is lost or overtaken. -/
theorem outputs_queue (step : σ → ε → σ) {Inv : σ → Prop}
    (held : σ → List α)
    (hkeep : ∀ s e, Inv s → Inv (step s e))
    (hstep : ∀ s e, Inv s → held s ++ got s e = gave s e ++ held (step s e)) :
    ∀ (events : List ε) (s : σ), Inv s →
      held s ++ outputs step got s events =
        outputs step gave s events ++ held (exec step s events) := by
  intro events
  induction events with
  | nil =>
      intro s _
      exact List.append_nil _
  | cons e events ih =>
      intro s hs
      have hrest := ih (step s e) (hkeep s e hs)
      calc held s ++ (got s e ++ outputs step got (step s e) events)
          = held s ++ got s e ++ outputs step got (step s e) events :=
            (List.append_assoc _ _ _).symm
        _ = gave s e ++ (held (step s e) ++
              outputs step got (step s e) events) := by
            rw [hstep s e hs, List.append_assoc]
        _ = gave s e ++ outputs step gave (step s e) events ++
              held (exec step (step s e) events) := by
            rw [hrest, List.append_assoc]

/-- If every step puts out, in any order, what it takes in or no longer holds,
so does the run: nothing is lost or made up. -/
theorem outputs_perm (step : σ → ε → σ) {Inv : σ → Prop}
    (held : σ → List α)
    (hkeep : ∀ s e, Inv s → Inv (step s e))
    (hstep : ∀ s e, Inv s →
      (held s ++ got s e).Perm (gave s e ++ held (step s e))) :
    ∀ (events : List ε) (s : σ), Inv s →
      (held s ++ outputs step got s events).Perm
        (outputs step gave s events ++ held (exec step s events)) := by
  intro events
  induction events with
  | nil =>
      intro s _
      exact List.Perm.of_eq (List.append_nil _)
  | cons e events ih =>
      intro s hs
      have hhead := (hstep s e hs).append_right
        (outputs step got (step s e) events)
      have htail := (ih (step s e) (hkeep s e hs)).append_left (gave s e)
      rw [List.append_assoc, List.append_assoc] at hhead
      rw [outputs_cons, outputs_cons, List.append_assoc, exec_cons]
      exact hhead.trans htail

end Collabswarm
